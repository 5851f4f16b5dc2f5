import Mathlib.Data.List.Sort
import MtkBoot.Xlat.Map

/-! The list of regions and the tables built from it.  It is ordered by the end of the regions and
then by their size, so the first region that contains an address is the smallest one. -/

namespace MtkBoot.Xlat

open Lib List Option Finset Region

variable {c : Ctx} {cfg : Config} {l l' : List Region} {r : Region}

variable {m : Region} {a : Nat}

namespace Region

def Before (r m : Region) : Prop := r.endVa < m.endVa ∨ r.endVa = m.endVa ∧ r.size ≤ m.size

instance : DecidableRel Before := fun _ _ => inferInstanceAs (Decidable (_ ∨ _))

instance : Std.Total Before where
  total r m := by
    unfold Before
    omega

instance : IsTrans Region Before where
  trans a b c := by
    unfold Before
    omega

/-- What `mmap_add_region_check` makes sure of for two regions of the list. -/
def Fits (cfg : Config) (r m : Region) : Prop :=
  r.Apart m ∨ (r.Within m ∨ m.Within r) ∧ ¬ (r.baseVa = m.baseVa ∧ r.size = m.size) ∧
    (cfg.dynamic = true → r.isDynamic = false ∧ m.isDynamic = false)

theorem Fits.symm (h : r.Fits cfg m) : m.Fits cfg r := by
  rcases h with h | ⟨h1, h2, h3⟩
  · exact .inl h.symm
  · exact .inr ⟨h1.symm, fun heq => h2 ⟨heq.1.symm, heq.2.symm⟩, fun hdyn => (h3 hdyn).symm⟩

theorem Fits.within (h : r.Fits cfg m) (hr : r.Ok cfg) (hm : m.Ok cfg) (hle : r.Before m) :
    r.Within m ∨ r.Apart m := by
  have h1 := hr.endVa_add_one
  have h2 := hm.endVa_add_one
  unfold Fits Within Apart at h
  unfold Before at hle
  unfold Within Apart
  omega

theorem Apart.not_contains (h : r.Apart m) (hr : r.Contains a) : ¬ m.Contains a := by
  unfold Apart Contains at *
  omega

end Region

structure Listed (cfg : Config) (l : List Region) : Prop where
  ok : ∀ r ∈ l, r.Ok cfg
  sorted : l.Pairwise Region.Before
  fits : l.Pairwise (Region.Fits cfg)

/-- The translation that the list asks for. -/
def lookup (l : List Region) (a : Nat) : Option (Nat × Nat) :=
  (l.find? fun r => r.Contains a).map (·.tr a)

theorem mmapInsert_eq (hl : l.Pairwise Before) (r : Region) :
    mmapInsert r l = l.orderedInsert Before r := by
  induction l with
  | nil => rfl
  | cons m l ih =>
    obtain ⟨hm, hl'⟩ := pairwise_cons.mp hl
    specialize ih hl'
    rw [orderedInsert_cons]
    unfold mmapInsert at ih ⊢
    by_cases hend : m.endVa < r.endVa
    · simp only [takeWhile_cons, dropWhile_cons, decide_eq_true hend, if_true]
      rw [if_neg (by unfold Before; omega), ← ih]
      rfl
    -- from here on no region ends below
    have hlow : l.takeWhile (fun m => decide (m.endVa < r.endVa)) = [] ∧
        l.dropWhile (fun m => decide (m.endVa < r.endVa)) = l := by
      cases l with
      | nil => exact ⟨rfl, rfl⟩
      | cons m' l =>
        have hm' : m.Before m' := hm m' mem_cons_self
        have hend' : ¬ m'.endVa < r.endVa := by
          unfold Before at hm'
          omega
        simp [hend']
    rw [hlow.1, hlow.2] at ih
    by_cases heq : m.endVa = r.endVa ∧ m.size < r.size
    · simp only [takeWhile_cons, dropWhile_cons, decide_eq_false hend, decide_eq_true heq,
        Bool.false_eq_true, if_false, if_true]
      rw [if_neg (by unfold Before; omega), ← ih]
      rfl
    · simp only [takeWhile_cons, dropWhile_cons, decide_eq_false hend, decide_eq_false heq,
        Bool.false_eq_true, if_false]
      rw [if_pos (by unfold Before; omega)]
      rfl

theorem compatible_fits (hr : r.Ok cfg) (hm : m.Ok cfg) (h : compatible cfg r m) :
    r.Fits cfg m := by
  have h1 := hr.endVa_add_one
  have h2 := hm.endVa_add_one
  unfold compatible at h
  split at h
  next hin =>
    split at h
    · cases h
    next hdyn =>
      split at h
      · cases h
      · split at h
        · cases h
        next hne =>
          refine .inr ⟨by unfold Region.Within; omega, hne, fun hd => ?_⟩
          simpa [hd] using hdyn
  next =>
    have h := of_decide_eq_true h
    refine .inl ?_
    unfold Apart
    omega

theorem check_ok (hpos : r.size ≠ 0) (h : mmapAddRegionCheck cfg c r = 0) :
    r.Ok cfg ∧ r.basePa + r.size ≤ 2 ^ 64 ∧ c.mmap.length < cfg.mmapNum ∧
    ∀ m ∈ c.mmap, compatible cfg r m := by
  have hlt := r.size_lt
  unfold mmapAddRegionCheck at h
  obtain ⟨halign, h⟩ := of_guard h nofun
  obtain ⟨-, h⟩ := of_guard h nofun
  obtain ⟨hover, h⟩ := of_guard h nofun
  obtain ⟨hva, h⟩ := of_guard h nofun
  obtain ⟨-, h⟩ := of_guard h nofun
  obtain ⟨hroom, h⟩ := of_guard h nofun
  rcases ite_eq_iff.mp h with ⟨hall, -⟩ | ⟨-, h⟩
  · unfold u64 at hover hva
    exact ⟨⟨by omega, by omega, by omega, by omega, by omega⟩, by omega, by omega,
      all_eq_true.mp hall⟩
  · cases h

theorem Listed.insert (h : Listed cfg c.mmap) (hpos : r.size ≠ 0)
    (hcheck : mmapAddRegionCheck cfg c r = 0) : Listed cfg (mmapInsert r c.mmap) := by
  obtain ⟨hok, -, -, hcomp⟩ := check_ok hpos hcheck
  have hperm : (mmapInsert r c.mmap).Perm (r :: c.mmap) := by
    rw [mmapInsert_eq h.sorted]
    exact perm_orderedInsert _ _ _
  constructor
  case ok =>
    intro m hm
    rcases mem_cons.mp (hperm.mem_iff.mp hm) with rfl | hm
    · exact hok
    · exact h.ok m hm
  case sorted =>
    rw [mmapInsert_eq h.sorted]
    exact h.sorted.orderedInsert _ _
  case fits =>
    rw [hperm.pairwise_iff fun hf => Region.Fits.symm hf, List.pairwise_cons]
    exact ⟨fun m hm => compatible_fits hok (h.ok m hm) (hcomp m hm), h.fits⟩

/-- How many regions of the list reach into the table at a place. -/
def reaching (l : List Region) (x : Nat × Nat) : Nat :=
  l.countP fun r => r.Meets x.2 (blockSize (x.1 + 1))

/-- The tables translate as the list asks, and each table counts the regions that reach into it. -/
structure Holds (cfg : Config) (c : Ctx) (σ : Slots) (l : List Region) : Prop
  extends Wf cfg c σ l where
  translate : ∀ a, translate cfg c a = lookup l a
  count : cfg.dynamic = true → ∀ t x, σ t = some x → c.mapped t = reaching l x

section

variable {c' : Ctx} {σ σ' : Slots}

theorem lookup_eq_none : lookup l a = none ↔ ∀ r ∈ l, ¬ r.Contains a := by
  simp [lookup, find?_eq_none]

theorem Holds.reaching_eq_zero (h : Holds cfg c σ l) (hok : ∀ m ∈ l, m.Ok cfg) {x : Nat × Nat}
    (hnone : ∀ a, x.2 ≤ a → a < x.2 + blockSize (x.1 + 1) → Xlat.translate cfg c a = none) :
    reaching l x = 0 := by
  rw [reaching, countP_eq_zero]
  intro m hm hmeets
  obtain ⟨a, hcontains, hlo, hhi⟩ :=
    (of_decide_eq_true hmeets).exists (hok m hm).pos (blockSize_pos _)
  have htr := hnone a hlo hhi
  rw [h.translate, lookup_eq_none] at htr
  exact htr m hm hcontains

theorem Holds.add (h : Holds cfg c σ l) (hlisted : ∀ m ∈ l, m.Ok cfg) (hok : r.Ok cfg)
    (hwf : Wf cfg c' σ' l') (hmapped : Mapped cfg r cfg.baseDepth 0 (cfg.vaMax + 1) c c' σ σ')
    (hlookup : ∀ a, lookup l' a = if r.Contains a then (lookup l a).or (some (r.tr a))
      else lookup l a) (hperm : l'.Perm (r :: l)) : Holds cfg c' σ' l' where
  toWf := hwf
  translate := by
    intro a
    simp only [hmapped.translate, hok.contains_iff, h.translate, hlookup]
  count := by
    intro hdyn t x hx
    obtain ⟨ht, -⟩ := hwf.place t x.1 x.2 hx
    have hbefore : c.mapped t = reaching l x := by
      cases hx' : σ t with
      | some y =>
        obtain rfl := some.inj ((hmapped.mono t y hx').symm.trans hx)
        exact h.count hdyn t y hx'
      | none =>
        rw [(h.slot_none_iff hdyn ht).mp hx', h.reaching_eq_zero hlisted (hmapped.new t x hx' hx).2,
          Nat.cast_zero]
    rw [hmapped.count hdyn, hbefore, hx, reaching, reaching, hperm.countP_eq, countP_cons]
    by_cases hmeets : r.Meets x.2 (blockSize (x.1 + 1)) <;> simp [hwf.reaches_base hx, hmeets]

theorem lookup_append (r : Region) (a : Nat) : lookup (l ++ [r]) a =
    if r.Contains a then (lookup l a).or (some (r.tr a)) else lookup l a := by
  unfold lookup
  rw [find?_append]
  cases hfind : l.find? (fun r => decide (r.Contains a)) with
  | some m => split <;> simp
  | none =>
    by_cases hcontains : r.Contains a <;> simp [hcontains]

theorem Holds.congr (h : Holds cfg c σ l)
    (hbase : c'.base = c.base) (htables : c'.tables = c.tables) (hmapped : c'.mapped = c.mapped)
    (htable : c'.nextTable = c.nextTable) : Holds cfg c' σ l where
  toTree := h.toTree.congr hbase htables
  leaf := Ctx.entry_congr hbase htables ▸ h.leaf
  meets := h.meets
  free := by
    unfold Ctx.Free
    rw [hmapped, htable]
    exact h.free
  nonneg := hmapped ▸ h.nonneg
  translate := fun a => (translate_congr hbase htables a).trans (h.translate a)
  count := hmapped ▸ h.count

theorem needed_mono (cfg : Config) (h : l ⊆ l') : needed cfg l ⊆ needed cfg l' := by
  intro x hx
  simp only [needed, Finset.mem_filter] at hx ⊢
  obtain ⟨hmem, hdvd, r, hr, hmeets⟩ := hx
  exact ⟨hmem, hdvd, r, h hr, hmeets⟩

theorem Listed.next (l : List Region) (r : Region) (todo : List Region)
    (h : Listed cfg (l ++ [r] ++ todo)) : r.Next cfg (l ++ [r]) where
  ok := h.ok r (by simp)
  mem := by simp
  rel := by
    intro m hm
    rcases mem_append.mp hm with hm | hm
    · have hsorted := (pairwise_append.mp (List.pairwise_append.mp h.sorted).1).2.2 m hm r (by simp)
      have hfits :=
        (List.pairwise_append.mp (List.pairwise_append.mp h.fits).1).2.2 m hm r (by simp)
      exact hfits.within (h.ok m (by simp [hm])) (h.ok r (by simp)) hsorted
    · obtain rfl := List.mem_singleton.mp hm
      exact .inl ⟨le_rfl, le_rfl⟩

theorem mapRegions_holds {todo : List Region}
    (h : Holds cfg c σ l) (hlisted : Listed cfg (l ++ todo)) :
    (∀ c', mapRegions cfg todo c = some c' → c'.mmap = c.mmap ∧ ∃ σ', Holds cfg c' σ' (l ++ todo)) ∧
      ((needed cfg (l ++ todo)).card ≤ cfg.tablesNum → ∃ c', mapRegions cfg todo c = some c') := by
  induction todo generalizing l c σ with
  | nil =>
    rw [append_nil]
    exact ⟨fun c' hc' => some.inj hc' ▸ ⟨rfl, σ, h⟩, fun _ => ⟨c, rfl⟩⟩
  | cons r todo ih =>
    rw [append_cons] at hlisted ⊢
    have hok := hlisted.ok r (by simp)
    have hend := hok.endVa_add_one
    have hle := hok.le
    have houtcome :=
      mapFromBase_outcome (hlisted.next l r todo) (h.toWf.mono (subset_append_left l [r]))
    rw [mapRegions]
    generalize mapFromBase cfg c r = res at houtcome
    cases houtcome with
    | @done c1 e σ1 he hwf hmapped =>
      have hholds := h.add (fun m hm => hlisted.ok m (by simp [hm])) hok hwf hmapped
        (lookup_append r) perm_append_comm
      obtain ⟨ih1, ih2⟩ := ih hholds hlisted
      simp only [bind_some]
      rw [if_pos (by omega), ← hmapped.mmap]
      exact ⟨ih1, ih2⟩
    | @short c1 e he hcard =>
      have hpage := hok.end_aligned
      simp only [bind_some]
      rw [if_neg (by omega)]
      have hsub := card_le_card (needed_mono cfg (subset_append_left (l ++ [r]) todo))
      exact ⟨nofun, fun hle => absurd hcard (by omega)⟩

theorem initXlatTablesCtx_holds (hlisted : Listed cfg c.mmap) (hinit : c.initialized = false)
    (htable : cfg.dynamic ∨ c.nextTable = 0) : (∀ c', initXlatTablesCtx cfg c = some c' →
      c'.initialized ∧ c'.mmap = c.mmap ∧ ∃ σ, Holds cfg c' σ c.mmap) ∧
    ((needed cfg c.mmap).card ≤ cfg.tablesNum → ∃ c', initXlatTablesCtx cfg c = some c') := by
  have hempty : Holds cfg
      { c with base := fun _ => .invalid, tables := fun _ _ => .invalid, mapped := fun _ => 0 }
      (fun _ => none) [] := by
    constructor
    case toWf =>
      refine ⟨⟨⟨by simp, by simp, ?_, by simp, fun _ _ _ _ => rfl⟩, ?_, by simp⟩, ?_,
        fun _ => Int.le_refl 0⟩
      · intro tbl k v i t _ _ hentry
        cases tbl <;> cases hentry
      · intro tbl k v i pa attr _ _ hentry
        cases tbl <;> cases hentry
      · intro t _
        rcases htable with hdyn | htable
        · simp [Ctx.Free, hdyn]
        · simp [Ctx.Free, htable]
    case translate =>
      intro a
      rw [translate]
      split
      · rw [walk]
        rfl
      · rfl
    case count => simp
  obtain ⟨h1, h2⟩ := mapRegions_holds hempty hlisted
  unfold initXlatTablesCtx
  rw [if_neg (by simp [hinit])]
  constructor
  · intro c' hc'
    obtain ⟨c1, hc1, rfl⟩ := map_eq_some_iff.mp hc'
    obtain ⟨hmmap, σ, hholds⟩ := h1 c1 hc1
    exact ⟨rfl, hmmap, σ, hholds.congr rfl rfl rfl rfl⟩
  · intro hcard
    obtain ⟨c1, hc1⟩ := h2 hcard
    exact ⟨_, map_eq_some_iff.mpr ⟨c1, hc1, rfl⟩⟩

def addRegions (cfg : Config) (rs : List Region) (c : Ctx) : Option Ctx :=
  rs.foldlM (mmapAddRegionCtx cfg) c

/-- The translation of an address is that of the smallest of the regions that contain it. -/
def Implements (cfg : Config) (c : Ctx) (rs : List Region) : Prop := ∀ va ≤ cfg.vaMax,
    (∀ r ∈ rs, r.Contains va → (∀ m ∈ rs, m.Contains va → r.size ≤ m.size) →
      translate cfg c va = some (r.basePa + (va - r.baseVa), r.attr)) ∧
    ((∀ r ∈ rs, ¬ r.Contains va) → translate cfg c va = none)

structure Open (cfg : Config) (c : Ctx) : Prop where
  listed : Listed cfg c.mmap
  init : c.initialized = false
  table : c.nextTable = 0

theorem mmapAddRegionCtx_some (hadd : mmapAddRegionCtx cfg c r = some c') :
    r.size = 0 ∧ c' = c ∨ r.size ≠ 0 ∧ c.initialized = false ∧ mmapAddRegionCheck cfg c r = 0 ∧
      c' = { c with mmap := mmapInsert r c.mmap }.raiseMax r := by
  rcases ite_eq_iff.mp hadd with ⟨hsize, hadd⟩ | ⟨hsize, hadd⟩
  · exact .inl ⟨hsize, (some.inj hadd).symm⟩
  obtain ⟨hinit, hadd⟩ := of_guard hadd nofun
  rcases ite_eq_iff.mp hadd with ⟨-, hadd⟩ | ⟨hcheck, hadd⟩
  · cases hadd
  · exact .inr ⟨hsize, by simpa using hinit, not_not.mp hcheck, (some.inj hadd).symm⟩

theorem mmapAddRegionCtx_open (h : Open cfg c) (hadd : mmapAddRegionCtx cfg c r = some c') :
    Open cfg c' ∧ ∀ m, m ∈ c'.mmap ↔ m ∈ c.mmap ∨ m = r ∧ r.size ≠ 0 := by
  rcases mmapAddRegionCtx_some hadd with ⟨hsize, rfl⟩ | ⟨hsize, -, hcheck, rfl⟩
  · exact ⟨h, by simp [hsize]⟩
  · refine ⟨⟨h.listed.insert hsize hcheck, h.init, h.table⟩, fun m => ?_⟩
    have hmem : m ∈ mmapInsert r c.mmap ↔ m = r ∨ m ∈ c.mmap := by
      rw [mmapInsert_eq h.listed.sorted, mem_orderedInsert]
    tauto

theorem addRegions_open {rs : List Region} (h : Open cfg c) (hadd : addRegions cfg rs c = some c') :
    Open cfg c' ∧ ∀ m, m ∈ c'.mmap ↔ m ∈ c.mmap ∨ m ∈ rs ∧ m.size ≠ 0 := by
  unfold addRegions at hadd
  induction rs generalizing c with
  | nil =>
    cases hadd
    exact ⟨h, by simp⟩
  | cons r rs ih =>
    rw [foldlM_cons] at hadd
    obtain ⟨c1, hc1, hadd⟩ := bind_eq_some_iff.mp hadd
    obtain ⟨hopen, hmem⟩ := mmapAddRegionCtx_open h hc1
    obtain ⟨hopen', hmem'⟩ := ih hopen hadd
    refine ⟨hopen', fun m => ?_⟩
    rw [hmem', hmem, List.mem_cons]
    constructor
    · rintro ((hm | ⟨rfl, hsize⟩) | ⟨hm, hsize⟩)
      · exact .inl hm
      · exact .inr ⟨.inl rfl, hsize⟩
      · exact .inr ⟨.inr hm, hsize⟩
    · rintro (hm | ⟨rfl | hm, hsize⟩)
      · exact .inl (.inl hm)
      · exact .inl (.inr ⟨rfl, hsize⟩)
      · exact .inr ⟨hm, hsize⟩

/-- The first region of the list that contains an address is the smallest. -/
theorem Listed.lookup_smallest (h : Listed cfg l) (hr : r ∈ l) (hcontains : r.Contains a)
    (hmin : ∀ m ∈ l, m.Contains a → r.size ≤ m.size) : lookup l a = some (r.tr a) := by
  induction l with
  | nil => cases hr
  | cons m l ih =>
    obtain ⟨hsorted, hsorted'⟩ := pairwise_cons.mp h.sorted
    obtain ⟨hfits, hfits'⟩ := pairwise_cons.mp h.fits
    unfold lookup
    rw [find?_cons]
    by_cases hm : m.Contains a
    · -- a region further down that contains the address is not smaller
      rw [decide_eq_true hm]
      rcases mem_cons.mp hr with rfl | hr
      · rfl
      have hle := hmin m mem_cons_self hm
      have hin := (hfits r hr).within (h.ok m (by simp)) (h.ok r (by simp [hr])) (hsorted r hr)
      rcases hfits r hr with hapart | ⟨-, hne, -⟩
      · exact absurd hcontains (hapart.not_contains hm)
      · rcases hin with hin | hapart
        · unfold Region.Within at hin
          omega
        · exact absurd hcontains (hapart.not_contains hm)
    · rw [decide_eq_false hm]
      rcases mem_cons.mp hr with rfl | hr
      · exact absurd hcontains hm
      · exact ih ⟨fun m hm => h.ok m (by simp [hm]), hsorted', hfits'⟩ hr fun m hm => hmin m
          (mem_cons_of_mem _ hm)

/-- For every list of regions that are accepted one by one, tables that are built from it implement
it; and they are built if there is a table for each place that the regions reach into. -/
theorem tables_implement_regions (cfg : Config) (rs : List Region) (c : Ctx)
    (hadd : addRegions cfg rs emptyCtx = some c) :
    (∀ c', initXlatTablesCtx cfg c = some c' → Implements cfg c' rs) ∧
      ((needed cfg rs).card ≤ cfg.tablesNum → ∃ c', initXlatTablesCtx cfg c = some c') := by
  obtain ⟨hopen, hmem⟩ :=
    addRegions_open (c := emptyCtx) ⟨⟨by simp [emptyCtx], .nil, .nil⟩, rfl, rfl⟩ hadd
  have hmem' : ∀ m, m ∈ c.mmap ↔ m ∈ rs ∧ m.size ≠ 0 := by
    intro m
    rw [hmem]
    simp [emptyCtx]
  obtain ⟨h₁, h₂⟩ := initXlatTablesCtx_holds hopen.listed hopen.init (.inr hopen.table)
  constructor
  · intro c' hc' va hva
    obtain ⟨-, -, σ, hholds⟩ := h₁ c' hc'
    rw [hholds.translate]
    constructor
    · intro r hr hcontains hmin
      have hsize : r.size ≠ 0 := by
        unfold Contains at hcontains
        omega
      exact hopen.listed.lookup_smallest ((hmem' r).mpr ⟨hr, hsize⟩) hcontains fun m hm => hmin m
        ((hmem' m).mp hm).1
    · intro hnone
      rw [lookup_eq_none]
      exact fun r hr => hnone r ((hmem' r).mp hr).1
  · intro hcard
    refine h₂ (le_trans (card_le_card (needed_mono cfg fun m hm => ((hmem' m).mp hm).1)) hcard)

end

def config32 (dynamic : Bool) : Config where
  dynamic
  paMax := 2 ^ 40 - 1
  vaMax := 2 ^ 32 - 1
  mmapNum := 4
  tablesNum := 2
  baseDepth := 2
  baseEntries := 4
  space := by decide
  va_lt := by decide
  pa_lt := by decide

def pages (va size attr : Nat) (hsize : size < 2 ^ 64) : Region := ⟨va, va, size, attr, 4096, hsize⟩

/-- Regions in the first two MiB need one table of level 2 and one of level 3. -/
theorem config32_tables (dynamic : Bool) {rs : List Region}
    (hrs : ∀ r ∈ rs, r.baseVa + r.size ≤ 2 ^ 21) :
    (needed (config32 dynamic) rs).card ≤ (config32 dynamic).tablesNum := by
  have hsub : needed (config32 dynamic) rs ⊆ {(0, 0), (1, 0)} := by
    rintro ⟨k, v⟩ hx
    obtain ⟨hin, hdvd, r, hr, hmeets⟩ := Finset.mem_filter.mp hx
    have hk : k < 2 := Finset.mem_range.mp (Finset.mem_product.mp hin).1
    have hv : v < 2 ^ 21 := lt_of_lt_of_le hmeets.2 (hrs r hr)
    have hzero : v = 0 := by
      refine Nat.eq_zero_of_dvd_of_lt hdvd (lt_of_lt_of_le hv ?_)
      exact Nat.pow_le_pow_right (by decide) (by omega)
    have : k = 0 ∨ k = 1 := by omega
    simpa [hzero] using this
  exact card_le_card hsub

theorem addRegions_nested : addRegions (config32 false) [pages 0 0x4000 1 (by decide),
      pages 0x1000 0x1000 2 (by decide)] emptyCtx = some { emptyCtx with
        mmap := [pages 0x1000 0x1000 2 (by decide), pages 0 0x4000 1 (by decide)]
        maxPa := 0x3fff
        maxVa := 0x3fff } := by
  rfl

theorem tables_implement_nested : ∃ c c', addRegions (config32 false)
        [pages 0 0x4000 1 (by decide), pages 0x1000 0x1000 2 (by decide)] emptyCtx = some c ∧
      initXlatTablesCtx (config32 false) c = some c' ∧
      translate (config32 false) c' 0x1234 = some (0x1234, 2) ∧
      translate (config32 false) c' 0x2345 = some (0x2345, 1) ∧
      translate (config32 false) c' 0x4000 = none := by
  obtain ⟨himpl, hinit⟩ := tables_implement_regions _ _ _ addRegions_nested
  obtain ⟨c', hc'⟩ := hinit (config32_tables false (by decide))
  have hall := himpl c' hc'
  refine ⟨_, c', addRegions_nested, hc', ?_, ?_, ?_⟩
  · exact (hall 0x1234 (by decide)).1 (pages 0x1000 0x1000 2 (by decide)) (by simp) (by decide)
      (by decide)
  · exact (hall 0x2345 (by decide)).1 (pages 0 0x4000 1 (by decide)) (by simp) (by decide)
      (by decide)
  · exact (hall 0x4000 (by decide)).2 (by decide)

end MtkBoot.Xlat
