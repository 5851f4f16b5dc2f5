import MtkBoot.Lib.System
import MtkBoot.Xlat.Unmap

/-! Regions that come and go.  Over every run of calls that succeed, the tables translate as the
list of regions asks. -/

namespace MtkBoot.Xlat

open Lib List Option Prod

variable {os : List Region} {t : Nat}

variable {cfg : Config} {c c' : Ctx} {σ : Slots} {l l1 l2 : List Region} {r : Region}

/-! ### One region that is apart from the others -/

theorem lookup_middle (hapart : ∀ m ∈ l1 ++ l2, m.Apart r) (a : Nat) : lookup (l1 ++ r :: l2) a =
    if r.Contains a then some (r.tr a) else lookup (l1 ++ l2) a := by
  unfold lookup
  rw [find?_append, find?_append, find?_cons]
  by_cases ha : r.Contains a
  · have hnone : l1.find? (fun m => decide (m.Contains a)) = none := by
      rw [find?_eq_none]
      intro m hm hcontains
      exact (hapart m (mem_append_left _ hm)).not_contains (of_decide_eq_true hcontains) ha
    simp [hnone, ha]
  · simp [ha]

theorem lookup_of_apart (hapart : ∀ m ∈ l, m.Apart r) {a : Nat} (ha : r.Contains a) :
    lookup l a = none := by
  rw [lookup_eq_none]
  intro m hm hcontains
  exact (hapart m hm).not_contains hcontains ha

theorem Region.Fits.apart {m : Region} (h : r.Fits cfg m) (hdyn : cfg.dynamic) (hr : r.isDynamic) :
    m.Apart r := by
  rcases h with h | ⟨-, -, h⟩
  · exact h.symm
  · exact absurd hr (by simp [(h hdyn).1])

theorem Listed.erase (h : Listed cfg l) (hr : r ∈ l) :
    Listed cfg (l.erase r) ∧ ∀ m ∈ l.erase r, r.Fits cfg m := by
  have hsub := erase_sublist (a := r) (l := l)
  refine ⟨⟨fun m hm => h.ok m (hsub.subset hm), h.sorted.sublist hsub, h.fits.sublist hsub⟩, ?_⟩
  have hpair := ((perm_cons_erase hr).pairwise_iff fun hf => Region.Fits.symm hf).mp h.fits
  exact (pairwise_cons.mp hpair).1

theorem Holds.addDynamic (h : Holds cfg c σ c.mmap)
    (hlisted : Listed cfg c.mmap) (hdyn : cfg.dynamic)
    (hsize : r.size ≠ 0) (hr : r.isDynamic) (hcheck : mmapAddRegionCheck cfg c r = 0) {e : Nat}
    (hmap : mapFromBase cfg { c with mmap := mmapInsert r c.mmap } r = some (c', e))
    (he : e = r.endVa) :
    c'.mmap = mmapInsert r c.mmap ∧ (∃ σ', Holds cfg c' σ' (mmapInsert r c.mmap)) ∧
      ∀ a, ¬ r.Contains a → Xlat.translate cfg c' a = Xlat.translate cfg c a := by
  obtain ⟨hok, -, -, hcomp⟩ := check_ok hsize hcheck
  obtain ⟨l1, l2, hl, hl'⟩ : ∃ l1 l2, c.mmap = l1 ++ l2 ∧ mmapInsert r c.mmap = l1 ++ r :: l2 := by
    refine ⟨_, _, ?_, rfl⟩
    rw [append_assoc, takeWhile_append_dropWhile, takeWhile_append_dropWhile]
  have hapart : ∀ m ∈ l1 ++ l2, m.Apart r := by
    intro m hm
    rw [← hl] at hm
    exact (compatible_fits hok (hlisted.ok m hm) (hcomp m hm)).apart hdyn hr
  have hperm : (mmapInsert r c.mmap).Perm (r :: c.mmap) := by
    rw [hl', hl]
    exact perm_middle
  have hnext : r.Next cfg (mmapInsert r c.mmap) := by
    refine ⟨hok, hperm.mem_iff.mpr mem_cons_self, fun m hm => ?_⟩
    rcases mem_cons.mp (hperm.mem_iff.mp hm) with rfl | hm
    · exact .inl ⟨le_rfl, le_rfl⟩
    · exact .inr (hapart m (hl ▸ hm))
  have hholds : Holds cfg { c with mmap := mmapInsert r c.mmap } σ c.mmap := h.congr rfl rfl rfl rfl
  have houtcome := mapFromBase_outcome hnext
    (hholds.toWf.mono fun m hm => hperm.mem_iff.mpr (mem_cons_of_mem _ hm))
  rw [hmap] at houtcome
  cases houtcome with
  | @done c1 e1 σ1 he1 hwf hmapped =>
    have hlookup : ∀ a, lookup (mmapInsert r c.mmap) a =
        if r.Contains a then (lookup c.mmap a).or (some (r.tr a)) else lookup c.mmap a := by
      intro a
      rw [hl', lookup_middle hapart, ← hl]
      split
      next ha => rw [lookup_of_apart (hl ▸ hapart) ha, none_or]
      next => rfl
    have hnew := hholds.add hlisted.ok hok hwf hmapped hlookup hperm
    refine ⟨hmapped.mmap, ⟨σ1, hnew⟩, fun a ha => ?_⟩
    rw [hnew.translate, h.translate, hlookup, if_neg ha]
  | short hpage hcard =>
    have := hok.endVa_add_one
    have := hok.end_aligned
    omega

theorem reaching_cons_perm (hperm : l.Perm (r :: os)) (x : Nat × Nat) :
    reaching l x = reaching os x + if r.Meets x.2 (blockSize (x.1 + 1)) then 1 else 0 := by
  rw [reaching, hperm.countP_eq, countP_cons, reaching]
  simp

theorem Holds.ready (h : Holds cfg c σ l) (hdyn : cfg.dynamic) (hperm : l.Perm (r :: os)) :
    Ready cfg r os cfg.baseDepth 0 (cfg.vaMax + 1) c σ where
  toServed := (h.toWf.mono hperm.subset).toServed
  mapped := by
    intro a _ _ ha hnone
    rw [h.translate, lookup_eq_none] at hnone
    exact hnone r (hperm.mem_iff.mpr mem_cons_self) ha
  count := by
    intro t x hx _ _ _
    rw [h.count hdyn t x hx, reaching_cons_perm hperm]
    split <;> rfl

theorem Holds.unmapped {σ' : Slots} (h : Holds cfg c σ l)
    (hdyn : cfg.dynamic) (hperm : l.Perm (r :: os)) (hserved : Served cfg c' σ' (r :: os))
    (hun : Unmapped cfg r os cfg.baseDepth 0 (cfg.vaMax + 1) c c' σ σ')
    (hlookup : ∀ a, lookup os a = if r.Contains a then none else lookup l a) (hok : r.Ok cfg) :
    Holds cfg c' σ' os := by
  have htranslate : ∀ a, Xlat.translate cfg c' a = lookup os a := by
    intro a
    simp only [hun.translate, hok.contains_iff, h.translate, hlookup]
  have hcount (t x) (hx : σ t = some x) : c'.mapped t = reaching os x := by
    rw [hun.count, h.count hdyn t x hx, reaching_cons_perm hperm, hx]
    simp only [h.reaches_base hx]
    split <;> omega
  have hfree (t) (hx : σ t = none) : c'.mapped t = c.mapped t := by
    rw [hun.count, hx, if_neg (show ¬ r.Reaches _ _ _ none from id), sub_zero]
  -- a table that is left is reached by another region
  have hother (t x) (hx : σ' t = some x) : reaching os x ≠ 0 := by
    obtain ⟨hx', hnot⟩ := hun.slot_some hx
    obtain ⟨m, hm, hmeets⟩ := hserved.meets t x.1 x.2 hx
    rcases mem_cons.mp hm with rfl | hm
    · exact hnot ((h.reaches_base hx').mpr hmeets)
    · exact reaching_pos hm hmeets
  refine ⟨⟨⟨hserved.toTree, ?_, ?_⟩, ?_, ?_⟩, htranslate,
    fun _ t x hx => hcount t x (hun.slot_some hx).1⟩
  · intro tbl k v i pa attr hat hi hentry
    obtain ⟨m, hm, h1, h2⟩ := hserved.leaf tbl k v i pa attr hat hi hentry
    rcases mem_cons.mp hm with rfl | hm
    · -- no leaf is left of the region
      have hpos := blockSize_pos k
      have htr := htranslate (v + i * blockSize k)
      rw [hlookup, if_pos ⟨h1, by omega⟩,
        hserved.translate_at hat hi le_rfl (Nat.lt_add_of_pos_right hpos), hentry, walk] at htr
      cases htr
    · exact ⟨m, hm, h1, h2⟩
  · intro t k v hx
    exact exists_of_reaching (hother t (k, v) hx)
  · intro t ht
    rw [Ctx.Free, if_pos hdyn]
    cases hx : σ t with
    | none =>
      rw [hfree t hx, (h.slot_none_iff hdyn ht).mp hx, hun.slot, hx]
      simp
    | some x =>
      rw [hcount t x hx]
      constructor
      · intro hnone
        rw [hun.slot] at hnone
        split at hnone
        next hidle =>
          rw [hx] at hidle
          exact congrArg Nat.cast hidle.2
        next => cases hx.symm.trans hnone
      · intro hzero
        by_contra hne
        obtain ⟨y, hy⟩ := ne_none_iff_exists'.mp hne
        obtain rfl := some.inj (hx.symm.trans (hun.slot_some hy).1)
        exact hother t x hy (by exact_mod_cast hzero)
  · intro t
    cases hx : σ t with
    | none =>
      rw [hfree t hx]
      exact h.nonneg t
    | some x =>
      rw [hcount t x hx]
      exact Int.natCast_nonneg _

theorem Holds.remove (h : Holds cfg c σ c.mmap) (hlisted : Listed cfg c.mmap) (hdyn : cfg.dynamic)
    (hmem : r ∈ c.mmap) (hr : r.isDynamic) :
    ∃ c1, unmapFromBase cfg c r = some c1 ∧ (∃ σ', Holds cfg c1 σ' (c.mmap.erase r)) ∧
      ∀ a, Xlat.translate cfg c1 a = if r.Contains a then none else Xlat.translate cfg c a := by
  have hok := hlisted.ok r hmem
  have hapart : ∀ m ∈ c.mmap.erase r, m.Apart r :=
    fun m hm => ((hlisted.erase hmem).2 m hm).apart hdyn hr
  have hperm := perm_cons_erase hmem
  have hlookup : ∀ a, lookup (c.mmap.erase r) a = if r.Contains a then none
      else lookup c.mmap a := by
    intro a
    obtain ⟨l1, l2, -, hl, herase⟩ := exists_erase_eq hmem
    split
    next ha => exact lookup_of_apart hapart ha
    next ha =>
      rw [herase] at hapart ⊢
      rw [hl, lookup_middle hapart, if_neg ha]
  obtain ⟨c1, σ1, hc1, hserved, hun⟩ := unmapFromBase_spec hok hapart (h.ready hdyn hperm)
  have hnew := h.unmapped hdyn hperm hserved hun hlookup hok
  refine ⟨c1, hc1, ⟨σ1, hnew⟩, fun a => ?_⟩
  rw [hnew.translate, hlookup, h.translate]

inductive Step (cfg : Config) (c c' : Ctx) : Prop
  | addRegion (r : Region) : mmapAddRegionCtx cfg c r = some c' → Step cfg c c'
  | init : initXlatTablesCtx cfg c = some c' → Step cfg c c'
  | add (mm : Region) : mmapAddDynamicRegionCtx cfg c mm = some (0, c') → Step cfg c c'
  | remove (baseVa size : Nat) : mmapRemoveDynamicRegionCtx cfg c baseVa size = some (0, c') →
      Step cfg c c'

structure Good (cfg : Config) (c : Ctx) : Prop where
  listed : Listed cfg c.mmap
  tables : c.initialized = true → ∃ σ, Holds cfg c σ c.mmap

theorem isDynamic_or (mm : Region) :
    ({ mm with attr := mm.attr ||| 2 ^ 31 } : Region).isDynamic := by
  rw [Region.isDynamic, Nat.testBit_or, Bool.or_eq_true]
  exact .inr (by decide)

theorem addDynamic_spec (h : Good cfg c) (hdyn : cfg.dynamic) {mm : Region}
    (hadd : mmapAddDynamicRegionCtx cfg c mm = some (0, c')) : Good cfg c' ∧ (c.initialized →
      ∀ a, ¬ mm.Contains a → translate cfg c' a = translate cfg c a) := by
  rcases ite_eq_iff.mp hadd with ⟨-, hadd⟩ | ⟨hsize, hadd⟩
  · obtain rfl := (mk.inj (some.inj hadd)).2
    exact ⟨h, fun _ _ _ => rfl⟩
  have hr := isDynamic_or mm
  have hcontains (a) : ({ mm with attr := mm.attr ||| 2 ^ 31 } : Region).Contains a ↔
    mm.Contains a := Iff.rfl
  generalize hmm : ({ mm with attr := mm.attr ||| 2 ^ 31 } : Region) = r at hadd hr hcontains
  have hsize' : r.size ≠ 0 := hmm ▸ hsize
  rcases ite_eq_iff.mp hadd with ⟨hne, hadd⟩ | ⟨hcheck, hadd⟩
  · exact absurd (mk.inj (some.inj hadd)).1 hne
  rw [not_not] at hcheck
  have hlisted := h.listed.insert hsize' hcheck
  rcases ite_eq_iff.mp hadd with ⟨hinit, hadd⟩ | ⟨hinit, hadd⟩
  · obtain ⟨⟨c1, e⟩, hmap, hadd⟩ := bind_eq_some_iff.mp hadd
    obtain ⟨σ, hholds⟩ := h.tables hinit
    rcases ite_eq_iff.mp hadd with ⟨he, hadd⟩ | ⟨-, hadd⟩
    · obtain rfl := (mk.inj (some.inj hadd)).2
      obtain ⟨hmmap, ⟨σ1, hholds1⟩, htr⟩ := hholds.addDynamic h.listed hdyn hsize' hr hcheck hmap he
      refine ⟨⟨?_, fun _ => ⟨σ1, ?_⟩⟩, fun _ a ha => ?_⟩
      · exact hmmap ▸ hlisted
      · rw [show (c1.raiseMax r).mmap = c1.mmap from rfl, hmmap]
        exact hholds1.congr rfl rfl rfl rfl
      · rw [translate_congr (show (c1.raiseMax r).base = c1.base from rfl) rfl]
        exact htr a fun ha' => ha ((hcontains a).mp ha')
    · -- the call fails
      rcases ite_eq_iff.mp hadd with ⟨-, hadd⟩ | ⟨-, hadd⟩
      · cases (mk.inj (some.inj hadd)).1
      · obtain ⟨c2, -, hadd⟩ := map_eq_some_iff.mp hadd
        cases (mk.inj hadd).1
  · obtain rfl := (mk.inj (some.inj hadd)).2
    exact ⟨⟨hlisted, fun htrue => absurd htrue hinit⟩, fun htrue => absurd htrue hinit⟩

theorem removeDynamic_spec (h : Good cfg c) (hdyn : cfg.dynamic)
    (hmem : r ∈ c.mmap) (hr : r.isDynamic)
    (hfind : c.mmap.find? (fun m => m.baseVa = r.baseVa ∧ m.size = r.size) = some r) :
    ∃ c', mmapRemoveDynamicRegionCtx cfg c r.baseVa r.size = some (0, c') ∧ Good cfg c' ∧
      (c.initialized → ∀ a, translate cfg c' a = if r.Contains a then none
        else translate cfg c a) := by
  have hlisted := (h.listed.erase hmem).1
  unfold mmapRemoveDynamicRegionCtx
  rw [hfind]
  dsimp only
  rw [if_neg (by simp [hr])]
  cases hinit : c.initialized with
  | true =>
    obtain ⟨σ, hholds⟩ := h.tables hinit
    obtain ⟨c1, hc1, ⟨σ1, hholds1⟩, htr⟩ := hholds.remove h.listed hdyn hmem hr
    rw [if_pos rfl, hc1]
    refine ⟨_, rfl, ⟨hlisted, fun _ => ⟨σ1, hholds1.congr rfl rfl rfl rfl⟩⟩, fun _ a => ?_⟩
    rw [← htr a]
    refine translate_congr ?_ ?_ a <;> rfl
  | false =>
    rw [if_neg Bool.false_ne_true]
    exact ⟨_, rfl, ⟨hlisted, fun htrue => absurd (hinit.symm.trans htrue) Bool.false_ne_true⟩,
      fun htrue => absurd htrue Bool.false_ne_true⟩

theorem removeDynamic_zero {baseVa size : Nat}
    (h : mmapRemoveDynamicRegionCtx cfg c baseVa size = some (0, c')) :
    ∃ r ∈ c.mmap, r.isDynamic ∧ r.baseVa = baseVa ∧ r.size = size ∧
      c.mmap.find? (fun m => m.baseVa = r.baseVa ∧ m.size = r.size) = some r := by
  unfold mmapRemoveDynamicRegionCtx at h
  split at h
  · cases (mk.inj (some.inj h)).1
  next r hfind =>
    have hfound := find?_some hfind
    obtain ⟨rfl, rfl⟩ := of_decide_eq_true hfound
    rcases ite_eq_iff.mp h with ⟨-, h⟩ | ⟨hr, -⟩
    · cases (mk.inj (some.inj h)).1
    · exact ⟨r, mem_of_find?_eq_some hfind, by simpa using hr, rfl, rfl, hfind⟩

theorem Listed.find_dynamic (h : Listed cfg l) (hdyn : cfg.dynamic) (hmem : r ∈ l)
    (hr : r.isDynamic) : l.find? (fun m => m.baseVa = r.baseVa ∧ m.size = r.size) = some r := by
  cases hfind : l.find? (fun m => m.baseVa = r.baseVa ∧ m.size = r.size) with
  | none => exact absurd (decide_eq_true ⟨rfl, rfl⟩) (find?_eq_none.mp hfind r hmem)
  | some m =>
    have hm := mem_of_find?_eq_some hfind
    have hfound := find?_some hfind
    obtain ⟨hbase, hsize⟩ := of_decide_eq_true hfound
    by_contra hne
    have hne' : m ≠ r := fun heq => hne (congrArg some heq)
    have hapart := ((h.erase hmem).2 m ((mem_erase_of_ne hne').mpr hm)).apart hdyn hr
    have := (h.ok r hmem).pos
    unfold Region.Apart at hapart
    omega

theorem Good.step (h : Good cfg c) (hdyn : cfg.dynamic) (hstep : Step cfg c c') : Good cfg c' := by
  cases hstep with
  | addRegion r hadd =>
    rcases mmapAddRegionCtx_some hadd with ⟨-, rfl⟩ | ⟨hsize, hinit, hcheck, rfl⟩
    · exact h
    · exact ⟨h.listed.insert hsize hcheck,
        fun htrue => absurd (hinit.symm.trans htrue) Bool.false_ne_true⟩
  | init hinit =>
    have hfalse : c.initialized = false := by
      by_contra htrue
      rw [initXlatTablesCtx, if_pos (by simpa using htrue)] at hinit
      cases hinit
    obtain ⟨-, hmmap, σ, hholds⟩ := (initXlatTablesCtx_holds h.listed hfalse (.inl hdyn)).1 c' hinit
    exact ⟨hmmap ▸ h.listed, fun _ => ⟨σ, hmmap ▸ hholds⟩⟩
  | add mm hadd => exact (addDynamic_spec h hdyn hadd).1
  | remove baseVa size hremove =>
    obtain ⟨r, hmem, hr, rfl, rfl, hfind⟩ := removeDynamic_zero hremove
    obtain ⟨c1, hc1, hgood, -⟩ := removeDynamic_spec h hdyn hmem hr hfind
    obtain rfl := (mk.inj (some.inj (hremove.symm.trans hc1))).2
    exact hgood

theorem good_of_reachable (hdyn : cfg.dynamic) (hc : Reachable (· = emptyCtx) (Step cfg) c) :
    Good cfg c := by
  refine hc.invariant ?_ fun s s' h hstep => h.step hdyn hstep
  rintro s rfl
  exact ⟨⟨nofun, .nil, .nil⟩, fun h => absurd h Bool.false_ne_true⟩

/-- The table is linked below the base table, at level `3 - k` and from address `v` on. -/
inductive LinkedAt (cfg : Config) (c : Ctx) : Nat → Nat → Nat → Prop
  | base {t k i : Nat} : k + 1 = cfg.baseDepth → i < cfg.baseEntries → c.base i = .table t →
    LinkedAt cfg c t k (i * blockSize (k + 1))
  | table {t t' k v i : Nat} : LinkedAt cfg c t' (k + 1) v → i < tableEntries →
      c.tables t' i = .table t → LinkedAt cfg c t k (v + i * blockSize (k + 1))

theorem Tree.linkedAt_iff (h : Tree cfg c σ) {k v : Nat} :
    LinkedAt cfg c t k v ↔ σ t = some (k, v) := by
  constructor
  · intro hlinked
    induction hlinked with
    | base hk hi hentry =>
      obtain ⟨j, hj, hslot⟩ := h.entry none _ 0 _ _ ⟨rfl, rfl⟩ hi hentry
      obtain rfl := Nat.succ.inj (hk.trans hj)
      rw [hslot, zero_add, hk]
    | table hlinked hi hentry ih =>
      obtain ⟨j, hj, hslot⟩ := h.entry (some _) _ _ _ _ ih hi hentry
      obtain rfl := Nat.succ.inj hj
      exact hslot
  · -- up from the table to the base table
    intro hslot
    induction hd : cfg.baseDepth - k generalizing t k v with
    | zero =>
      have := (h.place t k v hslot).2.1
      omega
    | succ d ih =>
      obtain ⟨tbl, v', i, hat, hi, rfl, hentry⟩ := h.linked t k v hslot
      cases tbl with
      | none =>
        obtain ⟨hk, rfl⟩ := hat
        rw [zero_add]
        exact .base hk hi hentry
      | some t' => exact .table (ih hat (by omega)) hi hentry

/-- The table is linked at one place and counts the regions that reach into it, or it is not linked,
is empty and counts none. -/
def Accounted (cfg : Config) (c : Ctx) (t : Nat) : Prop :=
  (∃ k v, (∀ k' v', LinkedAt cfg c t k' v' ↔ k' = k ∧ v' = v) ∧
      c.mapped t = reaching c.mmap (k, v) ∧ c.mapped t ≠ 0) ∨
    (c.mapped t = 0 ∧ (∀ tbl i, i < cfg.entries tbl → c.entry tbl i ≠ .table t) ∧
      ∀ i < tableEntries, c.tables t i = .invalid)

theorem Holds.accounted (h : Holds cfg c σ c.mmap) (hdyn : cfg.dynamic) (ht : t < cfg.tablesNum) :
    Accounted cfg c t := by
  cases hx : σ t with
  | some x =>
    obtain ⟨k, v⟩ := x
    refine .inl ⟨k, v, fun k' v' => ?_, h.count hdyn t _ hx, fun hzero => ?_⟩
    · rw [h.linkedAt_iff, hx]
      simp only [some.injEq, mk.injEq]
      constructor
      · exact fun heq => ⟨heq.1.symm, heq.2.symm⟩
      · exact fun heq => ⟨heq.1.symm, heq.2.symm⟩
    · cases ((h.slot_none_iff hdyn ht).mpr hzero).symm.trans hx
  | none =>
    refine .inr ⟨(h.slot_none_iff hdyn ht).mp hx, fun tbl i hi hentry => ?_, h.empty t hx⟩
    cases tbl with
    | none =>
      obtain ⟨j, -, hslot⟩ := h.entry none _ 0 i t ⟨rfl, rfl⟩ hi hentry
      cases hx.symm.trans hslot
    | some t' =>
      cases hx' : σ t' with
      | none => cases (h.empty t' hx' i hi).symm.trans hentry
      | some x =>
        obtain ⟨j, -, hslot⟩ := h.entry (some t') x.1 x.2 i t hx' hi hentry
        cases hx.symm.trans hslot

/-- In every initialised context that successful calls lead to, adding a region changes no
translation outside it, removing one unmaps exactly its addresses, every dynamic region can be
removed, and all tables are accounted for. -/
theorem dynamic_regions_undone (cfg : Config) (hdyn : cfg.dynamic = true) (c : Ctx)
    (hc : Reachable (· = emptyCtx) (Step cfg) c) (hinit : c.initialized = true) :
    (∀ mm c', mmapAddDynamicRegionCtx cfg c mm = some (0, c') →
      ∀ a, ¬ mm.Contains a → translate cfg c' a = translate cfg c a) ∧
    (∀ baseVa size c', mmapRemoveDynamicRegionCtx cfg c baseVa size = some (0, c') →
      ∀ a, translate cfg c' a =
        if baseVa ≤ a ∧ a < baseVa + size then none else translate cfg c a) ∧
    (∀ r ∈ c.mmap, r.isDynamic = true →
      ∃ c', mmapRemoveDynamicRegionCtx cfg c r.baseVa r.size = some (0, c')) ∧
    ∀ t < cfg.tablesNum, Accounted cfg c t := by
  have hgood := good_of_reachable hdyn hc
  refine ⟨fun mm c' hadd => (addDynamic_spec hgood hdyn hadd).2 hinit, ?_, ?_, ?_⟩
  · intro baseVa size c' hremove a
    obtain ⟨r, hmem, hr, rfl, rfl, hfind⟩ := removeDynamic_zero hremove
    obtain ⟨c₁, hc₁, -, htr⟩ := removeDynamic_spec hgood hdyn hmem hr hfind
    obtain rfl := (mk.inj (some.inj (hremove.symm.trans hc₁))).2
    exact htr hinit a
  · intro r hmem hr
    obtain ⟨c', hc', -⟩ :=
      removeDynamic_spec hgood hdyn hmem hr (hgood.listed.find_dynamic hdyn hmem hr)
    exact ⟨c', hc'⟩
  · obtain ⟨σ, hholds⟩ := hgood.tables hinit
    exact fun t ht => hholds.accounted hdyn ht

def twoPages : Ctx :=
  { emptyCtx with
    mmap := [pages 0x1000 0x1000 (1 ||| 2 ^ 31) (by decide),
      pages 0x3000 0x1000 (2 ||| 2 ^ 31) (by decide)]
    maxPa := 0x3fff
    maxVa := 0x3fff }

theorem add_twoPages : ∃ c,
    mmapAddDynamicRegionCtx (config32 true) emptyCtx (pages 0x1000 0x1000 1 (by decide)) =
    some (0, c) ∧ mmapAddDynamicRegionCtx (config32 true) c (pages 0x3000 0x1000 2 (by decide)) =
    some (0, twoPages) :=
  ⟨_, rfl, rfl⟩

theorem first_page_removed : ∃ c c', initXlatTablesCtx (config32 true) twoPages = some c ∧
    mmapRemoveDynamicRegionCtx (config32 true) c 0x1000 0x1000 = some (0, c') ∧
    translate (config32 true) c 0x1234 ≠ none ∧ translate (config32 true) c' 0x1234 = none ∧
    translate (config32 true) c' 0x3456 = some (0x3456, 2 ||| 2 ^ 31) := by
  obtain ⟨c₁, hfirst, hsecond⟩ := add_twoPages
  have hreach : Reachable (· = emptyCtx) (Step (config32 true)) twoPages :=
    .step (.step (.init rfl) (.add _ hfirst)) (.add _ hsecond)
  have hlisted := (good_of_reachable rfl hreach).listed
  obtain ⟨hafter, hinit⟩ := initXlatTablesCtx_holds hlisted rfl (.inr rfl)
  obtain ⟨c, hc⟩ := hinit (config32_tables true (by decide))
  obtain ⟨htrue, hmmap, σ, hholds⟩ := hafter c hc
  obtain ⟨-, hremoved, hremove, -⟩ :=
    dynamic_regions_undone (config32 true) rfl c (.step hreach (.init hc)) htrue
  obtain ⟨c', hc'⟩ := hremove (pages 0x1000 0x1000 (1 ||| 2 ^ 31) (by decide))
    (by rw [hmmap]; simp [twoPages]) (by decide)
  refine ⟨c, c', hc, hc', ?_, ?_, ?_⟩
  · rw [hholds.translate]
    decide
  · rw [hremoved 0x1000 0x1000 c' hc', if_pos (by decide)]
  · rw [hremoved 0x1000 0x1000 c' hc', if_neg (by decide), hholds.translate]
    rfl

end MtkBoot.Xlat
