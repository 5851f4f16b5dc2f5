import MtkBoot.Xlat.Regions

/-! What unmapping a region apart from the others does.  Each table that it reaches into counts one
region less and is taken out when no other one reaches into it. -/

namespace MtkBoot.Xlat

open Lib List Function Nat Region

variable {j : Nat} {l rs : List Region} {x : Nat × Nat}

def Idle (os : List Region) : Option (Nat × Nat) → Prop
  | none => True
  | some x => reaching os x = 0

instance (os : List Region) : DecidablePred (Idle os)
  | none => inferInstanceAs (Decidable True)
  | some _ => inferInstanceAs (Decidable (_ = _))

/-- What unmapping the region from `lo` to `hi` does below level `3 - k`, if the other regions are
`os`. -/
structure Unmapped (cfg : Config) (r : Region) (os : List Region) (k lo hi : Nat) (c c' : Ctx)
    (σ σ' : Slots) : Prop where
  slot : ∀ t, σ' t = if r.Reaches k lo hi (σ t) ∧ Idle os (σ t) then none else σ t
  translate : ∀ a, translate cfg c' a =
    if lo ≤ a ∧ a < hi ∧ r.Contains a then none else translate cfg c a
  count : ∀ t, c'.mapped t = c.mapped t - if r.Reaches k lo hi (σ t) then 1 else 0

/-- A region that can be unmapped from `lo` to `hi` below level `3 - k`. -/
structure Ready (cfg : Config) (r : Region) (os : List Region) (k lo hi : Nat) (c : Ctx)
  (σ : Slots) : Prop extends Served cfg c σ (r :: os) where
  mapped : ∀ a, lo ≤ a → a < hi → r.Contains a → translate cfg c a ≠ none
  count : ∀ t x, σ t = some x → x.1 < k → lo ≤ x.2 → x.2 < hi →
    c.mapped t = reaching os x + if r.Meets x.2 (blockSize (x.1 + 1)) then 1 else 0

variable {cfg : Config} {r : Region} {os : List Region} {k lo mid hi hi' v va i idx t : Nat}
  {tbl : Option Nat} {c c₁ c2 : Ctx} {σ σ₁ σ2 : Slots}

theorem reaching_pos {m : Region} (hm : m ∈ l) (hmeets : m.Meets x.2 (blockSize (x.1 + 1))) :
    reaching l x ≠ 0 := by
  intro hzero
  exact countP_eq_zero.mp hzero m hm (decide_eq_true hmeets)

theorem exists_of_reaching (h : reaching l x ≠ 0) : ∃ m ∈ l, m.Meets x.2 (blockSize (x.1 + 1)) := by
  obtain ⟨m, hm, hmeets⟩ := countP_pos_iff.mp (pos_of_ne_zero h)
  exact ⟨m, hm, of_decide_eq_true hmeets⟩

namespace Unmapped

theorem refl_of (h : ∀ t, ¬ r.Reaches k lo hi (σ t)) (htr : ∀ a, Xlat.translate cfg c₁ a =
    if lo ≤ a ∧ a < hi ∧ r.Contains a then none else Xlat.translate cfg c a)
    (hcount : c₁.mapped = c.mapped) : Unmapped cfg r os k lo hi c c₁ σ σ where
  slot := fun t => by rw [if_neg fun hn => h t hn.1]
  translate := htr
  count := fun t => by rw [if_neg (h t), hcount, sub_zero]

section

variable (h : Unmapped cfg r os k lo hi c c₁ σ σ₁)
include h

theorem slot_some (hx : σ₁ t = some x) :
    σ t = some x ∧ (r.Reaches k lo hi (some x) → reaching os x ≠ 0) := by
  rw [h.slot] at hx
  split at hx
  · cases hx
  next hnot =>
    rw [hx] at hnot
    exact ⟨hx, fun hreach hzero => hnot ⟨hreach, hzero⟩⟩

theorem slot_of_not (hnot : ¬ r.Reaches k lo hi (σ t)) : σ₁ t = σ t := by
  rw [h.slot, if_neg fun hn => hnot hn.1]

theorem at_of_le (hj : k ≤ j) (hat : σ.At cfg tbl j v) : σ₁.At cfg tbl j v := by
  cases tbl with
  | none => exact hat
  | some t =>
    refine (h.slot_of_not ?_).trans hat
    rw [show σ t = some (j, v) from hat]
    rintro ⟨hlt, -⟩
    omega

end

theorem trans (h1 : Unmapped cfg r os k lo mid c c₁ σ σ₁)
    (h2 : Unmapped cfg r os k mid hi c₁ c2 σ₁ σ2) (hlo : lo ≤ mid) (hhi : mid ≤ hi) :
    Unmapped cfg r os k lo hi c c2 σ σ2 := by
  have hafter (t) (hx : r.Reaches k lo mid (σ t)) : ¬ r.Reaches k mid hi (σ₁ t) := by
    rw [h1.slot]
    split
    · exact id
    · exact hx.not_after
  constructor
  case slot =>
    intro t
    rw [h2.slot]
    simp only [reaches_split hlo hhi]
    by_cases hx : r.Reaches k lo mid (σ t)
    · rw [if_neg fun hn => hafter t hx hn.1, h1.slot]
      simp [hx]
    · rw [h1.slot_of_not hx]
      simp [hx]
  case translate =>
    intro a
    rw [h2.translate, h1.translate]
    exact ite_parts (fun _ => none) hlo hhi a _
  case count =>
    intro t
    rw [h2.count, h1.count]
    simp only [reaches_split hlo hhi]
    by_cases hx : r.Reaches k lo mid (σ t)
    · simp [hx, hafter t hx]
    · simp [hx, h1.slot_of_not hx]

theorem widen (h : Unmapped cfg r os k mid hi c c₁ σ σ₁) (htree : Tree cfg c σ) (hlo : lo ≤ mid)
    (hmid : lo = mid ∨ blockSize k ∣ mid ∧ mid ≤ r.baseVa) (hhi : hi ≤ hi')
    (hend : hi = hi' ∨ r.baseVa + r.size ≤ hi) : Unmapped cfg r os k lo hi' c c₁ σ σ₁ where
  slot := by
    intro t
    simp [h.slot, htree.reaches_widen hlo hmid hhi hend]
  translate := by
    intro a
    simp [h.translate, contains_widen hlo hmid hhi hend]
  count := by
    intro t
    simp [h.count, htree.reaches_widen hlo hmid hhi hend]

end Unmapped

namespace Ready

section

variable (h : Ready cfg r os k lo hi c σ)
include h

theorem next (hserved : Served cfg c₁ σ₁ (r :: os)) (hun : Unmapped cfg r os k lo mid c c₁ σ σ₁)
    (hlo : lo ≤ mid) : Ready cfg r os k mid hi c₁ σ₁ where
  toServed := hserved
  mapped := by
    intro a ha hlt hcontains
    rw [hun.translate, if_neg (by omega)]
    exact h.mapped a (by omega) hlt hcontains
  count := by
    intro t x hx hk hx1 hx2
    obtain ⟨hx', -⟩ := hun.slot_some hx
    have hnot : ¬ r.Reaches k lo mid (σ t) := by
      rw [hx']
      rintro ⟨-, -, hlt, -⟩
      omega
    rw [hun.count, if_neg hnot, sub_zero]
    exact h.count t x hx' hk (by omega) hx2

theorem part {lo' : Nat} (hj : j ≤ k) (hlo : lo ≤ lo') (hhi : hi' ≤ hi) :
    Ready cfg r os j lo' hi' c σ where
  toServed := h.toServed
  mapped := fun a ha hlt => h.mapped a (by omega) (by omega)
  count := fun t x hx hk hx1 hx2 => h.count t x hx (by omega) (by omega) (by omega)

end

end Ready

/-! ### The decision about an entry -/

inductive UnmapCase (r : Region) (desc : Entry) (k va : Nat) : Option Action → Prop
  | write (pa attr : Nat) : desc = .leaf pa attr → UnmapCase r desc k va (some .writeBlockEntry)
  | recurse (t : Nat) : desc = .table t → UnmapCase r desc k va (some .recurseIntoTable)

theorem unmapAction_spec {desc : Entry} (hok : r.Ok cfg) (hmeets : r.Meets va (blockSize k))
    (hva : blockSize k ∣ va) (htable : ∀ t, desc = .table t → 0 < k) (hinvalid : desc ≠ .invalid)
    (hleaf : ∀ pa attr, desc = .leaf pa attr → r.baseVa ≤ va ∧ va + blockSize k ≤
      r.baseVa + r.size) : UnmapCase r desc k va (xlatTablesUnmapRegionAction r desc va k) := by
  have hend := hok.endVa_add_one
  unfold xlatTablesUnmapRegionAction
  by_cases hcov : r.baseVa ≤ va ∧ va + blockSize k ≤ r.baseVa + r.size
  · rw [if_pos (by omega)]
    by_cases hk : k = 0
    · rw [if_pos hk]
      cases desc with
      | invalid => exact absurd rfl hinvalid
      | leaf pa attr => exact .write pa attr rfl
      | table t => exact absurd hk (pos_iff_ne_zero.mp (htable t rfl))
    · rw [if_neg hk]
      cases desc with
      | invalid => exact absurd rfl hinvalid
      | leaf pa attr => exact .write pa attr rfl
      | table t => exact .recurse t rfl
  · have hk : k ≠ 0 := fun hk => hcov (hk ▸ hok.page_covered (hk ▸ hva) (hk ▸ hmeets))
    rw [if_neg (by omega), if_pos (by omega), if_neg hk]
    cases desc with
    | invalid => exact absurd rfl hinvalid
    | table t => exact .recurse t rfl
    | leaf pa attr => exact absurd (hleaf pa attr rfl) hcov

/-! ### The steps of the loop -/

theorem Served.clearBlock (h : Served cfg c σ rs) (hat : σ.At cfg tbl k v)
    (hentry : ∀ t, c.entry tbl i ≠ .table t) : Served cfg (c.setEntry tbl i .invalid) σ rs where
  toTree := h.setEntry hat hentry nofun
  leaf := by
    intro tbl' k' v' i' pa attr hat' hi' hleaf
    rw [Ctx.entry_setEntry] at hleaf
    split at hleaf
    · cases hleaf
    · exact h.leaf tbl' k' v' i' pa attr hat' hi' hleaf
  meets := h.meets

theorem Served.unmapped_write (h : Served cfg c σ rs)
    (hat : σ.At cfg tbl k v) (hi : i < cfg.entries tbl)
    {pa attr : Nat} (hentry : c.entry tbl i = .leaf pa attr) (hlo : r.baseVa ≤ v + i * blockSize k)
    (hhi : v + i * blockSize k + blockSize k ≤ r.baseVa + r.size) :
    Unmapped cfg r os k (v + i * blockSize k) (v + i * blockSize k + blockSize k) c
      (c.setEntry tbl i .invalid) σ σ := by
  have hold : ∀ t, c.entry tbl i ≠ .table t := by
    rw [hentry]
    exact nofun
  have hnew := h.clearBlock hat hold
  refine Unmapped.refl_of (fun t => h.not_reaches hat hi hold) (fun a => ?_)
    (Ctx.setEntry_mapped _ _ _ _)
  by_cases ha : v + i * blockSize k ≤ a ∧ a < v + i * blockSize k + blockSize k
  · have hcontains : r.Contains a := ⟨hlo.trans ha.1, by omega⟩
    rw [if_pos ⟨ha.1, ha.2, hcontains⟩, hnew.translate_at hat hi ha.1 ha.2, Ctx.entry_setEntry,
      if_pos ⟨rfl, rfl⟩, walk]
  · rw [if_neg (by omega), h.translate_setEntry hat]
    omega

/-- What `xlat_tables_unmap_region` does with the entry of a table after the call for it. -/
def leaveTable (c : Ctx) (tbl : Option Nat) (i t : Nat) : Ctx :=
  if c.mapped t = 0 then c.setEntry tbl i .invalid else c

section Enter

variable (h : Ready cfg r os (k + 1) va (va + blockSize (k + 1)) c σ) (hslot : σ t = some (k, va))
  (hserved : Served cfg c₁ σ₁ (r :: os))
  (hun : Unmapped cfg r os k va (va + blockSize (k + 1)) c c₁ σ σ₁)

include hslot hun in
theorem Unmapped.own_slot : σ₁ t = some (k, va) :=
  hun.at_of_le (le_refl k) (show σ.At cfg (some t) k va from hslot)

include hslot hserved hun in
theorem Unmapped.empty_of_idle (hidle : reaching os (k, va) = 0) (hi : i < tableEntries) :
    c₁.tables t i = .invalid := by
  have hat : σ₁.At cfg (some t) k va := hun.own_slot hslot
  have hb := blockSize_pos k
  have hend := block_end_le (v := va) (b := blockSize k) hi
  have hsucc : blockSize (k + 1) = tableEntries * blockSize k := blockSize_succ k
  rw [← hsucc] at hend
  have hidle' {m} (hm : m ∈ os) (hmeets : m.Meets (va + i * blockSize k) (blockSize k)) :
      False := by
    refine reaching_pos (x := (k, va)) hm ?_ hidle
    unfold Meets at hmeets ⊢
    dsimp only
    omega
  cases hentry : c₁.tables t i with
  | invalid => rfl
  | leaf pa attr =>
    obtain ⟨m, hm, h1, h2⟩ := hserved.leaf (some t) k va i pa attr hat hi hentry
    exfalso
    rcases mem_cons.mp hm with rfl | hm
    · -- the region is unmapped here
      have htr := hun.translate (va + i * blockSize k)
      rw [if_pos ⟨by omega, by omega, h1, by omega⟩,
        hserved.translate_at hat hi le_rfl (by omega)] at htr
      rw [show c₁.entry (some t) i = .leaf pa attr from hentry, walk] at htr
      cases htr
    · exact hidle' hm ⟨by omega, by omega⟩
  | table t2 =>
    obtain ⟨j, rfl, hslot2⟩ := hserved.entry (some t) k va i t2 hat hi hentry
    obtain ⟨hslot', hnot⟩ := hun.slot_some hslot2
    obtain ⟨m, hm, hmeets⟩ := hserved.meets t2 _ _ hslot2
    exfalso
    have hzero : reaching os (j, va + i * blockSize (j + 1)) = 0 := by
      by_contra hne
      obtain ⟨m, hm, hmeets⟩ := exists_of_reaching hne
      exact hidle' hm hmeets
    rcases mem_cons.mp hm with rfl | hm
    · exact hnot ⟨lt_succ_self j, by omega, by omega, hmeets⟩ hzero
    · exact hidle' hm hmeets

include h hslot hserved hun in
theorem Unmapped.enter (hat : σ.At cfg tbl (k + 1) v) (hi : i < cfg.entries tbl)
    (hva : va = v + i * blockSize (k + 1)) (hmeets : r.Meets va (blockSize (k + 1))) :
    ∃ σ2, Served cfg (leaveTable (decRegionsCount c₁ (some t)) tbl i t) σ2 (r :: os) ∧ Unmapped cfg
      r os (k + 1) va (va + blockSize (k + 1)) c (leaveTable (decRegionsCount c₁ (some t)) tbl i t)
        σ σ2 := by
  have hb := blockSize_pos (k + 1)
  have hown := hun.own_slot hslot
  have hat1 : σ₁.At cfg tbl (k + 1) v := hun.at_of_le (Nat.le_succ k) hat
  have hentry1 : c₁.entry tbl i = .table t := by
    obtain ⟨tbl', v', i', hat', hi', heq, hlink⟩ := hserved.linked t k va hown
    obtain ⟨rfl, rfl⟩ := hserved.at_unique hat1 hi hat' hi' (hva ▸ heq)
    exact hlink
  have hreach : r.Reaches (k + 1) va (va + blockSize (k + 1)) (σ t) := by
    rw [hslot]
    exact ⟨Nat.lt_succ_self k, le_rfl, Nat.lt_add_of_pos_right hb, hmeets⟩
  have hnot : ¬ r.Reaches k va (va + blockSize (k + 1)) (σ t) := by
    rw [hslot]
    rintro ⟨hlt, -⟩
    exact lt_irrefl k hlt
  have hcount : ∀ t', (decRegionsCount c₁ (some t)).mapped t' =
      c.mapped t' - if r.Reaches (k + 1) va (va + blockSize (k + 1)) (σ t') then 1 else 0 := by
    intro t'
    by_cases ht : t' = t
    · subst ht
      have hmapped := hun.count t'
      rw [if_neg hnot, sub_zero] at hmapped
      rw [if_pos hreach, ← hmapped]
      simp [decRegionsCount, Ctx.addMapped, sub_eq_add_neg]
    · have hmapped := hun.count t'
      simp only [← h.reaches_succ hslot ht] at hmapped
      rw [← hmapped]
      simp [decRegionsCount, Ctx.addMapped, ht]
  have hself : (decRegionsCount c₁ (some t)).mapped t = reaching os (k, va) := by
    rw [hcount, if_pos hreach, h.count t _ hslot (Nat.lt_succ_self k) le_rfl
      (Nat.lt_add_of_pos_right hb), if_pos hmeets]
    omega
  have hslots : ∀ t' ≠ t, σ₁ t' = if r.Reaches (k + 1) va (va + blockSize (k + 1)) (σ t') ∧
      Idle os (σ t') then none else σ t' := by
    intro t' ht
    simp [hun.slot, h.reaches_succ hslot ht]
  have hsame (a) : Xlat.translate cfg (decRegionsCount c₁ (some t)) a = Xlat.translate cfg c₁ a :=
    translate_congr (show (decRegionsCount c₁ (some t)).base = c₁.base from rfl) rfl a
  unfold leaveTable
  by_cases hidle : reaching os (k, va) = 0
  · -- the table is taken out
    rw [if_pos (by rw [hself, hidle]; rfl)]
    have hempty := fun i (hi : i < tableEntries) => hun.empty_of_idle hslot hserved hidle hi
    have htree1 : Tree cfg (decRegionsCount c₁ (some t)) σ₁ := hserved.toTree.congr rfl rfl
    have htree := htree1.unlink hat1 hi hentry1 hempty
    have hne : tbl ≠ some t := by
      rintro rfl
      cases (hempty i hi).symm.trans hentry1
    have hold : ∀ {t' x}, update σ₁ t none t' = some x → σ₁ t' = some x := by
      intro t' x hx
      rw [update_apply] at hx
      split at hx
      · cases hx
      · exact hx
    refine ⟨update σ₁ t none, ⟨htree, ?_, ?_⟩, ⟨?_, ?_, ?_⟩⟩
    · intro tbl' k' v' i' pa attr hat' hi' hleaf
      rw [Ctx.entry_setEntry] at hleaf
      split at hleaf
      · cases hleaf
      · refine hserved.leaf tbl' k' v' i' pa attr ?_ hi' hleaf
        cases tbl' with
        | none => exact hat'
        | some t' => exact hold hat'
    · exact fun t' k' v' hx => hserved.meets t' k' v' (hold hx)
    · intro t'
      by_cases ht : t' = t
      · subst ht
        rw [update_self, if_pos ⟨hreach, by rw [hslot]; exact hidle⟩]
      · rw [update_of_ne ht, hslots t' ht]
    · intro a
      by_cases ha : va ≤ a ∧ a < va + blockSize (k + 1)
      · -- nothing was left in the table
        have hmod : a / blockSize k % 512 < tableEntries := Nat.mod_lt _ (by decide)
        have hbefore : Xlat.translate cfg c₁ a = none := by
          rw [hserved.translate_at hat1 hi (hva ▸ ha.1) (hva ▸ ha.2), hentry1, walk, hempty _ hmod,
            walk]
        rw [htree.translate_at ((Tree.at_update_of_ne hne).mpr hat1) hi (hva ▸ ha.1) (hva ▸ ha.2),
          Ctx.entry_setEntry, if_pos ⟨rfl, rfl⟩, walk]
        rw [hun.translate] at hbefore
        exact hbefore.symm
      · rw [htree1.translate_setEntry hat1 _ (by omega), hsame, hun.translate]
    · rw [Ctx.setEntry_mapped]
      exact hcount
  · rw [if_neg (by rw [hself]; exact_mod_cast hidle)]
    refine ⟨σ₁, ⟨hserved.toTree.congr rfl rfl, hserved.leaf, hserved.meets⟩,
      ⟨fun t' => ?_, fun a => ?_, hcount⟩⟩
    · by_cases ht : t' = t
      · subst ht
        rw [hown, hslot, if_neg fun hn => hidle hn.2]
      · exact hslots t' ht
    · rw [hsame, hun.translate]

end Enter

/-- The result is a context in which the region is unmapped from `lo` to `hi`. -/
def Removed (cfg : Config) (r : Region) (os : List Region) (k lo hi : Nat) (c : Ctx) (σ : Slots)
    (res : Option Ctx) : Prop :=
  ∃ c₁ σ₁, res = some c₁ ∧ Served cfg c₁ σ₁ (r :: os) ∧ Unmapped cfg r os k lo hi c c₁ σ σ₁

def UnmapsBelow (cfg : Config) (r : Region) (os : List Region) (k : Nat)
    (sub : Ctx → Nat → Nat → Option Ctx) : Prop :=
  ∀ j, k = j + 1 → ∀ c σ t va, Ready cfg r os j va (va + blockSize (j + 1)) c σ →
    σ t = some (j, va) → r.Meets va (blockSize (j + 1)) → ∃ res, sub c t va = res.map
    (decRegionsCount · (some t)) ∧ Removed cfg r os j va (va + blockSize (j + 1)) c σ res

theorem unmapLoop_spec (hok : r.Ok cfg) (hapart : ∀ m ∈ os, m.Apart r)
    {sub : Ctx → Nat → Nat → Option Ctx} (hsub : UnmapsBelow cfg r os k sub)
    (n : Nat) (hn : idx + n = cfg.entries tbl) (hva : va = v + idx * blockSize k)
    (hready : Ready cfg r os k va (v + cfg.entries tbl * blockSize k) c σ) (hat : σ.At cfg tbl k v)
    (hbase : r.baseVa < va + blockSize k) (hend : va < r.baseVa + r.size) : Removed cfg r os k va
    (v + cfg.entries tbl * blockSize k) c σ (unmapLoop r k sub tbl n idx va c) := by
  have hendVa := hok.endVa_add_one
  -- over the entries that are left
  induction n generalizing idx va c σ with
  | zero =>
    obtain rfl : idx = cfg.entries tbl := by omega
    rw [← hva]
    refine ⟨c, σ, rfl, hready.toServed, Unmapped.refl_of (fun t hx => ?_) (fun a => ?_) rfl⟩
    · exact hx.not_after hx
    · rw [if_neg (by omega)]
  | succ n ih =>
    have hi : idx < cfg.entries tbl := by omega
    have hblock := block_end_le (v := v) (b := blockSize k) hi
    rw [← hva] at hblock
    have haligned : blockSize k ∣ va := hva ▸ hready.at_aligned hat idx
    have hpage := Nat.dvd_add ((page_dvd_blockSize k).trans haligned) (page_dvd_blockSize k)
    have hmeets : r.Meets va (blockSize k) := ⟨hbase, hend⟩
    -- what is done once the entry is dealt with
    have hstep : ∀ c₁ σ₁, Served cfg c₁ σ₁ (r :: os) →
        Unmapped cfg r os k va (va + blockSize k) c c₁ σ σ₁ → Removed cfg r os k va
        (v + cfg.entries tbl * blockSize k) c σ (if r.endVa ≤ va + blockSize k then some c₁
            else unmapLoop r k sub tbl n (idx + 1) (va + blockSize k) c₁) := by
      intro c₁ σ₁ hserved hun
      split
      next hle =>
        have hover : r.baseVa + r.size ≤ va + blockSize k := by
          by_contra hlt
          have := add_le_of_aligned hpage hok.end_aligned (not_le.mp hlt)
          omega
        exact ⟨c₁, σ₁, rfl, hserved,
          hun.widen hready.toTree (le_refl va) (.inl rfl) hblock (.inr hover)⟩
      next hgt =>
        have hat1 := hun.at_of_le (le_refl k) hat
        obtain ⟨c2, σ2, hloop, hserved2, hun2⟩ := @ih (va + blockSize k) (idx + 1) c₁ σ₁ (by omega)
          (by rw [hva, succ_mul]; omega) (hready.next hserved hun (by omega)) hat1 (by omega)
          (by omega)
        exact ⟨c2, σ2, hloop, hserved2, hun.trans hun2 (by omega) hblock⟩
    have hleaf (pa attr) (hentry : c.entry tbl idx = .leaf pa attr) :
        r.baseVa ≤ va ∧ va + blockSize k ≤ r.baseVa + r.size :=
      hva ▸ hready.leaf_covered (forall_mem_cons.mpr ⟨.inl ⟨le_rfl, le_rfl⟩,
        fun m hm => .inr (hapart m hm)⟩) hat hi (hva ▸ hmeets) hentry
    have hcase : UnmapCase r (c.entry tbl idx) k va
        (xlatTablesUnmapRegionAction r (c.entry tbl idx) va k) := by
      refine unmapAction_spec hok hmeets haligned (fun t ht => ?_) ?_ hleaf
      · obtain ⟨j, rfl, -⟩ := hready.entry tbl k v idx t hat hi ht
        exact succ_pos j
      · intro hentry
        obtain ⟨a, hcontains, ha1, ha2⟩ := hmeets.exists hok.pos (blockSize_pos k)
        apply hready.mapped a (by omega) (by omega) hcontains
        rw [hready.translate_at hat hi (hva ▸ ha1) (hva ▸ ha2), hentry, walk]
    rw [unmapLoop]
    generalize xlatTablesUnmapRegionAction r (c.entry tbl idx) va k = action at hcase
    cases hcase with
    | write pa attr hentry =>
      obtain ⟨hlo, hhi⟩ := hleaf pa attr hentry
      subst hva
      exact hstep _ σ (hready.clearBlock hat fun t ht => by cases hentry.symm.trans ht)
        (hready.unmapped_write hat hi hentry hlo hhi)
    | recurse t hentry =>
      obtain ⟨j, rfl, hslot⟩ := hready.entry tbl k v idx t hat hi hentry
      rw [← hva] at hslot
      have hready' := hready.part (le_refl (j + 1)) (le_refl va) hblock
      obtain ⟨_, hcall, c₁, σ₁, rfl, hserved, hun⟩ := hsub j rfl c σ t va
        (hready'.part (le_succ j) (le_refl va) le_rfl) hslot hmeets
      obtain ⟨σ2, hserved2, hun2⟩ := Unmapped.enter hready' hslot hserved hun hat hi hva hmeets
      rw [hentry]
      dsimp only
      rw [hcall, Option.map_some, Option.bind_some]
      exact hstep _ σ2 hserved2 hun2

theorem xlatTablesUnmapRegion_spec (hok : r.Ok cfg) (hapart : ∀ m ∈ os, m.Apart r)
    (hready : Ready cfg r os k v (v + cfg.entries tbl * blockSize k) c σ) (hat : σ.At cfg tbl k v)
    (hmeets : r.Meets v (cfg.entries tbl * blockSize k)) :
    ∃ res, xlatTablesUnmapRegion r k c tbl v (cfg.entries tbl) = res.map (decRegionsCount · tbl) ∧
      Removed cfg r os k v (v + cfg.entries tbl * blockSize k) c σ res := by
  have hloop {sub k tbl v c σ} (hready : Ready cfg r os k v (v + cfg.entries tbl * blockSize k) c σ)
      (hat : σ.At cfg tbl k v) (hmeets : r.Meets v (cfg.entries tbl * blockSize k))
      (hsub : UnmapsBelow cfg r os k sub) :
      Removed cfg r os k v (v + cfg.entries tbl * blockSize k) c σ (unmapLoop r k sub tbl
        (cfg.entries tbl - (findStartVa r v k - v) / blockSize k)
        ((findStartVa r v k - v) / blockSize k) (findStartVa r v k) c) := by
    obtain ⟨h1, h2, h3, h4, h5, h6⟩ := findStartVa_spec (hready.at_spec hat).1 hok.pos hmeets
    obtain ⟨c₁, σ₁, hc1, hserved, hun⟩ := unmapLoop_spec hok hapart hsub _ (Nat.add_sub_cancel' h2)
      h1 (hready.part (le_refl k) h5 le_rfl) hat h3 h4
    exact ⟨c₁, σ₁, hc1, hserved, hun.widen hready.toTree h5 h6 le_rfl (.inl rfl)⟩
  -- from the last level up
  induction k generalizing tbl v c σ with
  | zero => exact ⟨_, rfl, hloop hready hat hmeets fun j hj => nomatch hj⟩
  | succ k ih =>
    refine ⟨_, rfl, hloop hready hat hmeets fun j hj c σ t va hready' hslot hmeets' => ?_⟩
    obtain rfl := succ.inj hj
    rw [blockSize_succ] at hready' hmeets' ⊢
    exact ih hready' hslot hmeets'

theorem unmapFromBase_spec (hok : r.Ok cfg) (hapart : ∀ m ∈ os, m.Apart r)
    (hready : Ready cfg r os cfg.baseDepth 0 (cfg.vaMax + 1) c σ) :
    Removed cfg r os cfg.baseDepth 0 (cfg.vaMax + 1) c σ (unmapFromBase cfg c r) := by
  have hle := hok.le
  have hpos := hok.pos
  have hspace : cfg.vaMax + 1 = 0 + cfg.entries none * blockSize cfg.baseDepth := by
    rw [zero_add]
    exact cfg.space
  have hmeets : r.Meets 0 (cfg.entries none * blockSize cfg.baseDepth) := by
    unfold Meets
    omega
  rw [hspace] at hready ⊢
  obtain ⟨_, hcall, c₁, σ₁, rfl, hremoved⟩ := xlatTablesUnmapRegion_spec hok hapart hready
    (show σ.At cfg none cfg.baseDepth 0 from ⟨rfl, rfl⟩) hmeets
  exact ⟨c₁, σ₁, hcall, hremoved⟩

end MtkBoot.Xlat
