import Mathlib.Data.Finset.Prod
import MtkBoot.Xlat.Tree

/-! What mapping a region does: the region is mapped where nothing was, and each table that it
reaches into counts it once; or a table is missing. -/

namespace MtkBoot.Xlat

open Lib List Function Option Finset Ctx Nat Region

variable {attr hi hi' i k lo mid pa t v va : Nat} {c c' c2 c₁ : Ctx} {cfg : Config} {r : Region}
  {res : Option (Ctx × Nat)} {rs : List Region} {tbl : Option Nat} {σ σ2 σ₁ : Slots}

def Ctx.Free (c : Ctx) (cfg : Config) (t : Nat) : Prop :=
  if cfg.dynamic then c.mapped t = 0 else c.nextTable ≤ t

/-- The tables serve the regions `rs`: leaves lie in them, and each table in use is reached by
one. -/
structure Served (cfg : Config) (c : Ctx) (σ : Slots) (rs : List Region) : Prop
  extends Tree cfg c σ where
  leaf : ∀ tbl k v i pa attr, σ.At cfg tbl k v → i < cfg.entries tbl →
    c.entry tbl i = .leaf pa attr →
    ∃ r ∈ rs, r.baseVa ≤ v + i * blockSize k ∧ v + i * blockSize k + blockSize k ≤ r.baseVa + r.size
  meets : ∀ t k v, σ t = some (k, v) → ∃ r ∈ rs, r.Meets v (blockSize (k + 1))

/-- The tables that are not in use may be handed out. -/
structure Wf (cfg : Config) (c : Ctx) (σ : Slots) (rs : List Region) : Prop
  extends Served cfg c σ rs where
  free : ∀ t < cfg.tablesNum, σ t = none ↔ c.Free cfg t
  nonneg : ∀ t, 0 ≤ c.mapped t

/-- The places of the tables that the regions can need. -/
def needed (cfg : Config) (rs : List Region) : Finset (Nat × Nat) :=
  (Finset.range cfg.baseDepth ×ˢ Finset.range (cfg.vaMax + 1)).filter fun x =>
    blockSize (x.1 + 1) ∣ x.2 ∧ ∃ r ∈ rs, r.Meets x.2 (blockSize (x.1 + 1))

/-- The place is below level `3 - k`, from `lo` to `hi`, and the region reaches into it. -/
def Region.Reaches (r : Region) (k lo hi : Nat) : Option (Nat × Nat) → Prop
  | none => False
  | some (j, w) => j < k ∧ lo ≤ w ∧ w < hi ∧ r.Meets w (blockSize (j + 1))

instance (r : Region) (k lo hi : Nat) : DecidablePred (r.Reaches k lo hi)
  | none => inferInstanceAs (Decidable False)
  | some (_, _) => inferInstanceAs (Decidable (_ ∧ _))

section Reaches

variable {t' : Nat}

theorem Region.reaches_split (hlo : lo ≤ mid) (hhi : mid ≤ hi) {x : Option (Nat × Nat)} :
    r.Reaches k lo hi x ↔ r.Reaches k lo mid x ∨ r.Reaches k mid hi x := by
  cases x with
  | none => exact (or_self_iff).symm
  | some x =>
    constructor
    · rintro ⟨h1, h2, h3, h4⟩
      by_cases hx : x.2 < mid
      · exact .inl ⟨h1, h2, hx, h4⟩
      · exact .inr ⟨h1, by omega, h3, h4⟩
    · rintro (⟨h1, h2, h3, h4⟩ | ⟨h1, h2, h3, h4⟩)
      · exact ⟨h1, h2, by omega, h4⟩
      · exact ⟨h1, by omega, h3, h4⟩

theorem Region.Reaches.not_after {x : Option (Nat × Nat)} (h : r.Reaches k lo mid x) :
    ¬ r.Reaches k mid hi x := by
  cases x with
  | none => exact id
  | some x =>
    obtain ⟨-, -, h3, -⟩ := h
    rintro ⟨-, h2, -, -⟩
    omega

/-- Two parts of a range, one after the other. -/
theorem ite_parts {β : Type} (f : β → β) {p : Prop} [Decidable p] (hlo : lo ≤ mid) (hhi : mid ≤ hi)
    (a : Nat) (x : β) : (if mid ≤ a ∧ a < hi ∧ p then f (if lo ≤ a ∧ a < mid ∧ p then f x else x)
      else if lo ≤ a ∧ a < mid ∧ p then f x else x) = if lo ≤ a ∧ a < hi ∧ p then f x else x := by
  by_cases ha : a < mid
  · simp [show ¬ mid ≤ a by omega, ha, show a < hi by omega]
  · simp [show mid ≤ a by omega, ha, show lo ≤ a by omega]

theorem Region.contains_widen (hlo : lo ≤ mid)
    (hmid : lo = mid ∨ blockSize k ∣ mid ∧ mid ≤ r.baseVa) (hhi : hi ≤ hi')
    (hend : hi = hi' ∨ r.baseVa + r.size ≤ hi) (a : Nat) :
    (lo ≤ a ∧ a < hi' ∧ r.Contains a) ↔ mid ≤ a ∧ a < hi ∧ r.Contains a := by
  unfold Contains
  omega

theorem Tree.reaches_widen (h : Tree cfg c σ) (hlo : lo ≤ mid)
    (hmid : lo = mid ∨ blockSize k ∣ mid ∧ mid ≤ r.baseVa) (hhi : hi ≤ hi')
    (hend : hi = hi' ∨ r.baseVa + r.size ≤ hi) :
    r.Reaches k lo hi' (σ t) ↔ r.Reaches k mid hi (σ t) := by
  cases hx : σ t with
  | none => rfl
  | some x =>
    simp only [Reaches, Meets]
    constructor
    · rintro ⟨h3, h4, h5, h6⟩
      refine ⟨h3, ?_, by omega, h6⟩
      by_contra hlt
      -- a place before `mid` ends there
      have hdvd := (h.place t x.1 x.2 hx).2.2.1
      rcases hmid with rfl | ⟨haligned, hbase⟩
      · exact hlt h4
      · have := add_le_of_aligned hdvd ((blockSize_dvd h3).trans haligned) (not_le.mp hlt)
        omega
    · rintro ⟨h3, h4, h5, h6⟩
      exact ⟨h3, by omega, by omega, h6⟩

theorem Tree.reaches_succ (h : Tree cfg c σ) (hslot : σ t = some (k, va)) (ht : t' ≠ t) :
    r.Reaches (k + 1) va (va + blockSize (k + 1)) (σ t') ↔
    r.Reaches k va (va + blockSize (k + 1)) (σ t') := by
  have hpos := blockSize_pos (k + 1)
  cases hx : σ t' with
  | none => rfl
  | some x =>
    obtain ⟨j, w⟩ := x
    constructor
    · rintro ⟨h3, h4, h5, h6⟩
      refine ⟨?_, h4, h5, h6⟩
      by_contra hge
      obtain rfl : j = k := by omega
      obtain rfl := aligned_unique hpos (h.place t' j w hx).2.2.1 (h.place t j va hslot).2.2.1
        (Nat.le_refl w) (Nat.lt_add_of_pos_right hpos) h4 h5
      exact ht (h.inj t' t _ hx hslot)
    · rintro ⟨h3, hrest⟩
      exact ⟨Nat.lt_succ_of_lt h3, hrest⟩

theorem Tree.reaches_base (h : Tree cfg c σ) {x : Nat × Nat} (hx : σ t = some x) :
    r.Reaches cfg.baseDepth 0 (cfg.vaMax + 1) (some x) ↔ r.Meets x.2 (blockSize (x.1 + 1)) := by
  obtain ⟨-, hdepth, -, hend⟩ := h.place t x.1 x.2 hx
  have := blockSize_pos (x.1 + 1)
  constructor
  · exact fun hreach => hreach.2.2.2
  · exact fun hmeets => ⟨hdepth, zero_le _, by omega, hmeets⟩

end Reaches

/-- What mapping the region from `lo` to `hi` does below level `3 - k`. -/
structure Mapped (cfg : Config) (r : Region) (k lo hi : Nat) (c c' : Ctx) (σ σ' : Slots) :
  Prop where
  mono : ∀ t x, σ t = some x → σ' t = some x
  new : ∀ t x, σ t = none → σ' t = some x → r.Reaches k lo hi (some x) ∧
    ∀ a, x.2 ≤ a → a < x.2 + blockSize (x.1 + 1) → translate cfg c a = none
  translate : ∀ a, translate cfg c' a = if lo ≤ a ∧ a < hi ∧ r.Contains a
    then (translate cfg c a).or (some (r.tr a)) else translate cfg c a
  count : cfg.dynamic = true → ∀ t,
    c'.mapped t = c.mapped t + if r.Reaches k lo hi (σ' t) then 1 else 0
  mmap : c'.mmap = c.mmap

namespace Mapped

theorem refl (cfg : Config) (r : Region) (k lo : Nat) (c : Ctx) (σ : Slots) :
    Mapped cfg r k lo lo c c σ σ where
  mono := fun _ _ h => h
  new := fun t x h h' => nomatch h.symm.trans h'
  translate := fun a => by rw [if_neg (by omega)]
  count := by
    intro _ t
    rw [if_neg, add_zero]
    cases σ t with
    | none => exact id
    | some x =>
      rintro ⟨-, h1, h2, -⟩
      omega
  mmap := rfl

theorem trans (h1 : Mapped cfg r k lo mid c c₁ σ σ₁) (h2 : Mapped cfg r k mid hi c₁ c2 σ₁ σ2)
    (hlo : lo ≤ mid) (hhi : mid ≤ hi) : Mapped cfg r k lo hi c c2 σ σ2 where
  mono := fun t x hx => h2.mono t x (h1.mono t x hx)
  new := by
    intro t x hx hx2
    cases hx1 : σ₁ t with
    | some y =>
      obtain rfl : y = x := some.inj ((h2.mono t y hx1).symm.trans hx2)
      obtain ⟨⟨h3, h4, h5, h6⟩, hnone⟩ := h1.new t y hx hx1
      exact ⟨⟨h3, h4, by omega, h6⟩, hnone⟩
    | none =>
      obtain ⟨⟨h3, h4, h5, h6⟩, hnone⟩ := h2.new t x hx1 hx2
      refine ⟨⟨h3, by omega, h5, h6⟩, fun a hlo' hhi' => ?_⟩
      have htr := hnone a hlo' hhi'
      rw [h1.translate] at htr
      split at htr
      · exact (or_eq_none_iff.mp htr).1
      · exact htr
  translate := by
    intro a
    rw [h2.translate, h1.translate]
    exact ite_parts (or · (some (r.tr a))) hlo hhi a _
  count := by
    intro hdyn t
    rw [h2.count hdyn, h1.count hdyn, add_assoc]
    simp only [reaches_split hlo hhi]
    congr 1
    cases hx1 : σ₁ t with
    | none =>
      -- the table is new
      have hnot : ¬ r.Reaches k lo mid (σ2 t) := by
        cases hx2 : σ2 t with
        | none => exact id
        | some x => exact fun h => h.not_after (h2.new t x hx1 hx2).1
      simp only [hnot, false_or]
      rw [if_neg (show ¬ r.Reaches k lo mid none from id), zero_add]
    | some x =>
      rw [h2.mono t x hx1]
      by_cases hx : r.Reaches k lo mid (some x)
      · simp [hx, hx.not_after]
      · simp [hx]
  mmap := h2.mmap.trans h1.mmap

theorem widen (h : Mapped cfg r k mid hi c c₁ σ σ₁) (htree : Tree cfg c₁ σ₁) (hlo : lo ≤ mid)
    (hmid : lo = mid ∨ blockSize k ∣ mid ∧ mid ≤ r.baseVa) (hhi : hi ≤ hi')
    (hend : hi = hi' ∨ r.baseVa + r.size ≤ hi) : Mapped cfg r k lo hi' c c₁ σ σ₁ where
  mono := h.mono
  new := by
    intro t x hx hx1
    obtain ⟨⟨h3, h4, h5, h6⟩, hnone⟩ := h.new t x hx hx1
    exact ⟨⟨h3, by omega, by omega, h6⟩, hnone⟩
  translate := by
    intro a
    simp [h.translate, contains_widen hlo hmid hhi hend]
  count := by
    intro hdyn t
    simp [h.count hdyn, htree.reaches_widen hlo hmid hhi hend]
  mmap := h.mmap

end Mapped

structure Entered (cfg : Config) (c c₁ : Ctx) (σ σ₁ : Slots) (t k va : Nat) : Prop where
  slot : σ₁ t = some (k, va)
  other : ∀ t', t' ≠ t → σ₁ t' = σ t'
  old : σ t ≠ some (k, va) → σ t = none ∧ ∀ a, va ≤ a → a < va + blockSize (k + 1) →
    translate cfg c a = none
  translate : ∀ a, translate cfg c₁ a = translate cfg c a
  count : cfg.dynamic = true → ∀ t', c₁.mapped t' = c.mapped t' + if t' = t then 1 else 0
  mmap : c₁.mmap = c.mmap

theorem Mapped.enter (h1 : Entered cfg c c₁ σ σ₁ t k va)
    (h2 : Mapped cfg r k va (va + blockSize (k + 1)) c₁ c2 σ₁ σ2)
    (htree : Tree cfg c2 σ2) (hmeets : r.Meets va (blockSize (k + 1))) :
    Mapped cfg r (k + 1) va (va + blockSize (k + 1)) c c2 σ σ2 := by
  have hpos := blockSize_pos (k + 1)
  have hslot : σ2 t = some (k, va) := h2.mono t _ h1.slot
  have hself : r.Reaches (k + 1) va (va + blockSize (k + 1)) (some (k, va)) :=
    ⟨Nat.lt_succ_self k, le_rfl, Nat.lt_add_of_pos_right hpos, hmeets⟩
  constructor
  case mono =>
    intro t' x hx
    apply h2.mono
    by_cases ht : t' = t
    · subst ht
      by_contra hne
      have hold : σ t' = some (k, va) := by
        by_contra hne'
        cases (h1.old hne').1.symm.trans hx
      exact hne (h1.slot.trans (hold.symm.trans hx))
    · rw [h1.other t' ht, hx]
  case new =>
    intro t' x hx hx2
    by_cases ht : t' = t
    · subst ht
      obtain rfl := Option.some.inj (hslot.symm.trans hx2)
      exact ⟨hself, (h1.old (by rw [hx]; exact nofun)).2⟩
    · obtain ⟨⟨h3, h4, h5, h6⟩, hnone⟩ := h2.new t' x ((h1.other t' ht).trans hx) hx2
      refine ⟨⟨Nat.lt_succ_of_lt h3, h4, h5, h6⟩, fun a hlo hhi => ?_⟩
      rw [← h1.translate]
      exact hnone a hlo hhi
  case translate =>
    intro a
    rw [h2.translate, h1.translate]
  case count =>
    intro hdyn t'
    rw [h2.count hdyn, h1.count hdyn, add_assoc]
    congr 1
    by_cases ht : t' = t
    · subst ht
      rw [hslot, if_pos rfl, if_pos hself, if_neg, add_zero]
      rintro ⟨hlt, -⟩
      exact lt_irrefl k hlt
    · simp only [if_neg ht, zero_add, htree.reaches_succ hslot ht]
  case mmap => exact h2.mmap.trans h1.mmap

/-! ### The steps of the loop -/

theorem xlatTableGetEmpty_some (h : xlatTableGetEmpty cfg c = some (t, c')) :
    t < cfg.tablesNum ∧ c.Free cfg t ∧ ∃ n, c' = { c with nextTable := n } ∧
      (cfg.dynamic = false → t = c.nextTable ∧ n = t + 1) := by
  unfold xlatTableGetEmpty at h
  unfold Free
  cases hdyn : cfg.dynamic with
  | true =>
    rw [hdyn, if_pos rfl] at h
    obtain ⟨t', hfind, heq⟩ := map_eq_some_iff.mp h
    cases heq
    exact ⟨List.mem_range.mp
      (List.mem_of_find?_eq_some hfind), by simpa using List.find?_some hfind, _, rfl, nofun⟩
  | false =>
    rw [hdyn, if_neg Bool.false_ne_true] at h
    split at h
    · cases h
      exact ⟨‹_›, by simp, _, rfl, fun _ => ⟨rfl, rfl⟩⟩
    · cases h

theorem xlatTableGetEmpty_none (h : xlatTableGetEmpty cfg c = none) (ht : t < cfg.tablesNum) :
    ¬ c.Free cfg t := by
  unfold xlatTableGetEmpty at h
  unfold Free
  cases hdyn : cfg.dynamic with
  | true =>
    rw [hdyn, if_pos rfl, map_eq_none_iff] at h
    simpa using List.find?_eq_none.mp h t (List.mem_range.mpr ht)
  | false =>
    rw [hdyn, if_neg Bool.false_ne_true] at h
    split at h
    · cases h
    · simp only [Bool.false_eq_true, if_false]
      omega

theorem incRegionsCount_eq (cfg : Config) (c : Ctx) (t : Nat) : incRegionsCount cfg c (some t) =
    { c with mapped := fun t' => c.mapped t' + if cfg.dynamic ∧ t' = t then 1 else 0 } := by
  unfold incRegionsCount
  dsimp only
  split
  next hdyn =>
    refine congrArg (fun m => { c with mapped := m }) (funext fun t' => ?_)
    by_cases heq : t' = t
    · subst heq
      simp [hdyn]
    · simp [heq]
  next hdyn => simp [hdyn]

namespace Wf

variable {rs' : List Region}

section

variable (h : Wf cfg c σ rs)
include h

theorem slot_none_iff (hdyn : cfg.dynamic) (ht : t < cfg.tablesNum) :
    σ t = none ↔ c.mapped t = 0 := by
  rw [h.free t ht, Free, if_pos hdyn]

theorem mono (hsub : rs ⊆ rs') : Wf cfg c σ rs' where
  toTree := h.toTree
  leaf := by
    intro tbl k v i pa attr hat hi hentry
    obtain ⟨r, hr, hin⟩ := h.leaf tbl k v i pa attr hat hi hentry
    exact ⟨r, hsub hr, hin⟩
  meets := by
    intro t k v hslot
    obtain ⟨r, hr, hmeets⟩ := h.meets t k v hslot
    exact ⟨r, hsub hr, hmeets⟩
  free := h.free
  nonneg := h.nonneg

theorem writeBlock (hat : σ.At cfg tbl k v) (hi : i < cfg.entries tbl)
    (hentry : c.entry tbl i = .invalid) (hr : r ∈ rs) (hlo : r.baseVa ≤ v + i * blockSize k)
    (hhi : v + i * blockSize k + blockSize k ≤ r.baseVa + r.size) (pa attr : Nat) :
    Wf cfg (c.setEntry tbl i (.leaf pa attr)) σ rs where
  toTree := h.setEntry hat (by rw [hentry]; exact nofun) nofun
  leaf := by
    intro tbl' k' v' i' pa' attr' hat' hi' hleaf
    rw [entry_setEntry] at hleaf
    split at hleaf
    next heq =>
      obtain ⟨rfl, rfl⟩ := heq
      obtain ⟨rfl, rfl⟩ := hat.unique hat'
      exact ⟨r, hr, hlo, hhi⟩
    next => exact h.leaf tbl' k' v' i' pa' attr' hat' hi' hleaf
  meets := h.meets
  free := by
    intro t ht
    rw [h.free t ht]
    simp [Free, setEntry_mapped, setEntry_nextTable]
  nonneg := by
    rw [setEntry_mapped]
    exact h.nonneg

theorem enterOld (hslot : σ t = some (k, v)) : Wf cfg (incRegionsCount cfg c (some t)) σ rs ∧
      Entered cfg c (incRegionsCount cfg c (some t)) σ σ t k v := by
  rw [incRegionsCount_eq]
  refine ⟨⟨⟨h.toTree.congr rfl rfl, h.leaf, h.meets⟩, fun t' ht' => ?_, fun t' => ?_⟩, ⟨hslot,
    fun _ _ => rfl, fun hne => absurd hslot hne, translate_congr rfl rfl, fun hdyn t' => ?_, rfl⟩⟩
  · have hfree := h.free t' ht'
    unfold Free at hfree ⊢
    cases hdyn : cfg.dynamic with
    | false => simpa [hdyn] using hfree
    | true =>
      rw [hdyn, if_pos rfl] at hfree
      have := h.nonneg t'
      by_cases heq : t' = t
      · subst heq
        simp only [hslot, reduceCtorEq, false_iff, and_self, if_true] at hfree ⊢
        omega
      · simpa [heq, hdyn] using hfree
  · have := h.nonneg t'
    dsimp only
    split <;> omega
  · simp [hdyn]

theorem enterNew (hat : σ.At cfg tbl (k + 1) v) (hi : i < cfg.entries tbl)
    (hentry : c.entry tbl i = .invalid) (hempty : xlatTableGetEmpty cfg c = some (t, c'))
    (hr : r ∈ rs) (hmeets : r.Meets (v + i * blockSize (k + 1)) (blockSize (k + 1))) :
    Wf cfg (incRegionsCount cfg (c'.setEntry tbl i (.table t)) (some t))
        (update σ t (some (k, v + i * blockSize (k + 1)))) rs ∧
      Entered cfg c (incRegionsCount cfg (c'.setEntry tbl i (.table t)) (some t)) σ
        (update σ t (some (k, v + i * blockSize (k + 1)))) t k (v + i * blockSize (k + 1)) := by
  obtain ⟨ht, hfree, n, rfl, hn⟩ := xlatTableGetEmpty_some hempty
  have hslot : σ t = none := (h.free t ht).mpr hfree
  have hne := Tree.ne_of_free hat hslot
  -- the context is that of the link but for the counters
  have hc : incRegionsCount cfg (setEntry { c with nextTable := n } tbl i (.table t)) (some t) =
      { c.setEntry tbl i (.table t) with
        nextTable := n
        mapped := fun t' => c.mapped t' + if cfg.dynamic ∧ t' = t then 1 else 0 } := by
    rw [incRegionsCount_eq]
    cases tbl <;> rfl
  have htree := h.toTree.link hat hi (by simp [hentry]) hslot ht
  rw [hc]
  have hnone : ∀ a, v + i * blockSize (k + 1) ≤ a →
      a < v + i * blockSize (k + 1) + blockSize (k + 1) → translate cfg c a = none := by
    intro a hlo hhi
    rw [h.translate_at hat hi hlo hhi, hentry, walk]
  refine ⟨⟨⟨htree.congr rfl rfl, ?_, ?_⟩, ?_, ?_⟩, ⟨update_self _ _ _,
    fun t' ht' => update_of_ne ht' _ _, fun _ => ⟨hslot, hnone⟩, ?_, fun hdyn t' => by simp [hdyn],
    setEntry_mmap ..⟩⟩
  · intro tbl' k' v' i' pa attr hat' hi' hleaf
    replace hleaf := (entry_setEntry ..).symm.trans hleaf
    split at hleaf
    · cases hleaf
    · by_cases htbl : tbl' = some t
      · subst htbl
        cases (h.empty t hslot i' hi').symm.trans hleaf
      · exact h.leaf tbl' k' v' i' pa attr ((Tree.at_update_of_ne htbl).mp hat') hi' hleaf
  · intro t' k' v' hnew
    rw [update_apply] at hnew
    split at hnew
    · cases hnew
      exact ⟨r, hr, hmeets⟩
    · exact h.meets t' k' v' hnew
  · intro t' ht'
    have hfree' := h.free t' ht'
    unfold Free at hfree hfree' ⊢
    rw [update_apply]
    cases hdyn : cfg.dynamic with
    | true =>
      simp only [hdyn, if_true, true_and] at hfree hfree' ⊢
      split
      next heq => simp [heq, hfree]
      next => simpa using hfree'
    | false =>
      obtain ⟨rfl, rfl⟩ := hn hdyn
      simp only [hdyn, Bool.false_eq_true, if_false] at hfree' ⊢
      split
      next => simp only [reduceCtorEq, false_iff]; omega
      next => rw [hfree']; omega
  · intro t'
    have := h.nonneg t'
    dsimp only
    split <;> omega
  · intro a
    trans translate cfg (c.setEntry tbl i (.table t)) a
    · apply translate_congr <;> rfl
    by_cases ha : v + i * blockSize (k + 1) ≤ a ∧ a < v + i * blockSize (k + 1) + blockSize (k + 1)
    · -- the new table has no entries
      have hmod : a / blockSize k % 512 < tableEntries := mod_lt _ (by decide)
      rw [hnone a ha.1 ha.2, htree.translate_at ((Tree.at_update_of_ne hne).mpr hat) hi ha.1 ha.2,
        entry_setEntry, if_pos ⟨rfl, rfl⟩, walk, h.empty_setEntry hat _ hslot hmod, walk]
    · rw [h.translate_setEntry hat]
      omega

theorem slot_needed (hslot : σ t = some (k, v)) : (k, v) ∈ needed cfg rs := by
  obtain ⟨-, hk, hdvd, hend⟩ := h.place t k v hslot
  have := blockSize_pos (k + 1)
  simp only [needed, Finset.mem_filter, Finset.mem_product, Finset.mem_range]
  exact ⟨⟨hk, by omega⟩, hdvd, h.meets t k v hslot⟩

theorem short (hat : σ.At cfg tbl (k + 1) v) (hi : i < cfg.entries tbl)
    (hentry : c.entry tbl i = .invalid) (hnone : xlatTableGetEmpty cfg c = none) (hr : r ∈ rs)
    (hmeets : r.Meets (v + i * blockSize (k + 1)) (blockSize (k + 1))) :
    cfg.tablesNum < (needed cfg rs).card := by
  -- the places in use and the one that is missing are different places that the regions need
  have hpos := blockSize_pos (k + 1)
  have hslots (t) (ht : t < cfg.tablesNum) : ∃ x, σ t = some x := by
    rw [← Option.ne_none_iff_exists']
    intro hslot
    exact xlatTableGetEmpty_none hnone ht ((h.free t ht).mp hslot)
  have hmissing : (k, v + i * blockSize (k + 1)) ∈ needed cfg rs := by
    obtain ⟨-, hend, hdepth⟩ := h.at_spec hat
    have hblock := block_end_le (v := v) (b := blockSize (k + 1)) hi
    simp only [needed, Finset.mem_filter, Finset.mem_product, Finset.mem_range]
    exact ⟨⟨hdepth, by omega⟩, h.at_aligned hat i, r, hr, hmeets⟩
  have hno (t) : σ t ≠ some (k, v + i * blockSize (k + 1)) := by
    apply h.no_slot hat hi _ (Nat.lt_succ_self k) le_rfl (Nat.lt_add_of_pos_right hpos)
    rw [hentry]
    exact nofun
  have hcard : cfg.tablesNum ≤ ((needed cfg rs).erase (k, v + i * blockSize (k + 1))).card := by
    rw [← card_range cfg.tablesNum]
    apply card_le_card_of_injOn fun t => (σ t).getD (0, 0)
    · intro t ht
      obtain ⟨x, hx⟩ := hslots t (Finset.mem_range.mp ht)
      simp only [hx, getD_some, coe_erase, Set.mem_sdiff, mem_coe, Set.mem_singleton_iff]
      exact ⟨h.slot_needed hx, fun heq => hno t (heq ▸ hx)⟩
    · intro t1 ht1 t2 ht2 heq
      obtain ⟨x, hx⟩ := hslots t1 (Finset.mem_range.mp ht1)
      obtain ⟨y, hy⟩ := hslots t2 (Finset.mem_range.mp ht2)
      simp only [hx, hy, getD_some] at heq
      exact h.inj t1 t2 x hx (heq ▸ hy)
  exact hcard.trans_lt (card_erase_lt_of_mem hmissing)

end

end Wf

/-! ### The decision about an entry -/

section Action

variable {desc : Entry}

theorem Region.Ok.page_covered (hok : r.Ok cfg) (hva : blockSize 0 ∣ va)
    (hmeets : r.Meets va (blockSize 0)) : r.baseVa ≤ va ∧ va + blockSize 0 ≤ r.baseVa + r.size := by
  obtain ⟨h1, h2⟩ := hmeets
  refine ⟨?_, add_le_of_aligned hva hok.end_aligned h2⟩
  by_contra hlt
  have := add_le_of_aligned hva hok.va (not_le.mp hlt)
  omega

inductive MapCase (r : Region) (desc : Entry) (k va : Nat) : Option Action → Prop
  | taken (pa attr : Nat) : desc = .leaf pa attr → MapCase r desc k va (some .none)
  | write : desc = .invalid → r.baseVa ≤ va → va + blockSize k ≤ r.baseVa + r.size →
    blockSize k ∣ r.basePa + va - r.baseVa → MapCase r desc k va (some .writeBlockEntry)
  | create (j : Nat) : k = j + 1 → desc = .invalid → MapCase r desc k va (some .createNewTable)
  | recurse (t : Nat) : desc = .table t → MapCase r desc k va (some .recurseIntoTable)

theorem mapAction_spec (hok : r.Ok cfg) (hmeets : r.Meets va (blockSize k)) (hva : blockSize k ∣ va)
    (htable : ∀ t, desc = .table t → 0 < k) (hleaf : ∀ pa attr, desc = .leaf pa attr →
      r.baseVa ≤ va ∧ va + blockSize k ≤ r.baseVa + r.size) :
    MapCase r desc k va (xlatTablesMapRegionAction r desc (r.basePa + va - r.baseVa) va k) := by
  have hend := hok.endVa_add_one
  obtain ⟨h1, h2⟩ := hmeets
  unfold xlatTablesMapRegionAction
  by_cases hcov : r.baseVa ≤ va ∧ va + blockSize k ≤ r.baseVa + r.size
  · rw [if_pos (by omega)]
    by_cases hk : k = 0
    · subst hk
      rw [if_pos rfl]
      cases desc with
      | invalid =>
        refine .write rfl hcov.1 hcov.2 ?_
        rw [Nat.add_sub_assoc hcov.1]
        exact Nat.dvd_add hok.pa (Nat.dvd_sub hva hok.va)
      | leaf pa attr => exact .taken pa attr rfl
      | table t => exact absurd (htable t rfl) (lt_irrefl 0)
    · rw [if_neg hk]
      cases desc with
      | table t => exact .recurse t rfl
      | leaf pa attr => exact .taken pa attr rfl
      | invalid =>
        dsimp only
        split
        · exact .create (k - 1) (by omega) rfl
        next hfits =>
          exact .write rfl hcov.1 hcov.2
            (Nat.dvd_of_mod_eq_zero (by simpa using (not_or.mp hfits).1))
  · have hk : k ≠ 0 := fun hk => hcov (hk ▸ hok.page_covered (hk ▸ hva) (hk ▸ ⟨h1, h2⟩))
    rw [if_neg (by omega), if_pos (by omega), if_neg hk]
    cases desc with
    | invalid => exact .create (k - 1) (by omega) rfl
    | table t => exact .recurse t rfl
    | leaf pa attr => exact absurd (hleaf pa attr rfl) hcov

end Action

/-! ### The loop -/

theorem Config.entries_pos (cfg : Config) (tbl : Option Nat) : 0 < cfg.entries tbl := by
  cases tbl with
  | some t => exact (by decide : 0 < tableEntries)
  | none =>
    have hspace := cfg.space
    by_contra hzero
    rw [show cfg.baseEntries = 0 from Nat.eq_zero_of_not_pos hzero, zero_mul] at hspace
    cases hspace

/-- A region whose turn it is: what was mapped before lies in it or apart from it. -/
structure Region.Next (r : Region) (cfg : Config) (rs : List Region) : Prop where
  ok : r.Ok cfg
  mem : r ∈ rs
  rel : ∀ m ∈ rs, m.Within r ∨ m.Apart r

/-- The region is mapped from `lo` to `hi`, and the end of what was mapped returned; or a table is
missing, and the address of a page is returned. -/
inductive Outcome (cfg : Config) (r : Region) (rs : List Region) (k lo hi : Nat) (c : Ctx)
  (σ : Slots) : Option (Ctx × Nat) → Prop
  | done {c' : Ctx} {e : Nat} {σ' : Slots} : e + 1 = min hi (r.baseVa + r.size) → Wf cfg c' σ' rs →
    Mapped cfg r k lo hi c c' σ σ' → Outcome cfg r rs k lo hi c σ (some (c', e))
  | short {c' : Ctx} {e : Nat} : 4096 ∣ e → cfg.tablesNum < (needed cfg rs).card →
    Outcome cfg r rs k lo hi c σ (some (c', e))

section Loop

variable {idx : Nat}

theorem Served.leaf_covered (h : Served cfg c σ rs)
    (hrel : ∀ m ∈ rs, m.Within r ∨ m.Apart r) (hat : σ.At cfg tbl k v)
    (hi : i < cfg.entries tbl) (hmeets : r.Meets (v + i * blockSize k) (blockSize k))
    (hentry : c.entry tbl i = .leaf pa attr) :
    r.baseVa ≤ v + i * blockSize k ∧ v + i * blockSize k + blockSize k ≤ r.baseVa + r.size := by
  obtain ⟨m, hm, h1, h2⟩ := h.leaf tbl k v i pa attr hat hi hentry
  obtain ⟨h3, h4⟩ := hmeets
  rcases hrel m hm with ⟨h5, h6⟩ | h5 | h5 <;> omega

theorem Tree.not_reaches (h : Tree cfg c σ) (hat : σ.At cfg tbl k v) (hi : i < cfg.entries tbl)
    (hentry : ∀ t, c.entry tbl i ≠ .table t) :
    ¬ r.Reaches k (v + i * blockSize k) (v + i * blockSize k + blockSize k) (σ t) := by
  cases hx : σ t with
  | none => exact id
  | some x =>
    rintro ⟨h1, h2, h3, -⟩
    exact h.no_slot hat hi hentry h1 h2 h3 hx

theorem Wf.mapped_taken (h : Wf cfg c σ rs) (hat : σ.At cfg tbl k v) (hi : i < cfg.entries tbl)
    (hentry : c.entry tbl i = .leaf pa attr) :
    Mapped cfg r k (v + i * blockSize k) (v + i * blockSize k + blockSize k) c c σ σ where
  mono := fun _ _ hx => hx
  new := fun t x hx hx' => by simp [hx] at hx'
  translate := by
    intro a
    split
    next ha =>
      rw [h.translate_at hat hi ha.1 ha.2.1, hentry, walk]
      rfl
    next => rfl
  count := by
    intro _ t
    rw [if_neg (h.not_reaches hat hi (by simp [hentry])), add_zero]
  mmap := rfl

theorem Wf.mapped_write (h : Wf cfg c σ rs) (hr : r ∈ rs) (hat : σ.At cfg tbl k v)
    (hi : i < cfg.entries tbl) (hentry : c.entry tbl i = .invalid)
    (hlo : r.baseVa ≤ v + i * blockSize k)
    (hhi : v + i * blockSize k + blockSize k ≤ r.baseVa + r.size)
    (hpa : blockSize k ∣ r.basePa + (v + i * blockSize k) - r.baseVa) :
    Mapped cfg r k (v + i * blockSize k) (v + i * blockSize k + blockSize k) c
      (c.setEntry tbl i (.leaf (r.basePa + (v + i * blockSize k) - r.baseVa) r.attr)) σ σ := by
  have hnew :=
    h.writeBlock hat hi hentry hr hlo hhi (r.basePa + (v + i * blockSize k) - r.baseVa) r.attr
  constructor
  case mono => exact fun _ _ hx => hx
  case new => exact fun t x hx hx' => by simp [hx] at hx'
  case translate =>
    intro a
    by_cases ha : v + i * blockSize k ≤ a ∧ a < v + i * blockSize k + blockSize k
    · have hcontains : r.Contains a := ⟨hlo.trans ha.1, by omega⟩
      rw [if_pos ⟨ha.1, ha.2, hcontains⟩, h.translate_at hat hi ha.1 ha.2, hentry,
        hnew.translate_at hat hi ha.1 ha.2, Ctx.entry_setEntry, if_pos ⟨rfl, rfl⟩, walk, walk,
        Nat.div_mul_cancel hpa, mod_of_aligned (blockSize_pos k) (h.at_aligned hat i) ha.1 ha.2,
        none_or]
      simp only [tr, some.injEq, Prod.mk.injEq, and_true]
      omega
    · rw [if_neg (by omega), h.translate_setEntry hat]
      omega
  case count =>
    intro _ t
    rw [setEntry_mapped, if_neg (h.not_reaches hat hi (by simp [hentry])), add_zero]
  case mmap => exact setEntry_mmap _ _ _ _

theorem Outcome.step (hok : r.Ok cfg) (hwf : Wf cfg c₁ σ₁ rs)
    (hmapped : Mapped cfg r k va (va + blockSize k) c c₁ σ σ₁) (hva : blockSize k ∣ va)
    (hend : va + blockSize k ≤ r.baseVa + r.size) (hhi : va + blockSize k ≤ hi)
    {rest : Option (Ctx × Nat)} (hrest : va + blockSize k < r.baseVa + r.size →
      Outcome cfg r rs k (va + blockSize k) hi c₁ σ₁ rest) : Outcome cfg r rs k va hi c σ
    (if r.endVa ≤ va + blockSize k then some (c₁, va + blockSize k - 1) else rest) := by
  have hendVa := hok.endVa_add_one
  have hpage := Nat.dvd_add ((page_dvd_blockSize k).trans hva) (page_dvd_blockSize k)
  split
  next hle =>
    -- the end of the region is that of a page
    have heq : r.baseVa + r.size = va + blockSize k := by
      by_contra hne
      have := add_le_of_aligned hpage hok.end_aligned (by omega)
      omega
    exact .done (by omega) hwf
      (hmapped.widen hwf.toTree (le_refl va) (.inl rfl) hhi (.inr (le_of_eq heq)))
  next hgt =>
    cases hrest (by omega) with
    | done he hwf' hmapped' => exact .done he hwf' (hmapped.trans hmapped' (by omega) hhi)
    | short he hcard => exact .short he hcard

theorem Outcome.lower (h : Outcome cfg r rs k va hi c σ res) (hlo : lo ≤ va)
    (hva : lo = va ∨ blockSize k ∣ va ∧ va ≤ r.baseVa) : Outcome cfg r rs k lo hi c σ res := by
  cases h with
  | done he hwf hmapped => exact .done he hwf (hmapped.widen hwf.toTree hlo hva le_rfl (.inl rfl))
  | short he hcard => exact .short he hcard

theorem Outcome.enter (hva : blockSize (k + 1) ∣ va) (hhi : va + blockSize (k + 1) ≤ hi)
    (hmeets : r.Meets va (blockSize (k + 1))) (hentered : Entered cfg c c₁ σ σ₁ t k va)
    {res : Option (Ctx × Nat)} (hsub : Outcome cfg r rs k va (va + blockSize (k + 1)) c₁ σ₁ res)
    {next : Ctx → Option (Ctx × Nat)}
    (hnext : ∀ c2 σ2, Wf cfg c2 σ2 rs → Mapped cfg r (k + 1) va (va + blockSize (k + 1)) c c2 σ σ2 →
      va + blockSize (k + 1) ≤ r.baseVa + r.size → Outcome cfg r rs (k + 1) va hi c σ (next c2)) :
    Outcome cfg r rs (k + 1) va hi c σ
      (res.bind fun x => if x.2 ≠ va + blockSize (k + 1) - 1 then some x else next x.1) := by
  have hpos := blockSize_pos (k + 1)
  cases hsub with
  | @done c2 e σ2 he hwf hmapped =>
    have hmapped' := Mapped.enter hentered hmapped hwf.toTree hmeets
    simp only [bind_some]
    split
    next hne =>
      -- the region ends in the table
      exact .done (by omega) hwf
        (hmapped'.widen hwf.toTree (le_refl va) (.inl rfl) hhi (.inr (by omega)))
    next heq => exact hnext c2 σ2 hwf hmapped' (by omega)
  | @short c2 e he hcard =>
    have hpage : 4096 ∣ va + blockSize (k + 1) :=
      Nat.dvd_add ((page_dvd_blockSize _).trans hva) (page_dvd_blockSize _)
    simp only [bind_some]
    rw [if_pos (by omega)]
    exact .short he hcard

/-- The calls for the tables of the next level do what they should. -/
def MapsBelow (cfg : Config) (r : Region) (rs : List Region) (k : Nat)
    (sub : Ctx → Nat → Nat → Option (Ctx × Nat)) : Prop :=
  ∀ j, k = j + 1 → ∀ c σ t va, Wf cfg (incRegionsCount cfg c (some t)) σ rs → σ t = some (j, va) →
    r.Meets va (blockSize (j + 1)) →
    Outcome cfg r rs j va (va + blockSize (j + 1)) (incRegionsCount cfg c (some t)) σ (sub c t va)

/-- The loop from the entry `idx` on. -/
theorem mapLoop_outcome (hnext : r.Next cfg rs) {sub : Ctx → Nat → Nat → Option (Ctx × Nat)}
    (hsub : MapsBelow cfg r rs k sub) (n : Nat) (hn : idx + n = cfg.entries tbl)
    (hva : va = v + idx * blockSize k) (hwf : Wf cfg c σ rs) (hat : σ.At cfg tbl k v)
    (hbase : r.baseVa < va + blockSize k) (hend : va < r.baseVa + r.size) : Outcome cfg r rs k va
    (v + cfg.entries tbl * blockSize k) c σ (mapLoop cfg r k sub tbl n idx va c) := by
  have hpos := blockSize_pos k
  -- over the entries that are left
  induction n generalizing idx va c σ with
  | zero =>
    obtain rfl : idx = cfg.entries tbl := by omega
    have hentries := cfg.entries_pos tbl
    have : 0 < cfg.entries tbl * blockSize k := mul_pos hentries hpos
    rw [mapLoop, ← hva]
    exact .done (by omega) hwf (.refl cfg r k va c σ)
  | succ n ih =>
    have hi : idx < cfg.entries tbl := by omega
    have hblock := block_end_le (v := v) (b := blockSize k) hi
    rw [← hva] at hblock
    have haligned : blockSize k ∣ va := hva ▸ hwf.at_aligned hat idx
    have hmeets : r.Meets va (blockSize k) := ⟨hbase, hend⟩
    -- what is done once the entry is mapped to its end
    have hstep : ∀ c₁ σ₁, Wf cfg c₁ σ₁ rs → Mapped cfg r k va (va + blockSize k) c c₁ σ σ₁ →
        va + blockSize k ≤ r.baseVa + r.size →
        Outcome cfg r rs k va (v + cfg.entries tbl * blockSize k) c σ
          (if r.endVa ≤ va + blockSize k then some (c₁, va + blockSize k - 1)
            else mapLoop cfg r k sub tbl n (idx + 1) (va + blockSize k) c₁) := by
      intro c₁ σ₁ hwf1 hmapped hle
      refine .step hnext.ok hwf1 hmapped haligned hle hblock fun hlt => ?_
      refine ih (by omega) (by rw [hva, succ_mul]; omega) hwf1 ?_ (by omega) hlt
      cases tbl with
      | none => exact hat
      | some t => exact hmapped.mono t _ hat
    have hcase : MapCase r (c.entry tbl idx) k va (xlatTablesMapRegionAction r (c.entry tbl idx)
        (r.basePa + va - r.baseVa) va k) := mapAction_spec hnext.ok hmeets haligned
      (fun t ht => by
        obtain ⟨j, rfl, -⟩ := hwf.entry tbl k v idx t hat hi ht
        exact succ_pos j)
      (fun pa attr hleaf => hva ▸ hwf.leaf_covered hnext.rel hat hi (hva ▸ hmeets) hleaf)
    rw [mapLoop]
    generalize xlatTablesMapRegionAction r (c.entry tbl idx) (r.basePa + va - r.baseVa) va k =
      action at hcase
    cases hcase with
    | taken pa attr hentry =>
      have hcov := hwf.leaf_covered hnext.rel hat hi (hva ▸ hmeets) hentry
      rw [← hva] at hcov
      exact hstep c σ hwf (hva ▸ hwf.mapped_taken hat hi hentry) hcov.2
    | write hentry hlo hle hpa =>
      subst hva
      exact hstep _ σ (hwf.writeBlock hat hi hentry hnext.mem hlo hle _ _)
        (hwf.mapped_write hnext.mem hat hi hentry hlo hle hpa) hle
    | create j hj hentry =>
      subst hj
      cases hempty : xlatTableGetEmpty cfg c with
      | none =>
        subst hva
        exact .short ((page_dvd_blockSize _).trans haligned)
          (hwf.short hat hi hentry hempty hnext.mem hmeets)
      | some x =>
        obtain ⟨t, c'⟩ := x
        obtain ⟨hwf', hentered⟩ := hwf.enterNew hat hi hentry hempty hnext.mem (hva ▸ hmeets)
        rw [← hva] at hwf' hentered
        exact .enter haligned hblock hmeets hentered (hsub j rfl _ _ t va hwf' hentered.slot hmeets)
          hstep
    | recurse t hentry =>
      obtain ⟨j, rfl, hslot⟩ := hwf.entry tbl k v idx t hat hi hentry
      rw [← hva] at hslot
      obtain ⟨hwf', hentered⟩ := hwf.enterOld hslot
      rw [hentry]
      exact .enter haligned hblock hmeets hentered (hsub j rfl _ _ t va hwf' hentered.slot hmeets)
        hstep

theorem findStartVa_spec (hk : blockSize k ∣ v) (hpos : 0 < r.size)
    (hmeets : r.Meets v (cfg.entries tbl * blockSize k)) :
    findStartVa r v k = v + (findStartVa r v k - v) / blockSize k * blockSize k ∧
      (findStartVa r v k - v) / blockSize k ≤ cfg.entries tbl ∧
      r.baseVa < findStartVa r v k + blockSize k ∧
      findStartVa r v k < r.baseVa + r.size ∧ v ≤ findStartVa r v k ∧ (v = findStartVa r v k ∨
        blockSize k ∣ findStartVa r v k ∧ findStartVa r v k ≤ r.baseVa) := by
  obtain ⟨h1, h2⟩ := hmeets
  have hb := blockSize_pos k
  unfold findStartVa
  split
  next hlt =>
    have hfloor := floor_le (blockSize k) r.baseVa
    have hnext := lt_floor_add hb r.baseVa
    have hdvd : blockSize k ∣ r.baseVa / blockSize k * blockSize k := Dvd.intro_left _ rfl
    have hle : v ≤ r.baseVa / blockSize k * blockSize k := by
      by_contra hgt
      have := add_le_of_aligned hdvd hk (not_le.mp hgt)
      omega
    have hcancel := Nat.div_mul_cancel (Nat.dvd_sub hdvd hk)
    refine ⟨by omega, ?_, hnext, by omega, hle, .inr ⟨hdvd, hfloor⟩⟩
    apply Nat.div_le_of_le_mul
    rw [mul_comm (blockSize k) (cfg.entries tbl)]
    omega
  next hge =>
    rw [Nat.sub_self, Nat.zero_div, zero_mul]
    exact ⟨rfl, Nat.zero_le _, by omega, h2, le_rfl, .inl rfl⟩

theorem xlatTablesMapRegion_outcome (hnext : r.Next cfg rs)
    (hwf : Wf cfg (incRegionsCount cfg c tbl) σ rs)
    (hat : σ.At cfg tbl k v) (hmeets : r.Meets v (cfg.entries tbl * blockSize k)) :
    Outcome cfg r rs k v (v + cfg.entries tbl * blockSize k) (incRegionsCount cfg c tbl) σ
      (xlatTablesMapRegion cfg r k c tbl v (cfg.entries tbl)) := by
  have hloop {sub k tbl v c σ} (hwf : Wf cfg c σ rs) (hat : σ.At cfg tbl k v)
      (hmeets : r.Meets v (cfg.entries tbl * blockSize k)) (hsub : MapsBelow cfg r rs k sub) :
      Outcome cfg r rs k v (v + cfg.entries tbl * blockSize k) c σ (mapLoop cfg r k sub tbl
        (cfg.entries tbl - (findStartVa r v k - v) / blockSize k)
        ((findStartVa r v k - v) / blockSize k) (findStartVa r v k) c) := by
    obtain ⟨h1, h2, h3, h4, h5, h6⟩ := findStartVa_spec (hwf.at_spec hat).1 hnext.ok.pos hmeets
    exact (mapLoop_outcome hnext hsub _ (Nat.add_sub_cancel' h2) h1 hwf hat h3 h4).lower h5 h6
  -- from the last level up
  induction k generalizing tbl v c σ with
  | zero => exact hloop hwf hat hmeets fun j hj => nomatch hj
  | succ k ih =>
    refine hloop hwf hat hmeets fun j hj c σ t va hwf' hslot hmeets' => ?_
    obtain rfl := succ.inj hj
    rw [blockSize_succ] at hmeets' ⊢
    exact ih hwf' hslot hmeets'

theorem mapFromBase_outcome (hnext : r.Next cfg rs) (hwf : Wf cfg c σ rs) :
    Outcome cfg r rs cfg.baseDepth 0 (cfg.vaMax + 1) c σ (mapFromBase cfg c r) := by
  have hle := hnext.ok.le
  have hpos := hnext.ok.pos
  rw [cfg.space] at hle ⊢
  have hmeets : r.Meets 0 (cfg.entries none * blockSize cfg.baseDepth) := by
    simp only [Meets, Config.entries]
    omega
  have houtcome := xlatTablesMapRegion_outcome hnext (show Wf cfg (incRegionsCount cfg c none)
    σ rs from hwf) (show σ.At cfg none cfg.baseDepth 0 from ⟨rfl, rfl⟩) hmeets
  rw [zero_add] at houtcome
  exact houtcome

end Loop

end MtkBoot.Xlat
