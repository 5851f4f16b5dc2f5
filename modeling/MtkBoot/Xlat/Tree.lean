import MtkBoot.Lib.Blocks
import MtkBoot.Xlat.Model

/-! The tables as a tree.  A slot is the place of a table: its level and the first address that it
translates.  Each table in use is linked at its slot and nowhere else. -/

namespace MtkBoot.Xlat

open Lib Function Ctx Nat

variable {c' : Ctx} {cfg : Config} {i' j k v va : Nat}

theorem blockSize_pos (k : Nat) : 0 < blockSize k := Nat.two_pow_pos _

theorem blockSize_succ (k : Nat) : blockSize (k + 1) = 512 * blockSize k := by
  rw [blockSize, blockSize, show 12 + 9 * (k + 1) = 9 + (12 + 9 * k) by ring, Nat.pow_add]

theorem blockSize_dvd (h : j ≤ k) : blockSize j ∣ blockSize k := pow_dvd_pow 2 (by omega)

theorem page_dvd_blockSize (k : Nat) : 4096 ∣ blockSize k := blockSize_dvd (j := 0) (zero_le k)

namespace Region

variable (r m : Region)

def Contains (va : Nat) : Prop := r.baseVa ≤ va ∧ va < r.baseVa + r.size

instance (va : Nat) : Decidable (r.Contains va) := inferInstanceAs (Decidable (_ ∧ _))

def tr (va : Nat) : Nat × Nat := (r.basePa + (va - r.baseVa), r.attr)

def Within : Prop := m.baseVa ≤ r.baseVa ∧ r.baseVa + r.size ≤ m.baseVa + m.size

def Apart : Prop := r.baseVa + r.size ≤ m.baseVa ∨ m.baseVa + m.size ≤ r.baseVa

def Meets (va len : Nat) : Prop := r.baseVa < va + len ∧ va < r.baseVa + r.size

instance (va len : Nat) : Decidable (r.Meets va len) := inferInstanceAs (Decidable (_ ∧ _))

structure Ok (cfg : Config) : Prop where
  pos : 0 < r.size
  va : 4096 ∣ r.baseVa
  pa : 4096 ∣ r.basePa
  len : 4096 ∣ r.size
  le : r.baseVa + r.size ≤ cfg.vaMax + 1

variable {r m}

theorem Ok.endVa_add_one (h : r.Ok cfg) : r.endVa + 1 = r.baseVa + r.size := by
  have := h.pos
  unfold endVa
  omega

theorem Ok.contains_iff (h : r.Ok cfg) (a : Nat) : (0 ≤ a ∧ a < cfg.vaMax + 1 ∧ r.Contains a) ↔
    r.Contains a := by
  have := h.le
  unfold Contains
  omega

theorem Ok.end_aligned (h : r.Ok cfg) : 4096 ∣ r.baseVa + r.size := Nat.dvd_add h.va h.len

theorem Meets.exists {len : Nat} (h : r.Meets va len) (hpos : 0 < r.size) (hlen : 0 < len) :
    ∃ a, r.Contains a ∧ va ≤ a ∧ a < va + len := by
  obtain ⟨h1, h2⟩ := h
  by_cases hlo : r.baseVa ≤ va
  · exact ⟨va, ⟨hlo, h2⟩, le_rfl, by omega⟩
  · exact ⟨r.baseVa, ⟨le_rfl, by omega⟩, by omega, h1⟩

end Region

abbrev Slots := Nat → Option (Nat × Nat)

variable {σ : Slots}

/-- The table has its place at level `3 - k`, from address `v` on. -/
def Slots.At (σ : Slots) (cfg : Config) : Option Nat → Nat → Nat → Prop
  | none, k, v => k = cfg.baseDepth ∧ v = 0
  | some t, k, v => σ t = some (k, v)

def Config.entries (cfg : Config) : Option Nat → Nat
  | none => cfg.baseEntries
  | some _ => tableEntries

theorem Slots.At.unique {tbl : Option Nat} {k' v' : Nat} (h : σ.At cfg tbl k v)
    (h' : σ.At cfg tbl k' v') : k = k' ∧ v = v' := by
  cases tbl with
  | none => exact ⟨h.1.trans h'.1.symm, h.2.trans h'.2.symm⟩
  | some t => exact Prod.mk.inj (Option.some.inj (h.symm.trans h'))

/-- The tables in use form a tree: each is linked at its place and nowhere else. -/
structure Tree (cfg : Config) (c : Ctx) (σ : Slots) : Prop where
  place : ∀ t k v, σ t = some (k, v) → t < cfg.tablesNum ∧ k < cfg.baseDepth ∧
    blockSize (k + 1) ∣ v ∧ v + blockSize (k + 1) ≤ cfg.vaMax + 1
  inj : ∀ t t' x, σ t = some x → σ t' = some x → t = t'
  entry : ∀ tbl k v i t, σ.At cfg tbl k v → i < cfg.entries tbl → c.entry tbl i = .table t →
    ∃ j, k = j + 1 ∧ σ t = some (j, v + i * blockSize k)
  linked : ∀ t k v, σ t = some (k, v) → ∃ tbl v' i, σ.At cfg tbl (k + 1) v' ∧ i < cfg.entries tbl ∧
    v = v' + i * blockSize (k + 1) ∧ c.entry tbl i = .table t
  empty : ∀ t, σ t = none → ∀ i < tableEntries, c.tables t i = .invalid

/-! ### Writing one entry -/

namespace Ctx

variable (c : Ctx) (tbl : Option Nat) (i : Nat) (e : Entry)

theorem entry_congr {c : Ctx} (hbase : c'.base = c.base) (htab : c'.tables = c.tables) :
    c'.entry = c.entry := by
  funext tbl
  cases tbl with
  | none => exact hbase
  | some t => exact congrFun htab t

theorem entry_setEntry (tbl' : Option Nat) (i' : Nat) : (c.setEntry tbl i e).entry tbl' i' =
    if tbl' = tbl ∧ i' = i then e else c.entry tbl' i' := by
  cases tbl <;> cases tbl' <;> simp [setEntry, entry, update_apply]
  split <;> simp_all [update_apply]

@[simp] theorem setEntry_mapped : (c.setEntry tbl i e).mapped = c.mapped := by cases tbl <;> rfl

@[simp] theorem setEntry_mmap : (c.setEntry tbl i e).mmap = c.mmap := by cases tbl <;> rfl

@[simp] theorem setEntry_nextTable : (c.setEntry tbl i e).nextTable = c.nextTable := by
  cases tbl <;> rfl

end Ctx

theorem walk_congr {c : Ctx} (h : c'.tables = c.tables) (k : Nat) (e : Entry) (va : Nat) :
    walk c' k e va = walk c k e va := by
  induction k generalizing e with
  | zero => cases e <;> rfl
  | succ k ih =>
    cases e with
    | table t => simp only [walk, h, ih]
    | invalid => rfl
    | leaf pa attr => rfl

theorem translate_congr {c : Ctx} (hbase : c'.base = c.base) (h : c'.tables = c.tables) (va : Nat) :
    translate cfg c' va = translate cfg c va := by
  rw [translate, translate, hbase, walk_congr h]

namespace Tree

variable {c : Ctx} {tbl tbl' : Option Nat} {w i t : Nat}

theorem congr (h : Tree cfg c σ) (hbase : c'.base = c.base) (htab : c'.tables = c.tables) :
    Tree cfg c' σ := by
  have hentry := entry_congr hbase htab
  exact ⟨h.place, h.inj, hentry ▸ h.entry, hentry ▸ h.linked, htab ▸ h.empty⟩

section

variable (h : Tree cfg c σ) (hat : σ.At cfg tbl k v)
include h hat

theorem at_spec : blockSize k ∣ v ∧ v + cfg.entries tbl * blockSize k ≤ cfg.vaMax + 1 ∧
    k ≤ cfg.baseDepth := by
  cases tbl with
  | none =>
    obtain ⟨rfl, rfl⟩ := hat
    exact ⟨.intro 0 rfl, by rw [cfg.space, zero_add]; exact le_rfl, le_rfl⟩
  | some t =>
    obtain ⟨-, hk, hv, hle⟩ := h.place t k v hat
    rw [blockSize_succ] at hle
    exact ⟨(blockSize_dvd (le_succ k)).trans hv, hle, by omega⟩

theorem at_aligned (i : Nat) : blockSize k ∣ v + i * blockSize k :=
  Nat.dvd_add (h.at_spec hat).1 (Dvd.intro_left i rfl)

theorem at_unique (hi : i < cfg.entries tbl) (hat' : σ.At cfg tbl' k w)
    (hi' : i' < cfg.entries tbl') (heq : v + i * blockSize k = w + i' * blockSize k) :
    tbl = tbl' ∧ i = i' := by
  have hpos := blockSize_pos k
  have hindex : v = w → i = i' := by
    rintro rfl
    exact eq_of_mul_eq_mul_right hpos (add_left_cancel heq)
  cases tbl with
  | none =>
    obtain ⟨rfl, rfl⟩ := hat
    cases tbl' with
    | none => exact ⟨rfl, hindex hat'.2.symm⟩
    | some t' =>
      have := (h.place t' _ w hat').2.1
      omega
  | some t =>
    have hplace := h.place t k v hat
    cases tbl' with
    | none =>
      obtain ⟨rfl, -⟩ := hat'
      omega
    | some t' =>
      have hplace' := h.place t' k w hat'
      have hend := block_end_le (v := v) (b := blockSize k) hi
      have hend' := block_end_le (v := w) (b := blockSize k) hi'
      have hsucc : blockSize (k + 1) = tableEntries * blockSize k := blockSize_succ k
      simp only [Config.entries, ← hsucc] at hend hend'
      obtain rfl : v = w := aligned_unique (x := v + i * blockSize k) (blockSize_pos (k + 1))
        hplace.2.2.1 hplace'.2.2.1 (by omega) (by omega) (by omega) (by omega)
      exact ⟨congrArg some (h.inj t t' _ hat hat'), hindex rfl⟩

theorem no_slot (hi : i < cfg.entries tbl)
    (hentry : ∀ t, c.entry tbl i ≠ .table t) (hj : j < k) (hlo : v + i * blockSize k ≤ w)
    (hhi : w < v + i * blockSize k + blockSize k) : σ t ≠ some (j, w) := by
  -- up from the table to the level of the entry
  intro hslot
  induction hd : k - j generalizing j w t with
  | zero => omega
  | succ d ih =>
    obtain ⟨tbl', v', i', hat', hi', rfl, hentry'⟩ := h.linked t j w hslot
    by_cases hjk : j + 1 = k
    · subst hjk
      have heq := aligned_unique (blockSize_pos (j + 1)) (h.at_aligned hat i) (h.at_aligned hat' i')
        hlo hhi le_rfl (Nat.lt_add_of_pos_right (blockSize_pos _))
      obtain ⟨rfl, rfl⟩ := h.at_unique hat hi hat' hi' heq
      exact hentry t hentry'
    · have haligned : blockSize (j + 1 + 1) ∣ v + i * blockSize k :=
        (blockSize_dvd (by omega)).trans (h.at_aligned hat i)
      cases tbl' with
      | none =>
        have := (h.at_spec hat).2.2
        have := hat'.1
        omega
      | some t' =>
        obtain ⟨-, -, hdvd, -⟩ := h.place t' _ _ hat'
        have hend := block_end_le (v := v') (b := blockSize (j + 1)) hi'
        have hsucc : blockSize (j + 1 + 1) = tableEntries * blockSize (j + 1) :=
          blockSize_succ (j + 1)
        simp only [Config.entries, ← hsucc] at hend
        have hpos := blockSize_pos (j + 1)
        have hlo' : v + i * blockSize k ≤ v' := by
          by_contra hlt
          have := add_le_of_aligned hdvd haligned (not_le.mp hlt)
          omega
        exact ih (by omega) hlo' (by omega) hat' (by omega)

/-- The walk of an address can be followed from each table that translates it. -/
theorem translate_at (hi : i < cfg.entries tbl)
    (hlo : v + i * blockSize k ≤ va) (hhi : va < v + i * blockSize k + blockSize k) :
    translate cfg c va = walk c k (c.entry tbl i) va := by
  -- up from the table to the base table
  induction hd : cfg.baseDepth - k generalizing tbl k v i with
  | zero =>
    cases tbl with
    | none =>
      obtain ⟨rfl, rfl⟩ := hat
      have hend := block_end_le (v := 0) (b := blockSize cfg.baseDepth) hi
      have hspace := cfg.space
      simp only [Config.entries] at hend
      have hstart : blockSize cfg.baseDepth ∣ 0 + i * blockSize cfg.baseDepth :=
        Nat.dvd_add (Nat.dvd_zero _) (Dvd.intro_left i rfl)
      rw [translate, if_pos (by omega), div_of_aligned (blockSize_pos _) hstart hlo hhi, zero_add,
        Nat.mul_div_cancel _ (blockSize_pos _)]
      rfl
    | some t =>
      have := (h.place t k v hat).2.1
      omega
  | succ d ih =>
    cases tbl with
    | none =>
      obtain ⟨rfl, rfl⟩ := hat
      omega
    | some t =>
      obtain ⟨-, -, hdvd, -⟩ := h.place t k v hat
      obtain ⟨tbl', v', j, hat', hj, rfl, hentry⟩ := h.linked t k v hat
      have hend := block_end_le (v := v' + j * blockSize (k + 1)) (b := blockSize k) hi
      simp only [Config.entries, tableEntries] at hend hi
      have hsucc := blockSize_succ k
      rw [ih hat' hj (by omega) (by omega) (by omega), hentry, walk]
      rw [index_of_aligned (blockSize_pos k) (hsucc ▸ hdvd) hi hlo hhi]
      rfl

omit h in
theorem entry_other (e : Entry)
    (hout : va < v + i * blockSize k ∨ v + i * blockSize k + blockSize k ≤ va)
    (hat' : σ.At cfg tbl' j w)
    (hlo : w + i' * blockSize j ≤ va) (hhi : va < w + i' * blockSize j + blockSize j) :
    (c.setEntry tbl i e).entry tbl' i' = c.entry tbl' i' := by
  rw [entry_setEntry, if_neg]
  rintro ⟨rfl, rfl⟩
  obtain ⟨rfl, rfl⟩ := hat.unique hat'
  omega

theorem walk_setEntry (e : Entry)
    (hout : va < v + i * blockSize k ∨ v + i * blockSize k + blockSize k ≤ va) {i' : Nat}
    (hat' : σ.At cfg tbl' j w) (hi' : i' < cfg.entries tbl') (hlo : w + i' * blockSize j ≤ va)
    (hhi : va < w + i' * blockSize j + blockSize j) :
    walk (c.setEntry tbl i e) j ((c.setEntry tbl i e).entry tbl' i') va =
    walk c j (c.entry tbl' i') va := by
  -- down from the table, which may be the entry's but then with another index
  induction j generalizing tbl' w i' with
  | zero =>
    rw [entry_other hat e hout hat' hlo hhi]
    cases c.entry tbl' i' <;> rfl
  | succ j ih =>
    rw [entry_other hat e hout hat' hlo hhi]
    cases hentry : c.entry tbl' i' with
    | invalid => rfl
    | leaf pa attr => rfl
    | table t =>
      obtain ⟨_, hj, hslot⟩ := h.entry _ _ _ _ _ hat' hi' hentry
      obtain rfl := succ.inj hj
      have hmod := mod_lt (va / blockSize j) (by decide : 512 > 0)
      obtain ⟨-, -, hdvd, -⟩ := h.place t j _ hslot
      have hspan : 512 * blockSize j ∣ w + i' * blockSize (j + 1) := by
        rw [← blockSize_succ]
        exact hdvd
      obtain ⟨hlo', hhi'⟩ :=
        index_spec (blockSize_pos j) hspan hlo (by rw [← blockSize_succ]; exact hhi)
      exact @ih (some t) _ _ hslot hmod hlo' hhi'

theorem translate_setEntry (e : Entry)
    (hout : va < v + i * blockSize k ∨ v + i * blockSize k + blockSize k ≤ va) :
    translate cfg (c.setEntry tbl i e) va = translate cfg c va := by
  by_cases hva : va ≤ cfg.vaMax
  · rw [translate, translate, if_pos hva, if_pos hva]
    have hpos := blockSize_pos cfg.baseDepth
    have hlt : va / blockSize cfg.baseDepth < cfg.baseEntries := by
      rw [div_lt_iff_lt_mul hpos, ← cfg.space]
      omega
    exact h.walk_setEntry hat e hout (show σ.At cfg none cfg.baseDepth 0 from ⟨rfl, rfl⟩) hlt
      (by rw [zero_add]; exact floor_le _ _) (by rw [zero_add]; exact lt_floor_add hpos va)
  · rw [translate, translate, if_neg hva, if_neg hva]

/-! ### The steps that keep the tree -/

theorem empty_setEntry (e : Entry) (hslot : σ t = none) (hi : i < tableEntries) :
    (c.setEntry tbl i' e).tables t i = .invalid := by
  have hne : some t ≠ tbl := by
    rintro rfl
    cases hslot.symm.trans hat
  have hentry := c.entry_setEntry tbl i' e (some t) i
  rw [if_neg (fun heq => hne heq.1)] at hentry
  exact hentry.trans (h.empty t hslot i hi)

theorem setEntry {e : Entry} (hold : ∀ t, c.entry tbl i ≠ .table t) (hnew : ∀ t, e ≠ .table t) :
    Tree cfg (c.setEntry tbl i e) σ where
  place := h.place
  inj := h.inj
  entry := by
    intro tbl' k' v' i' t hat' hi' hentry
    rw [entry_setEntry] at hentry
    split at hentry
    · exact absurd hentry (hnew t)
    · exact h.entry tbl' k' v' i' t hat' hi' hentry
  linked := by
    intro t k' v' hslot
    obtain ⟨tbl', w, i', hat', hi', heq, hentry⟩ := h.linked t k' v' hslot
    refine ⟨tbl', w, i', hat', hi', heq, ?_⟩
    rw [entry_setEntry, if_neg, hentry]
    rintro ⟨rfl, rfl⟩
    exact hold t hentry
  empty := fun _ hslot _ hi => h.empty_setEntry hat e hslot hi

end

theorem at_update_of_ne (hne : tbl ≠ some t) {x : Option (Nat × Nat)} :
    Slots.At (update σ t x) cfg tbl k v ↔ σ.At cfg tbl k v := by
  cases tbl with
  | none => rfl
  | some t' => simp [Slots.At, update_of_ne (fun heq : t' = t => hne (congrArg some heq))]

theorem ne_of_free (hat : σ.At cfg tbl k v) (hfree : σ t = none) : tbl ≠ some t := by
  rintro rfl
  cases hfree.symm.trans hat

theorem link (h : Tree cfg c σ) (hat : σ.At cfg tbl (k + 1) v) (hi : i < cfg.entries tbl)
    (hold : ∀ t, c.entry tbl i ≠ .table t) (hfree : σ t = none) (ht : t < cfg.tablesNum) :
    Tree cfg (c.setEntry tbl i (.table t)) (update σ t (some (k, v + i * blockSize (k + 1)))) := by
  have hne := ne_of_free hat hfree
  have hno (t') : σ t' ≠ some (k, v + i * blockSize (k + 1)) :=
    h.no_slot hat hi hold (Nat.lt_succ_self k) le_rfl (Nat.lt_add_of_pos_right (blockSize_pos _))
  obtain ⟨-, hend, hdepth⟩ := h.at_spec hat
  constructor
  case place =>
    intro t' k' v' hslot
    rw [update_apply] at hslot
    split at hslot
    next heq =>
      cases hslot
      exact ⟨heq ▸ ht, hdepth, h.at_aligned hat i, (block_end_le hi).trans hend⟩
    next => exact h.place t' k' v' hslot
  case inj =>
    intro t1 t2 x h1 h2
    rw [update_apply] at h1 h2
    split at h1 <;> split at h2
    next heq1 heq2 => rw [heq1, heq2]
    next => exact absurd (h2.trans h1.symm) (hno t2)
    next => exact absurd (h1.trans h2.symm) (hno t1)
    next => exact h.inj t1 t2 x h1 h2
  case entry =>
    intro tbl' k' v' i' t' hat' hi' hentry
    rw [Ctx.entry_setEntry] at hentry
    by_cases htbl : tbl' = some t
    · -- the linked table has no entries yet
      subst htbl
      rw [if_neg (fun heq => hne heq.1.symm)] at hentry
      cases (h.empty t hfree i' hi').symm.trans hentry
    rw [at_update_of_ne htbl] at hat'
    split at hentry
    next heq =>
      obtain ⟨rfl, rfl⟩ := heq
      obtain ⟨rfl, rfl⟩ := hat.unique hat'
      obtain rfl := Entry.table.inj hentry
      exact ⟨k, rfl, update_self _ _ _⟩
    next =>
      obtain ⟨j, hj, hslot⟩ := h.entry tbl' k' v' i' t' hat' hi' hentry
      refine ⟨j, hj, ?_⟩
      rw [update_of_ne, hslot]
      rintro rfl
      cases hfree.symm.trans hslot
  case linked =>
    intro t' k' v' hslot
    rw [update_apply] at hslot
    split at hslot
    next heq =>
      cases hslot
      refine ⟨tbl, v, i, (at_update_of_ne hne).mpr hat, hi, rfl, ?_⟩
      rw [Ctx.entry_setEntry, if_pos ⟨rfl, rfl⟩, heq]
    next =>
      obtain ⟨tbl', w, i', hat', hi', heq, hentry⟩ := h.linked t' k' v' hslot
      refine ⟨tbl', w, i', (at_update_of_ne (ne_of_free hat' hfree)).mpr hat', hi', heq, ?_⟩
      rw [Ctx.entry_setEntry, if_neg, hentry]
      rintro ⟨rfl, rfl⟩
      exact hold t' hentry
  case empty =>
    intro t' hslot i' hi'
    rw [update_apply] at hslot
    split at hslot
    · cases hslot
    · exact h.empty_setEntry hat _ hslot hi'

theorem unlink (h : Tree cfg c σ) (hat : σ.At cfg tbl (k + 1) v) (hi : i < cfg.entries tbl)
    (hentry : c.entry tbl i = .table t) (hempty : ∀ i < tableEntries, c.tables t i = .invalid) :
    Tree cfg (c.setEntry tbl i .invalid) (update σ t none) := by
  obtain ⟨_, hk, hslot⟩ := h.entry tbl _ v i t hat hi hentry
  obtain rfl := succ.inj hk
  have hparent {tbl' k' v' i' t'} (hat' : σ.At cfg tbl' k' v') (hi' : i' < cfg.entries tbl')
      (hlink : c.entry tbl' i' = .table t') : tbl' ≠ some t := by
    rintro rfl
    cases (hempty i' hi').symm.trans hlink
  have hold {t' x} (hnew : update σ t none t' = some x) : t' ≠ t ∧ σ t' = some x := by
    rw [update_apply] at hnew
    split at hnew
    · cases hnew
    · exact ⟨‹_›, hnew⟩
  constructor
  case place => exact fun t' k' v' hnew => h.place t' k' v' (hold hnew).2
  case inj => exact fun t1 t2 x h1 h2 => h.inj t1 t2 x (hold h1).2 (hold h2).2
  case entry =>
    intro tbl' k' v' i' t' hat' hi' hlink
    have htbl : tbl' ≠ some t := by
      rintro rfl
      exact (hold (show update σ t none t = some (k', v') from hat')).1 rfl
    rw [at_update_of_ne htbl] at hat'
    rw [entry_setEntry] at hlink
    split at hlink
    · cases hlink
    next hne =>
      obtain ⟨j, hj, hslot'⟩ := h.entry tbl' k' v' i' t' hat' hi' hlink
      refine ⟨j, hj, ?_⟩
      rw [update_of_ne, hslot']
      -- the table is linked nowhere else
      rintro rfl
      obtain ⟨hk, hv⟩ := Prod.mk.inj (Option.some.inj (hslot.symm.trans hslot'))
      subst hk hj
      exact hne (h.at_unique hat' hi' hat hi hv.symm)
  case linked =>
    intro t' k' v' hnew
    obtain ⟨hne, hslot'⟩ := hold hnew
    obtain ⟨tbl', w, i', hat', hi', heq, hlink⟩ := h.linked t' k' v' hslot'
    refine ⟨tbl', w, i', (at_update_of_ne (hparent hat' hi' hlink)).mpr hat', hi', heq, ?_⟩
    rw [entry_setEntry, if_neg, hlink]
    rintro ⟨rfl, rfl⟩
    exact hne (Entry.table.inj (hlink.symm.trans hentry))
  case empty =>
    intro t' hnew i' hi'
    by_cases heq : t' = t
    · subst heq
      have hne := hparent hat hi hentry
      have hread := c.entry_setEntry tbl i .invalid (some t') i'
      rw [if_neg (fun heq => hne heq.1.symm)] at hread
      exact hread.trans (hempty i' hi')
    · rw [update_of_ne heq] at hnew
      exact h.empty_setEntry hat _ hnew hi'

end Tree

end MtkBoot.Xlat
