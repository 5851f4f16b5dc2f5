import Mathlib.Data.List.Basic
import MtkBoot.Bmt.Model

/-! The table survives a reboot as long as it stays in its block, the last good one of the pool.
Once it has moved its index is lost. -/

namespace MtkBoot.Bmt

open Lib List Function Nat

variable {flash : Nat → Block} {g : Geometry} {pool : List Nat} {readFails : Nat → Bool} {s : State}
  {x : Nat}

variable {b i : Nat} {bad : Nat → Bool}

/-! ### The search for a table -/

section Search

variable {bmt : Nat → Bbmt}

theorem bmtIndexFrom_eq {n : Nat}
    (hblock : (bmt n).block ≠ 0) (hmapped : (bmt n).mapped = bmtMapped) (k : Nat) :
    ∀ i ≤ n, n < i + k → (∀ j, i ≤ j → j < n → (bmt j).block ≠ 0 ∧ (bmt j).mapped ≠ bmtMapped) →
      bmtIndexFrom bmt k i = n := by
  induction k with
  | zero =>
    intro i hle hlt
    omega
  | succ k ih =>
    intro i hle hlt hbelow
    rw [bmtIndexFrom]
    by_cases heq : i = n
    · rw [heq, if_neg hblock, if_pos hmapped]
    · obtain ⟨hb, hm⟩ := hbelow i (Nat.le_refl i) (by omega)
      rw [if_neg hb, if_neg hm]
      exact ih (i + 1) (by omega) (by omega) fun j hij hjn => hbelow j (by omega) hjn

theorem findBmt_above {j k : Nat} (hjk : j ≤ k)
    (habove : ∀ b, g.poolLba + j ≤ b → b < g.poolLba + k → isValidBmt (flash b) = false) :
    findBmt g flash readFails k = findBmt g flash readFails j := by
  induction k with
  | zero => rw [Nat.le_zero.mp hjk]
  | succ k ih =>
    by_cases heq : j = k + 1
    · rw [heq]
    · have hinvalid := habove (g.poolLba + k) (by omega) (by omega)
      rw [findBmt]
      simp only [hinvalid, Bool.not_false, Bool.or_true, if_true]
      exact ih (by omega) fun b hlo hhi => habove b hlo (by omega)

end Search

/-- The pool: the table has the last block of it, in front of which all other blocks in use lie. -/
structure Pool (g : Geometry) (flash : Nat → Block) (bbt : Bbbt) (idx : Nat) : Prop where
  pos : 0 < idx
  idx_lt : idx < g.slots
  below : ∀ i < idx, (bbt.bmt i).block ≠ 0 ∧ (bbt.bmt i).block < (bbt.bmt idx).block ∧
    (bbt.bmt i).mapped ≠ bmtMapped
  lba_le : g.poolLba ≤ (bbt.bmt idx).block
  lt_total : (bbt.bmt idx).block < g.totalBlks
  mapped : (bbt.bmt idx).mapped = bmtMapped
  tbl : ∀ x < g.poolLba, bbt.bbTbl x < (bbt.bmt idx).block
  above : ∀ b, (bbt.bmt idx).block < b → b < g.totalBlks → isValidBmt (flash b) = false

structure Kept (g : Geometry) (s : State) : Prop where
  pool : Pool g s.flash s.bbt s.bmtBlkIdx
  signature : s.bbt.signature = bmtSig
  version : s.bbt.version = 2
  saved : s.flash (s.bbt.bmt s.bmtBlkIdx).block = ⟨s.bbt.stored g, 255 :: oobSig⟩

section Steps

theorem Geometry.two_le_lba (g : Geometry) : 2 ≤ g.poolLba := by
  unfold poolLba
  omega

theorem State.put_other (s : State) (left : Block) (h : x ≠ b) :
    (s.put b left).flash x = s.flash x := by
  simp [put, h]

section

variable (h : Pool g s.flash s.bbt s.bmtBlkIdx)
include h

theorem Pool.put (hb : b < (s.bbt.bmt s.bmtBlkIdx).block) (left : Block) :
    Pool g (s.put b left).flash s.bbt s.bmtBlkIdx := by
  refine ⟨h.pos, h.idx_lt, h.below, h.lba_le, h.lt_total, h.mapped, h.tbl, fun x hlo hhi => ?_⟩
  rw [s.put_other left (by omega)]
  exact h.above x hlo hhi

omit h in
theorem Kept.put (h : Kept g s) (hb : b < (s.bbt.bmt s.bmtBlkIdx).block) (left : Block) :
    Kept g (s.put b left) := by
  refine ⟨h.pool.put hb left, h.signature, h.version, ?_⟩
  exact (s.put_other left (Nat.ne_of_gt hb)).trans h.saved

theorem uploadBmt_done {attempt : Nat → Attempt}
    (hdone : ∀ n, attempt n = .done) : Kept g (uploadBmt g attempt (s.bmtBlkIdx + 1) s) := by
  have hmapped : (s.bbt.bmt s.bmtBlkIdx).mapped ≠ normalMapped := by
    rw [h.mapped]
    decide
  rw [uploadBmt, if_neg hmapped, hdone]
  refine ⟨⟨h.pos, h.idx_lt, h.below, h.lba_le, h.lt_total, h.mapped, h.tbl, fun x hlo hhi => ?_⟩,
    rfl, rfl, ?_⟩
  · have hlo' : (s.bbt.bmt s.bmtBlkIdx).block < x := hlo
    dsimp only [State.put]
    rw [update_of_ne (by omega)]
    exact h.above x hlo' hhi
  · simp [State.put, State.sign]

theorem Pool.give (hi : i < s.bmtBlkIdx) (block : Nat) : Pool g s.flash { s.bbt with
      bbTbl := update s.bbt.bbTbl block (s.bbt.bmt i).block
      bmt := update s.bbt.bmt i { s.bbt.bmt i with mapped := normalMapped } } s.bmtBlkIdx := by
  obtain ⟨hne, hlt, -⟩ := h.below i hi
  have hhome : update s.bbt.bmt i { s.bbt.bmt i with mapped := normalMapped } s.bmtBlkIdx =
      s.bbt.bmt s.bmtBlkIdx := update_of_ne (by omega) _ _
  refine ⟨h.pos, h.idx_lt, fun j hj => ?_, ?_, ?_, ?_, fun x hx => ?_, ?_⟩
  · simp only [hhome]
    by_cases heq : j = i
    · rw [heq, update_self]
      exact ⟨hne, hlt, (by decide : normalMapped ≠ bmtMapped)⟩
    · rw [update_of_ne heq]
      exact h.below j hj
  · simp only [hhome]
    exact h.lba_le
  · simp only [hhome]
    exact h.lt_total
  · simp only [hhome]
    exact h.mapped
  · simp only [hhome]
    by_cases heq : x = block
    · rw [heq, update_self]
      exact hlt
    · rw [update_of_ne heq]
      exact h.tbl x hx
  · simp only [hhome]
    exact h.above

end

theorem Kept.remap (h : Kept g s) (block copyLen : Nat) {o : RemapOutcome}
    (hdone : ∀ n, o.attempt n = .done) : Kept g (mtkBmtRemapBlock g s block copyLen o).1 := by
  rw [mtkBmtRemapBlock]
  split
  swap
  · exact h
  rw [remapBlockV2]
  cases hfind : findValidBlockInPool s with
  | none => exact h
  | some i =>
    have hi : i < s.bmtBlkIdx := mem_range.mp (mem_of_find?_eq_some hfind)
    have hlt := (h.pool.below i hi).2.1
    have hgive := h.pool.give hi block
    dsimp only
    generalize hbbt :
      (Bbbt.mk s.bbt.signature s.bbt.version (update s.bbt.bbTbl block (s.bbt.bmt i).block)
      (update s.bbt.bmt i { s.bbt.bmt i with mapped := normalMapped })) = bbt at hgive ⊢
    have hhome : (bbt.bmt s.bmtBlkIdx).block = (s.bbt.bmt s.bmtBlkIdx).block := by
      rw [← hbbt]
      simp only [update_of_ne (by omega : s.bmtBlkIdx ≠ i)]
    generalize hs1 : (if o.erased then State.put { s with bbt } (s.bbt.bmt i).block blank
      else { s with bbt }) = s1
    have h1 : Pool g s1.flash s1.bbt s1.bmtBlkIdx ∧ s1.bbt = bbt ∧ s1.bmtBlkIdx = s.bmtBlkIdx := by
      rw [← hs1]
      split
      · exact ⟨Pool.put (s := { s with bbt }) hgive (by rw [hhome]; exact hlt) blank, rfl, rfl⟩
      · exact ⟨hgive, rfl, rfl⟩
    obtain ⟨hpool, hbbt1, hidx1⟩ := h1
    split
    · exact uploadBmt_done (hpool.put (by rw [hbbt1, hidx1, hhome]; exact hlt) o.copied) hdone
    · exact uploadBmt_done hpool hdone

theorem Kept.mapping_lt (h : Kept g s) {block : Nat} (hblock : block < g.pmtBlock) :
    getMappingBlockIndexV2 g s block < (s.bbt.bmt s.bmtBlkIdx).block := by
  have hlba : block < g.poolLba := by
    unfold Geometry.poolLba
    omega
  have hle := h.pool.lba_le
  rw [getMappingBlockIndexV2, if_neg (by omega)]
  split
  · exact h.pool.tbl block hlba
  · omega

theorem Kept.rounds (rs : List Round) (hdone : ∀ r ∈ rs, ∀ n, r.remap.attempt n = .done) :
    ∀ s, Kept g s → ∀ block retry, Kept g (Bmt.rounds g rs block retry s) := by
  induction rs with
  | nil => exact fun _ h _ _ => h
  | cons r rs ih =>
    intro s h block retry
    have hrest := ih fun r' hr' => hdone r' (mem_cons_of_mem r hr')
    have hremap := hdone r mem_cons_self
    rw [Bmt.rounds]
    split
    · exact h
    have hleft : Kept g (s.leave (getMappingBlockIndexV2 g s block) r.left) := by
      cases r.left with
      | none => exact h
      | some left => exact h.put (h.mapping_lt (by omega)) left
    dsimp only
    generalize s.leave (getMappingBlockIndexV2 g s block) r.left = s1 at hleft ⊢
    have hmoved := hleft.remap block r.copyLen hremap
    split
    · apply hrest
      split
      · exact hmoved
      · exact hleft
    · split
      · exact hrest _ hmoved block (retry + 1)
      · exact hmoved

theorem Kept.run (h : Kept g s) (op : Op) (hdone : ∀ r ∈ op.remaps, ∀ n, r.attempt n = .done) :
    Kept g (op.run g s) := by
  cases op with
  | read block blkSize rs =>
    refine Kept.rounds _ (fun r hr => ?_) s h block 0
    obtain ⟨r', hr', rfl⟩ := mem_map.mp hr
    exact hdone r'.2.2 (mem_map_of_mem hr')
  | write block rs =>
    refine Kept.rounds _ (fun r hr => ?_) s h block 0
    obtain ⟨r', hr', rfl⟩ := mem_map.mp hr
    exact hdone r'.2.2.2 (mem_map_of_mem hr')
  | erase block rs =>
    refine Kept.rounds _ (fun r hr => ?_) s h block 0
    obtain ⟨r', hr', rfl⟩ := mem_map.mp hr
    exact hdone r'.2 (mem_map_of_mem hr')

end Steps

/-! ### Attaching again -/

theorem Geometry.poolLba_eq (g : Geometry) : g.poolLba = g.totalBlks - g.poolSize := by
  have := g.pool_le
  unfold poolLba pmtBlock
  omega

theorem Pool.stored_bmt (h : Pool g s.flash s.bbt s.bmtBlkIdx) (hi : i ≤ s.bmtBlkIdx) :
    (s.bbt.stored g).bmt i = s.bbt.bmt i :=
  if_pos (Nat.lt_of_le_of_lt hi h.idx_lt)

theorem Bbbt.stored_tbl (bbt : Bbbt) (hx : x < g.poolLba) :
    (bbt.stored g).bbTbl x = bbt.bbTbl x := by
  have hfits := g.tbl_fits
  rw [g.poolLba_eq] at hx
  exact if_pos (by omega)

theorem Bbbt.stored_stored (bbt : Bbbt) : (bbt.stored g).stored g = bbt.stored g := by
  simp only [stored]
  congr 1
  · funext i
    split <;> rfl
  · funext i
    split <;> rfl

theorem oobSig_read : ((255 :: oobSig).drop 1).take 3 = oobSig := by decide

theorem Kept.findBmt (h : Kept g s) (hreads : ∀ b, readFails b = false) :
    findBmt g s.flash readFails (g.totalBlks - g.poolLba) = some (s.bbt.stored g, s.bmtBlkIdx) := by
  have hlo := h.pool.lba_le
  have hhi := h.pool.lt_total
  have hlast : g.poolLba + ((s.bbt.bmt s.bmtBlkIdx).block - g.poolLba) =
    (s.bbt.bmt s.bmtBlkIdx).block := by omega
  have hskip : ∀ b, g.poolLba + ((s.bbt.bmt s.bmtBlkIdx).block - g.poolLba + 1) ≤ b →
      b < g.poolLba + (g.totalBlks - g.poolLba) → isValidBmt (s.flash b) = false :=
    fun b hb hb' => h.pool.above b (by omega) (by omega)
  rw [findBmt_above (by omega) hskip]
  have hvalid : isValidBmt ⟨s.bbt.stored g, 255 :: oobSig⟩ := by
    have hsig : (s.bbt.stored g).signature = bmtSig := h.signature
    have hver : (s.bbt.stored g).version = 2 := h.version
    simp only [isValidBmt, hsig, hver, oobSig_read, decide_true, Bool.and_true]
  have hindex : getBmtIndex g (s.bbt.stored g) = s.bmtBlkIdx := by
    have htwo := g.two_le_lba
    refine bmtIndexFrom_eq ?_ ?_ g.slots 0 (Nat.zero_le _) (by have := h.pool.idx_lt; omega) ?_
    · rw [h.pool.stored_bmt (Nat.le_refl _)]
      omega
    · rw [h.pool.stored_bmt (Nat.le_refl _)]
      exact h.pool.mapped
    · intro j _ hj
      rw [h.pool.stored_bmt (Nat.le_of_lt hj)]
      exact ⟨(h.pool.below j hj).1, (h.pool.below j hj).2.2⟩
  have hpos := h.pool.pos
  rw [Bmt.findBmt, hlast]
  simp only [h.saved, hreads, hvalid, hindex, Bool.not_true, Bool.or_false, Bool.false_eq_true,
    if_false]
  rw [if_neg (by omega), Bbbt.stored_stored]

theorem freeBlocks_stored (bbt : Bbbt) {idx : Nat} (hidx : idx < g.slots) :
    freeBlocks (bbt.stored g) idx = freeBlocks bbt idx := by
  apply filterMap_congr
  intro i hi
  have hlt := mem_range.mp hi
  have hentry : (bbt.stored g).bmt i = bbt.bmt i := if_pos (by omega)
  rw [hentry]

/-- A reboot finds a table, which has the same mapping and the same free blocks. -/
def Restored (g : Geometry) (s : State) : Prop := ∀ o : InitOutcome, (∀ b, o.readFails b = false) →
    (findBmt g s.flash o.readFails (g.totalBlks - g.poolLba)).isSome ∧
    ∃ s', mtkBmtInitV2 g s.flash o = some s' ∧ (∀ x < g.poolLba, s'.bbt.bbTbl x = s.bbt.bbTbl x) ∧
      freeBlocks s'.bbt s'.bmtBlkIdx = freeBlocks s.bbt s.bmtBlkIdx

theorem Kept.init (h : Kept g s) {o : InitOutcome} (hreads : ∀ b, o.readFails b = false) :
    mtkBmtInitV2 g s.flash o = some ⟨s.flash, s.bbt.stored g, s.bmtBlkIdx⟩ := by
  rw [mtkBmtInitV2, h.findBmt hreads]

theorem Kept.restored (h : Kept g s) : Restored g s := by
  intro o hreads
  refine ⟨?_, _, h.init hreads, fun x hx => s.bbt.stored_tbl hx, freeBlocks_stored _ h.pool.idx_lt⟩
  rw [h.findBmt hreads]
  rfl

theorem findValidBlock_spec {totalBlks : Nat} (k : Nat) :
    ∀ block, findValidBlock totalBlks bad k block ≠ 0 → block ≤
      findValidBlock totalBlks bad k block ∧ findValidBlock totalBlks bad k block < totalBlks := by
  induction k with
  | zero =>
    intro block hne
    rw [findValidBlock] at hne ⊢
    split at hne
    · exact absurd rfl hne
    · split at hne
      · exact absurd rfl hne
      · rw [if_neg ‹_›, if_neg ‹_›]
        exact ⟨Nat.le_refl _, by omega⟩
  | succ k ih =>
    intro block hne
    rw [findValidBlock] at hne ⊢
    split at hne
    · exact absurd rfl hne
    · split at hne
      · rw [if_neg ‹_›, if_pos ‹_›]
        obtain ⟨hlo, hhi⟩ := ih (block + 1) hne
        exact ⟨by omega, hhi⟩
      · rw [if_neg ‹_›, if_neg ‹_›]
        exact ⟨Nat.le_refl _, by omega⟩

theorem scanTbl_spec {bbTbl : Nat → Nat} (i : Nat) :
    ∀ {tbl}, scanTbl g bad bbTbl i = some tbl → ∀ x ≤ i, x ≤ tbl x ∧ tbl x ≤ tbl i := by
  induction i with
  | zero =>
    rintro tbl htbl x hx
    obtain rfl := le_zero.mp hx
    exact ⟨Nat.zero_le _, Nat.le_refl _⟩
  | succ i ih =>
    intro tbl htbl x hx
    obtain ⟨tbl', htbl', hnext⟩ := Option.bind_eq_some_iff.mp htbl
    rcases ite_eq_iff.mp hnext with ⟨-, hnone⟩ | ⟨hne, hsome⟩
    · cases hnone
    cases hsome
    obtain ⟨hlo, -⟩ := findValidBlock_spec g.bbMax _ hne
    have hprev := ih htbl'
    rw [update_self]
    by_cases heq : x = i + 1
    · rw [heq, update_self]
      have := (hprev i (Nat.le_refl i)).1
      exact ⟨by omega, Nat.le_refl _⟩
    · rw [update_of_ne heq]
      obtain ⟨h1, h2⟩ := hprev x (by omega)
      exact ⟨h1, by omega⟩

theorem scanPool_spec (bad : Nat → Bool) (k : Nat) :
    ∀ block, (scanPool g bad k block).length ≤ k ∧ (scanPool g bad k block).Pairwise (· < ·) ∧
      ∀ b ∈ scanPool g bad k block, block ≤ b ∧ b < g.totalBlks := by
  induction k with
  | zero => exact fun _ => ⟨Nat.le_refl _, List.Pairwise.nil, nofun⟩
  | succ k ih =>
    intro block
    rw [scanPool]
    split
    · exact ⟨zero_le _, List.Pairwise.nil, nofun⟩
    rename_i hne
    obtain ⟨hlo, hhi⟩ := findValidBlock_spec g.bbMax block hne
    generalize findValidBlock g.totalBlks bad g.bbMax block = next at hlo hhi ⊢
    obtain ⟨hlen, hsorted, hmem⟩ := ih (next + 1)
    refine ⟨succ_le_succ hlen, pairwise_cons.mpr ⟨fun b hb => (hmem b hb).1, hsorted⟩, ?_⟩
    intro b hb
    rcases mem_cons.mp hb with rfl | hb
    · exact ⟨hlo, hhi⟩
    · obtain ⟨h1, h2⟩ := hmem b hb
      exact ⟨by omega, h2⟩

theorem poolTbl_eq (hi : i < pool.length) :
    poolTbl pool i = ⟨pool[i], if i + 1 = pool.length then bmtMapped else noMapped⟩ := by
  rw [poolTbl, getElem?_eq_getElem hi]

theorem scanBadBlocks_pool {buf : Bbbt} {tbl : Nat → Nat}
    (hnone : ∀ b, g.poolLba ≤ b → b < g.totalBlks → isValidBmt (flash b) = false)
    (hscan : scanBadBlocks g bad buf.bbTbl = some (tbl, pool)) (htwo : 2 ≤ pool.length) :
    Pool g flash { buf with bbTbl := tbl, bmt := poolTbl pool } (pool.length - 1) := by
  obtain ⟨tbl', htbl, hrest⟩ := Option.bind_eq_some_iff.mp hscan
  rcases ite_eq_iff.mp hrest with ⟨-, hno⟩ | ⟨-, hrest⟩
  · cases hno
  rcases ite_eq_iff.mp hrest with ⟨-, hno⟩ | ⟨-, hsome⟩
  · cases hno
  obtain ⟨rfl, hpool⟩ := Prod.mk.inj (Option.some.inj hsome)
  obtain ⟨hlen, hsorted, hmem⟩ := scanPool_spec (g := g) bad
    (g.totalBlks - (tbl' (g.poolLba - 1) + 1)) (tbl' (g.poolLba - 1) + 1)
  rw [hpool] at hlen hsorted hmem
  have hgrow := scanTbl_spec (g.poolLba - 1) htbl
  have hlast : pool.length - 1 < pool.length := by omega
  have hhome := poolTbl_eq hlast
  obtain ⟨hlo, hhi⟩ := hmem _ (getElem_mem hlast)
  have hpba := (hgrow (g.poolLba - 1) (Nat.le_refl _)).1
  have hsize := g.poolLba_eq
  have hslots : g.poolSize < g.slots := g.pool_fits
  refine ⟨by omega, by omega, fun i hi => ?_, ?_, ?_, ?_, fun x hx => ?_, fun b hb hb' => ?_⟩
  · dsimp only
    rw [hhome, poolTbl_eq (by omega : i < pool.length), if_neg (by omega)]
    have hi' := (hmem _ (getElem_mem (by omega : i < pool.length))).1
    refine ⟨by dsimp only; omega, ?_, (by decide : noMapped ≠ bmtMapped)⟩
    exact pairwise_iff_getElem.mp hsorted i (pool.length - 1) (by omega) hlast (by omega)
  · dsimp only
    rw [hhome]
    dsimp only
    omega
  · dsimp only
    rw [hhome]
    exact hhi
  · dsimp only
    rw [hhome, if_pos (by omega)]
  · dsimp only
    rw [hhome]
    have := (hgrow x (by omega)).2
    dsimp only
    omega
  · dsimp only at hb
    rw [hhome] at hb
    dsimp only at hb
    exact hnone b (by omega) hb'

/-- The driver attaches to a chip without a table, the pool has two good blocks, and the table is
written at the first attempt. -/
structure First (g : Geometry) (flash : Nat → Block) (o : InitOutcome) (s : State) : Prop where
  none_valid : ∀ b, g.poolLba ≤ b → b < g.totalBlks → isValidBmt (flash b) = false
  two_good : ∀ tbl pool, scanBadBlocks g (isBad flash o.scanFails) o.buf.bbTbl = some (tbl, pool) →
    2 ≤ pool.length
  done : ∀ n, o.attempt n = .done
  init : mtkBmtInitV2 g flash o = some s

/-- An operation in which no attempt to write the table fails, or a reboot with successful reads. -/
inductive Step (g : Geometry) : State → State → Prop
  | op {s : State} (op : Op) (hdone : ∀ r ∈ op.remaps, ∀ n, r.attempt n = .done) :
      Step g s (op.run g s)
  | reboot {s s' : State} {o : InitOutcome} (hreads : ∀ b, o.readFails b = false)
      (hinit : mtkBmtInitV2 g s.flash o = some s') : Step g s s'

theorem First.kept {o : InitOutcome} (h : First g flash o s) : Kept g s := by
  have hsearch : findBmt g flash o.readFails (g.totalBlks - g.poolLba) = none := by
    rw [findBmt_above (zero_le _) fun b hlo hhi => h.none_valid b (by omega) (by omega)]
    rfl
  have hinit := h.init
  rw [mtkBmtInitV2, hsearch] at hinit
  rcases ite_eq_iff.mp hinit with ⟨-, hno⟩ | ⟨-, hinit⟩
  · cases hno
  obtain ⟨⟨tbl, pool⟩, hscan, hupload⟩ := Option.bind_eq_some_iff.mp hinit
  rcases ite_eq_iff.mp hupload with ⟨-, hno⟩ | ⟨-, hsome⟩
  · cases hno
  have htwo := h.two_good tbl pool hscan
  have hpool := scanBadBlocks_pool h.none_valid hscan htwo
  cases hsome
  have hlen : pool.length = pool.length - 1 + 1 := by omega
  rw [hlen]
  exact uploadBmt_done
    (s := ⟨flash, { o.buf with bbTbl := tbl, bmt := poolTbl pool }, pool.length - 1⟩) hpool h.done

theorem Kept.reboot (h : Kept g s) : Kept g ⟨s.flash, s.bbt.stored g, s.bmtBlkIdx⟩ := by
  have hhome := h.pool.stored_bmt (Nat.le_refl _)
  refine ⟨⟨h.pool.pos, h.pool.idx_lt, fun i hi => ?_, ?_, ?_, ?_, fun x hx => ?_, ?_⟩, h.signature,
    h.version, ?_⟩
  · rw [hhome, h.pool.stored_bmt (Nat.le_of_lt hi)]
    exact h.pool.below i hi
  · rw [hhome]
    exact h.pool.lba_le
  · rw [hhome]
    exact h.pool.lt_total
  · rw [hhome]
    exact h.pool.mapped
  · rw [hhome, s.bbt.stored_tbl hx]
    exact h.pool.tbl x hx
  · rw [hhome]
    exact h.pool.above
  · rw [hhome, Bbbt.stored_stored]
    exact h.saved

def eightBlocks : Geometry where
  totalBlks := 8
  poolSize := 4
  tableSize := 8
  pgSize := 64
  inRange := fun _ => true
  total_lt := by decide
  pool_le := by decide
  tbl_fits := by decide
  pool_fits := by decide

def goodInit : InitOutcome := ⟨fun _ => false, blank.bbt, fun _ => false, fun _ => .done⟩

def firstAttach : Option State := mtkBmtInitV2 eightBlocks (fun _ => blank) goodInit

def eraseOne (attempt : Nat → Attempt) : Op :=
  .erase 1 [(false, ⟨true, blank, attempt⟩), (true, ⟨true, blank, attempt⟩)]

end MtkBoot.Bmt
