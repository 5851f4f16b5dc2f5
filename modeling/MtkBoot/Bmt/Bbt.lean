import Mathlib.Data.Nat.Nth
import MtkBoot.Bmt.Model

/-! The backend that computes the mapping from the table of bad blocks: in a range the good blocks
come first.  So marking a block bad moves blocks that were never touched. -/

namespace MtkBoot.Bmt

variable {b b' block : Nat} {badAt : Int → Bool} {start stop : Int}

structure BbtConfig where
  blkShift : Nat
  totalBlks : Nat
  remapRange : List (Nat × Nat)
  total_lt : totalBlks < 2 ^ 16

variable {c : BbtConfig}

inductive FlashOp
  | erase (block : Nat)
  | writeBmt (block : Nat)
  | copy (dest src len : Nat)
  deriving DecidableEq, Repr

/-- `bbtBuf` has two bits for each block; `log` is what was done to the flash. -/
structure BbtState where
  bbtBuf : Nat → Nat
  bmtBlkIdx : Nat
  log : List FlashOp

def toInt32 (n : Nat) : Int := if n < 2 ^ 31 then n else n - 2 ^ 32

/-- `mapping_block_in_range`.  Without ranges the end is a number of blocks, with them both are
addresses. -/
def mappingBlockInRange (c : BbtConfig) (block : Nat) : Option (Int × Int) :=
  let addr := block * 2 ^ c.blkShift % 2 ^ 32
  match c.remapRange with
  | [] => some (0, c.totalBlks)
  | ranges =>
    (ranges.find? fun r => !(addr < r.1 || addr ≥ r.2)).map fun r => (toInt32 r.1, toInt32 r.2)

/-- `bbt_block_is_bad`, whose argument is 16 bits wide. -/
def bbtBlockIsBad (s : BbtState) (block : Int) : Bool := s.bbtBuf (block % 2 ^ 16).toNat ≠ 0

def skipBadBlocks (bad : Int → Bool) (stop : Int) : Nat → Int → Int → Nat → Int × Int × Nat
  | 0, i, ofs, badBlocks => (i, ofs, badBlocks)
  | fuel + 1, i, ofs, badBlocks =>
    if i < stop then
      if bad i then skipBadBlocks bad stop fuel (i + 1) ofs (badBlocks + 1)
      else if ofs ≠ 0 then skipBadBlocks bad stop fuel (i + 1) (ofs - 1) badBlocks
      else (i, ofs, badBlocks)
    else (i, ofs, badBlocks)

def overflowBlock (bad : Int → Bool) (ofs : Int) : Nat → Int → Nat → Option Int
  | 0, _, _ => none
  | fuel + 1, i, badBlocks =>
    if 0 < badBlocks then
      if !bad i then overflowBlock bad ofs fuel (i - 1) badBlocks
      else if ((badBlocks - 1 : Nat) : Int) ≤ ofs then some i
      else overflowBlock bad ofs fuel (i - 1) (badBlocks - 1)
    else none

/-- `get_mapping_block_index_bbt` within the blocks from `start` to `stop`. -/
def mapInRange (bad : Int → Bool) (start stop : Int) (block : Nat) : Int :=
  let (i, ofs, badBlocks) := skipBadBlocks bad stop (stop - start).toNat start (block - start) 0
  if i < stop then i
  else (overflowBlock bad ofs (stop - start).toNat (stop - 1) badBlocks).getD block

def getMappingBlockIndexBbt (c : BbtConfig) (s : BbtState) (block : Nat) : Int :=
  match mappingBlockInRange c block with
  | none => block
  | some (start, stop) =>
    mapInRange (bbtBlockIsBad s) (start / 2 ^ c.blkShift) (stop / 2 ^ c.blkShift) block

def bbtSetBlockState (s : BbtState) (block : Nat) (bad : Bool) : BbtState :=
  { s with
    bbtBuf := Function.update s.bbtBuf block (if bad then 3 else 0)
    log := s.log ++ [.erase s.bmtBlkIdx, .writeBmt s.bmtBlkIdx] }

def remapBlockBbt (c : BbtConfig) (s : BbtState) (block mappedBlk copyLen : Nat) :
    BbtState × Bool :=
  match mappingBlockInRange c block with
  | none => (s, false)
  | some _ =>
    let s := bbtSetBlockState s mappedBlk true
    let newBlk := (getMappingBlockIndexBbt c s block % 2 ^ 16).toNat
    let copy := if 0 < copyLen then [FlashOp.copy newBlk mappedBlk copyLen] else []
    ({ s with log := s.log ++ [.erase newBlk] ++ copy }, true)

def failedAccess (c : BbtConfig) (s : BbtState) (block copyLen : Nat) : BbtState × Bool :=
  let curBlock := getMappingBlockIndexBbt c s block
  if curBlock < 0 then (s, false)
  else
    match mappingBlockInRange c block with
    | none => (s, false)
    -- the backend's arguments are 16 bits wide
    | some _ => remapBlockBbt c s (block % 2 ^ 16) (curBlock % 2 ^ 16).toNat copyLen

/-! ## The order of the blocks -/

section

variable (bad : Nat → Bool)

def goodBefore (k : Nat) : Nat := Nat.count (fun j => bad j = false) k

def badBefore (k : Nat) : Nat := Nat.count (fun j => bad j = true) k

/-- Block `k` of `n` is the one at place `o` when the good ones come first; places past the end are
the last bad block's. -/
def Slot (n o k : Nat) : Prop :=
  k < n ∧ (bad k = false ∧ goodBefore bad k = o ∨ bad k = true ∧ goodBefore bad n ≤ o ∧
    badBefore bad k = min (o - goodBefore bad n) (badBefore bad n - 1))

end

variable {bad : Nat → Bool} {n o k k' : Nat}

theorem goodBefore_succ (bad : Nat → Bool) (k : Nat) :
    goodBefore bad (k + 1) = goodBefore bad k + if bad k then 0 else 1 := by
  rw [goodBefore, Nat.count_succ, ← goodBefore]
  cases bad k <;> rfl

theorem badBefore_succ (bad : Nat → Bool) (k : Nat) :
    badBefore bad (k + 1) = badBefore bad k + if bad k then 1 else 0 := by
  rw [badBefore, Nat.count_succ, ← badBefore]

theorem good_add_bad (bad : Nat → Bool) (k : Nat) : goodBefore bad k + badBefore bad k = k := by
  induction k with
  | zero => rfl
  | succ k ih =>
    rw [goodBefore_succ, badBefore_succ]
    cases bad k <;> simp <;> omega

theorem goodBefore_mono (h : k ≤ k') : goodBefore bad k ≤ goodBefore bad k' :=
  Nat.count_monotone _ h

theorem goodBefore_lt (hk : bad k = false) (h : k < k') : goodBefore bad k < goodBefore bad k' :=
  Nat.count_strict_mono hk h

theorem badBefore_lt (hk : bad k) (h : k < k') : badBefore bad k < badBefore bad k' :=
  Nat.count_strict_mono hk h

theorem Slot.unique (h : Slot bad n o k) (h' : Slot bad n o k') : k = k' := by
  obtain ⟨hk, ⟨hgood, ho⟩ | ⟨hbad, ho, hplace⟩⟩ :=
    h <;> obtain ⟨hk', ⟨hgood', ho'⟩ | ⟨hbad', ho', hplace'⟩⟩ := h'
  · exact Nat.count_injective hgood hgood' (ho.trans ho'.symm)
  · exact absurd (goodBefore_lt hgood hk) (by omega)
  · exact absurd (goodBefore_lt hgood' hk') (by omega)
  · exact Nat.count_injective hbad hbad' (hplace.trans hplace'.symm)

/-! ## The loops -/

section

variable (hbad : ∀ k < n, badAt (start + (k : Nat)) = bad k)
include hbad

theorem skipBadBlocks_spec {fuel : Nat} (hk : k + fuel = n) (ho : goodBefore bad k ≤ o) :
    (∃ j ofs' b, skipBadBlocks badAt
      (start + n) fuel (start + k) (o - goodBefore bad k : Nat) (badBefore bad k) =
        (start + (j : Nat), ofs', b) ∧ j < n ∧ bad j = false ∧ goodBefore bad j = o) ∨
      skipBadBlocks badAt (start + n) fuel (start + k) (o - goodBefore bad k : Nat)
      (badBefore bad k) = (start + n, ((o - goodBefore bad n : Nat) : Int), badBefore bad n) ∧
        goodBefore bad n ≤ o := by
  induction fuel generalizing k with
  | zero =>
    obtain rfl : k = n := by omega
    exact .inr ⟨rfl, ho⟩
  | succ fuel ih =>
    have hlt : k < n := by omega
    have hnext : start + (k : Int) + 1 = start + ((k + 1 : Nat) : Int) := by omega
    rw [skipBadBlocks, if_pos (by omega), hbad k hlt]
    cases hb : bad k with
    | true =>
      have hgood : goodBefore bad (k + 1) = goodBefore bad k := by simp [goodBefore_succ, hb]
      have hcount : badBefore bad (k + 1) = badBefore bad k + 1 := by simp [badBefore_succ, hb]
      rw [if_pos rfl, hnext, ← hgood, ← hcount]
      exact ih (by omega) (by omega)
    | false =>
      rw [if_neg Bool.false_ne_true]
      have hgood : goodBefore bad (k + 1) = goodBefore bad k + 1 := by simp [goodBefore_succ, hb]
      have hcount : badBefore bad (k + 1) = badBefore bad k := by simp [badBefore_succ, hb]
      by_cases hofs : goodBefore bad k = o
      · rw [if_neg (by omega)]
        exact .inl ⟨k, _, _, rfl, hlt, hb, hofs⟩
      · rw [if_pos (by omega), hnext, ← hcount, show ((o - goodBefore bad k : Nat) : Int) - 1 =
          (o - goodBefore bad (k + 1) : Nat) by omega]
        exact ih (by omega) (by omega)

omit hbad in
theorem overflowBlock_none {ofs i : Int} (fuel : Nat) :
    overflowBlock badAt ofs fuel i 0 = none := by
  cases fuel <;> rfl

theorem overflowBlock_spec {t : Nat} (hk : k ≤ n)
    (hlow : min o (badBefore bad n - 1) = t) (hcount : t < badBefore bad k) :
    ∃ j < n, overflowBlock badAt o k (start + k - 1) (badBefore bad k) = some (start + (j : Nat)) ∧
    bad j ∧ badBefore bad j = t := by
  induction k with
  | zero => exact absurd hcount (Nat.not_lt_zero _)
  | succ k ih =>
    have hlt : k < n := by omega
    have hprev : start + ((k + 1 : Nat) : Int) - 1 = start + k := by omega
    rw [overflowBlock, if_pos (by omega), hprev, hbad k hlt]
    cases hb : bad k with
    | true =>
      have hsucc : badBefore bad (k + 1) = badBefore bad k + 1 := by simp [badBefore_succ, hb]
      have hmax := badBefore_lt hb hlt
      rw [if_neg (by simp), hsucc, Nat.add_sub_cancel]
      by_cases hle : badBefore bad k ≤ o
      · rw [if_pos (by omega)]
        exact ⟨k, hlt, rfl, hb, by omega⟩
      · rw [if_neg (by omega)]
        exact ih (by omega) (by omega)
    | false =>
      have hsucc : badBefore bad (k + 1) = badBefore bad k := by simp [badBefore_succ, hb]
      rw [if_pos (by rfl), hsucc]
      rw [hsucc] at hcount
      exact ih (by omega) hcount

/-- The mapping is the block at the place of the offset in the range, or the block itself when there
is none. -/
theorem mapInRange_spec (hn : n = (stop - start).toNat) (ho : (block : Int) - start = o) :
    (∃ k, Slot bad n o k ∧ mapInRange badAt start stop block = start + k) ∨
      badBefore bad n = 0 ∧ n ≤ o ∧ mapInRange badAt start stop block = block := by
  have hzero : goodBefore bad 0 = 0 ∧ badBefore bad 0 = 0 := ⟨rfl, rfl⟩
  rw [mapInRange, ← hn, ho]
  by_cases hstop : stop ≤ start
  · obtain rfl : n = 0 := by omega
    refine .inr ⟨rfl, Nat.zero_le _, ?_⟩
    exact if_neg (by omega : ¬ start < stop)
  obtain rfl : stop = start + n := by omega
  have hloop := skipBadBlocks_spec hbad (zero_add n) (Nat.zero_le o)
  simp only [hzero.1, hzero.2, Nat.sub_zero, Int.natCast_zero, Int.add_zero] at hloop
  obtain ⟨j, ofs', b, hloop, hj, hgood, hplace⟩ | ⟨hloop, hge⟩ := hloop
  · rw [hloop]
    exact .inl ⟨j, ⟨hj, .inl ⟨hgood, hplace⟩⟩, if_pos (by omega)⟩
  rw [hloop]
  simp only [if_neg (Int.lt_irrefl _)]
  rcases Nat.eq_zero_or_pos (badBefore bad n) with hnone | hpos
  · have := good_add_bad bad n
    rw [hnone, overflowBlock_none]
    exact .inr ⟨rfl, by omega, rfl⟩
  · obtain ⟨j, hj, hread, hb, hplace⟩ := overflowBlock_spec hbad (Nat.le_refl n) rfl (by omega)
    rw [hread]
    exact .inl ⟨j, ⟨hj, .inr ⟨hb, hge, hplace⟩⟩, rfl⟩

end

/-! ## Marking a block bad -/

section

variable {copy : Nat → Bool}

/-- Block `k` keeps its place when the blocks in `copy` become bad: it is good and before them, or
bad and after them, or one of them between the two kinds. -/
def Stays (bad copy : Nat → Bool) (n k : Nat) : Prop :=
  bad k = false ∧ (∀ j < n, copy j = true → k < j) ∨
    bad k = true ∧ (∀ j < n, copy j = true → j < k) ∨
    copy k = true ∧ (∀ j < k, bad j = false) ∧ ∀ j, k < j → j < n → bad j = false → copy j = true

theorem count_eq_iff {p : Nat → Prop} [DecidablePred p] (hk : k ≤ n) :
    Nat.count p k = Nat.count p n ↔ ∀ j, k ≤ j → j < n → ¬ p j := by
  obtain ⟨d, rfl⟩ := Nat.exists_eq_add_of_le hk
  rw [Nat.count_add, eq_comm, Nat.add_eq_left, Nat.count_iff_forall_not]
  constructor
  · intro h j hge hlt
    have := h (j - k) (by omega)
    rwa [Nat.add_sub_cancel' hge] at this
  · exact fun h i hi => h (k + i) (Nat.le_add_right k i) (by omega)

theorem count_marked (hcopy : ∀ j < n, copy j → bad j = false) (hk : k ≤ n) :
    goodBefore (fun j => bad j || copy j) k + badBefore copy k = goodBefore bad k ∧
      badBefore (fun j => bad j || copy j) k = badBefore bad k + badBefore copy k := by
  induction k with
  | zero => exact ⟨rfl, rfl⟩
  | succ k ih =>
    have hc := hcopy k (by omega)
    rw [goodBefore_succ, badBefore_succ, badBefore_succ, goodBefore_succ, badBefore_succ]
    cases hb : bad k <;> cases hck : copy k <;> simp [hb, hck] at hc ⊢ <;> omega

theorem Slot.stays_iff (hcopy : ∀ j < n, copy j → bad j = false) (h : Slot bad n o k) :
    Slot (fun j => bad j || copy j) n o k ↔ Stays bad copy n k := by
  obtain ⟨hk, hplace⟩ := h
  obtain ⟨hgoodk, hbadk⟩ := count_marked hcopy hk.le
  obtain ⟨hgoodn, hbadn⟩ := count_marked hcopy (Nat.le_refl n)
  have hmono' : goodBefore (fun j => bad j || copy j) k ≤ goodBefore (fun j => bad j || copy j) n :=
    goodBefore_mono hk.le
  rcases hplace with ⟨hgood, ho⟩ | ⟨hbad, ho, hplace⟩
  · cases hck : copy k with
    | false =>
      -- a good block that stays good moves down by the marked blocks before it
      have hiff : Slot (fun j => bad j || copy j) n o k ↔ badBefore copy k = 0 := by
        simp only [Slot, hk, hgood, hck, true_and, Bool.or_self, Bool.false_eq_true, false_and,
          or_false]
        omega
      have hbefore : badBefore copy k = 0 ↔ ∀ j < n, copy j → k < j := by
        rw [badBefore, Nat.count_iff_forall_not]
        constructor
        · intro h j _ hj
          rcases Nat.lt_trichotomy k j with hlt | rfl | hgt
          · exact hlt
          · exact absurd hj (by simp [hck])
          · exact absurd hj (h j hgt)
        · exact fun h j hj hcj => absurd (h j (by omega) hcj) (by omega)
      simp [hiff, hbefore, Stays, hgood, hck]
    | true =>
      -- a marked block goes behind all good ones and the bad ones before it
      have hlt : badBefore copy k < badBefore copy n := badBefore_lt hck hk
      have hiff : Slot (fun j => bad j || copy j) n o k ↔ badBefore bad k = 0 ∧
          goodBefore (fun j => bad j || copy j) k = goodBefore (fun j => bad j || copy j) n := by
        simp only [Slot, hk, hgood, hck, true_and, Bool.or_true, Bool.true_eq_false, false_and,
          false_or]
        omega
      have hrest :
          goodBefore (fun j => bad j || copy j) k = goodBefore (fun j => bad j || copy j) n ↔
          ∀ j, k < j → j < n → bad j = false → copy j := by
        rw [goodBefore, goodBefore, count_eq_iff hk.le]
        constructor
        · intro h j hj hjn hb
          simpa [hb] using h j hj.le hjn
        · intro h j hj hjn
          rcases eq_or_lt_of_le hj with rfl | hj
          · simp [hck]
          · cases hb : bad j with
            | true => simp
            | false => simp [h j hj hjn hb]
      have hfirst : badBefore bad k = 0 ↔ ∀ j < k, bad j = false := by
        rw [badBefore, Nat.count_iff_forall_not]
        simp
      have hself : ¬ ∀ j < n, copy j → k < j := fun h => absurd (h k hk hck) (lt_irrefl k)
      simp only [hiff, hrest, hfirst, Stays, hgood, hck, hself, true_and, and_false, false_or,
        Bool.false_eq_true, false_and]
  · -- a bad block moves behind the marked blocks that come before it
    have hck : copy k = false := by
      by_contra hc
      have := hcopy k hk (by simpa using hc)
      simp [hbad] at this
    have hpos : 0 < badBefore bad n := lt_of_le_of_lt (Nat.zero_le _) (badBefore_lt hbad hk)
    have hiff : Slot (fun j => bad j || copy j) n o k ↔ badBefore copy k = badBefore copy n := by
      simp only [Slot, hk, hbad, true_and, Bool.true_or, Bool.true_eq_false, false_and, false_or]
      omega
    have hafter : badBefore copy k = badBefore copy n ↔ ∀ j < n, copy j → j < k := by
      rw [badBefore, badBefore, count_eq_iff hk.le]
      constructor
      · exact fun h j hj hcj => not_le.mp fun hge => h j hge hj hcj
      · exact fun h j hge hj hcj => absurd (h j hj hcj) (by omega)
    simp only [hiff, hafter, Stays, hbad, hck, true_and, Bool.true_eq_false, Bool.false_eq_true,
      false_and, false_or, or_false]

theorem mapInRange_marked {badAt' : Int → Bool} (hbad : ∀ k < n, badAt (start + (k : Nat)) = bad k)
    (hbad' : ∀ k < n, badAt' (start + (k : Nat)) = (bad k || copy k))
    (hcopy : ∀ j < n, copy j → bad j = false) (hn : n = (stop - start).toNat)
    (ho : (block : Int) - start = o) : mapInRange badAt' start stop block =
    mapInRange badAt start stop block ↔ (∀ k < n, copy k = false) ∨
      ∃ k < n, mapInRange badAt start stop block = start + k ∧ Stays bad copy n k := by
  have hcounts := (count_marked hcopy (Nat.le_refl n)).2
  have hnocopy : badBefore copy n = 0 ↔ ∀ k < n, copy k = false := by
    rw [badBefore, Nat.count_iff_forall_not]
    simp
  have hnoslot : ∀ {bad : Nat → Bool} {k : Nat}, badBefore bad n = 0 → n ≤ o →
      ¬ Slot bad n o k := by
    intro bad k hzero hle ⟨hk, hplace⟩
    have := good_add_bad bad k
    rcases hplace with ⟨_, ho⟩ | ⟨hb, _, _⟩
    · omega
    · exact absurd (badBefore_lt hb hk) (by omega)
  obtain ⟨k, hslot, heq⟩ | ⟨hzero, hle, heq⟩ := mapInRange_spec hbad hn ho <;> obtain ⟨k', hslot',
    heq'⟩ | ⟨hzero', hle', heq'⟩ := mapInRange_spec hbad' hn ho <;> rw [heq, heq']
  · have hkk : start + (k' : Int) = start + k ↔ Slot (fun j => bad j || copy j) n o k := by
      constructor
      · intro h
        obtain rfl : k' = k := by omega
        exact hslot'
      · intro h
        rw [h.unique hslot']
    rw [hkk, hslot.stays_iff hcopy]
    constructor
    · exact fun h => .inr ⟨k, hslot.1, rfl, h⟩
    rintro (hnone | ⟨j, hj, hjk, h⟩)
    · have hfalse : ∀ j < n, copy j → False := fun j hj hcj => by simp [hnone j hj] at hcj
      cases hb : bad k with
      | false => exact .inl ⟨hb, fun j hj hcj => (hfalse j hj hcj).elim⟩
      | true => exact .inr (.inl ⟨hb, fun j hj hcj => (hfalse j hj hcj).elim⟩)
    · obtain rfl : k = j := by omega
      exact h
  · exact absurd hslot (hnoslot (by omega) hle')
  · -- a block past its range that was mapped to itself
    have hk := hslot'.1
    refine iff_of_false (by omega) ?_
    rintro (hnone | ⟨j, hj, hjk, -⟩)
    · exact hnoslot (by rw [hcounts, hnocopy.mpr hnone]; omega) hle hslot'
    · omega
  · exact iff_of_true rfl (.inl (hnocopy.mp (by omega)))

end

/-! ## A failed access -/

section

variable {s : BbtState}

theorem failedAccess_bad (hb : b < c.totalBlks) (hcur : ¬ getMappingBlockIndexBbt c s b < 0)
    (hrange : mappingBlockInRange c b ≠ none) (copyLen : Nat) (i : Int) :
    bbtBlockIsBad (failedAccess c s b copyLen).1 i = (bbtBlockIsBad s i ||
        decide ((i % 2 ^ 16).toNat = (getMappingBlockIndexBbt c s b % 2 ^ 16).toNat)) := by
  obtain ⟨w, hw⟩ := Option.ne_none_iff_exists'.mp hrange
  have hmod : b % 2 ^ 16 = b := Nat.mod_eq_of_lt (lt_trans hb c.total_lt)
  simp only [failedAccess, if_neg hcur, hw, remapBlockBbt, hmod, bbtSetBlockState, bbtBlockIsBad,
    Function.update_apply]
  split_ifs <;> simp_all

theorem toInt32_le (n : Nat) : toInt32 n ≤ n := by
  rw [toInt32]
  split <;> omega

theorem mappingBlockInRange_ofs (h : mappingBlockInRange c b' = some (start, stop)) :
    ∃ o : Nat, (b' : Int) - start / 2 ^ c.blkShift = o := by
  have hpow : (0 : Int) < 2 ^ c.blkShift := Int.pow_pos (by decide)
  have hle : start ≤ (b' : Int) * 2 ^ c.blkShift := by
    cases hranges : c.remapRange with
    | nil =>
      simp only [mappingBlockInRange, hranges] at h
      cases h
      exact Int.mul_nonneg (Int.natCast_nonneg b') (Int.le_of_lt hpow)
    | cons r rs =>
      simp only [mappingBlockInRange, hranges] at h
      obtain ⟨r, hr, hw⟩ := Option.map_eq_some_iff.mp h
      cases hw
      have hin := List.find?_some hr
      have hlow : r.1 ≤ b' * 2 ^ c.blkShift := by
        simp only [Bool.not_eq_true', Bool.or_eq_false_iff, decide_eq_false_iff_not] at hin
        omega
      exact Int.le_trans (toInt32_le r.1) (by exact_mod_cast hlow)
  have hfirst : start / 2 ^ c.blkShift ≤ b' := by
    have := Int.ediv_le_ediv hpow hle
    rwa [Int.mul_ediv_cancel _ (Int.ne_of_gt hpow)] at this
  exact ⟨((b' : Int) - start / 2 ^ c.blkShift).toNat, by omega⟩

/-- An access to `b` that fails leaves the mapping of `b'` alone: nothing is marked, or nothing in
the range of `b'`, or the block of `b'` keeps its place. -/
def Undisturbed (c : BbtConfig) (s : BbtState) (b b' : Nat) : Prop :=
  mappingBlockInRange c b = none ∨ getMappingBlockIndexBbt c s b < 0 ∨
  bbtBlockIsBad s (getMappingBlockIndexBbt c s b) = true ∨
  ∀ start stop, mappingBlockInRange c b' = some (start, stop) →
    let first := start / 2 ^ c.blkShift
    let n := (stop / 2 ^ c.blkShift - first).toNat
    let copy := fun k : Nat =>
      decide (((first + k) % 2 ^ 16).toNat = (getMappingBlockIndexBbt c s b % 2 ^ 16).toNat)
    (∀ k < n, copy k = false) ∨
      ∃ k < n, getMappingBlockIndexBbt c s b' = first + k ∧
        Stays (fun k => bbtBlockIsBad s (first + k)) copy n k

theorem mapping_kept_iff (hb : b < c.totalBlks) (copyLen : Nat) :
    getMappingBlockIndexBbt c (failedAccess c s b copyLen).1 b' = getMappingBlockIndexBbt c s b' ↔
      Undisturbed c s b b' := by
  by_cases hrange : mappingBlockInRange c b = none
  · simp [Undisturbed, failedAccess, hrange]
  by_cases hcur : getMappingBlockIndexBbt c s b < 0
  · simp [Undisturbed, failedAccess, hcur]
  have htable := failedAccess_bad hb hcur hrange copyLen
  cases hrange' : mappingBlockInRange c b' with
  | none => simp [getMappingBlockIndexBbt, Undisturbed, hrange']
  | some w =>
    obtain ⟨start, stop⟩ := w
    obtain ⟨o, ho⟩ := mappingBlockInRange_ofs hrange'
    by_cases hp : bbtBlockIsBad s (getMappingBlockIndexBbt c s b)
    · -- a block that is bad already
      have hsame : bbtBlockIsBad (failedAccess c s b copyLen).1 = bbtBlockIsBad s := by
        funext i
        rw [htable i]
        by_cases hi : (i % 2 ^ 16).toNat = (getMappingBlockIndexBbt c s b % 2 ^ 16).toNat
        · rw [bbtBlockIsBad] at hp
          rw [bbtBlockIsBad, hi, hp, Bool.true_or]
        · rw [decide_eq_false hi, Bool.or_false]
      refine iff_of_true ?_ (.inr (.inr (.inl hp)))
      rw [getMappingBlockIndexBbt, getMappingBlockIndexBbt, hrange', hsame]
    have hcopy : ∀ j < (stop / 2 ^ c.blkShift - start / 2 ^ c.blkShift).toNat,
        decide (((start / 2 ^ c.blkShift + (j : Nat)) % 2 ^ 16).toNat =
          (getMappingBlockIndexBbt c s b % 2 ^ 16).toNat) →
        bbtBlockIsBad s (start / 2 ^ c.blkShift + (j : Nat)) = false := by
      intro j _ hj
      have hj := of_decide_eq_true hj
      rw [bbtBlockIsBad, hj]
      simpa [bbtBlockIsBad] using hp
    have hmap : ∀ t, getMappingBlockIndexBbt c t b' =
        mapInRange (bbtBlockIsBad t) (start / 2 ^ c.blkShift) (stop / 2 ^ c.blkShift) b' := by
      intro t
      rw [getMappingBlockIndexBbt, hrange']
    have hmarked := mapInRange_marked (fun _ _ => rfl)
      (fun k _ => htable (start / 2 ^ c.blkShift + k)) hcopy rfl ho
    rw [hmap, hmap s, hmarked, ← hmap s]
    constructor
    · intro h
      refine .inr (.inr (.inr fun start' stop' hw => ?_))
      obtain ⟨rfl, rfl⟩ := Prod.mk.inj (Option.some.inj (hrange'.symm.trans hw))
      exact h
    · rintro (h | h | h | h)
      · exact absurd h hrange
      · exact absurd h hcur
      · exact absurd h hp
      · exact h start stop hrange'

end

/-! ## The other blocks -/

theorem uploadBmt_bbTbl (g : Geometry) (attempt : Nat → Attempt) (n : Nat) (s : State) :
    (uploadBmt g attempt n s).bbt.bbTbl = s.bbt.bbTbl := by
  induction n generalizing s with
  | zero => rfl
  | succ n ih =>
    rw [uploadBmt]
    split
    · rfl
    · cases attempt n with
      | done => rfl
      | eraseFails => exact ih _
      | writeFails left => exact ih _

theorem mtkBmtRemapBlock_other (g : Geometry) (s : State) (hne : b' ≠ b) (copyLen : Nat)
    (o : RemapOutcome) : getMappingBlockIndexV2 g (mtkBmtRemapBlock g s b copyLen o).1 b' =
    getMappingBlockIndexV2 g s b' := by
  have htbl : (mtkBmtRemapBlock g s b copyLen o).1.bbt.bbTbl b' = s.bbt.bbTbl b' := by
    rw [mtkBmtRemapBlock]
    split
    · rw [remapBlockV2]
      cases findValidBlockInPool s with
      | none => rfl
      | some i =>
        simp only [uploadBmt_bbTbl]
        split <;> split <;> exact Function.update_of_ne hne _ _
    · rfl
  rw [getMappingBlockIndexV2, getMappingBlockIndexV2, htbl]

def sixteenBlocks : BbtConfig := ⟨17, 16, [(0, 8 * 2 ^ 17)], by decide⟩

def allGood : BbtState := ⟨fun _ => 0, 15, []⟩

end MtkBoot.Bmt
