import MtkBoot.Base
import MtkBoot.Lib.Bytes

/-! Memory transaction descriptors of FF-A v1.0 and v1.1.  A structure is given by where it starts.
`checkObj_true` says what a descriptor that has passed `spmc_shmem_check_obj` looks like. -/

namespace MtkBoot.Spmc

open Lib List

variable {d d' len n v x : Nat} {m' : Mem}

def rd (m : Mem) (p len : Nat) : Nat := leNat (bytesAt m p len)

theorem rd_lt (m : Mem) (p len : Nat) : rd m p len < 256 ^ len := by
  have h := leNat_lt (bytesAt m p len)
  rwa [length_bytesAt] at h

theorem rd_congr {m : Mem} {p p' : Nat} (h : ∀ i < len, m (p + i) = m' (p' + i)) :
    rd m p len = rd m' p' len := by rw [rd, bytesAt_congr h, rd]

/-- `MAKE_FFA_VERSION(1, 0)`, `MAKE_FFA_VERSION(1, 1)` and `FFA_VERSION_COMPILED`. -/
def v10 : Nat := 0x10000
def v11 : Nat := 0x10001
def versionCompiled : Nat := 0x10003

def compatibleVersion (v major minor : Nat) : Bool :=
  v / 2 ^ 31 % 2 = 0 && v / 2 ^ 16 % 2 ^ 15 = major && minor ≤ v % 2 ^ 16

def isSecureWorldId (id : Nat) : Bool := id / 2 ^ 15 % 2 = 1

section Fields

variable (m : Mem)

/-- The fields of `struct ffa_mtd`.  Up to `emadCount`, apart from `emadSize`, they are those of
`struct ffa_mtd_v1_0` as well. -/
def senderId (d : Nat) : Nat := rd m d 2
def attributes (d : Nat) : Nat := rd m (d + 2) 2
def flags (d : Nat) : Nat := rd m (d + 4) 4
def handle (d : Nat) : Nat := rd m (d + 8) 8
def tag (d : Nat) : Nat := rd m (d + 16) 8
def emadSize (d : Nat) : Nat := rd m (d + 24) 4
def emadCount (d : Nat) : Nat := rd m (d + 28) 4
def emadOffset (d : Nat) : Nat := rd m (d + 32) 4

def endpointId (e : Nat) : Nat := rd m e 2
def compMrdOffset (e : Nat) : Nat := rd m (e + 4) 4

def totalPageCount (c : Nat) : Nat := rd m c 4
def addressRangeCount (c : Nat) : Nat := rd m (c + 4) 4

structure Range where
  address : Nat
  pageCount : Nat
  deriving DecidableEq, Repr

def rangeAt (c i : Nat) : Range := ⟨rd m (c + 16 + 16 * i) 8, rd m (c + 16 + 16 * i + 8) 4⟩

def ranges (c : Nat) : List Range := (List.range (addressRangeCount m c)).map (rangeAt m c)

/-! ### Records of endpoints -/

def emadBase (d v : Nat) : Nat := if v = v10 then 32 else emadOffset m d
def emadStep (d v : Nat) : Nat := if v = v10 then 16 else emadSize m d

def getEmad (d index v : Nat) : Nat := d + emadBase m d v + emadStep m d v * index

def compOffset (d v : Nat) : Nat := compMrdOffset m (getEmad m d 0 v)

def getCompMrd (d v : Nat) : Option Nat :=
  if compOffset m d v % 8 = 0 then some (d + compOffset m d v) else none

/-- `spmc_shmem_obj_validate_id`.  The search ends at a record that starts behind the descriptor. -/
def validateId (d descSize spId : Nat) : Bool :=
  ((List.range (emadCount m d)).takeWhile fun i => getEmad m d i v11 < d + descSize).any
    fun i => endpointId m (getEmad m d i v11) = spId

end Fields

/-- The end of a range as `overlapping_memory_regions` computes it: the product of the page count
and `PAGE_SIZE_4KB` is taken in 32 bits. -/
def Range.stop (r : Range) : Nat := u64 (r.address + u32 (r.pageCount * 4096))

def overlappingMemoryRegions (m : Mem) (c1 c2 : Nat) : Bool :=
  c1 = c2 || (ranges m c1).any fun a => (ranges m c2).any fun b =>
    !(b.stop ≤ a.address || a.stop ≤ b.address)

/-- `spmc_validate_mtd_start`.  For v1.0 the source takes the size of a record for the offset of the
first one. -/
def validateMtdStart (m : Mem) (d v fragmentLength totalLength : Nat) : Bool :=
  (if v = v10 then 32 ≤ fragmentLength else compatibleVersion v 1 1 && 48 ≤ fragmentLength) &&
  emadCount m d ≠ 0 &&
  (v = v10 || (emadOffset m d % 16 = 0 && 48 ≤ emadOffset m d &&
    16 ≤ emadSize m d && emadSize m d % 16 = 0)) &&
  (if v = v10 then emadCount m d * 16 + 16 + 16
    else emadCount m d * emadSize m d + 16 + emadOffset m d) ≤ totalLength

/-- The part of `spmc_shmem_check_obj` about one endpoint.  `known` are the identifiers of secure
partitions for which `spmc_get_sp_ctx` finds a context. -/
def checkEndpoint (m : Mem) (d v : Nat) (known : Nat → Bool) (i : Nat) : Bool :=
  let ep := endpointId m (getEmad m d i v)
  (!isSecureWorldId ep || known ep) &&
  compOffset m d v = compMrdOffset m (getEmad m d i v) &&
  ((List.range (emadCount m d)).drop (i + 1)).all fun j => ep ≠ endpointId m (getEmad m d j v)

/-- `spmc_shmem_check_obj`; `none` is a panic. -/
def checkObj (m : Mem) (d descFilled descSize v : Nat) (known : Nat → Bool) : Option Bool :=
  if descFilled ≠ descSize then none
  else if validateMtdStart m d v descFilled descSize = false then none
  else
    let comp := compOffset m d v
    let count := (descSize - comp - 16) / 16
    some <| (List.range (emadCount m d)).all (checkEndpoint m d v known) &&
      emadBase m d v + emadStep m d v * emadCount m d ≤ comp &&
      comp % 16 = 0 && comp ≤ descSize && 16 ≤ descSize - comp &&
      addressRangeCount m (d + comp) = count &&
      comp + 16 + count * 16 = descSize &&
      totalPageCount m (d + comp) = ((ranges m (d + comp)).map Range.pageCount).sum

/-- A complete descriptor of `n` bytes with nothing wrong. -/
structure Checked (m : Mem) (d n v : Nat) : Prop where
  count : 0 < emadCount m d
  base : if v = v10 then emadBase m d v = 32 else 48 ≤ emadBase m d v
  step : 16 ≤ emadStep m d v
  comp : ∀ i, i < emadCount m d → compMrdOffset m (getEmad m d i v) = compOffset m d v
  distinct : ∀ i j, i < j → j < emadCount m d →
    endpointId m (getEmad m d i v) ≠ endpointId m (getEmad m d j v)
  behind : emadBase m d v + emadStep m d v * emadCount m d ≤ compOffset m d v
  aligned : compOffset m d v % 16 = 0
  size : compOffset m d v + 16 + 16 * addressRangeCount m (d + compOffset m d v) = n

theorem checkObj_true {m : Mem} {filled : Nat} {known : Nat → Bool}
    (h : checkObj m d filled n v known = some true) : filled = n ∧ Checked m d n v := by
  unfold checkObj at h
  obtain ⟨hfilled, h⟩ := of_guard h nofun
  obtain ⟨hstart, h⟩ := of_guard h nofun
  simp only [ne_eq, not_not] at hfilled
  simp only [Option.some.injEq, Bool.and_eq_true, decide_eq_true_eq, all_eq_true,
    mem_range, checkEndpoint] at h
  obtain ⟨⟨⟨⟨⟨⟨⟨heps, hbehind⟩, haligned⟩, hin⟩, hroom⟩, hcount⟩, hsize⟩, -⟩ := h
  simp only [Bool.not_eq_false, validateMtdStart, Bool.and_eq_true, decide_eq_true_eq] at hstart
  obtain ⟨⟨⟨-, hpos⟩, hformat⟩, -⟩ := hstart
  refine ⟨hfilled, Nat.pos_of_ne_zero hpos, ?_, ?_, fun i hi => (heps i hi).1.2.symm, ?_, hbehind,
    haligned, by omega⟩
  · unfold emadBase
    split
    · rfl
    · rename_i hv
      simp only [hv, decide_false, Bool.false_or, Bool.and_eq_true, decide_eq_true_eq] at hformat
      exact hformat.1.1.2
  · unfold emadStep
    split
    · exact le_rfl
    · rename_i hv
      simp only [hv, decide_false, Bool.false_or, Bool.and_eq_true, decide_eq_true_eq] at hformat
      exact hformat.1.2
  · intro i j hij hj
    refine (heps i (by omega)).2 j ?_
    rw [mem_iff_getElem?]
    exact ⟨j - (i + 1), by rw [getElem?_drop, getElem?_range (by omega)]; congr 1; omega⟩

section Congr

variable {m : Mem}

theorem rd_congr_at (h : ∀ i < n, m (d + i) = m' (d' + i)) (hx : x + len ≤ n) :
    rd m (d + x) len = rd m' (d' + x) len :=
  rd_congr fun i hi => by simpa [add_assoc] using h (x + i) (by omega)

section

variable (h : ∀ i, 16 ≤ i → i < n → m (d + i) = m' (d' + i))
include h

theorem rd_congr_from (hlow : 16 ≤ x) (hx : x + len ≤ n) : rd m (d + x) len = rd m' (d' + x) len :=
  rd_congr fun i hi => by simpa [add_assoc] using h (x + i) (by omega) (by omega)

theorem emadBase_congr (hn : v ≠ v10 → 48 ≤ n) : emadBase m d v = emadBase m' d' v := by
  unfold emadBase
  split
  · rfl
  · exact rd_congr_from h (by omega) (by omega)

theorem emadStep_congr (hn : v ≠ v10 → 48 ≤ n) : emadStep m d v = emadStep m' d' v := by
  unfold emadStep
  split
  · rfl
  · exact rd_congr_from h (by omega) (by omega)

end

theorem ranges_congr {c c' : Nat}
    (h : ∀ i < 16 + 16 * addressRangeCount m c, m (c + i) = m' (c' + i)) :
    addressRangeCount m' c' = addressRangeCount m c ∧ ranges m' c' = ranges m c := by
  have hcount : addressRangeCount m c = addressRangeCount m' c' := rd_congr_at h (by omega)
  refine ⟨hcount.symm, ?_⟩
  unfold ranges
  rw [← hcount]
  apply map_congr_left
  intro i hi
  rw [mem_range] at hi
  have haddress : rd m (c + (16 + 16 * i)) 8 = rd m' (c' + (16 + 16 * i)) 8 :=
    rd_congr_at h (by omega)
  have hpages : rd m (c + (16 + 16 * i + 8)) 4 = rd m' (c' + (16 + 16 * i + 8)) 4 :=
    rd_congr_at h (by omega)
  simp only [rangeAt, add_assoc] at haddress hpages ⊢
  rw [haddress, hpages]

theorem compOffset_of_ne {w : Nat} (hv : v ≠ v10) (hw : w ≠ v10) :
    compOffset m d v = compOffset m d w := by
  simp [compOffset, getEmad, emadBase, emadStep, hv, hw]

end Congr

namespace Checked

variable {m : Mem}

section

variable (h : Checked m d n v)
include h

theorem le_base : 32 ≤ emadBase m d v := by
  have := h.base
  split at this <;> omega

theorem getEmad_le {i : Nat} (hi : i < emadCount m d) :
    emadBase m d v + emadStep m d v * i + 16 ≤ compOffset m d v := by
  have hstep := h.step
  have hbehind := h.behind
  have : emadStep m d v * (i + 1) ≤ emadStep m d v * emadCount m d := Nat.mul_le_mul_left _ hi
  rw [mul_add, mul_one] at this
  omega

theorem getCompMrd : getCompMrd m d v = some (d + compOffset m d v) := by
  have := h.aligned
  rw [Spmc.getCompMrd, if_pos (by omega)]

theorem congr (hsame : ∀ i, 16 ≤ i → i < n → m (d + i) = m' (d' + i)) :
    Checked m' d' n v ∧ compOffset m' d' v = compOffset m d v ∧
      ranges m' (d' + compOffset m d v) = ranges m (d + compOffset m d v) := by
  have hfirst := h.getEmad_le h.count
  have hlow := h.le_base
  have hbase' := h.base
  have hsize := h.size
  have hcount : emadCount m d = emadCount m' d' := rd_congr_from hsame (by omega) (by omega)
  have h48 : v ≠ v10 → 48 ≤ n := fun hv => by rw [if_neg hv] at hbase'; omega
  have hbase := emadBase_congr (v := v) hsame h48
  have hstep := emadStep_congr (v := v) hsame h48
  have hemad : ∀ i x len, i < emadCount m d → x + len ≤ 16 →
      rd m' (getEmad m' d' i v + x) len = rd m (getEmad m d i v + x) len := by
    intro i x len hi hx
    have := h.getEmad_le hi
    unfold getEmad
    rw [← hbase, ← hstep, show d' + emadBase m d v + emadStep m d v * i + x =
      d' + (emadBase m d v + emadStep m d v * i + x) by omega,
      ← rd_congr_from hsame (by omega) (by omega)]
    congr 1
    omega
  have hcomp : compOffset m' d' v = compOffset m d v := hemad 0 4 4 h.count (by omega)
  have hmrd : ∀ i, i < 16 + 16 * addressRangeCount m (d + compOffset m d v) →
      m (d + compOffset m d v + i) = m' (d' + compOffset m d v + i) := fun i hi => by
    simpa [add_assoc] using hsame (compOffset m d v + i) (by omega) (by omega)
  obtain ⟨hranges, hlist⟩ := ranges_congr hmrd
  refine ⟨⟨hcount ▸ h.count, hbase ▸ h.base, hstep ▸ h.step, ?_, ?_, ?_, hcomp ▸ h.aligned, ?_⟩,
    hcomp, hlist⟩
  · intro i hi
    rw [← hcount] at hi
    rw [hcomp, ← h.comp i hi]
    exact hemad i 4 4 hi (by omega)
  · intro i j hij hj
    rw [← hcount] at hj
    have hi := hemad i 0 2 (by omega) (by omega)
    have hj' := hemad j 0 2 hj (by omega)
    unfold endpointId
    rw [add_zero, add_zero] at hi hj'
    rw [hi, hj']
    exact h.distinct i j hij hj
  · rw [← hbase, ← hstep, ← hcount, hcomp]
    exact h.behind
  · rw [hcomp, hranges]
    exact hsize

theorem of_ne (hv : v ≠ v10) : Checked m d n v11 := by
  have h11 : v11 ≠ v10 := by decide
  have hbase : emadBase m d v = emadBase m d v11 := by simp [emadBase, hv, h11]
  have hstep : emadStep m d v = emadStep m d v11 := by simp [emadStep, hv, h11]
  have hemad : ∀ i, getEmad m d i v = getEmad m d i v11 := fun i => by
    rw [getEmad, getEmad, hbase, hstep]
  have hcomp : compOffset m d v = compOffset m d v11 := compOffset_of_ne hv h11
  have hbase' := h.base
  rw [if_neg hv] at hbase'
  refine ⟨h.count, hbase ▸ hbase', hstep ▸ h.step, ?_, ?_, ?_, hcomp ▸ h.aligned, hcomp ▸ h.size⟩
  · intro i hi
    rw [← hemad, ← hcomp]
    exact h.comp i hi
  · intro i j hij hj
    rw [← hemad, ← hemad]
    exact h.distinct i j hij hj
  · rw [← hbase, ← hstep, ← hcomp]
    exact h.behind

end

end Checked

end MtkBoot.Spmc
