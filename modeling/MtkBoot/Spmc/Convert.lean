import MtkBoot.Spmc.Store
import Mathlib.Data.List.TakeWhile

/-! The conversions between the two descriptor formats.  On the way back the record of an endpoint
is taken from `16 * emad_size` bytes behind the record before. -/

namespace MtkBoot.Spmc

open Lib List Nat

variable {d len n o orig out p src stride v : Nat} {m m' : Mem}

variable {x i : Nat}

def wr (m : Mem) (p len v : Nat) : Mem := putBytes m p (leBytes len v)

theorem wr_outside (h : x < p ∨ p + len ≤ x) : wr m p len v x = m x :=
  putBytes_outside (by simpa using h)

theorem bytesAt_wr (m : Mem) (p len v : Nat) : bytesAt (wr m p len v) p len = leBytes len v := by
  have h := bytesAt_putBytes m p (leBytes len v)
  rwa [length_leBytes] at h

theorem bytesAt_wr_outside (h : o + n ≤ p ∨ p + len ≤ o) :
    bytesAt (wr m p len v) o n = bytesAt m o n := bytesAt_putBytes_outside (by simpa using h)

def v11DescriptorSize (m : Mem) (d : Nat) : Nat :=
  48 + emadCount m d * 16 + 16 + addressRangeCount m (d + compOffset m d v10) * 16

def v10DescriptorSize (m : Mem) (d size : Nat) : Nat :=
  let mrd := d + compOffset m d v11
  if d + size < mrd + 16 then 0
  else 32 + emadCount m d * 16 + 16 + addressRangeCount m mrd * 16

/-- The first `n` records of endpoints are copied to `dst`; the source has them `stride` bytes
apart. -/
def copyEmads (m : Mem) (dst src stride : Nat) : Nat → Nat → UInt8
  | 0 => m
  | i + 1 => copyBytes (copyEmads m dst src stride i) (dst + 16 * i) (src + stride * i) 16

/-- The offsets in the first `n` records become those of the source plus `delta`. -/
def shiftOffsets (m : Mem) (dst src stride delta : Nat) : Nat → Nat → UInt8
  | 0 => m
  | i + 1 =>
    let m' := shiftOffsets m dst src stride delta i
    wr m' (dst + 16 * i + 4) 4 (compMrdOffset m' (src + stride * i) + delta)

def fromV10Header (m : Mem) (out d : Nat) : Mem :=
  let m := copyBytes m out d 2
  let m := wr m (out + 2) 2 (rd m (d + 2) 1)
  let m := copyBytes m (out + 4) (d + 4) 4
  let m := copyBytes m (out + 8) (d + 8) 8
  let m := copyBytes m (out + 16) (d + 16) 8
  let m := copyBytes m (out + 28) (d + 28) 4
  let m := wr m (out + 24) 4 16
  wr m (out + 32) 4 48

/-- `spmc_shm_convert_shmem_obj_from_v1_0`.  The check in its first loop is about the first record
each time round. -/
def convertFromV10 (m : Mem) (out orig : Nat) : Mem × Bool :=
  let o := out + 32
  let d := orig + 32
  let m := fromV10Header m o d
  let count := emadCount m o
  if 0 < count ∧ descSize m orig < 48 then (m, false)
  else
    let m := copyEmads m (o + 48) (d + 32) 16 count
    let inOffset := compMrdOffset m (d + 32)
    let outOffset := u32 (48 + 16 * count)
    let size := 16 + 16 * addressRangeCount m (d + inOffset)
    let m := shiftOffsets m (o + 48) (d + 32) 16 (subU64 outOffset inOffset) count
    if descSize m orig < inOffset + size ∨ descSize m out < outOffset + size then (m, false)
    else (copyBytes m (o + outOffset) (d + inOffset) size, true)

def toV10Header (m : Mem) (out d : Nat) : Mem :=
  let m := copyBytes m out d 2
  let m := wr m (out + 2) 1 (attributes m d)
  let m := copyBytes m (out + 4) (d + 4) 4
  let m := copyBytes m (out + 8) (d + 8) 8
  let m := copyBytes m (out + 16) (d + 16) 8
  copyBytes m (out + 28) (d + 28) 4

/-- How many records the first loop of `spmc_shm_convert_mtd_to_v1_0` copies before it meets one
that ends behind `limit`. -/
def emadsCopied (src stride limit n : Nat) : Nat :=
  ((List.range n).takeWhile fun i => src + stride * i + 16 ≤ limit).length

/-- `spmc_shm_convert_mtd_to_v1_0`.  `emad_in += mtd_orig->emad_size` moves a pointer to records of
16 bytes. -/
def convertMtdToV10 (m : Mem) (out orig : Nat) : Mem × Bool :=
  let o := out + 32
  let d := orig + 32
  let m := toV10Header m o d
  let count := emadCount m o
  let src := d + emadOffset m d
  let stride := 16 * emadSize m d
  let limit := d + descSize m orig
  let copied := emadsCopied src stride limit count
  let m := copyEmads m (o + 32) src stride copied
  if copied < count then (m, false)
  else
    let outOffset := 32 + 16 * count
    let inOffset := u32 (emadOffset m d + emadSize m d * emadCount m d)
    let size := 16 + 16 * addressRangeCount m (d + inOffset)
    let m := shiftOffsets m (o + 32) src stride (subU64 outOffset inOffset) count
    if descSize m orig < inOffset + size ∨ descSize m out < outOffset + size then (m, false)
    else (copyBytes m (o + outOffset) (d + inOffset) size, true)

section Loops

variable {dst delta : Nat}

theorem copyEmads_outside (h : x < dst ∨ dst + 16 * n ≤ x) :
    copyEmads m dst src stride n x = m x := by
  induction n with
  | zero => rfl
  | succ n ih => rw [copyEmads, copyBytes_outside (by omega), ih (by omega)]

theorem bytesAt_copyEmads (hsrc : ∀ i < n, src + stride * i + 16 ≤ dst) (hi : i < n) :
    bytesAt (copyEmads m dst src stride n) (dst + 16 * i) 16 = bytesAt m (src + stride * i) 16 := by
  induction n with
  | zero => omega
  | succ n ih =>
    rw [copyEmads]
    by_cases hlast : i = n
    · subst hlast
      have := hsrc i (by omega)
      rw [bytesAt_copyBytes]
      exact bytesAt_congr fun x _ => copyEmads_outside (by omega)
    · rw [bytesAt_copyBytes_outside (by omega)]
      exact ih (fun j hj => hsrc j (by omega)) (by omega)

theorem shiftOffsets_outside (h : ∀ i < n, x < dst + 16 * i + 4 ∨ dst + 16 * i + 8 ≤ x) :
    shiftOffsets m dst src stride delta n x = m x := by
  induction n with
  | zero => rfl
  | succ n ih =>
    have := h n (by omega)
    rw [shiftOffsets, wr_outside (by omega), ih fun i hi => h i (by omega)]

theorem bytesAt_shiftOffsets (hsrc : ∀ i < n, src + stride * i + 16 ≤ dst) (hi : i < n) :
    bytesAt (shiftOffsets m dst src stride delta n) (dst + 16 * i + 4) 4 =
      leBytes 4 (compMrdOffset m (src + stride * i) + delta) := by
  induction n with
  | zero => omega
  | succ n ih =>
    rw [shiftOffsets]
    by_cases hlast : i = n
    · subst hlast
      have hle := hsrc i (by omega)
      rw [bytesAt_wr]
      congr 2
      exact rd_congr fun x hx => shiftOffsets_outside fun j _ => by omega
    · rw [bytesAt_wr_outside (by omega)]
      exact ih (fun j hj => hsrc j (by omega)) (by omega)

/-- What both conversions do behind the header: the records come to `dst` with their offsets shifted
by `delta`, and the `size` bytes at `mrd` behind them. -/
def moveParts (m : Mem) (dst src stride delta n mrd size : Nat) : Mem :=
  copyBytes (shiftOffsets (copyEmads m dst src stride n) dst src stride delta n) (dst + 16 * n)
    mrd size

variable {m₁ : Mem} {mrd size low : Nat}

theorem moveParts_outside (h : x < dst ∨ dst + 16 * n + size ≤ x) :
    moveParts m dst src stride delta n mrd size x = m x := by
  rw [moveParts, copyBytes_outside (by omega),
    shiftOffsets_outside fun i _ => by omega, copyEmads_outside (by omega)]

/-- All that is copied lies below `low`, where nothing has been written. -/
theorem moveParts_parts (hm : moveParts m₁ dst src stride delta n mrd size = m')
    (hlow : ∀ x < low, m₁ x = m x)
    (hdst : low ≤ dst) (hsrc : ∀ i < n, src + stride * i + 16 ≤ low) (hmrd : mrd + size ≤ low) :
    (∀ i < n, bytesAt m' (dst + 16 * i) 4 = bytesAt m (src + stride * i) 4 ∧
      bytesAt m' (dst + 16 * i + 4) 4 = leBytes 4 (compMrdOffset m (src + stride * i) + delta) ∧
      bytesAt m' (dst + 16 * i + 8) 8 = bytesAt m (src + stride * i + 8) 8) ∧
    bytesAt m' (dst + 16 * n) size = bytesAt m mrd size := by
  have hbefore : ∀ i < n, src + stride * i + 16 ≤ dst := fun i hi => le_trans (hsrc i hi) hdst
  have hbelow : ∀ x < low, copyEmads m₁ dst src stride n x = m x := fun x hx => by
    rw [copyEmads_outside (by omega), hlow x hx]
  subst hm
  refine ⟨fun i hi => ?_, ?_⟩
  · have hle := hsrc i hi
    -- a record up to its offset field, and behind it
    have hrecord : ∀ x, x < 4 ∨ 8 ≤ x ∧ x < 16 →
        moveParts m₁ dst src stride delta n mrd size (dst + 16 * i + x) =
        m (src + stride * i + x) := fun x hx => by
      rw [moveParts, copyBytes_outside (by omega), shiftOffsets_outside fun j _ => by omega,
        bytesAt_apply (bytesAt_copyEmads hbefore hi) (by omega : x < 16), hlow _ (by omega)]
    refine ⟨bytesAt_congr fun x hx => hrecord x (.inl hx), ?_,
      bytesAt_congr fun x hx => by simpa [add_assoc] using hrecord (8 + x) (by omega)⟩
    have hoffset : compMrdOffset (copyEmads m₁ dst src stride n) (src + stride * i) =
        compMrdOffset m (src + stride * i) := rd_congr fun x hx => hbelow _ (by omega)
    rw [moveParts, bytesAt_copyBytes_outside (by omega), bytesAt_shiftOffsets hbefore hi, hoffset]
  · rw [moveParts, bytesAt_copyBytes]
    exact bytesAt_congr fun x
      hx => by rw [shiftOffsets_outside fun j _ => by omega, hbelow _ (by omega)]

end Loops

theorem fromV10Header_outside (h : x < o ∨ o + 36 ≤ x) : fromV10Header m o d x = m x := by
  simp (disch := omega) only [fromV10Header, wr_outside, copyBytes_outside]

theorem fromV10Header_fields (h : d + 32 ≤ o) : bytesAt (fromV10Header m o d) o 2 = bytesAt m d 2 ∧
    bytesAt (fromV10Header m o d) (o + 2) 2 = leBytes 2 (rd m (d + 2) 1) ∧
    bytesAt (fromV10Header m o d) (o + 4) 20 = bytesAt m (d + 4) 20 ∧
    bytesAt (fromV10Header m o d) (o + 24) 4 = leBytes 4 16 ∧
    bytesAt (fromV10Header m o d) (o + 28) 4 = bytesAt m (d + 28) 4 ∧
    bytesAt (fromV10Header m o d) (o + 32) 4 = leBytes 4 48 := by
  have hbody : bytesAt (fromV10Header m o d) (o + 4) 20 = bytesAt m (d + 4) 20 := by
    rw [show (20 : Nat) = 4 + (8 + 8) from rfl, bytesAt_add, bytesAt_add, bytesAt_add m,
      bytesAt_add m]
    simp (disch := omega) only [fromV10Header, bytesAt_wr_outside, bytesAt_copyBytes_outside,
      bytesAt_copyBytes, Nat.add_assoc]
  refine ⟨?_, ?_, hbody, ?_, ?_, ?_⟩ <;> simp (disch := omega) only [fromV10Header,
    bytesAt_wr_outside, bytesAt_copyBytes_outside, bytesAt_copyBytes, bytesAt_wr, rd]

/-- Where the parts of the v1.0 descriptor at `d` are found in the v1.1 descriptor at `o`. -/
structure FromV10 (m : Mem) (d : Nat) (m' : Mem) (o : Nat) : Prop where
  sender : bytesAt m' o 2 = bytesAt m d 2
  attributes : bytesAt m' (o + 2) 2 = leBytes 2 (rd m (d + 2) 1)
  body : bytesAt m' (o + 4) 20 = bytesAt m (d + 4) 20
  size : bytesAt m' (o + 24) 4 = leBytes 4 16
  count : bytesAt m' (o + 28) 4 = bytesAt m (d + 28) 4
  offset : bytesAt m' (o + 32) 4 = leBytes 4 48
  rest : bytesAt m' (o + 36) 12 = bytesAt m (o + 36) 12
  endpoint : ∀ i, i < emadCount m d → bytesAt m' (o + 48 + 16 * i) 4 = bytesAt m (d + 32 + 16 * i) 4
  comp : ∀ i, i < emadCount m d →
    bytesAt m' (o + 48 + 16 * i + 4) 4 = leBytes 4 (48 + 16 * emadCount m d)
  reserved :
    ∀ i, i < emadCount m d → bytesAt m' (o + 48 + 16 * i + 8) 8 = bytesAt m (d + 32 + 16 * i + 8) 8
  mrd : bytesAt m' (o + 48 + 16 * emadCount m d)
      (16 + 16 * addressRangeCount m (d + compOffset m d v10)) =
    bytesAt m (d + compOffset m d v10) (16 + 16 * addressRangeCount m (d + compOffset m d v10))

theorem leBytes_shift (a b : Nat) : leBytes 4 (b + subU64 a b) = leBytes 4 a := by
  have hmod : ∀ x y, x % 2 ^ 32 = y % 2 ^ 32 → leBytes 4 x = leBytes 4 y := by
    intro x y hxy
    have hx := leBytes_mod 4 x
    have hy := leBytes_mod 4 y
    rw [← hx, ← hy]
    exact congrArg _ hxy
  apply hmod
  unfold subU64
  omega

theorem convertFromV10_spec (hsize : descSize m orig = n) (hchecked : Checked m (orig + 32) n v10)
    (hlayout : orig + 32 + n ≤ out) (hroom : v11DescriptorSize m (orig + 32) ≤ descSize m out)
    (hsmall : v11DescriptorSize m (orig + 32) < 2 ^ 32) : (convertFromV10 m out orig).2 ∧
      FromV10 m (orig + 32) (convertFromV10 m out orig).1 (out + 32) ∧ ∀ x, x < out + 32 ∨
      out + 32 + v11DescriptorSize m (orig + 32) ≤ x → (convertFromV10 m out orig).1 x = m x := by
  set d := orig + 32 with hd
  set o := out + 32 with ho
  set count := emadCount m d
  set comp := compOffset m d v10
  set k := addressRangeCount m (d + comp)
  have hbehind : 32 + 16 * count ≤ comp := hchecked.behind
  have hend : comp + 16 + 16 * k = n := hchecked.size
  have hv11 : v11DescriptorSize m d = 48 + count * 16 + 16 + k * 16 := rfl
  rw [hv11] at hroom hsmall
  set m1 := fromV10Header m o d with hm1
  have hlow1 : ∀ x < o, m1 x = m x := fun x hx => fromV10Header_outside (.inl hx)
  obtain ⟨hsender, hattr, hbody, hsize1, hcount1, hoffset⟩ :=
    fromV10Header_fields (m := m) (show d + 32 ≤ o by omega)
  have hcount' : emadCount m1 o = count := by rw [emadCount, rd, hcount1]; rfl
  -- Nothing is written where the code reads.
  have hread2 :
      ∀ x len, x + len ≤ o → rd (copyEmads m1 (o + 48) (d + 32) 16 count) x len = rd m x len :=
    fun x len hx => rd_congr fun i hi => by rw [copyEmads_outside (by omega), hlow1 _ (by omega)]
  have hread3 : ∀ x delta, x + 8 ≤ o →
      rd (shiftOffsets (copyEmads m1 (o + 48) (d + 32) 16 count) (o + 48) (d + 32) 16
      delta count) x 8 = rd m x 8 := fun x delta hx => by
    rw [← hread2 x 8 hx]
    exact rd_congr fun i hi => shiftOffsets_outside fun j _ => by omega
  have hsize' : descSize m1 orig = n := by
    rw [← hsize]
    exact rd_congr fun i hi => hlow1 _ (by omega)
  have hresult : convertFromV10 m out orig =
      (moveParts m1 (o + 48) (d + 32) 16 (subU64 (48 + 16 * count) comp) count
      (d + comp) (16 + 16 * k), true) := by
    have hcomp2 : compMrdOffset (copyEmads m1 (o + 48) (d + 32) 16 count) (d + 32) = comp :=
      hread2 _ _ (by omega)
    have hk2 : addressRangeCount (copyEmads m1 (o + 48) (d + 32) 16 count) (d + comp) = k :=
      hread2 _ _ (by omega)
    unfold convertFromV10
    simp only [← hd, ← ho, ← hm1, hcount', hsize', hcomp2, hk2]
    rw [if_neg (by omega), u32_of_lt (by omega), if_neg]
    · rw [moveParts, add_assoc o]
    rw [descSize, descSize, hread3 _ _ (by omega), hread3 _ _ (by omega)]
    show ¬(descSize m orig < _ ∨ descSize m out < _)
    omega
  rw [hresult]
  generalize hm4 : moveParts m1 (o + 48) (d + 32) 16 _ count _ _ = m4
  have hheader : ∀ x len, x + len ≤ 48 → bytesAt m4 (o + x) len = bytesAt m1 (o + x) len :=
    fun x len hx =>
    bytesAt_congr fun i hi => hm4 ▸ moveParts_outside (by omega)
  obtain ⟨hrecords, hmrd⟩ := moveParts_parts hm4 hlow1 (by omega) (fun i hi => by omega) (by omega)
  refine ⟨rfl, ⟨(hheader 0 2 (by omega)).trans hsender, (hheader 2 2 (by omega)).trans hattr,
    (hheader 4 20 (by omega)).trans hbody, (hheader 24 4 (by omega)).trans hsize1,
    (hheader 28 4 (by omega)).trans hcount1, (hheader 32 4 (by omega)).trans hoffset, ?_,
    fun i hi => (hrecords i hi).1, fun i hi => ?_, fun i hi => (hrecords i hi).2.2, hmrd⟩, ?_⟩
  · exact (hheader 36 12 (by omega)).trans
      (bytesAt_congr fun i _ => fromV10Header_outside (.inr (by omega)))
  · have hoff : compMrdOffset m (d + 32 + 16 * i) = comp := hchecked.comp i hi
    rw [(hrecords i hi).2.1, hoff, leBytes_shift]
  · intro x hx
    dsimp only
    rw [← hm4, moveParts_outside (by omega), hm1, fromV10Header_outside (by omega)]

namespace FromV10

section

variable (h : FromV10 m d m' o)
include h

theorem emadCount_eq : emadCount m' o = emadCount m d := by
  rw [emadCount, rd, h.count, emadCount, rd]

theorem emadOffset_eq : emadOffset m' o = 48 := by
  rw [emadOffset, rd, h.offset]
  decide

theorem emadSize_eq : emadSize m' o = 16 := by
  rw [emadSize, rd, h.size]
  decide

theorem getEmad_eq (i : Nat) : getEmad m' o i v11 = o + 48 + 16 * i := by
  have h11 : v11 ≠ v10 := by decide
  rw [getEmad, emadBase, emadStep, if_neg h11, if_neg h11, h.emadOffset_eq, h.emadSize_eq]

theorem compMrdOffset_eq (hsmall : 48 + 16 * emadCount m d < 2 ^ 32) (hi : i < emadCount m d) :
    compMrdOffset m' (getEmad m' o i v11) = 48 + 16 * emadCount m d := by
  rw [h.getEmad_eq, compMrdOffset, rd, h.comp i hi, leNat_leBytes]
  exact mod_eq_of_lt hsmall

theorem endpointId_eq (hi : i < emadCount m d) :
    endpointId m' (getEmad m' o i v11) = endpointId m (getEmad m d i v10) := by
  rw [h.getEmad_eq]
  exact rd_congr fun x hx => bytesAt_apply (h.endpoint i hi) (by omega)

theorem handle_eq : handle m' o = handle m d := rd_congr fun x hx => by
    have hbyte := bytesAt_apply h.body (show 4 + x < 20 by omega)
    rwa [← add_assoc, ← add_assoc] at hbyte

theorem ranges_eq : addressRangeCount m' (o + (48 + 16 * emadCount m d)) =
      addressRangeCount m (d + compOffset m d v10) ∧
    ranges m' (o + (48 + 16 * emadCount m d)) = ranges m (d + compOffset m d v10) :=
  ranges_congr fun _ hi => by
    rw [← add_assoc o]
    exact (bytesAt_apply h.mrd hi).symm

theorem checked (hc : Checked m d n v10)
    (hsmall : v11DescriptorSize m d < 2 ^ 32) : Checked m' o (v11DescriptorSize m d) v11 := by
  have h11 : v11 ≠ v10 := by decide
  have hcount48 : 48 + 16 * emadCount m d < 2 ^ 32 := by
    unfold v11DescriptorSize at hsmall
    omega
  have hoff := h.compMrdOffset_eq hcount48 hc.count
  have hcomp : compOffset m' o v11 = 48 + 16 * emadCount m d := hoff
  have hcount := h.emadCount_eq
  refine ⟨hcount ▸ hc.count, ?_, ?_, ?_, ?_, ?_, ?_, ?_⟩
  · rw [if_neg h11, emadBase, if_neg h11, h.emadOffset_eq]
  · rw [emadStep, if_neg h11, h.emadSize_eq]
  · intro i hi
    rw [hcount] at hi
    rw [h.compMrdOffset_eq hcount48 hi, hcomp]
  · intro i j hij hj
    rw [hcount] at hj
    rw [h.endpointId_eq (by omega), h.endpointId_eq hj]
    exact hc.distinct i j hij hj
  · rw [emadBase, emadStep, if_neg h11, if_neg h11, h.emadOffset_eq, h.emadSize_eq, hcount, hcomp]
  · rw [hcomp]
    omega
  · rw [hcomp, h.ranges_eq.1, v11DescriptorSize]
    omega

end

end FromV10

theorem toV10Header_outside (h : x < o ∨ o + 32 ≤ x) : toV10Header m o d x = m x := by
  simp (disch := omega) only [toV10Header, wr_outside, copyBytes_outside]

theorem toV10Header_fields (h : d + 32 ≤ o) : bytesAt (toV10Header m o d) o 2 = bytesAt m d 2 ∧
    bytesAt (toV10Header m o d) (o + 2) 1 = leBytes 1 (attributes m d) ∧
    bytesAt (toV10Header m o d) (o + 3) 1 = bytesAt m (o + 3) 1 ∧
    bytesAt (toV10Header m o d) (o + 4) 20 = bytesAt m (d + 4) 20 ∧
    bytesAt (toV10Header m o d) (o + 24) 4 = bytesAt m (o + 24) 4 ∧
    bytesAt (toV10Header m o d) (o + 28) 4 = bytesAt m (d + 28) 4 := by
  have hbody : bytesAt (toV10Header m o d) (o + 4) 20 = bytesAt m (d + 4) 20 := by
    rw [show (20 : Nat) = 4 + (8 + 8) from rfl, bytesAt_add, bytesAt_add, bytesAt_add m,
      bytesAt_add m]
    simp (disch := omega) only [toV10Header, bytesAt_wr_outside, bytesAt_copyBytes_outside,
      bytesAt_copyBytes, Nat.add_assoc]
  refine ⟨?_, ?_, ?_, hbody, ?_, ?_⟩ <;> simp (disch := omega) only [toV10Header,
    bytesAt_wr_outside, bytesAt_copyBytes_outside, bytesAt_copyBytes, bytesAt_wr, attributes, rd]

theorem emadsCopied_le (src stride limit n : Nat) : emadsCopied src stride limit n ≤ n := by
  have h :=
    (takeWhile_sublist (l := range n) fun i => decide (src + stride * i + 16 ≤ limit)).length_le
  rwa [length_range] at h

theorem emadsCopied_eq {limit : Nat} :
    emadsCopied src stride limit n = n ↔ ∀ i < n, src + stride * i + 16 ≤ limit := by
  have hself :
      ∀ l : List Nat, (l.takeWhile fun i => decide (src + stride * i + 16 ≤ limit)).length =
      l.length ↔ ∀ i ∈ l, src + stride * i + 16 ≤ limit := by
    intro l
    constructor
    · intro h
      have := (takeWhile_sublist _).eq_of_length h
      simpa using takeWhile_eq_self_iff.mp this
    · intro h
      rw [takeWhile_eq_self_iff.mpr (by simpa using h)]
  simpa [emadsCopied] using hself (range n)

/-- Where the parts of the v1.1 descriptor at `d` are found in the v1.0 descriptor at `o`. -/
structure ToV10 (m : Mem) (d : Nat) (m' : Mem) (o : Nat) : Prop where
  sender : bytesAt m' o 2 = bytesAt m d 2
  attributes : bytesAt m' (o + 2) 1 = leBytes 1 (attributes m d)
  rest : bytesAt m' (o + 3) 1 = bytesAt m (o + 3) 1
  body : bytesAt m' (o + 4) 20 = bytesAt m (d + 4) 20
  rest' : bytesAt m' (o + 24) 4 = bytesAt m (o + 24) 4
  count : bytesAt m' (o + 28) 4 = bytesAt m (d + 28) 4
  endpoint : ∀ i, i < emadCount m d → bytesAt m' (o + 32 + 16 * i) 4 =
    bytesAt m (d + emadOffset m d + 16 * emadSize m d * i) 4
  comp : ∀ i, i < emadCount m d → bytesAt m' (o + 32 + 16 * i + 4) 4 =
    leBytes 4 (compMrdOffset m (d + emadOffset m d + 16 * emadSize m d * i) +
      subU64 (32 + 16 * emadCount m d) (emadOffset m d + emadSize m d * emadCount m d))
  reserved : ∀ i, i < emadCount m d → bytesAt m' (o + 32 + 16 * i + 8) 8 =
    bytesAt m (d + emadOffset m d + 16 * emadSize m d * i + 8) 8
  mrd : bytesAt m' (o + (32 + 16 * emadCount m d)) (16 + 16 * addressRangeCount m
      (d + (emadOffset m d + emadSize m d * emadCount m d))) =
    bytesAt m (d + (emadOffset m d + emadSize m d * emadCount m d)) (16 + 16 * addressRangeCount m
      (d + (emadOffset m d + emadSize m d * emadCount m d)))

/-- The conversion finds all it copies inside the `n` bytes of the original, and it fits into the
`room` bytes of the result. -/
def FitsV10 (m : Mem) (d n room : Nat) : Prop :=
  let inOffset := emadOffset m d + emadSize m d * emadCount m d
  let size := 16 + 16 * addressRangeCount m (d + inOffset)
  (∀ i, i < emadCount m d → emadOffset m d + 16 * emadSize m d * i + 16 ≤ n) ∧
    inOffset + size ≤ n ∧ 32 + 16 * emadCount m d + size ≤ room

/-- Whatever the descriptor is, only the new object changes. -/
theorem convertMtdToV10_frame (hlayout : orig + 64 ≤ out)
    (hroom : 32 + 16 * emadCount m (orig + 32) ≤ descSize m out)
    (hx : x < out + 32 ∨ out + 32 + descSize m out ≤ x) :
    (convertMtdToV10 m out orig).1 x = m x := by
  have hcount :
      emadCount (toV10Header m (out + 32) (orig + 32)) (out + 32) = emadCount m (orig + 32) := by
    rw [emadCount, rd, (toV10Header_fields (by omega)).2.2.2.2.2, emadCount, rd]
  unfold convertMtdToV10
  simp only [hcount]
  generalize hm1 : toV10Header m (out + 32) (orig + 32) = m1
  have h1 : ∀ x, x < out + 32 ∨ out + 64 ≤ x → m1 x = m x := fun x hx =>
    hm1 ▸ toV10Header_outside (by omega)
  generalize orig + 32 + emadOffset m1 (orig + 32) = src
  generalize hcopied : emadsCopied src _ _ _ = copied
  have hle := hcopied ▸ emadsCopied_le _ _ _ _
  generalize hm2 : copyEmads m1 _ src _ copied = m2
  have h2 : ∀ x, x < out + 32 ∨ out + 64 + 16 * copied ≤ x → m2 x = m x := fun x hx => by
    rw [← hm2, copyEmads_outside (by omega), h1 x (by omega)]
  split
  · exact h2 x (by omega)
  generalize hm3 : shiftOffsets m2 _ src _ _ _ = m3
  have h3 : ∀ x, x < out + 32 ∨ out + 64 + 16 * emadCount m (orig + 32) ≤ x → m3 x = m x :=
    fun x hx => by
    rw [← hm3, shiftOffsets_outside fun i _ => by omega, h2 x (by omega)]
  split
  · exact h3 x (by omega)
  · rename_i hfits
    have hsize : descSize m3 out = descSize m out := rd_congr fun i hi => h3 _ (by omega)
    rw [hsize] at hfits
    dsimp only
    rw [copyBytes_outside (by omega), h3 x (by omega)]

theorem convertMtdToV10_spec (hsize : descSize m orig = n)
    (h48 : 48 ≤ n) (hlayout : orig + 32 + n ≤ out)
    (hsmall : emadOffset m (orig + 32) + emadSize m (orig + 32) * emadCount m (orig + 32) <
      2 ^ 32) : ((convertMtdToV10 m out orig).2 ↔ FitsV10 m (orig + 32) n (descSize m out)) ∧
      ((convertMtdToV10 m out orig).2 →
        ToV10 m (orig + 32) (convertMtdToV10 m out orig).1 (out + 32)) := by
  set d := orig + 32 with hd
  set o := out + 32 with ho
  obtain ⟨hsender, hattr, hrest, hbody, hrest', hcount1⟩ :=
    toV10Header_fields (m := m) (show d + 32 ≤ o by omega)
  set count := emadCount m d
  set inOffset := emadOffset m d + emadSize m d * count
  set k := addressRangeCount m (d + inOffset)
  set src := d + emadOffset m d with hsrc
  set stride := 16 * emadSize m d with hstride
  -- What the code reads before it writes is what was there.
  set m1 := toV10Header m o d with hm1
  have hlow1 : ∀ x < o, m1 x = m x := fun x hx => toV10Header_outside (.inl hx)
  have hcount' : emadCount m1 o = count := by rw [emadCount, rd, hcount1]; rfl
  have hoffset1 : emadOffset m1 d = emadOffset m d := rd_congr fun i hi => hlow1 _ (by omega)
  have hsize1 : emadSize m1 d = emadSize m d := rd_congr fun i hi => hlow1 _ (by omega)
  have hdesc1 : descSize m1 orig = n := by
    rw [← hsize]
    exact rd_congr fun i hi => hlow1 _ (by omega)
  generalize hcopied : emadsCopied src stride (d + n) count = copied
  have hinside : copied = count ↔ ∀ i < count, emadOffset m d + stride * i + 16 ≤ n := by
    rw [← hcopied, emadsCopied_eq]
    exact forall₂_congr fun i _ => by omega
  have hcopied_le : copied ≤ count := hcopied ▸ emadsCopied_le _ _ _ _
  set m2 := copyEmads m1 (o + 32) src stride copied with hm2
  have hread2 : ∀ x len, x + len ≤ o → rd m2 x len = rd m x len := fun x len hx =>
    rd_congr fun i hi => by rw [hm2, copyEmads_outside (by omega), hlow1 _ (by omega)]
  have hread3 :
      ∀ x delta, x + 8 ≤ o → rd (shiftOffsets m2 (o + 32) src stride delta count) x 8 = rd m x 8 :=
    fun x delta hx => by
      rw [← hread2 x 8 hx]
      exact rd_congr fun i hi => shiftOffsets_outside fun j _ => by omega
  have hin2 : u32 (emadOffset m2 d + emadSize m2 d * emadCount m2 d) = inOffset := by
    rw [emadOffset, emadSize, emadCount, hread2 _ _ (by omega), hread2 _ _ (by omega),
      hread2 _ _ (by omega)]
    exact u32_of_lt hsmall
  set k2 := addressRangeCount m2 (d + inOffset) with hk2
  have hresult : convertMtdToV10 m out orig =
      if copied < count then (m2, false)
      else if n < inOffset + (16 + 16 * k2) ∨ descSize m out < 32 + 16 * count + (16 + 16 * k2) then
        (shiftOffsets m2 (o + 32) src stride (subU64 (32 + 16 * count) inOffset) count, false)
      else (copyBytes (shiftOffsets m2 (o + 32) src stride (subU64 (32 + 16 * count) inOffset)
        count) (o + (32 + 16 * count)) (d + inOffset) (16 + 16 * k2), true) := by
    unfold convertMtdToV10
    simp only [← hd, ← ho, ← hm1, hcount', hdesc1, hoffset1, hsize1, ← hsrc, ← hstride, hcopied,
      ← hm2, hin2, ← hk2]
    rw [descSize, descSize, hread3 _ _ (by omega), hread3 _ _ (by omega)]
    show (if copied < count then (m2, false) else if descSize m orig < _ ∨ descSize m out < _ then _
      else _) = _
    rw [hsize]
  -- The composite descriptor is where it was, as far as it is inside.
  have hk_eq : inOffset + 16 ≤ n → k2 = k := fun h => hread2 _ _ (by omega)
  have hfits : FitsV10 m d n (descSize m out) ↔ copied = count ∧ inOffset + (16 + 16 * k) ≤ n ∧
      32 + 16 * count + (16 + 16 * k) ≤ descSize m out :=
    and_congr_left' hinside.symm
  rw [hresult, hfits]
  split
  · exact ⟨iff_of_false Bool.false_ne_true (by omega), fun h => absurd h Bool.false_ne_true⟩
  have hall : copied = count := by omega
  split
  · rename_i hover
    refine ⟨iff_of_false Bool.false_ne_true fun h => ?_, fun h => absurd h Bool.false_ne_true⟩
    rw [hk_eq (by omega)] at hover
    omega
  rename_i hover
  rw [hk_eq (by omega)] at hover ⊢
  refine ⟨⟨fun _ => ⟨hall, by omega, by omega⟩, fun _ => rfl⟩, fun _ => ?_⟩
  rw [hm2, hall, ← add_assoc o]
  generalize hm4 : copyBytes (shiftOffsets _ _ src stride _ count) _ _ _ = m4
  have hheader : ∀ x len, x + len ≤ 32 → bytesAt m4 (o + x) len = bytesAt m1 (o + x) len :=
    fun x len hx =>
    bytesAt_congr fun i hi => hm4 ▸ moveParts_outside (by omega)
  obtain ⟨hrecords, hmrd⟩ := moveParts_parts hm4 hlow1 (by omega) (fun i hi => by
    have := hinside.mp hall i hi
    omega) (by omega)
  rw [add_assoc] at hmrd
  exact ⟨(hheader 0 2 (by omega)).trans hsender, (hheader 2 1 (by omega)).trans hattr,
    (hheader 3 1 (by omega)).trans hrest, (hheader 4 20 (by omega)).trans hbody,
    (hheader 24 4 (by omega)).trans hrest', (hheader 28 4 (by omega)).trans hcount1, fun i hi =>
    (hrecords i hi).1, fun i hi => (hrecords i hi).2.1, fun i hi => (hrecords i hi).2.2, hmrd⟩

end MtkBoot.Spmc
