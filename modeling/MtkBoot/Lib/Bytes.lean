import Mathlib.Data.List.Nodup
import Mathlib.Data.Nat.Bitwise
import Mathlib.Tactic.Ring

/-! Byte images: little-endian fields, overwriting a part of a buffer, and the bit-reflected CRC-32
without complement. -/

namespace MtkBoot.Lib

open List Function Nat UInt8

variable {n off len o i o' x crc : Nat} {l b a : List UInt8} {mem mem' : Nat → UInt8}

/-! ### Little-endian fields -/

/-- The `k` low bytes of `n`, least significant first. -/
def leBytes : Nat → Nat → List UInt8
  | 0, _ => []
  | k + 1, n => UInt8.ofNat n :: leBytes k (n / 256)

def leNat : List UInt8 → Nat
  | [] => 0
  | b :: l => b.toNat + 256 * leNat l

@[simp] theorem length_leBytes (k n : Nat) : (leBytes k n).length = k := by
  induction k generalizing n with
  | zero => rfl
  | succ k ih => simp [leBytes, ih]

theorem leNat_lt (l : List UInt8) : leNat l < 256 ^ l.length := by
  induction l with
  | nil => decide
  | cons b l ih =>
    have := b.toNat_lt
    rw [leNat, length_cons, pow_succ]
    omega

theorem leNat_leBytes (k n : Nat) : leNat (leBytes k n) = n % 256 ^ k := by
  induction k generalizing n with
  | zero => simp [leBytes, leNat, mod_one]
  | succ k ih =>
    have hsplit : n % 256 ^ (k + 1) = n % 256 + 256 * (n / 256 % 256 ^ k) := by
      rw [pow_succ, mul_comm, mod_mul]
    simp [leBytes, leNat, ih, hsplit]

theorem leBytes_mod (k n : Nat) : leBytes k (n % 256 ^ k) = leBytes k n := by
  induction k generalizing n with
  | zero => rfl
  | succ k ih =>
    have hhead : ofNat (n % 256 ^ (k + 1)) = ofNat n := by
      apply toNat.inj
      rw [pow_succ]
      exact mod_mul_left_mod n _ _
    rw [leBytes, leBytes, hhead, ← ih (n / 256), pow_succ, mul_comm, mod_mul_right_div_self]

theorem leBytes_leNat (l : List UInt8) : leBytes l.length (leNat l) = l := by
  induction l with
  | nil => rfl
  | cons b l ih =>
    have := b.toNat_lt
    rw [length_cons, leNat, leBytes, show (b.toNat + 256 * leNat l) / 256 = leNat l by omega, ih]
    congr 1
    apply toNat.inj
    simp only [toNat_ofNat']
    omega

def beBytes (k n : Nat) : List UInt8 := (leBytes k n).reverse

def beNat (l : List UInt8) : Nat := leNat l.reverse

@[simp] theorem length_beBytes (k n : Nat) : (beBytes k n).length = k := by simp [beBytes]

theorem beNat_beBytes {k : Nat} (h : n < 256 ^ k) : beNat (beBytes k n) = n := by
  rw [beNat, beBytes, reverse_reverse, leNat_leBytes, mod_eq_of_lt h]

/-- The bytes `[off, off + len)` of a buffer. -/
def field (l : List UInt8) (off len : Nat) : List UInt8 := (l.drop off).take len

theorem leNat_field_lt (l : List UInt8) (off len : Nat) : leNat (field l off len) < 256 ^ len :=
  (leNat_lt _).trans_le (Nat.pow_le_pow_right (by decide) (length_take_le _ _))

def le32 (l : List UInt8) (off : Nat) : Nat := leNat (field l off 4)

theorem le32_lt (l : List UInt8) (off : Nat) : le32 l off < 2 ^ 32 := leNat_field_lt l off 4

/-- The buffer `l` after `b` was copied over it at `off`. -/
def splice (l : List UInt8) (off : Nat) (b : List UInt8) : List UInt8 :=
  l.take off ++ b ++ l.drop (off + b.length)

section

variable (h : off + b.length ≤ l.length)
include h

theorem length_splice : (splice l off b).length = l.length := by
  simp [splice]
  omega

theorem splice_getElem? (i : Nat) : (splice l off b)[i]? =
      if off ≤ i ∧ i < off + b.length then b[i - off]? else l[i]? := by
  unfold splice
  rw [append_assoc, getElem?_append, length_take, min_eq_left (by omega)]
  by_cases hlo : i < off
  · rw [if_pos hlo, getElem?_take, if_pos hlo, if_neg (by omega)]
  · rw [if_neg hlo, getElem?_append]
    by_cases hhi : i - off < b.length
    · rw [if_pos hhi, if_pos (by omega)]
    · rw [if_neg hhi, if_neg (by omega), getElem?_drop]
      congr 1
      omega

omit h in
theorem field_getElem? (l : List UInt8) (off len i : Nat) :
    (field l off len)[i]? = if i < len then l[off + i]? else none := by
  unfold field
  rw [getElem?_take]
  split <;> simp

omit h in
theorem length_field (h : off + len ≤ l.length) : (field l off len).length = len := by
  simp [field]
  omega

theorem field_splice_inside (hlo : off ≤ o) (hhi : o + len ≤ off + b.length) :
    field (splice l off b) o len = field b (o - off) len := by
  apply ext_getElem?
  intro i
  rw [field_getElem?, field_getElem?]
  split
  · rw [splice_getElem? h, if_pos (by omega)]
    congr 1
    omega
  · rfl

theorem field_splice_outside (hout : o + len ≤ off ∨ off + b.length ≤ o) :
    field (splice l off b) o len = field l o len := by
  apply ext_getElem?
  intro i
  rw [field_getElem?, field_getElem?]
  split
  · rw [splice_getElem? h, if_neg (by omega)]
  · rfl

end

theorem field_congr {l' : List UInt8} (h : ∀ x, o ≤ x → x < o + len → l[x]? = l'[x]?) :
    field l o len = field l' o len := by
  apply ext_getElem?
  intro i
  rw [field_getElem?, field_getElem?]
  split
  · exact h (o + i) (by omega) (by omega)
  · rfl

theorem field_field {a : Nat} (h : a + n ≤ len) :
    field (field l o len) a n = field l (o + a) n := by
  unfold field
  rw [drop_take, take_take, min_eq_left (by omega), drop_drop]

theorem field_take (h : o + len ≤ n) : field (l.take n) o len = field l o len := by
  unfold field
  rw [drop_take, take_take, min_eq_left (by omega)]

theorem field_self (b : List UInt8) : field b 0 b.length = b := by simp [field]

theorem field_append_right (h : a.length ≤ o) :
    field (a ++ b) o len = field b (o - a.length) len := by
  simp [field, drop_append, drop_eq_nil_of_le h]

theorem field_append_left (h : o + len ≤ a.length) : field (a ++ b) o len = field a o len := by
  unfold field
  rw [drop_append_of_le_length (by omega), take_append_of_le_length]
  simp
  omega

def words (l : List Nat) : List UInt8 := l.flatMap (leBytes 4)

@[simp] theorem length_words (l : List Nat) : (words l).length = 4 * l.length := by
  induction l with
  | nil => rfl
  | cons n l ih =>
    rw [words, flatMap_cons, length_append, length_leBytes, ← words, ih]
    simp
    omega

theorem field_words {l : List Nat} (h : i < l.length) :
    field (words l) (4 * i) 4 = leBytes 4 l[i] := by
  induction l generalizing i with
  | nil => simp at h
  | cons n l ih =>
    rw [words, flatMap_cons, ← words]
    cases i with
    | zero =>
      rw [field_append_left (by simp)]
      exact field_self (leBytes 4 n)
    | succ i =>
      rw [field_append_right (by simp), length_leBytes,
        show 4 * (i + 1) - 4 = 4 * i by omega, ih (by simpa using h)]
      rfl

theorem le32_words {l : List Nat} (h : i < l.length) : le32 (words l) (4 * i) = l[i] % 2 ^ 32 := by
  rw [le32, field_words h, leNat_leBytes]
  rfl

/-! ### The middle of a buffer -/

theorem field_middle (a b c : List UInt8) : field (a ++ (b ++ c)) a.length b.length = b := by
  simp [field]

theorem splice_middle {c b' : List UInt8} (h : b'.length = b.length) :
    splice (a ++ (b ++ c)) a.length b' = a ++ (b' ++ c) := by
  simp [splice, h]

def bytesAt (mem : Nat → UInt8) (o len : Nat) : List UInt8 :=
  (List.range len).map fun i => mem (o + i)

@[simp] theorem length_bytesAt (mem : Nat → UInt8) (o len : Nat) :
    (bytesAt mem o len).length = len := by
  simp [bytesAt]

theorem bytesAt_getElem? (mem : Nat → UInt8) (o len i : Nat) :
    (bytesAt mem o len)[i]? = if i < len then some (mem (o + i)) else none := by
  unfold bytesAt
  by_cases h : i < len
  · simp [h]
  · simp [h]

theorem bytesAt_add (mem : Nat → UInt8) (o m n : Nat) :
    bytesAt mem o (m + n) = bytesAt mem o m ++ bytesAt mem (o + m) n := by
  simp [bytesAt, range_add, comp_def, add_assoc]

theorem bytesAt_add_eq {m : Nat} : bytesAt mem o (m + n) = bytesAt mem' o' (m + n) ↔
      bytesAt mem o m = bytesAt mem' o' m ∧ bytesAt mem (o + m) n = bytesAt mem' (o' + m) n := by
  rw [bytesAt_add, bytesAt_add]
  constructor
  · intro h
    exact append_inj h (by simp)
  · rintro ⟨h1, h2⟩
    rw [h1, h2]

theorem bytesAt_congr (h : ∀ i < len, mem (o + i) = mem' (o' + i)) :
    bytesAt mem o len = bytesAt mem' o' len := by
  apply map_congr_left
  intro i hi
  exact h i (mem_range.mp hi)

theorem bytesAt_apply (h : bytesAt mem o len = bytesAt mem' o' len) (hi : i < len) :
    mem (o + i) = mem' (o' + i) := by
  have hbyte : (bytesAt mem o len)[i]? = (bytesAt mem' o' len)[i]? := by rw [h]
  rw [bytesAt_getElem?, bytesAt_getElem?, if_pos hi, if_pos hi] at hbyte
  exact Option.some.inj hbyte

theorem bytesAt_eq (h : ∀ i < l.length, l[i]? = some (mem (o + i))) :
    bytesAt mem o l.length = l := by
  apply ext_getElem?
  intro i
  rw [bytesAt_getElem?]
  split
  · rename_i hi
    exact (h i hi).symm
  · rw [getElem?_eq_none (by omega)]

theorem bytesAt_eq_field (hl : bytesAt mem 0 l.length = l) (h : o + len ≤ l.length) :
    bytesAt mem o len = field l o len := by
  apply ext_getElem?
  intro i
  rw [bytesAt_getElem?, field_getElem?, ← hl, bytesAt_getElem?]
  split
  · rw [if_pos (by omega), zero_add]
  · rfl

def putBytes (mem : Nat → UInt8) (o : Nat) : List UInt8 → Nat → UInt8
  | [] => mem
  | b :: l => putBytes (update mem o b) (o + 1) l

theorem putBytes_outside (h : x < o ∨ o + l.length ≤ x) : putBytes mem o l x = mem x := by
  induction l generalizing mem o with
  | nil => rfl
  | cons b l ih =>
    rw [length_cons] at h
    rw [putBytes, ih (by omega), update_of_ne (by omega)]

theorem putBytes_inside (h : i < l.length) : l[i]? = some (putBytes mem o l (o + i)) := by
  induction l generalizing mem o i with
  | nil => cases h
  | cons b l ih =>
    rw [putBytes]
    cases i with
    | zero => rw [putBytes_outside (by omega), add_zero, update_self]; rfl
    | succ i =>
      rw [length_cons] at h
      have htail : l[i]? = some (putBytes (update mem o b) (o + 1) l (o + 1 + i)) := ih (by omega)
      rw [getElem?_cons_succ, htail, add_right_comm, add_assoc]

theorem bytesAt_putBytes (mem : Nat → UInt8) (o : Nat) (l : List UInt8) :
    bytesAt (putBytes mem o l) o l.length = l :=
  bytesAt_eq fun _ hi => putBytes_inside hi

theorem bytesAt_putBytes_within (h : x + b.length ≤ n) :
    bytesAt (putBytes mem (o + x) b) o n = splice (bytesAt mem o n) x b := by
  apply ext_getElem?
  intro i
  rw [splice_getElem? (by simpa using h), bytesAt_getElem?, bytesAt_getElem?]
  by_cases hi : x ≤ i ∧ i < x + b.length
  · have hput : b[i - x]? = some (putBytes mem (o + x) b (o + x + (i - x))) :=
      putBytes_inside (by omega)
    rw [if_pos hi, if_pos (by omega), hput, show o + x + (i - x) = o + i by omega]
  · rw [if_neg hi, putBytes_outside (by omega)]

theorem bytesAt_putBytes_outside (h : o + n ≤ x ∨ x + b.length ≤ o) :
    bytesAt (putBytes mem x b) o n = bytesAt mem o n :=
  bytesAt_congr fun _ _ => putBytes_outside (by omega)

def copyBytes (mem : Nat → UInt8) (dst src len : Nat) : Nat → UInt8 :=
  putBytes mem dst (bytesAt mem src len)

theorem copyBytes_outside {dst src : Nat} (h : x < dst ∨ dst + len ≤ x) :
    copyBytes mem dst src len x = mem x := putBytes_outside (by simpa using h)

theorem bytesAt_copyBytes (mem : Nat → UInt8) (dst src len : Nat) :
    bytesAt (copyBytes mem dst src len) dst len = bytesAt mem src len := by
  have h := bytesAt_putBytes mem dst (bytesAt mem src len)
  rwa [length_bytesAt] at h

theorem bytesAt_copyBytes_outside {dst src : Nat} (h : o + n ≤ dst ∨ dst + len ≤ o) :
    bytesAt (copyBytes mem dst src len) o n = bytesAt mem o n :=
  bytesAt_putBytes_outside (by simpa using h)

theorem le32_splice_self (v : Nat) (h : off + 4 ≤ l.length) :
    le32 (splice l off (leBytes 4 v)) off = v % 2 ^ 32 := by
  rw [le32, field_splice_inside (by simpa using h) le_rfl (by simp), Nat.sub_self]
  have hself : field (leBytes 4 v) 0 4 = leBytes 4 v := by simpa using field_self (leBytes 4 v)
  rw [hself, leNat_leBytes]
  rfl

theorem le32_splice_outside (h : off + b.length ≤ l.length)
    (hout : o + 4 ≤ off ∨ off + b.length ≤ o) : le32 (splice l off b) o = le32 l o := by
  rw [le32, field_splice_outside h hout, ← le32]

def crcBit (c : Nat) : Nat := if c % 2 = 1 then 0xedb88320 ^^^ (c >>> 1) else c >>> 1

def crcTable (n : Nat) : Nat :=
  crcBit (crcBit (crcBit (crcBit (crcBit (crcBit (crcBit (crcBit n)))))))

def crcByte (crc : Nat) (b : UInt8) : Nat := crcTable ((crc ^^^ b.toNat) &&& 255) ^^^ (crc >>> 8)

/-- `crc32_no_comp`. -/
def crc32 (crc : Nat) (l : List UInt8) : Nat := l.foldl crcByte crc

/-- `crc32`: the register is complemented before and after. -/
def crc32Comp (crc : Nat) (l : List UInt8) : Nat := crc32 (crc ^^^ 0xffffffff) l ^^^ 0xffffffff

theorem crc32_append (crc : Nat) (a b : List UInt8) : crc32 crc (a ++ b) = crc32 (crc32 crc a) b :=
  foldl_append

theorem crcBit_lt {c : Nat} (h : c < 2 ^ 32) : crcBit c < 2 ^ 32 := by
  have hshift : c >>> 1 < 2 ^ 32 := by
    rw [shiftRight_eq_div_pow]
    omega
  unfold crcBit
  split
  · exact xor_lt_two_pow (by decide) hshift
  · exact hshift

theorem crcTable_lt (h : n < 2 ^ 32) : crcTable n < 2 ^ 32 := by
  exact crcBit_lt
    (crcBit_lt (crcBit_lt (crcBit_lt (crcBit_lt (crcBit_lt (crcBit_lt (crcBit_lt h)))))))

theorem crcByte_lt (h : crc < 2 ^ 32) (b : UInt8) : crcByte crc b < 2 ^ 32 := by
  refine xor_lt_two_pow (crcTable_lt ?_) ?_
  · exact lt_of_le_of_lt and_le_right (by decide)
  · rw [shiftRight_eq_div_pow]
    omega

theorem crc32_lt (h : crc < 2 ^ 32) (l : List UInt8) : crc32 crc l < 2 ^ 32 := by
  induction l generalizing crc with
  | nil => exact h
  | cons b l ih => exact ih (crcByte_lt h b)

theorem crc32Comp_lt (h : crc < 2 ^ 32) (l : List UInt8) : crc32Comp crc l < 2 ^ 32 :=
  xor_lt_two_pow (crc32_lt (xor_lt_two_pow h (by decide)) l) (by decide)

theorem crcTable_top_nodup : ((range 256).map fun x => crcTable x >>> 24).Nodup := by decide +kernel

section

variable {crc' : Nat} {u v : UInt8} (h : crc < 2 ^ 32)
include h

/-- The top byte of a table entry tells which entry it is, so one step loses nothing. -/
theorem crcByte_inj (h' : crc' < 2 ^ 32) (heq : crcByte crc u = crcByte crc' v) :
    crc % 256 ^^^ u.toNat = crc' % 256 ^^^ v.toNat ∧ crc >>> 8 = crc' >>> 8 := by
  have hindex (c : Nat) (b : UInt8) : (c ^^^ b.toNat) &&& 255 = c % 256 ^^^ b.toNat := by
    rw [and_two_pow_sub_one_eq_mod _ 8, xor_mod_two_pow, mod_eq_of_lt b.toNat_lt]
  have hlt (c : Nat) (b : UInt8) : c % 256 ^^^ b.toNat ∈ range 256 :=
    mem_range.mpr (xor_lt_two_pow (n := 8) (mod_lt _ (by decide)) b.toNat_lt)
  have hhigh {c : Nat} (hc : c < 2 ^ 32) : c >>> 8 >>> 24 = 0 := by
    simp only [shiftRight_eq_div_pow]
    omega
  simp only [crcByte, hindex] at heq
  have htop := congrArg (· >>> 24) heq
  simp only [shiftRight_xor_distrib, hhigh h, hhigh h', xor_zero] at htop
  have hlow := inj_on_of_nodup_map crcTable_top_nodup (hlt crc u) (hlt crc' v) htop
  rw [hlow] at heq
  exact ⟨hlow, xor_right_inj.mp heq⟩

theorem crc32_inj (h' : crc' < 2 ^ 32) (heq : crc32 crc l = crc32 crc' l) : crc = crc' := by
  induction l generalizing crc crc' with
  | nil => exact heq
  | cons b l ih =>
    obtain ⟨hlow, hhigh⟩ := crcByte_inj h h' (ih (crcByte_lt h b) (crcByte_lt h' b) heq)
    have := xor_left_inj.mp hlow
    simp only [shiftRight_eq_div_pow] at hhigh
    omega

/-- The CRC tells apart two texts that differ in one byte. -/
theorem crc32_set (heq : crc32 crc (l.set i v) = crc32 crc l) : l.set i v = l := by
  induction l generalizing crc i with
  | nil => rfl
  | cons u l ih =>
    cases i with
    | zero =>
      obtain ⟨hlow, -⟩ := crcByte_inj h h (crc32_inj (crcByte_lt h v) (crcByte_lt h u) heq)
      rw [set_cons_zero, UInt8.toNat_inj.mp (Nat.xor_right_inj.mp hlow)]
    | succ i => rw [set_cons_succ, ih (crcByte_lt h u) heq]

end

end MtkBoot.Lib
