import Mathlib.Tactic.IntervalCases
import MtkBoot.Net.Defrag

/-! The hole descriptors in the buffer: what reading one gives after another was written, and what
filling a hole does to the links. -/

namespace MtkBoot.Net

open UInt8

variable {buf : Mem} {i k a v : Nat} {h : Hole}

theorem getU16_lt (buf : Mem) (a : Nat) : getU16 buf a < 2 ^ 16 := by
  have h0 := (buf a).toNat_lt
  have h1 := (buf (a + 1)).toNat_lt
  rw [getU16]
  omega

def Hole.Fits (h : Hole) : Prop :=
  h.lastByte < 2 ^ 16 ∧ h.nextHole < 2 ^ 16 ∧ h.prevHole < 2 ^ 16 ∧ h.unused < 2 ^ 16

theorem getHole_fits (buf : Mem) (i : Nat) : (getHole buf i).Fits :=
  ⟨getU16_lt _ _, getU16_lt _ _, getU16_lt _ _, getU16_lt _ _⟩

theorem bytes_u16 (hv : v < 2 ^ 16) : (ofNat v).toNat + 256 * (ofNat (v / 256)).toNat = v := by
  simp only [toNat_ofNat']
  omega

theorem getHole_setHole_same (hh : h.Fits) : getHole (setHole buf i h) i = h := by
  obtain ⟨h0, h1, h2, h3⟩ := hh
  have hbyte : ∀ k < 8, setHole buf i h (8 * i + k) = h.byte k := by
    intro k hk
    rw [setHole, if_pos (by omega), Nat.add_sub_cancel_left]
  simp only [getHole, getU16, add_assoc, Nat.reduceAdd]
  rw [show 8 * i = 8 * i + 0 from rfl]
  simp only [add_assoc, Nat.reduceAdd, hbyte _ (by decide : 0 < 8), hbyte _ (by decide : 1 < 8),
    hbyte _ (by decide : 2 < 8), hbyte _ (by decide : 3 < 8), hbyte _ (by decide : 4 < 8),
    hbyte _ (by decide : 5 < 8), hbyte _ (by decide : 6 < 8), hbyte _ (by decide : 7 < 8),
    Hole.byte, bytes_u16 h0, bytes_u16 h1, bytes_u16 h2, bytes_u16 h3]

theorem setHole_out (ha : a < 8 * i ∨ 8 * i + 8 ≤ a) : setHole buf i h a = buf a :=
  if_neg (by omega)

theorem getHole_congr {buf' : Mem} (hb : ∀ a, 8 * k ≤ a → a < 8 * k + 8 → buf' a = buf a) :
    getHole buf' k = getHole buf k := by
  simp only [getHole, getU16]
  rw [hb _ (by omega) (by omega), hb _ (by omega) (by omega), hb _ (by omega) (by omega),
    hb _ (by omega) (by omega), hb _ (by omega) (by omega), hb _ (by omega) (by omega),
    hb _ (by omega) (by omega), hb _ (by omega) (by omega)]

theorem getHole_setHole_ne (hne : k ≠ i) : getHole (setHole buf i h) k = getHole buf k :=
  getHole_congr fun a _ _ => setHole_out (by omega)

theorem getHole_setHole (hh : h.Fits) : getHole (setHole buf i h) k = if k = i then h
    else getHole buf k := by
  split_ifs with hk
  · rw [hk, getHole_setHole_same hh]
  · exact getHole_setHole_ne hk

theorem low_byte (x y : UInt8) : UInt8.ofNat (x.toNat + 256 * y.toNat) = x := by
  apply UInt8.toNat_inj.mp
  have := x.toNat_lt
  rw [toNat_ofNat']
  omega

theorem high_byte (x y : UInt8) : UInt8.ofNat ((x.toNat + 256 * y.toNat) / 256) = y := by
  apply UInt8.toNat_inj.mp
  have := x.toNat_lt
  have := y.toNat_lt
  rw [toNat_ofNat']
  omega

theorem setHole_getHole (buf : Mem) (i : Nat) : setHole buf i (getHole buf i) = buf := by
  funext a
  rw [setHole]
  split_ifs with ha
  · obtain ⟨k, rfl⟩ := Nat.exists_eq_add_of_le ha.1
    have hk : k < 8 := by omega
    rw [Nat.add_sub_cancel_left]
    interval_cases k <;> simp only [Hole.byte, getHole, getU16, low_byte, high_byte, add_zero,
      add_assoc, Nat.reduceAdd]
  · rfl

theorem getHole_setLast (hv : v < 2 ^ 16) : getHole (setLast buf i v) k =
    if k = i then { getHole buf i with lastByte := v } else getHole buf k :=
  getHole_setHole ⟨hv, (getHole_fits buf i).2⟩

theorem getHole_setNext (hv : v < 2 ^ 16) : getHole (setNext buf i v) k =
    if k = i then { getHole buf i with nextHole := v } else getHole buf k :=
  getHole_setHole ⟨(getHole_fits buf i).1, hv, (getHole_fits buf i).2.2⟩

theorem getHole_setPrev (hv : v < 2 ^ 16) : getHole (setPrev buf i v) k =
    if k = i then { getHole buf i with prevHole := v } else getHole buf k :=
  getHole_setHole ⟨(getHole_fits buf i).1, (getHole_fits buf i).2.1, hv, (getHole_fits buf i).2.2.2⟩

theorem setLast_self (h : (getHole buf i).lastByte = v) : setLast buf i v = buf := by
  rw [setLast, ← h]
  exact setHole_getHole buf i

theorem setLast_setLast {w : Nat} (hw : w < 2 ^ 16) :
    setLast (setLast buf i w) i v = setLast buf i v := by
  have hget : getHole (setLast buf i w) i = { getHole buf i with lastByte := w } := by
    rw [getHole_setLast hw, if_pos rfl]
  funext a
  show setHole (setLast buf i w) i { getHole (setLast buf i w) i with lastByte := v } a = _
  rw [hget]
  by_cases ha : 8 * i ≤ a ∧ a < 8 * i + 8
  · rw [setHole, if_pos ha, setLast, setHole, if_pos ha]
  · rw [setHole, if_neg ha, setLast, setHole, if_neg ha, setLast, setHole, if_neg ha]

/-! ## Fields -/

def linkNext (buf : Mem) (l v : Nat) : Mem := if l = 0 then buf else setNext buf l v

def linkPrev (buf : Mem) (r v : Nat) : Mem := if r = 0 then buf else setPrev buf r v

section Fields

variable (hv : v < 2 ^ 16)
include hv

theorem setNext_fields : (getHole (setNext buf i v) k).lastByte = (getHole buf k).lastByte ∧
    (getHole (setNext buf i v) k).nextHole = (if k = i then v else (getHole buf k).nextHole) ∧
    (getHole (setNext buf i v) k).prevHole = (getHole buf k).prevHole := by
  rw [getHole_setNext hv]
  split_ifs with hk
  · rw [hk]
    exact ⟨rfl, rfl, rfl⟩
  · exact ⟨rfl, rfl, rfl⟩

theorem setPrev_fields : (getHole (setPrev buf i v) k).lastByte = (getHole buf k).lastByte ∧
    (getHole (setPrev buf i v) k).nextHole = (getHole buf k).nextHole ∧
    (getHole (setPrev buf i v) k).prevHole = if k = i then v else (getHole buf k).prevHole := by
  rw [getHole_setPrev hv]
  split_ifs with hk
  · rw [hk]
    exact ⟨rfl, rfl, rfl⟩
  · exact ⟨rfl, rfl, rfl⟩

theorem setLast_fields :
    (getHole (setLast buf i v) k).lastByte = (if k = i then v else (getHole buf k).lastByte) ∧
    (getHole (setLast buf i v) k).nextHole = (getHole buf k).nextHole ∧
    (getHole (setLast buf i v) k).prevHole = (getHole buf k).prevHole := by
  rw [getHole_setLast hv]
  split_ifs with hk
  · rw [hk]
    exact ⟨rfl, rfl, rfl⟩
  · exact ⟨rfl, rfl, rfl⟩

theorem linkNext_fields : (getHole (linkNext buf i v) k).lastByte = (getHole buf k).lastByte ∧
    (getHole (linkNext buf i v) k).nextHole =
    (if i ≠ 0 ∧ k = i then v else (getHole buf k).nextHole) ∧
    (getHole (linkNext buf i v) k).prevHole = (getHole buf k).prevHole := by
  by_cases hi : i = 0
  · simp [linkNext, hi]
  · simp [linkNext, hi, setNext_fields hv]

theorem linkPrev_fields : (getHole (linkPrev buf i v) k).lastByte = (getHole buf k).lastByte ∧
    (getHole (linkPrev buf i v) k).nextHole = (getHole buf k).nextHole ∧
    (getHole (linkPrev buf i v) k).prevHole = if i ≠ 0 ∧ k = i then v
    else (getHole buf k).prevHole := by
  by_cases hi : i = 0
  · simp [linkPrev, hi]
  · simp [linkPrev, hi, setPrev_fields hv]

end Fields

theorem linkNext_out (ha : i = 0 ∨ a < 8 * i ∨ 8 * i + 8 ≤ a) : linkNext buf i v a = buf a := by
  rw [linkNext]
  split_ifs with hi
  · rfl
  · exact setHole_out (ha.resolve_left hi)

theorem linkPrev_out (ha : i = 0 ∨ a < 8 * i ∨ 8 * i + 8 ≤ a) : linkPrev buf i v a = buf a := by
  rw [linkPrev]
  split_ifs with hi
  · rfl
  · exact setHole_out (ha.resolve_left hi)

/-! ## Filling a hole -/

variable {maxUdp first this len : Nat}

theorem fillHole_split (hstart : i < this) (hend : 8 * this + len < (getHole buf i).lastByte)
    (hfits : 8 * (this + len / 8) + 8 ≤ maxUdp) (hthis : 8 * this < 2 ^ 16)
    (hnew : this + len / 8 < 2 ^ 16) : fillHole maxUdp buf first i this len = some (linkPrev
        (setPrev (setNext (setLast (setHole buf (this + len / 8) (getHole buf i)) i (8 * this)) i
          (this + len / 8)) (this + len / 8) i) (getHole buf i).nextHole (this + len / 8), first,
          false) := by
  have hnext : (getHole
      (setPrev (setNext (setLast (setHole buf (this + len / 8) (getHole buf i)) i (8 * this)) i
      (this + len / 8)) (this + len / 8) i) (this + len / 8)).nextHole =
      (getHole buf i).nextHole := by
    rw [(setPrev_fields (by omega)).2.1, (setNext_fields hnew).2.1, if_neg (by omega),
      (setLast_fields hthis).2.1, getHole_setHole_same (getHole_fits buf i)]
  simp only [fillHole]
  rw [if_neg (by omega), if_neg (by omega), if_neg (by omega), if_neg (by omega), hnext, linkPrev]
  by_cases hn : (getHole buf i).nextHole = 0 <;> simp [hn]

end MtkBoot.Net
