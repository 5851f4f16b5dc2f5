import Mathlib.Data.List.TakeDrop
import MtkBoot.Base

/-! Strings as lists of bytes: the part before the first zero, the search for a substring, and
numbers in text. -/

namespace MtkBoot.Lib

open List Nat

abbrev Str := List UInt8

def ascii (s : String) : Str := s.toList.map fun c => c.toNat.toUInt8

def cstr (l : List UInt8) : Str := l.takeWhile fun c => c ≠ 0

def findSub (pat : Str) : Str → Option Nat
  | [] => if pat = [] then some 0 else none
  | c :: l => if pat <+: c :: l then some 0 else (findSub pat l).map (· + 1)

def decodeDigit (c : UInt8) : Nat :=
  let n := c.toNat
  if 0x30 ≤ n ∧ n ≤ 0x39 then n - 0x30
  else if 0x41 ≤ n ∧ n ≤ 0x46 then n - 0x41 + 10
  else if 0x61 ≤ n ∧ n ≤ 0x66 then n - 0x61 + 10
  else 256

/-- The base and the digits of a number: after `0x` the base is sixteen. -/
def fixupRadix (base : Nat) (s : Str) : Nat × Str :=
  match s with
  | 0x30 :: c :: rest => if c = 0x78 ∨ c = 0x58 then (16, rest) else (base, s)
  | _ => (base, s)

/-- The number at the start of a text modulo `2 ^ 64`, and what is behind it. -/
def strtoul (base : Nat) (s : Str) : Nat × Str :=
  let (base, s) := fixupRadix base s
  let digits := (s.map decodeDigit).takeWhile (· < base)
  (digits.foldl (fun n d => u64 (n * base + d)) 0, s.drop digits.length)

section

variable {pat l m : Str} {i n : Nat}

theorem findSub_eq_none : findSub pat l = none ↔ ∀ j ≤ l.length, ¬pat <+: l.drop j := by
  induction l with
  | nil =>
    simp only [findSub, length_nil, le_zero, forall_eq, drop_nil, prefix_nil]
    split <;> simp_all
  | cons c l ih =>
    rw [findSub]
    constructor
    · intro h j hj
      split at h
      · cases h
      · rename_i hne
        cases j with
        | zero => exact hne
        | succ j =>
          rw [Option.map_eq_none_iff] at h
          exact ih.mp h j (by simpa using hj)
    · intro h
      rw [if_neg (show ¬pat <+: c :: l from h 0 (zero_le _)), Option.map_eq_none_iff]
      exact ih.mpr fun j hj => h (j + 1) (by simpa using hj)

theorem findSub_eq_some : findSub pat l = some i ↔ i ≤ l.length ∧ pat <+: l.drop i ∧
    ∀ j < i, ¬pat <+: l.drop j := by
  induction l generalizing i with
  | nil =>
    rw [findSub]
    split
    · rename_i hnil
      subst hnil
      constructor
      · rintro ⟨⟩
        exact ⟨Nat.le_refl 0, nil_prefix, fun j hj => absurd hj (Nat.not_lt_zero j)⟩
      · rintro ⟨hi, -, -⟩
        exact congrArg some (le_zero.mp hi).symm
    · rename_i hne
      constructor
      · rintro ⟨⟩
      · rintro ⟨-, hpre, -⟩
        rw [drop_nil, prefix_nil] at hpre
        exact absurd hpre hne
  | cons c l ih =>
    rw [findSub]
    split
    · rename_i hpre
      constructor
      · rintro ⟨⟩
        exact ⟨zero_le _, hpre, fun j hj => absurd hj (not_lt_zero j)⟩
      · rintro ⟨-, -, hfirst⟩
        cases i with
        | zero => rfl
        | succ i => exact absurd hpre (hfirst 0 (succ_pos i))
    · rename_i hne
      rw [Option.map_eq_some_iff]
      constructor
      · rintro ⟨i, hi, rfl⟩
        obtain ⟨hle, hpre, hfirst⟩ := ih.mp hi
        refine ⟨by simpa using hle, hpre, ?_⟩
        intro j hj
        cases j with
        | zero => exact hne
        | succ j => exact hfirst j (by omega)
      · rintro ⟨hle, hpre, hfirst⟩
        cases i with
        | zero => exact absurd hpre hne
        | succ i =>
          exact ⟨i, ih.mpr ⟨by simpa using hle, hpre, fun j hj => hfirst (j + 1) (by omega)⟩, rfl⟩

theorem findSub_append (h : findSub pat l = some i) (m : Str) : findSub pat (l ++ m) = some i := by
  obtain ⟨hle, hpre, hfirst⟩ := findSub_eq_some.mp h
  have hlen := hpre.length_le
  rw [length_drop] at hlen
  refine findSub_eq_some.mpr ⟨by simp only [length_append]; omega, ?_, ?_⟩
  · rw [drop_append_of_le_length hle]
    exact hpre.trans (prefix_append _ _)
  · intro j hj hpre'
    rw [drop_append_of_le_length (by omega)] at hpre'
    exact hfirst j hj
      (prefix_of_prefix_length_le hpre' (prefix_append _ _) (by rw [length_drop]; omega))

theorem findSub_take (h : findSub pat l = some i) (hn : n < i + pat.length) :
    findSub pat (l.take n) = none := by
  obtain ⟨-, -, hfirst⟩ := findSub_eq_some.mp h
  refine findSub_eq_none.mpr fun j hj hpre => ?_
  rw [drop_take] at hpre
  have hlen := hpre.length_le
  rw [length_take, length_drop] at hlen
  rw [length_take] at hj
  by_cases hji : j < i
  · exact hfirst j hji (hpre.trans (List.take_prefix _ _))
  · omega

theorem cstr_append (h : 0 ∉ l) (m : Str) : cstr (l ++ m) = l ++ cstr m := by
  refine takeWhile_append_of_pos fun d hd => ?_
  rw [decide_eq_true_iff]
  rintro rfl
  exact h hd

end

end MtkBoot.Lib
