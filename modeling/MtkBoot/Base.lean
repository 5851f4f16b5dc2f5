import Mathlib.Data.Nat.Bitwise
import Mathlib.Tactic.Ring

/-! Byte strings and memories, unsigned arithmetic modulo a power of two and the error numbers.  A
machine word is a `Nat` below its bound. -/

namespace MtkBoot

abbrev Bytes := List UInt8

abbrev Mem := Nat → UInt8

def u16 (n : Nat) : Nat := n % 2 ^ 16

def u32 (n : Nat) : Nat := n % 2 ^ 32

def u64 (n : Nat) : Nat := n % 2 ^ 64

def subU32 (a b : Nat) : Nat := (a + (2 ^ 32 - b % 2 ^ 32)) % 2 ^ 32

def subU64 (a b : Nat) : Nat := (a + (2 ^ 64 - b % 2 ^ 64)) % 2 ^ 64

theorem u32_lt (n : Nat) : u32 n < 2 ^ 32 := Nat.mod_lt _ (by decide)

theorem u64_lt (n : Nat) : u64 n < 2 ^ 64 := Nat.mod_lt _ (by decide)

theorem u32_of_lt {n : Nat} (h : n < 2 ^ 32) : u32 n = n := Nat.mod_eq_of_lt h

theorem u64_of_lt {n : Nat} (h : n < 2 ^ 64) : u64 n = n := Nat.mod_eq_of_lt h

theorem subU32_of_le {a b : Nat} (h : b ≤ a) (ha : a < 2 ^ 32) : subU32 a b = a - b := by
  unfold subU32
  omega

theorem subU64_of_le {a b : Nat} (h : b ≤ a) (ha : a < 2 ^ 64) : subU64 a b = a - b := by
  unfold subU64
  omega

theorem of_guard {α : Type*} {c : Prop} [Decidable c] {a b x : α} (h : (if c then a else b) = x)
    (hne : a ≠ x) : ¬c ∧ b = x :=
  (ite_eq_iff.mp h).resolve_left fun h => hne h.2

def eperm : Int := 1
def enoent : Int := 2
def eio : Int := 5
def enomem : Int := 12
def eexist : Int := 17
def einval : Int := 22
def erofs : Int := 30
def erange : Int := 34
def enodata : Int := 61
def ebadmsg : Int := 74
def eauth : Int := 80
def eaddrinuse : Int := 98
def econnreset : Int := 104
def etimedout : Int := 110
def euclean : Int := 117

end MtkBoot
