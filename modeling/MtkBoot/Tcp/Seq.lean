import MtkBoot.Base

/-! Sequence numbers of the TCP stack (`net/mtk_tcp.c`).  `mtk_tcp_seq_sub` takes its arguments as
`unsigned long`, of 32 or 64 bits. -/

namespace MtkBoot.Tcp

inductive Ulong
  | bits32
  | bits64
  deriving DecidableEq, Repr

def Ulong.bits : Ulong → Nat
  | .bits32 => 32
  | .bits64 => 64

def Ulong.trunc (w : Ulong) (n : Nat) : Nat := n % 2 ^ w.bits

def Ulong.sub (w : Ulong) (a b : Nat) : Nat := (a + (2 ^ w.bits - b % 2 ^ w.bits)) % 2 ^ w.bits

def Ulong.not (w : Ulong) (a : Nat) : Nat := 2 ^ w.bits - 1 - a % 2 ^ w.bits

def timeAfter (w : Ulong) (a b : Nat) : Bool := decide (2 ^ (w.bits - 1) ≤ w.sub b a)

def toInt (n : Nat) : Int := Int.bmod n (2 ^ 32)

def negInt (i : Int) : Int := Int.bmod (-i) (2 ^ 32)

def seqSub (w : Ulong) (a b : Nat) : Int :=
  if timeAfter w a b then
    if b ≤ a then toInt (w.sub a b) else toInt (w.trunc (a + w.not b + 1))
  else
    if a ≤ b then negInt (toInt (w.sub b a)) else negInt (toInt (w.trunc (b + w.not a + 1)))

theorem bmod_eq (i : Int) : Int.bmod i (2 ^ 32) =
    if i % 4294967296 < 2147483648 then i % 4294967296 else i % 4294967296 - 4294967296 := by
  unfold Int.bmod
  simp only
  split <;> split <;> omega

/-- Whatever the width of `unsigned long`, the result is the signed distance modulo `2^32`. -/
theorem seqSub_eq_bmod (w : Ulong) {a b : Nat} (ha : a < 2 ^ 32) (hb : b < 2 ^ 32) :
    seqSub w a b = Int.bmod ((a : Int) - b) (2 ^ 32) := by
  unfold seqSub timeAfter toInt negInt Ulong.trunc Ulong.not Ulong.sub
  cases w with
  | bits32 =>
    unfold Ulong.bits
    simp only [bmod_eq, decide_eq_true_eq]
    split <;> split <;> omega
  | bits64 =>
    unfold Ulong.bits
    simp only [bmod_eq, decide_eq_true_eq]
    split <;> split <;> omega

/-- Two stream positions less than `2^31` apart, as sequence numbers, are ordered by the sign of
their distance. -/
theorem seqSub_eq_sub (w : Ulong) {x y : Nat} (hxy : x < y + 2 ^ 31) (hyx : y < x + 2 ^ 31) :
    seqSub w (u32 x) (u32 y) = (x : Int) - y := by
  rw [seqSub_eq_bmod w (u32_lt x) (u32_lt y), bmod_eq]
  unfold u32
  split <;> omega

/-- Away from the one ambiguous distance the result is the representative strictly between `-2^31`
and `2^31`, and its sign orders the stream positions the two numbers stand for. -/
theorem seqSub_represents (w : Ulong) {a b : Nat} (ha : a < 2 ^ 32) (hb : b < 2 ^ 32)
    (hab : ((a : Int) - b) % 2 ^ 32 ≠ 2 ^ 31) :
    (seqSub w a b % 2 ^ 32 = ((a : Int) - b) % 2 ^ 32 ∧
      -2 ^ 31 < seqSub w a b ∧ seqSub w a b < 2 ^ 31) ∧
    ∀ x y : Nat, u32 x = a → u32 y = b → x < y + 2 ^ 31 → y < x + 2 ^ 31 →
      (seqSub w a b < 0 ↔ x < y) ∧ (0 < seqSub w a b ↔ y < x) := by
  constructor
  · rw [seqSub_eq_bmod w ha hb, bmod_eq]
    split <;> omega
  · intro x y hx hy hxy hyx
    rw [← hx, ← hy, seqSub_eq_sub w hxy hyx]
    omega

theorem seqSub_represents_wrap :
    seqSub .bits64 5 4294967290 = 11 ∧ 0 < seqSub .bits64 5 4294967290 :=
  ⟨by decide, ((seqSub_represents .bits64 (by decide) (by decide) (by decide)).2 4294967301
    4294967290 rfl rfl (by decide) (by decide)).2.mpr (by decide)⟩

end MtkBoot.Tcp
