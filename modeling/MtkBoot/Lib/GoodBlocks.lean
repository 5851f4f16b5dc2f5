import Mathlib.Tactic.Ring

/-! Arrays of blocks some of which are bad and passed over. -/

namespace MtkBoot.Lib

/-- Block `g` is the one after `q` good blocks from block `b` on. -/
inductive NthGood (bad : Nat → Bool) : Nat → Nat → Nat → Prop
  | here {b : Nat} : bad b = false → NthGood bad b 0 b
  | skip {b q g : Nat} : bad b = true → NthGood bad (b + 1) q g → NthGood bad b q g
  | next {b q g : Nat} : bad b = false → NthGood bad (b + 1) q g → NthGood bad b (q + 1) g

def goodCount (bad : Nat → Bool) : Nat → Nat → Nat
  | _, 0 => 0
  | b, n + 1 => (if bad b then 0 else 1) + goodCount bad (b + 1) n

variable {bad : Nat → Bool} {b q q' g g' n : Nat}

namespace NthGood

section

variable (h : NthGood bad b q g)
include h

theorem le : b + q ≤ g := by
  induction h with
  | here => exact le_rfl
  | skip _ _ ih => omega
  | next _ _ ih => omega

theorem of_bad (hb : bad b) : NthGood bad (b + 1) q g := by
  cases h with
  | here hb' => exact absurd (hb'.symm.trans hb) Bool.false_ne_true
  | skip _ h => exact h
  | next hb' => exact absurd (hb'.symm.trans hb) Bool.false_ne_true

omit h in
theorem of_good (h : NthGood bad b (q + 1) g) (hb : bad b = false) : NthGood bad (b + 1) q g := by
  cases h with
  | skip hb' => exact absurd (hb.symm.trans hb') Bool.false_ne_true
  | next _ h => exact h

theorem unique (h' : NthGood bad b q g') : g = g' := by
  induction h with
  | here hb =>
    cases h' with
    | here => rfl
    | skip hb' => exact absurd (hb.symm.trans hb') Bool.false_ne_true
  | skip hb _ ih => exact ih (h'.of_bad hb)
  | next hb _ ih => exact ih (h'.of_good hb)

theorem split (h' : NthGood bad b (q + q') g') : NthGood bad g q' g' := by
  induction h with
  | here _ => rwa [zero_add] at h'
  | skip hb _ ih => exact ih (h'.of_bad hb)
  | @next b q g hb _ ih =>
    rw [add_right_comm] at h'
    exact ih (h'.of_good hb)

end

theorem of_later (h : NthGood bad (b + n) q g) : NthGood bad b (goodCount bad b n + q) g := by
  induction n generalizing b with
  | zero => rwa [goodCount, zero_add]
  | succ n ih =>
    rw [show b + (n + 1) = b + 1 + n by omega] at h
    have hrest := ih h
    rw [goodCount]
    cases hb : bad b with
    | true =>
      rw [if_pos rfl, zero_add]
      exact .skip hb hrest
    | false =>
      rw [if_neg Bool.false_ne_true,
        show 1 + goodCount bad (b + 1) n + q = goodCount bad (b + 1) n + q + 1 by ring]
      exact .next hb hrest

end NthGood

theorem goodCount_le (bad : Nat → Bool) (b n : Nat) : goodCount bad b n ≤ n := by
  induction n generalizing b with
  | zero => exact Nat.le_refl 0
  | succ n ih =>
    rw [goodCount]
    have := ih (b + 1)
    split <;> omega

end MtkBoot.Lib
