import Mathlib.Logic.Basic

/-! Transition systems, and the rule by which a property of every reachable state is proved from
what one step preserves. -/

namespace MtkBoot.Lib

universe u

variable {σ : Type u}

inductive Reachable (init : σ → Prop) (step : σ → σ → Prop) : σ → Prop
  | init {s : σ} (hs : init s) : Reachable init step s
  | step {s s' : σ} (hs : Reachable init step s) (hstep : step s s') : Reachable init step s'

variable {init : σ → Prop} {step : σ → σ → Prop}

theorem Reachable.invariant {I : σ → Prop} {s : σ} (hs : Reachable init step s)
    (hinit : ∀ s, init s → I s) (hstep : ∀ s s', I s → step s s' → I s') : I s := by
  induction hs with
  | init hs => exact hinit _ hs
  | step _ h ih => exact hstep _ _ ih h

theorem Reachable.trans {s s' : σ} (hs : Reachable init step s)
    (hs' : Reachable (fun x => x = s) step s') : Reachable init step s' := by
  induction hs' with
  | init heq => exact heq ▸ hs
  | step _ h ih => exact .step ih h

end MtkBoot.Lib
