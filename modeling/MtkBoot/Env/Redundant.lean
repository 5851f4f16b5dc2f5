import Mathlib.Algebra.GroupWithZero.Nat
import Mathlib.Tactic.SplitIfs
import MtkBoot.Lib.System

/-! The two stored copies of the environment.  A save writes the copy not in use with the next
serial number, and a boot takes the one with the higher number. -/

namespace MtkBoot.Env

open Lib

variable {a n : UInt8}

structure EnvT where
  crc : Nat
  flags : UInt8
  data : List UInt8
  deriving DecidableEq

variable {e1 e2 : EnvT}

inductive EnvValid
  | invalid | valid | redund
  deriving DecidableEq, Repr

section

variable (crc32 : List UInt8 → Nat)

def EnvT.crcOk (e : EnvT) : Bool := crc32 e.data = e.crc

/-- `env_check_redund`; `none` is a failure to read both copies. -/
def envCheckRedund (env1 : EnvT) (read1Fail : Bool) (env2 : EnvT) (read2Fail : Bool) :
    Option EnvValid :=
  if read1Fail && read2Fail then none
  else
    let crc1Ok := !read1Fail && env1.crcOk crc32
    let crc2Ok := !read2Fail && env2.crcOk crc32
    if !crc1Ok && !crc2Ok then some .invalid
    else if crc1Ok && !crc2Ok then some .valid
    else if !crc1Ok && crc2Ok then some .redund
    -- both are good: the serial numbers decide
    else if env1.flags = 255 ∧ env2.flags = 0 then some .redund
    else if env2.flags = 255 ∧ env1.flags = 0 then some .valid
    else if env1.flags > env2.flags then some .valid
    else if env2.flags > env1.flags then some .redund
    else some .valid

/-- What is stored, and what the running U-Boot knows.  `last` is the environment that was saved
last, or the one that the first boot found. -/
structure Redund where
  env1 : EnvT
  env2 : EnvT
  env : List UInt8
  envValid : EnvValid
  envFlags : UInt8
  last : List UInt8
  deriving DecidableEq

variable (default : List UInt8)

def Redund.boot (s : Redund) : Redund :=
  match envCheckRedund crc32 s.env1 false s.env2 false with
  | some .valid => { s with env := s.env1.data, envValid := .valid, envFlags := s.env1.flags }
  | some .redund => { s with env := s.env2.data, envValid := .redund, envFlags := s.env2.flags }
  | _ => { s with env := default, envValid := .invalid, envFlags := 0 }

def envExport (s : Redund) : EnvT × Redund :=
  (⟨crc32 s.env, s.envFlags + 1, s.env⟩, { s with envFlags := s.envFlags + 1 })

inductive Written
  | done
  | failed
  | cut (left : EnvT)

def Redund.write (s : Redund) (e : EnvT) : Redund :=
  if s.envValid = .valid then { s with env2 := e } else { s with env1 := e }

def envUbiSave (s : Redund) (w : Written) : Redund :=
  let (envNew, s) := envExport crc32 s
  match w with
  | .failed => s
  | .cut left => s.write left
  | .done => { s.write envNew with
      envValid := if s.envValid = .redund then .valid else .redund
      last := s.env }

/-- One event.  `ok` restricts the saves that succeed. -/
inductive Redund.Step (ok : Redund → Prop) (s : Redund) : Redund → Prop
  | boot : Step ok s (s.boot crc32 default)
  | edit (env : List UInt8) : Step ok s { s with env }
  | save : ok s → Step ok s (envUbiSave crc32 s .done)
  | fail : Step ok s (envUbiSave crc32 s .failed)
  | cut (left : EnvT) : left.crcOk crc32 = false → Step ok s (envUbiSave crc32 s (.cut left))

def Redund.Started (s : Redund) : Prop :=
  ∃ s₀ : Redund, (s₀.env1.crcOk crc32 = true ∨ s₀.env2.crcOk crc32 = true) ∧
    s = { s₀.boot crc32 default with last := (s₀.boot crc32 default).env }

/-- The next boot finds the environment that was saved last. -/
def Redund.Kept (s : Redund) : Prop := (s.boot crc32 default).env = s.last

end

def Redund.inUse (s : Redund) : EnvT := if s.envValid = .valid then s.env1 else s.env2

/-- The serial number of the next save counts as higher than the one of the copy in use. -/
def Redund.Fits (s : Redund) : Prop := (s.inUse.flags = 255 ∧ s.envFlags + 1 = 0) ∨
    (s.inUse.flags < s.envFlags + 1 ∧ ¬ (s.inUse.flags = 0 ∧ s.envFlags + 1 = 255)) ∨
    (s.inUse.flags = s.envFlags + 1 ∧ s.envValid = .redund)

instance (s : Redund) : Decidable s.Fits := inferInstanceAs (Decidable (_ ∨ _))

/-! ### The choice between the copies -/

section

variable {crc32 : List UInt8 → Nat} {default : List UInt8} {s s' : Redund}

def chosen (flags1 flags2 : UInt8) : EnvValid :=
  if flags1 = 255 ∧ flags2 = 0 then .redund
  else if flags2 = 255 ∧ flags1 = 0 then .valid
  else if flags1 > flags2 then .valid
  else if flags2 > flags1 then .redund
  else .valid

theorem chosen_cases (a b : UInt8) : chosen a b = .valid ∨ chosen a b = .redund := by
  unfold chosen
  split_ifs <;> simp

theorem chosen_eq_redund : chosen a n = .redund ↔ (a = 255 ∧ n = 0) ∨
    (a < n ∧ ¬ (a = 0 ∧ n = 255)) := by
  unfold chosen
  simp only [UInt8.lt_iff_toNat_lt, ← UInt8.toNat_inj, gt_iff_lt, UInt8.reduceToNat]
  split_ifs <;> simp only [false_iff, true_iff] <;> omega

theorem chosen_eq_valid : chosen n a = .valid ↔ (a = 255 ∧ n = 0) ∨ (a < n ∧ ¬ (a = 0 ∧ n = 255)) ∨
    a = n := by
  unfold chosen
  simp only [UInt8.lt_iff_toNat_lt, ← UInt8.toNat_inj, gt_iff_lt, UInt8.reduceToNat]
  split_ifs <;> simp only [false_iff, true_iff] <;> omega

theorem envCheckRedund_of_bad_second (h1 : e1.crcOk crc32) (h2 : e2.crcOk crc32 = false) :
    envCheckRedund crc32 e1 false e2 false = some .valid := by
  simp [envCheckRedund, h1, h2]

theorem envCheckRedund_of_bad_first (h1 : e1.crcOk crc32 = false) (h2 : e2.crcOk crc32) :
    envCheckRedund crc32 e1 false e2 false = some .redund := by
  simp [envCheckRedund, h1, h2]

theorem envCheckRedund_of_good (h1 : e1.crcOk crc32) (h2 : e2.crcOk crc32) :
    envCheckRedund crc32 e1 false e2 false = some (chosen e1.flags e2.flags) := by
  simp only [envCheckRedund, h1, h2, chosen, Bool.not_true, Bool.not_false, Bool.and_self,
    Bool.and_true, Bool.and_false, Bool.false_eq_true, if_false]
  split_ifs <;> rfl

theorem crcOk_of_chosen : (envCheckRedund crc32 e1 false e2 false = some .valid → e1.crcOk crc32) ∧
      (envCheckRedund crc32 e1 false e2 false = some .redund → e2.crcOk crc32) := by
  cases h1 : e1.crcOk crc32 <;> cases h2 : e2.crcOk crc32 <;> simp [envCheckRedund, h1, h2]

/-- The copy in use is the one that the next boot chooses, and it holds what was saved last. -/
structure Redund.Sound (crc32 : List UInt8 → Nat) (s : Redund) : Prop where
  found : s.envValid ≠ .invalid
  chosen : envCheckRedund crc32 s.env1 false s.env2 false = some s.envValid
  last : s.inUse.data = s.last

namespace Redund.Sound

section

variable (h : s.Sound crc32)
include h

theorem kept : s.Kept crc32 default := by
  have hlast := h.last
  have hchosen := h.chosen
  unfold Kept boot
  unfold inUse at hlast
  rw [hchosen]
  cases hv : s.envValid with
  | invalid => exact absurd hv h.found
  | valid => simpa [hv] using hlast
  | redund => simpa [hv] using hlast

theorem boot : (s.boot crc32 default).Sound crc32 := by
  have hlast := h.last
  have hchosen := h.chosen
  unfold inUse at hlast
  unfold Redund.boot
  rw [hchosen]
  cases hv : s.envValid with
  | invalid => exact absurd hv h.found
  | valid =>
    rw [hv] at hchosen hlast
    exact ⟨nofun, hchosen, hlast⟩
  | redund =>
    rw [hv] at hchosen hlast
    exact ⟨nofun, hchosen, hlast⟩

theorem cut {left : EnvT} (hleft : left.crcOk crc32 = false) :
    (envUbiSave crc32 s (.cut left)).Sound crc32 := by
  have hlast := h.last
  have hchosen := h.chosen
  unfold inUse at hlast
  unfold envUbiSave envExport write
  dsimp only
  cases hv : s.envValid with
  | invalid => exact absurd hv h.found
  | valid =>
    rw [hv] at hchosen hlast
    rw [if_pos rfl]
    exact ⟨nofun, envCheckRedund_of_bad_second (crcOk_of_chosen.1 hchosen) hleft, hlast⟩
  | redund =>
    rw [hv] at hchosen hlast
    rw [if_neg nofun]
    exact ⟨nofun, envCheckRedund_of_bad_first hleft (crcOk_of_chosen.2 hchosen), hlast⟩

theorem save_iff : envCheckRedund crc32 (envUbiSave crc32 s .done).env1 false
    (envUbiSave crc32 s .done).env2 false = some (envUbiSave crc32 s .done).envValid ↔ s.Fits := by
  have hchosen := h.chosen
  have hnew : EnvT.crcOk crc32 ⟨crc32 s.env, s.envFlags + 1, s.env⟩ := by simp [EnvT.crcOk]
  unfold envUbiSave envExport write Fits inUse
  cases hv : s.envValid with
  | invalid => exact absurd hv h.found
  | valid =>
    rw [hv] at hchosen
    simp only [if_true, reduceCtorEq, if_false, and_false, or_false]
    rw [envCheckRedund_of_good (crcOk_of_chosen.1 hchosen) hnew, Option.some.injEq]
    exact chosen_eq_redund
  | redund =>
    rw [hv] at hchosen
    simp only [reduceCtorEq, if_true, if_false, and_true]
    rw [envCheckRedund_of_good hnew (crcOk_of_chosen.2 hchosen), Option.some.injEq]
    exact chosen_eq_valid

theorem save (hfits : s.Fits) : (envUbiSave crc32 s .done).Sound crc32 := by
  have hchosen := h.save_iff.mpr hfits
  unfold envUbiSave envExport write at hchosen ⊢
  cases hv : s.envValid with
  | invalid => exact absurd hv h.found
  | valid =>
    rw [hv] at hchosen
    exact ⟨nofun, hchosen, rfl⟩
  | redund =>
    rw [hv] at hchosen
    exact ⟨nofun, hchosen, rfl⟩

theorem save_lost (hfits : ¬ s.Fits) :
    ((envUbiSave crc32 s .done).boot crc32 default).env = s.last := by
  have hlast := h.last
  have hchosen := h.chosen
  have hiff := not_congr h.save_iff |>.mpr hfits
  have hnew : EnvT.crcOk crc32 ⟨crc32 s.env, s.envFlags + 1, s.env⟩ := by simp [EnvT.crcOk]
  unfold inUse at hlast
  unfold envUbiSave envExport write at hiff ⊢
  unfold Redund.boot
  cases hv : s.envValid with
  | invalid => exact absurd hv h.found
  | valid =>
    rw [hv] at hchosen hlast hiff
    simp only [if_true, reduceCtorEq, if_false] at hiff hlast ⊢
    rw [envCheckRedund_of_good (crcOk_of_chosen.1 hchosen) hnew] at hiff ⊢
    rcases chosen_cases s.env1.flags (s.envFlags + 1) with hc | hc
    · rw [hc]
      exact hlast
    · rw [hc] at hiff
      exact absurd rfl hiff
  | redund =>
    rw [hv] at hchosen hlast hiff
    simp only [if_true, reduceCtorEq, if_false] at hiff hlast ⊢
    rw [envCheckRedund_of_good hnew (crcOk_of_chosen.2 hchosen)] at hiff ⊢
    rcases chosen_cases (s.envFlags + 1) s.env2.flags with hc | hc
    · rw [hc] at hiff
      exact absurd rfl hiff
    · rw [hc]
      exact hlast

end

end Redund.Sound

theorem Redund.Started.sound (h : s.Started crc32 default) : s.Sound crc32 := by
  obtain ⟨s0, hgood, rfl⟩ := h
  have hcheck : envCheckRedund crc32 s0.env1 false s0.env2 false = some .valid ∨
      envCheckRedund crc32 s0.env1 false s0.env2 false = some .redund := by
    cases h1 : s0.env1.crcOk crc32 with
    | true =>
      cases h2 : s0.env2.crcOk crc32 with
      | true =>
        rw [envCheckRedund_of_good h1 h2, Option.some.injEq, Option.some.injEq]
        exact chosen_cases _ _
      | false => exact .inl (envCheckRedund_of_bad_second h1 h2)
    | false =>
      rw [h1] at hgood
      exact .inr (envCheckRedund_of_bad_first h1 (hgood.resolve_left nofun))
  unfold Redund.boot
  rcases hcheck with hcheck | hcheck
  · rw [hcheck]
    exact ⟨nofun, hcheck, rfl⟩
  · rw [hcheck]
    exact ⟨nofun, hcheck, rfl⟩

theorem Redund.Sound.step (h : s.Sound crc32) (hstep : Redund.Step crc32 default Redund.Fits s s') :
    s'.Sound crc32 := by
  cases hstep with
  | boot => exact h.boot
  | edit env => exact ⟨h.found, h.chosen, h.last⟩
  | save hfits => exact h.save hfits
  | fail => exact ⟨h.found, h.chosen, h.last⟩
  | cut left hleft => exact h.cut hleft

/-- In every run whose saves have serial numbers that fit, every boot finds what was saved last; a
save whose number does not fit is not found. -/
theorem last_save_found (crc32 : List UInt8 → Nat) (default : List UInt8) (s : Redund)
    (hs : Reachable (Redund.Started crc32 default) (Redund.Step crc32 default Redund.Fits) s) :
    s.Kept crc32 default ∧ (envCheckRedund crc32 (envUbiSave crc32 s .done).env1 false
        (envUbiSave crc32 s .done).env2 false = some (envUbiSave crc32 s .done).envValid ↔ s.Fits) ∧
      (¬ s.Fits → ((envUbiSave crc32 s .done).boot crc32 default).env = s.last) := by
  have hsound : s.Sound crc32 := hs.invariant (fun _ h => h.sound) fun _ _ h hstep => h.step hstep
  exact ⟨hsound.kept, hsound.save_iff, hsound.save_lost⟩

end

def sumOf (data : List UInt8) : Nat := (data.map UInt8.toNat).sum

def savedAs (serial : UInt8) : Redund := ⟨⟨1, serial, [1]⟩, ⟨1, 0, []⟩, [1], .valid, serial, [1]⟩

theorem savedAs_started (serial : UInt8) (h : savedAs serial =
      { (savedAs serial).boot sumOf [] with last := ((savedAs serial).boot sumOf []).env }) :
    (savedAs serial).Started sumOf [] :=
  ⟨savedAs serial, .inl (by simp [savedAs, EnvT.crcOk, sumOf]), h⟩

/-- A save, one that fails, and another one with the serial number after that. -/
theorem last_save_found_after_failure : ∃ s : Redund, s.inUse = ⟨2, 8, [2]⟩ ∧ s.Kept sumOf [] ∧
    envCheckRedund sumOf (envUbiSave sumOf s .done).env1 false
      (envUbiSave sumOf s .done).env2 false = some (envUbiSave sumOf s .done).envValid := by
  have hrun : Reachable (Redund.Started sumOf []) (Redund.Step sumOf [] Redund.Fits) _ :=
    .step (.step (.step (.step (.init (savedAs_started 5 (by decide))) (.save (by decide))) .fail)
      (.edit [2])) (.save (by decide))
  obtain ⟨hkept, hsave, -⟩ := last_save_found sumOf [] _ hrun
  exact ⟨_, by decide, hkept, hsave.mpr (by decide)⟩

/-- A save fails and uses up serial number 255; the next one is stored with 0 beside 254, and the
boot takes the older copy. -/
theorem save_lost_after_failure :
    ∃ s, Reachable (Redund.Started sumOf []) (Redund.Step sumOf [] fun _ => True) s ∧
    ¬ s.Kept sumOf [] := by
  refine ⟨_, .step (.step (.step (.init (savedAs_started 254 (by decide))) .fail) (.edit [2]))
    (.save trivial), ?_⟩
  unfold Redund.Kept
  decide

end MtkBoot.Env
