import MtkBoot.Lib.Strings

/-! The choice between the two image slots at boot: the current slot is tried, with a limit on its
retries, then the other one. -/

namespace MtkBoot.DualBoot

open Lib List

def maxSlots : Nat := 2

/-- `dual_boot.current_slot` and the variables `dual_boot.slot_%u_invalid`. -/
structure Env where
  currentSlot : Option Str
  slotInvalid : Nat → Option Str

structure Config where
  archMediatek : Bool
  enableRetry : Bool
  maxRetryCount : Nat

/-- A call of `boot_slot`: the slot, the environment at that moment, and what it returned. -/
structure Call where
  slot : Nat
  env : Env
  ret : Int

/-- The register keeps the boot count over a reset. -/
structure State where
  env : Env
  reg : Nat
  calls : List Call

/-- What the first and the second call of `boot_slot` return and leave as environment, and whether
setting and saving a variable fails, in the order of the calls. -/
structure Outside where
  boot : Nat → Env → Int × Env
  setFails : Nat → Bool
  saveFails : Nat → Bool

def getCurrentSlot (env : Env) : Nat :=
  match env.currentSlot with
  | none => 0
  | some str =>
    let (slot, rest) := strtoul 10 str
    if rest = str ∨ rest.headD 0 ≠ 0 then 0 else u32 slot

def getNextSlot (env : Env) : Nat := u32 (getCurrentSlot env + 1) % maxSlots

def isSlotInvalid (env : Env) (slot : Nat) : Bool := env.slotInvalid slot = some (ascii "1")

/-- `dual_boot_set_slot_invalid`; whether the environment is saved has no effect here. -/
def setSlotInvalid (fails : Bool) (slot : Nat) (s : State) : State :=
  if fails then s
  else { s with env.slotInvalid := Function.update s.env.slotInvalid slot (some (ascii "1")) }

def s8 (n : Nat) : Int := if n % 256 < 128 then (n % 256 : Nat) else (n % 256 : Nat) - 256

/-- A number that the register holds beside its negation. -/
def checkedPair (val : Nat) : Option Nat :=
  let pos := s8 val
  let neg := s8 (val >>> 8)
  if pos ≥ 0 ∧ neg ≤ 0 ∧ pos + neg = 0 then some pos.toNat else none

def getBootCount (cfg : Config) (reg : Nat) : Option (Nat × Nat) :=
  if cfg.archMediatek then do
    let slot ← checkedPair (reg >>> 16)
    let count ← checkedPair reg
    return (slot, count)
  else none

def setBootCount (cfg : Config) (slot count reg : Nat) : Nat :=
  if ¬cfg.archMediatek ∨ slot > 127 ∨ count > 127 then reg
  else count + (256 - count) % 256 * 2 ^ 8 + slot * 2 ^ 16 + (256 - slot) % 256 * 2 ^ 24

def bootCount (cfg : Config) (reg slot : Nat) : Nat :=
  match getBootCount cfg reg with
  | some (lastSlot, count) => if slot = lastSlot then count else 0
  | none => 0

def maxCount (cfg : Config) : Nat := max 1 cfg.maxRetryCount

def Exhausted (cfg : Config) (reg slot : Nat) : Prop :=
  cfg.enableRetry = true ∧ bootCount cfg reg slot ≥ maxCount cfg

instance (cfg : Config) (reg slot : Nat) : Decidable (Exhausted cfg reg slot) :=
  inferInstanceAs (Decidable (_ ∧ _))

variable (cfg : Config) (out : Outside) (doBoot : Bool)

/-- A call of `boot_slot`, after the boot count was set for it. -/
def bootSlot (n slot count : Nat) (s : State) : Int × State :=
  let reg := if cfg.enableRetry then setBootCount cfg slot count s.reg else s.reg
  let (ret, env) := out.boot n s.env
  (ret, ⟨env, reg, s.calls ++ [⟨slot, s.env, ret⟩]⟩)

/-- The second half of `dual_boot`, with the value that `ret` has so far.  `none` is a panic. -/
def tryNext (n : Nat) (ret : Int) (s : State) : Option Int × State :=
  let slot := getNextSlot s.env
  if isSlotInvalid s.env slot then (some ret, s)
  else if out.setFails 1 ∨ out.saveFails 1 then (none, s)
  else
    let (ret, s) :=
      bootSlot cfg out n slot 1 { s with env.currentSlot := some (ascii (toString slot)) }
    if ret = 0 ∧ ¬doBoot then (some 0, s) else (some ret, setSlotInvalid (out.setFails 2) slot s)

/-- `dual_boot`; `junk` is what the variable `ret` holds before anything is assigned to it. -/
def dualBoot (junk : Int) (s : State) : Option Int × State :=
  let slot := getCurrentSlot s.env
  if isSlotInvalid s.env slot then tryNext cfg out doBoot 0 junk s
  else if Exhausted cfg s.reg slot then
    tryNext cfg out doBoot 0 junk (setSlotInvalid (out.setFails 0) slot s)
  else
    let (ret, s) := bootSlot cfg out 0 slot (bootCount cfg s.reg slot + 1) s
    if ret = 0 ∧ ¬doBoot then (some 0, s)
    else tryNext cfg out doBoot 1 ret (setSlotInvalid (out.setFails 0) slot s)

/-- A call of `boot_slot` for a slot that exists and is not marked invalid. -/
def Call.Ok (c : Call) : Prop := c.slot < maxSlots ∧ isSlotInvalid c.env c.slot = false

/-- The calls are as they should be, and 0 is returned for one that returned 0. -/
structure Selects (r : Option Int × State) : Prop where
  calls : ∀ c ∈ r.2.calls, c.Ok
  success : r.1 = some 0 → ∃ c ∈ r.2.calls, c.ret = 0

variable {cfg out doBoot} {n slot count : Nat} {ret : Int} {s : State}

@[simp] theorem calls_setSlotInvalid (fails : Bool) :
    (setSlotInvalid fails slot s).calls = s.calls := by
  unfold setSlotInvalid
  split <;> rfl

theorem calls_bootSlot : (bootSlot cfg out n slot count s).2.calls =
    s.calls ++ [⟨slot, s.env, (bootSlot cfg out n slot count s).1⟩] := rfl

theorem calls_tryNext : s.calls <+: (tryNext cfg out doBoot n ret s).2.calls := by
  unfold tryNext
  dsimp only
  split
  · exact prefix_refl _
  split
  · exact prefix_refl _
  split
  · exact prefix_append _ _
  · rw [calls_setSlotInvalid]
    exact prefix_append _ _

theorem tryNext_selects (hcalls : ∀ c ∈ s.calls, c.Ok)
    (hret : isSlotInvalid s.env (getNextSlot s.env) → ret = 0 → ∃ c ∈ s.calls, c.ret = 0) :
    Selects (tryNext cfg out doBoot n ret s) := by
  unfold tryNext
  dsimp only
  by_cases hinv : isSlotInvalid s.env (getNextSlot s.env)
  · rw [if_pos hinv]
    exact ⟨hcalls, fun h => hret hinv (Option.some.inj h)⟩
  rw [if_neg hinv]
  by_cases hpanic : out.setFails 1 ∨ out.saveFails 1
  · rw [if_pos hpanic]
    exact ⟨hcalls, fun h => by cases h⟩
  rw [if_neg hpanic]
  generalize hs :
    ({ s with env.currentSlot := some (ascii (toString (getNextSlot s.env))) } : State) = s1
  have hall : ∀ c ∈ (bootSlot cfg out n (getNextSlot s.env) 1 s1).2.calls, c.Ok := by
    subst hs
    intro c hc
    rw [calls_bootSlot] at hc
    rcases mem_append.mp hc with hc | hc
    · exact hcalls c hc
    · rw [mem_singleton.mp hc]
      exact ⟨Nat.mod_lt _ (by decide), Bool.eq_false_iff.mpr hinv⟩
  obtain ⟨c, hc, hcret⟩ : ∃ c ∈ (bootSlot cfg out n (getNextSlot s.env) 1 s1).2.calls, c.ret =
    (bootSlot cfg out n (getNextSlot s.env) 1 s1).1 := ⟨_, mem_append_right _ mem_cons_self, rfl⟩
  split
  · rename_i hok
    exact ⟨hall, fun _ => ⟨c, hc, hcret.trans hok.1⟩⟩
  · refine ⟨by rwa [calls_setSlotInvalid], fun h => ⟨c, ?_, hcret.trans (Option.some.inj h)⟩⟩
    rwa [calls_setSlotInvalid]

/-- Whether the current slot is tried. -/
def TriesCurrent (cfg : Config) (env : Env) (reg : Nat) : Prop :=
  ¬isSlotInvalid env (getCurrentSlot env) ∧ ¬Exhausted cfg reg (getCurrentSlot env)

/-- Marking the current slot says nothing about the next one. -/
theorem isSlotInvalid_next_mark (fails : Bool) :
    let s' := setSlotInvalid fails (getCurrentSlot s.env) s
    isSlotInvalid s'.env (getNextSlot s'.env) = isSlotInvalid s.env (getNextSlot s.env) := by
  have hne : getNextSlot s.env ≠ getCurrentSlot s.env := by
    unfold getNextSlot u32 maxSlots
    omega
  cases fails with
  | true => rfl
  | false => exact congrArg (fun v => decide (v = some (ascii "1"))) (Function.update_of_ne hne _ _)

/-- A current slot that is not tried leaves `ret` unassigned. -/
theorem dualBoot_not_tried (out : Outside) (doBoot : Bool) {env : Env} {reg : Nat}
    (h : ¬TriesCurrent cfg env reg) : ∃ s,
    s.calls = [] ∧ isSlotInvalid s.env (getNextSlot s.env) = isSlotInvalid env (getNextSlot env) ∧
      ∀ junk, dualBoot cfg out doBoot junk ⟨env, reg, []⟩ = tryNext cfg out doBoot 0 junk s := by
  by_cases hinv : isSlotInvalid env (getCurrentSlot env)
  · exact ⟨⟨env, reg, []⟩, rfl, rfl, fun junk => if_pos hinv⟩
  · have hex := not_not.mp fun hex => h ⟨hinv, hex⟩
    exact ⟨setSlotInvalid (out.setFails 0) (getCurrentSlot env) ⟨env, reg, []⟩, calls_setSlotInvalid
      _, isSlotInvalid_next_mark _, fun junk => (if_neg hinv).trans (if_pos hex)⟩

/-- `dual_boot` selects as it should iff the current slot exists when it is tried, and some slot is
tried: else the value it returns was never assigned. -/
theorem dual_boot_selects_iff (cfg : Config) (out : Outside) (doBoot : Bool) (env : Env)
    (reg : Nat) : (∀ junk, Selects (dualBoot cfg out doBoot junk ⟨env, reg, []⟩)) ↔
      (TriesCurrent cfg env reg → getCurrentSlot env < maxSlots) ∧
        (TriesCurrent cfg env reg ∨ ¬isSlotInvalid env (getNextSlot env)) := by
  by_cases hcur : TriesCurrent cfg env reg
  · have hrun : ∀ junk, dualBoot cfg out doBoot junk ⟨env, reg, []⟩ = _ :=
      fun junk => (if_neg hcur.1).trans (if_neg hcur.2)
    simp only [hrun]
    generalize hboot : bootSlot cfg out 0 (getCurrentSlot env) _ ⟨env, reg, []⟩ = b
    have hcalls : b.2.calls = [⟨getCurrentSlot env, env, b.1⟩] := by
      rw [← hboot, calls_bootSlot, nil_append]
    constructor
    · intro h
      have hfirst : (⟨getCurrentSlot env, env, b.1⟩ : Call).Ok := by
        refine (h 0).calls _ ?_
        split
        · rw [hcalls]
          exact mem_cons_self
        · refine calls_tryNext.subset ?_
          rw [calls_setSlotInvalid, hcalls]
          exact mem_cons_self
      exact ⟨fun _ => hfirst.1, .inl hcur⟩
    · rintro ⟨hlt, -⟩ -
      have hok : ∀ c ∈ b.2.calls, c.Ok := by
        rw [hcalls]
        intro c hc
        rw [mem_singleton.mp hc]
        exact ⟨hlt hcur, Bool.eq_false_iff.mpr hcur.1⟩
      have hret : b.1 = 0 → ∃ c ∈ b.2.calls, c.ret = 0 := by
        rw [hcalls]
        exact fun h => ⟨_, mem_cons_self, h⟩
      split
      · rename_i hzero
        exact ⟨hok, fun _ => hret hzero.1⟩
      · exact tryNext_selects (by rwa [calls_setSlotInvalid]) fun _ => by rwa [calls_setSlotInvalid]
  · obtain ⟨s, hcalls, hinv, hrun⟩ := dualBoot_not_tried out doBoot hcur
    simp only [hrun, ← hinv]
    constructor
    · intro h
      refine ⟨fun htry => absurd htry hcur, .inr fun hbad => ?_⟩
      have hzero := (h 0).success
      rw [tryNext, if_pos hbad, hcalls] at hzero
      obtain ⟨c, hc, -⟩ := hzero rfl
      cases hc
    · rintro ⟨-, hnext⟩ junk
      exact tryNext_selects (by simp [hcalls]) fun hbad => absurd hbad (hnext.resolve_left hcur)

/-- A current slot 5 is passed on. -/
theorem slot_five_tried : ¬Selects (dualBoot ⟨true, true, 3⟩
    ⟨fun _ env => (1, env), fun _ => false, fun _ => false⟩ true 0
    ⟨⟨some (ascii "5"), fun _ => none⟩, 0, []⟩) := by
  intro h
  have hslot := h.calls _ mem_cons_self
  exact absurd hslot.1 (by decide)

end MtkBoot.DualBoot
