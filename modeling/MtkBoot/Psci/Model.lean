import Mathlib.Data.Fintype.Basic

/-! The power state of the CPUs under PSCI.  A call is cut into the steps between which another CPU
can act.  What the platform and the Secure Payload Dispatcher decide is part of the action. -/

namespace MtkBoot.Psci

inductive AffState
  | on | off | onPending
  deriving DecidableEq, Repr

inductive Rc
  | success | invalidParams | denied | alreadyOn | onPending | internFail | invalidAddress
  deriving DecidableEq, Repr

/-- The registers of the calling CPU that an entry point is derived from: `SCR_EL3.HCE`,
`SCR_EL3.RW`, and `EE` of `SCTLR_EL1` and `SCTLR_EL2`. -/
structure NsState where
  hce : Bool
  rw : Bool
  eeEl1 : Bool
  eeEl2 : Bool
  deriving DecidableEq, Repr

def NsState.ee (ns : NsState) : Bool := if ns.hce then ns.eeEl2 else ns.eeEl1

/-- `SPSR_64` of EL2 or EL1, and `SPSR_MODE32` of hyp or svc. -/
inductive Spsr
  | aarch64 (el2 : Bool)
  | aarch32 (hyp thumb bigEndian : Bool)
  deriving DecidableEq, Repr

/-- `entry_point_info_t`, as far as PSCI sets it; the arguments after the first are always zero. -/
structure EpInfo where
  bigEndian : Bool
  pc : Nat
  arg0 : Nat
  spsr : Spsr
  deriving DecidableEq, Repr

inductive Store
  | attr (bigEndian : Bool)
  | pc (entrypoint : Nat)
  | zeroArgs
  | arg0 (contextId : Nat)
  | spsr (v : Spsr)
  deriving DecidableEq, Repr

def Store.apply (ep : EpInfo) : Store → EpInfo
  | .attr b => { ep with bigEndian := b }
  | .pc e => { ep with pc := e }
  | .zeroArgs => { ep with arg0 := 0 }
  | .arg0 c => { ep with arg0 := c }
  | .spsr v => { ep with spsr := v }

def nsSpsr (ns : NsState) (entrypoint : Nat) : Spsr :=
  if ns.rw then .aarch64 ns.hce else .aarch32 ns.hce (entrypoint % 2 = 1) ns.ee

/-- `psci_get_ns_ep_info`: its stores in their order, and whether it succeeds.  A Thumb entry point
for AArch64 is found out after the first four. -/
def nsEpStores (ns : NsState) (entrypoint contextId : Nat) : List Store × Bool :=
  let head := [.attr ns.ee, .pc entrypoint, .zeroArgs, .arg0 contextId]
  if ns.rw ∧ entrypoint % 2 = 1 then (head, false)
  else (head ++ [.spsr (nsSpsr ns entrypoint)], true)

def nsEpInfo (ns : NsState) (entrypoint contextId : Nat) : EpInfo where
  bigEndian := ns.ee
  pc := entrypoint
  arg0 := contextId
  spsr := nsSpsr ns entrypoint

theorem nsEpStores_apply {ns : NsState} {entrypoint contextId : Nat} (ep : EpInfo)
    (hok : (nsEpStores ns entrypoint contextId).2) :
    (nsEpStores ns entrypoint contextId).1.foldl Store.apply ep =
    nsEpInfo ns entrypoint contextId := by
  unfold nsEpStores at hok ⊢
  split
  · simp_all
  · rfl

inductive Phase (n : Nat)
  /-- In the non-secure world. -/
  | running
  /-- `psci_cpu_on` fills in the record of the target. -/
  | onFill (target : Fin n) (stores : List Store) (ok : Bool) (r : EpInfo)
  /-- `psci_cpu_on_start` before it takes the lock of the target. -/
  | onLock (target : Fin n) (r : EpInfo)
  /-- `psci_cpu_on_start` while the platform powers the target on. -/
  | onPower (target : Fin n) (r : EpInfo)
  /-- `psci_cpu_suspend`, or `psci_system_suspend`, fills in the record of the caller. -/
  | suspendFill (stores : List Store) (ok sys : Bool) (r : EpInfo)
  /-- `psci_cpu_suspend_start` with a power-down state. -/
  | suspending (r : EpInfo)
  /-- Powered down by a suspend. -/
  | down
  /-- Powered off. -/
  | off
  /-- `psci_warmboot_entrypoint` after it has read the record. -/
  | leaving (r : EpInfo)
  deriving DecidableEq, Repr

structure Cpu (n : Nat) where
  aff : AffState
  ep : EpInfo
  lock : Bool
  phase : Phase n
  deriving DecidableEq, Repr

structure State (n : Nat) where
  cpu : Fin n → Cpu n

variable {n : Nat}

def State.modify (s : State n) (i : Fin n) (f : Cpu n → Cpu n) : State n :=
  ⟨Function.update s.cpu i (f (s.cpu i))⟩

def State.setPhase (s : State n) (i : Fin n) (p : Phase n) : State n :=
  s.modify i fun c => { c with phase := p }

def State.setAff (s : State n) (i : Fin n) (a : AffState) : State n :=
  s.modify i fun c => { c with aff := a }

def State.setLock (s : State n) (i : Fin n) (b : Bool) : State n :=
  s.modify i fun c => { c with lock := b }

def State.store (s : State n) (i : Fin n) (st : Store) : State n :=
  s.modify i fun c => { c with ep := st.apply c.ep }

inductive Event (n : Nat)
  | tau
  /-- A call of the CPU begins to fill in the record of the target. -/
  | fill (i target : Fin n)
  /-- `psci_cpu_on` returns. -/
  | cpuOn (i target : Fin n) (r : EpInfo) (rc : Rc)
  /-- Another call returns. -/
  | returned (i : Fin n) (rc : Rc)
  /-- A power-down suspend has been accepted and the CPU goes down. -/
  | suspended (i : Fin n) (r : EpInfo)
  /-- The CPU leaves `psci_warmboot_entrypoint`. -/
  | entered (i : Fin n) (r : EpInfo)
  deriving DecidableEq, Repr

/-- What `psci_validate_power_state` makes of the parameter of `psci_cpu_suspend`. -/
inductive SuspendReq
  | invalid | standby | powerDown
  deriving DecidableEq, Repr

inductive Action (n : Nat)
  | cpuOn (i : Fin n) (target : Option (Fin n)) (entrypoint contextId : Nat) (ns : NsState)
      (validEntry : Bool)
  | cpuSuspend (i : Fin n) (req : SuspendReq) (entrypoint contextId : Nat) (ns : NsState)
      (validEntry : Bool)
  | systemSuspend (i : Fin n) (entrypoint contextId : Nat) (ns : NsState) (validEntry : Bool)
  | cpuOff (i : Fin n) (denied : Bool)
  | store (i : Fin n) (sysAllowed : Bool)
  | lock (i : Fin n)
  | power (i : Fin n) (ok : Bool)
  | suspendStart (i : Fin n) (abandoned : Option Rc)
  | wake (i : Fin n)
  | warmboot (i : Fin n)
  | leave (i : Fin n)

/-- `psci_cpu_on` up to the first store; an unknown MPIDR is no target. -/
def psciCpuOn (s : State n) (i : Fin n) (target : Option (Fin n)) (entrypoint contextId : Nat)
    (ns : NsState) (validEntry : Bool) : State n × Event n :=
  match target with
  | none => (s, .returned i .invalidParams)
  | some j =>
    let r := nsEpInfo ns entrypoint contextId
    if validEntry then
      let (stores, ok) := nsEpStores ns entrypoint contextId
      (s.setPhase i (.onFill j stores ok r), .fill i j)
    else (s, .cpuOn i j r .invalidAddress)

/-- The part `psci_cpu_suspend` and `psci_system_suspend` share up to the first store. -/
def suspendEntry (s : State n) (i : Fin n) (entrypoint contextId : Nat) (ns : NsState)
    (validEntry sys : Bool) : State n × Event n :=
  if validEntry then
    let (stores, ok) := nsEpStores ns entrypoint contextId
    (s.setPhase i (.suspendFill stores ok sys (nsEpInfo ns entrypoint contextId)), .fill i i)
  else (s, .returned i .invalidAddress)

/-- `psci_cpu_suspend`.  A standby or retention state keeps the context of the CPU. -/
def psciCpuSuspend (s : State n) (i : Fin n) (req : SuspendReq) (entrypoint contextId : Nat)
    (ns : NsState) (validEntry : Bool) : State n × Event n :=
  match req with
  | .invalid => (s, .returned i .invalidParams)
  | .standby => (s, .returned i .success)
  | .powerDown => suspendEntry s i entrypoint contextId ns validEntry false

def psciIsLastOnCpu (s : State n) (i : Fin n) : Bool := ∀ j, j ≠ i → (s.cpu j).aff = .off

def psciSystemSuspend (s : State n) (i : Fin n) (entrypoint contextId : Nat) (ns : NsState)
    (validEntry : Bool) : State n × Event n :=
  if psciIsLastOnCpu s i then suspendEntry s i entrypoint contextId ns validEntry true
  else (s, .returned i .denied)

def psciDoCpuOff (s : State n) (i : Fin n) (denied : Bool) : State n × Event n :=
  if denied then (s, .returned i .denied) else ((s.setAff i .off).setPhase i .off, .tau)

/-- The next store of a CPU that fills in a record, or what follows the last one.  The system
suspend asks the platform for its power level only then. -/
def fillStep (s : State n) (i : Fin n) (sysAllowed : Bool) : Option (State n × Event n) :=
  match (s.cpu i).phase with
  | .onFill j (st :: stores) ok r => some ((s.store j st).setPhase i (.onFill j stores ok r), .tau)
  | .onFill j [] true r => some (s.setPhase i (.onLock j r), .tau)
  | .onFill j [] false r => some (s.setPhase i .running, .cpuOn i j r .invalidAddress)
  | .suspendFill (st :: stores) ok sys r =>
    some ((s.store i st).setPhase i (.suspendFill stores ok sys r), .tau)
  | .suspendFill [] false _ _ => some (s.setPhase i .running, .returned i .invalidAddress)
  | .suspendFill [] true sys r =>
    if sys && !sysAllowed then some (s.setPhase i .running, .returned i .denied)
    else some (s.setPhase i (.suspending r), .tau)
  | _ => none

/-- `psci_cpu_on_start` takes the lock and checks the state of the target. -/
def psciCpuOnStart (s : State n) (i : Fin n) : Option (State n × Event n) :=
  match (s.cpu i).phase with
  | .onLock j r =>
    if (s.cpu j).lock then none
    else
      match (s.cpu j).aff with
      | .on => some (s.setPhase i .running, .cpuOn i j r .alreadyOn)
      | .onPending => some (s.setPhase i .running, .cpuOn i j r .onPending)
      | .off =>
        some (((s.setAff j .onPending).setLock j true).setPhase i (.onPower j r), .tau)
  | _ => none

/-- The rest of `psci_cpu_on_start`, after `pwr_domain_on`. -/
def pwrDomainOn (s : State n) (i : Fin n) (ok : Bool) : Option (State n × Event n) :=
  match (s.cpu i).phase with
  | .onPower j r =>
    if ok then some ((s.setLock j false).setPhase i .running, .cpuOn i j r .success)
    else some (((s.setAff j .off).setLock j false).setPhase i .running, .cpuOn i j r .internFail)
  | _ => none

/-- `psci_cpu_suspend_start` up to the power down; a pending interrupt or a refused state abandons
it. -/
def psciCpuSuspendStart (s : State n) (i : Fin n) (abandoned : Option Rc) :
    Option (State n × Event n) :=
  match (s.cpu i).phase with
  | .suspending r =>
    match abandoned with
    | some rc => some (s.setPhase i .running, .returned i rc)
    | none => some (s.setPhase i .down, .suspended i r)
  | _ => none

/-- `psci_warmboot_entrypoint` up to the read of the record.  A CPU that is being turned on waits
for its lock in `psci_cpu_on_finish`; one that is off panics. -/
def psciWarmbootEntrypoint (s : State n) (i : Fin n) : Option (State n × Event n) :=
  if (s.cpu i).phase = .down ∨ (s.cpu i).phase = .off then
    match (s.cpu i).aff with
    | .off => none
    | .onPending =>
      if (s.cpu i).lock then none else some (s.setPhase i (.leaving (s.cpu i).ep), .tau)
    | .on => some (s.setPhase i (.leaving (s.cpu i).ep), .tau)
  else none

def call (s : State n) (i : Fin n) (result : State n × Event n) : Option (State n × Event n) :=
  if (s.cpu i).phase = .running then some result else none

def step (s : State n) : Action n → Option (State n × Event n)
  | .cpuOn i target e c ns valid => call s i (psciCpuOn s i target e c ns valid)
  | .cpuSuspend i req e c ns valid => call s i (psciCpuSuspend s i req e c ns valid)
  | .systemSuspend i e c ns valid => call s i (psciSystemSuspend s i e c ns valid)
  | .cpuOff i denied => call s i (psciDoCpuOff s i denied)
  | .store i allowed => fillStep s i allowed
  | .lock i => psciCpuOnStart s i
  | .power i ok => pwrDomainOn s i ok
  | .suspendStart i abandoned => psciCpuSuspendStart s i abandoned
  | .wake i =>
    -- The CPU wakes up without having lost its context.
    if (s.cpu i).phase = .down then some (s.setPhase i .running, .returned i .success) else none
  | .warmboot i => psciWarmbootEntrypoint s i
  | .leave i =>
    match (s.cpu i).phase with
    | .leaving r => some ((s.setAff i .on).setPhase i .running, .entered i r)
    | _ => none

structure World (n : Nat) where
  state : State n
  trace : List (Event n)

def Init (w : World n) : Prop :=
  w.trace = [] ∧ ∃ primary : Fin n, ∀ i, (w.state.cpu i).lock = false ∧
    (w.state.cpu i).aff = (if i = primary then .on else .off) ∧
    (w.state.cpu i).phase = if i = primary then .running else .off

/-- A step whose event is allowed in the state before it. -/
def Step (allowed : State n → Event n → Prop) (w w' : World n) : Prop :=
  ∃ a e, step w.state a = some (w'.state, e) ∧ allowed w.state e ∧ w'.trace = e :: w.trace

/-- What the last accepted call that concerns a CPU asked for: its own power-down suspend, or the
`psci_cpu_on` for it that returned success. -/
def lastAccepted (j : Fin n) : List (Event n) → Option EpInfo
  | [] => none
  | .cpuOn _ target r .success :: tr => if target = j then some r else lastAccepted j tr
  | .suspended i r :: tr => if i = j then some r else lastAccepted j tr
  | _ :: tr => lastAccepted j tr

end MtkBoot.Psci
