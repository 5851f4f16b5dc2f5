import MtkBoot.Lib.System
import MtkBoot.Psci.Model

/-! The power domains above the CPUs: the states that CPUs have requested for them, the states they
are in, and the calls that move both.  A call holds the locks of all domains it touches and is one
step.  Local power states are numbers, `RUN` is 0. -/

namespace MtkBoot.Psci.Power

/-- `psci_cpu_pd_nodes` and `psci_non_cpu_pd_nodes`, with the limits of the platform. -/
structure Nodes where
  coreCount : Nat
  maxLvl : Nat
  maxSuspendLvl : Nat
  maxOff : Nat
  cpuParent : Nat → Nat
  parentNode : Nat → Nat
  level : Nat → Nat
  cpuStartIdx : Nat → Nat
  ncpus : Nat → Nat

def Nodes.ancestor (t : Nodes) (cpu lvl : Nat) : Nat := t.parentNode^[lvl - 1] (t.cpuParent cpu)

/-- A power domain tree as `psci_setup` leaves it: the CPUs below a domain are neighbours. -/
structure Tree extends Nodes where
  suspend_le : maxSuspendLvl ≤ maxLvl
  level_ancestor : ∀ cpu lvl, cpu < coreCount → 0 < lvl → lvl ≤ maxLvl →
    level (toNodes.ancestor cpu lvl) = lvl
  below : ∀ cpu lvl c, cpu < coreCount → c < coreCount → 0 < lvl → lvl ≤ maxLvl →
    (toNodes.ancestor c lvl = toNodes.ancestor cpu lvl ↔ cpuStartIdx (toNodes.ancestor cpu lvl) ≤
      c ∧ c < cpuStartIdx (toNodes.ancestor cpu lvl) + ncpus (toNodes.ancestor cpu lvl))

/-- What a CPU does.  A suspended CPU remembers the level it went down to. -/
inductive Phase
  | running
  | standby
  | suspended (powerDown : Bool) (endLvl : Nat)
  | off
  deriving DecidableEq, Repr

structure Cpu where
  localState : Nat
  aff : AffState
  targetPwrlvl : Nat
  phase : Phase
  deriving DecidableEq, Repr

/-- `req lvl cpu` is `psci_req_local_pwr_states[lvl - 1][cpu]`. -/
structure State where
  req : Nat → Nat → Nat
  node : Nat → Nat
  cpu : Nat → Cpu

def State.setReq (s : State) (t : Nodes) (lvl cpu v : Nat) : State :=
  if 0 < lvl ∧ lvl ≤ t.maxLvl ∧ cpu < t.coreCount then
    { s with req := fun l c => if l = lvl ∧ c = cpu then v else s.req l c }
  else s

def State.setNode (s : State) (n v : Nat) : State := { s with node := Function.update s.node n v }

def State.setCpu (s : State) (cpu : Nat) (f : Cpu → Cpu) : State :=
  { s with cpu := Function.update s.cpu cpu (f (s.cpu cpu)) }

def forLevels (f : Nat → State → State) : Nat → State → State
  | 0, s => s
  | k + 1, s => f (k + 1) (forLevels f k s)

def targetPwrState (maxOff : Nat) (states : List Nat) : Nat :=
  states.foldl (fun target temp => if temp < target then temp else target) maxOff

def State.reqStates (s : State) (t : Nodes) (lvl n : Nat) : List Nat :=
  (List.range (t.ncpus n)).map fun i => s.req lvl (t.cpuStartIdx n + i)

/-- What the platform resolves the requests for the domain of the CPU to. -/
def State.target (s : State) (t : Nodes) (cpu lvl : Nat) : Nat :=
  targetPwrState t.maxOff (s.reqStates t lvl (t.ancestor cpu lvl))

/-- The second loop of `psci_do_state_coordination`: the requests are recorded and come to
nothing. -/
def coordinateRest (t : Nodes) (cpu : Nat) : Nat → Nat → State → (Nat → Nat) → State × (Nat → Nat)
  | _, 0, s, info => (s, info)
  | lvl, k + 1, s, info =>
    coordinateRest t cpu (lvl + 1) k (s.setReq t lvl cpu (info lvl)) (Function.update info lvl 0)

/-- The first loop, which ends at a domain that keeps running. -/
def coordinateFrom (t : Nodes) (cpu : Nat) : Nat → Nat → State → (Nat → Nat) → State × (Nat → Nat)
  | _, 0, s, info => (s, info)
  | lvl, k + 1, s, info =>
    let s := s.setReq t lvl cpu (info lvl)
    let info := Function.update info lvl (s.target t cpu lvl)
    if info lvl = 0 then coordinateRest t cpu (lvl + 1) k s info
    else coordinateFrom t cpu (lvl + 1) k s info

def doStateCoordination (t : Nodes) (s : State) (cpu endLvl : Nat) (info : Nat → Nat) :
    State × (Nat → Nat) := coordinateFrom t cpu 1 endLvl s info

/-- `psci_update_req_local_pwr_states`: levels behind the last one get its state, too. -/
def updateReq (t : Nodes) (s : State) (cpu endLvl : Nat) (info : Nat → Nat) : State :=
  forLevels (fun lvl s => s.setReq t lvl cpu (if lvl ≤ endLvl then info lvl else info endLvl))
    t.maxSuspendLvl s

def restoreReq (t : Nodes) (s : State) (cpu : Nat) (prev : Nat → Nat) : State :=
  forLevels (fun lvl s => s.setReq t lvl cpu (prev lvl)) t.maxSuspendLvl s

def isLastCpuToIdle (t : Nodes) (s : State) (cpu lvl : Nat) : Bool :=
  lvl = 0 || (List.range (t.ncpus (t.ancestor cpu lvl))).all fun i =>
    t.cpuStartIdx (t.ancestor cpu lvl) + i = cpu ||
      (s.cpu (t.cpuStartIdx (t.ancestor cpu lvl) + i)).localState ≠ 0

/-- `psci_validate_state_coordination`, and whether it accepts. -/
def validateStateCoordination (t : Nodes) (s : State) (cpu endLvl : Nat) (info : Nat → Nat)
    (lastAt : Nat) : State × Bool :=
  let s' := updateReq t s cpu endLvl info
  if ((List.range endLvl).all fun i => info (i + 1) = s'.target t cpu (i + 1)) &&
      isLastCpuToIdle t s' cpu lastAt then (s', true)
  else (restoreReq t s' cpu fun lvl => s.req lvl cpu, false)

def setTargetLocalPwrStates (t : Nodes) (s : State) (cpu endLvl : Nat) (info : Nat → Nat) : State :=
  forLevels (fun lvl s => s.setNode (t.ancestor cpu lvl) (info lvl)) endLvl
    (s.setCpu cpu fun c => { c with localState := info 0 })

def setPwrDomainsToRun (t : Nodes) (s : State) (cpu endLvl : Nat) : State :=
  (forLevels (fun lvl s => (s.setNode (t.ancestor cpu lvl) 0).setReq t lvl cpu 0) endLvl s).setCpu
    cpu fun c => { c with aff := .on, localState := 0 }

inductive Mode
  | platCoord | osInit
  deriving DecidableEq, Repr

/-- What a suspend asks for: the state of each level, the level at which the caller takes itself for
the last CPU, and the type bit. -/
structure Request where
  info : Nat → Nat
  lastAt : Nat
  powerDown : Bool

def findTargetSuspendLvl (t : Nodes) (info : Nat → Nat) : Option Nat :=
  (List.range (t.maxLvl + 1)).reverse.find? fun lvl => info lvl ≠ 0

/-- `psci_cpu_suspend_start` up to the point where the CPU sleeps. -/
def suspendStart (t : Nodes) (mode : Mode) (s : State) (cpu endLvl : Nat) (r : Request)
    (isr refuse : Bool) : State :=
  if isr then s
  else
    let coordinated := match mode with
      | .osInit =>
        let v := validateStateCoordination t s cpu endLvl r.info r.lastAt
        (v.1, r.info, v.2)
      | .platCoord =>
        let c := doStateCoordination t s cpu endLvl r.info
        (c.1, c.2, true)
    if coordinated.2.2 = false then coordinated.1
    else if refuse then setPwrDomainsToRun t coordinated.1 cpu t.maxSuspendLvl
    else
      let s := setTargetLocalPwrStates t coordinated.1 cpu endLvl coordinated.2.1
      s.setCpu cpu fun c =>
        { c with
          targetPwrlvl := if r.powerDown then (if mode = .osInit then t.maxSuspendLvl else endLvl)
            else c.targetPwrlvl
          phase := .suspended r.powerDown endLvl }

/-- `psci_cpu_suspend` and `psci_system_suspend` after the checks of their arguments; `none` is a
panic. -/
def cpuSuspend (t : Nodes) (mode : Mode) (s : State) (cpu : Nat) (r : Request) (isr refuse : Bool) :
    Option State :=
  (findTargetSuspendLvl t r.info).map fun lvl =>
    if r.powerDown = false ∧ lvl = 0 then
      s.setCpu cpu fun c => { c with localState := r.info 0, phase := .standby }
    else suspendStart t mode s cpu lvl r isr refuse

/-- The rest of `psci_cpu_suspend_start`, after a standby or when the power-down is abandoned. -/
def suspendReturn (t : Nodes) (s : State) (cpu endLvl : Nat) : State :=
  (setPwrDomainsToRun t (s.setCpu cpu fun c => { c with targetPwrlvl := t.maxLvl })
    cpu endLvl).setCpu cpu fun c => { c with phase := .running }

def warmboot (t : Nodes) (s : State) (cpu : Nat) : State :=
  let endLvl := (s.cpu cpu).targetPwrlvl
  let s := if (s.cpu cpu).aff = .onPending then s
    else s.setCpu cpu fun c => { c with targetPwrlvl := t.maxLvl }
  (setPwrDomainsToRun t s cpu endLvl).setCpu cpu fun c => { c with phase := .running }

def cpuOff (t : Nodes) (s : State) (cpu : Nat) : State :=
  let c := doStateCoordination t s cpu t.maxLvl fun _ => t.maxOff
  (setTargetLocalPwrStates t c.1 cpu t.maxLvl c.2).setCpu cpu fun c =>
    { c with aff := .off, phase := .off }

inductive Action
  | suspend (cpu : Nat) (r : Request) (isr refuse : Bool)
  /-- The interrupt of a CPU in standby, or a power-down that is abandoned. -/
  | wake (cpu : Nat)
  /-- The reset of a CPU that is powered down or has been turned on. -/
  | warmboot (cpu : Nat)
  | off (cpu : Nat)
  /-- `CPU_ON` for the CPU, and its failure. -/
  | on (cpu : Nat)
  | onFailed (cpu : Nat)

def act (t : Nodes) (mode : Mode) (s : State) : Action → Option State
  | .suspend cpu r isr refuse =>
    if cpu < t.coreCount ∧ (s.cpu cpu).phase = .running then cpuSuspend t mode s cpu r isr refuse
    else none
  | .wake cpu =>
    if cpu < t.coreCount then
      match (s.cpu cpu).phase with
      | .standby => some (s.setCpu cpu fun c => { c with localState := 0, phase := .running })
      | .suspended _ endLvl => some (suspendReturn t s cpu endLvl)
      | _ => none
    else none
  | .warmboot cpu =>
    if cpu < t.coreCount then
      match (s.cpu cpu).phase, (s.cpu cpu).aff with
      | .off, .onPending => some (warmboot t s cpu)
      | .suspended true _, _ => some (warmboot t s cpu)
      | _, _ => none
    else none
  | .off cpu =>
    if cpu < t.coreCount ∧ (s.cpu cpu).phase = .running then some (cpuOff t s cpu) else none
  | .on cpu =>
    if cpu < t.coreCount ∧ (s.cpu cpu).phase = .off ∧ (s.cpu cpu).aff = .off then
      some (s.setCpu cpu fun c => { c with aff := .onPending }) else none
  | .onFailed cpu =>
    if cpu < t.coreCount ∧ (s.cpu cpu).phase = .off ∧ (s.cpu cpu).aff = .onPending then
      some (s.setCpu cpu fun c => { c with aff := .off }) else none

def setup (t : Nodes) (boot : Nat) : State :=
  (setPwrDomainsToRun t
    { req := fun _ _ => t.maxOff, node := fun _ => t.maxOff, cpu := fun _ =>
      { localState := t.maxOff, aff := .off, targetPwrlvl := t.maxLvl, phase := .off } }
    boot t.maxLvl).setCpu boot fun c => { c with phase := .running }

end MtkBoot.Psci.Power
