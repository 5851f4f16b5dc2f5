import Mathlib.Tactic.IntervalCases
import MtkBoot.Psci.Domain

/-! Parents of running CPUs stay on in platform-coordinated mode.  The way up takes back exactly the
requests of the way down, and a domain is never deeper than what each CPU below it has requested. -/

namespace MtkBoot.Psci.Power

open Lib

variable {a : Action} {boot c cpu endLvl lvl : Nat} {d info : Nat → Nat} {s' s1 : State}
  {f : Nat → State → State}

section Setters

variable (s : State) (t : Nodes) (lvl cpu v n : Nat) (f : Cpu → Cpu)

@[simp] theorem State.setReq_node : (s.setReq t lvl cpu v).node = s.node := by
  unfold setReq
  split <;> rfl

@[simp] theorem State.setReq_cpu : (s.setReq t lvl cpu v).cpu = s.cpu := by
  unfold setReq
  split <;> rfl

@[simp] theorem State.setNode_req : (s.setNode n v).req = s.req := rfl

@[simp] theorem State.setCpu_self : (s.setCpu cpu f).cpu cpu = f (s.cpu cpu) := by simp [setCpu]

theorem State.setCpu_other (h : c ≠ cpu) : (s.setCpu cpu f).cpu c = s.cpu c := by simp [setCpu, h]

variable {s t lvl cpu v}

theorem State.setReq_req (h0 : 0 < lvl) (hl : lvl ≤ t.maxLvl) (hc : cpu < t.coreCount) (l c : Nat) :
    (s.setReq t lvl cpu v).req l c = if l = lvl ∧ c = cpu then v else s.req l c := by
  rw [setReq, if_pos ⟨h0, hl, hc⟩]

end Setters

theorem targetPwrState_le {maxOff x : Nat} {states : List Nat} (h : x ∈ states) :
    targetPwrState maxOff states ≤ x := by
  have hle (l : List Nat) (a : Nat) :
      l.foldl (fun target temp => if temp < target then temp else target) a ≤ a ∧
        ∀ x ∈ l, l.foldl (fun target temp => if temp < target then temp else target) a ≤ x := by
    induction l generalizing a with
    | nil => exact ⟨Nat.le_refl a, nofun⟩
    | cons y l ih =>
      obtain ⟨hstart, hrest⟩ := ih (if y < a then y else a)
      have hmin : (if y < a then y else a) ≤ a ∧ (if y < a then y else a) ≤ y := by split <;> omega
      exact ⟨hstart.trans hmin.1, List.forall_mem_cons.mpr ⟨hstart.trans hmin.2, hrest⟩⟩
  exact (hle states maxOff).2 x h

theorem State.target_le (s : State) (t : Tree) (hcpu : cpu < t.coreCount) (hc : c < t.coreCount)
    (h0 : 0 < lvl) (hl : lvl ≤ t.maxLvl) (hsame : t.ancestor c lvl = t.ancestor cpu lvl) :
    s.target t.toNodes cpu lvl ≤ s.req lvl c := by
  obtain ⟨hstart, hstop⟩ := (t.below cpu lvl c hcpu hc h0 hl).mp hsame
  apply targetPwrState_le
  refine List.mem_map.mpr ⟨c - t.cpuStartIdx (t.ancestor cpu lvl), List.mem_range.mpr (by omega),
    ?_⟩
  rw [Nat.add_sub_cancel' hstart]

/-- What coordination leaves of the requests, the domains and the CPUs. -/
structure Recorded (s s' : State) (cpu lvl k : Nat) (info : Nat → Nat) : Prop where
  req : ∀ l c, s'.req l c = if c = cpu ∧ lvl ≤ l ∧ l < lvl + k then info l else s.req l c
  node : s'.node = s.node
  cpu : s'.cpu = s.cpu

section Loops

variable {t : Nodes} {cpu : Nat}

theorem Recorded.cons {s : State} {k v : Nat} (h0 : 0 < lvl)
    (hl : lvl ≤ t.maxLvl) (hcpu : cpu < t.coreCount) (hs1 : s.setReq t lvl cpu (info lvl) = s1)
    (h : Recorded s1 s' cpu (lvl + 1) k (Function.update info lvl v)) :
    Recorded s s' cpu lvl (k + 1) info := by
  subst hs1
  refine ⟨fun l c => ?_, h.node.trans (by simp), h.cpu.trans (by simp)⟩
  rw [h.req, State.setReq_req h0 hl hcpu]
  by_cases hlast : l = lvl
  · subst hlast
    by_cases hc : c = cpu
    · rw [if_neg (by omega), if_pos ⟨rfl, hc⟩, if_pos ⟨hc, by omega, by omega⟩]
    · rw [if_neg (by omega), if_neg (by omega), if_neg (by omega)]
  · rw [Function.update_of_ne hlast, if_neg (by omega : ¬(l = lvl ∧ c = cpu))]
    exact if_congr (by omega) rfl rfl

theorem Recorded.nil (s : State) (cpu lvl : Nat) (info : Nat → Nat) : Recorded s s cpu lvl 0 info :=
  ⟨fun l c => by rw [if_neg (by omega)], rfl, rfl⟩

theorem coordinateRest_spec (hcpu : cpu < t.coreCount) (k : Nat) :
    ∀ (lvl : Nat) (s : State) (info : Nat → Nat), 0 < lvl → lvl + k ≤ t.maxLvl + 1 →
      Recorded s (coordinateRest t cpu lvl k s info).1 cpu lvl k info ∧
      ∀ l, (coordinateRest t cpu lvl k s info).2 l = if lvl ≤ l ∧ l < lvl + k then 0
      else info l := by
  induction k with
  | zero =>
    intro lvl s info _ _
    refine ⟨.nil s cpu lvl info, fun l => ?_⟩
    rw [if_neg (by omega)]
    rfl
  | succ k ih =>
    intro lvl s info h0 hl
    obtain ⟨hrec, hinfo⟩ := ih (lvl + 1) (s.setReq t lvl cpu (info lvl))
      (Function.update info lvl 0) (by omega) (by omega)
    refine ⟨hrec.cons h0 (by omega) hcpu rfl, fun l => ?_⟩
    rw [coordinateRest, hinfo]
    by_cases hlast : l = lvl
    · subst hlast
      rw [if_neg (by omega), if_pos (by omega), Function.update_self]
    · rw [Function.update_of_ne hlast]
      exact if_congr (by omega) rfl rfl

/-- Level by level the result is no deeper than what the platform resolves the requests to. -/
theorem coordinateFrom_spec (hcpu : cpu < t.coreCount) (k : Nat) :
    ∀ (lvl : Nat) (s : State) (info : Nat → Nat), 0 < lvl → lvl + k ≤ t.maxLvl + 1 →
      Recorded s (coordinateFrom t cpu lvl k s info).1 cpu lvl k info ∧
      (∀ l, lvl ≤ l → l < lvl + k → (coordinateFrom t cpu lvl k s info).2 l ≤
        (coordinateFrom t cpu lvl k s info).1.target t cpu l) ∧
      ∀ l < lvl, (coordinateFrom t cpu lvl k s info).2 l = info l := by
  induction k with
  | zero =>
    intro lvl s info _ _
    exact ⟨.nil s cpu lvl info, fun l hl hk => by omega, fun _ _ => rfl⟩
  | succ k ih =>
    intro lvl s info h0 hl
    rw [coordinateFrom]
    generalize hs1 : s.setReq t lvl cpu (info lvl) = s1
    -- the requests for this level do not change any more
    have hkeep : ∀ {s' : State} {info' : Nat → Nat}, Recorded s1 s' cpu (lvl + 1) k info' →
        s'.target t cpu lvl = s1.target t cpu lvl := by
      intro s' info' hrec
      have hreq : s'.req lvl = s1.req lvl := funext fun c => by rw [hrec.req, if_neg (by omega)]
      simp only [State.target, State.reqStates, hreq]
    split
    · rename_i hrun
      obtain ⟨hrec, hinfo⟩ := coordinateRest_spec hcpu k (lvl + 1) s1
        (Function.update info lvl (s1.target t cpu lvl)) (by omega) (by omega)
      refine ⟨hrec.cons h0 (by omega) hcpu hs1, fun l hle hlt => ?_, fun l hlt => ?_⟩
      · rw [hinfo]
        by_cases hlast : l = lvl
        · subst hlast
          rw [if_neg (by omega), hrun]
          exact Nat.zero_le _
        · rw [if_pos (by omega)]
          exact Nat.zero_le _
      · rw [hinfo, if_neg (by omega), Function.update_of_ne (by omega)]
    · obtain ⟨hrec, hle', hinfo⟩ := ih (lvl + 1) s1 (Function.update info lvl (s1.target t cpu lvl))
        (by omega) (by omega)
      refine ⟨hrec.cons h0 (by omega) hcpu hs1, fun l hle hlt => ?_, fun l hlt => ?_⟩
      · by_cases hlast : l = lvl
        · subst hlast
          rw [hinfo _ (by omega), hkeep hrec, Function.update_self]
        · exact hle' l (by omega) (by omega)
      · rw [hinfo _ (by omega), Function.update_of_ne (by omega)]

end Loops

theorem doStateCoordination_spec (t : Tree)
    (s : State) (info : Nat → Nat) (hcpu : cpu < t.coreCount) (hend : endLvl ≤ t.maxLvl) :
    Recorded s (doStateCoordination t.toNodes s cpu endLvl info).1 cpu 1 endLvl info ∧
    ∀ c lvl, c < t.coreCount → 0 < lvl → lvl ≤ endLvl → t.ancestor c lvl = t.ancestor cpu lvl →
      (doStateCoordination t.toNodes s cpu endLvl info).2 lvl ≤
        (doStateCoordination t.toNodes s cpu endLvl info).1.req lvl c := by
  obtain ⟨hrec, hle, -⟩ := coordinateFrom_spec hcpu endLvl 1 s info (by omega) (by omega)
  refine ⟨hrec, fun c lvl hc h0 hl hsame => ?_⟩
  exact (hle lvl h0 (by omega)).trans (State.target_le _ t hcpu hc h0 (by omega) hsame)

/-! ### The domains of a CPU -/

section Domains

variable (t : Tree) (s : State) {cpu : Nat} (info : Nat → Nat)

theorem forLevels_node (v : Nat → Nat)
    (hf : ∀ lvl s, (f lvl s).node = Function.update s.node (t.ancestor cpu lvl) (v lvl))
    (hcpu : cpu < t.coreCount) (k : Nat) (hk : k ≤ t.maxLvl) (hc : c < t.coreCount)
    (h0 : 0 < lvl) (hl : lvl ≤ t.maxLvl) : (forLevels f k s).node (t.ancestor c lvl) = if lvl ≤ k ∧
      t.ancestor c lvl = t.ancestor cpu lvl then v lvl else s.node (t.ancestor c lvl) := by
  induction k with
  | zero => rw [if_neg (by omega), forLevels]
  | succ k ih =>
    rw [forLevels, hf]
    by_cases hlast : t.ancestor c lvl = t.ancestor cpu (k + 1)
    · obtain rfl : lvl = k + 1 := by
        rw [← t.level_ancestor c lvl hc h0 hl, hlast,
          t.level_ancestor cpu (k + 1) hcpu (by omega) hk]
      rw [hlast, Function.update_self, if_pos ⟨le_rfl, rfl⟩]
    rw [Function.update_of_ne hlast, ih (by omega)]
    by_cases hin : lvl ≤ k ∧ t.ancestor c lvl = t.ancestor cpu lvl
    · rw [if_pos hin, if_pos ⟨by omega, hin.2⟩]
    · rw [if_neg hin, if_neg fun h => ?_]
      have hk' : lvl = k + 1 := by
        by_contra hne
        exact hin ⟨by omega, h.2⟩
      exact hlast (hk' ▸ h.2)

theorem forLevels_req {t : Nodes}
    {s : State} (v : Nat → Nat) (hf : ∀ lvl s l c, 0 < lvl → lvl ≤ t.maxLvl →
      (f lvl s).req l c = if l = lvl ∧ c = cpu then v lvl else s.req l c)
    (k : Nat) (hk : k ≤ t.maxLvl) (l c : Nat) : (forLevels f k s).req l c = if c = cpu ∧ 0 < l ∧
    l ≤ k then v l else s.req l c := by
  induction k with
  | zero => rw [if_neg (by omega), forLevels]
  | succ k ih =>
    rw [forLevels, hf _ _ _ _ (by omega) hk, ih (by omega)]
    by_cases hlast : l = k + 1 ∧ c = cpu
    · rw [if_pos hlast, if_pos ⟨hlast.2, by omega, by omega⟩, hlast.1]
    · rw [if_neg hlast]
      exact if_congr (by omega) rfl rfl

theorem forLevels_same {α : Type} (g : State → α) (hf : ∀ lvl s, g (f lvl s) = g s) (k : Nat)
    (s : State) : g (forLevels f k s) = g s := by
  induction k with
  | zero => rfl
  | succ k ih => rw [forLevels, hf, ih]

theorem setTargetLocalPwrStates_req (t : Nodes) :
    (setTargetLocalPwrStates t s cpu endLvl info).req = s.req := by
  rw [setTargetLocalPwrStates, forLevels_same State.req]
  · rfl
  · exact fun _ _ => rfl

theorem setTargetLocalPwrStates_cpu (t : Nodes) (cpu endLvl : Nat) :
    (setTargetLocalPwrStates t s cpu endLvl info).cpu =
      (s.setCpu cpu fun c => { c with localState := info 0 }).cpu := by
  rw [setTargetLocalPwrStates, forLevels_same State.cpu]
  exact fun _ _ => rfl

theorem setPwrDomainsToRun_req {t : Nodes} (hcpu : cpu < t.coreCount) (hend : endLvl ≤ t.maxLvl)
    (lvl c : Nat) : (setPwrDomainsToRun t s cpu endLvl).req lvl c =
      if c = cpu ∧ 0 < lvl ∧ lvl ≤ endLvl then 0 else s.req lvl c := by
  refine forLevels_req (fun _ => 0) (fun lvl s l c h0 hl => ?_) endLvl hend lvl c
  rw [State.setReq_req h0 hl hcpu, State.setNode_req]

theorem setPwrDomainsToRun_cpu (t : Nodes) (cpu endLvl : Nat) :
    (setPwrDomainsToRun t s cpu endLvl).cpu =
    (s.setCpu cpu fun c => { c with aff := .on, localState := 0 }).cpu := by
  have hloop := forLevels_same State.cpu (f := fun lvl s =>
    (s.setNode (t.ancestor cpu lvl) 0).setReq t lvl cpu 0) (fun _ _ => State.setReq_cpu ..) endLvl s
  rw [setPwrDomainsToRun, State.setCpu, State.setCpu, hloop]

end Domains

/-! ### The invariant -/

/-- No domain is deeper than a CPU below it has requested, and a CPU has no requests for levels
above `d`. -/
structure Requests (t : Tree) (s : State) (d : Nat → Nat) : Prop where
  node_le : ∀ c lvl, c < t.coreCount → 0 < lvl → lvl ≤ t.maxLvl →
    s.node (t.ancestor c lvl) ≤ s.req lvl c
  clear : ∀ c lvl, c < t.coreCount → d c < lvl → lvl ≤ t.maxLvl → s.req lvl c = 0

namespace Requests

variable {t : Tree} {s : State} {cpu : Nat}

section

variable (h : Requests t s d)
include h

theorem congr {d' : Nat → Nat} (hnode : s'.node = s.node) (hreq : s'.req = s.req)
    (hd : ∀ c, d c ≤ d' c) : Requests t s' d' := by
  constructor
  · intro c lvl hc h0 hl
    rw [hnode, hreq]
    exact h.node_le c lvl hc h0 hl
  · intro c lvl hc hlt hl
    rw [hreq]
    exact h.clear c lvl hc (lt_of_le_of_lt (hd c) hlt) hl

theorem record (hcpu : cpu < t.coreCount) (hd : d cpu = 0) (hnode : s'.node = s.node)
    (hother : ∀ l c, c ≠ cpu → s'.req l c = s.req l c)
    (habove : ∀ l, endLvl < l → s'.req l cpu = s.req l cpu) :
    Requests t s' (Function.update d cpu endLvl) := by
  constructor
  · intro c lvl hc h0 hl
    rw [hnode]
    by_cases heq : c = cpu
    · subst heq
      have hrun := h.node_le c lvl hc h0 hl
      rw [h.clear c lvl hc (by omega) hl] at hrun
      omega
    · rw [hother lvl c heq]
      exact h.node_le c lvl hc h0 hl
  · intro c lvl hc hlt hl
    by_cases heq : c = cpu
    · subst heq
      rw [Function.update_self] at hlt
      rw [habove lvl hlt]
      exact h.clear c lvl hc (by omega) hl
    · rw [Function.update_of_ne heq] at hlt
      rw [hother lvl c heq]
      exact h.clear c lvl hc hlt hl

theorem lower (hreq : s'.req = s.req)
    (hnode : ∀ c lvl, c < t.coreCount → 0 < lvl → lvl ≤ t.maxLvl → s'.node (t.ancestor c lvl) =
      if lvl ≤ endLvl ∧ t.ancestor c lvl = t.ancestor cpu lvl then info lvl
      else s.node (t.ancestor c lvl)) (hle : ∀ c lvl, c < t.coreCount → 0 < lvl → lvl ≤ endLvl →
      t.ancestor c lvl = t.ancestor cpu lvl → info lvl ≤ s.req lvl c) : Requests t s' d := by
  constructor
  · intro c lvl hc h0 hl
    rw [hnode c lvl hc h0 hl, hreq]
    split
    · rename_i hin
      exact hle c lvl hc h0 hin.1 hin.2
    · exact h.node_le c lvl hc h0 hl
  · intro c lvl hc hlt hl
    rw [hreq]
    exact h.clear c lvl hc hlt hl

theorem raise (hcpu : cpu < t.coreCount) (hend : endLvl ≤ t.maxLvl) (hd : d cpu ≤ endLvl) :
    Requests t (setPwrDomainsToRun t.toNodes s cpu endLvl) (Function.update d cpu 0) := by
  constructor
  · intro c lvl hc h0 hl
    refine (forLevels_node t s (fun _ => 0) (fun _ _ => by simp [State.setNode])
      hcpu endLvl hend hc h0 hl).trans_le ?_
    rw [setPwrDomainsToRun_req s hcpu hend]
    split
    · exact Nat.zero_le _
    · rename_i hout
      rw [if_neg fun hin => hout ⟨hin.2.2, by rw [hin.1]⟩]
      exact h.node_le c lvl hc h0 hl
  · intro c lvl hc hlt hl
    rw [setPwrDomainsToRun_req s hcpu hend]
    split
    · rfl
    · refine h.clear c lvl hc ?_ hl
      by_cases heq : c = cpu
      · subst heq
        rw [Function.update_self] at hlt
        omega
      · rwa [Function.update_of_ne heq] at hlt

end

end Requests

/-- How far up the requests of a CPU go.  In OS-initiated mode a suspend makes requests for all
levels that `CPU_SUSPEND` applies to. -/
def depth (t : Nodes) (mode : Mode) : Phase → Nat
  | .running | .standby => 0
  | .suspended _ endLvl => if mode = .osInit then t.maxSuspendLvl else endLvl
  | .off => t.maxLvl

def resetLvl (t : Nodes) (mode : Mode) : Phase → Nat
  | .suspended true endLvl => if mode = .osInit then t.maxSuspendLvl else endLvl
  | _ => t.maxLvl

structure Coordinated (t : Tree) (mode : Mode) (s : State) : Prop where
  requests : Requests t s fun c => depth t.toNodes mode (s.cpu c).phase
  depth_le : ∀ c, depth t.toNodes mode (s.cpu c).phase ≤ t.maxLvl
  end_le : ∀ c b endLvl, (s.cpu c).phase = .suspended b endLvl → endLvl ≤ t.maxLvl
  target : ∀ c, (s.cpu c).targetPwrlvl = resetLvl t.toNodes mode (s.cpu c).phase
  aff : ∀ c, (s.cpu c).phase ≠ .off → (s.cpu c).aff = .on

structure Sound (t : Tree) (mode : Mode) (c : Cpu) : Prop where
  depth_le : depth t.toNodes mode c.phase ≤ t.maxLvl
  end_le : ∀ b endLvl, c.phase = .suspended b endLvl → endLvl ≤ t.maxLvl
  target : c.targetPwrlvl = resetLvl t.toNodes mode c.phase
  aff : c.phase ≠ .off → c.aff = .on

section Actions

variable {t : Tree} {mode : Mode} {s : State} {cpu e : Nat} {info1 info2 : Nat → Nat}

variable (h : Coordinated t mode s)
include h

theorem Coordinated.sound (c : Nat) : Sound t mode (s.cpu c) :=
  ⟨h.depth_le c, h.end_le c, h.target c, h.aff c⟩

theorem Coordinated.of_cpu (cpu : Nat) (hother : ∀ c ≠ cpu, s'.cpu c = s.cpu c)
    (hreq : Requests t s' (Function.update (fun c => depth t.toNodes mode (s.cpu c).phase) cpu
      (depth t.toNodes mode (s'.cpu cpu).phase))) (hsound : Sound t mode (s'.cpu cpu)) :
    Coordinated t mode s' := by
  have hall : ∀ c, Sound t mode (s'.cpu c) ∧ depth t.toNodes mode (s'.cpu c).phase = Function.update
      (fun c => depth t.toNodes mode (s.cpu c).phase) cpu (depth t.toNodes mode (s'.cpu cpu).phase)
      c := by
    intro c
    by_cases heq : c = cpu
    · rw [heq, Function.update_self]
      exact ⟨hsound, rfl⟩
    · rw [Function.update_of_ne heq, hother c heq]
      exact ⟨h.sound c, rfl⟩
  exact ⟨hreq.congr rfl rfl fun c => le_of_eq (hall c).2.symm, fun c => (hall c).1.depth_le,
    fun c => (hall c).1.end_le, fun c => (hall c).1.target, fun c => (hall c).1.aff⟩

theorem Coordinated.setCpu (f : Cpu → Cpu)
    (hdepth : depth t.toNodes mode (f (s.cpu cpu)).phase = depth t.toNodes mode (s.cpu cpu).phase)
    (hsound : Sound t mode (f (s.cpu cpu))) : Coordinated t mode (s.setCpu cpu f) := by
  refine h.of_cpu cpu (fun c hne => s.setCpu_other _ _ hne) ?_ ?_
  · rw [State.setCpu_self, hdepth]
    exact h.requests.congr rfl rfl (le_update_self_iff.mpr le_rfl)
  · rw [State.setCpu_self]
    exact hsound

theorem Coordinated.recorded (hcpu : cpu < t.coreCount)
    (hrun : (s.cpu cpu).phase = .running) (hrec : Recorded s s1 cpu 1 e info1) :
    Requests t s1 (Function.update (fun c => depth t.toNodes mode (s.cpu c).phase) cpu e) := by
  refine h.requests.record hcpu ?_ hrec.node (fun l c hne => ?_) fun l hlt => ?_
  · rw [hrun]
    rfl
  · rw [hrec.req, if_neg fun hin => hne hin.1]
  · rw [hrec.req, if_neg (by omega)]

theorem Coordinated.down (hcpu : cpu < t.coreCount) (hend : endLvl ≤ t.maxLvl)
    (hrun : (s.cpu cpu).phase = .running) (hrec : Recorded s s1 cpu 1 e info1)
    (hle : ∀ c lvl, c < t.coreCount →
      0 < lvl → lvl ≤ endLvl → t.ancestor c lvl = t.ancestor cpu lvl → info2 lvl ≤ s1.req lvl c)
    (f : Cpu → Cpu) (hf : ∀ c : Cpu, c.targetPwrlvl = t.maxLvl → c.aff = .on →
      depth t.toNodes mode (f c).phase = e ∧ Sound t mode (f c)) :
    Coordinated t mode ((setTargetLocalPwrStates t.toNodes s1 cpu endLvl info2).setCpu cpu f) := by
  have hreq := (h.recorded hcpu hrun hrec).lower (setTargetLocalPwrStates_req s1 info2 t.toNodes)
    (fun x lvl hx h0 hl => forLevels_node t _ info2 (fun _ _ => rfl) hcpu endLvl hend hx h0 hl) hle
  have hdata := setTargetLocalPwrStates_cpu s1 info2 t.toNodes cpu endLvl
  generalize setTargetLocalPwrStates t.toNodes s1 cpu endLvl info2 = s2 at hreq hdata ⊢
  have hlvl : (s2.cpu cpu).targetPwrlvl = t.maxLvl := by
    rw [hdata, State.setCpu_self, hrec.cpu, h.target, hrun]
    rfl
  have hon : (s2.cpu cpu).aff = .on := by
    rw [hdata, State.setCpu_self, hrec.cpu]
    exact h.aff cpu (by simp [hrun])
  obtain ⟨hdepth, hsound⟩ := hf _ hlvl hon
  refine h.of_cpu cpu (fun x hne => ?_) ?_ ?_
  · rw [State.setCpu_other _ _ _ hne, hdata, State.setCpu_other _ _ _ hne, hrec.cpu]
  · rw [State.setCpu_self, hdepth]
    exact hreq.congr rfl rfl fun _ => le_rfl
  · rw [State.setCpu_self]
    exact hsound

omit h in
theorem Sound.running {c : Cpu} (htarget : c.targetPwrlvl = t.maxLvl) (haff : c.aff = .on)
    (hrun : c.phase = .running) : Sound t mode c := by
  obtain ⟨localState, aff, targetPwrlvl, phase⟩ := c
  obtain rfl := hrun
  exact ⟨Nat.zero_le _, fun _ _ h => (by cases h), htarget, fun _ => haff⟩

theorem Coordinated.up (hcpu : cpu < t.coreCount) (hend : endLvl ≤ t.maxLvl)
    (hd : depth t.toNodes mode (s.cpu cpu).phase ≤ endLvl) (f : Cpu → Cpu)
    (hs1 : s1 = s.setCpu cpu f) (hf : (f (s.cpu cpu)).targetPwrlvl = t.maxLvl) :
    Coordinated t mode ((setPwrDomainsToRun t.toNodes s1 cpu endLvl).setCpu cpu
      fun c => { c with phase := .running }) := by
  subst hs1
  have hreq : Requests t (s.setCpu cpu f) fun c => depth t.toNodes mode (s.cpu c).phase :=
    h.requests.congr rfl rfl fun _ => le_rfl
  have hraise := hreq.raise hcpu hend hd
  have hdata := setPwrDomainsToRun_cpu (s.setCpu cpu f) t.toNodes cpu endLvl
  generalize setPwrDomainsToRun t.toNodes (s.setCpu cpu f) cpu endLvl = s2 at hraise hdata ⊢
  refine h.of_cpu cpu (fun x hne => ?_) ?_ ?_
  · rw [State.setCpu_other _ _ _ hne, hdata, State.setCpu_other _ _ _ hne,
      State.setCpu_other _ _ _ hne]
  · rw [State.setCpu_self]
    exact hraise.congr rfl rfl fun _ => le_rfl
  · rw [State.setCpu_self, hdata, State.setCpu_self, State.setCpu_self]
    exact .running hf rfl rfl

theorem Coordinated.refused (hcpu : cpu < t.coreCount) (hrun : (s.cpu cpu).phase = .running)
    (hrec : Recorded s s1 cpu 1 e info1) (hle : e ≤ t.maxSuspendLvl) :
    Coordinated t mode (setPwrDomainsToRun t.toNodes s1 cpu t.maxSuspendLvl) := by
  have hraise :=
    (h.recorded hcpu hrun hrec).raise hcpu t.suspend_le (by rw [Function.update_self]; exact hle)
  have hdata := setPwrDomainsToRun_cpu s1 t.toNodes cpu t.maxSuspendLvl
  have hphase :
      ((setPwrDomainsToRun t.toNodes s1 cpu t.maxSuspendLvl).cpu cpu).phase = .running := by
    rw [hdata, State.setCpu_self, hrec.cpu]
    exact hrun
  refine h.of_cpu cpu (fun x hne => ?_) ?_ ?_
  · rw [hdata, State.setCpu_other _ _ _ hne, hrec.cpu]
  · rw [hphase]
    rw [Function.update_idem] at hraise
    exact hraise
  · refine .running ?_ ?_ hphase
    · rw [hdata, State.setCpu_self, hrec.cpu]
      exact (h.target cpu).trans (by rw [hrun]; rfl)
    · rw [hdata, State.setCpu_self]

omit h in
theorem findTargetSuspendLvl_le {t : Nodes} (h : findTargetSuspendLvl t info = some lvl) :
    lvl ≤ t.maxLvl ∧ info lvl ≠ 0 := by
  have hmem := List.mem_of_find?_eq_some h
  have hne := List.find?_some h
  rw [List.mem_reverse, List.mem_range] at hmem
  exact ⟨by omega, by simpa using hne⟩

theorem Coordinated.suspended (hcpu : cpu < t.coreCount) (hend : endLvl ≤ t.maxLvl)
    (hrun : (s.cpu cpu).phase = .running)
    (hrec : Recorded s s1 cpu 1 (if mode = .osInit then t.maxSuspendLvl else endLvl) info1)
    (hle : ∀ c lvl, c < t.coreCount → 0 < lvl → lvl ≤ endLvl → t.ancestor c lvl =
      t.ancestor cpu lvl → info2 lvl ≤ s1.req lvl c) (powerDown : Bool) : Coordinated t mode
    ((setTargetLocalPwrStates t.toNodes s1 cpu endLvl info2).setCpu cpu fun c => { c with
        targetPwrlvl := if powerDown then (if mode = .osInit then t.maxSuspendLvl else endLvl)
          else c.targetPwrlvl
        phase := .suspended powerDown endLvl }) := by
  refine h.down hcpu hend hrun hrec hle _ fun c hc haff => ⟨rfl, ?_, ?_, ?_, fun _ => haff⟩
  · show (if mode = .osInit then t.maxSuspendLvl else endLvl) ≤ t.maxLvl
    split
    · exact t.suspend_le
    · exact hend
  · rintro b lvl heq
    obtain ⟨-, rfl⟩ := Phase.suspended.inj heq
    exact hend
  · cases powerDown with
    | true => rfl
    | false => exact hc

theorem Coordinated.act_other {a : Action} (hact : act t.toNodes mode s a = some s')
    (hsuspend : ∀ cpu r isr refuse, a ≠ .suspend cpu r isr refuse)
    (hwake : ∀ cpu b lvl, a = .wake cpu → (s.cpu cpu).phase = .suspended b lvl →
      depth t.toNodes mode (.suspended b lvl) ≤ lvl) : Coordinated t mode s' := by
  cases a with
  | suspend cpu r isr refuse => exact absurd rfl (hsuspend cpu r isr refuse)
  | wake cpu =>
    rcases ite_eq_iff.mp hact with ⟨hcpu, hres⟩ | ⟨-, hres⟩
    · have htarget := h.target cpu
      have hon := h.aff cpu
      split at hres
      · rename_i hphase
        rw [hphase] at htarget hon
        cases hres
        exact h.setCpu _ (by rw [hphase]; rfl) (.running htarget (hon (by simp)) rfl)
      · rename_i endLvl hphase
        cases hres
        exact h.up hcpu (h.end_le cpu _ _ hphase) (hphase ▸ hwake cpu _ _ rfl hphase) _ rfl rfl
      · cases hres
    · cases hres
  | warmboot cpu =>
    rcases ite_eq_iff.mp hact with ⟨hcpu, hres⟩ | ⟨-, hres⟩
    · have htarget := h.target cpu
      have hdepth := h.depth_le cpu
      have hon := h.aff cpu
      split at hres
      · rename_i hphase haff
        rw [hphase] at htarget
        cases hres
        rw [warmboot, if_pos haff, htarget]
        exact h.up hcpu le_rfl (by rw [hphase]; exact le_rfl) id (by simp [State.setCpu])
          htarget
      · rename_i endLvl hphase
        rw [hphase] at htarget hdepth hon
        cases hres
        rw [warmboot, if_neg (by rw [hon (by simp)]; simp), htarget]
        exact h.up hcpu hdepth (by rw [hphase]; exact le_rfl) _ rfl rfl
      · cases hres
    · cases hres
  | off cpu =>
    rcases ite_eq_iff.mp hact with ⟨⟨hcpu, hrun⟩, hres⟩ | ⟨-, hres⟩
    · cases hres
      obtain ⟨hrec, hle⟩ :=
        doStateCoordination_spec t s (fun _ => t.maxOff) hcpu (Nat.le_refl t.maxLvl)
      exact h.down hcpu le_rfl hrun hrec hle (fun c => { c with aff := .off, phase := .off })
        fun c hc _ => ⟨rfl, le_rfl, fun _ _ hp => (by cases hp), hc, fun hne => absurd rfl hne⟩
    · cases hres
  | on cpu | onFailed cpu =>
    rcases ite_eq_iff.mp hact with ⟨⟨-, hoff, -⟩, hres⟩ | ⟨-, hres⟩
    · cases hres
      exact h.setCpu _ rfl ⟨h.depth_le cpu, h.end_le cpu, h.target cpu, fun hne => absurd hoff hne⟩
    · cases hres

theorem Coordinated.standby (hrun : (s.cpu cpu).phase = .running) (v : Nat) :
    Coordinated t mode (s.setCpu cpu fun c => { c with localState := v, phase := .standby }) := by
  have htarget := h.target cpu
  have hon := h.aff cpu (by simp [hrun])
  rw [hrun] at htarget
  exact h.setCpu _ (by rw [hrun]; rfl)
    ⟨Nat.zero_le _, fun _ _ hp => (by cases hp), htarget, fun _ => hon⟩

end Actions

/-! ### Platform-coordinated mode -/

section PlatCoord

variable {t : Tree} {s : State} {cpu : Nat}

/-- `pwr_domain_validate_suspend` refuses only what `CPU_SUSPEND` may target. -/
def RefusesCpuSuspend (t : Nodes) : Action → Prop
  | .suspend _ r _ true => ∀ lvl ∈ findTargetSuspendLvl t r.info, lvl ≤ t.maxSuspendLvl
  | _ => True

theorem Coordinated.suspend (h : Coordinated t .platCoord s) (hcpu : cpu < t.coreCount)
    (hrun : (s.cpu cpu).phase = .running) {r : Request} {isr refuse : Bool}
    (hrefuse : RefusesCpuSuspend t.toNodes (.suspend cpu r isr refuse))
    (hres : cpuSuspend t.toNodes .platCoord s cpu r isr refuse = some s') :
    Coordinated t .platCoord s' := by
  obtain ⟨lvl, hlvl, rfl⟩ := Option.map_eq_some_iff.mp hres
  obtain ⟨hle, -⟩ := findTargetSuspendLvl_le hlvl
  obtain ⟨hrec, hdomain⟩ := doStateCoordination_spec t s r.info hcpu hle
  split
  · exact h.standby hrun _
  rw [suspendStart]
  split
  · exact h
  rw [if_neg (by simp)]
  cases refuse with
  | true => exact h.refused hcpu hrun hrec (hrefuse lvl hlvl)
  | false => exact h.suspended hcpu hle hrun hrec hdomain r.powerDown

theorem Coordinated.act (h : Coordinated t .platCoord s) (hrefuse : RefusesCpuSuspend t.toNodes a)
    (hact : act t.toNodes .platCoord s a = some s') : Coordinated t .platCoord s' := by
  cases a with
  | suspend cpu r isr refuse =>
    rcases ite_eq_iff.mp hact with ⟨⟨hcpu, hrun⟩, hres⟩ | ⟨-, hres⟩
    · exact h.suspend hcpu hrun hrefuse hres
    · cases hres
  | _ => exact h.act_other hact (by simp) fun _ _ _ _ _ => le_rfl

end PlatCoord

/-! ### Runs -/

theorem setup_coordinated (t : Tree) (mode : Mode) (hboot : boot < t.coreCount) :
    Coordinated t mode (setup t.toNodes boot) := by
  have hoff : Coordinated t mode
      { req := fun _ _ => t.maxOff, node := fun _ => t.maxOff,
        cpu := fun _ =>
          { localState := t.maxOff, aff := .off, targetPwrlvl := t.maxLvl, phase := .off } } :=
    ⟨⟨fun _ _ _ _ _ => le_rfl, fun c lvl _ hlt hl => absurd hlt (Nat.not_lt_of_le hl)⟩,
      fun _ => le_rfl, fun _ _ _ hp => (by cases hp), fun _ => rfl, fun _ hne => absurd rfl hne⟩
  exact hoff.up hboot le_rfl le_rfl id (by simp [State.setCpu]) rfl

def CoordStep (t : Tree) (s s' : State) : Prop :=
  ∃ a, RefusesCpuSuspend t.toNodes a ∧ act t.toNodes .platCoord s a = some s'

theorem parents_stay_on (t : Tree) {boot : Nat} (hboot : boot < t.coreCount) {s : State}
    (hs : Reachable (fun s => s = setup t.toNodes boot) (CoordStep t) s) {c lvl : Nat}
    (hc : c < t.coreCount) (h0 : 0 < lvl) (hl : lvl ≤ t.maxLvl) :
    (s.node (t.ancestor c lvl) ≠ 0 → (s.cpu c).phase ≠ .running) ∧
    s.node (t.ancestor c lvl) ≤ s.req lvl c := by
  have hinv : Coordinated t .platCoord s := by
    refine hs.invariant (I := Coordinated t .platCoord)
      (fun s hs => hs ▸ setup_coordinated t _ hboot) ?_
    rintro s s' h ⟨a, hrefuse, hact⟩
    exact h.act hrefuse hact
  have hle := hinv.requests.node_le c lvl hc h0 hl
  refine ⟨fun hne hrun => hne ?_, hle⟩
  rw [hinv.requests.clear c lvl hc (by rw [hrun]; exact h0) hl] at hle
  omega

def twoClusters : Tree where
  coreCount := 2
  maxLvl := 2
  maxSuspendLvl := 2
  maxOff := 2
  cpuParent := fun cpu => cpu + 1
  parentNode := fun _ => 0
  level := fun n => if n = 0 then 2 else 1
  cpuStartIdx := fun n => n - 1
  ncpus := fun n => if n = 0 then 2 else 1
  suspend_le := le_rfl
  level_ancestor := by
    intro cpu lvl hcpu h0 hl
    interval_cases cpu <;> interval_cases lvl <;> rfl
  below := by
    intro cpu lvl c hcpu hc h0 hl
    interval_cases cpu <;> interval_cases c <;> interval_cases lvl <;> decide

theorem parents_stay_on_down : ∃ s : State, s.node 0 = 2 ∧
    (s.node (twoClusters.ancestor 0 2) ≠ 0 → (s.cpu 0).phase ≠ .running) ∧
    s.node (twoClusters.ancestor 0 2) ≤ s.req 2 0 := by
  obtain ⟨s, hact, hnode⟩ : ∃ s, act twoClusters.toNodes .platCoord (setup twoClusters.toNodes 0)
      (.suspend 0 ⟨fun _ => 2, 0, true⟩ false false) = some s ∧ s.node 0 = 2 := ⟨_, rfl, by decide⟩
  have hreach : Reachable (fun s => s = setup twoClusters.toNodes 0) (CoordStep twoClusters) s :=
    .step (.init rfl) ⟨_, by trivial, hact⟩
  exact ⟨s, hnode,
    parents_stay_on twoClusters (by decide) hreach (by decide) (by decide) (by decide)⟩

/-- Only `SYSTEM_SUSPEND` targets the system level. -/
def systemLevel : Tree :=
  { twoClusters with
    maxSuspendLvl := 1
    suspend_le := by decide
    level_ancestor := twoClusters.level_ancestor
    below := twoClusters.below }

/-- A refused `SYSTEM_SUSPEND` takes back the requests up to `PLAT_MAX_CPU_SUSPEND_PWR_LVL` only, so
that the system goes down with the other CPU. -/
theorem refused_system_suspend_turns_parent_off : ∃ s : State,
    Reachable (fun s => s = setup systemLevel.toNodes 0)
      (fun s s' => ∃ a, act systemLevel.toNodes .platCoord s a = some s') s ∧
    (s.cpu 0).phase = .running ∧ s.node (systemLevel.ancestor 0 2) = 2 := by
  have hrun : ∃ s1 s2 s3 s4, act systemLevel.toNodes .platCoord (setup systemLevel.toNodes 0)
        (.suspend 0 ⟨fun _ => 2, 0, true⟩ false true) = some s1 ∧
      act systemLevel.toNodes .platCoord s1 (.on 1) = some s2 ∧
      act systemLevel.toNodes .platCoord s2 (.warmboot 1) = some s3 ∧
      act systemLevel.toNodes .platCoord s3 (.off 1) = some s4 ∧
      (s4.cpu 0).phase = .running ∧ s4.node (systemLevel.ancestor 0 2) = 2 :=
    ⟨_, _, _, _, rfl, rfl, rfl, rfl, by decide, by decide⟩
  obtain ⟨s1, s2, s3, s4, h1, h2, h3, h4, hlast⟩ := hrun
  exact ⟨s4, .step (.step (.step (.step (.init rfl) ⟨_, h1⟩) ⟨_, h2⟩) ⟨_, h3⟩) ⟨_, h4⟩, hlast⟩

end MtkBoot.Psci.Power
