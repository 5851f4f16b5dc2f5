import MtkBoot.Psci.Coordination

/-! OS-initiated mode.  A suspend makes requests for all levels that `CPU_SUSPEND` applies to.  A
reset takes all of them back, other returns those up to the target only. -/

namespace MtkBoot.Psci.Power

open Lib

variable {cpu k lvl : Nat} {info : Nat → Nat} {s s' : State}

section Validation

variable {t : Tree} {endLvl : Nat}

theorem forLevels_recorded {t : Nodes}
    (s : State) (hcpu : cpu < t.coreCount) (hk : k ≤ t.maxLvl) (v : Nat → Nat) :
    Recorded s (forLevels (fun lvl s => s.setReq t lvl cpu (v lvl)) k s) cpu 1 k v := by
  refine ⟨fun l c => ?_, ?_, ?_⟩
  · rw [forLevels_req v (fun lvl s l c h0 hl => State.setReq_req h0 hl hcpu l c) k hk l c]
    exact if_congr (by omega) rfl rfl
  · exact forLevels_same State.node (fun _ _ => by simp) k s
  · exact forLevels_same State.cpu (fun _ _ => by simp) k s

theorem Recorded.restore {s1 s2 : State} (h1 : Recorded s s1 cpu lvl k info)
    (h2 : Recorded s1 s2 cpu lvl k fun l => s.req l cpu) : s2 = s := by
  have hreq : s2.req = s.req := by
    funext l c
    rw [h2.req, h1.req]
    by_cases hin : c = cpu ∧ lvl ≤ l ∧ l < lvl + k
    · rw [if_pos hin, hin.1]
    · rw [if_neg hin, if_neg hin]
  have hnode := h2.node.trans h1.node
  have hdata := h2.cpu.trans h1.cpu
  cases s
  cases s2
  congr

theorem validateStateCoordination_spec (s : State) (hcpu : cpu < t.coreCount)
    (hend : endLvl ≤ t.maxLvl) (info : Nat → Nat) (lastAt : Nat) :
    validateStateCoordination t.toNodes s cpu endLvl info lastAt = (s, false) ∨
    ∃ s1, validateStateCoordination t.toNodes s cpu endLvl info lastAt = (s1, true) ∧
      (∃ v, Recorded s s1 cpu 1 t.maxSuspendLvl v) ∧ ∀ c lvl, c < t.coreCount → 0 < lvl →
      lvl ≤ endLvl → t.ancestor c lvl = t.ancestor cpu lvl → info lvl ≤ s1.req lvl c := by
  have hrec : Recorded s (updateReq t.toNodes s cpu endLvl info) cpu 1 t.maxSuspendLvl
      fun lvl => if lvl ≤ endLvl then info lvl else info endLvl :=
    forLevels_recorded s hcpu t.suspend_le _
  rw [validateStateCoordination]
  generalize updateReq t.toNodes s cpu endLvl info = s1 at hrec ⊢
  split
  · rename_i hvalid
    refine .inr ⟨s1, rfl, ⟨_, hrec⟩, fun c lvl hc h0 hl hsame => ?_⟩
    have hall := (Bool.and_eq_true_iff.mp hvalid).1
    have hlvl := List.all_eq_true.mp hall (lvl - 1) (List.mem_range.mpr (by omega))
    rw [Nat.sub_add_cancel h0] at hlvl
    rw [of_decide_eq_true hlvl]
    exact s1.target_le t hcpu hc h0 (by omega) hsame
  · left
    have hback : Recorded s1 (restoreReq t.toNodes s1 cpu fun lvl => s.req lvl cpu)
      cpu 1 t.maxSuspendLvl fun lvl => s.req lvl cpu := forLevels_recorded s1 hcpu t.suspend_le _
    rw [hrec.restore hback]

end Validation

section OsInit

variable {t : Tree}

theorem Coordinated.suspendOs (h : Coordinated t .osInit s) (hcpu : cpu < t.coreCount)
    (hrun : (s.cpu cpu).phase = .running) {r : Request} {isr refuse : Bool}
    (hres : cpuSuspend t.toNodes .osInit s cpu r isr refuse = some s') :
    Coordinated t .osInit s' := by
  obtain ⟨lvl, hlvl, rfl⟩ := Option.map_eq_some_iff.mp hres
  obtain ⟨hle, -⟩ := findTargetSuspendLvl_le hlvl
  split
  · exact h.standby hrun _
  rw [suspendStart]
  split
  · exact h
  rcases validateStateCoordination_spec s hcpu hle r.info r.lastAt with hdenied | ⟨s1, heq,
    ⟨v, hrec⟩, hdomain⟩
  · simp only [hdenied, if_true]
    exact h
  · simp only [heq, Bool.true_eq_false, if_false]
    cases refuse with
    | true => exact h.refused hcpu hrun hrec le_rfl
    | false => exact h.suspended hcpu hle hrun hrec hdomain r.powerDown

/-- A CPU that returns without a reset returns from the highest level that `CPU_SUSPEND` applies
to. -/
def ReturnsFromHighest (t : Nodes) (s : State) : Action → Prop
  | .wake cpu => ∀ b endLvl, (s.cpu cpu).phase = .suspended b endLvl → t.maxSuspendLvl ≤ endLvl
  | _ => True

theorem Coordinated.actOs (h : Coordinated t .osInit s) {a : Action}
    (hreturn : ReturnsFromHighest t.toNodes s a)
    (hact : Power.act t.toNodes .osInit s a = some s') : Coordinated t .osInit s' := by
  cases a with
  | suspend cpu r isr refuse =>
    rcases ite_eq_iff.mp hact with ⟨⟨hcpu, hrun⟩, hres⟩ | ⟨-, hres⟩
    · exact h.suspendOs hcpu hrun hres
    · cases hres
  | wake cpu =>
    refine h.act_other hact (by simp) fun c b lvl heq hphase => ?_
    obtain rfl := Action.wake.inj heq
    exact hreturn b lvl hphase
  | _ => exact h.act_other hact (by simp) (by simp)

end OsInit

/-- No request of a running CPU is left, and no other CPU can put a domain above it to sleep. -/
structure NoStaleRequest (t : Tree) (s : State) : Prop where
  clear : ∀ c lvl, c < t.coreCount → (s.cpu c).phase = .running → 0 < lvl → lvl ≤ t.maxLvl →
    s.req lvl c = 0
  coordinated : ∀ c cpu endLvl lvl info, c < t.coreCount → (s.cpu c).phase = .running →
    cpu < t.coreCount → cpu ≠ c → endLvl ≤ t.maxLvl → 0 < lvl → lvl ≤ endLvl →
    t.ancestor c lvl = t.ancestor cpu lvl →
    (doStateCoordination t.toNodes s cpu endLvl info).2 lvl = 0
  validated : ∀ c cpu endLvl lvl info lastAt, c < t.coreCount → (s.cpu c).phase = .running →
    cpu < t.coreCount → cpu ≠ c → endLvl ≤ t.maxLvl → 0 < lvl → lvl ≤ endLvl →
    t.ancestor c lvl = t.ancestor cpu lvl →
    (validateStateCoordination t.toNodes s cpu endLvl info lastAt).2 = true → info lvl = 0

theorem Recorded.req_other {c : Nat} (h : Recorded s s' cpu lvl k info) (hne : cpu ≠ c) (l : Nat) :
    s'.req l c = s.req l c := by
  rw [h.req, if_neg fun hin => hne hin.1.symm]

theorem Coordinated.noStale {t : Tree} {mode : Mode} (h : Coordinated t mode s) :
    NoStaleRequest t s := by
  have hclear : ∀ c lvl, c < t.coreCount → (s.cpu c).phase = .running → 0 < lvl → lvl ≤ t.maxLvl →
      s.req lvl c = 0 := by
    intro c lvl hc hrun h0 hl
    exact h.requests.clear c lvl hc (by rw [hrun]; exact h0) hl
  refine ⟨hclear, ?_, ?_⟩
  · intro c cpu endLvl lvl info hc hrun hcpu hne hend h0 hl hsame
    obtain ⟨hrec, hle⟩ := doStateCoordination_spec t s info hcpu hend
    have hlvl := hle c lvl hc h0 hl hsame
    rw [hrec.req_other hne, hclear c lvl hc hrun h0 (by omega)] at hlvl
    exact Nat.le_zero.mp hlvl
  · intro c cpu endLvl lvl info lastAt hc hrun hcpu hne hend h0 hl hsame hvalid
    rcases validateStateCoordination_spec s hcpu hend info lastAt with hdenied | ⟨s1, -, ⟨v, hrec⟩,
      hle⟩
    · rw [hdenied] at hvalid
      cases hvalid
    · have hlvl := hle c lvl hc h0 hl hsame
      rw [hrec.req_other hne, hclear c lvl hc hrun h0 (by omega)] at hlvl
      exact Nat.le_zero.mp hlvl

def OsStep (t : Tree) (s s' : State) : Prop :=
  ∃ a, ReturnsFromHighest t.toNodes s a ∧ act t.toNodes .osInit s a = some s'

theorem no_stale_request (t : Tree) {boot : Nat} (hboot : boot < t.coreCount) {s : State}
    (hs : Reachable (fun s => s = setup t.toNodes boot) (OsStep t) s) : NoStaleRequest t s := by
  have hinv : Coordinated t .osInit s := by
    refine hs.invariant (I := Coordinated t .osInit)
      (fun s hs => hs ▸ setup_coordinated t _ hboot) ?_
    rintro s s' h ⟨a, hreturn, hact⟩
    exact h.actOs hreturn hact
  exact hinv.noStale

def acts (t : Nodes) (mode : Mode) (s : State) (as : List Action) : Option State :=
  as.foldlM (act t mode) s

theorem no_stale_request_standby :
    ∃ s, acts twoClusters.toNodes .osInit (setup twoClusters.toNodes 0)
    [.suspend 0 ⟨fun _ => 1, 2, false⟩ false false, .wake 0] = some s ∧ (s.cpu 0).phase = .running ∧
    NoStaleRequest twoClusters s := by
  obtain ⟨s₁, h₁, hphase⟩ : ∃ s, act twoClusters.toNodes .osInit (setup twoClusters.toNodes 0)
      (.suspend 0 ⟨fun _ => 1, 2, false⟩ false false) = some s ∧
      (s.cpu 0).phase = .suspended false 2 :=
    ⟨_, rfl, by decide⟩
  obtain ⟨s₂, h₂, hrun⟩ : ∃ s, act twoClusters.toNodes .osInit s₁ (.wake 0) = some s ∧
      (s.cpu 0).phase = .running := by
    refine ⟨suspendReturn twoClusters.toNodes s₁ 0 2, ?_, ?_⟩
    · rw [act, if_pos (by decide), hphase]
    · rw [suspendReturn, State.setCpu_self]
  refine ⟨s₂, ?_, hrun, no_stale_request twoClusters (by decide : 0 < 2) (.step (.step (.init rfl)
    ⟨_, by trivial, h₁⟩) ⟨.wake 0, fun b endLvl heq => ?_, h₂⟩)⟩
  · simp [acts, h₁, h₂]
  · obtain ⟨-, rfl⟩ := Phase.suspended.inj (hphase.symm.trans heq)
    exact le_rfl

/-- CPU 0 goes to standby with its cluster and returns.  Its request for the system stays, so the
system is put to sleep under it when CPU 1 is turned off. -/
theorem stale_request_after_standby :
    ∃ s s', acts twoClusters.toNodes .osInit (setup twoClusters.toNodes 0) [.on 1, .warmboot 1,
        .suspend 0 ⟨fun lvl => if lvl ≤ 1 then 1 else 0, 0, false⟩ false false, .wake 0] = some s ∧
    (s.cpu 0).phase = .running ∧ s.req 2 0 = 1 ∧
    acts twoClusters.toNodes .osInit s [.off 1] = some s' ∧
    (s'.cpu 0).phase = .running ∧ s'.node (twoClusters.ancestor 0 2) = 1 :=
  ⟨_, _, rfl, by decide, by decide, rfl, by decide, by decide⟩

end MtkBoot.Psci.Power
