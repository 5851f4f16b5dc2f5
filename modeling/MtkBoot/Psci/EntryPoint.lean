import MtkBoot.Lib.System
import MtkBoot.Psci.Model

/-! Where a CPU resumes.  `psci_cpu_on` fills in the record of its target before it looks at its
state, so a refused call can redirect a CPU that waits to resume. -/

namespace MtkBoot.Psci

open Lib

variable {contextId entrypoint : Nat} {ns : NsState} {r : EpInfo} {valid : Bool}

variable {n : Nat} {s s' : State n} {i j k : Fin n} {last last' : Fin n → Option EpInfo}
  {p : Phase n} {a : AffState} {b : Bool} {st : Store}

/-! ### The fields after an update -/

@[simp] theorem setPhase_fields :
    ((s.setPhase i p).cpu k).phase = (if k = i then p else (s.cpu k).phase) ∧
    ((s.setPhase i p).cpu k).aff = (s.cpu k).aff ∧ ((s.setPhase i p).cpu k).ep = (s.cpu k).ep ∧
    ((s.setPhase i p).cpu k).lock = (s.cpu k).lock := by
  by_cases h : k = i <;> simp [State.setPhase, State.modify, h]

@[simp] theorem setAff_fields : ((s.setAff i a).cpu k).phase = (s.cpu k).phase ∧
    ((s.setAff i a).cpu k).aff = (if k = i then a else (s.cpu k).aff) ∧
    ((s.setAff i a).cpu k).ep = (s.cpu k).ep ∧ ((s.setAff i a).cpu k).lock = (s.cpu k).lock := by
  by_cases h : k = i <;> simp [State.setAff, State.modify, h]

@[simp] theorem setLock_fields : ((s.setLock i b).cpu k).phase = (s.cpu k).phase ∧
    ((s.setLock i b).cpu k).aff = (s.cpu k).aff ∧ ((s.setLock i b).cpu k).ep = (s.cpu k).ep ∧
    ((s.setLock i b).cpu k).lock = if k = i then b else (s.cpu k).lock := by
  by_cases h : k = i <;> simp [State.setLock, State.modify, h]

@[simp] theorem store_fields : ((s.store i st).cpu k).phase = (s.cpu k).phase ∧
    ((s.store i st).cpu k).aff = (s.cpu k).aff ∧
    ((s.store i st).cpu k).ep = (if k = i then st.apply (s.cpu k).ep else (s.cpu k).ep) ∧
    ((s.store i st).cpu k).lock = (s.cpu k).lock := by
  by_cases h : k = i <;> simp [State.store, State.modify, h]

/-! ### Who relies on a record -/

/-- CPU `i` turns `j` on, or is `j` itself and on its way into a power-down suspend, suspended, or
turned on and not yet up. -/
def Relies (s : State n) (i j : Fin n) : Prop :=
  match (s.cpu i).phase with
  | .onFill target _ _ _ | .onLock target _ | .onPower target _ => target = j
  | .suspendFill _ _ _ _ | .suspending _ | .down => i = j
  | .off => i = j ∧ (s.cpu i).aff = .onPending ∧ (s.cpu i).lock = false
  | .running | .leaving _ => False

def Free (s : State n) (j : Fin n) : Prop := ∀ i, ¬Relies s i j

/-- A record is filled in only while nobody relies on it. -/
def FillsFree (s : State n) (e : Event n) : Prop := ∀ i j, e = .fill i j → Free s j

/-- What the phase of a CPU says of its own state, of the record it relies on, and of the last call
that was accepted for it. -/
def Sound (s : State n) (last : Fin n → Option EpInfo) (i : Fin n) : Prop :=
  match (s.cpu i).phase with
  | .running => (s.cpu i).aff = .on
  | .onFill j stores ok r =>
    (s.cpu i).aff = .on ∧ (ok = true → stores.foldl Store.apply (s.cpu j).ep = r)
  | .onLock j r => (s.cpu i).aff = .on ∧ (s.cpu j).ep = r
  | .onPower j r => (s.cpu i).aff = .on ∧ (s.cpu j).ep = r ∧ (s.cpu j).aff = .onPending ∧
      (s.cpu j).phase = .off ∧ (s.cpu j).lock = true
  | .suspendFill stores ok _ r =>
    (s.cpu i).aff = .on ∧ (ok = true → stores.foldl Store.apply (s.cpu i).ep = r)
  | .suspending r => (s.cpu i).aff = .on ∧ (s.cpu i).ep = r
  | .down => (s.cpu i).aff = .on ∧ last i = some (s.cpu i).ep
  | .off =>
    (s.cpu i).aff ≠ .on ∧
      ((s.cpu i).aff = .onPending → (s.cpu i).lock = false → last i = some (s.cpu i).ep)
  | .leaving r => (s.cpu i).aff ≠ .off ∧ last i = some r

structure Inv (s : State n) (last : Fin n → Option EpInfo) : Prop where
  excl : ∀ i i' j, Relies s i j → Relies s i' j → i = i'
  sound : ∀ i, Sound s last i
  locked : ∀ j, (s.cpu j).lock = true → ∃ i r, (s.cpu i).phase = .onPower j r

/-- A CPU is the same in two states, but for its record. -/
def Same (s s' : State n) (k : Fin n) : Prop :=
  (s'.cpu k).phase = (s.cpu k).phase ∧ (s'.cpu k).aff = (s.cpu k).aff ∧
    (s'.cpu k).lock = (s.cpu k).lock

theorem Same.relies (h : Same s s' k) : Relies s' k j ↔ Relies s k j := by
  unfold Relies
  rw [h.1, h.2.1, h.2.2]

theorem Sound.congr (h : Sound s last k) (hsame : Same s s' k) (hlast : last' k = last k)
    (hep : ∀ j, Relies s k j → (s'.cpu j).ep = (s.cpu j).ep)
    (htarget : ∀ j r, (s.cpu k).phase = .onPower j r → Same s s' j) : Sound s' last' k := by
  obtain ⟨hphase, haff, hlock⟩ := hsame
  unfold Sound at h ⊢
  unfold Relies at hep
  rw [hphase, haff, hlock, hlast]
  cases hp : (s.cpu k).phase with
  | running => simpa [hp] using h
  | onFill t stores ok r => simpa [hp, hep t (by simp [hp])] using h
  | onLock t r => simpa [hp, hep t (by simp [hp])] using h
  | onPower t r =>
    obtain ⟨h1, h2, h3⟩ := htarget t r hp
    simpa [hp, hep t (by simp [hp]), h1, h2, h3] using h
  | suspendFill stores ok sys r => simpa [hp, hep k (by simp [hp])] using h
  | suspending r => simpa [hp, hep k (by simp [hp])] using h
  | down => simpa [hp, hep k (by simp [hp])] using h
  | off =>
    simp only [hp] at h hep ⊢
    refine ⟨h.1, fun hpend hfree => ?_⟩
    rw [hep k ⟨rfl, hpend, hfree⟩]
    exact h.2 hpend hfree
  | leaving r => simpa [hp] using h

section

variable (hinv : Inv s last)
include hinv

/-- The invariant after a step that changes the CPUs in `C` only, and no record that another CPU
relies on. -/
theorem Inv.update (C : Fin n → Prop) (hsame : ∀ k, ¬C k → Same s s' k ∧ last' k = last k)
    (hep : ∀ k j, ¬C k → Relies s k j → (s'.cpu j).ep = (s.cpu j).ep)
    (htarget : ∀ k j r, ¬C k → (s.cpu k).phase = .onPower j r → ¬C j)
    (hsound : ∀ k, C k → Sound s' last' k)
    (hexcl : ∀ k k' j, C k → Relies s' k j → Relies s' k' j → k = k')
    (hlocked : ∀ j, (s'.cpu j).lock → ∃ k r, (s'.cpu k).phase = .onPower j r) : Inv s' last' := by
  refine ⟨?_, ?_, hlocked⟩
  · intro k k' j hk hk'
    by_cases hc : C k
    · exact hexcl k k' j hc hk hk'
    · by_cases hc' : C k'
      · exact (hexcl k' k j hc' hk' hk).symm
      · rw [(hsame k hc).1.relies] at hk
        rw [(hsame k' hc').1.relies] at hk'
        exact hinv.excl k k' j hk hk'
  · intro k
    by_cases hc : C k
    · exact hsound k hc
    · obtain ⟨hk, hlast⟩ := hsame k hc
      refine (hinv.sound k).congr hk hlast (hep k · hc) ?_
      intro j r hpow
      exact (hsame j (htarget k j r hc hpow)).1

theorem Inv.aff_of_running (h : (s.cpu i).phase = .running) : (s.cpu i).aff = .on := by
  have hs := hinv.sound i
  simpa [Sound, h] using hs

theorem Inv.not_target (h : (s.cpu i).phase ≠ .off ∨ (s.cpu i).lock = false)
    (k : Fin n) (r : EpInfo) : (s.cpu k).phase ≠ .onPower i r := by
  intro hk
  have hs := hinv.sound k
  simp only [Sound, hk] at hs
  obtain ⟨-, -, -, hoff, hlock⟩ := hs
  rcases h with h | h
  · exact h hoff
  · simp [hlock] at h

/-- The invariant after a step of CPU `i` that changes no other CPU but in its record. -/
theorem Inv.change (hsame : ∀ k ≠ i, Same s s' k ∧ last' k = last k)
    (hlock : (s'.cpu i).lock = (s.cpu i).lock)
    (hep : ∀ k j, k ≠ i → Relies s k j → (s'.cpu j).ep = (s.cpu j).ep)
    (hfree : (s.cpu i).phase ≠ .off ∨ (s.cpu i).lock = false)
    (hnot : ∀ j r, (s.cpu i).phase ≠ .onPower j r) (hsound : Sound s' last' i)
    (hrel : ∀ j, Relies s' i j → Relies s i j ∨ Free s j) : Inv s' last' := by
  refine hinv.update (· = i) hsame hep ?_ (fun k hk => hk ▸ hsound) ?_ ?_
  · rintro k j r _ hk rfl
    exact hinv.not_target hfree k r hk
  · rintro k k' j rfl hk hk'
    by_contra hne
    rw [(hsame k' (Ne.symm hne)).1.relies] at hk'
    rcases hrel j hk with h | h
    · exact hne (hinv.excl k k' j h hk')
    · exact h k' hk'
  · intro j hj
    have hlocks : ∀ t, (s'.cpu t).lock = (s.cpu t).lock := by
      intro t
      by_cases ht : t = i
      · rw [ht, hlock]
      · exact (hsame t ht).1.2.2
    obtain ⟨k, r, hk⟩ := hinv.locked j (hlocks j ▸ hj)
    have hne : k ≠ i := by
      rintro rfl
      exact hnot j r hk
    exact ⟨k, r, (hsame k hne).1.1.trans hk⟩

theorem Inv.setPhase (hfree : (s.cpu i).phase ≠ .off ∨ (s.cpu i).lock = false)
    (hnot : ∀ j r, (s.cpu i).phase ≠ .onPower j r) (hlast : ∀ k ≠ i, last' k = last k)
    (hsound : Sound (s.setPhase i p) last' i)
    (hrel : ∀ j, Relies (s.setPhase i p) i j → Relies s i j ∨ Free s j) :
    Inv (s.setPhase i p) last' :=
  hinv.change (fun k hk => by simp [Same, hk, hlast k hk]) (by simp) (fun _ _ _ _ => by simp)
    hfree hnot hsound hrel

theorem Inv.store (hi : Relies s i j) (hnot : ∀ t r, (s.cpu i).phase ≠ .onPower t r)
    (hoff : (s.cpu i).phase ≠ .off) (hsound : Sound ((s.store j st).setPhase i p) last i)
    (hrel : ∀ t, Relies ((s.store j st).setPhase i p) i t → t = j) :
    Inv ((s.store j st).setPhase i p) last := by
  refine hinv.change (fun k hk => by simp [Same, hk]) (by simp) ?_ (.inl hoff) hnot hsound
    fun t ht => .inl (hrel t ht ▸ hi)
  intro k t hk ht
  -- Only one CPU relies on the record that is stored into.
  have hne : t ≠ j := by
    rintro rfl
    exact hk (hinv.excl k i t ht hi)
  simp [hne]

end

/-! ### What the steps preserve -/

variable {tr : List (Event n)} {e : Event n}

def accepted (tr : List (Event n)) (j : Fin n) : Option EpInfo := lastAccepted j tr

theorem accepted_refused {rc : Rc} (h : rc ≠ .success) :
    accepted (.cpuOn i j r rc :: tr) = accepted tr := by
  funext k
  cases rc <;> first | rfl | exact absurd rfl h

section

variable (hinv : Inv s (accepted tr))
include hinv

section

variable (hrun : (s.cpu i).phase = .running)
include hrun

theorem psciCpuOn_inv {target : Option (Fin n)}
    (hres : psciCpuOn s i target entrypoint contextId ns valid = (s', e)) (hfree : FillsFree s e) :
    Inv s' (accepted (e :: tr)) := by
  unfold psciCpuOn at hres
  split at hres
  · cases hres
    exact hinv
  rename_i j
  split at hres
  · cases hres
    refine hinv.setPhase (.inl (by simp [hrun])) (by simp [hrun]) (fun _ _ => rfl) ?_ ?_
    · simp only [Sound, setPhase_fields, if_true]
      exact ⟨hinv.aff_of_running hrun, nsEpStores_apply _⟩
    · intro t ht
      have : j = t := by simpa [Relies] using ht
      exact .inr (this ▸ hfree i j rfl)
  · cases hres
    rw [accepted_refused (by decide)]
    exact hinv

theorem suspendEntry_inv {sys : Bool}
    (hres : suspendEntry s i entrypoint contextId ns valid sys = (s', e)) (hfree : FillsFree s e) :
    Inv s' (accepted (e :: tr)) := by
  unfold suspendEntry at hres
  split at hres
  · cases hres
    refine hinv.setPhase (.inl (by simp [hrun])) (by simp [hrun]) (fun _ _ => rfl) ?_ ?_
    · simp only [Sound, setPhase_fields, if_true]
      exact ⟨hinv.aff_of_running hrun, nsEpStores_apply _⟩
    · intro t ht
      have : i = t := by simpa [Relies] using ht
      exact .inr (this ▸ hfree i i rfl)
  · cases hres
    exact hinv

theorem psciDoCpuOff_inv {denied : Bool} (hres : psciDoCpuOff s i denied = (s', e)) :
    Inv s' (accepted (e :: tr)) := by
  unfold psciDoCpuOff at hres
  split at hres
  · cases hres
    exact hinv
  · cases hres
    refine hinv.change (i := i) (fun k hk => by simp [Same, hk, accepted, lastAccepted]) (by simp)
      (fun _ _ _ _ => by simp) (.inl (by simp [hrun])) (by simp [hrun]) (by simp [Sound]) ?_
    intro j hj
    simp [Relies] at hj

end

omit hinv in
theorem Inv.back (hinv : Inv s last) (hoff : (s.cpu i).phase ≠ .off)
    (hnot : ∀ j r, (s.cpu i).phase ≠ .onPower j r ∧ (s.cpu i).phase ≠ .leaving r) :
    Inv (s.setPhase i .running) last := by
  have hon : (s.cpu i).aff = .on := by
    have hs := hinv.sound i
    have hself := hnot i
    unfold Sound at hs
    split at hs <;> simp_all
  refine hinv.setPhase (.inl hoff) (fun j r => (hnot j r).1) (fun _ _ => rfl) ?_ ?_
  · simp [Sound, hon]
  · intro j hj
    simp [Relies] at hj

theorem fillStep_inv {allowed : Bool} (hres : fillStep s i allowed = some (s', e)) :
    Inv s' (accepted (e :: tr)) := by
  have hs := hinv.sound i
  unfold fillStep at hres
  split at hres
  · rename_i j st stores ok r hp
    cases hres
    simp only [Sound, hp] at hs
    refine hinv.store (by simp [Relies, hp]) (by simp [hp]) (by simp [hp]) ?_ ?_
    · simpa [Sound] using hs
    · intro t ht
      simpa [Relies, eq_comm] using ht
  · rename_i j r hp
    cases hres
    simp only [Sound, hp] at hs
    refine hinv.setPhase (.inl (by simp [hp])) (by simp [hp]) (fun _ _ => rfl) ?_ ?_
    · simpa [Sound] using hs
    · intro t ht
      left
      simpa [Relies, hp] using ht
  · rename_i j r hp
    cases hres
    rw [accepted_refused (by decide)]
    exact hinv.back (by simp [hp]) (by simp [hp])
  · rename_i st stores ok sys r hp
    cases hres
    simp only [Sound, hp] at hs
    refine hinv.store (by simp [Relies, hp]) (by simp [hp]) (by simp [hp]) ?_ ?_
    · simpa [Sound] using hs
    · intro t ht
      simpa [Relies, eq_comm] using ht
  · rename_i sys r hp
    cases hres
    exact hinv.back (by simp [hp]) (by simp [hp])
  · rename_i sys r hp
    simp only [Sound, hp] at hs
    split at hres
    · cases hres
      exact hinv.back (by simp [hp]) (by simp [hp])
    · cases hres
      refine hinv.setPhase (.inl (by simp [hp])) (by simp [hp]) (fun _ _ => rfl) ?_ ?_
      · simpa [Sound] using hs
      · intro t ht
        left
        simpa [Relies, hp] using ht
  · cases hres

omit hinv in
theorem Inv.phase_of_off (hinv : Inv s last) (h : (s.cpu j).aff = .off) :
    (s.cpu j).phase = .off := by
  have hs := hinv.sound j
  unfold Sound at hs
  split at hs <;> simp_all

theorem psciCpuOnStart_inv (hres : psciCpuOnStart s i = some (s', e)) :
    Inv s' (accepted (e :: tr)) := by
  have hs := hinv.sound i
  unfold psciCpuOnStart at hres
  split at hres
  · rename_i j r hp
    simp only [Sound, hp] at hs
    split at hres
    · cases hres
    rename_i hunlocked
    split at hres
    · cases hres
      rw [accepted_refused (by decide)]
      exact hinv.back (by simp [hp]) (by simp [hp])
    · cases hres
      rw [accepted_refused (by decide)]
      exact hinv.back (by simp [hp]) (by simp [hp])
    · rename_i haff
      cases hres
      have hoff := hinv.phase_of_off haff
      have hne : i ≠ j := by
        rintro rfl
        simp [hp] at hoff
      refine hinv.update (fun k => k = i ∨ k = j) ?_ ?_ ?_ ?_ ?_ ?_
      · intro k hk
        rw [not_or] at hk
        simp [Same, hk.1, hk.2, accepted, lastAccepted]
      · intro k t _ _
        simp
      · rintro k t r' - hk (rfl | rfl)
        · exact hinv.not_target (.inl (by simp [hp])) k r' hk
        · exact hinv.not_target (.inr (by simpa using hunlocked)) k r' hk
      · rintro k (rfl | rfl)
        · simp [Sound, hs, hne, Ne.symm hne, hoff]
        · simp [Sound, Ne.symm hne, hoff]
      · rintro k k' t (rfl | rfl) hk hk'
        · have ht : j = t := by simpa [Relies] using hk
          subst ht
          by_contra hk'ne
          by_cases hk'j : k' = j
          · subst hk'j
            simp [Relies, Ne.symm hne, hoff] at hk'
          · rw [Same.relies (s := s) (by simp [Same, Ne.symm hk'ne, hk'j])] at hk'
            exact hk'ne (hinv.excl k k' j (by simp [Relies, hp]) hk')
        · simp [Relies, Ne.symm hne, hoff] at hk
      · intro t ht
        by_cases htj : t = j
        · exact ⟨i, r, by simp [htj]⟩
        · obtain ⟨k, r', hk⟩ := hinv.locked t (by simpa [htj] using ht)
          have hki : k ≠ i := by
            rintro rfl
            simp [hp] at hk
          exact ⟨k, r', by simpa [hki] using hk⟩
  · cases hres

omit hinv in
/-- The end of the critical section. -/
theorem Inv.unlock {r : EpInfo} (hinv : Inv s last) (hp : (s.cpu i).phase = .onPower j r)
    (hcpu : ∀ k, (s'.cpu k).phase = (if k = i then .running else (s.cpu k).phase) ∧
      (k ≠ j → (s'.cpu k).aff = (s.cpu k).aff) ∧ (s'.cpu k).ep = (s.cpu k).ep ∧
      (s'.cpu k).lock = if k = j then false else (s.cpu k).lock) (hlast : ∀ k ≠ j, last' k = last k)
    (htarget : (s'.cpu j).aff ≠ .on ∧ ((s'.cpu j).aff = .onPending → last' j = some (s.cpu j).ep)) :
    Inv s' last' := by
  have hs := hinv.sound i
  simp only [Sound, hp] at hs
  obtain ⟨hon, -, -, hoff, -⟩ := hs
  have hne : j ≠ i := by
    rintro rfl
    simp [hp] at hoff
  have hself : Relies s i j := by simp [Relies, hp]
  have hsame {k : Fin n} (hi : k ≠ i) (hj : k ≠ j) : Same s s' k := by
    obtain ⟨hphase, haff, -, hlock⟩ := hcpu k
    exact ⟨hphase.trans (if_neg hi), haff hj, hlock.trans (if_neg hj)⟩
  have hphase : (s'.cpu i).phase = .running ∧ (s'.cpu j).phase = .off :=
    ⟨(hcpu i).1.trans (if_pos rfl), ((hcpu j).1.trans (if_neg hne)).trans hoff⟩
  refine hinv.update (fun k => k = i ∨ k = j) ?_ (fun _ j _ _ => (hcpu j).2.2.1) ?_ ?_ ?_ ?_
  · intro k hk
    rw [not_or] at hk
    exact ⟨hsame hk.1 hk.2, hlast k hk.2⟩
  · -- Another CPU would have to hold the same lock.
    rintro k t r' hk hkp (rfl | rfl)
    · exact hinv.not_target (.inl (by simp [hp])) k r' hkp
    · exact hk (.inl (hinv.excl k i t (by simp [Relies, hkp]) hself))
  · rintro k (rfl | rfl)
    · simp [Sound, hphase.1, (hcpu k).2.1 (Ne.symm hne), hon]
    · rw [Sound, hphase.2, (hcpu k).2.2.1]
      exact ⟨htarget.1, fun hpend _ => htarget.2 hpend⟩
  · rintro k k' t (rfl | rfl) hk hk'
    · simp [Relies, hphase.1] at hk
    simp only [Relies, hphase.2] at hk
    obtain ⟨rfl, -⟩ := hk
    by_contra hkk'
    by_cases hk'i : k' = i
    · subst hk'i
      simp [Relies, hphase.1] at hk'
    · rw [(hsame hk'i (Ne.symm hkk')).relies] at hk'
      exact hk'i (hinv.excl k' i k hk' hself)
  · intro t ht
    rw [(hcpu t).2.2.2] at ht
    split at ht
    · cases ht
    rename_i htj
    obtain ⟨k, r', hk⟩ := hinv.locked t ht
    have hki : k ≠ i := by
      rintro rfl
      rw [hp] at hk
      cases hk
      exact htj rfl
    exact ⟨k, r', (hcpu k).1.trans ((if_neg hki).trans hk)⟩

/-- The target is pending with the record it was turned on with, or off again. -/
theorem pwrDomainOn_inv {ok : Bool} (hres : pwrDomainOn s i ok = some (s', e)) :
    Inv s' (accepted (e :: tr)) := by
  have hs := hinv.sound i
  unfold pwrDomainOn at hres
  split at hres
  · rename_i j r hp
    simp only [Sound, hp] at hs
    split at hres
    · cases hres
      refine hinv.unlock hp (by simp) (fun _ hne => if_neg (Ne.symm hne)) ?_
      simp [hs, accepted, lastAccepted]
    · cases hres
      rw [accepted_refused (by decide)]
      refine hinv.unlock hp ?_ (fun _ _ => rfl) (by simp)
      intro k
      refine ⟨by simp, fun hk => by simp [hk], by simp, by simp⟩
  · cases hres

theorem psciCpuSuspendStart_inv {abandoned : Option Rc}
    (hres : psciCpuSuspendStart s i abandoned = some (s', e)) : Inv s' (accepted (e :: tr)) := by
  have hs := hinv.sound i
  unfold psciCpuSuspendStart at hres
  split at hres
  · rename_i r hp
    simp only [Sound, hp] at hs
    split at hres
    · cases hres
      exact hinv.back (by simp [hp]) (by simp [hp])
    cases hres
    refine hinv.setPhase (.inl (by simp [hp])) (by simp [hp]) ?_ ?_ ?_
    · intro k hk
      exact if_neg (Ne.symm hk)
    · simp [Sound, hs, accepted, lastAccepted]
    · intro t ht
      left
      simpa [Relies, hp] using ht
  · cases hres

theorem psciWarmbootEntrypoint_inv
    (hres : psciWarmbootEntrypoint s i = some (s', e)) : Inv s' (accepted (e :: tr)) := by
  have hs := hinv.sound i
  have hnone (t : Fin n) (r : EpInfo) : ¬Relies (s.setPhase i (.leaving r)) i t := by simp [Relies]
  unfold psciWarmbootEntrypoint at hres
  split at hres
  · rename_i hdown
    split at hres
    · cases hres
    · rename_i haff
      split at hres
      · cases hres
      rename_i hlock
      cases hres
      -- A suspended CPU is on, so this one has been turned on.
      have hp : (s.cpu i).phase = .off := by
        rcases hdown with hp | hp
        · simp [Sound, hp, haff] at hs
        · exact hp
      simp only [Sound, hp] at hs
      refine hinv.setPhase (.inr (by simpa using hlock)) (by simp [hp]) (fun _ _ => rfl) ?_
        fun t ht => absurd ht (hnone t _)
      have hlast := hs.2 haff (by simpa using hlock)
      simp only [Sound, setPhase_fields, if_true]
      exact ⟨by simp [haff], hlast⟩
    · rename_i haff
      cases hres
      have hp : (s.cpu i).phase = .down := by
        rcases hdown with hp | hp
        · exact hp
        · simp [Sound, hp, haff] at hs
      simp only [Sound, hp] at hs
      refine hinv.setPhase (.inl (by simp [hp])) (by simp [hp]) (fun _ _ => rfl) ?_ fun t ht =>
        absurd ht (hnone t _)
      simp only [Sound, setPhase_fields, if_true]
      exact ⟨by simp [haff], hs.2⟩
  · cases hres

theorem leave_inv (hp : (s.cpu i).phase = .leaving r) :
    accepted tr i = some r ∧ Inv ((s.setAff i .on).setPhase i .running) (accepted tr) := by
  have hs := hinv.sound i
  simp only [Sound, hp] at hs
  refine ⟨hs.2, hinv.change (i := i) (fun k hk => by simp [Same, hk]) (by simp)
    (fun _ _ _ _ => by simp) (.inl (by simp [hp])) (by simp [hp]) (by simp [Sound]) ?_⟩
  intro j hj
  simp [Relies] at hj

theorem step_inv {a : Action n} (hres : step s a = some (s', e))
    (hfree : FillsFree s e) : Inv s' (accepted (e :: tr)) := by
  have hcall {i : Fin n} {result : State n × Event n}
      (h : call s i result = some (s', e)) : (s.cpu i).phase = .running ∧ result = (s', e) := by
    unfold call at h
    split at h
    · rename_i hrun
      exact ⟨hrun, Option.some.inj h⟩
    · cases h
  cases a with
  | cpuOn i target entrypoint contextId ns valid =>
    obtain ⟨hrun, hres⟩ := hcall hres
    exact psciCpuOn_inv hinv hrun hres hfree
  | cpuSuspend i req entrypoint contextId ns valid =>
    obtain ⟨hrun, hres⟩ := hcall hres
    cases req with
    | invalid => cases hres; exact hinv
    | standby => cases hres; exact hinv
    | powerDown => exact suspendEntry_inv hinv hrun hres hfree
  | systemSuspend i entrypoint contextId ns valid =>
    obtain ⟨hrun, hres⟩ := hcall hres
    unfold psciSystemSuspend at hres
    split at hres
    · exact suspendEntry_inv hinv hrun hres hfree
    · cases hres
      exact hinv
  | cpuOff i denied =>
    obtain ⟨hrun, hres⟩ := hcall hres
    exact psciDoCpuOff_inv hinv hrun hres
  | store i allowed => exact fillStep_inv hinv hres
  | lock i => exact psciCpuOnStart_inv hinv hres
  | power i ok => exact pwrDomainOn_inv hinv hres
  | suspendStart i abandoned => exact psciCpuSuspendStart_inv hinv hres
  | wake i =>
    simp only [step] at hres
    split at hres
    · rename_i hp
      cases hres
      exact hinv.back (by simp [hp]) (by simp [hp])
    · cases hres
  | warmboot i => exact psciWarmbootEntrypoint_inv hinv hres
  | leave i =>
    simp only [step] at hres
    split at hres
    · rename_i r hp
      cases hres
      exact (leave_inv hinv hp).2
    · cases hres

end

theorem step_entered {a : Action n} (hres : step s a = some (s', .entered i r)) :
    (s.cpu i).phase = .leaving r := by
  cases a with
  | leave k =>
    simp only [step] at hres
    split at hres
    · rename_i hp
      cases hres
      exact hp
    · cases hres
  | _ =>
    simp only [step, call, psciCpuOn, psciCpuSuspend, psciSystemSuspend, suspendEntry, psciDoCpuOff,
      fillStep, psciCpuOnStart, pwrDomainOn, psciCpuSuspendStart, psciWarmbootEntrypoint] at hres
    repeat' split at hres
    all_goals simp at hres

/-! ### Whole runs -/

/-- Every CPU that has left `psci_warmboot_entrypoint` did so as the last call accepted before that
asked for. -/
def EnteredAsAsked (tr : List (Event n)) : Prop :=
  ∀ later earlier i r, tr = later ++ .entered i r :: earlier → lastAccepted i earlier = some r

def Waiting (s : State n) (j : Fin n) : Prop := (s.cpu j).phase = .down ∨
    (s.cpu j).phase = .off ∧ (s.cpu j).aff = .onPending ∧ (s.cpu j).lock = false

theorem EnteredAsAsked.cons (h : EnteredAsAsked tr)
    (he : ∀ i r, e = .entered i r → lastAccepted i tr = some r) : EnteredAsAsked (e :: tr) := by
  intro later earlier i r heq
  cases later with
  | nil =>
    cases heq
    exact he i r rfl
  | cons x later =>
    cases heq
    exact h later earlier i r rfl

theorem inv_init {w : World n} (h : Init w) :
    Inv w.state (accepted w.trace) ∧ EnteredAsAsked w.trace := by
  obtain ⟨htrace, primary, hcpu⟩ := h
  have hnone (k j : Fin n) : ¬Relies w.state k j := by
    obtain ⟨-, haff, hphase⟩ := hcpu k
    split at hphase <;> simp_all [Relies]
  refine ⟨⟨?_, ?_, ?_⟩, ?_⟩
  · intro k k' j hk
    exact absurd hk (hnone k j)
  · intro k
    obtain ⟨-, haff, hphase⟩ := hcpu k
    split at hphase <;> simp_all [Sound]
  · intro j hj
    simp [(hcpu j).1] at hj
  · intro later earlier i r heq
    simp [htrace] at heq

theorem inv_step {w w' : World n}
    (h : Inv w.state (accepted w.trace) ∧ EnteredAsAsked w.trace) (hstep : Step FillsFree w w') :
    Inv w'.state (accepted w'.trace) ∧ EnteredAsAsked w'.trace := by
  obtain ⟨a, e, hres, hfree, htrace⟩ := hstep
  rw [htrace]
  refine ⟨step_inv h.1 hres hfree, h.2.cons ?_⟩
  rintro i r rfl
  exact (leave_inv h.1 (step_entered hres)).1

theorem warmboot_entry_point {w : World n} (hw : Reachable Init (Step FillsFree) w) :
    EnteredAsAsked w.trace ∧
      ∀ j, Waiting w.state j → lastAccepted j w.trace = some (w.state.cpu j).ep := by
  obtain ⟨hinv, hentered⟩ := hw.invariant (fun _ => inv_init) (fun _ _ => inv_step)
  refine ⟨hentered, ?_⟩
  intro j hj
  have hs := hinv.sound j
  rcases hj with hp | ⟨hp, haff, hlock⟩
  · simp only [Sound, hp] at hs
    exact hs.2
  · simp only [Sound, hp] at hs
    exact hs.2 haff hlock

/-! ### Runs of two CPUs -/

instance (s : State n) (i j : Fin n) : Decidable (Relies s i j) :=
  match hp : (s.cpu i).phase with
  | .running => isFalse (by simp [Relies, hp])
  | .onFill t _ _ _ => decidable_of_iff (t = j) (by simp [Relies, hp])
  | .onLock t _ => decidable_of_iff (t = j) (by simp [Relies, hp])
  | .onPower t _ => decidable_of_iff (t = j) (by simp [Relies, hp])
  | .suspendFill _ _ _ _ => decidable_of_iff (i = j) (by simp [Relies, hp])
  | .suspending _ => decidable_of_iff (i = j) (by simp [Relies, hp])
  | .down => decidable_of_iff (i = j) (by simp [Relies, hp])
  | .off =>
    decidable_of_iff (i = j ∧ (s.cpu i).aff = .onPending ∧ (s.cpu i).lock = false)
      (by simp [Relies, hp])
  | .leaving _ => isFalse (by simp [Relies, hp])

def fillsFree (s : State n) : Event n → Bool
  | .fill _ j => ∀ i, ¬Relies s i j
  | _ => true

theorem fillsFree_spec {s : State n} {e : Event n} (h : fillsFree s e) : FillsFree s e := by
  rintro i j rfl
  simpa [fillsFree, Free] using h

def exec (allowed : State n → Event n → Bool) (w : World n) : List (Action n) → Option (World n)
  | [] => some w
  | a :: as =>
    match step w.state a with
    | none => none
    | some (s, e) => if allowed w.state e then exec allowed ⟨s, e :: w.trace⟩ as else none

theorem reachable_exec {allowed : State n → Event n → Bool} {P : State n → Event n → Prop}
    (hP : ∀ s e, allowed s e → P s e) {w w' : World n} {as : List (Action n)}
    (hw : Reachable Init (Step P) w) (hexec : exec allowed w as = some w') :
    Reachable Init (Step P) w' := by
  induction as generalizing w with
  | nil =>
    cases hexec
    exact hw
  | cons a as ih =>
    simp only [exec] at hexec
    split at hexec
    · cases hexec
    · rename_i s e hstep
      split at hexec
      · rename_i hallowed
        exact ih (.step hw ⟨a, e, hstep, hP _ _ hallowed, rfl⟩) hexec
      · cases hexec

def callerEl2 : NsState := ⟨true, true, false, false⟩

def zeroEp : EpInfo := ⟨false, 0, 0, .aarch64 false⟩

def coldBoot (primary : Fin n) : World n :=
  ⟨⟨fun i => if i = primary then ⟨.on, zeroEp, false, .running⟩ else ⟨.off, zeroEp, false, .off⟩⟩,
    []⟩

theorem init_coldBoot (primary : Fin n) : Init (coldBoot primary) := by
  refine ⟨rfl, primary, fun i => ?_⟩
  by_cases h : i = primary <;> simp [coldBoot, h]

def fillAll (i : Fin 2) : List (Action 2) := List.replicate 6 (.store i true)

/-- CPU 0 turns CPU 1 on, which enters at `0x1000` with `1` and suspends itself to resume at
`0x2000` with `2`. -/
def onAndDown : List (Action 2) := [.cpuOn 0 (some 1) 0x1000 1 callerEl2 true] ++ fillAll 0 ++
  [.lock 0, .power 0 true, .warmboot 1, .leave 1,
    .cpuSuspend 1 .powerDown 0x2000 2 callerEl2 true] ++ fillAll 1 ++ [.suspendStart 1 none]

/-- CPU 0 tries to turn CPU 1 on at `0x3000` with `3`, and CPU 1 wakes up. -/
def refusedAndUp : List (Action 2) :=
  [.cpuOn 0 (some 1) 0x3000 3 callerEl2 true] ++ fillAll 0 ++ [.lock 0, .warmboot 1, .leave 1]

theorem warmboot_entry_point_down : ∃ w : World 2, Reachable Init (Step FillsFree) w ∧
    Waiting w.state 1 ∧ EnteredAsAsked w.trace ∧
    lastAccepted 1 w.trace = some (w.state.cpu 1).ep := by
  obtain ⟨w, hexec⟩ : ∃ w, exec fillsFree (coldBoot 0) onAndDown = some w :=
    Option.isSome_iff_exists.mp (by decide +kernel)
  have hdown : (exec fillsFree (coldBoot 0) onAndDown).map (fun w => (w.state.cpu 1).phase) =
      some .down := by decide +kernel
  have hw := reachable_exec (fun _ _ => fillsFree_spec) (.init (init_coldBoot 0)) hexec
  obtain ⟨hentered, hwait⟩ := warmboot_entry_point hw
  have hwaiting : Waiting w.state 1 := by
    left
    simpa [hexec] using hdown
  exact ⟨w, hw, hwaiting, hentered, hwait 1 hwaiting⟩

theorem warmboot_redirected : ∃ w : World 2, Reachable Init (Step fun _ _ => True) w ∧
    ∃ earlier, w.trace = .entered 1 (nsEpInfo callerEl2 0x3000 3) :: earlier ∧
      .cpuOn 0 1 (nsEpInfo callerEl2 0x3000 3) .alreadyOn ∈ earlier ∧
      lastAccepted 1 earlier = some (nsEpInfo callerEl2 0x2000 2) := by
  obtain ⟨w, hexec⟩ :
      ∃ w, exec (fun _ _ => true) (coldBoot 0) (onAndDown ++ refusedAndUp) = some w :=
    Option.isSome_iff_exists.mp (by decide +kernel)
  have htrace : ∃ earlier, (exec (fun _ _ => true) (coldBoot 0) (onAndDown ++ refusedAndUp)).map
      (·.trace) = some (.entered 1 (nsEpInfo callerEl2 0x3000 3) :: earlier) ∧
      .cpuOn 0 1 (nsEpInfo callerEl2 0x3000 3) .alreadyOn ∈ earlier ∧
      lastAccepted 1 earlier = some (nsEpInfo callerEl2 0x2000 2) :=
    ⟨_, rfl, by decide +kernel, by decide +kernel⟩
  refine ⟨w, reachable_exec (fun _ _ _ => trivial) (.init (init_coldBoot 0)) hexec, ?_⟩
  simpa [hexec] using htrace

end MtkBoot.Psci
