import MtkBoot.Spmc.Disjoint

/-! Which borrowers still have a region.  The store has one count of uses for all of them; the
ledger counts for each how often it has retrieved and relinquished the region of a transaction. -/

namespace MtkBoot.Spmc

open Lib List Option

structure Ledger where
  store : Store
  retrieved : Nat → Nat → Nat
  relinquished : Nat → Nat → Nat

variable {f : Nat → Nat → Nat} {h h' sp n : Nat} {known : Nat → Bool} {s' : Store} {g g' : Ledger}

open Ledger

def bump (f : Nat → Nat → Nat) (h sp : Nat) : Nat → Nat → Nat :=
  fun h' sp' => if h' = h ∧ sp' = sp then f h' sp' + 1 else f h' sp'

def clear (f : Nat → Nat → Nat) (h : Nat) : Nat → Nat → Nat :=
  fun h' sp => if h' = h then 0 else f h' sp

theorem bump_other (hne : h' ≠ h) : bump f h sp h' = f h' := by
  funext sp'
  simp [bump, hne]

theorem bump_self (f : Nat → Nat → Nat) (h sp sp' : Nat) :
    bump f h sp h sp' = if sp' = sp then f h sp' + 1 else f h sp' := by simp [bump]

theorem clear_other (hne : h' ≠ h) : clear f h h' = f h' := by
  funext sp
  simp [clear, hne]

theorem clear_self (f : Nat → Nat → Nat) (h sp : Nat) : clear f h h sp = 0 := by simp [clear]

def Ledger.record (g : Ledger) (c : Call) (r : Result) (s' : Store) : Ledger :=
  match c.target, r with
  | none, .sent h | none, .fragRx h _ =>
    { store := s', retrieved := clear g.retrieved h, relinquished := clear g.relinquished h }
  | some h, .retrieveResp =>
    match c.retriever with
    | some sp => { g with store := s', retrieved := bump g.retrieved h sp }
    | none => { g with store := s' }
  | some h, .success =>
    match c.relinquisher with
    | some sp => { g with store := s', relinquished := bump g.relinquished h sp }
    | none => { g with store := s' }
  | _, _ => { g with store := s' }

/-- A borrower relinquishes only what it has retrieved, and the count of uses does not overflow. -/
def Ledger.Fair (g : Ledger) (c : Call) : Prop :=
  (∀ h ∈ c.target, ∀ sp ∈ c.relinquisher, g.relinquished h sp < g.retrieved h sp) ∧
  ∀ h ∈ c.target, ∀ p ∈ g.store.lookup h, c.retriever.isSome → inUse g.store.data p + 1 < 2 ^ 64

/-- Every use that the ledger has open is in the count of the object. -/
def Ledger.Covers (g : Ledger) (o : Obj) : Prop := ∃ held : List Nat, held.length ≤ o.inUse ∧
    ∀ sp, g.retrieved o.handle sp ≤ g.relinquished o.handle sp + held.count sp

section Step

variable {c : Call} {r : Result} {s : Store} {objs l pre post : List Obj} {o o' a : Obj}

theorem Ledger.record_other (g : Ledger) (r : Result) (s' : Store) (htarget : c.target ≠ some h)
    (hbegun : c.target = none → ∀ n, r.handle = some n → n ≠ h) : (g.record c r s').retrieved h =
    g.retrieved h ∧ (g.record c r s').relinquished h = g.relinquished h := by
  unfold record
  split
  · rename_i n hnone
    have hne := (hbegun hnone n rfl).symm
    exact ⟨clear_other hne, clear_other hne⟩
  · rename_i n k hnone
    have hne := (hbegun hnone n rfl).symm
    exact ⟨clear_other hne, clear_other hne⟩
  · rename_i n hsome
    have hne : h ≠ n := fun heq => htarget (heq ▸ hsome)
    split
    · exact ⟨bump_other hne, rfl⟩
    · exact ⟨rfl, rfl⟩
  · rename_i n hsome
    have hne : h ≠ n := fun heq => htarget (heq ▸ hsome)
    split
    · exact ⟨rfl, bump_other hne⟩
    · exact ⟨rfl, rfl⟩
  · exact ⟨rfl, rfl⟩

theorem Ledger.Covers.congr (h : g.Covers o) (hhandle : o'.handle = o.handle)
    (huse : o.inUse ≤ o'.inUse) (hret : g'.retrieved o.handle = g.retrieved o.handle)
    (hrel : g'.relinquished o.handle = g.relinquished o.handle) : g'.Covers o' := by
  obtain ⟨held, hlen, hcount⟩ := h
  refine ⟨held, hlen.trans huse, fun sp => ?_⟩
  rw [hhandle, hret, hrel]
  exact hcount sp

theorem Ledger.record_begun (htarget : c.target = none) (hr : r.handle = some n) (sp : Nat) :
    (g.record c r s').retrieved n sp = 0 := by
  unfold record
  rw [htarget]
  cases r with
  | sent k =>
    obtain rfl : k = n := Option.some.inj hr
    exact clear_self _ _ _
  | fragRx k filled =>
    obtain rfl : k = n := Option.some.inj hr
    exact clear_self _ _ _
  | _ => cases hr

theorem Ledger.record_same (g : Ledger) (r : Result) (s' : Store)
    (hret : c.retriever = none ∨ r ≠ .retrieveResp) (hrel : c.relinquisher = none ∨ r ≠ .success)
    (htarget : c.target ≠ none ∨ r.handle = none) : (g.record c r s').retrieved = g.retrieved ∧
    (g.record c r s').relinquished = g.relinquished := by
  unfold record
  split
  · rename_i hnone
    rcases htarget with hne | hne
    · exact absurd hnone hne
    · cases hne
  · rename_i hnone
    rcases htarget with hne | hne
    · exact absurd hnone hne
    · cases hne
  · rw [hret.resolve_right (fun hne => hne rfl)]
    exact ⟨rfl, rfl⟩
  · rw [hrel.resolve_right (fun hne => hne rfl)]
    exact ⟨rfl, rfl⟩
  · exact ⟨rfl, rfl⟩

theorem Ledger.store_record : (g.record c r s').store = s' := by
  unfold record
  split
  any_goals rfl
  · split <;> rfl
  · split <;> rfl

theorem Ledger.Covers.retrieve (h : g.Covers o) (hhandle : o'.handle = o.handle)
    (huse : o'.inUse = o.inUse + 1) (hret : g'.retrieved = bump g.retrieved o.handle sp)
    (hrel : g'.relinquished = g.relinquished) : g'.Covers o' := by
  obtain ⟨held, hlen, hcount⟩ := h
  refine ⟨sp :: held, by rw [length_cons, huse]; omega, fun sp' => ?_⟩
  have hold := hcount sp'
  rw [hhandle, hret, hrel, bump_self, count_cons]
  by_cases heq : sp' = sp
  · subst heq
    simp only [if_true, beq_self_eq_true]
    omega
  · rw [if_neg heq]
    omega

theorem Ledger.Covers.relinquish (h : g.Covers o)
    (hhandle : o'.handle = o.handle) (huse : o'.inUse = o.inUse - 1)
    (hret : g'.retrieved = g.retrieved) (hrel : g'.relinquished = bump g.relinquished o.handle sp)
    (hfair : g.relinquished o.handle sp < g.retrieved o.handle sp) : g'.Covers o' := by
  obtain ⟨held, hlen, hcount⟩ := h
  have hmem : sp ∈ held := by
    have := hcount sp
    exact count_pos_iff.mp (by omega)
  refine ⟨held.erase sp, by rw [length_erase_of_mem hmem, huse]; omega, fun sp' => ?_⟩
  have hold := hcount sp'
  rw [hhandle, hret, hrel, bump_self]
  by_cases heq : sp' = sp
  · subst heq
    rw [if_pos rfl, count_erase_self]
    omega
  · rw [if_neg heq, count_erase_of_ne heq]
    exact hold

theorem Filled.covers {given : List Range → Prop} (hf : Filled pre post h given r l)
    (hrest : ∀ a ∈ pre ++ post, g.Covers a)
    (hown : ∀ o, o.handle = h → r.handle = some h → g.Covers o) : ∀ a ∈ l, g.Covers a := by
  rcases hf.perm with ⟨-, rfl⟩ | ⟨hr, o, hperm, -, hhandle, -⟩
  · exact hrest
  · intro a ha
    rcases mem_cons.mp (hperm.mem_iff.mp ha) with rfl | hmem
    · exact hown a hhandle hr
    · exact hrest a hmem

theorem Filled.handle_eq {given : List Range → Prop} (hf : Filled pre post h given r l)
    (hr : r.handle = some n) : n = h := by
  rcases hf.perm with ⟨hnone, -⟩ | ⟨hsome, -⟩
  · cases hnone.symm.trans hr
  · exact Option.some.inj (hr.symm.trans hsome)

theorem Ledger.covers_middle (hinv : Inv g.store (pre ++ o :: post))
    (htarget : c.target = some o.handle) (hcov : ∀ a ∈ pre ++ o :: post, g.Covers a)
    (ho' : (g.record c r s').Covers o') : ∀ a ∈ pre ++ o' :: post, (g.record c r s').Covers a := by
  intro a ha
  rcases mem_cons.mp (perm_middle.mem_iff.mp ha) with rfl | hmem
  · exact ho'
  · have hne := hinv.others a hmem
    obtain ⟨hret, hrel⟩ := g.record_other r s' (h := a.handle)
      (by rw [htarget]; exact fun heq => hne (Option.some.inj heq).symm)
      (fun hnone => by rw [htarget] at hnone; cases hnone)
    exact (hcov a (perm_middle.mem_iff.mpr (mem_cons_of_mem _ hmem))).congr rfl le_rfl hret hrel

theorem Effect.covers (hinv : Inv g.store objs) (hfresh : Fresh g.store c) (hfair : g.Fair c)
    (hcov : ∀ a ∈ objs, g.Covers a) (he : Effect g.store objs c r l) :
    ∀ a ∈ l, (g.record c r s').Covers a := by
  cases he with
  | refused code =>
    obtain ⟨hret, hrel⟩ := g.record_same (c := c) (.error code) s' (by simp) (by simp) (.inr rfl)
    exact fun a ha => (hcov a ha).congr rfl le_rfl (by rw [hret]) (by rw [hrel])
  | begun htarget hfilled =>
    refine hfilled.covers (fun a ha => ?_) fun o ho hr =>
      ⟨[], Nat.zero_le _, fun sp => by rw [ho, record_begun htarget hr]; exact Nat.zero_le _⟩
    rw [append_nil] at ha
    obtain ⟨hret, hrel⟩ :=
      g.record_other r s' (h := a.handle) (by rw [htarget]; simp) fun _ n hn => by
        rw [hfilled.handle_eq hn]
        exact (hinv.next_free hfresh htarget a ha).symm
    exact (hcov a ha).congr rfl le_rfl hret hrel
  | @continued pre post l o r hobjs htarget hcall hopen hfilled =>
    subst hobjs
    obtain ⟨hret, hrel⟩ :=
      g.record_same r s' (.inl hcall.1) (.inl hcall.2) (.inl (by simp [htarget]))
    have hidle := (hinv.stored o (by simp)).idle hopen
    refine hfilled.covers (fun a ha => ?_) fun o' ho' _ =>
      (hcov o (by simp)).congr ho' (by omega) (by rw [hret]) (by rw [hrel])
    exact (hcov a (perm_middle.mem_iff.mpr (mem_cons_of_mem _ ha))).congr rfl le_rfl
      (by rw [hret]) (by rw [hrel])
  | @retrieved pre post o o' err hobjs htarget hcall hcomplete hdesc hfilled huse =>
    subst hobjs
    have hhandle : o'.handle = o.handle := by unfold Obj.handle Obj.mem; rw [hdesc]
    have ho := hcov o (by simp)
    refine covers_middle hinv htarget hcov ?_
    cases hsp : c.retriever with
    | none =>
      obtain ⟨hret, hrel⟩ := g.record_same (err.elim .retrieveResp .error) s'
        (.inl hsp) (.inl hcall) (.inl (by simp [htarget]))
      rw [hsp, if_pos rfl] at huse
      exact ho.congr hhandle (by omega) (by rw [hret]) (by rw [hrel])
    | some sp =>
      have hbound := hfair.2 o.handle htarget _ hinv.lookup_handle (by rw [hsp]; rfl)
      rw [inUse_at hinv.holds.laid hinv.holds.wf_of_split] at hbound
      rw [hsp, if_neg (by simp), u64_of_lt hbound] at huse
      cases err with
      | none =>
        refine ho.retrieve hhandle huse (show _ = bump _ _ sp from ?_) ?_ <;>
          simp [record, htarget, hsp]
      | some code =>
        obtain ⟨hret, hrel⟩ :=
          g.record_same (c := c) (.error code) s' (by simp) (by simp) (.inr rfl)
        exact ho.congr hhandle (by omega) (by rw [elim_some, hret]) (by rw [elim_some, hrel])
  | @relinquished pre post o sp hobjs htarget hcall huse =>
    subst hobjs
    refine covers_middle hinv htarget hcov ((hcov o (by simp)).relinquish (by rfl) (by rfl) ?_ ?_
      (hfair.1 _ htarget _ hcall.2)) <;> simp [record, htarget, hcall.2]
  | @reclaimed pre post o hobjs htarget hcall hcomplete huse =>
    subst hobjs
    obtain ⟨hret, hrel⟩ :=
      g.record_same .success s' (.inl hcall.1) (.inl hcall.2) (.inl (by simp [htarget]))
    exact fun a ha => (hcov a (perm_middle.mem_iff.mpr (mem_cons_of_mem _ ha))).congr rfl
      le_rfl (by rw [hret]) (by rw [hrel])

end Step

def Ledger.Init (g : Ledger) : Prop :=
  g.store.Init ∧ (∀ h sp, g.retrieved h sp = 0) ∧ ∀ h sp, g.relinquished h sp = 0

def FairStep (known : Nat → Bool) (g g' : Ledger) : Prop :=
  ∃ c r s', Fresh g.store c ∧ g.Fair c ∧ call known g.store c = some (s', r) ∧ g' = g.record c r s'

theorem ledger_covers (hg : Reachable Init (FairStep known) g) :
    ∃ objs, Inv g.store objs ∧ ∀ o ∈ objs, g.Covers o := by
  refine hg.invariant (I := fun g => ∃ objs, Inv g.store objs ∧ ∀ o ∈ objs, g.Covers o)
    (fun _ h => ⟨[], h.1.inv, by simp⟩) ?_
  rintro g _ ⟨objs, hinv, hcov⟩ ⟨c, r, s', hfresh, hfair, hres, rfl⟩
  obtain ⟨l, hl, he⟩ := call_inv hinv hfresh hres
  exact ⟨l, by rw [store_record]; exact hl, he.covers hinv hfresh hfair hcov⟩

theorem reclaim_after_relinquish {known : Nat → Bool} {g : Ledger} {s' : Store} {secure : Bool}
    {h memFlags : Nat} {hook : Int} (hg : Reachable Init (FairStep known) g)
    (hres : call known g.store (.reclaim secure h memFlags hook) = some (s', .success)) (sp : Nat) :
    g.retrieved h sp ≤ g.relinquished h sp := by
  obtain ⟨objs, hinv, hcov⟩ := ledger_covers hg
  obtain ⟨l, -, he⟩ := memReclaim_effect hinv (Option.some.inj hres)
  generalize hr : Result.success = r at he
  cases he with
  | refused code => cases hr
  | begun htarget hfilled => cases htarget
  | continued hobjs htarget hcall hopen hfilled =>
    subst hr
    cases hfilled
  | retrieved err => cases err <;> cases hr
  | relinquished hobjs htarget hcall huse => cases hcall.2
  | @reclaimed pre post o hobjs htarget hcall hcomplete huse =>
    have hhandle : h = o.handle := Option.some.inj htarget
    obtain ⟨held, hlen, hcount⟩ := hcov o (by simp [hobjs])
    have hnil : held = [] := eq_nil_of_length_eq_zero (by omega)
    have hsp := hcount sp
    rwa [hnil, count_nil, ← hhandle] at hsp

instance (g : Ledger) (c : Call) : Decidable (g.Fair c) := inferInstanceAs (Decidable (_ ∧ _))

def lendHeader (handle : Nat) : Bytes :=
  leBytes 8 0 ++ leBytes 8 handle ++ leBytes 8 0 ++ leBytes 4 16 ++ leBytes 4 2 ++ leBytes 4 48 ++
    leBytes 12 0 ++ (leBytes 2 0x8001 ++ leBytes 2 0 ++ leBytes 4 80 ++ leBytes 8 0) ++
    (leBytes 2 0x8002 ++ leBytes 2 0 ++ leBytes 4 80 ++ leBytes 8 0)

def mailOf (b : Bytes) : Mailbox := { pageCount := 1, tx := fun i => b.getD i 0, full := false }

def lendCall : Call :=
  .send 0x72 false v11 112 112 0 0
    (mailOf (lendHeader 0 ++ (leBytes 4 1 ++ leBytes 4 1 ++ leBytes 8 0) ++
    (leBytes 8 0 ++ leBytes 4 1 ++ leBytes 4 0))) 0

def retrieveCall (h sp : Nat) : Call := .retrieve true v11 80 80 0 0 (mailOf (lendHeader h)) sp

def relinquishCall (h sp : Nat) : Call :=
  .relinquish true (mailOf (leBytes 8 h ++ leBytes 4 0 ++ leBytes 4 1 ++ leBytes 2 sp)) sp

def emptyLedger : Ledger :=
  { store := emptyStore, retrieved := fun _ _ => 0, relinquished := fun _ _ => 0 }

def runLedger (ok : Ledger → Call → Bool) (known : Nat → Bool) : Ledger → List Call → Option Ledger
  | g, [] => some g
  | g, c :: cs =>
    if ok g c then
      (call known g.store c).bind fun res => runLedger ok known (g.record c res.2 res.1) cs
    else none

theorem runLedger_reachable {ok : Ledger → Call → Bool} {step : Ledger → Ledger → Prop}
    (hstep : ∀ g c r s', ok g c → call known g.store c = some (s', r) → step g (g.record c r s'))
    {cs : List Call} (hg : Reachable Init step g) (hrun : runLedger ok known g cs = some g') :
    Reachable Init step g' := by
  induction cs generalizing g with
  | nil => exact Option.some.inj hrun ▸ hg
  | cons c cs ih =>
    rcases ite_eq_iff.mp hrun with ⟨hok, hrun⟩ | ⟨-, hrun⟩
    · obtain ⟨⟨s', r⟩, hcall, hrun⟩ := bind_eq_some_iff.mp hrun
      exact ih (hg.step (hstep _ _ _ _ hok hcall)) hrun
    · cases hrun

theorem emptyLedger_init : emptyLedger.Init := ⟨emptyStore_init, fun _ _ => rfl, fun _ _ => rfl⟩

/-- What the owner's reclaim of the first transaction answers, with the counts of the first
borrower. -/
def reclaimFirst (g : Ledger) : Option (Result × Nat × Nat) :=
  (call (fun _ => true) g.store (.reclaim false 0xffffffc0 0 0)).map fun res =>
    (res.2, g.retrieved 0xffffffc0 0x8001, g.relinquished 0xffffffc0 0x8001)

theorem reclaimFirst_success {m : Nat} (h : reclaimFirst g = some (.success, m, n)) :
    (∃ s', call (fun _ => true) g.store (.reclaim false 0xffffffc0 0 0) = some (s', .success)) ∧
      g.retrieved 0xffffffc0 0x8001 = m ∧ g.relinquished 0xffffffc0 0x8001 = n := by
  obtain ⟨⟨s', r⟩, hcall, heq⟩ := map_eq_some_iff.mp h
  simp only [Prod.mk.injEq] at heq
  exact ⟨⟨s', heq.1 ▸ hcall⟩, heq.2.1, heq.2.2⟩

theorem reclaim_after_relinquish_once : ∃ g : Ledger, g.retrieved 0xffffffc0 0x8001 = 1 ∧
    g.retrieved 0xffffffc0 0x8001 ≤ g.relinquished 0xffffffc0 0x8001 := by
  have hrun :
    ((runLedger (fun g c => decide (Fresh g.store c ∧ g.Fair c)) (fun _ => true) emptyLedger
      [lendCall, retrieveCall 0xffffffc0 0x8001, relinquishCall 0xffffffc0 0x8001]).bind
    reclaimFirst) = some (.success, 1, 1) := by decide +kernel
  obtain ⟨g, hg, hreclaim⟩ := bind_eq_some_iff.mp hrun
  obtain ⟨⟨s', hcall⟩, hret, -⟩ := reclaimFirst_success hreclaim
  have hreach : Reachable Init (FairStep fun _ => true) g := by
    refine runLedger_reachable (fun g c r s' hok hcall => ?_) (.init emptyLedger_init) hg
    obtain ⟨hfresh, hfair⟩ := of_decide_eq_true hok
    exact ⟨c, r, s', hfresh, hfair, hcall, rfl⟩
  exact ⟨g, hret, reclaim_after_relinquish hreach hcall 0x8001⟩

/-- The second borrower relinquishes what only the first one has retrieved. -/
theorem reclaimed_while_borrowed : ∃ g s',
    Reachable Init (fun g g' => ∃ c r s', call (fun _ => true) g.store c = some (s', r) ∧
      g' = g.record c r s') g ∧
    call (fun _ => true) g.store (.reclaim false 0xffffffc0 0 0) = some (s', .success) ∧
    g.relinquished 0xffffffc0 0x8001 < g.retrieved 0xffffffc0 0x8001 := by
  have hrun : ((runLedger (fun _ _ => true) (fun _ => true) emptyLedger
      [lendCall, retrieveCall 0xffffffc0 0x8001, relinquishCall 0xffffffc0 0x8002]).bind
    reclaimFirst) = some (.success, 1, 0) := by decide +kernel
  obtain ⟨g, hg, hreclaim⟩ := bind_eq_some_iff.mp hrun
  obtain ⟨⟨s', hcall⟩, hret, hrel⟩ := reclaimFirst_success hreclaim
  refine ⟨g, s', ?_, hcall, by omega⟩
  exact runLedger_reachable (fun g c r s' _ hcall => ⟨c, r, s', hcall, rfl⟩)
    (.init emptyLedger_init) hg

end MtkBoot.Spmc
