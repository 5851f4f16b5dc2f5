import MtkBoot.Lib.System
import MtkBoot.Spmc.Step

/-! The object store over whole runs.  A call exchanges at most the object of its own
transaction. -/

namespace MtkBoot.Spmc

open Lib List Obj Option

variable {a : Obj} {c : Call} {h : Nat} {l objs rest : List Obj} {new old : Option Obj} {r : Result}
  {s s' : Store}

def Result.handle : Result → Option Nat
  | .fragRx h _ => some h
  | .sent h => some h
  | _ => none

/-- `l` has `new` in the place of `old`, and all else that `objs` has. -/
structure Exchange (objs l rest : List Obj) (old new : Option Obj) (h : Nat) : Prop where
  before : objs.Perm (old.toList ++ rest)
  after : l.Perm (new.toList ++ rest)
  handle_old : ∀ o ∈ old, o.handle = h
  handle_new : ∀ o ∈ new, o.handle = h
  stored : ∀ o ∈ new, o.Stored
  rest : ∀ a ∈ rest, a.handle ≠ h

section Step

variable {pre post : List Obj} {o o' : Obj} {known : Nat → Bool} {given : List Range → Prop}

/-- The fragment ends the transaction, or its object is with the others. -/
theorem Filled.perm (hf : Filled pre post h given r l) : (r.handle = none ∧ l = pre ++ post) ∨
    (r.handle = some h ∧ ∃ o, l.Perm (o :: (pre ++ post)) ∧ o.Stored ∧ o.handle = h ∧
      (o.Complete → given o.ranges ∧ ∀ a ∈ pre ++ post, a.Complete → o.Apart a)) := by
  cases hf with
  | dropped code => exact .inl ⟨rfl, rfl⟩
  | @partly o n hstored hopen hhandle =>
    exact .inr ⟨rfl, o, perm_middle, hstored, hhandle, fun hc => absurd hc hopen⟩
  | @whole o l hplace hstored hcomplete hhandle huse hranges hapart =>
    refine .inr ⟨rfl, o, ?_, hstored, hhandle, fun _ => ⟨hranges, hapart⟩⟩
    rcases hplace with rfl | rfl
    · exact perm_middle
    · exact perm_append_singleton _ _

theorem Filled.exchange (hf : Filled pre post h given r l)
    (hobjs : objs.Perm (old.toList ++ (pre ++ post))) (hold : ∀ o ∈ old, o.handle = h)
    (hrest : ∀ a ∈ pre ++ post, a.handle ≠ h) : ∃ new, Exchange objs l (pre ++ post) old new h := by
  rcases hf.perm with ⟨-, rfl⟩ | ⟨-, o, hperm, hstored, hhandle, -⟩
  · exact ⟨none, hobjs, .refl _, hold, by simp, by simp, hrest⟩
  · exact ⟨some o, hobjs, hperm, hold, by simpa using hhandle, by simpa using hstored, hrest⟩

theorem exchange_middle (hinv : Inv s (pre ++ o :: post))
    (hh : o'.handle = o.handle) (hs : o'.Stored) :
    Exchange (pre ++ o :: post) (pre ++ o' :: post) (pre ++ post) (some o) (some o') o.handle :=
  ⟨perm_middle, perm_middle, by simp, by simpa using hh, by simpa using hs, hinv.others⟩

theorem Effect.exchange (hinv : Inv s objs) (hfresh : Fresh s c) (he : Effect s objs c r l) :
    l = objs ∨ ∃ rest old new, Exchange objs l rest old new (c.target.getD s.nextHandle) := by
  cases he with
  | refused code => exact .inl rfl
  | begun htarget hfilled =>
    have hfree := hinv.next_free hfresh htarget
    rw [← append_nil objs] at hfree
    have hnothing : objs.Perm ((none : Option Obj).toList ++ (objs ++ [])) := by simp
    obtain ⟨new, hx⟩ := hfilled.exchange hnothing (by simp) hfree
    refine .inr ⟨objs ++ [], none, new, ?_⟩
    rw [htarget]
    exact hx
  | @continued pre post l o r hobjs htarget _ hopen hfilled =>
    subst hobjs
    have hmiddle : (pre ++ o :: post).Perm ((some o).toList ++ (pre ++ post)) := perm_middle
    obtain ⟨new, hx⟩ := hfilled.exchange hmiddle (by simp) hinv.others
    refine .inr ⟨pre ++ post, some o, new, ?_⟩
    rw [htarget]
    exact hx
  | @retrieved pre post o o' err hobjs htarget _ hcomplete hdesc hfilled huse =>
    subst hobjs
    have hstored := hinv.stored o (by simp)
    have hmem : o'.mem = o.mem := by unfold mem; rw [hdesc]
    refine .inr ⟨pre ++ post, some o, some o', ?_⟩
    rw [htarget]
    refine exchange_middle hinv (by unfold Obj.handle; rw [hmem])
      ⟨hfilled ▸ hstored.header, fun _ => ?_, ?_⟩
    · rw [hmem, hdesc]
      exact hstored.checked hcomplete
    · intro hn
      exact absurd (show o'.filled = o'.desc.length by rw [hfilled, hdesc]; exact hcomplete) hn
  | @relinquished pre post o spId hobjs htarget _ huse =>
    subst hobjs
    have hstored := hinv.stored o (by simp)
    refine .inr ⟨pre ++ post, some o, some { o with inUse := o.inUse - 1 }, ?_⟩
    rw [htarget]
    exact exchange_middle hinv rfl
      ⟨hstored.header, hstored.checked, fun hn => absurd (hstored.idle hn) huse⟩
  | @reclaimed pre post o hobjs htarget _ hcomplete huse =>
    subst hobjs
    refine .inr ⟨pre ++ post, some o, none, ?_⟩
    rw [htarget]
    exact ⟨perm_middle, .refl _, by simp, by simp, by simp, hinv.others⟩

theorem Exchange.stored_all (hx : Exchange objs l rest old new h) (hs : ∀ o ∈ objs, o.Stored) :
    ∀ o ∈ l, o.Stored := by
  intro o ho
  rw [hx.after.mem_iff, mem_append, mem_toList] at ho
  rcases ho with hnew | hrest
  · exact hx.stored o hnew
  · exact hs o (hx.before.mem_iff.mpr (mem_append_right _ hrest))

theorem Exchange.distinct (hx : Exchange objs l rest old new h) (hd : (objs.map Obj.handle).Nodup) :
    (l.map Obj.handle).Nodup := by
  rw [(hx.before.map Obj.handle).nodup_iff, map_append] at hd
  rw [(hx.after.map Obj.handle).nodup_iff, map_append]
  cases new with
  | none => exact (nodup_append.mp hd).2.1
  | some o =>
    refine nodup_cons.mpr ⟨fun hmem => ?_, (nodup_append.mp hd).2.1⟩
    obtain ⟨a, ha, heq⟩ := mem_map.mp hmem
    exact hx.rest a ha (heq.trans (hx.handle_new o rfl))

theorem call_inv (hinv : Inv s objs) (hfresh : Fresh s c) (hres : call known s c = some (s', r)) :
    ∃ l, Inv s' l ∧ Effect s objs c r l := by
  obtain ⟨l, hl, he⟩ := call_effect hinv hfresh hres
  rcases he.exchange hinv hfresh with rfl | ⟨rest, old, new, hx⟩
  · exact ⟨l, ⟨hl, hinv.stored, hinv.distinct⟩, he⟩
  · exact ⟨l, ⟨hl, hx.stored_all hinv.stored, hx.distinct hinv.distinct⟩, he⟩

theorem Effect.keeps (hinv : Inv s objs) (hfresh : Fresh s c) (he : Effect s objs c r l)
    (ha : a ∈ objs) (hne : c.target ≠ some a.handle) : a ∈ l := by
  rcases he.exchange hinv hfresh with rfl | ⟨rest, old, new, hx⟩
  · exact ha
  have hmem := hx.before.mem_iff.mp ha
  rw [mem_append, mem_toList] at hmem
  refine hx.after.mem_iff.mpr (mem_append_right _ (hmem.resolve_left fun hold => ?_))
  have hh := hx.handle_old a hold
  cases hc : c.target with
  | none =>
    rw [hc] at hh
    exact hinv.next_free hfresh hc a ha hh
  | some t =>
    rw [hc] at hh hne
    exact hne (by rw [hh]; rfl)

theorem Effect.brings (hinv : Inv s objs) (hfresh : Fresh s c) (he : Effect s objs c r l)
    (ha : a ∈ l) : a ∈ objs ∨ a.handle = c.target.getD s.nextHandle := by
  rcases he.exchange hinv hfresh with rfl | ⟨rest, old, new, hx⟩
  · exact .inl ha
  · rw [hx.after.mem_iff, mem_append, mem_toList] at ha
    rcases ha with hnew | hrest
    · exact .inr (hx.handle_new a hnew)
    · exact .inl (hx.before.mem_iff.mpr (mem_append_right _ hrest))

theorem Inv.lookup_handle (hinv : Inv s (pre ++ o :: post)) :
    s.lookup o.handle = some (extent enc pre) :=
  hinv.holds.lookup_eq hinv.length fun a ha => hinv.others a ha

end Step

def FreshStep (known : Nat → Bool) (s s' : Store) : Prop :=
  ∃ c r, Fresh s c ∧ call known s c = some (s', r)

theorem Store.Init.inv (h : s.Init) : Inv s [] :=
  ⟨⟨rfl, h.1, by rw [h.1]; exact Nat.zero_le _, h.2.1, by rw [h.2.2]; decide, by simp⟩,
    by simp, nodup_nil⟩

theorem reachable_inv {known : Nat → Bool} (hs : Reachable Store.Init (FreshStep known) s) :
    ∃ objs, Inv s objs := by
  refine hs.invariant (I := fun s => ∃ objs, Inv s objs) (fun _ h => ⟨[], h.inv⟩) ?_
  rintro s s' ⟨objs, hinv⟩ ⟨c, r, hfresh, hres⟩
  obtain ⟨l, hl, -⟩ := call_inv hinv hfresh hres
  exact ⟨l, hl⟩

theorem Effect.told (he : Effect s objs c r l) (hr : r.handle = some h) :
    ∃ o ∈ l, o.handle = h := by
  have hfill : ∀ {pre post : List Obj} {h' : Nat} {given : List Range → Prop},
      Filled pre post h' given r l → ∃ o ∈ l, o.handle = h := by
    intro pre post h' given hf
    rcases hf.perm with ⟨hnone, -⟩ | ⟨hsome, o, hperm, -, hhandle, -⟩
    · cases hnone.symm.trans hr
    · obtain rfl := some.inj (hsome.symm.trans hr)
      exact ⟨o, hperm.mem_iff.mpr mem_cons_self, hhandle⟩
  cases he with
  | refused code => cases hr
  | begun htarget hfilled => exact hfill hfilled
  | continued hobjs htarget hcall hopen hfilled => exact hfill hfilled
  | retrieved err => cases err <;> cases hr
  | relinquished hobjs htarget hcall huse => cases hr
  | reclaimed hobjs htarget hcall hcomplete huse => cases hr

/-- What a call may do to the store. -/
structure Intact (s s' : Store) (objs l : List Obj) (c : Call) (r : Result) : Prop where
  holds : Holds s' l
  size : s'.dataSize = s.dataSize
  keeps : ∀ a ∈ objs, c.target ≠ some a.handle → a ∈ l
  brings : ∀ a ∈ l, a ∈ objs ∨ a.handle = c.target.getD s.nextHandle
  told : ∀ h, r.handle = some h → ∃ pre o post, l = pre ++ o :: post ∧ o.handle = h ∧
    s'.lookup h = some (extent Obj.enc pre)

/-- The store is a sequence of objects without gaps, all with handles of their own, and the next
call leaves those of other transactions alone. -/
def Integrity (known : Nat → Bool) (s : Store) : Prop :=
  ∃ objs, Laid Obj.enc s.data objs ∧ extent Obj.enc objs = s.allocated ∧ s.allocated ≤ s.dataSize ∧
    (objs.map Obj.handle).Nodup ∧
    (∀ pre o post, objs = pre ++ o :: post → s.lookup o.handle = some (extent Obj.enc pre)) ∧
    ∀ c s' r, Fresh s c → call known s c = some (s', r) → ∃ l, Intact s s' objs l c r

theorem store_integrity {known : Nat → Bool} {s : Store}
    (hs : Reachable Store.Init (FreshStep known) s) : Integrity known s := by
  obtain ⟨objs, hinv⟩ := reachable_inv hs
  refine ⟨objs, hinv.holds.laid, hinv.holds.allocated.symm, hinv.holds.room, hinv.distinct, ?_, ?_⟩
  · rintro pre o post rfl
    exact hinv.lookup_handle
  intro c s' r hfresh hres
  obtain ⟨l, hl, he⟩ := call_inv hinv hfresh hres
  refine ⟨l, hl.holds, call_dataSize hres, fun a ha hne => he.keeps hinv hfresh ha hne,
    fun a ha => he.brings hinv hfresh ha, fun h hh => ?_⟩
  obtain ⟨o, ho, rfl⟩ := he.told hh
  obtain ⟨pre, post, rfl⟩ := append_of_mem ho
  exact ⟨pre, o, post, rfl, rfl, hl.lookup_handle⟩

def emptyStore : Store :=
  { data := fun _ => 0, dataSize := 4096, allocated := 0, nextHandle := 0xffffffc0 }

theorem emptyStore_init : emptyStore.Init := ⟨rfl, by decide, rfl⟩

/-! ### The handles come round

A sender that leaves a transfer unfinished keeps its handle.  Transfers that fail use up the
others. -/

def probe : Mailbox := { pageCount := 1, tx := fun i => if i = 28 then 1 else 0, full := false }

def probeCall (total : Nat) : Call := .send 0x73 false v10 total 48 0 0 probe 0

section Probe

variable (known : Nat → Bool)

theorem receive_probe {f : Obj} (hf : f.filled = 0) (hlen : 48 ≤ f.desc.length) {i : Nat}
    (hi : i < 48) : (f.receive (bytesAt probe.tx 0 48)).mem i = probe.tx i := by
  have hsplice : (splice f.desc 0 (bytesAt probe.tx 0 48))[i]? = _ :=
    splice_getElem? (by simpa using hlen) i
  rw [length_bytesAt, if_pos (by omega), bytesAt_getElem?, if_pos (by omega), Nat.sub_zero,
    zero_add] at hsplice
  rw [Obj.receive, mem, setDesc, hf, getD_eq_getElem?_getD, hsplice, getD_some]

theorem probe_accepted (total : Nat) (h : Holds s objs)
    (hroom : s.allocated + (total + 32) ≤ s.dataSize) (ht : total = 48 ∨ total = 64) :
    ∃ s1 o, call known s (probeCall total) = finishDesc known s1 (extent enc objs) v10 0 ∧
      Holds s1 (objs ++ [o]) ∧ s1.nextHandle = u64 (s.nextHandle + 1) ∧ o.handle = s.nextHandle ∧
      o.filled = 48 ∧ o.desc.length = total ∧ ∀ i, 16 ≤ i → i < 48 → o.mem i = probe.tx i := by
  have hsize : objSize total = total + 32 := u64_of_lt (by omega)
  obtain ⟨⟨s0, p⟩, halloc⟩ : ∃ res, s.alloc total = some res := by
    unfold Store.alloc
    rw [if_neg (by omega), if_neg (by omega), if_neg (by omega)]
    exact ⟨_, rfl⟩
  obtain ⟨f, hf, rfl, hlen, hzero, -, -, hnext, -⟩ := h.alloc halloc
  have hcall : call known s (probeCall total) =
      fillDesc known probe s0 (extent enc objs) 48 (2 ^ 3) v10 0 := by
    rw [probeCall, call, memSend, if_neg (by simp), if_neg (by simp)]
    rw [show minDescSize v10 = some 32 from rfl, show typeFlag 0x73 = some (2 ^ 3) from rfl]
    dsimp only
    rw [if_neg (by decide), halloc]
  have hmem : ∀ i < 48, (f.receive (bytesAt probe.tx 0 48)).mem (0 + i) = probe.tx (0 + i) :=
    fun i hi => by
      rw [zero_add]
      exact receive_probe hzero (by omega) hi
  have hlen1 : (f.receive (bytesAt probe.tx 0 48)).desc.length = total := by
    rw [Obj.receive, length_setDesc (by rw [length_bytesAt]; omega), hlen]
  have haccepts : accepts (f.receive (bytesAt probe.tx 0 48)) 48 (2 ^ 3) v10 := by
    have hsender : senderId (f.receive (bytesAt probe.tx 0 48)).mem 0 = senderId probe.tx 0 :=
      rd_congr_at hmem (x := 0) (by decide)
    have hattr : attributes (f.receive (bytesAt probe.tx 0 48)).mem 0 = attributes probe.tx 0 :=
      rd_congr_at hmem (x := 2) (by decide)
    have hflags : flags (f.receive (bytesAt probe.tx 0 48)).mem 0 = flags probe.tx 0 :=
      rd_congr_at hmem (x := 4) (by decide)
    have hstart : validateMtdStart (f.receive (bytesAt probe.tx 0 48)).mem 0 v10 48 total =
        validateMtdStart probe.tx 0 v10 48 total :=
      validateMtdStart_congr (fun i _ hi => hmem i hi) (by omega) (by omega)
    unfold accepts
    rw [hsender, hattr, hflags, hlen1, hstart]
    rcases ht with rfl | rfl <;>
      exact ⟨by decide, fun hns => absurd hns.2 (by decide), by decide, fun _ => by decide⟩
  rw [fillDesc_eq] at hcall
  cases fillWith_taken hf (by omega) hcall.symm with
  | refused hno hx hs' =>
    exact absurd ⟨by decide, by decide, by omega, haccepts⟩ hno
  | @accepted s1 hok hx hs' hn =>
    refine ⟨s1, _, hx, hs', ?_, ?_, ?_, ?_, ?_⟩
    · rw [hn, if_pos hzero, hnext]
    · rw [← hnext]
      exact handle_accept_first (by omega) hzero hf.next
    · show f.filled + 48 = 48
      rw [hzero]
    · rw [length_accept (by omega), hlen1]
    · intro i hi hlt
      rw [mem_accept (by omega) hi]
      exact receive_probe hzero (by omega) hlt

theorem probe_dropped (h : Holds s objs) (hroom : s.allocated + 80 ≤ s.dataSize) :
    ∃ s', call known s (probeCall 48) = some (s', .error invalidParameter) ∧ Holds s' objs ∧
      s'.nextHandle = u64 (s.nextHandle + 1) := by
  obtain ⟨s1, o, hcall, hs1, hnext, -, hfilled, hlen, hmem⟩ :=
    probe_accepted known 48 h hroom (.inl rfl)
  have hwf := hs1.wf_of_split
  have hdata : ∀ i, 16 ≤ i → i < 48 → s1.data (extent enc objs + 32 + i) = probe.tx (0 + i) := by
    intro i hi hlt
    rw [desc_at hs1.laid (by omega), zero_add, hmem i hi hlt]
  have hcount : emadCount s1.data (extent enc objs + 32) = 1 :=
    (rd_congr_from hdata (x := 28) (by decide) (by decide)).trans (by decide)
  have hcomp : compOffset s1.data (extent enc objs + 32) v10 = 0 :=
    (rd_congr_from hdata (x := 36) (by decide) (by decide)).trans (by decide)
  have hstart : validateMtdStart s1.data (extent enc objs + 32) v10 48 48 :=
    (validateMtdStart_congr hdata (by decide) (by decide)).trans (by decide)
  have hcheck : checkObj s1.data (extent enc objs + 32) 48 48 v10 known = some false := by
    unfold checkObj
    rw [if_neg (by decide), if_neg (by rw [hstart]; decide)]
    simp [hcomp, hcount, emadBase, emadStep]
  refine ⟨s1.free (extent enc objs), ?_, ?_, ?_⟩
  · rw [hcall, finishDesc, descFilled_at hs1.laid hwf, descSize_at hs1.laid hwf, hfilled, hlen,
      if_neg (by decide), hcheck]
  · have hfree := hs1.free
    rwa [append_nil] at hfree
  · rw [Store.free_nextHandle, hnext]

theorem probe_kept (h : Holds s objs) (hroom : s.allocated + 96 ≤ s.dataSize) : ∃ s' o,
    call known s (probeCall 64) = some (s', .fragRx s.nextHandle 48) ∧ Holds s' (objs ++ [o]) ∧
      o.handle = s.nextHandle ∧ o.desc.length = 64 ∧ s'.nextHandle = u64 (s.nextHandle + 1) := by
  obtain ⟨s1, o, hcall, hs1, hnext, hhandle, hfilled, hlen, -⟩ :=
    probe_accepted known 64 h hroom (.inr rfl)
  have hwf := hs1.wf_of_split
  refine ⟨s1, o, ?_, hs1, hhandle, hlen, hnext⟩
  rw [hcall, finishDesc, descFilled_at hs1.laid hwf, descSize_at hs1.laid hwf, hfilled, hlen,
    if_pos (by decide), handle_at hs1.laid (by omega), hhandle]

def AnyStep (known : Nat → Bool) (s s' : Store) : Prop := ∃ c r, call known s c = some (s', r)

theorem handles_used_up (h : Holds s objs) (hroom : s.allocated + 80 ≤ s.dataSize) (n : Nat) :
    ∃ s', Reachable (fun x => x = s) (AnyStep known) s' ∧ Holds s' objs ∧
      s'.dataSize = s.dataSize ∧ s'.nextHandle = u64 (s.nextHandle + n) := by
  induction n with
  | zero => exact ⟨s, .init rfl, h, rfl, (u64_of_lt h.next).symm⟩
  | succ n ih =>
    obtain ⟨s1, hreach, hs1, hsize, hnext⟩ := ih
    have halloc := hs1.allocated.trans h.allocated.symm
    obtain ⟨s2, hcall, hs2, hnext2⟩ := probe_dropped known hs1 (by omega)
    refine ⟨s2, hreach.step ⟨_, _, hcall⟩, hs2, (call_dataSize hcall).trans hsize, ?_⟩
    rw [hnext2, hnext, u64, u64, u64, Nat.mod_add_mod, add_assoc]

end Probe

/-- Between the two objects a third one was allocated and freed. -/
theorem store_integrity_two : ∃ s a b, Holds s [a, b] ∧ s.allocated = 192 ∧
    Integrity (fun _ => true) s := by
  obtain ⟨s₁, a, hcall₁, hs₁, ha, hlen₁, hnext₁⟩ :=
    probe_kept (fun _ => true) emptyStore_init.inv.holds (by decide)
  have hsize₁ : s₁.dataSize = 4096 := call_dataSize hcall₁
  have halloc₁ : s₁.allocated = 96 := by
    rw [hs₁.allocated]
    simp [extent, hlen₁]
  obtain ⟨s₂, hcall₂, hs₂, hnext₂⟩ := probe_dropped (fun _ => true) hs₁ (by omega)
  have hsize₂ : s₂.dataSize = 4096 := (call_dataSize hcall₂).trans hsize₁
  have halloc₂ : s₂.allocated = 96 := (hs₂.allocated.trans hs₁.allocated.symm).trans halloc₁
  obtain ⟨s₃, b, hcall₃, hs₃, -, hlen₃, -⟩ := probe_kept (fun _ => true) hs₂ (by omega)
  have hfresh {s : Store} (n : Nat) (hs : Holds s [a]) (hne : a.handle ≠ s.nextHandle) :
      Fresh s (probeCall n) := by
    refine Option.eq_none_iff_forall_ne_some.mpr fun q hq => hne ?_
    obtain ⟨pre, o, post, hl, -, ho⟩ := hs.lookup_some (by simp [hlen₁]) hq
    have hmem : o ∈ [a] := by simp [hl]
    rw [← ho, mem_singleton.mp hmem]
  refine ⟨s₃, a, b, hs₃, ?_, store_integrity (.step (.step (.step (.init emptyStore_init)
    ⟨_, _, by decide, hcall₁⟩) ⟨_, _, hfresh 48 hs₁ ?_, hcall₂⟩) ⟨_, _, hfresh 64 hs₂ ?_, hcall₃⟩)⟩
  · rw [hs₃.allocated]
    simp [extent, hlen₁, hlen₃]
  · rw [ha, hnext₁]
    decide
  · rw [ha, hnext₂, hnext₁]
    decide

theorem handle_given_twice : ∃ s a b, Reachable Store.Init (AnyStep fun _ => true) s ∧
    Holds s [a, b] ∧ a.handle = b.handle := by
  have hempty := emptyStore_init.inv.holds
  obtain ⟨s₁, a, hcall₁, hs₁, ha, hlen, hnext₁⟩ := probe_kept (fun _ => true) hempty (by decide)
  have hsize₁ : s₁.dataSize = 4096 := call_dataSize hcall₁
  have halloc₁ : s₁.allocated = 96 := by
    rw [hs₁.allocated]
    simp [extent, hlen]
  obtain ⟨s₂, hreach, hs₂, hsize₂, hnext₂⟩ :=
    handles_used_up (fun _ => true) hs₁ (by omega) (2 ^ 64 - 1)
  have halloc₂ : s₂.allocated = 96 := (hs₂.allocated.trans hs₁.allocated.symm).trans halloc₁
  obtain ⟨s₃, b, hcall₃, hs₃, hb, -⟩ := probe_kept (fun _ => true) hs₂ (by omega)
  refine ⟨s₃, a, b,
    .step (.trans (.step (.init emptyStore_init) ⟨_, _, hcall₁⟩) hreach) ⟨_, _, hcall₃⟩, hs₃, ?_⟩
  rw [ha, hb, hnext₂, hnext₁]
  decide
end MtkBoot.Spmc
