import MtkBoot.Tcp.Check

/-! What the calls of the stack change in the connections, as seen from the peer's byte stream. -/

namespace MtkBoot.Tcp

open List Conn Function

variable {app : App} {cbd : CbData} {s s' : Stack} {t : Clock} {w : Ulong}

structure Key where
  ip : Nat
  portRemote : Nat
  portLocal : Nat
  deriving DecidableEq, Repr

def Conn.key (c : Conn) : Key := ⟨c.ipRemote, c.portRemote, c.portLocal⟩

def Segment.key (seg : Segment) : Key := ⟨seg.ipSrc, seg.src, seg.dst⟩

/-- How far a connection is: not answered yet, answered, open for data or beyond, or closed by the
peer. -/
inductive Phase
  | opening
  | answered
  | synced
  | remoteClosed
  deriving DecidableEq, Repr

def Status.phase : Status → Phase
  | .connect => .opening
  | .synSent => .opening
  | .synRcvd => .answered
  | .closeWait => .remoteClosed
  | .lastAck => .remoteClosed
  | _ => .synced

/-- The bytes that the callbacks have passed to the application for the connection `id`. -/
def delivered (events : List CbData) (id : Nat) : Bytes :=
  (events.filter fun e => decide (e.conn = id ∧ e.status = .dataRcvd)).flatMap CbData.bytes

@[simp] theorem delivered_append (l l' : List CbData) (id : Nat) :
    delivered (l ++ l') id = delivered l id ++ delivered l' id := by
  simp [delivered]

theorem delivered_eq_nil {l : List CbData} {id : Nat}
    (h : ∀ e ∈ l, e.conn = id → e.status ≠ .dataRcvd) : delivered l id = [] := by
  have hnil : (l.filter fun e => decide (e.conn = id ∧ e.status = .dataRcvd)) = [] := by
    rw [filter_eq_nil_iff]
    intro e he hc
    obtain ⟨hid, hst⟩ := of_decide_eq_true hc
    exact h e he hid hst
  rw [delivered, hnil, flatMap_nil]

/-- `s'` comes from `s` by steps that pass no data to the application, report no end of the peer's
stream and move no connection in it. -/
structure Quiet (s s' : Stack) : Prop where
  next_le : s.next ≤ s'.next
  key : ∀ j < s.next, (s'.heap j).key = (s.heap j).key
  phase : ∀ j < s.next, (s'.heap j).status.phase = (s.heap j).status.phase
  peerSeq : ∀ j < s.next, (s'.heap j).peerSeq = (s.heap j).peerSeq
  fresh : ∀ j, s.next ≤ j → j < s'.next → (s'.heap j).status.phase = .opening
  listed : ∀ j ∈ s'.connHead, j ∈ s.connHead ∨ j < s'.next
  events : ∃ new, s'.events = s.events ++ new ∧
    ∀ e ∈ new, e.conn < s'.next ∧ e.status ≠ .dataRcvd ∧ e.status ≠ .remoteClosing

theorem Quiet.refl (s : Stack) : Quiet s s :=
  ⟨le_rfl, fun _ _ => rfl, fun _ _ => rfl, fun _ _ => rfl, fun _ h h' => by omega,
    fun _ h => .inl h, [], by simp, by simp⟩

theorem Quiet.trans {s'' : Stack} (h : Quiet s s') (h' : Quiet s' s'') : Quiet s s'' := by
  have hle := h.next_le
  have hle' := h'.next_le
  refine ⟨hle.trans hle', fun j hj => ?_, fun j hj => ?_, fun j hj => ?_, fun j hj hj' => ?_,
    fun j hj => ?_, ?_⟩
  · exact (h'.key j (by omega)).trans (h.key j hj)
  · exact (h'.phase j (by omega)).trans (h.phase j hj)
  · exact (h'.peerSeq j (by omega)).trans (h.peerSeq j hj)
  · by_cases hlt : j < s'.next
    · exact (h'.phase j hlt).trans (h.fresh j hj hlt)
    · exact h'.fresh j (by omega) hj'
  · rcases h'.listed j hj with hj | hj
    · exact (h.listed j hj).imp_right fun hj => by omega
    · exact .inr hj
  · obtain ⟨new, heq, hnew⟩ := h.events
    obtain ⟨new', heq', hnew'⟩ := h'.events
    refine ⟨new ++ new', by rw [heq', heq, append_assoc], fun e he => ?_⟩
    rcases mem_append.mp he with he | he
    · exact ⟨by have := (hnew e he).1; omega, (hnew e he).2⟩
    · exact hnew' e he

theorem Quiet.delivered (h : Quiet s s') (id : Nat) :
    delivered s'.events id = delivered s.events id := by
  obtain ⟨new, heq, hnew⟩ := h.events
  rw [heq, delivered_append, delivered_eq_nil fun e he _ => (hnew e he).2.1, append_nil]

/-! ### The steps that are quiet -/

section Parts

variable {id : Nat}

/-- What the quiet steps keep of a connection. -/
def Conn.kept (c : Conn) := (c.key, c.status.phase, c.peerSeq)

theorem Quiet.modify (h : Quiet s s') (id : Nat) {f : Conn → Conn}
    (hf : (f (s'.heap id)).kept = (s'.heap id).kept) : Quiet s (s'.modify id f) := by
  simp only [kept, Prod.mk.injEq] at hf
  refine h.trans { Quiet.refl s' with
    key := fun j _ => ?_, phase := fun j _ => ?_, peerSeq := fun j _ => ?_
    fresh := fun _ hj hj' => absurd hj' (not_lt.mpr hj) }
  all_goals
    by_cases hj : j = id
    · subst hj
      simp [hf]
    · simp [hj]

theorem Quiet.send (h : Quiet s s') (id flags seq ack : Nat) (opt : Bytes)
    (payload len : Nat) : Quiet s (sendPacketOpt s' id flags seq ack opt payload len) :=
  { h with }

theorem Quiet.del (h : Quiet s s') (id : Nat) : Quiet s (connDel s' id) :=
  { h with listed := fun j hj => h.listed j (mem_of_mem_erase hj) }

theorem quiet_closeConn (s : Stack) (id : Nat) (reset : Bool) :
    Quiet s (closeConn s id reset).2 := by
  unfold closeConn
  split
  · exact ((Quiet.refl s).send ..).del id
  · dsimp only
    exact (Quiet.refl s).modify id (by rfl)

theorem quiet_connect (s : Stack) (destip port pdata now jitter : Nat) (malloc : Bool) :
    Quiet s (connect s destip port pdata now jitter malloc).2 := by
  unfold connect
  split
  · exact .refl s
  split
  · have hold : ∀ j < s.next, ∀ c : Conn, update s.heap s.next c j = s.heap j :=
      fun j hj c => update_of_ne (by omega) c s.heap
    refine ⟨Nat.le_succ _, fun j hj => ?_, fun j hj => ?_, fun j hj => ?_, fun j hj hj' => ?_,
      fun j hj => ?_, [], by simp, by simp⟩
    · simp [hold j hj]
    · simp [hold j hj]
    · simp [hold j hj]
    · simp only at hj'
      obtain rfl : j = s.next := by omega
      simp [Status.phase]
    · rcases mem_append.mp hj with hj | hj
      · exact .inl hj
      · obtain rfl : j = s.next := by simpa using hj
        exact .inr (Nat.lt_succ_self _)
  · exact .refl s

theorem quiet_sendData (w : Ulong) (s : Stack) (id data size : Nat) :
    Quiet s (sendData w s id data size).2 := by
  unfold sendData
  split
  · exact .refl s
  simp only
  split
  · exact .refl s
  · split
    · exact .refl s
    · dsimp only
      exact (Quiet.refl s).modify id (by rfl)

theorem quiet_foldl {α : Type} {f : Stack → α → Stack} (hf : ∀ s a, Quiet s (f s a)) (l : List α)
    (s : Stack) : Quiet s (l.foldl f s) := by
  induction l generalizing s with
  | nil => exact .refl s
  | cons a l ih => exact (hf s a).trans (ih (f s a))

theorem quiet_of_eq (hheap : s'.heap = s.heap) (hhead : s'.connHead = s.connHead)
    (hnext : s'.next = s.next) (hevents : s'.events = s.events) : Quiet s s' := by
  have h := Quiet.refl s
  refine ⟨hnext.ge, ?_, ?_, ?_, ?_, ?_, ?_⟩
  · simp [hheap]
  · simp [hheap]
  · simp [hheap]
  · simpa [hheap, hnext] using h.fresh
  · simpa [hhead, hnext] using h.listed
  · simp [hevents]

theorem quiet_call (w : Ulong) (s : Stack) (call : Call) : Quiet s (call.run w s) := by
  cases call with
  | start => exact quiet_of_eq rfl rfl rfl rfl
  | listen port malloc =>
    simp only [Call.run, Tcp.listen]
    split_ifs
    · exact .refl s
    · exact .refl s
    · exact quiet_of_eq rfl rfl rfl rfl
    · exact .refl s
  | listenStop port =>
    simp only [Call.run, Tcp.listenStop]
    split
    · exact quiet_of_eq rfl rfl rfl rfl
    · exact .refl s
  | connect destip port pdata now jitter malloc => exact quiet_connect ..
  | setPdata conn pdata =>
    simp only [Call.run]
    exact (Quiet.refl s).modify conn rfl
  | sendData conn data size => exact quiet_sendData ..
  | closeConn conn reset => exact quiet_closeConn ..
  | closeAllConn reset =>
    exact (quiet_foldl (fun s id => quiet_closeConn s id reset) s.connHead s).trans
      (quiet_of_eq rfl rfl rfl rfl)

theorem quiet_after_event (w : Ulong) (app : App) (s : Stack) (cbd : CbData) :
    Quiet { s with events := s.events ++ [cbd] } (callback w app s cbd) :=
  quiet_foldl (quiet_call w) _ _

theorem Quiet.callback (h : Quiet s s') (w : Ulong) (app : App) (hconn : cbd.conn < s.next)
    (hst : cbd.status ≠ .dataRcvd ∧ cbd.status ≠ .remoteClosing) :
    Quiet s (callback w app s' cbd) := by
  refine (h.trans ?_).trans (quiet_after_event w app s' cbd)
  have hnew := hconn.trans_le h.next_le
  exact { Quiet.refl s' with events := ⟨[cbd], rfl, by simpa using ⟨hnew, hst⟩⟩ }

end Parts

section Check

variable {s1 : Stack} {id : Nat}

section

variable (hconn : cbd.conn < s.next)
include hconn

theorem quiet_processAck (ack : Nat) : Quiet s (processAck w t app cbd ack s id).2 := by
  unfold processAck
  simp only
  split
  · -- the acknowledgement of new data, with the round trip time and the callback
    generalize hs1 : (if seqSub w ack (s.heap id).ackCalcRtt ≥ 0 ∧ (s.heap id).ackCalcRtt ≠ 0 then
        (s.modify id fun c => { c with
          rexmitMode := false, rexmitWaitAck := false, localSeqAcked := ack }).modify id
            fun c => rttCalc w (t 2) { c with ackCalcRtt := 0 }
      else s.modify id fun c => { c with
        rexmitMode := false, rexmitWaitAck := false, localSeqAcked := ack }) = s1
    have h1 : Quiet s s1 := by
      rw [← hs1]
      split
      · exact ((Quiet.refl s).modify id (by rfl)).modify id (by rfl)
      · exact (Quiet.refl s).modify id (by rfl)
    split
    · exact (h1.modify id (by rfl)).callback w app hconn (by simp)
    · exact h1
  · split
    · exact .refl s
    · split
      · exact .refl s
      · dsimp only
        exact (Quiet.refl s).modify id (by rfl)

omit hconn in
theorem Quiet.rexmitCallback (h : Quiet s s') (hconn : cbd.conn < s.next) :
    Quiet s (rexmitCallback w app cbd s' id) := by
  unfold Tcp.rexmitCallback
  split
  · exact h.callback w app hconn (by simp)
  · exact h.callback w app hconn (by simp)
  · exact h.callback w app hconn (by simp)
  · exact h

theorem quiet_rexmitCheck {r : Rexmit} (hres : rexmitCheck w t app cbd s id = (r, s1)) :
    Quiet s s1 := by
  unfold rexmitCheck at hres
  simp only at hres
  split at hres
  · cases hres
    exact (((Quiet.refl s).send ..).rexmitCallback hconn).del id
  · cases hres
    exact .refl s

theorem quiet_connectRexmitCheck : Quiet s (connectRexmitCheck w t app cbd s id).2 := by
  unfold connectRexmitCheck
  simp only
  split
  · refine .del ?_ id
    exact ((Quiet.refl s).send ..).callback w app hconn (by simp)
  · exact .refl s

theorem quiet_checkSend (sent acked : Nat) : Quiet s (checkSend w t app cbd sent acked s id).2 := by
  unfold checkSend
  simp only
  split
  · exact .refl s
  split
  · split
    · dsimp only
      split
      · exact (Quiet.refl s).modify id (by rfl)
      · exact ((Quiet.refl s).modify id (by rfl)).modify id (by rfl)
    · dsimp only
      exact (Quiet.refl s).modify id (by rfl)
  · split
    · split
      · next hcheck => exact quiet_rexmitCheck hconn hcheck
      · next hcheck =>
        dsimp only
        exact (quiet_rexmitCheck hconn hcheck).modify id (by rfl)
      · next hcheck => exact quiet_rexmitCheck hconn hcheck
    · exact .refl s

theorem quiet_checkRexmit (acked : Nat) (out : Outgoing) :
    Quiet s (checkRexmit w t app cbd acked out s id).2 := by
  unfold checkRexmit
  split
  · generalize hwait : (if (s.heap id).rexmitWaitAck then _ else (some out, s)) = waited
    have h : Quiet s waited.2 := by
      rw [← hwait]
      split
      · split
        · next hcheck => exact quiet_rexmitCheck hconn hcheck
        · next hcheck =>
          dsimp only
          exact (quiet_rexmitCheck hconn hcheck).modify id (by rfl)
        · next hcheck => exact quiet_rexmitCheck hconn hcheck
      · exact .refl s
    obtain ⟨out', s1⟩ := waited
    cases out' with
    | none => exact h
    | some out' =>
      dsimp only at h ⊢
      split
      · exact h
      split
      · dsimp only
        split
        · exact h.modify id (by rfl)
        · exact h
      · dsimp only
        split
        · exact (h.modify id (by rfl)).modify id (by rfl)
        · exact h.modify id (by rfl)
  · exact .refl s

theorem quiet_checkProbe (sent acked : Nat) (out : Outgoing) :
    Quiet s (checkProbe w t app cbd sent acked out s id).2 := by
  unfold checkProbe
  simp only
  split
  · generalize hs1 : (if (s.heap id).zwMode then s
      else s.modify id fun c => rexmitInit (fun i => t (60 + i)) { c with zwMode := true }) = s1
    have h1 : Quiet s s1 := by
      rw [← hs1]
      split
      · exact .refl s
      · exact (Quiet.refl s).modify id (by rfl)
    have hconn1 := hconn.trans_le h1.next_le
    split
    · split
      · next hcheck => exact h1.trans (quiet_rexmitCheck hconn1 hcheck)
      · next hcheck =>
        dsimp only
        exact (h1.trans (quiet_rexmitCheck hconn1 hcheck)).modify id (by rfl)
      · next hcheck => exact h1.trans (quiet_rexmitCheck hconn1 hcheck)
    · exact h1
  · exact .refl s

omit hconn in
theorem quiet_checkClose (h : Quiet s s') (hconn : cbd.conn < s.next) (out : Outgoing)
    (hstatus : (s'.heap id).status.phase = .synced) :
    Quiet s (checkClose w t app cbd out s' id) := by
  unfold checkClose
  simp only
  generalize hs1 : (if (s'.heap id).ackFlag ≠ 0 then
      sendPacket (s'.modify id fun c => { c with ackFlag := 0 }) id out.flags out.sendseq
        (s'.heap id).peerSeq out.data out.datalen
    else s') = s1
  have h1 : Quiet s s1 ∧ (s1.heap id).status.phase = .synced := by
    rw [← hs1]
    split
    · refine ⟨(h.modify id (by rfl)).send .., ?_⟩
      simpa [sendPacket, sendPacketOpt] using hstatus
    · exact ⟨h, hstatus⟩
  split
  · refine .callback ?_ w app hconn (by simp)
    exact (h1.1.send ..).modify id (congrArg (fun p => (key _, p, peerSeq _)) h1.2.symm)
  · exact h1.1

theorem quiet_checkEstablished (hid : id < s.next) (hstatus : (s.heap id).status.phase = .synced) :
    Quiet s (checkEstablished w t app cbd s id) := by
  unfold checkEstablished
  simp only
  generalize toU32 (seqSub w (s.heap id).localSeq (s.heap id).localSeqLast) = sent
  generalize toU32 (seqSub w (s.heap id).localSeqAcked (s.heap id).localSeqLast) = acked
  have h1 : Quiet s (checkSend w t app cbd sent acked s id).2 := quiet_checkSend hconn sent acked
  split
  · next hsend => rwa [hsend] at h1
  next out1 s1 hsend =>
  rw [hsend] at h1
  have h2 : Quiet s (checkRexmit w t app cbd acked out1 s1 id).2 :=
    h1.trans (quiet_checkRexmit (hconn.trans_le h1.next_le) acked out1)
  split
  · next hrexmit => rwa [hrexmit] at h2
  next out2 s2 hrexmit =>
  rw [hrexmit] at h2
  have h3 : Quiet s (checkProbe w t app cbd sent acked out2 s2 id).2 :=
    h2.trans (quiet_checkProbe (hconn.trans_le h2.next_le) sent acked out2)
  split
  · next hprobe => rwa [hprobe] at h3
  · next out3 s3 hprobe =>
    rw [hprobe] at h3
    exact quiet_checkClose h3 hconn out3 ((h3.phase id hid).trans hstatus)

end

theorem quiet_checkAgain {check : Rexmit × Stack} {again : Stack → Stack} (h : Quiet s check.2)
    (hagain : ∀ s, Quiet s (again s)) : Quiet s (checkAgain check again t id) := by
  obtain ⟨r, s1⟩ := check
  cases r with
  | gone => exact h
  | due => exact (h.trans (hagain s1)).modify id (by rfl)
  | wait => exact h

theorem quiet_connCheck (hid : id < s.next) : Quiet s (connCheck w t app s id) := by
  unfold connCheck
  simp only
  split
  · next hst =>
    refine ((Quiet.refl s).send ..).modify id ?_
    simp [kept, key, sendPacketOpt, hst, Status.phase]
  · exact quiet_checkAgain (quiet_connectRexmitCheck hid) fun s => (Quiet.refl s).send ..
  · exact quiet_checkAgain (quiet_rexmitCheck hid rfl) fun s => (Quiet.refl s).send ..
  · next hst => exact quiet_checkEstablished hid hid (by rw [hst]; rfl)
  · next hst =>
    refine ((Quiet.refl s).send ..).modify id ?_
    simp [kept, key, sendPacketOpt, hst, Status.phase, rexmitInit]
  · exact quiet_checkAgain (quiet_rexmitCheck hid rfl) fun s => (Quiet.refl s).send ..
  · exact quiet_checkAgain (quiet_rexmitCheck hid rfl) fun s => (Quiet.refl s).send ..
  · refine Quiet.del ?_ id
    exact ((Quiet.refl s).send ..).callback w app hid (by simp)
  · exact Quiet.refl s

end Check

section Receive

variable {mem : Mem} {seg : Segment} {id : Nat}

theorem quiet_establish (w : Ulong) (t : Clock) (app : App) (cbd : CbData) (s : Stack) (id : Nat) :
    Quiet { (s.modify id fun c => { (firstRto w (t 1) c).advance with status := .established }) with
      events := s.events ++ [{ cbd with status := .newConn }] } (establish w t app cbd s id) := by
  simp only [establish, Stack.modify_heap, update_self]
  -- the acknowledgement that is sent in between leaves the connections alone
  split
  · refine .trans ?_ (quiet_after_event w app _ _)
    refine quiet_of_eq ?_ rfl rfl rfl
    simp [sendPacket, sendPacketOpt]
  · refine .trans ?_ (quiet_after_event w app _ _)
    refine quiet_of_eq ?_ rfl rfl rfl
    simp

/-- What a segment does to an open connection: up to the delivery of its data all steps are
quiet. -/
theorem established_cases (w : Ulong) (t : Clock) (app : App) (mem : Mem) (seg : Segment)
    (hid : id < s.next) (hcbd : cbd.conn = id) : ∃ data size behind s₁,
      trimPayload w (s.heap id).peerSeq seg.seq seg.data seg.dataSize = (data, size, behind) ∧
      Quiet s s₁ ∧
      (established w t app mem seg cbd s id = s₁ ∨ established w t app mem seg cbd s id =
          if has seg.flags fin then closeRemote w app (deliver w app mem data size cbd s₁ id).1
            (deliver w app mem data size cbd s₁ id).2 id
            else (deliver w app mem data size cbd s₁ id).2) := by
  have h1 : Quiet s (s.modify id fun c => c.updateWindow seg.wnd) := (Quiet.refl s).modify id rfl
  have hpeer :
      ((s.modify id fun c => c.updateWindow seg.wnd).heap id).peerSeq = (s.heap id).peerSeq := by
    rw [Stack.modify_heap, update_self]
    rfl
  simp only [established, hpeer]
  generalize (s.modify id fun c => c.updateWindow seg.wnd) = s1 at h1
  obtain ⟨data, size, behind⟩ := trimPayload w (s.heap id).peerSeq seg.seq seg.data seg.dataSize
  generalize hs2 : (if behind then
    s1.modify id fun c => { c with ackFlag := c.ackFlag + 1 } else s1) = s2
  have h2 : Quiet s s2 := by
    rw [← hs2]
    split
    · exact h1.modify id (by rfl)
    · exact h1
  have h3 : Quiet s (processAck w t app cbd seg.ack s2 id).2 :=
    h2.trans (quiet_processAck (by rw [hcbd]; exact hid.trans_le h2.next_le) seg.ack)
  refine ⟨data, size, behind, _, rfl, h3, ?_⟩
  generalize processAck w t app cbd seg.ack s2 id = res
  obtain ⟨go, s3⟩ := res
  cases go with
  | false => exact .inl rfl
  | true => exact .inr rfl

/-- What the switch of `mtk_receive_tcp` does: nothing to the peer's stream, the end of the
handshake, perhaps with data, or the reception of data. -/
inductive Receives (w : Ulong) (t : Clock) (app : App) (mem : Mem) (seg : Segment) (cbd : CbData)
    (s : Stack) (id : Nat) : Stack → Prop
  | quiet {s' : Stack} : Quiet s s' → Receives w t app mem seg cbd s id s'
  | handshake {s₁ : Stack} :
    ((s.heap id).status = .synSent ∧ has seg.flags syn = true ∧ connFill t mem seg s id = some s₁ ∨
      (s.heap id).status = .synRcvd ∧ s₁ = s) →
    Receives w t app mem seg cbd s id (if seg.dataSize = 0 then establish w t app cbd s₁ id
      else established w t app mem seg cbd (establish w t app cbd s₁ id) id)
  | data : (s.heap id).status = .established →
      Receives w t app mem seg cbd s id (established w t app mem seg cbd s id)

theorem statusReceive_receives (hid : id < s.next) (hcbd : cbd.conn = id)
    (hs' : statusReceive w t app mem seg cbd s id = some s') :
    Receives w t app mem seg cbd s id s' := by
  have hquiet : ∀ {st : Status} {f : Conn → Conn}, (s.heap id).status = st →
      (f (s.heap id)).key = (s.heap id).key → (f (s.heap id)).status.phase = st.phase →
      (f (s.heap id)).peerSeq = (s.heap id).peerSeq → Quiet s (s.modify id f) :=
    fun hst hkey hph hseq => (Quiet.refl s).modify id (by simp [kept, hst, hkey, hph, hseq])
  have hconn : cbd.conn < s.next := hcbd ▸ hid
  unfold statusReceive at hs'
  split at hs'
  · next hst =>
    split at hs'
    · next hsyn =>
      split at hs'
      · cases hs'
      · next s1 hfill =>
        cases hs'
        exact .handshake (.inl ⟨hst, hsyn, hfill⟩)
    · cases hs'
      refine .quiet (.del ?_ id)
      exact ((Quiet.refl s).send ..).callback w app hconn (by simp)
  · next hst =>
    cases hs'
    exact .handshake (.inr ⟨hst, rfl⟩)
  · next hst =>
    cases hs'
    exact .data hst
  · next hst =>
    split at hs'
    · cases hs'
      exact .quiet (.refl s)
    · cases hs'
      refine .quiet (.del ?_ id)
      exact (hquiet hst rfl rfl rfl).callback w app hconn (by simp)
  · next hst =>
    cases hs'
    refine .quiet ?_
    unfold finWait1
    simp only
    split
    · exact .refl s
    split
    · exact hquiet hst rfl rfl rfl
    · split
      · exact hquiet hst rfl rfl rfl
      · split
        · exact hquiet hst rfl rfl rfl
        · exact .refl s
  · next hst =>
    cases hs'
    split
    · exact .quiet (hquiet hst rfl rfl rfl)
    · exact .quiet (.refl s)
  · next hst =>
    split at hs'
    · cases hs'
      exact .quiet (.refl s)
    · cases hs'
      exact .quiet (hquiet hst rfl rfl rfl)
  · cases hs'
    exact .quiet (.refl s)

end Receive

end MtkBoot.Tcp
