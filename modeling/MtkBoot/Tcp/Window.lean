import MtkBoot.Tcp.Check

/-! The three cursors of a chunk that is being sent.  A peer that acknowledges what has not been
sent moves them out of the chunk. -/

namespace MtkBoot.Tcp

open List Function

variable {app : App} {c c' : Conn} {s s' s'' : Stack} {w : Ulong}

variable {a b id : Nat} {f : Conn → Conn}

theorem toU32_seqSub (w : Ulong) (ha : a < 2 ^ 32) (hb : b < 2 ^ 32) :
    toU32 (seqSub w a b) = subU32 a b := by
  rw [seqSub_eq_bmod w ha hb, bmod_eq]
  unfold toU32 subU32
  split <;> omega

theorem seqSub_nonpos_iff (w : Ulong) (ha : a < 2 ^ 32) (hb : b < 2 ^ 32) :
    seqSub w a b ≤ 0 ↔ a = b ∨ 2 ^ 31 ≤ subU32 a b := by
  rw [seqSub_eq_bmod w ha hb, bmod_eq]
  unfold subU32
  split <;> omega

theorem seqSub_neg_iff (w : Ulong) (ha : a < 2 ^ 32) (hb : b < 2 ^ 32) :
    seqSub w a b < 0 ↔ 2 ^ 31 ≤ subU32 a b := by
  rw [seqSub_eq_bmod w ha hb, bmod_eq]
  unfold subU32
  split <;> omega

def Conn.acked (c : Conn) : Nat := subU32 c.localSeqAcked c.localSeqLast

def Conn.reached (c : Conn) : Nat := subU32 c.localSeq c.localSeqLast

/-- `local_seq_last <= local_seq_acked <= local_seq <= local_seq_last + txlen`, modulo `2^32`. -/
def InWindow (c : Conn) : Prop := c.acked ≤ c.reached ∧ c.reached ≤ c.txlen

def Status.Early (st : Status) : Prop := st = .connect ∨ st = .synSent ∨ st = .synRcvd

/-- A connection whose cursors are in order.  A chunk that has been acknowledged is gone; without
one nothing is sent again. -/
structure Conn.Ok (c : Conn) : Prop where
  localSeq : c.localSeq < 2 ^ 32
  last : c.localSeqLast < 2 ^ 32
  acked : c.localSeqAcked < 2 ^ 32
  txlen : c.txlen < 2 ^ 32
  chunk : c.tx = 0 ↔ c.txlen = 0
  early : c.status.Early → c.rexmitMode = false
  idle : c.status = .established → c.txlen = 0 → c.localSeqAcked = c.localSeq ∧ c.rexmitMode = false
  window : c.status = .established → c.txlen ≠ 0 → InWindow c ∧ c.acked < c.txlen

/-- The parts of a connection that its window depends on. -/
def Conn.sending (c : Conn) :=
  (c.status, c.localSeq, c.localSeqLast, c.localSeqAcked, c.tx, c.txlen, c.rexmitMode)

theorem Conn.Ok.of_eq (h : c.Ok) (heq : c'.sending = c.sending) : c'.Ok := by
  simp only [Conn.sending, Prod.mk.injEq] at heq
  obtain ⟨hst, hseq, hlast, hacked, htx, htxlen, hmode⟩ := heq
  constructor
  · exact hseq ▸ h.localSeq
  · exact hlast ▸ h.last
  · exact hacked ▸ h.acked
  · exact htxlen ▸ h.txlen
  · rw [htx, htxlen]
    exact h.chunk
  · rw [hst, hmode]
    exact h.early
  · rw [hst, htxlen, hacked, hseq, hmode]
    exact h.idle
  · simp only [InWindow, Conn.acked, Conn.reached, hst, htxlen, hacked, hseq, hlast]
    exact h.window

theorem Conn.Ok.fresh (hst : c.status ≠ .established) (hseq : c.localSeq < 2 ^ 32)
    (hlast : c.localSeqLast = 0) (hacked : c.localSeqAcked = 0) (htx : c.tx = 0)
    (htxlen : c.txlen = 0) (hmode : c.rexmitMode = false) : c.Ok := by
  refine ⟨hseq, by omega, by omega, by omega, by simp [htx, htxlen], fun _ => hmode, ?_, ?_⟩
  · intro h
    exact absurd h hst
  · intro h
    exact absurd h hst

structure WindowInv (s : Stack) : Prop where
  conn : ∀ id, (s.heap id).Ok
  listed : ∀ id ∈ s.connHead, id < s.next

/-- Nothing but packets without payload has been sent on the way from `s` to `s'`. -/
def Silent (s s' : Stack) : Prop := ∃ new, s'.sent = s.sent ++ new ∧ ∀ e ∈ new, e.payloadLen = 0

theorem Silent.refl (s : Stack) : Silent s s := ⟨[], by simp, by simp⟩

theorem Silent.trans (h : Silent s s') (h' : Silent s' s'') : Silent s s'' := by
  obtain ⟨new, heq, hnew⟩ := h
  obtain ⟨new', heq', hnew'⟩ := h'
  refine ⟨new ++ new', by rw [heq', heq, append_assoc], ?_⟩
  intro e he
  rcases mem_append.mp he with he | he
  · exact hnew e he
  · exact hnew' e he

theorem silent_send (s : Stack) (id flags seq ack : Nat) (opt : Bytes) (payload : Nat) :
    Silent s (sendPacketOpt s id flags seq ack opt payload 0) :=
  ⟨_, rfl, by simp⟩

structure OnlyConn (id : Nat) (s s' : Stack) : Prop where
  heap : ∀ j, j ≠ id → s'.heap j = s.heap j
  connHead : s'.connHead = s.connHead
  next : s'.next = s.next
  sent : s'.sent = s.sent

open OnlyConn

theorem OnlyConn.refl (id : Nat) (s : Stack) : OnlyConn id s s := ⟨fun _ _ => rfl, rfl, rfl, rfl⟩

theorem OnlyConn.modify (h : OnlyConn id s s') (f : Conn → Conn) :
    OnlyConn id s (s'.modify id f) := by
  refine ⟨fun j hj => ?_, h.connHead, h.next, h.sent⟩
  rw [Stack.modify_heap, update_of_ne hj]
  exact h.heap j hj

theorem OnlyConn.silent (h : OnlyConn id s s') : Silent s s' := ⟨[], by simp [h.sent], by simp⟩

section

variable (h : WindowInv s)
include h

theorem WindowInv.only (hs : OnlyConn id s s') (hok : (s'.heap id).Ok) : WindowInv s' := by
  refine ⟨fun j => ?_, fun j hj => ?_⟩
  · by_cases hj : j = id
    · exact hj ▸ hok
    · rw [hs.heap j hj]
      exact h.conn j
  · rw [hs.next]
    exact h.listed j (hs.connHead ▸ hj)

theorem WindowInv.modify (id : Nat) (hf : (f (s.heap id)).Ok) : WindowInv (s.modify id f) :=
  h.only ((refl id s).modify f) (by simpa using hf)

theorem WindowInv.send (id flags seq ack : Nat) (opt : Bytes) (payload len : Nat) :
    WindowInv (sendPacketOpt s id flags seq ack opt payload len) :=
  ⟨h.conn, h.listed⟩

theorem WindowInv.del (id : Nat) : WindowInv (connDel s id) :=
  ⟨h.conn, fun j hj => h.listed j (mem_of_mem_erase hj)⟩

theorem WindowInv.create (hheap : s'.heap = update s.heap s.next c)
    (hhead : s'.connHead = s.connHead ++ [s.next]) (hnext : s'.next = s.next + 1) (hc : c.Ok) :
    WindowInv s' := by
  refine ⟨fun j => ?_, fun j hj => ?_⟩
  · rw [hheap]
    by_cases hj : j = s.next
    · subst hj
      simpa using hc
    · simpa [hj] using h.conn j
  · rw [hhead, mem_append, mem_singleton] at hj
    rw [hnext]
    rcases hj with hj | hj
    · exact Nat.lt_succ_of_lt (h.listed j hj)
    · exact hj ▸ Nat.lt_succ_self _

end

/-! ### Calls of the application -/

def Call.Typed : Call → Prop
  | .sendData _ _ size => size < 2 ^ 32
  | _ => True

def App.Typed (app : App) : Prop := ∀ s cbd, ∀ call ∈ app s cbd, call.Typed

/-- What a call of the application leaves alone: no payload is sent, and a connection keeps its
status and what it has sent. -/
structure Passive (s s' : Stack) : Prop where
  inv : WindowInv s → WindowInv s'
  silent : Silent s s'
  next_le : s.next ≤ s'.next
  status : ∀ id < s.next, (s'.heap id).status = (s.heap id).status
  localSeq : ∀ id < s.next, (s'.heap id).localSeq = (s.heap id).localSeq
  acked : ∀ id < s.next, (s.heap id).localSeqAcked = (s.heap id).localSeq →
    (s'.heap id).localSeqAcked = (s'.heap id).localSeq

open Passive

theorem Passive.refl (s : Stack) : Passive s s :=
  ⟨id, .refl s, le_rfl, fun _ _ => rfl, fun _ _ => rfl, fun _ _ h => h⟩

theorem Passive.trans (h : Passive s s') (h' : Passive s' s'') : Passive s s'' := by
  have hle := h.next_le
  refine ⟨h'.inv ∘ h.inv, h.silent.trans h'.silent, hle.trans h'.next_le, ?_, ?_, ?_⟩
  · intro j hj
    exact (h'.status j (hj.trans_le hle)).trans (h.status j hj)
  · intro j hj
    exact (h'.localSeq j (hj.trans_le hle)).trans (h.localSeq j hj)
  · intro j hj hacked
    exact h'.acked j (hj.trans_le hle) (h.acked j hj hacked)

theorem passive_modify (hok : (s.heap id).Ok → (f (s.heap id)).Ok)
    (hstatus : (f (s.heap id)).status = (s.heap id).status)
    (hseq : (f (s.heap id)).localSeq = (s.heap id).localSeq)
    (hacked : (s.heap id).localSeqAcked = (s.heap id).localSeq →
      (f (s.heap id)).localSeqAcked = (f (s.heap id)).localSeq) : Passive s (s.modify id f) := by
  refine ⟨fun h => h.modify id (hok (h.conn id)), .refl s, le_rfl, ?_, ?_, ?_⟩
  all_goals
    intro j _
    by_cases hj : j = id
    · subst hj
      simpa
    · simp [hj]

theorem passive_of_eq (hheap : s'.heap = s.heap) (hhead : s'.connHead = s.connHead)
    (hnext : s'.next = s.next) (hsent : s'.sent = s.sent) : Passive s s' := by
  refine ⟨fun h => ⟨?_, ?_⟩, ⟨[], by simp [hsent], by simp⟩, hnext.ge, ?_, ?_, ?_⟩
  · simpa [hheap] using h.conn
  · simpa [hhead, hnext] using h.listed
  all_goals
    intro j _
    simp [hheap]

theorem passive_sendData (w : Ulong) (s : Stack) (id data size : Nat) (hsize : size < 2 ^ 32) :
    Passive s (sendData w s id data size).2 := by
  unfold sendData
  split
  · exact refl s
  rename_i harg
  rw [not_or] at harg
  simp only
  split
  · exact refl s
  split
  · exact refl s
  dsimp only
  refine passive_modify ?_ rfl rfl fun _ => rfl
  intro h
  refine ⟨h.localSeq, h.localSeq, h.localSeq, hsize, ?_, h.early, ?_, ?_⟩
  · exact ⟨fun h0 => absurd h0 harg.1, fun h0 => absurd h0 harg.2⟩
  · intro _ h0
    exact absurd h0 harg.2
  · intro _ _
    have hzero : subU32 (s.heap id).localSeq (s.heap id).localSeq = 0 := by
      unfold subU32
      omega
    simp only [InWindow, Conn.acked, Conn.reached, hzero]
    omega

theorem passive_closeConn (s : Stack) (id : Nat) (reset : Bool) :
    Passive s (closeConn s id reset).2 := by
  unfold closeConn
  split
  · exact ⟨fun h => (h.send ..).del id, silent_send .., le_rfl, fun _ _ => rfl, fun _ _ => rfl,
      fun _ _ h => h⟩
  · dsimp only
    refine passive_modify ?_ rfl rfl fun h => h
    intro h
    exact h.of_eq (by rfl)

theorem initialSeq_lt (now : Nat) : initialSeq now < 2 ^ 32 := u32_lt _

theorem passive_connect (s : Stack) (destip port pdata now jitter : Nat) (malloc : Bool) :
    Passive s (connect s destip port pdata now jitter malloc).2 := by
  unfold connect
  split
  · exact refl s
  split
  · have hold : ∀ j < s.next, ∀ c : Conn, update s.heap s.next c j = s.heap j :=
      fun j hj c => update_of_ne (by omega) c s.heap
    refine ⟨fun h => ?_, .refl s, Nat.le_succ _, ?_, ?_, ?_⟩
    · refine h.create rfl rfl rfl (Conn.Ok.fresh ?_ (initialSeq_lt now) rfl rfl rfl rfl rfl)
      simp
    · intro j hj
      simp [hold j hj]
    · intro j hj
      simp [hold j hj]
    · intro j hj
      simp [hold j hj]
  · exact refl s

theorem passive_foldl {α : Type} {f : Stack → α → Stack} {P : α → Prop}
    (hf : ∀ s a, P a → Passive s (f s a)) (l : List α) (hl : ∀ a ∈ l, P a) (s : Stack) :
    Passive s (l.foldl f s) := by
  induction l generalizing s with
  | nil => exact refl s
  | cons a l ih =>
    obtain ⟨ha, hl⟩ := forall_mem_cons.mp hl
    exact (hf s a ha).trans (ih hl (f s a))

theorem passive_call (w : Ulong) (s : Stack) (call : Call) (htyped : call.Typed) :
    Passive s (call.run w s) := by
  cases call with
  | start => exact passive_of_eq rfl rfl rfl rfl
  | listen port malloc =>
    simp only [Call.run, Tcp.listen]
    split_ifs
    · exact refl s
    · exact refl s
    · exact passive_of_eq rfl rfl rfl rfl
    · exact refl s
  | listenStop port =>
    simp only [Call.run, Tcp.listenStop]
    split
    · exact passive_of_eq rfl rfl rfl rfl
    · exact refl s
  | connect destip port pdata now jitter malloc => exact passive_connect ..
  | setPdata conn pdata =>
    simp only [Call.run]
    refine passive_modify ?_ rfl rfl fun h => h
    intro h
    exact h.of_eq (by rfl)
  | sendData conn data size => exact passive_sendData w s conn data size htyped
  | closeConn conn reset => exact passive_closeConn ..
  | closeAllConn reset =>
    have h := passive_foldl (fun s id (_ : True) => passive_closeConn s id reset) s.connHead
      (fun _ _ => trivial) s
    exact h.trans (passive_of_eq rfl rfl rfl rfl)

theorem passive_callback (w : Ulong) (happ : app.Typed) (s : Stack) (cbd : CbData) :
    Passive s (callback w app s cbd) := by
  have hevent : Passive s { s with events := s.events ++ [cbd] } := passive_of_eq rfl rfl rfl rfl
  exact hevent.trans (passive_foldl (fun s call => passive_call w s call) _ (happ _ cbd) _)

/-- The cursors are in order after a part of a step that sent no payload. -/
structure Kept (s s' : Stack) : Prop where
  inv : WindowInv s'
  silent : Silent s s'

open Kept

section Kept

theorem Kept.refl (h : WindowInv s) : Kept s s := ⟨h, .refl s⟩

variable (h : Kept s s')
include h

theorem Kept.trans (h' : Kept s' s'') : Kept s s'' := ⟨h'.inv, h.silent.trans h'.silent⟩

theorem Kept.modify (id : Nat) (hf : (f (s'.heap id)).Ok) : Kept s (s'.modify id f) :=
  ⟨h.inv.modify id hf, h.silent⟩

theorem Kept.send (id flags seq ack : Nat) (opt : Bytes) (payload : Nat) :
    Kept s (sendPacketOpt s' id flags seq ack opt payload 0) :=
  ⟨h.inv.send .., h.silent.trans (silent_send ..)⟩

theorem Kept.del (id : Nat) : Kept s (connDel s' id) := ⟨h.inv.del id, h.silent⟩

theorem Kept.callback (w : Ulong) (happ : app.Typed) (cbd : CbData) :
    Kept s (callback w app s' cbd) :=
  ⟨(passive_callback w happ s' cbd).inv h.inv,
    h.silent.trans (passive_callback w happ s' cbd).silent⟩

end Kept

/-! ### Received segments -/

/-- The segment acknowledges nothing that has not been sent.  In the handshake only the SYN has been
sent, and only a segment with data counts. -/
def AckOk (w : Ulong) (c : Conn) (seg : Segment) : Prop :=
  (c.status = .established → seqSub w seg.ack c.localSeqAcked > 0 →
    subU32 seg.ack c.localSeqAcked ≤ subU32 c.localSeq c.localSeqAcked) ∧
  (c.status = .synSent ∨ c.status = .synRcvd → seg.dataSize ≠ 0 →
    seqSub w seg.ack (u32 (c.localSeq + 1)) ≤ 0)

/-- Every segment for a connection acknowledges only what that connection has sent. -/
def AcksSent (w : Ulong) (s : Stack) (seg : Segment) : Prop :=
  ∀ id, connFind s seg.ipSrc seg.src seg.dst = some id → AckOk w (s.heap id) seg

section Ack

variable {ack : Nat}

theorem Conn.Ok.ack_new (h : c.Ok) (hst : c.status = .established) (hack : ack < 2 ^ 32)
    (hpos : seqSub w ack c.localSeqAcked > 0)
    (hle : subU32 ack c.localSeqAcked ≤ subU32 c.localSeq c.localSeqAcked) :
    c.txlen ≠ 0 ∧ subU32 ack c.localSeqLast ≤ c.reached ∧
    (subU32 ack c.localSeqLast = c.txlen → ack = c.localSeq) := by
  have hne : ack ≠ c.localSeqAcked := by
    intro heq
    have := (seqSub_nonpos_iff w hack h.acked).mpr (.inl heq)
    omega
  have hseq := h.localSeq
  have htxlen : c.txlen ≠ 0 := by
    intro h0
    have heq := (h.idle hst h0).1
    unfold subU32 at hle
    omega
  obtain ⟨⟨hin, hreach⟩, -⟩ := h.window hst htxlen
  unfold Conn.acked Conn.reached at *
  unfold subU32 at *
  refine ⟨htxlen, ?_, ?_⟩ <;> omega

theorem Conn.Ok.ack_old (h : c.Ok) (hst : c.status = .established) (hack : ack < 2 ^ 32)
    (hold : seqSub w ack c.localSeqAcked ≤ 0) (hin : 0 ≤ seqSub w ack c.localSeqLast)
    (hne : c.localSeq ≠ c.localSeqAcked) : c.txlen ≠ 0 ∧ subU32 ack c.localSeqLast ≤ c.acked := by
  have htxlen : c.txlen ≠ 0 := fun h0 => hne (h.idle hst h0).1.symm
  rw [seqSub_nonpos_iff w hack h.acked] at hold
  rw [← Int.not_lt, seqSub_neg_iff w hack h.last] at hin
  refine ⟨htxlen, ?_⟩
  unfold Conn.acked
  unfold subU32 at *
  omega

end Ack

section Receive

variable {t : Clock} {mem : Mem} {seg : Segment} {cbd : CbData} {id ack : Nat}

variable (h : WindowInv s)
include h

theorem processAck_inv (happ : app.Typed) (hst : (s.heap id).status = .established)
    (hack : ack < 2 ^ 32)
    (hsent : seqSub w ack (s.heap id).localSeqAcked > 0 → subU32 ack (s.heap id).localSeqAcked ≤
        subU32 (s.heap id).localSeq (s.heap id).localSeqAcked) :
    Kept s (processAck w t app cbd ack s id).2 := by
  have hc := h.conn id
  unfold processAck
  simp only
  split
  · rename_i hpos
    obtain ⟨hne, hle, hall⟩ := hc.ack_new hst hack hpos (hsent hpos)
    obtain ⟨-, hreach⟩ := (hc.window hst hne).1
    generalize hs2 : (if seqSub w ack (s.heap id).ackCalcRtt ≥ 0 ∧ (s.heap id).ackCalcRtt ≠ 0 then
        (s.modify id fun c => { c with
          rexmitMode := false, rexmitWaitAck := false, localSeqAcked := ack }).modify id
            fun c => rttCalc w (t 2) { c with ackCalcRtt := 0 }
      else s.modify id fun c => { c with
        rexmitMode := false, rexmitWaitAck := false, localSeqAcked := ack }) = s2
    have honly : OnlyConn id s s2 := by
      rw [← hs2]
      split
      · exact ((refl id s).modify _).modify _
      · exact (refl id s).modify _
    have hfields :
        (s2.heap id).status = .established ∧ (s2.heap id).localSeq = (s.heap id).localSeq ∧
        (s2.heap id).localSeqLast = (s.heap id).localSeqLast ∧ (s2.heap id).localSeqAcked = ack ∧
        (s2.heap id).tx = (s.heap id).tx ∧ (s2.heap id).txlen = (s.heap id).txlen ∧
        (s2.heap id).rexmitMode = false := by
      rw [← hs2]
      split <;> simp [rttCalc, hst]
    obtain ⟨hst2, hseq2, hlast2, hacked2, htx2, htxlen2, hmode2⟩ := hfields
    rw [toU32_seqSub w hack hc.last]
    split
    · -- The chunk has been acknowledged to its end.
      rename_i hend
      have hinv : WindowInv (s2.modify id fun c => { c with tx := 0, txlen := 0 }) := by
        refine h.only (honly.modify _) ?_
        simp only [Stack.modify_heap, update_self]
        refine ⟨hseq2 ▸ hc.localSeq, hlast2 ▸ hc.last, hacked2 ▸ hack, Nat.two_pow_pos 32, by simp,
          fun _ => hmode2, fun _ _ => ⟨?_, hmode2⟩, fun _ h0 => absurd rfl h0⟩
        rw [hacked2, hseq2]
        exact hall hend
      exact .callback ⟨hinv, (honly.modify _).silent⟩ w happ _
    · refine ⟨h.only honly ?_, honly.silent⟩
      refine ⟨hseq2 ▸ hc.localSeq, hlast2 ▸ hc.last, hacked2 ▸ hack, htxlen2 ▸ hc.txlen, ?_,
        fun _ => hmode2, ?_, ?_⟩
      · rw [htx2, htxlen2]
        exact hc.chunk
      · intro _ h0
        exact absurd (htxlen2 ▸ h0) hne
      · intro _ _
        unfold Conn.reached at hle hreach
        simp only [InWindow, Conn.acked, Conn.reached, hacked2, hlast2, hseq2, htxlen2]
        omega
  · split
    · exact .refl h
    split
    · exact Kept.refl h
    rename_i hne
    obtain ⟨htxlen, hback⟩ := hc.ack_old (w := w) hst hack (by omega) (by omega) hne
    obtain ⟨⟨hle, hreach⟩, hlt⟩ := hc.window hst htxlen
    dsimp only
    refine (Kept.refl h).modify id ?_
    refine ⟨hc.localSeq, hc.last, hack, hc.txlen, hc.chunk, ?_, ?_, ?_⟩
    · intro hearly
      rw [Status.Early, hst] at hearly
      simp at hearly
    · intro _ h0
      exact absurd h0 htxlen
    · intro _ _
      unfold Conn.acked Conn.reached at *
      simp only [InWindow, Conn.acked, Conn.reached]
      omega

theorem deliver_inv (happ : app.Typed) (data dataSize : Nat) :
    Kept s (deliver w app mem data dataSize cbd s id).2 := by
  unfold deliver
  split
  · dsimp only
    refine Kept.callback ((Kept.refl h).modify id ?_) w happ _
    exact (h.conn id).of_eq (by rfl)
  · exact refl h

omit h in
theorem Conn.Ok.leave (h : c.Ok) (hseq : c'.localSeq < 2 ^ 32)
    (hst : c'.status ∉ [.connect, .synSent, .synRcvd, .established])
    (heq : (c'.localSeqLast, c'.localSeqAcked, c'.tx, c'.txlen) =
      (c.localSeqLast, c.localSeqAcked, c.tx, c.txlen)) : c'.Ok := by
  simp only [Prod.mk.injEq] at heq
  obtain ⟨hlast, hacked, htx, htxlen⟩ := heq
  refine ⟨hseq, hlast ▸ h.last, hacked ▸ h.acked, htxlen ▸ h.txlen, ?_, ?_, ?_, ?_⟩
  · rw [htx, htxlen]
    exact h.chunk
  · rintro (he | he | he) <;> simp [he] at hst
  · intro he
    simp [he] at hst
  · intro he
    simp [he] at hst

variable (happ : app.Typed)
include happ

theorem closeRemote_inv : Kept s (closeRemote w app cbd s id) := by
  refine Kept.callback ((Kept.refl h).modify id ?_) w happ _
  exact (h.conn id).leave (h.conn id).localSeq (by simp) (by rfl)

theorem established_inv (hst : (s.heap id).status = .established) (hack : seg.ack < 2 ^ 32)
    (hsent : seqSub w seg.ack (s.heap id).localSeqAcked > 0 → subU32 seg.ack
      (s.heap id).localSeqAcked ≤ subU32 (s.heap id).localSeq (s.heap id).localSeqAcked) :
    Kept s (established w t app mem seg cbd s id) := by
  unfold established
  simp only
  generalize trimPayload w _ seg.seq seg.data seg.dataSize = trimmed
  obtain ⟨data, dataSize, behind⟩ := trimmed
  simp only
  generalize hs1 : (if behind then
      (s.modify id fun c => c.updateWindow seg.wnd).modify id fun c => { c with
        ackFlag := c.ackFlag + 1 }
    else s.modify id fun c => c.updateWindow seg.wnd) = s1
  have h1 : WindowInv s1 ∧ OnlyConn id s s1 ∧ (s1.heap id).status = .established ∧
      (s1.heap id).localSeqAcked = (s.heap id).localSeqAcked ∧
      (s1.heap id).localSeq = (s.heap id).localSeq := by
    have hinv : WindowInv (s.modify id fun c => c.updateWindow seg.wnd) :=
      h.modify id ((h.conn id).of_eq (by rfl))
    rw [← hs1]
    split
    · refine ⟨hinv.modify id ((hinv.conn id).of_eq (by rfl)), ((refl id s).modify _).modify _, ?_⟩
      simp [Conn.updateWindow, hst]
    · refine ⟨hinv, (refl id s).modify _, ?_⟩
      simp [Conn.updateWindow, hst]
  obtain ⟨hinv1, honly1, hst1, hacked1, hseq1⟩ := h1
  have h2 : Kept s1 (processAck w t app cbd seg.ack s1 id).2 :=
    processAck_inv hinv1 happ hst1 hack (by rw [hacked1, hseq1]; exact hsent)
  generalize processAck w t app cbd seg.ack s1 id = res at h2
  obtain ⟨go, s2⟩ := res
  replace h2 : Kept s s2 := .trans ⟨hinv1, honly1.silent⟩ h2
  cases go with
  | false => exact h2
  | true =>
    have h3 : Kept s2 (deliver w app mem data dataSize cbd s2 id).2 :=
      deliver_inv h2.inv happ data dataSize
    simp only
    generalize deliver w app mem data dataSize cbd s2 id = res3 at h3
    obtain ⟨cbd3, s3⟩ := res3
    simp only
    split
    · exact h2.trans (h3.trans (closeRemote_inv h3.inv happ))
    · exact h2.trans h3

theorem establish_inv (hid : id < s.next) (hearly : (s.heap id).status.Early) :
    Kept s (establish w t app cbd s id) ∧
      ((establish w t app cbd s id).heap id).status = .established ∧
      ((establish w t app cbd s id).heap id).localSeqAcked = u32 ((s.heap id).localSeq + 1) := by
  have hc := h.conn id
  have hzero : ∀ n, subU32 (u32 n) (u32 n) = 0 := by
    intro n
    unfold subU32 u32
    omega
  have hok : ∀ st, ({ (firstRto w (t 1) (s.heap id)).advance with status := st }).Ok := by
    intro st
    refine ⟨u32_lt _, u32_lt _, u32_lt _, hc.txlen, hc.chunk, fun _ => hc.early hearly,
      fun _ _ => ⟨rfl, hc.early hearly⟩, fun _ hne => ?_⟩
    simp only [InWindow, Conn.acked, Conn.reached, Conn.advance, hzero]
    exact ⟨⟨Nat.le_refl 0, Nat.zero_le _⟩, Nat.pos_of_ne_zero hne⟩
  unfold establish
  simp only
  generalize hs1 : (s.modify id fun c => (firstRto w (t 1) c).advance) = s1
  have h1 : Kept s s1 := hs1 ▸ (refl h).modify id (hok (s.heap id).status)
  have hheap1 : s1.heap id = (firstRto w (t 1) (s.heap id)).advance := by simp [← hs1]
  generalize hs2 : (if (s1.heap id).status = .synSent then
      sendPacket s1 id Tcp.ack (s1.heap id).localSeq (s1.heap id).peerSeq 0 0 else s1) = s2
  have h2 : Kept s s2 ∧ s2.heap = s1.heap ∧ s2.next = s1.next := by
    rw [← hs2]
    split
    · exact ⟨h1.send .., rfl, rfl⟩
    · exact ⟨h1, rfl, rfl⟩
  obtain ⟨hkept2, hheap2, hnext2⟩ := h2
  generalize hs3 : (s2.modify id fun c => { c with status := .established }) = s3
  have hheap3 : s3.heap id = { (firstRto w (t 1) (s.heap id)).advance with
      status := .established } := by
    rw [← hs3]
    simp [hheap2, hheap1]
  have hkept3 : Kept s s3 := by
    refine hs3 ▸ hkept2.modify id ?_
    rw [hheap2, hheap1]
    exact hok _
  have hid3 : id < s3.next := by
    rw [← hs3, Stack.modify_next, hnext2, ← hs1]
    exact hid
  have hcb := passive_callback w happ s3 { cbd with status := .newConn }
  refine ⟨hkept3.callback w happ _, ?_, ?_⟩
  · rw [hcb.status id hid3, hheap3]
  · rw [hcb.acked id hid3 (by rw [hheap3]; rfl), hcb.localSeq id hid3, hheap3]
    rfl

omit happ in
theorem connFill_inv (hres : connFill t mem seg s id = some s') :
    Kept s s' ∧ s'.next = s.next ∧ (s'.heap id).status = (s.heap id).status ∧
      (s'.heap id).localSeq = (s.heap id).localSeq := by
  unfold connFill at hres
  simp only at hres
  split at hres
  · cases hres
  cases hres
  refine ⟨?_, rfl, by simp [stampOpen], by simp [stampOpen]⟩
  refine (((refl h).modify id ?_).modify id ?_).modify id ?_
  · exact (h.conn id).of_eq (by rfl)
  · simp only [Stack.modify_heap, update_self]
    exact (h.conn id).of_eq (by rfl)
  · simp only [Stack.modify_heap, update_self]
    exact (h.conn id).of_eq (by rfl)

omit happ in
theorem connCreate_inv {malloc : Bool} (hres : connCreate t malloc mem seg s = some s') :
    Kept s s' := by
  have hnew : ∀ c : Conn, c.Ok → Kept s { s with
      heap := update s.heap s.next c, connHead := s.connHead ++ [s.next],
      next := s.next + 1 } :=
    fun c hc => ⟨h.create rfl rfl rfl hc, .refl s⟩
  have hok : ∀ c : Conn, c.status = .synRcvd → c.localSeq = initialSeq (t 0) →
      c.localSeqLast = 0 → c.localSeqAcked = 0 → c.tx = 0 → c.txlen = 0 → c.rexmitMode = false →
      c.Ok := by
    intro c hst hseq hlast hacked htx htxlen hmode
    refine Conn.Ok.fresh ?_ (hseq ▸ initialSeq_lt _) hlast hacked htx htxlen hmode
    simp [hst]
  unfold connCreate at hres
  simp only at hres
  split at hres
  · split at hres
    · cases hres
    · cases hres
      refine (send ((hnew _ (hok _ rfl rfl rfl rfl rfl rfl rfl)).modify s.next ?_) ..).modify
        s.next ?_
      · simp only [update_self]
        exact hok _ rfl rfl rfl rfl rfl rfl rfl
      · simp only [sendPacketOpt, Stack.modify_heap, update_self]
        exact hok _ rfl rfl rfl rfl rfl rfl rfl
  · cases hres
    exact (hnew _ (hok _ rfl rfl rfl rfl rfl rfl rfl)).send ..

omit happ in
theorem finWait1_inv : Kept s (finWait1 w seg s id) := by
  have hc := h.conn id
  unfold finWait1
  simp only
  split_ifs
  · exact refl h
  · exact (refl h).modify id (hc.leave (u32_lt _) (by simp) (by rfl))
  · exact (refl h).modify id (hc.leave (u32_lt _) (by simp) (by rfl))
  · exact (refl h).modify id (hc.leave hc.localSeq (by simp) (by rfl))
  · exact refl h

theorem handshake_inv (hid : id < s.next)
    (hearly : (s.heap id).status.Early) (hack : seg.ack < 2 ^ 32)
    (hsent : seg.dataSize ≠ 0 → seqSub w seg.ack (u32 ((s.heap id).localSeq + 1)) ≤ 0) :
    Kept s (if seg.dataSize = 0 then establish w t app cbd s id
      else established w t app mem seg cbd (establish w t app cbd s id) id) := by
  obtain ⟨hkept, hst, hacked⟩ := establish_inv (w := w) (t := t) h happ hid hearly
  split
  · exact hkept
  · refine hkept.trans (established_inv hkept.inv happ hst hack ?_)
    intro hpos
    rw [hacked] at hpos
    omega

theorem statusReceive_inv (hid : id < s.next) (hack : seg.ack < 2 ^ 32)
    (hok : AckOk w (s.heap id) seg) (hres : statusReceive w t app mem seg cbd s id = some s') :
    Kept s s' := by
  have hc := h.conn id
  unfold statusReceive at hres
  split at hres
  · rename_i hst
    split at hres
    · split at hres
      · cases hres
      rename_i s1 hfill
      obtain ⟨hkept, hnext, hst1, hseq1⟩ := connFill_inv h hfill
      have hearly : (s1.heap id).status.Early := by
        rw [hst1, hst]
        simp [Status.Early]
      cases hres
      refine hkept.trans (handshake_inv hkept.inv happ (hnext ▸ hid) hearly hack ?_)
      rw [hseq1]
      exact hok.2 (.inl hst)
    · cases hres
      exact ((refl h).send ..).callback w happ _ |>.del id
  · rename_i hst
    cases hres
    refine handshake_inv h happ hid ?_ hack (hok.2 (.inr hst))
    rw [hst]
    simp [Status.Early]
  · rename_i hst
    cases hres
    exact established_inv h happ hst hack (hok.1 hst)
  · split at hres
    · cases hres
      exact Kept.refl h
    · cases hres
      refine (Kept.callback ((Kept.refl h).modify id ?_) w happ _).del id
      exact hc.leave hc.localSeq (by simp) (by rfl)
  · cases hres
    exact finWait1_inv h
  · cases hres
    split
    · exact (Kept.refl h).modify id (hc.leave hc.localSeq (by simp) (by rfl))
    · exact refl h
  · split at hres
    · cases hres
      exact refl h
    · cases hres
      exact (Kept.refl h).modify id (hc.leave (u32_lt _) (by simp) (by rfl))
  · cases hres
    exact refl h

theorem connReceive_inv (hid : id < s.next) (hack : seg.ack < 2 ^ 32)
    (hok : AckOk w (s.heap id) seg) (hres : connReceive w t app mem seg s id = some s') :
    Kept s s' := by
  unfold connReceive at hres
  simp only at hres
  split at hres
  · cases hres
    split
    · exact ((refl h).callback w happ _).del id
    · exact (refl h).del id
  · split at hres
    · cases hres
      exact refl h
    · exact statusReceive_inv h happ hid hack hok hres

end Receive

end MtkBoot.Tcp
