import MtkBoot.Tcp.Run
import MtkBoot.Tcp.Window

/-! The packets of `mtk_tcp_conn_check`: new data, retransmissions and window probes take their
bytes from the place in the chunk that their sequence number names. -/

namespace MtkBoot.Tcp

open MtkBoot.Lib List

variable {a b d : Nat} {app : App} {c : Conn} {cbd : CbData} {out : Outgoing} {s s' : Stack}
  {t : Clock} {w : Ulong}

variable {c' : Conn} {len : Nat} {s1 : Stack} {o : Option Outgoing} {ok : Stack → Segment → Prop}

/-! ### Places in the chunk -/

/-- A packet's data: `len` bytes at the address `data`, with the sequence number `seq`. -/
def FromChunk (c : Conn) (data len seq : Nat) : Prop :=
  ∃ off, data = c.tx + off ∧ seq = u32 (c.localSeqLast + off) ∧ off + len ≤ c.txlen

theorem u32_add_subU32 (ha : a < 2 ^ 32) : u32 (b + subU32 a b) = a := by
  unfold u32 subU32
  omega

theorem subU32_u32_add (h : subU32 a b + d < 2 ^ 32) : subU32 (u32 (a + d)) b = subU32 a b + d := by
  unfold u32 subU32 at *
  omega

theorem Conn.Ok.fromChunk_acked (h : c.Ok) (hlen : c.acked + len ≤ c.txlen) :
    FromChunk c (c.tx + c.acked) len c.localSeqAcked :=
  ⟨c.acked, rfl, (u32_add_subU32 h.acked).symm, hlen⟩

/-- The packet that a check is about to send takes its data from the chunk. -/
def Outgoing.Ok (c : Conn) (out : Outgoing) : Prop :=
  out.datalen ≠ 0 → FromChunk c out.data out.datalen out.sendseq

/-- The check has moved no more than what has been sent. -/
structure SameChunk (c c' : Conn) : Prop where
  status : c'.status = c.status
  last : c'.localSeqLast = c.localSeqLast
  acked : c'.localSeqAcked = c.localSeqAcked
  tx : c'.tx = c.tx
  txlen : c'.txlen = c.txlen

open SameChunk

theorem SameChunk.refl (c : Conn) : SameChunk c c := ⟨rfl, rfl, rfl, rfl, rfl⟩

theorem SameChunk.trans {c'' : Conn} (h : SameChunk c c') (h' : SameChunk c' c'') :
    SameChunk c c'' :=
  ⟨h'.status.trans h.status, h'.last.trans h.last, h'.acked.trans h.acked, h'.tx.trans h.tx,
    h'.txlen.trans h.txlen⟩

def Conn.chunk (c : Conn) := (c.status, c.localSeqLast, c.localSeqAcked, c.tx, c.txlen)

theorem SameChunk.modify {id : Nat} {f : Conn → Conn} (h : SameChunk c (s1.heap id))
    (hf : (f (s1.heap id)).chunk = (s1.heap id).chunk) :
    SameChunk c ((s1.modify id f).heap id) := by
  simp only [Conn.chunk, Prod.mk.injEq] at hf
  obtain ⟨hst, hlast, hacked, htx, htxlen⟩ := hf
  rw [Stack.modify_heap, Function.update_self]
  exact h.trans ⟨hst, hlast, hacked, htx, htxlen⟩

theorem SameChunk.acked_eq (h : SameChunk c c') : c'.acked = c.acked := by
  rw [Conn.acked, h.acked, h.last, Conn.acked]

theorem SameChunk.fromChunk (h : SameChunk c c') {data seq : Nat}
    (hfrom : FromChunk c' data len seq) : FromChunk c data len seq := by
  unfold FromChunk at *
  rwa [h.tx, h.last, h.txlen] at hfrom

theorem Conn.Ok.advance_seq (h : c.Ok) (hst : c.status = .established) (hsame : SameChunk c c')
    (hseq : c'.localSeq = u32 (c.localSeq + d)) (hd : c.reached + d ≤ c.txlen) (hne : c.txlen ≠ 0) :
    c'.Ok := by
  have hlen := h.txlen
  obtain ⟨⟨hle, -⟩, hlt⟩ := h.window hst hne
  have hreached : c'.reached = c.reached + d := by
    rw [Conn.reached, hseq, hsame.last]
    exact subU32_u32_add (by unfold Conn.reached at hd; omega)
  have hacked := hsame.acked_eq
  refine ⟨hseq ▸ u32_lt _, hsame.last ▸ h.last, hsame.acked ▸ h.acked, hsame.txlen ▸ h.txlen, ?_,
    ?_, ?_, ?_⟩
  · rw [hsame.tx, hsame.txlen]
    exact h.chunk
  · intro he
    rw [Status.Early, hsame.status, hst] at he
    simp at he
  · intro _ h0
    exact absurd (hsame.txlen ▸ h0) hne
  · intro _ _
    rw [InWindow, hreached, hacked, hsame.txlen]
    omega

theorem Conn.Ok.rexmit (h : c.Ok) (hst : c.status = .established) (hsame : SameChunk c c')
    (hseq : c'.localSeq = c.localSeq) (hne : c.txlen ≠ 0) : c'.Ok := by
  refine h.advance_seq hst hsame (d := 0) ?_ (h.window hst hne).1.2 hne
  rw [hseq, add_zero, u32_of_lt h.localSeq]

/-! ### The parts of the check -/

section Check

variable {id : Nat}

theorem rexmitCheck_kept (h : WindowInv s) (happ : app.Typed) {r : Rexmit}
    (hres : rexmitCheck w t app cbd s id = (r, s1)) : Kept s s1 ∧ (r ≠ .gone → s1 = s) := by
  unfold rexmitCheck at hres
  simp only at hres
  split at hres
  · cases hres
    refine ⟨.del ?_ id, fun hr => absurd rfl hr⟩
    unfold rexmitCallback
    have hsend :
        Kept s (sendPacket s id (rst ||| ack) (s.heap id).localSeq (s.heap id).peerSeq 0 0) :=
      (Kept.refl h).send ..
    split
    · exact hsend.callback w happ _
    · exact hsend.callback w happ _
    · exact hsend.callback w happ _
    · exact hsend
  · cases hres
    exact ⟨.refl h, fun _ => rfl⟩

theorem Kept.sends {P : Outgoing → Prop} (h : Kept s s1) (hout : P out) :
    Kept s s1 ∧ ∀ out', some out = some out' → P out' :=
  ⟨h, fun _ heq => Option.some.inj heq ▸ hout⟩

/-- What a part of the check promises to the next one about the connection `c` it began with. -/
structure Prepared (c : Conn) (s1 : Stack) (id : Nat) (out : Outgoing) : Prop where
  same : SameChunk c (s1.heap id)
  ok : out.Ok c
  /-- Only a connection that is not in retransmission mode sends new data. -/
  fresh : out.datalen ≠ 0 → (s1.heap id).rexmitMode = false

theorem prepared_of_empty (hsame : SameChunk c (s1.heap id)) (hempty : out.datalen = 0) :
    Prepared c s1 id out :=
  ⟨hsame, fun h => absurd hempty h, fun h => absurd hempty h⟩

theorem checkSend_spec (h : WindowInv s) (happ : app.Typed)
    (hst : (s.heap id).status = .established)
    (hres : checkSend w t app cbd (s.heap id).reached (s.heap id).acked s id = (o, s1)) :
    Kept s s1 ∧ ∀ out, o = some out → Prepared (s.heap id) s1 id out := by
  have hc := h.conn id
  unfold checkSend at hres
  simp only at hres
  split at hres
  · cases hres
    exact (Kept.refl h).sends (prepared_of_empty (refl _) rfl)
  rename_i hmode
  split at hres
  · have hne : (s.heap id).txlen ≠ 0 := by omega
    have hsub : subU32 (s.heap id).txlen (s.heap id).reached =
        (s.heap id).txlen - (s.heap id).reached := subU32_of_le (by omega) hc.txlen
    rw [hsub] at hres
    split at hres
    · -- The window of the peer is full.
      cases hres
      have hzw : Kept s ((if (s.heap id).zwMode then s else s.modify id (rexmitInit t)).modify id
          fun c => { c with zwMode := true }) ∧ SameChunk (s.heap id)
          (((if (s.heap id).zwMode then s else s.modify id (rexmitInit t)).modify id
            fun c => { c with zwMode := true }).heap id) := by
        split
        · exact ⟨(Kept.refl h).modify id (hc.of_eq (by rfl)), (refl _).modify (by rfl)⟩
        · have hinit : Kept s (s.modify id (rexmitInit t)) :=
            (Kept.refl h).modify id (hc.of_eq (by rfl))
          exact ⟨hinit.modify id ((hinit.inv.conn id).of_eq (by rfl)),
            ((refl _).modify (by rfl)).modify (by rfl)⟩
      exact hzw.1.sends (prepared_of_empty hzw.2 rfl)
    · cases hres
      have hsame : ∀ seq wnd ackFlag, SameChunk (s.heap id) (rexmitInit t { s.heap id with
          localSeq := seq, peerWnd := wnd, ackFlag := ackFlag }) :=
        fun _ _ _ => ⟨rfl, rfl, rfl, rfl, rfl⟩
      refine Kept.sends ?_ ⟨(refl _).modify (by rfl), fun _ => ?_, fun _ => ?_⟩
      · exact (Kept.refl h).modify id (hc.advance_seq hst (hsame ..) rfl (by omega) hne)
      · exact ⟨_, rfl, (u32_add_subU32 hc.localSeq).symm, by dsimp only; omega⟩
      · simpa [rexmitInit] using hmode
  · split at hres
    · have hne : (s.heap id).txlen ≠ 0 := by omega
      split at hres
      · rename_i hcheck
        cases hres
        exact ⟨(rexmitCheck_kept h happ hcheck).1, by simp⟩
      · rename_i hcheck
        obtain rfl := (rexmitCheck_kept h happ hcheck).2 (by decide)
        cases hres
        exact ((Kept.refl h).modify id (hc.rexmit hst ⟨rfl, rfl, rfl, rfl, rfl⟩ rfl hne)).sends
          (prepared_of_empty ((refl _).modify rfl) rfl)
      · rename_i hcheck
        obtain rfl := (rexmitCheck_kept h happ hcheck).2 (by decide)
        cases hres
        exact (Kept.refl h).sends (prepared_of_empty (refl _) rfl)
    · cases hres
      exact (Kept.refl h).sends (prepared_of_empty (refl _) rfl)

theorem checkRexmit_spec (h : WindowInv s) (happ : app.Typed) (hst : c.status = .established)
    (hprep : Prepared c s id out) (hres : checkRexmit w t app cbd c.acked out s id = (o, s')) :
    Kept s s' ∧ ∀ out', o = some out' → SameChunk c (s'.heap id) ∧ out'.Ok c := by
  unfold checkRexmit at hres
  split at hres
  swap
  · cases hres
    exact (Kept.refl h).sends ⟨hprep.same, hprep.ok⟩
  rename_i hmode
  have hempty : out.datalen = 0 := by
    by_contra hne
    simp [hprep.fresh hne] at hmode
  have hst' := hprep.same.status.trans hst
  have hne : (s.heap id).txlen ≠ 0 := by
    intro h0
    simp [((h.conn id).idle hst' h0).2] at hmode
  generalize hwait : (if (s.heap id).rexmitWaitAck then _ else (some out, s)) = waited at hres
  have hwaited : Kept s waited.2 ∧ (waited.1 = none ∨
      waited.1 = some out ∧ SameChunk (s.heap id) (waited.2.heap id)) := by
    rw [← hwait]
    split
    · split
      · rename_i hcheck
        exact ⟨(rexmitCheck_kept h happ hcheck).1, .inl rfl⟩
      · rename_i hcheck
        obtain rfl := (rexmitCheck_kept h happ hcheck).2 (by decide)
        dsimp only
        exact ⟨(Kept.refl h).modify id ((h.conn id).of_eq (by rfl)),
          .inr ⟨rfl, (refl _).modify (by rfl)⟩⟩
      · rename_i hcheck
        obtain rfl := (rexmitCheck_kept h happ hcheck).2 (by decide)
        exact ⟨.refl h, .inr ⟨rfl, refl _⟩⟩
    · exact ⟨Kept.refl h, .inr ⟨rfl, refl _⟩⟩
  obtain ⟨o1, s1⟩ := waited
  obtain ⟨hkept, rfl | ⟨rfl, hsame1⟩⟩ := hwaited
  · cases hres
    exact ⟨hkept, by simp⟩
  dsimp only at hres hkept hsame1
  have hsame := hprep.same.trans hsame1
  have hc1 := hkept.inv.conn id
  have hacked := hsame.acked_eq
  have hne1 : (s1.heap id).txlen ≠ 0 := by
    rw [hsame1.txlen]
    exact hne
  have hlt := (hc1.window (hsame.status.trans hst) hne1).2
  split at hres
  · cases hres
    exact hkept.sends ⟨hsame, hprep.ok⟩
  -- The stamps and counters that both branches set are not part of the chunk.
  have hstamp : ∀ {s2 : Stack} {out2 : Outgoing}, Kept s s2 → SameChunk c (s2.heap id) →
      out2.Ok c → ∀ {o : Option Outgoing} {s' : Stack} (n m : Nat),
      (some out2, if rttInterval < n then s2.modify id fun c => { c with
        ackCalcRtt := u32 (c.localSeqAcked + out2.datalen), tsRtt := m } else s2) = (o, s') →
      Kept s s' ∧ ∀ out', o = some out' → SameChunk c (s'.heap id) ∧ out'.Ok c := by
    intro s2 out2 hkept2 hsame2 hok2 o s' n m heq
    cases heq
    split
    · exact (hkept2.modify id ((hkept2.inv.conn id).of_eq (by rfl))).sends
        ⟨hsame2.modify (by rfl), hok2⟩
    · exact hkept2.sends ⟨hsame2, hok2⟩
  split at hres
  · refine hstamp hkept hsame ?_ _ _ hres
    intro hne2
    exact absurd hempty hne2
  · have hsub : subU32 (s1.heap id).txlen c.acked = (s1.heap id).txlen - c.acked :=
      subU32_of_le (by omega) hc1.txlen
    refine hstamp (hkept.modify id (hc1.of_eq (by rfl))) (hsame.modify rfl) ?_ _ _ hres
    intro _
    have hfrom := hsame.fromChunk (hc1.fromChunk_acked
      (show _ + min (subU32 (s1.heap id).txlen c.acked) (s1.heap id).mss ≤ _ by omega))
    rwa [hacked] at hfrom

theorem checkProbe_spec (h : WindowInv s) (happ : app.Typed) (hc : c.Ok)
    (hst : c.status = .established) (hsame : SameChunk c (s.heap id)) (hok : out.Ok c)
    (hres : checkProbe w t app cbd c.reached c.acked out s id = (o, s')) :
    Kept s s' ∧ ∀ out', o = some out' → SameChunk c (s'.heap id) ∧ out'.Ok c := by
  unfold checkProbe at hres
  simp only at hres
  split at hres
  swap
  · cases hres
    exact (Kept.refl h).sends ⟨hsame, hok⟩
  generalize hs1 : (if (s.heap id).zwMode then s else s.modify id fun c => rexmitInit
    (fun i => t (60 + i)) { c with zwMode := true }) = s1 at hres
  have h1 : Kept s s1 ∧ SameChunk c (s1.heap id) := by
    rw [← hs1]
    split
    · exact ⟨.refl h, hsame⟩
    · exact ⟨(Kept.refl h).modify id ((h.conn id).of_eq (by rfl)), hsame.modify (by rfl)⟩
  obtain ⟨hkept1, hsame1⟩ := h1
  split at hres
  swap
  · cases hres
    exact hkept1.sends ⟨hsame1, hok⟩
  rename_i hmore
  rw [hsame.txlen] at hmore
  have hne : c.txlen ≠ 0 := by omega
  obtain ⟨⟨hle, -⟩, -⟩ := hc.window hst hne
  split at hres
  · rename_i hcheck
    cases hres
    exact ⟨hkept1.trans (rexmitCheck_kept hkept1.inv happ hcheck).1, nofun⟩
  · rename_i hcheck
    obtain rfl := (rexmitCheck_kept hkept1.inv happ hcheck).2 (by decide)
    cases hres
    have hc1 := hkept1.inv.conn id
    have hst1 := hsame1.status.trans hst
    have hacked := hsame1.acked_eq
    have hlen := hsame1.txlen
    refine (hkept1.modify id ?_).sends ⟨hsame1.modify (by rfl), fun _ => ?_⟩
    · -- A probe of the first byte that has not been sent counts as sent.
      split
      · rename_i heq
        refine hc1.advance_seq hst1 ⟨rfl, rfl, rfl, rfl, rfl⟩ rfl ?_ (by omega)
        rw [Conn.reached, heq, ← Conn.acked, hacked]
        omega
      · exact hc1.of_eq (by rfl)
    · have hfrom := hsame.fromChunk ((h.conn id).fromChunk_acked
        (show _ + 1 ≤ _ by rw [hsame.acked_eq, hsame.txlen]; omega))
      rwa [hsame.acked_eq] at hfrom
  · rename_i hcheck
    obtain rfl := (rexmitCheck_kept hkept1.inv happ hcheck).2 (by decide)
    cases hres
    exact hkept1.sends ⟨hsame1, hok⟩

end Check

/-! ### The packets of a step -/

/-- The packet carries bytes of the chunk that its connection had in `s`. -/
def Transmitted (s : Stack) (e : Sent) : Prop := (s.heap e.conn).status = .established ∧
    FromChunk (s.heap e.conn) e.payload e.payloadLen e.seq

/-- Every payload sent from `s` to `s'` comes from a chunk in `s`. -/
def Transmits (s s' : Stack) : Prop :=
  ∃ new, s'.sent = s.sent ++ new ∧ ∀ e ∈ new, e.payloadLen ≠ 0 → Transmitted s e

section Packets

variable {s'' : Stack} {id : Nat}

theorem Kept.transmits (h : Kept s s') : Transmits s s' := by
  obtain ⟨new, heq, hnew⟩ := h.silent
  exact ⟨new, heq, fun e he hne => absurd (hnew e he) hne⟩

theorem Transmits.silent (h : Transmits s s') (h' : Silent s' s'') : Transmits s s'' := by
  obtain ⟨new, heq, hnew⟩ := h
  obtain ⟨new', heq', hnew'⟩ := h'
  refine ⟨new ++ new', by rw [heq', heq, append_assoc], ?_⟩
  intro e he hne
  rcases mem_append.mp he with he | he
  · exact hnew e he hne
  · exact absurd (hnew' e he) hne

theorem Kept.transmit (h : Kept s s') (hst : (s.heap id).status = .established)
    (hout : out.Ok (s.heap id)) (peerSeq : Nat) :
    WindowInv (sendPacket s' id out.flags out.sendseq peerSeq out.data out.datalen) ∧
      Transmits s (sendPacket s' id out.flags out.sendseq peerSeq out.data out.datalen) := by
  obtain ⟨new, heq, hnew⟩ := h.silent
  refine ⟨h.inv.send .., new ++ [⟨id, out.flags &&& flagMask, out.sendseq, peerSeq,
    (s'.heap id).mss, [], out.data, out.datalen⟩], ?_, ?_⟩
  · simp only [sendPacket, sendPacketOpt, heq, append_assoc]
  · intro e he hne
    rcases mem_append.mp he with he | he
    · exact absurd (hnew e he) hne
    · rw [mem_singleton.mp he] at hne ⊢
      exact ⟨hst, hout hne⟩

theorem checkClose_spec (h : Kept s s') (happ : app.Typed) (hst : (s.heap id).status = .established)
    (hout : out.Ok (s.heap id)) : WindowInv (checkClose w t app cbd out s' id) ∧
      Transmits s (checkClose w t app cbd out s' id) := by
  unfold checkClose
  simp only
  generalize hs1 : (if (s'.heap id).ackFlag ≠ 0 then
      sendPacket (s'.modify id fun c => { c with ackFlag := 0 }) id out.flags out.sendseq
        (s'.heap id).peerSeq out.data out.datalen
    else s') = s1
  have h1 : WindowInv s1 ∧ Transmits s s1 := by
    rw [← hs1]
    split
    · have hmod : Kept s (s'.modify id fun c => { c with ackFlag := 0 }) :=
        h.modify id ((h.inv.conn id).of_eq (by rfl))
      exact hmod.transmit hst hout _
    · exact ⟨h.inv, h.transmits⟩
  obtain ⟨hinv1, htr1⟩ := h1
  split
  · have hclose : Kept s1 (callback w app ((sendPacket s1 id (fin ||| ack) (s'.heap id).localSeq
        (s'.heap id).peerSeq 0 0).modify id fun c => rexmitInit t { c with status := .finWait1 })
        { cbd with status := .closing }) := by
      refine Kept.callback (((Kept.refl hinv1).send ..).modify id ?_) w happ _
      exact (hinv1.conn id).leave (hinv1.conn id).localSeq (by simp [rexmitInit]) (by rfl)
    exact ⟨hclose.inv, htr1.silent hclose.silent⟩
  · exact ⟨hinv1, htr1⟩

theorem checkEstablished_spec (h : WindowInv s) (happ : app.Typed)
    (hst : (s.heap id).status = .established) : WindowInv (checkEstablished w t app cbd s id) ∧
    Transmits s (checkEstablished w t app cbd s id) := by
  have hc := h.conn id
  have hreached : toU32 (seqSub w (s.heap id).localSeq (s.heap id).localSeqLast) =
      (s.heap id).reached := toU32_seqSub w hc.localSeq hc.last
  have hacked : toU32 (seqSub w (s.heap id).localSeqAcked (s.heap id).localSeqLast) =
      (s.heap id).acked := toU32_seqSub w hc.acked hc.last
  unfold checkEstablished
  simp only [hreached, hacked]
  split
  · rename_i hsend
    have hkept := (checkSend_spec h happ hst hsend).1
    exact ⟨hkept.inv, hkept.transmits⟩
  rename_i out1 s1 hsend
  obtain ⟨hkept1, hprep⟩ := checkSend_spec h happ hst hsend
  split
  · rename_i hrexmit
    have hkept := hkept1.trans (checkRexmit_spec hkept1.inv happ hst (hprep out1 rfl) hrexmit).1
    exact ⟨hkept.inv, hkept.transmits⟩
  rename_i out2 s2 hrexmit
  obtain ⟨hkept2, hsame2⟩ := checkRexmit_spec hkept1.inv happ hst (hprep out1 rfl) hrexmit
  obtain ⟨hsame, hok⟩ := hsame2 out2 rfl
  split
  · rename_i hprobe
    have hkept :=
      (hkept1.trans hkept2).trans (checkProbe_spec hkept2.inv happ hc hst hsame hok hprobe).1
    exact ⟨hkept.inv, hkept.transmits⟩
  · rename_i out3 s3 hprobe
    obtain ⟨hkept3, hsame3⟩ := checkProbe_spec hkept2.inv happ hc hst hsame hok hprobe
    exact checkClose_spec ((hkept1.trans hkept2).trans hkept3) happ hst (hsame3 out3 rfl).2

theorem connectRexmitCheck_kept (h : WindowInv s) (happ : app.Typed) :
    Kept s (connectRexmitCheck w t app cbd s id).2 := by
  unfold connectRexmitCheck
  simp only
  split
  · exact (Kept.callback ((Kept.refl h).send ..) w happ _).del id
  · exact .refl h

theorem checkAgain_kept {check : Rexmit × Stack} {again : Stack → Stack} (h : Kept s check.2)
    (hagain : ∀ s', Kept s s' → Kept s (again s')) : Kept s (checkAgain check again t id) := by
  obtain ⟨r, s1⟩ := check
  cases r with
  | gone => exact h
  | due =>
    have h1 := hagain s1 h
    exact h1.modify id ((h1.inv.conn id).of_eq (by rfl))
  | wait => exact h

theorem connCheck_spec (h : WindowInv s) (happ : app.Typed) :
    WindowInv (connCheck w t app s id) ∧ Transmits s (connCheck w t app s id) := by
  have hc := h.conn id
  have hboth {s' : Stack} (hk : Kept s s') : WindowInv s' ∧ Transmits s s' := ⟨hk.inv, hk.transmits⟩
  have hrexmit (cbd : CbData) : Kept s (rexmitCheck w t app cbd s id).2 :=
    (rexmitCheck_kept h happ rfl).1
  unfold connCheck
  simp only
  split
  · rename_i hst
    refine hboth (((Kept.refl h).send ..).modify id ?_)
    refine Conn.Ok.mk hc.localSeq hc.last hc.acked hc.txlen hc.chunk (fun _ => ?_) ?_ ?_
    · exact hc.early (.inl hst)
    · intro he
      cases he
    · intro he
      cases he
  · exact hboth (checkAgain_kept (connectRexmitCheck_kept h happ) fun s' hs' => hs'.send ..)
  · exact hboth (checkAgain_kept (hrexmit _) fun s' hs' => hs'.send ..)
  · rename_i hst
    exact checkEstablished_spec h happ hst
  · refine hboth (((Kept.refl h).send ..).modify id ?_)
    exact hc.leave hc.localSeq (by simp [rexmitInit]) (by rfl)
  · exact hboth (checkAgain_kept (hrexmit _) fun s' hs' => hs'.send ..)
  · exact hboth (checkAgain_kept (hrexmit _) fun s' hs' => hs'.send ..)
  · exact hboth ((Kept.callback ((Kept.refl h).send ..) w happ _).del id)
  · exact hboth (Kept.refl h)

end Packets

/-! ### Whole runs -/

/-- One event of the stack: a packet whose segment is `ok` arrives, a connection is checked, or the
application calls. -/
inductive WindowStep (w : Ulong) (ok : Stack → Segment → Prop) : Stack → Stack → Prop
  | receive {s s' : Stack} (t : Clock) (app : App) (malloc : Bool) (mem : Mem) (len : Nat)
      (r : Bool) (happ : app.Typed) (hok : ∀ seg, parse mem len = some seg → ok s seg)
      (hs' : receiveTcp w t app malloc mem len s = some (r, s')) : WindowStep w ok s s'
  | check {s : Stack} (t : Clock) (app : App) (id : Nat) (happ : app.Typed)
      (hid : id ∈ s.connHead) : WindowStep w ok s (connCheck w t app s id)
  | call {s : Stack} (call : Call) (hcall : call.Typed) : WindowStep w ok s (call.run w s)

theorem receiveSegment_inv (h : WindowInv s)
    {malloc r : Bool} {mem : Mem} {o : Option Segment} (happ : app.Typed)
    (hack : ∀ seg, o = some seg → seg.ack < 2 ^ 32) (hok : ∀ seg, o = some seg → AcksSent w s seg)
    (hres : receiveSegment w t app malloc mem s o = some (r, s')) : Kept s s' := by
  cases o with
  | none =>
    cases hres
    exact .refl h
  | some seg =>
    simp only [receiveSegment] at hres
    split at hres
    · rename_i id hfind
      obtain ⟨s1, hs1, heq⟩ := Option.map_eq_some_iff.mp hres
      cases heq
      exact connReceive_inv h happ (h.listed id (connFind_spec hfind).1) (hack seg rfl)
        (hok seg rfl id hfind) hs1
    split_ifs at hres
    · cases hres
      exact .refl h
    · obtain ⟨s1, hs1, heq⟩ := Option.map_eq_some_iff.mp hres
      cases heq
      exact connCreate_inv h hs1
    · cases hres
      exact .refl h

theorem windowStep_spec (h : WindowInv s) (hstep : WindowStep w (AcksSent w) s s') :
    WindowInv s' ∧ Transmits s s' := by
  cases hstep with
  | receive t app malloc mem len r happ hok hs' =>
    have hkept := receiveSegment_inv h happ (fun _ hp => (parse_lt hp).2) hok hs'
    exact ⟨hkept.inv, hkept.transmits⟩
  | check t app id happ hid => exact connCheck_spec h happ
  | call call hcall =>
    have hpassive := passive_call w s call hcall
    exact ⟨hpassive.inv h, Kept.transmits ⟨hpassive.inv h, hpassive.silent⟩⟩

theorem windowInv_init : WindowInv Stack.init := by
  have hzero : Conn.zero.Ok := Conn.Ok.fresh (by decide) (by decide) rfl rfl rfl rfl rfl
  exact ⟨fun _ => hzero, fun _ hid => by cases hid⟩

theorem transmit_window (h : Reachable (· = Stack.init) (WindowStep w (AcksSent w)) s) :
    (∀ id, (s.heap id).status = .established → (s.heap id).tx ≠ 0 → InWindow (s.heap id)) ∧
      ∀ s', WindowStep w (AcksSent w) s s' → Transmits s s' := by
  have hinv : WindowInv s :=
    h.invariant (fun _ hs => hs ▸ windowInv_init) fun _ _ hs hstep => (windowStep_spec hs hstep).1
  refine ⟨?_, fun s' hstep => (windowStep_spec hinv hstep).2⟩
  intro id hst htx
  have hc := hinv.conn id
  exact (hc.window hst fun h0 => htx (hc.chunk.mpr h0)).1

/-! ### Runs on packets -/

theorem windowStep_afterPacket {bytes : Bytes} {seg : Segment}
    (hparse : parse (memOf bytes) bytes.length = some seg) (hsome : (receiveTcp .bits64 (fun _ => 0)
      (fun _ _ => []) true (memOf bytes) bytes.length s).isSome) (hok : ok s seg) :
    WindowStep .bits64 ok s (afterPacket s bytes) := by
  obtain ⟨r, hr⟩ := eq_some_stackAfter s hsome
  refine .receive _ _ true _ _ r ?_ (fun seg' hp => ?_) hr
  · intro _ _ _ hcall
    cases hcall
  · rw [hparse] at hp
    exact Option.some.inj hp ▸ hok

def afterCheck (s : Stack) : Stack := connCheck .bits64 (fun _ => 0) (fun _ _ => []) s 0

theorem windowStep_afterCheck (hid : 0 ∈ s.connHead) : WindowStep .bits64 ok s (afterCheck s) :=
  .check _ _ 0 (fun _ _ _ hcall => by cases hcall) hid

def sampleChunk : Stack := (Call.sendData 0 0x1000 10).run .bits64
    (afterPacket sampleSyn (samplePacket 101 1 16 135 52 []))

theorem reachable_sampleChunk (hsyn : ok ((Call.listen 80 true).run .bits64 Stack.init)
      (sampleSegment 100 0 0x5002 0)) (hack : ok sampleSyn (sampleSegment 101 1 0x5010 0)) :
    Reachable (· = Stack.init) (WindowStep .bits64 ok) sampleChunk := by
  have hlisten : Reachable (· = Stack.init) (WindowStep .bits64 ok)
      ((Call.listen 80 true).run .bits64 Stack.init) := .step (.init rfl) (.call _ trivial)
  have hsyn' : Reachable (· = Stack.init) (WindowStep .bits64 ok) sampleSyn :=
    .step hlisten (windowStep_afterPacket (by decide +kernel) (by decide +kernel) hsyn)
  refine .step (.step hsyn' ?_) (.call _ ?_)
  · exact windowStep_afterPacket (by decide +kernel) (by decide +kernel) hack
  · exact (by decide : 10 < 2 ^ 32)

theorem transmit_window_sampleChunk : ((afterCheck sampleChunk).heap 0).localSeq = 11 ∧
    InWindow ((afterCheck sampleChunk).heap 0) := by
  have hsyn : AcksSent .bits64 ((Call.listen 80 true).run .bits64 Stack.init)
      (sampleSegment 100 0 0x5002 0) := by
    intro id hfind
    have hnone : connFind ((Call.listen 80 true).run .bits64 Stack.init) 0x0a000002 1000 80 =
      none := by decide +kernel
    cases hnone.symm.trans hfind
  have hack : AcksSent .bits64 sampleSyn (sampleSegment 101 1 0x5010 0) := by
    intro id hfind
    have hsome : connFind sampleSyn 0x0a000002 1000 80 = some 0 := by decide +kernel
    obtain rfl : 0 = id := Option.some.inj (hsome.symm.trans hfind)
    exact ⟨fun h => absurd h (by decide +kernel), fun _ h => absurd rfl h⟩
  have h := transmit_window
    (.step (reachable_sampleChunk hsyn hack) (windowStep_afterCheck (by decide +kernel)))
  exact ⟨by decide +kernel, h.1 0 (by decide +kernel) (by decide +kernel)⟩

/-- The peer acknowledges byte 99 of the ten, which have not been sent. -/
def sampleAhead : Stack := afterPacket sampleChunk (samplePacket 101 100 16 134 209 [])

/-- It then goes back to byte 49, after a check has sent the chunk. -/
def sampleBack : Stack := afterPacket (afterCheck sampleAhead) (samplePacket 101 50 16 135 3 [])

theorem reachable_sampleAhead :
    Reachable (· = Stack.init) (WindowStep .bits64 fun _ _ => True) sampleAhead :=
  .step (reachable_sampleChunk trivial trivial) (windowStep_afterPacket
      (show parse _ _ = some (sampleSegment 101 100 0x5010 0) by decide +kernel)
      (by decide +kernel) trivial)

/-- The acknowledged byte is beyond what has been sent, and the retransmission sends 1460 bytes from
behind the chunk. -/
theorem transmit_window_ahead :
    (∃ s, Reachable (· = Stack.init) (WindowStep .bits64 fun _ _ => True) s ∧
      (s.heap 0).status = .established ∧ (s.heap 0).tx ≠ 0 ∧ ¬InWindow (s.heap 0)) ∧
    ∃ s s', Reachable (· = Stack.init) (WindowStep .bits64 fun _ _ => True) s ∧
      WindowStep .bits64 (fun _ _ => True) s s' ∧ ¬Transmits s s' := by
  constructor
  · refine ⟨sampleAhead, reachable_sampleAhead, by decide +kernel, by decide +kernel, ?_⟩
    unfold InWindow
    decide +kernel
  refine ⟨sampleBack, afterCheck sampleBack, ?_, windowStep_afterCheck (by decide +kernel), ?_⟩
  · refine .step (.step reachable_sampleAhead (windowStep_afterCheck (by decide +kernel))) ?_
    exact windowStep_afterPacket (show parse _ _ = some
      (sampleSegment 101 50 0x5010 0) by decide +kernel) (by decide +kernel) trivial
  rintro ⟨new, heq, hnew⟩
  have hsent : (afterCheck sampleBack).sent =
      sampleBack.sent ++ [⟨0, ack, 50, 101, 1460, [], 0x1000 + 49, 1460⟩] := by decide +kernel
  obtain rfl := append_cancel_left (hsent.symm.trans heq)
  obtain ⟨-, off, hdata, -, hlen⟩ := hnew _ mem_cons_self (by decide)
  have htx : (sampleBack.heap 0).tx = 0x1000 := by decide +kernel
  have htxlen : (sampleBack.heap 0).txlen = 10 := by decide +kernel
  simp only [htx, htxlen] at hdata hlen
  omega

end MtkBoot.Tcp
