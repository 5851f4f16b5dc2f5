import MtkBoot.Lib.System
import MtkBoot.Tcp.Stream

/-! Whole runs of the TCP stack: packets of a peer's byte stream in any order, checks and calls of
the application. -/

namespace MtkBoot.Tcp

open MtkBoot.Lib Stack

variable {ok : Stack → Mem → Segment → Prop}

/-- One event of the stack: a packet arrives, a connection is checked, or the application calls.
Packets with the addresses `k` satisfy `ok`. -/
inductive Step (w : Ulong) (k : Key) (ok : Stack → Mem → Segment → Prop) : Stack → Stack → Prop
  | receive {s s' : Stack} (t : Clock) (app : App) (malloc : Bool) (mem : Mem) (len : Nat)
      (r : Bool) (hok : ∀ seg, parse mem len = some seg → seg.key = k → ok s mem seg)
      (hs' : receiveTcp w t app malloc mem len s = some (r, s')) : Step w k ok s s'
  | check {s : Stack} (t : Clock) (app : App) (id : Nat) (hid : id ∈ s.connHead) :
    Step w k ok s (connCheck w t app s id)
  | call {s : Stack} (call : Call) : Step w k ok s (call.run w s)

section Run

variable {w : Ulong} {k : Key} {isn : Nat} {stream : Bytes} {s s' : Stack}

theorem inv_init (strict : Prop) (k : Key) (isn : Nat) (stream : Bytes) :
    Inv strict k isn stream init :=
  ⟨fun _ hid => absurd hid (Nat.not_lt_zero _), fun _ _ hid => absurd hid (Nat.not_lt_zero _),
    fun _ n e hn => by simp [init] at hn, by simp [init], by simp [init]⟩

theorem Inv.step {strict : Prop} (h : Inv strict k isn stream s) (hlen : stream.length < 2 ^ 31)
    (hok : ∀ s mem seg, ok s mem seg → SliceOf isn stream mem seg ∧
      (strict → EndsStream isn stream seg ∧ InOrder w s seg))
    (hstep : Step w k ok s s') : Inv strict k isn stream s' := by
  cases hstep with
  | receive t app malloc mem len r hseg hs' =>
    exact h.receiveSegment hlen (fun _ hp => (parse_lt hp).1)
      (fun seg hp hk => hok s mem seg (hseg seg hp hk)) hs'
  | check t app id hid => exact h.quiet (quiet_connCheck (h.head_lt id hid))
  | call call => exact h.quiet (quiet_call w s call)

theorem inv_of_reachable (strict : Prop) (hlen : stream.length < 2 ^ 31)
    (hok : ∀ s mem seg, ok s mem seg → SliceOf isn stream mem seg ∧
      (strict → EndsStream isn stream seg ∧ InOrder w s seg))
    (h : Reachable (· = init) (Step w k ok) s) : Inv strict k isn stream s := by
  refine h.invariant ?_ fun s s' hs hstep => hs.step hlen hok hstep
  rintro _ rfl
  exact inv_init strict k isn stream

def Status.InHandshake (status : Status) : Prop :=
  status = .connect ∨ status = .synSent ∨ status = .synRcvd

theorem Status.inHandshake_iff (status : Status) :
    status.InHandshake ↔ status.phase = .opening ∨ status.phase = .answered := by
  cases status <;> simp [InHandshake, phase]

/-- Whatever slices of the stream arrive, in whatever order, what a connection passes to the
application is a prefix of the stream, up to the byte that it expects. -/
theorem delivered_isPrefix (hlen : stream.length < 2 ^ 31)
    (h : Reachable (· = init) (Step w k fun _ mem seg => SliceOf isn stream mem seg) s)
    {id : Nat} (hid : id < s.next) (hkey : (s.heap id).key = k) :
    delivered s.events id <+: stream ∧
      ((s.heap id).status.InHandshake → delivered s.events id = []) ∧
      (¬(s.heap id).status.InHandshake →
        (delivered s.events id).length = subU32 (s.heap id).peerSeq (isn + 1)) := by
  have hc :=
    (inv_of_reachable False hlen (fun _ _ _ hok => ⟨hok, fun hs => hs.elim⟩) h).conn id hid hkey
  refine ⟨hc.isPrefix, fun hh => hc.waiting ((Status.inHandshake_iff _).mp hh), fun hh => ?_⟩
  rw [Status.inHandshake_iff, not_or] at hh
  have hle := hc.isPrefix.length_le
  rw [hc.synced hh.1 hh.2]
  unfold subU32 u32
  omega

end Run

/-! ### A run on packets -/

def memOf (bytes : Bytes) : Mem := fun i => bytes.getD i 0

def samplePacket (seq ack flags sum0 sum1 : UInt8) (payload : Bytes) : Bytes :=
  [69, 0, 0, 0, 0, 0, 0, 0, 64, 6, 0, 0, 10, 0, 0, 2, 10, 0, 0, 1, 3, 232, 0, 80, 0, 0, 0, seq,
    0, 0, 0, ack, 80, flags, 16, 0, sum0, sum1, 0, 0] ++ payload

def stackAfter (s : Stack) : Option (Bool × Stack) → Stack
  | none => s
  | some (_, s') => s'

def afterPacket (s : Stack) (bytes : Bytes) : Stack := stackAfter s
    (receiveTcp .bits64 (fun _ => 0) (fun _ _ => []) true (memOf bytes) bytes.length s)

theorem eq_some_stackAfter {o : Option (Bool × Stack)} (s : Stack) (h : o.isSome) :
    ∃ r, o = some (r, stackAfter s o) := by
  obtain ⟨⟨r, s'⟩, rfl⟩ := Option.isSome_iff_exists.mp h
  exact ⟨r, rfl⟩

theorem step_afterPacket {k : Key} {s : Stack} {bytes : Bytes} {seg : Segment}
    (hparse : parse (memOf bytes) bytes.length = some seg) (hsome : (receiveTcp .bits64 (fun _ => 0)
      (fun _ _ => []) true (memOf bytes) bytes.length s).isSome) (hok : ok s (memOf bytes) seg) :
    Step .bits64 k ok s (afterPacket s bytes) := by
  obtain ⟨r, hr⟩ := eq_some_stackAfter s hsome
  refine .receive _ _ true _ _ r (fun seg' hp _ => ?_) hr
  rw [hparse] at hp
  exact Option.some.inj hp ▸ hok

def sampleKey : Key := ⟨0x0a000002, 1000, 80⟩

def sampleSegment (seq ack flags dataSize : Nat) : Segment :=
  ⟨0x0a000002, 1000, 80, seq, ack, flags, 4096, 20, 20, 40, dataSize⟩

def sampleSyn : Stack :=
  afterPacket ((Call.listen 80 true).run .bits64 Stack.init) (samplePacket 100 0 2 135 68 [])

theorem sliceOf_syn (stream : Bytes) : SliceOf 100 stream
    (memOf (samplePacket 100 0 2 135 68 [])) (sampleSegment 100 0 0x5002 0) :=
  ⟨by decide, fun _ => ⟨rfl, rfl⟩, fun h => absurd rfl h⟩

section

variable (hok : ok ((Call.listen 80 true).run .bits64 Stack.init)
  (memOf (samplePacket 100 0 2 135 68 [])) (sampleSegment 100 0 0x5002 0))
include hok

theorem reachable_sampleSyn : Reachable (· = init) (Step .bits64 sampleKey ok) sampleSyn :=
  .step (.step (.init rfl) (.call (.listen 80 true)))
    (step_afterPacket (by decide +kernel) (by decide +kernel) hok)

def sampleData : Stack := afterPacket sampleSyn (samplePacket 101 1 24 131 39 [1, 2, 3])

omit hok in
theorem sliceOf_data : SliceOf 100 [1, 2, 3, 4] (memOf (samplePacket 101 1 24 131 39 [1, 2, 3]))
    (sampleSegment 101 1 0x5018 3) :=
  ⟨by decide, fun h => absurd h (by decide), fun _ => ⟨0, by decide, by decide, by decide⟩⟩

theorem reachable_sampleData (hok' : ok sampleSyn (memOf (samplePacket 101 1 24 131 39 [1, 2, 3]))
      (sampleSegment 101 1 0x5018 3)) :
    Reachable (· = init) (Step .bits64 sampleKey ok) sampleData :=
  .step (reachable_sampleSyn hok) (step_afterPacket (by decide +kernel) (by decide +kernel) hok')

end

theorem delivered_isPrefix_sampleData : delivered sampleData.events 0 = [1, 2, 3] ∧
      delivered sampleData.events 0 <+: [1, 2, 3, 4] ∧
      (delivered sampleData.events 0).length = subU32 (sampleData.heap 0).peerSeq (100 + 1) := by
  have hid : 0 < sampleData.next := by decide +kernel
  have h := delivered_isPrefix (by decide) (reachable_sampleData (sliceOf_syn _) sliceOf_data) hid
    (by decide +kernel)
  have hstatus : (sampleData.heap 0).status = .established := by decide +kernel
  refine ⟨by decide +kernel, h.1, h.2.2 ?_⟩
  rw [hstatus]
  simp [Status.InHandshake]

/-- Right after the SYN nothing has been passed to the application, but the block still holds the
sequence number of the SYN itself. -/
theorem length_differs_in_handshake : ∃ s id, Reachable (· = init)
      (Step .bits64 sampleKey fun _ mem seg => SliceOf 100 [1, 2, 3, 4] mem seg) s ∧
    id < s.next ∧ (s.heap id).key = sampleKey ∧
    (delivered s.events id).length % 2 ^ 32 ≠ subU32 (s.heap id).peerSeq (100 + 1) :=
  ⟨sampleSyn, 0,
    reachable_sampleSyn (sliceOf_syn _), by decide +kernel, by decide +kernel, by decide +kernel⟩

/-! ### The end of the stream -/

/-- The end of the stream has been reported for connections with the addresses `k` only after all of
the stream had been passed to the application, and a connection waits to be closed only then. -/
def ClosedComplete (k : Key) (stream : Bytes) (s : Stack) : Prop :=
  (∀ n e, s.events[n]? = some e → e.status = .remoteClosing → (s.heap e.conn).key = k →
    delivered (s.events.take n) e.conn = stream) ∧
  ∀ id < s.next, (s.heap id).key = k → (s.heap id).status = .closeWait →
    delivered s.events id = stream

/-- If no segment with FIN begins above the byte that is expected next, the end of the stream is
reported after all of its bytes. -/
theorem remoteClosing_complete {w : Ulong} {k : Key} {isn : Nat} {stream : Bytes} {s : Stack}
    (hlen : stream.length < 2 ^ 31)
    (h : Reachable (· = init) (Step w k fun s mem seg => SliceOf isn stream mem seg ∧
      EndsStream isn stream seg ∧ InOrder w s seg) s) : ClosedComplete k stream s := by
  have hinv := inv_of_reachable True hlen (fun _ _ _ hok => ⟨hok.1, fun _ => hok.2⟩) h
  refine ⟨hinv.closings trivial, fun id hid hk hst => hinv.complete trivial id hid hk ?_⟩
  rw [hst]
  rfl

theorem remoteClosing_complete_overlap :
    let s := afterPacket sampleData (samplePacket 102 1 17 129 44 [2, 3, 4])
    (s.heap 0).status = .closeWait ∧ ClosedComplete sampleKey [1, 2, 3, 4] s := by
  have hslice : SliceOf 100 [1, 2, 3, 4] (memOf (samplePacket 102 1 17 129 44 [2, 3, 4]))
      (sampleSegment 102 1 0x5011 3) :=
    ⟨by decide, fun h => absurd h (by decide), fun _ => ⟨1, by decide, by decide, by decide⟩⟩
  have horder : InOrder .bits64 sampleData (sampleSegment 102 1 0x5011 3) := by
    intro _ id hfind
    have hsome : connFind sampleData 0x0a000002 1000 80 = some 0 := by decide +kernel
    obtain rfl : 0 = id := Option.some.inj (hsome.symm.trans hfind)
    exact ⟨fun _ => by decide +kernel, fun h => absurd h (by decide +kernel)⟩
  have hnofin : ∀ {flags : Nat} {p : Prop}, has flags fin = false → has flags fin → p :=
    fun h h' => absurd (h.symm.trans h') (by decide)
  exact ⟨by decide +kernel, remoteClosing_complete (by decide)
    (.step (reachable_sampleData ⟨sliceOf_syn _, hnofin rfl, hnofin rfl⟩
      ⟨sliceOf_data, hnofin rfl, hnofin rfl⟩)
      (step_afterPacket (by decide +kernel) (by decide +kernel)
        ⟨hslice, fun _ => ⟨1, by decide, by decide⟩, horder⟩))⟩

/-- A stream of four bytes whose last two come first, with FIN: its end is reported at once. -/
theorem remoteClosing_before_data :
    ∃ s, Reachable (· = init) (Step .bits64 sampleKey fun _ mem seg =>
      SliceOf 100 [1, 2, 3, 4] mem seg ∧ EndsStream 100 [1, 2, 3, 4] seg) s ∧
    ¬ClosedComplete sampleKey [1, 2, 3, 4] s := by
  have hslice : SliceOf 100 [1, 2, 3,
      4] (memOf (samplePacket 103 1 17 132 43 [3, 4])) (sampleSegment 103 1 0x5011 2) :=
    ⟨by decide, fun h => absurd h (by decide), fun _ => ⟨2, by decide, by decide, by decide⟩⟩
  refine ⟨afterPacket sampleSyn (samplePacket 103 1 17 132 43 [3, 4]),
    .step (reachable_sampleSyn ⟨sliceOf_syn _, fun h => absurd h (by decide)⟩)
      (step_afterPacket (by decide +kernel) (by decide +kernel)
        ⟨hslice, fun _ => ⟨2, by decide, by decide⟩⟩), fun h => ?_⟩
  have hnil := h.2 0 (by decide +kernel) (by decide +kernel) (by decide +kernel)
  revert hnil
  decide +kernel

end MtkBoot.Tcp
