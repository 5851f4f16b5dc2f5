import MtkBoot.Tcp.Quiet

/-! The peer's byte stream: whatever segments of it arrive, the application is given a prefix of it,
and a connection that has been opened expects the byte after that prefix. -/

namespace MtkBoot.Tcp

open List Function Option Quiet

variable {cbd : CbData} {data isn size : Nat} {f : Conn → Conn} {malloc : Bool} {mem : Mem}
  {seg : Segment} {stream : Bytes} {w : Ulong}

/-! ### Segments of a stream -/

/-- A segment of the stream `stream` that starts after the sequence number `isn`: without urgent
data, a SYN carries `isn` and no data, and data is a slice of the stream at its place. -/
structure SliceOf (isn : Nat) (stream : Bytes) (mem : Mem) (seg : Segment) : Prop where
  notUrgent : has seg.flags urg = false
  opens : has seg.flags syn = true → seg.seq = isn ∧ seg.dataSize = 0
  slices : seg.dataSize ≠ 0 → ∃ off, seg.seq = u32 (isn + 1 + off) ∧ off + seg.dataSize ≤
    stream.length ∧ slice mem seg.data seg.dataSize = (stream.drop off).take seg.dataSize

/-- A segment with FIN ends where the stream ends. -/
def EndsStream (isn : Nat) (stream : Bytes) (seg : Segment) : Prop := has seg.flags fin = true →
    ∃ off, seg.seq = u32 (isn + 1 + off) ∧ off + seg.dataSize = stream.length

theorem slice_drop (mem : Mem) (o len n : Nat) :
    slice mem (o + n) (len - n) = (slice mem o len).drop n := by
  refine ext_getElem? fun i => ?_
  simp only [slice, getElem?_map, getElem?_drop]
  by_cases h : i < len - n
  · rw [getElem?_range h, getElem?_range (by omega)]
    simp [add_assoc]
  · rw [getElem?_eq_none (by simpa using h), getElem?_eq_none (by simp; omega)]
    rfl

section Trim

variable {n off : Nat} (hlen : stream.length < 2 ^ 31) (hn : n ≤ stream.length)
include hlen hn

/-- What is left of a slice of the stream when `n` bytes have been taken: the part above them, if
the slice reaches that far and does not leave a gap. -/
theorem trimPayload_slice (isn : Nat) (hoff : off + size ≤ stream.length)
    (hslice : slice mem data size = (stream.drop off).take size) : ∃ data' size' behind,
      trimPayload w (u32 (isn + 1 + n)) (u32 (isn + 1 + off)) data size = (data', size', behind) ∧
      n + size' ≤ stream.length ∧ slice mem data' size' = (stream.drop n).take size' ∧
      (off ≤ n → n + size' = max n (off + size)) := by
  have hstart : seqSub w (u32 (isn + 1 + off)) (u32 (isn + 1 + n)) = (off : Int) - n := by
    rw [seqSub_eq_sub w (by omega) (by omega)]
    omega
  have hend : seqSub w (u32 (u32 (isn + 1 + off) + size)) (u32 (isn + 1 + n)) =
      ((off + size : Nat) : Int) - n := by
    rw [show u32 (u32 (isn + 1 + off) + size) = u32 (isn + 1 + (off + size)) by unfold u32; omega,
      seqSub_eq_sub w (by omega) (by omega)]
    omega
  have hpart : subU32 (u32 (isn + 1 + off) + size) (u32 (isn + 1 + n)) = u32 (off + size - n) ∨
      off + size < n := by
    unfold subU32 u32
    omega
  unfold trimPayload
  rw [hstart, hend]
  rcases lt_trichotomy off n with hlt | heq | hgt
  · rw [if_pos (by omega)]
    by_cases hreach : n < off + size
    · rw [if_pos (by omega)]
      have htmp := (hpart.resolve_right (by omega)).trans (u32_of_lt (by omega))
      simp only [htmp, subU32_of_le (show off + size - n ≤ size by omega) (by omega)]
      refine ⟨_, _, _, rfl, by omega, ?_, fun _ => by omega⟩
      rw [show off + size - n = size - (n - off) by omega,
        show size - (size - (n - off)) = n - off by omega, slice_drop, hslice, drop_take,
        drop_drop]
      congr 2
      omega
    · rw [if_neg (by omega)]
      exact ⟨_, _, _, rfl, by omega, by simp [slice], fun _ => by omega⟩
  · rw [if_neg (by omega), if_neg (by omega)]
    exact ⟨_, _, _, rfl, by omega, by rw [hslice, heq], fun _ => by omega⟩
  · rw [if_neg (by omega), if_pos (by omega)]
    exact ⟨_, _, _, rfl, by omega, by simp [slice], fun _ => by omega⟩

end Trim

theorem trimPayload_empty (w : Ulong) (peerSeq : Nat) {seq : Nat} (hseq : seq < 2 ^ 32)
    (data : Nat) : ∃ behind, trimPayload w peerSeq seq data 0 = (data, 0, behind) := by
  unfold trimPayload
  rw [add_zero, u32_of_lt hseq]
  split
  · rw [if_neg (by omega)]
    exact ⟨_, rfl⟩
  · split
    · exact ⟨_, rfl⟩
    · exact ⟨_, rfl⟩

@[simp] theorem slice_length (mem : Mem) (o len : Nat) : (slice mem o len).length = len := by
  simp [slice]

theorem be16_lt (mem : Mem) (o : Nat) : be16 mem o < 2 ^ 16 := by
  have h := (mem o).toNat_lt
  have h' := (mem (o + 1)).toNat_lt
  unfold be16
  omega

theorem be32_lt (mem : Mem) (o : Nat) : be32 mem o < 2 ^ 32 := by
  have h := be16_lt mem o
  have h' := be16_lt mem (o + 2)
  unfold be32
  omega

theorem parse_lt {len : Nat} (h : parse mem len = some seg) :
    seg.seq < 2 ^ 32 ∧ seg.ack < 2 ^ 32 := by
  unfold parse at h
  simp only at h
  split at h
  · cases h
  · split at h
    · cases h
    · split at h
      · cases h
      · cases h
        exact ⟨be32_lt .., be32_lt ..⟩

/-- What is left of a segment continues the prefix `d` of the stream.  If it has FIN and leaves no
gap, it completes the stream. -/
theorem SliceOf.trim {d : Bytes} (h : SliceOf isn stream mem seg) (hseq : seg.seq < 2 ^ 32)
    (hlen : stream.length < 2 ^ 31) (hd : d <+: stream) : ∃ data size behind,
      trimPayload w (u32 (isn + 1 + d.length)) seg.seq seg.data seg.dataSize =
        (data, size, behind) ∧
        d ++ slice mem data size <+: stream ∧ (EndsStream isn stream seg → has seg.flags fin →
        seqSub w seg.seq (u32 (isn + 1 + d.length)) ≤ 0 → d ++ slice mem data size = stream) := by
  have hn := hd.length_le
  have htake := prefix_iff_eq_take.mp hd
  have hpos : ∀ off ≤ stream.length, seqSub w (u32 (isn + 1 + off)) (u32 (isn + 1 + d.length)) ≤ 0 →
      off ≤ d.length := by
    intro off hoff hle
    rw [seqSub_eq_sub w (by omega) (by omega)] at hle
    omega
  by_cases hsize : seg.dataSize = 0
  · obtain ⟨behind, heq⟩ := trimPayload_empty w (u32 (isn + 1 + d.length)) hseq seg.data
    rw [hsize]
    refine ⟨seg.data, 0, behind, heq, by simpa [slice] using hd, fun hend hfin hle => ?_⟩
    obtain ⟨off, hoff, hfull⟩ := hend hfin
    have := hpos off (by omega) (hoff ▸ hle)
    have hall : d.length = stream.length := by omega
    rw [hall, take_length] at htake
    simpa [slice] using htake
  · obtain ⟨off, hoff, hfit, hslice⟩ := h.slices hsize
    obtain ⟨data, size, behind, heq, hle, hrest, hmax⟩ :=
      trimPayload_slice (w := w) hlen hn isn hfit hslice
    have hjoin : d ++ slice mem data size = stream.take (d.length + size) := by
      rw [hrest, take_add, ← htake]
    refine ⟨data, size, behind, by rw [hoff]; exact heq, hjoin ▸ take_prefix _ _,
      fun hend hfin hgap => ?_⟩
    obtain ⟨off', hoff', hfull⟩ := hend hfin
    have hsame : off' = off := by
      have := hoff.symm.trans hoff'
      unfold u32 at this
      omega
    have := hmax (hpos off (by omega) (hoff ▸ hgap))
    rw [hjoin, take_of_length_le (by omega)]

/-! ### The invariant -/

/-- Where a connection is in the peer's stream when it has passed `d` to the application. -/
structure ConnOk (isn : Nat) (stream : Bytes) (c : Conn) (d : Bytes) : Prop where
  waiting : c.status.phase = .opening ∨ c.status.phase = .answered → d = []
  answered : c.status.phase = .answered → c.peerSeq = isn
  synced : c.status.phase ≠ .opening → c.status.phase ≠ .answered →
    c.peerSeq = u32 (isn + 1 + d.length)
  isPrefix : d <+: stream

/-- The connections with the addresses `k` have passed a prefix of the stream to the application.
Under `strict` they have passed all of it when they report its end. -/
structure Inv (strict : Prop) (k : Key) (isn : Nat) (stream : Bytes) (s : Stack) : Prop where
  conn : ∀ id < s.next, (s.heap id).key = k → ConnOk isn stream (s.heap id) (delivered s.events id)
  complete : strict → ∀ id < s.next, (s.heap id).key = k →
    (s.heap id).status.phase = .remoteClosed → delivered s.events id = stream
  closings : strict → ∀ n e, s.events[n]? = some e → e.status = .remoteClosing →
    (s.heap e.conn).key = k → delivered (s.events.take n) e.conn = stream
  events_lt : ∀ e ∈ s.events, e.conn < s.next
  head_lt : ∀ id ∈ s.connHead, id < s.next

section Inv

variable {strict : Prop} {k : Key} {s s' : Stack}

section

variable (h : Inv strict k isn stream s)
include h

theorem Inv.delivered_fresh {id : Nat} (hid : s.next ≤ id) : delivered s.events id = [] :=
  delivered_eq_nil fun e he hc => by
    have := h.events_lt e he
    omega

theorem Inv.quiet (hq : Quiet s s') : Inv strict k isn stream s' := by
  have hle := hq.next_le
  obtain ⟨new, heq, hnew⟩ := hq.events
  have hfresh : ∀ id, s.next ≤ id → delivered s'.events id = [] := fun id hid =>
    (hq.delivered id).trans (h.delivered_fresh hid)
  refine ⟨fun id hid hk => ?_, fun hs id hid hk hph => ?_, fun hs n e hn hst hk => ?_,
    fun e he => ?_, fun id hid => ?_⟩
  · by_cases hlt : id < s.next
    · have hc := h.conn id hlt ((hq.key id hlt).symm.trans hk)
      rw [hq.delivered id]
      exact ⟨fun hp => hc.waiting (hq.phase id hlt ▸ hp),
        fun hp => (hq.peerSeq id hlt).trans (hc.answered (hq.phase id hlt ▸ hp)),
        fun hp hp' => (hq.peerSeq id hlt).trans
        (hc.synced (hq.phase id hlt ▸ hp) (hq.phase id hlt ▸ hp')), hc.isPrefix⟩
    · have hop := hq.fresh id (by omega) hid
      rw [hfresh id (by omega)]
      refine ⟨fun _ => rfl, fun hp => ?_, fun hp => absurd hop hp, nil_prefix⟩
      rw [hop] at hp
      cases hp
  · by_cases hlt : id < s.next
    · rw [hq.delivered id]
      exact h.complete hs id hlt ((hq.key id hlt).symm.trans hk) (hq.phase id hlt ▸ hph)
    · rw [hq.fresh id (by omega) hid] at hph
      cases hph
  · rw [heq] at hn ⊢
    by_cases hlt : n < s.events.length
    · rw [getElem?_append_left hlt] at hn
      rw [take_append_of_le_length (by omega)]
      have hmem := h.events_lt e (mem_of_getElem? hn)
      exact h.closings hs n e hn hst ((hq.key e.conn hmem).symm.trans hk)
    · rw [getElem?_append_right (by omega)] at hn
      exact absurd hst (hnew e (mem_of_getElem? hn)).2.2
  · rw [heq] at he
    rcases mem_append.mp he with he | he
    · have := h.events_lt e he
      omega
    · exact (hnew e he).1
  · rcases hq.listed id hid with hid | hid
    · have := h.head_lt id hid
      omega
    · exact hid

/-- A connection changes, with at most one event. -/
theorem Inv.put (id : Nat)
    {f : Conn → Conn} (hkey : (f (s.heap id)).key = (s.heap id).key) (new : Option CbData)
    (hconn : ∀ cbd ∈ new, id < s.next ∧ cbd.conn = id) (hok : id < s.next → (s.heap id).key = k →
      ConnOk isn stream (f (s.heap id)) (delivered (s.events ++ new.toList) id) ∧
      (strict → (f (s.heap id)).status.phase = .remoteClosed →
      delivered (s.events ++ new.toList) id = stream) ∧
      (strict → new.map CbData.status = some .remoteClosing → delivered s.events id = stream)) :
    Inv strict k isn stream { s.modify id f with events := s.events ++ new.toList } := by
  have hother : ∀ j ≠ id, delivered (s.events ++ new.toList) j = delivered s.events j := by
    intro j hj
    have hnew : delivered new.toList j = [] := delivered_eq_nil fun e he hc =>
      absurd (hc.symm.trans (hconn e (mem_toList.mp he)).2) hj
    rw [delivered_append, hnew, append_nil]
  have hkeys : ∀ j, (update s.heap id (f (s.heap id)) j).key = (s.heap j).key := by
    intro j
    by_cases hj : j = id
    · subst hj
      simpa using hkey
    · simp [hj]
  refine ⟨fun j hj hk => ?_, fun hs j hj hk hph => ?_, fun hs n e hn hst hk => ?_, fun e he => ?_,
    h.head_lt⟩
  · simp only [Stack.modify_heap, hkeys] at hk
    simp only [Stack.modify_heap]
    by_cases hji : j = id
    · subst hji
      rw [update_self]
      exact (hok hj hk).1
    · rw [update_of_ne hji, hother j hji]
      exact h.conn j hj hk
  · simp only [Stack.modify_heap, hkeys] at hk hph ⊢
    by_cases hji : j = id
    · subst hji
      rw [update_self] at hph
      exact (hok hj hk).2.1 hs hph
    · rw [update_of_ne hji] at hph
      rw [hother j hji]
      exact h.complete hs j hj hk hph
  · simp only [Stack.modify_heap, hkeys] at hk hn ⊢
    by_cases hlt : n < s.events.length
    · rw [getElem?_append_left hlt] at hn
      rw [take_append_of_le_length (by omega)]
      exact h.closings hs n e hn hst hk
    · rw [getElem?_append_right (by omega)] at hn
      have hmem := mem_toList.mp (mem_of_getElem? hn)
      obtain ⟨hid, rfl⟩ := hconn e hmem
      have hn0 := (List.getElem?_eq_some_iff.mp hn).1.trans_le length_toList_le
      rw [show n = s.events.length by omega, take_left]
      exact (hok hid hk).2.2 hs (by rw [hmem, map_some, hst])
  · rcases mem_append.mp he with he | he
    · exact h.events_lt e he
    · obtain ⟨hid, rfl⟩ := hconn e (mem_toList.mp he)
      exact hid

end

theorem Inv.runCallback (w : Ulong)
    (app : App) (h : Inv strict k isn stream { s with events := s.events ++ [cbd] }) :
    Inv strict k isn stream (callback w app s cbd) :=
  h.quiet (quiet_after_event w app s cbd)

variable {t : Clock} {app : App} {id : Nat}

/-- An opened connection keeps its addresses and stays open for data, and has passed `d`. -/
structure Opened (s s' : Stack) (id : Nat) (d : Bytes) : Prop where
  next_le : s.next ≤ s'.next
  key : (s'.heap id).key = (s.heap id).key
  phase : (s'.heap id).status.phase = .synced
  delivered : delivered s'.events id = d

section

variable (h : Inv strict k isn stream s)
include h

theorem Inv.deliver (w : Ulong) (app : App) (mem : Mem)
    (hid : id < s.next) (hph : (s.heap id).status.phase = .synced) (hcbd : cbd.conn = id)
    (hext : (s.heap id).key = k → Tcp.delivered s.events id ++ slice mem data size <+: stream) :
    Inv strict k isn stream (deliver w app mem data size cbd s id).2 ∧
      Opened s (deliver w app mem data size cbd s id).2 id (Tcp.delivered s.events id ++
        slice mem data size) ∧ (deliver w app mem data size cbd s id).1.conn = id := by
  unfold Tcp.deliver
  split
  · have hnew : Tcp.delivered [{ cbd with
        status := .dataRcvd, data := data, datalen := size, bytes := slice mem data size }] id =
        slice mem data size := by
      simp [Tcp.delivered, hcbd]
    have hput := h.put id (f := fun c => { c with
        peerSeq := u32 (c.peerSeq + size), ackFlag := c.ackFlag + 1 }) rfl
      (some { cbd with
        status := .dataRcvd, data := data, datalen := size, bytes := slice mem data size })
      (by simp [hid, hcbd]) (fun _ hk => by
        have hc := h.conn id hid hk
        have hseq := hc.synced (by simp [hph]) (by simp [hph])
        rw [toList_some, delivered_append, hnew]
        refine ⟨⟨fun hp => ?_, fun hp => ?_, fun _ _ => ?_, hext hk⟩, fun _ hp => ?_,
          fun _ hst => ?_⟩
        · rcases hp with hp | hp <;> simp [hph] at hp
        · simp [hph] at hp
        · simp only [hseq, length_append, slice_length]
          unfold u32
          omega
        · simp [hph] at hp
        · simp at hst)
    have hq := quiet_after_event w app (s.modify id fun c => { c with
        peerSeq := u32 (c.peerSeq + size), ackFlag := c.ackFlag + 1 }) { cbd with
        status := .dataRcvd, data := data, datalen := size, bytes := slice mem data size }
    refine ⟨hput.quiet hq, ⟨hq.next_le, ?_, ?_, ?_⟩, hcbd⟩
    · rw [hq.key id hid]
      simp [Conn.key]
    · rw [hq.phase id hid]
      simpa using hph
    · rw [hq.delivered, Stack.modify_events, delivered_append, hnew]
  · next hsize =>
    obtain rfl : size = 0 := by simpa using hsize
    exact ⟨h, ⟨le_rfl, rfl, hph, by simp [slice]⟩, hcbd⟩

theorem Inv.closeRemote (hid : id < s.next) (hph : (s.heap id).status.phase = .synced)
    (hcbd : cbd.conn = id)
    (hall : strict → (s.heap id).key = k → Tcp.delivered s.events id = stream) :
    Inv strict k isn stream (closeRemote w app cbd s id) := by
  have hnew : Tcp.delivered [{ cbd with status := .remoteClosing }] id = [] :=
    delivered_eq_nil (by simp)
  refine .runCallback w app ?_
  refine h.put _ rfl (some _) (by simp [hid, hcbd]) (fun _ hk => ?_)
  have hc := h.conn id hid hk
  rw [toList_some, delivered_append, hnew, append_nil]
  refine ⟨⟨fun hp => ?_, fun hp => ?_, fun _ _ => ?_, hc.isPrefix⟩, fun hs _ => hall hs hk,
    fun hs _ => hall hs hk⟩
  · rcases hp with hp | hp <;> simp [Status.phase] at hp
  · simp [Status.phase] at hp
  · exact hc.synced (by simp [hph]) (by simp [hph])

theorem Inv.established (hlen : stream.length < 2 ^ 31) (hid : id < s.next)
    (hph : (s.heap id).status.phase = .synced) (hcbd : cbd.conn = id) (hseq : seg.seq < 2 ^ 32)
    (hseg : (s.heap id).key = k → SliceOf isn stream mem seg ∧ (strict → EndsStream isn stream seg ∧
        (has seg.flags fin → seqSub w seg.seq (s.heap id).peerSeq ≤ 0))) :
    Inv strict k isn stream (established w t app mem seg cbd s id) := by
  obtain ⟨data, size, behind, s3, htrim, h3, heq⟩ := established_cases w t app mem seg hid hcbd
  rcases heq with heq | heq
  · rw [heq]
    exact h.quiet h3
  rw [heq]
  have hinv3 := h.quiet h3
  have hid3 := hid.trans_le h3.next_le
  have hph3 := (h3.phase id hid).trans hph
  -- what is left of the segment continues what has been passed so far
  have hleft : (s3.heap id).key = k → Tcp.delivered s3.events id ++ slice mem data size <+: stream ∧
      (strict → has seg.flags fin →
        Tcp.delivered s3.events id ++ slice mem data size = stream) := by
    intro hk
    rw [h3.key id hid] at hk
    obtain ⟨hslice, hstrict⟩ := hseg hk
    have hc := h.conn id hid hk
    have hpos := hc.synced (by simp [hph]) (by simp [hph])
    obtain ⟨data', size', behind', heq, hpre, hend⟩ := hslice.trim (w := w) hseq hlen hc.isPrefix
    rw [← hpos, htrim] at heq
    obtain ⟨rfl, rfl, rfl⟩ : data = data' ∧ size = size' ∧ behind = behind' := by simpa using heq
    rw [h3.delivered id]
    refine ⟨hpre, fun hs hfin => hend (hstrict hs).1 hfin ?_⟩
    rw [← hpos]
    exact (hstrict hs).2 hfin
  obtain ⟨hinv4, hopen, hcbd4⟩ := hinv3.deliver w app mem hid3 hph3 hcbd (fun hk => (hleft hk).1)
  split
  · next hfin =>
    refine hinv4.closeRemote (hid3.trans_le hopen.next_le) hopen.phase hcbd4 (fun hs hk => ?_)
    rw [hopen.delivered]
    exact (hleft (hopen.key ▸ hk)).2 hs hfin
  · exact hinv4

theorem Inv.establish (w : Ulong) (t : Clock) (app : App) (hid : id < s.next) (hcbd : cbd.conn = id)
    (hseq : (s.heap id).key = k → (s.heap id).peerSeq = isn ∧ Tcp.delivered s.events id = []) :
    Inv strict k isn stream (establish w t app cbd s id) ∧
      Opened s (establish w t app cbd s id) id (Tcp.delivered s.events id) := by
  have hnew : Tcp.delivered [{ cbd with status := .newConn }] id = [] :=
    delivered_eq_nil (by simp)
  have hput := h.put id (f := fun c => { (firstRto w (t 1) c).advance with
      status := .established }) rfl (some { cbd with status := .newConn }) (by simp [hid, hcbd])
    (fun _ hk => by
      obtain ⟨hpeer, hnil⟩ := hseq hk
      rw [toList_some, delivered_append, hnew, hnil, append_nil]
      refine ⟨⟨fun _ => rfl, fun hp => ?_, fun _ _ => ?_, nil_prefix⟩, fun _ hp => ?_,
        fun _ hst => ?_⟩
      · simp [Status.phase] at hp
      · simp [Conn.advance, firstRto, hpeer]
      · simp [Status.phase] at hp
      · simp at hst)
  have hq := quiet_establish w t app cbd s id
  refine ⟨hput.quiet hq, hq.next_le, ?_, ?_, ?_⟩
  · rw [hq.key id hid]
    simp [Conn.key, Conn.advance, firstRto]
  · rw [hq.phase id hid]
    simp [Status.phase]
  · rw [hq.delivered, delivered_append, hnew, append_nil]

theorem Inv.handshake (hlen : stream.length < 2 ^ 31)
    (hid : id < s.next) (hcbd : cbd.conn = id) (hsegseq : seg.seq < 2 ^ 32)
    (hseq : (s.heap id).key = k → (s.heap id).peerSeq = isn ∧ Tcp.delivered s.events id = [])
    (hseg : (s.heap id).key = k →
      SliceOf isn stream mem seg ∧ (strict → seg.dataSize ≠ 0 → EndsStream isn stream seg ∧
        (has seg.flags fin → seqSub w seg.seq (u32 (isn + 1)) ≤ 0))) :
    Inv strict k isn stream (if seg.dataSize = 0 then Tcp.establish w t app cbd s id
      else Tcp.established w t app mem seg cbd (Tcp.establish w t app cbd s id) id) := by
  obtain ⟨hinv, hopen⟩ := h.establish w t app hid hcbd hseq
  split
  · exact hinv
  next hsize =>
  have hid' := hid.trans_le hopen.next_le
  refine hinv.established hlen hid' hopen.phase hcbd hsegseq (fun hk => ?_)
  have hk' := hopen.key.symm.trans hk
  refine ⟨(hseg hk').1, fun hs => ⟨((hseg hk').2 hs hsize).1, fun hfin => ?_⟩⟩
  have hpos := (hinv.conn id hid' hk).synced (by simp [hopen.phase]) (by simp [hopen.phase])
  rw [hopen.delivered, (hseq hk').2] at hpos
  rw [hpos]
  exact ((hseg hk').2 hs hsize).2 hfin

theorem Inv.create {c : Conn} (hph : c.status.phase = .answered)
    (hseq : c.key = k → c.peerSeq = isn) : Inv strict k isn stream { s with
      heap := update s.heap s.next c, connHead := s.connHead ++ [s.next],
      next := s.next + 1 } := by
  have hold : ∀ j < s.next, update s.heap s.next c j = s.heap j :=
    fun j hj => update_of_ne (by omega) c s.heap
  refine ⟨fun j hj hk => ?_, fun hs j hj hk hp => ?_, fun hs n e hn hst hk => ?_, fun e he => ?_,
    fun j hj => ?_⟩
  · simp only at hj hk ⊢
    by_cases hlt : j < s.next
    · rw [hold j hlt] at hk ⊢
      exact h.conn j hlt hk
    · obtain rfl : j = s.next := by omega
      rw [update_self] at hk ⊢
      rw [h.delivered_fresh le_rfl]
      exact ⟨fun _ => rfl, fun _ => hseq hk, fun _ hp => absurd hph hp, nil_prefix⟩
  · simp only at hj hk hp ⊢
    by_cases hlt : j < s.next
    · rw [hold j hlt] at hk hp
      exact h.complete hs j hlt hk hp
    · obtain rfl : j = s.next := by omega
      rw [update_self, hph] at hp
      cases hp
  · simp only at hn hk ⊢
    rw [hold e.conn (h.events_lt e (mem_of_getElem? hn))] at hk
    exact h.closings hs n e hn hst hk
  · exact (h.events_lt e he).trans (Nat.lt_succ_self _)
  · rcases mem_append.mp hj with hj | hj
    · exact (h.head_lt j hj).trans (Nat.lt_succ_self _)
    · obtain rfl : j = s.next := by simpa using hj
      exact Nat.lt_succ_self _

theorem Inv.connCreate (hseq : seg.key = k → seg.seq = isn)
    (hs' : connCreate t malloc mem seg s = some s') : Inv strict k isn stream s' := by
  have hnew := h.create (c := { Conn.zero with
    status := .synRcvd, ipRemote := seg.ipSrc, portRemote := seg.src, portLocal := seg.dst,
    peerSeq := seg.seq, localSeq := initialSeq (t 0), peerWnd := seg.wnd, mss := 1460 }) rfl hseq
  unfold Tcp.connCreate at hs'
  simp only at hs'
  split at hs'
  · split at hs'
    · cases hs'
    · cases hs'
      exact hnew.quiet ((((refl _).modify _ (by rfl)).send ..).modify _ (by rfl))
  · cases hs'
    exact hnew.quiet ((refl _).send ..)

theorem Inv.modifyOpening (hph : (s.heap id).status.phase = .opening)
    (hkey : (f (s.heap id)).key = (s.heap id).key)
    (hph' : (f (s.heap id)).status.phase = .opening) : Inv strict k isn stream (s.modify id f) := by
  have hput := h.put id hkey none (by simp) (fun hid hk => by
    simp only [toList_none, append_nil, (h.conn id hid hk).waiting (.inl hph), hph']
    refine ⟨⟨fun _ => rfl, fun hp => ?_, fun hp => absurd hph' hp, nil_prefix⟩, by simp, by simp⟩
    simp [hph'] at hp)
  rwa [toList_none, append_nil] at hput

theorem Inv.connFill (hph : (s.heap id).status.phase = .opening)
    (hs' : connFill t mem seg s id = some s') : Inv strict k isn stream s' ∧ s'.next = s.next ∧
    s'.events = s.events ∧ (s'.heap id).key = (s.heap id).key ∧ (s'.heap id).peerSeq = seg.seq := by
  unfold Tcp.connFill at hs'
  simp only at hs'
  split at hs'
  · cases hs'
  · cases hs'
    have hfilled :=
      h.modifyOpening (f := fun c => { c with peerSeq := seg.seq, peerWnd := seg.wnd }) hph rfl hph
    refine ⟨hfilled.quiet (((Quiet.refl _).modify _ (by rfl)).modify _ (by rfl)), rfl, rfl, ?_, ?_⟩
    · simp [Conn.key, stampOpen]
    · simp [stampOpen]

end

/-- A segment with FIN for an open connection, or one with data for a connection that waits for the
end of the handshake, does not begin above the byte that is expected next. -/
def InOrder (w : Ulong) (s : Stack) (seg : Segment) : Prop :=
  has seg.flags fin = true → ∀ id, connFind s seg.ipSrc seg.src seg.dst = some id →
    ((s.heap id).status = .established → seqSub w seg.seq (s.heap id).peerSeq ≤ 0) ∧
    ((s.heap id).status = .synRcvd → seg.dataSize ≠ 0 →
    seqSub w seg.seq (u32 ((s.heap id).peerSeq + 1)) ≤ 0)

theorem connFind_spec {ip rport lport : Nat} (h : connFind s ip rport lport = some id) :
    id ∈ s.connHead ∧ (s.heap id).key = ⟨ip, rport, lport⟩ := by
  have hp := find?_some h
  simp only [decide_eq_true_eq] at hp
  exact ⟨mem_of_find?_eq_some h, by simp [Conn.key, hp]⟩

variable (h : Inv strict k isn stream s)
include h

theorem Inv.statusReceive (hlen : stream.length < 2 ^ 31)
    (hid : id < s.next) (hcbd : cbd.conn = id) (hsegseq : seg.seq < 2 ^ 32)
    (hseg : (s.heap id).key = k → SliceOf isn stream mem seg ∧ (strict →
      EndsStream isn stream seg ∧ (has seg.flags fin →
        ((s.heap id).status = .established → seqSub w seg.seq (s.heap id).peerSeq ≤ 0) ∧
        ((s.heap id).status = .synRcvd →
      seg.dataSize ≠ 0 → seqSub w seg.seq (u32 ((s.heap id).peerSeq + 1)) ≤ 0))))
    (hs' : statusReceive w t app mem seg cbd s id = some s') : Inv strict k isn stream s' := by
  cases statusReceive_receives hid hcbd hs' with
  | quiet hq => exact h.quiet hq
  | handshake hopens =>
    rcases hopens with ⟨hst, hsyn, hfill⟩ | ⟨hst, rfl⟩
    · -- the block is filled from the SYN and then opened
      have hph : (s.heap id).status.phase = .opening := by rw [hst]; rfl
      obtain ⟨hinv, hnext, hevents, hkey, hpeer⟩ := h.connFill hph hfill
      refine hinv.handshake hlen (hnext ▸ hid) hcbd hsegseq (fun hk => ?_) (fun hk => ?_)
      · have hk' := hkey.symm.trans hk
        rw [hpeer, hevents]
        exact ⟨((hseg hk').1.opens hsyn).1, (h.conn id hid hk').waiting (.inl hph)⟩
      · have hslice := (hseg (hkey.symm.trans hk)).1
        exact ⟨hslice, fun _ hsize => absurd (hslice.opens hsyn).2 hsize⟩
    · refine h.handshake hlen hid hcbd hsegseq (fun hk => ?_)
        (fun hk => ⟨(hseg hk).1, fun hs hsize =>
        ⟨((hseg hk).2 hs).1, fun hfin => ?_⟩⟩)
      · have hc := h.conn id hid hk
        exact ⟨hc.answered (by rw [hst]; rfl), hc.waiting (.inr (by rw [hst]; rfl))⟩
      · have hpos := (h.conn id hid hk).answered (by rw [hst]; rfl)
        rw [← hpos]
        exact (((hseg hk).2 hs).2 hfin).2 hst hsize
  | data hst =>
    exact h.established hlen hid (by rw [hst]; rfl) hcbd hsegseq (fun hk => ⟨(hseg hk).1,
      fun hs => ⟨((hseg hk).2 hs).1, fun hfin => (((hseg hk).2 hs).2 hfin).1 hst⟩⟩)

theorem Inv.connReceive (hlen : stream.length < 2 ^ 31) (hsegseq : seg.seq < 2 ^ 32)
    (hfind : connFind s seg.ipSrc seg.src seg.dst = some id) (hseg : seg.key = k →
      SliceOf isn stream mem seg ∧ (strict → EndsStream isn stream seg ∧ InOrder w s seg))
    (hs' : connReceive w t app mem seg s id = some s') : Inv strict k isn stream s' := by
  obtain ⟨hmem, hkey⟩ := connFind_spec hfind
  have hid := h.head_lt id hmem
  unfold Tcp.connReceive at hs'
  split at hs'
  · cases hs'
    split
    · refine h.quiet (del ?_ id)
      exact (refl s).callback w app hid (by simp)
    · exact h.quiet ((refl s).del id)
  · split at hs'
    · cases hs'
      exact h
    · refine h.statusReceive hlen hid rfl hsegseq (fun hk => ?_) hs'
      have hk' : seg.key = k := hkey.symm.trans hk
      exact ⟨(hseg hk').1,
        fun hs => ⟨((hseg hk').2 hs).1, fun hfin => ((hseg hk').2 hs).2 hfin id hfind⟩⟩

omit h in
theorem has_syn_of_mask {flags : Nat} (h : flags &&& flagMask = syn) : has flags syn := by
  have hand : flags &&& syn = (flags &&& flagMask) &&& syn := by
    rw [Nat.and_assoc]
    rfl
  rw [has, hand, h]
  decide

theorem Inv.receiveSegment (hlen : stream.length < 2 ^ 31) {malloc : Bool}
    {r : Bool} {parsed : Option Segment} (hlt : ∀ seg, parsed = some seg → seg.seq < 2 ^ 32)
    (hseg : ∀ seg, parsed = some seg → seg.key = k → SliceOf isn stream mem seg ∧
      (strict → EndsStream isn stream seg ∧ InOrder w s seg))
    (hs' : receiveSegment w t app malloc mem s parsed = some (r, s')) :
    Inv strict k isn stream s' := by
  cases parsed with
  | none =>
    simp only [Tcp.receiveSegment, Option.some.injEq, Prod.mk.injEq] at hs'
    exact hs'.2 ▸ h
  | some seg =>
    simp only [Tcp.receiveSegment] at hs'
    cases hfind : connFind s seg.ipSrc seg.src seg.dst with
    | some id =>
      simp only [hfind, map_eq_some_iff, Prod.mk.injEq] at hs'
      obtain ⟨s1, hs1, -, rfl⟩ := hs'
      exact h.connReceive hlen (hlt seg rfl) hfind (hseg seg rfl) hs1
    | none =>
      simp only [hfind] at hs'
      split at hs'
      · next hsyn =>
        split at hs'
        · simp only [some.injEq, Prod.mk.injEq] at hs'
          exact hs'.2 ▸ h
        · simp only [map_eq_some_iff, Prod.mk.injEq] at hs'
          obtain ⟨s1, hs1, -, rfl⟩ := hs'
          exact h.connCreate (fun hk => ((hseg seg rfl hk).1.opens (has_syn_of_mask hsyn.1)).1) hs1
      · simp only [some.injEq, Prod.mk.injEq] at hs'
        exact hs'.2 ▸ h

end Inv

end MtkBoot.Tcp
