import MtkBoot.Tcp.Stack

/-! `mtk_receive_tcp`: the source's one large switch is cut into its branches.  Each reading of the
timer during a call is an argument of its own. -/

namespace MtkBoot.Tcp

/-- The readings of the timer during one call, by number. -/
abbrev Clock := Nat → Nat

def getTimer (w : Ulong) (now base : Nat) : Nat := w.sub now base

def rttG : Nat := 200
def rttK : Nat := 4
def rttAlpha : Nat := 3
def rttBeta : Nat := 2

def rtoOf (srtt rttvar : Nat) : Nat := u32 (srtt + max rttG (u32 (rttK * rttvar)))

def rttCalc (w : Ulong) (now : Nat) (c : Conn) : Conn :=
  let rtt := u32 (getTimer w now c.tsRtt)
  let sub := if c.srtt < rtt then subU32 rtt c.srtt else subU32 c.srtt rtt
  let rttvar := u32 (c.rttvar - c.rttvar / 2 ^ rttAlpha + sub / 2 ^ rttAlpha)
  let srtt := u32 (c.srtt - c.srtt / 2 ^ rttBeta + rtt / 2 ^ rttBeta)
  { c with rttvar := rttvar, srtt := srtt, rto := rtoOf srtt rttvar }

def firstRto (w : Ulong) (now : Nat) (c : Conn) : Conn :=
  let srtt := u32 (getTimer w now c.tsRtt)
  { c with srtt := srtt, rttvar := srtt / 2, rto := rtoOf srtt (srtt / 2) }

def stampOpen (t : Clock) (c : Conn) : Conn :=
  { c with tsRtt := u32 (t 10), ts := u32 (t 11), tsRexmit := u32 (t 12), numRexmit := 0 }

/-- `mtk_tcp_conn_create`; `none` when the option loop does not end.  Without memory the block is
on the stack, and stays in the list. -/
def connCreate (t : Clock) (malloc : Bool) (mem : Mem) (seg : Segment) (s : Stack) : Option Stack :=
  let id := s.next
  let c := { Conn.zero with
    status := .synRcvd, ipRemote := seg.ipSrc, portRemote := seg.src, portLocal := seg.dst,
    peerSeq := seg.seq, localSeq := initialSeq (t 0), peerWnd := seg.wnd, mss := 1460 }
  let s := { s with
    heap := Function.update s.heap id c, connHead := s.connHead ++ [id], next := id + 1 }
  if malloc then
    match seg.options mem ⟨c.mss, c.peerWs⟩ with
    | none => none
    | some opts =>
      let s := s.modify id fun c => { c with mss := opts.mss, peerWs := opts.peerWs }
      let s :=
        sendPacketOpt s id (syn ||| ack) c.localSeq (u32 (c.peerSeq + 1)) (mssOpt opts.mss) 0 0
      some (s.modify id (stampOpen t))
  else some (sendPacket s id (rst ||| ack) 1 c.peerSeq 0 0)

/-- `mtk_tcp_conn_fill`; `none` when the option loop does not end. -/
def connFill (t : Clock) (mem : Mem) (seg : Segment) (s : Stack) (id : Nat) : Option Stack :=
  let s := s.modify id fun c => { c with peerSeq := seg.seq, peerWnd := seg.wnd }
  match seg.options mem ⟨(s.heap id).mss, (s.heap id).peerWs⟩ with
  | none => none
  | some opts =>
    let s := s.modify id fun c => { c with mss := opts.mss, peerWs := opts.peerWs }
    some (s.modify id (stampOpen t))

def Conn.advance (c : Conn) : Conn :=
  let localSeq := u32 (c.localSeq + 1)
  { c with
    peerSeq := u32 (c.peerSeq + 1), localSeq := localSeq, localSeqLast := localSeq,
    localSeqAcked := localSeq }

def establish (w : Ulong) (t : Clock) (app : App) (cbd : CbData) (s : Stack) (id : Nat) : Stack :=
  let s := s.modify id fun c => (firstRto w (t 1) c).advance
  let c := s.heap id
  let s := if c.status = .synSent then sendPacket s id ack c.localSeq c.peerSeq 0 0 else s
  let s := s.modify id fun c => { c with status := .established }
  callback w app s { cbd with status := .newConn }

def Conn.updateWindow (c : Conn) (wnd : Nat) : Conn :=
  let tmp := u32 (wnd * 2 ^ c.peerWs)
  { c with zwMode := c.zwMode && !decide (c.mss < tmp ∧ c.peerWnd < tmp), peerWnd := tmp }

/-- The payload that is left of a segment: its offset, its size and whether an acknowledgement has
to say what is expected. -/
def trimPayload (w : Ulong) (peerSeq seq data dataSize : Nat) : Nat × Nat × Bool :=
  if seqSub w seq peerSeq < 0 then
    if seqSub w (u32 (seq + dataSize)) peerSeq > 0 then
      -- the part that has not been acknowledged
      let tmp := subU32 (seq + dataSize) peerSeq
      (data + subU32 dataSize tmp, tmp, false)
    else (data, 0, true)
  else if seqSub w seq peerSeq > 0 then (data, 0, true)
  else (data, dataSize, false)

/-- The acknowledgement of a segment; `false` when the source leaves the switch. -/
def processAck (w : Ulong) (t : Clock) (app : App) (cbd : CbData) (ack : Nat) (s : Stack)
    (id : Nat) : Bool × Stack :=
  let c := s.heap id
  if seqSub w ack c.localSeqAcked > 0 then
    let s := s.modify id fun c => { c with
      rexmitMode := false, rexmitWaitAck := false, localSeqAcked := ack }
    let s := if seqSub w ack c.ackCalcRtt ≥ 0 ∧ c.ackCalcRtt ≠ 0 then
        s.modify id fun c => rttCalc w (t 2) { c with ackCalcRtt := 0 }
      else s
    if toU32 (seqSub w ack c.localSeqLast) = c.txlen then
      let s := s.modify id fun c => { c with tx := 0, txlen := 0 }
      (true, callback w app s { cbd with status := .dataSent })
    else (true, s)
  else if seqSub w ack c.localSeqLast < 0 then (false, s)
  else if c.localSeq = c.localSeqAcked then (true, s)
  else (true, s.modify id fun c => { c with localSeqAcked := ack, rexmitMode := true })

def deliver (w : Ulong) (app : App) (mem : Mem) (data dataSize : Nat) (cbd : CbData) (s : Stack)
    (id : Nat) : CbData × Stack :=
  if dataSize ≠ 0 then
    let s := s.modify id fun c => { c with
      peerSeq := u32 (c.peerSeq + dataSize), ackFlag := c.ackFlag + 1 }
    let cbd := { cbd with
      status := .dataRcvd, data := data, datalen := dataSize, bytes := slice mem data dataSize }
    (cbd, callback w app s cbd)
  else (cbd, s)

def closeRemote (w : Ulong) (app : App) (cbd : CbData) (s : Stack) (id : Nat) : Stack :=
  let s := s.modify id fun c => { c with status := .closeWait }
  callback w app s { cbd with status := .remoteClosing }

def established (w : Ulong) (t : Clock) (app : App) (mem : Mem) (seg : Segment) (cbd : CbData)
    (s : Stack) (id : Nat) : Stack :=
  let s := s.modify id fun c => c.updateWindow seg.wnd
  match trimPayload w (s.heap id).peerSeq seg.seq seg.data seg.dataSize with
  | (data, dataSize, behind) =>
    let s := if behind then s.modify id fun c => { c with ackFlag := c.ackFlag + 1 } else s
    match processAck w t app cbd seg.ack s id with
    | (false, s) => s
    | (true, s) =>
      match deliver w app mem data dataSize cbd s id with
      | (cbd, s) => if has seg.flags fin then closeRemote w app cbd s id else s

def finWait1 (w : Ulong) (seg : Segment) (s : Stack) (id : Nat) : Stack :=
  let c := s.heap id
  if has seg.flags ack ∧ seqSub w seg.ack (u32 (c.localSeq + 1)) ≠ 0 then s
  else if seg.flags &&& (ack ||| fin) = ack ||| fin then
    s.modify id fun c => { c with status := .timeWait, localSeq := u32 (c.localSeq + 1) }
  else if has seg.flags ack then
    s.modify id fun c => { c with status := .finWait2, localSeq := u32 (c.localSeq + 1) }
  else if has seg.flags fin then s.modify id fun c => { c with status := .closing }
  else s

/-- The switch of `mtk_receive_tcp` for the connection `id`. -/
def statusReceive (w : Ulong) (t : Clock) (app : App) (mem : Mem) (seg : Segment) (cbd : CbData)
    (s : Stack) (id : Nat) : Option Stack :=
  match (s.heap id).status with
  | .synSent =>
    if has seg.flags syn then
      match connFill t mem seg s id with
      | none => none
      | some s =>
        let s := establish w t app cbd s id
        some (if seg.dataSize = 0 then s else established w t app mem seg cbd s id)
    else
      let s := sendPacket s id rst (s.heap id).localSeq (s.heap id).peerSeq 0 0
      some (connDel (callback w app s { cbd with status := .closed }) id)
  | .synRcvd =>
    let s := establish w t app cbd s id
    some (if seg.dataSize = 0 then s else established w t app mem seg cbd s id)
  | .established => some (established w t app mem seg cbd s id)
  | .lastAck =>
    if seqSub w seg.ack (u32 ((s.heap id).localSeq + 1)) ≠ 0 then some s
    else
      let s := s.modify id fun c => { c with status := .closeWait }
      some (connDel (callback w app s { cbd with status := .remoteClosed }) id)
  | .finWait1 => some (finWait1 w seg s id)
  | .finWait2 =>
    some (if has seg.flags fin then s.modify id fun c => { c with status := .timeWait } else s)
  | .closing =>
    if seqSub w seg.ack (u32 ((s.heap id).localSeq + 1)) ≠ 0 then some s
    else some (s.modify id fun c => { c with
      status := .timeWait, localSeq := u32 (c.localSeq + 1) })
  | _ => some s

def cbData (s : Stack) (id : Nat) (seg : Segment) : CbData :=
  ⟨id, .none, false, (s.heap id).ipRemote, seg.src, seg.dst, (s.heap id).pdata, 0, 0, []⟩

def connReceive (w : Ulong) (t : Clock) (app : App) (mem : Mem) (seg : Segment) (s : Stack)
    (id : Nat) : Option Stack :=
  let cbd := cbData s id seg
  if has seg.flags rst then
    let s := if (s.heap id).status ≠ .synRcvd then
        callback w app s { cbd with status := .remoteClosed }
      else s
    some (connDel s id)
  else if !has seg.flags ack && decide ((s.heap id).status ≠ .finWait1 ∧
    (s.heap id).status ≠ .finWait2) then some s
  else statusReceive w t app mem seg cbd s id

/-- `mtk_receive_tcp` after the packet has been read: a new connection for a SYN to a port that the
application listens on, or the connection that the segment belongs to. -/
def receiveSegment (w : Ulong) (t : Clock) (app : App) (malloc : Bool) (mem : Mem) (s : Stack) :
    Option Segment → Option (Bool × Stack)
  | none => some (false, s)
  | some seg =>
    match connFind s seg.ipSrc seg.src seg.dst with
    | some id => (connReceive w t app mem seg s id).map (true, ·)
    | none =>
      if seg.flags &&& flagMask = syn ∧ seg.dst ∈ s.listenHead then
        if s.stop then some (false, s) else (connCreate t malloc mem seg s).map (true, ·)
      else some (false, s)

/-- `mtk_receive_tcp`: the result and the stack, or `none` when the option loop does not end. -/
def receiveTcp (w : Ulong) (t : Clock) (app : App) (malloc : Bool) (mem : Mem) (len : Nat)
    (s : Stack) : Option (Bool × Stack) :=
  receiveSegment w t app malloc mem s (parse mem len)

end MtkBoot.Tcp
