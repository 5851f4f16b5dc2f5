import MtkBoot.Tcp.Packet

/-! The state of the TCP stack (`net/mtk_tcp.c`) and the calls of an application.  A freed
connection block keeps its contents, and no block is handed out twice. -/

namespace MtkBoot.Tcp

inductive Status
  | invalid
  | listen
  | connect
  | synSent
  | synRcvd
  | established
  | finWait1
  | finWait2
  | closeWait
  | closing
  | lastAck
  | timeWait
  | closed
  deriving DecidableEq, Repr

/-- `struct mtk_tcp_conn` without its callback and its Ethernet address.  `tx` is the address of the
chunk to send, 0 when there is none. -/
structure Conn where
  status : Status
  ipRemote : Nat
  portRemote : Nat
  portLocal : Nat
  peerSeq : Nat
  localSeq : Nat
  localSeqLast : Nat
  localSeqAcked : Nat
  ts : Nat
  tsRexmit : Nat
  numRexmit : Nat
  mss : Nat
  tx : Nat
  txlen : Nat
  closeFlag : Bool
  ackFlag : Nat
  rexmitMode : Bool
  rexmitWaitAck : Bool
  zwMode : Bool
  peerWnd : Nat
  peerWs : Nat
  srtt : Nat
  rttvar : Nat
  rto : Nat
  tsRtt : Nat
  ackCalcRtt : Nat
  pdata : Nat
  deriving DecidableEq, Repr

def Conn.zero : Conn :=
  ⟨.invalid, 0, 0, 0, 0, 0, 0, 0, 0, 0, 0, 0, 0, 0, false, 0, false, false, false, 0, 0, 0, 0, 0, 0,
    0, 0⟩

inductive CbStatus
  | none
  | newConn
  | dataRcvd
  | dataSent
  | remoteClosing
  | remoteClosed
  | closing
  | closed
  deriving DecidableEq, Repr

/-- `struct mtk_tcp_cb_data`.  `data` is the offset of the buffer in the received packet, and
`bytes` what the buffer holds when the callback runs. -/
structure CbData where
  conn : Nat
  status : CbStatus
  timedout : Bool
  sip : Nat
  sp : Nat
  dp : Nat
  pdata : Nat
  data : Nat
  datalen : Nat
  bytes : Bytes
  deriving DecidableEq, Repr

/-- A packet handed to `mtk_tcp_send_packet_opt`; `payload` is the address of the data. -/
structure Sent where
  conn : Nat
  flags : Nat
  seq : Nat
  ack : Nat
  wnd : Nat
  opt : Bytes
  payload : Nat
  payloadLen : Nat
  deriving DecidableEq, Repr

/-- The connection blocks, `conn_head`, `listen_head`, `mtk_tcp_stop`, `mtk_tcp_port_seq`, the next
block of `malloc`, and what has happened so far. -/
structure Stack where
  heap : Nat → Conn
  connHead : List Nat
  listenHead : List Nat
  stop : Bool
  portSeq : Nat
  next : Nat
  events : List CbData
  sent : List Sent

def Stack.init : Stack := ⟨fun _ => Conn.zero, [], [], false, 50000, 0, [], []⟩

def Stack.modify (s : Stack) (id : Nat) (f : Conn → Conn) : Stack :=
  { s with heap := Function.update s.heap id (f (s.heap id)) }

@[simp] theorem Stack.modify_heap (s : Stack) (id : Nat) (f : Conn → Conn) :
    (s.modify id f).heap = Function.update s.heap id (f (s.heap id)) := rfl

@[simp] theorem Stack.modify_next (s : Stack) (id : Nat) (f : Conn → Conn) :
    (s.modify id f).next = s.next :=
  rfl

@[simp] theorem Stack.modify_events (s : Stack) (id : Nat) (f : Conn → Conn) :
    (s.modify id f).events = s.events :=
  rfl

def connFind (s : Stack) (remoteip remoteport localport : Nat) : Option Nat :=
  s.connHead.find? fun id => decide ((s.heap id).ipRemote = remoteip ∧
    (s.heap id).portRemote = remoteport ∧ (s.heap id).portLocal = localport)

def connDel (s : Stack) (id : Nat) : Stack := { s with connHead := s.connHead.erase id }

/-- `mtk_tcp_send_packet_opt`, up to the packet that it builds. -/
def sendPacketOpt (s : Stack) (id flags seq ack : Nat) (opt : Bytes) (payload payloadLen : Nat) :
    Stack :=
  { s with sent := s.sent ++ [⟨id, flags &&& flagMask, seq, ack, (s.heap id).mss, opt, payload,
    payloadLen⟩] }

def sendPacket (s : Stack) (id flags seq ack payload payloadLen : Nat) : Stack :=
  sendPacketOpt s id flags seq ack [] payload payloadLen

def sendPacketCtrl (s : Stack) (id flags : Nat) : Stack :=
  sendPacketOpt s id flags (s.heap id).localSeq (u32 ((s.heap id).peerSeq + 1)) [] 0 0

def mssOpt (mss : Nat) : Bytes :=
  [2, 4, UInt8.ofNat (mss / 256 % 256), UInt8.ofNat (mss % 256), 3, 3, 0, 0]

def toU32 (i : Int) : Nat := (i % 2 ^ 32).toNat

def initialSeq (now : Nat) : Nat := u32 (u64 (64000 * now) / 500)

/-! ### Calls of the application -/

def listen (s : Stack) (port : Nat) (malloc : Bool) : Int × Stack :=
  if port = 0 then (-einval, s)
  else if port ∈ s.listenHead then (-eaddrinuse, s)
  else if malloc then (0, { s with listenHead := s.listenHead ++ [port] })
  else (-enomem, s)

def listenStop (s : Stack) (port : Nat) : Int × Stack :=
  if port ∈ s.listenHead then (0, { s with listenHead := s.listenHead.erase port }) else (-1, s)

/-- `mtk_tcp_connect`; `jitter` is what the random numbers add to the first local port. -/
def connect (s : Stack) (destip port pdata now jitter : Nat) (malloc : Bool) : Int × Stack :=
  if destip = 0 ∨ port = 0 then (-einval, s)
  else if malloc then
    let base := if 65535 ≤ s.portSeq then 50000 else s.portSeq
    let base := if base = 50000 then u16 (base + jitter % 10000) else base
    let c := { Conn.zero with
      status := .connect, ipRemote := destip, portRemote := port, portLocal := base,
      localSeq := initialSeq now, mss := 1460, pdata := pdata }
    (0, { s with
      heap := Function.update s.heap s.next c, connHead := s.connHead ++ [s.next],
      next := s.next + 1, portSeq := u16 (base + 1) })
  else (-enomem, s)

def sendData (w : Ulong) (s : Stack) (id data size : Nat) : Int × Stack :=
  if data = 0 ∨ size = 0 then (-einval, s)
  else
    let c := s.heap id
    if c.closeFlag then (1, s)
    else
      let datalenAcked := toU32 (seqSub w c.localSeqAcked c.localSeqLast)
      if c.tx ≠ 0 ∧ datalenAcked < c.txlen then (1, s)
      else
        (0, s.modify id fun c => { c with
          tx := data, txlen := size, localSeqLast := c.localSeq, localSeqAcked := c.localSeq })

def closeConn (s : Stack) (id : Nat) (reset : Bool) : Int × Stack :=
  if reset then
    let c := s.heap id
    (0, connDel (sendPacket s id (rst ||| ack) c.localSeq c.peerSeq 0 0) id)
  else (0, s.modify id fun c => { c with closeFlag := true })

/-- `mtk_tcp_close_all_conn` and `mtk_tcp_reset_all_conn`. -/
def closeAllConn (s : Stack) (reset : Bool) : Stack :=
  { s.connHead.foldl (fun s id => (closeConn s id reset).2) s with stop := true }

inductive Call
  | start
  | listen (port : Nat) (malloc : Bool)
  | listenStop (port : Nat)
  | connect (destip port pdata now jitter : Nat) (malloc : Bool)
  | setPdata (conn pdata : Nat)
  | sendData (conn data size : Nat)
  | closeConn (conn : Nat) (reset : Bool)
  | closeAllConn (reset : Bool)
  deriving DecidableEq, Repr

def Call.run (w : Ulong) (s : Stack) : Call → Stack
  | .start => { s with stop := false }
  | .listen port malloc => (Tcp.listen s port malloc).2
  | .listenStop port => (Tcp.listenStop s port).2
  | .connect destip port pdata now jitter malloc =>
    (Tcp.connect s destip port pdata now jitter malloc).2
  | .setPdata conn pdata => s.modify conn fun c => { c with pdata := pdata }
  | .sendData conn data size => (Tcp.sendData w s conn data size).2
  | .closeConn conn reset => (Tcp.closeConn s conn reset).2
  | .closeAllConn reset => Tcp.closeAllConn s reset

/-- The application: the calls that its callback makes. -/
abbrev App := Stack → CbData → List Call

def callback (w : Ulong) (app : App) (s : Stack) (cbd : CbData) : Stack :=
  let s := { s with events := s.events ++ [cbd] }
  (app s cbd).foldl (Call.run w) s

end MtkBoot.Tcp
