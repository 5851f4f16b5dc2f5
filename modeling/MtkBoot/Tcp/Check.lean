import MtkBoot.Tcp.Receive

/-! `mtk_tcp_conn_check`: what the stack sends, retransmits and gives up when it looks at a
connection from time to time. -/

namespace MtkBoot.Tcp

def connectInitDelay : Nat := 500
def rexmitMaxSegDelay : Nat := 60000
def rexmitMaxConnDelay : Nat := 300000
def rttInterval : Nat := 3000

def rexmitInit (t : Clock) (c : Conn) : Conn :=
  { c with tsRexmit := u32 (t 20), ts := u32 (t 21), numRexmit := 0 }

def rexmitReset (t : Clock) (c : Conn) : Conn :=
  { c with ts := u32 (t 22), numRexmit := u32 (c.numRexmit + 1) }

/-- The results of `mtk_tcp_rexmit_check`: the connection is gone, or a retransmission is due, or
not. -/
inductive Rexmit
  | gone
  | due
  | wait
  deriving DecidableEq, Repr

def rexmitCallback (w : Ulong) (app : App) (cbd : CbData) (s : Stack) (id : Nat) : Stack :=
  match (s.heap id).status with
  | .established => callback w app s { cbd with status := .remoteClosed, timedout := true }
  | .finWait1 => callback w app s { cbd with status := .closed }
  | .closeWait => callback w app s { cbd with status := .closed }
  | _ => s

/-- `mtk_tcp_rexmit_check`.  `rto << num_rexmit` is computed in 32 bits, and a shift by the width
or more is one by its remainder. -/
def rexmitCheck (w : Ulong) (t : Clock) (app : App) (cbd : CbData) (s : Stack) (id : Nat) :
    Rexmit × Stack :=
  let c := s.heap id
  if rexmitMaxConnDelay < getTimer w (t 0) c.tsRexmit then
    let s := sendPacket s id (rst ||| ack) c.localSeq c.peerSeq 0 0
    (.gone, connDel (rexmitCallback w app cbd s id) id)
  else
    let timeout := min (u32 (c.rto * 2 ^ (c.numRexmit % 32))) rexmitMaxSegDelay
    (if timeAfter w (t 1) (w.trunc (timeout + c.ts)) then .due else .wait, s)

def connectRexmitCheck (w : Ulong) (t : Clock) (app : App) (cbd : CbData) (s : Stack) (id : Nat) :
    Rexmit × Stack :=
  let c := s.heap id
  if rexmitMaxConnDelay < getTimer w (t 0) c.tsRexmit then
    let s := sendPacket s id rst c.localSeq c.peerSeq 0 0
    (.gone, connDel (callback w app s { cbd with status := .remoteClosed, timedout := true }) id)
  else
    let timeout := u32 (c.ts + toU32 (toInt (connectInitDelay * 2 ^ (c.numRexmit % 32))))
    (if timeAfter w (t 1) timeout then .due else .wait, s)

/-- The packet that a check of an established connection is about to send. -/
structure Outgoing where
  data : Nat
  datalen : Nat
  sendseq : Nat
  flags : Nat
  deriving DecidableEq, Repr

/-- The first part of the branch for `ESTABLISHED`: new data, or waiting for an acknowledgement. -/
def checkSend (w : Ulong) (t : Clock) (app : App) (cbd : CbData) (sent acked : Nat) (s : Stack)
    (id : Nat) : Option Outgoing × Stack :=
  let c := s.heap id
  let out : Outgoing := ⟨0, 0, c.localSeq, ack⟩
  if c.rexmitMode then (some out, s)
  else if sent < c.txlen then
    let datalen := min (subU32 c.txlen sent) c.mss
    if c.peerWnd ≤ datalen then
      let s := if c.zwMode then s else s.modify id (rexmitInit t)
      (some { out with data := c.tx + sent }, s.modify id fun c => { c with zwMode := true })
    else
      let s := s.modify id fun c => rexmitInit t { c with
        localSeq := u32 (c.localSeq + datalen), peerWnd := subU32 c.peerWnd datalen,
        ackFlag := c.ackFlag + 1 }
      let flags := if datalen = subU32 c.txlen sent then ack ||| psh else ack
      (some { out with data := c.tx + sent, datalen := datalen, flags := flags }, s)
  else if acked < c.txlen then
    match rexmitCheck w t app cbd s id with
    | (.gone, s) => (none, s)
    | (.due, s) =>
      (some out, s.modify id fun c => { c with rexmitMode := true, rexmitWaitAck := false })
    | (.wait, s) => (some out, s)
  else (some out, s)

/-- The second part: retransmission. -/
def checkRexmit (w : Ulong) (t : Clock) (app : App) (cbd : CbData) (acked : Nat) (out : Outgoing)
    (s : Stack) (id : Nat) : Option Outgoing × Stack :=
  if (s.heap id).rexmitMode then
    let waited := if (s.heap id).rexmitWaitAck then
        match rexmitCheck w (fun i => t (30 + i)) app cbd s id with
        | (.gone, s) => (none, s)
        | (.due, s) => (some out, s.modify id fun c => { c with rexmitWaitAck := false })
        | (.wait, s) => (some out, s)
      else (some out, s)
    match waited with
    | (none, s) => (none, s)
    | (some out, s) =>
      let c := s.heap id
      if c.rexmitWaitAck then (some out, s)
      else
        let out := { out with sendseq := c.localSeqAcked }
        let (out, s) := if c.zwMode then (out, s)
          else
            ({ out with
              data := c.tx + acked, datalen := min (subU32 c.txlen acked) c.mss },
              s.modify id fun c => rexmitReset (fun i => t (30 + i)) { c with
                ackFlag := c.ackFlag + 1, rexmitWaitAck := true })
        let s := if rttInterval < getTimer w (t 2) c.tsRtt then
            s.modify id fun c => { c with
              ackCalcRtt := u32 (c.localSeqAcked + out.datalen), tsRtt := u32 (t 3) }
          else s
        (some out, s)
  else (some out, s)

/-- The third part: a closed window is probed with one byte. -/
def checkProbe (w : Ulong) (t : Clock) (app : App) (cbd : CbData) (sent acked : Nat)
    (out : Outgoing) (s : Stack) (id : Nat) : Option Outgoing × Stack :=
  let c := s.heap id
  if c.peerWnd = 0 ∨ c.zwMode then
    let s := if c.zwMode then s
      else s.modify id fun c => rexmitInit (fun i => t (60 + i)) { c with zwMode := true }
    if sent < c.txlen then
      match rexmitCheck w (fun i => t (60 + i)) app cbd s id with
      | (.gone, s) => (none, s)
      | (.due, s) =>
        let s := s.modify id fun c => rexmitReset (fun i => t (60 + i)) { c with
          localSeq := if c.localSeq = c.localSeqAcked then u32 (c.localSeq + 1) else c.localSeq,
          ackFlag := c.ackFlag + 1 }
        (some { out with data := c.tx + acked, datalen := 1, sendseq := c.localSeqAcked }, s)
      | (.wait, s) => (some out, s)
    else (some out, s)
  else (some out, s)

/-- The last part: the packet, and the close that the application asked for. -/
def checkClose (w : Ulong) (t : Clock) (app : App) (cbd : CbData) (out : Outgoing) (s : Stack)
    (id : Nat) : Stack :=
  let c := s.heap id
  let s := if c.ackFlag ≠ 0 then
      sendPacket (s.modify id fun c => { c with ackFlag := 0 })
        id out.flags out.sendseq c.peerSeq out.data out.datalen
    else s
  if c.closeFlag ∧ (c.tx = 0 ∨ c.txlen = 0) then
    let s := sendPacket s id (fin ||| ack) c.localSeq c.peerSeq 0 0
    let s := s.modify id fun c => rexmitInit t { c with status := .finWait1 }
    callback w app s { cbd with status := .closing }
  else s

def checkEstablished (w : Ulong) (t : Clock) (app : App) (cbd : CbData) (s : Stack) (id : Nat) :
    Stack :=
  let c := s.heap id
  let sent := toU32 (seqSub w c.localSeq c.localSeqLast)
  let acked := toU32 (seqSub w c.localSeqAcked c.localSeqLast)
  match checkSend w t app cbd sent acked s id with
  | (none, s) => s
  | (some out, s) =>
    match checkRexmit w t app cbd acked out s id with
    | (none, s) => s
    | (some out, s) =>
      match checkProbe w t app cbd sent acked out s id with
      | (none, s) => s
      | (some out, s) => checkClose w t app cbd out s id

def checkAgain (check : Rexmit × Stack) (again : Stack → Stack) (t : Clock) (id : Nat) : Stack :=
  match check with
  | (.gone, s) => s
  | (.due, s) => (again s).modify id (rexmitReset t)
  | (.wait, s) => s

def connCheck (w : Ulong) (t : Clock) (app : App) (s : Stack) (id : Nat) : Stack :=
  let c := s.heap id
  let cbd : CbData := ⟨id, .none, false, c.ipRemote, c.portRemote, c.portLocal, c.pdata, 0, 0, []⟩
  match c.status with
  | .connect =>
    let s := sendPacketOpt s id syn c.localSeq c.peerSeq (mssOpt c.mss) 0 0
    s.modify id fun c => { c with
      ts := u32 (t 23), tsRexmit := u32 (t 24), numRexmit := 0, status := .synSent }
  | .synSent =>
    checkAgain (connectRexmitCheck w t app cbd s id)
      (fun s => sendPacketOpt s id syn c.localSeq c.peerSeq (mssOpt c.mss) 0 0) t id
  | .synRcvd =>
    checkAgain (rexmitCheck w t app cbd s id) (fun s => sendPacketOpt s id (syn ||| ack) c.localSeq
      (u32 (c.peerSeq + 1)) (mssOpt c.mss) 0 0) t id
  | .established => checkEstablished w t app cbd s id
  | .closeWait =>
    (sendPacketCtrl s id (fin ||| ack)).modify id fun c => rexmitInit t { c with
      status := .lastAck }
  | .lastAck =>
    checkAgain (rexmitCheck w t app cbd s id) (fun s => sendPacketCtrl s id (fin ||| ack)) t id
  | .finWait1 =>
    checkAgain (rexmitCheck w t app cbd s id)
      (fun s => sendPacket s id (fin ||| ack) c.localSeq c.peerSeq 0 0) t id
  | .timeWait =>
    connDel (callback w app (sendPacketCtrl s id ack) { cbd with status := .closed }) id
  | _ => s

end MtkBoot.Tcp
