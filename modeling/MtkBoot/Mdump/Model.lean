import MtkBoot.Base
import MtkBoot.Lib.Bytes
import MtkBoot.Lib.System

/-! The emergency memory dump of BL31: `send_mdump_ranges` sends one range after the other and
leaves it when it is acknowledged.  Any packet that has been sent may arrive, any number of
times. -/

namespace MtkBoot.Mdump

open MtkBoot.Lib

/-- `struct mdump_range`; no excludes are the empty list. -/
structure MdumpRange where
  addr : Nat
  stop : Nat
  needMap : Bool
  isDevice : Bool
  excludes : List (Nat × Nat)

/-- The platform's ranges and DRAM, the memory, the negotiated version, the session's `assoc_id`,
and the receiver's address.  Indices are 32 and addresses 64 bits wide. -/
structure Session where
  ranges : List MdumpRange
  dramStart : Nat
  dramEnd : Nat
  dramSize : Nat
  mem : Mem
  negoVer : Nat
  assocId : Nat
  dipaddr : Nat
  count_le : ranges.length ≤ 2 ^ 32
  stop_le : ∀ r ∈ ranges, r.stop ≤ 2 ^ 64
  dram_le : dramStart + dramSize ≤ 2 ^ 64

namespace MdumpRange

def paddr (r : MdumpRange) : Nat := if r.isDevice then r.addr / 4 * 4 else r.addr

def last (ss : Session) (r : MdumpRange) : Nat :=
  let stop := if r.stop = ss.dramEnd then ss.dramStart + ss.dramSize else r.stop
  if r.isDevice then (stop + 3) / 4 * 4 else stop

def excluded (r : MdumpRange) (addr : Nat) : Bool :=
  r.excludes.any fun e => decide (e.1 ≤ addr ∧ addr + 4 ≤ e.2)

end MdumpRange

def dataMax : Nat := 1500 - 42 - 32

/-- `chksz`: of memory always whole words but for the end, of a device only whole words. -/
def chksz (r : MdumpRange) (left : Nat) : Nat :=
  if r.isDevice then min dataMax left / 4 * 4 else min (dataMax / 4 * 4) left

/-- The data of a packet; `regs` is what reading the device returns this time. -/
def chunkBytes (ss : Session) (r : MdumpRange) (regs : Mem) (pos n : Nat) : Bytes :=
  (List.range n).map fun j =>
    if r.isDevice then if r.excluded (pos + j / 4 * 4) then 0 else regs (pos + j)
    else ss.mem (pos + j)

/-- The payload that `net_send_packet` hands to the driver.  Of one of odd length
`net_set_udp_header` is to clear the byte after it, but it counts from the IP header and clears the
byte 20 before the end. -/
def netSendPacket (payload : Bytes) : Bytes :=
  if payload.length % 2 = 1 ∧ 20 ≤ payload.length then payload.set (payload.length - 20) 0
  else payload

/-- `struct mdump_range_header` after its checksum, and the data. -/
def rangeBody (ss : Session) (index offset : Nat) (data : Bytes) : Bytes :=
  words [ss.negoVer, ss.assocId, index, data.length] ++ (leBytes 8 offset ++ data)

def withSum (sum : Nat) (body : Bytes) : Bytes := leBytes 4 0x4452444d ++ (leBytes 4 sum ++ body)

/-- `send_mdump_mem_packet` and `send_mdump_device_packet`. -/
def sendMdumpPacket (ss : Session) (index offset : Nat) (data : Bytes) : Bytes :=
  let body := rangeBody ss index offset data
  netSendPacket (withSum (crc32Comp 0 (withSum 0 body)) body)

/-- The address and the size in the header of a packet. -/
def headerOf (p : Bytes) : Nat × Nat := (leNat (field p 24 8), le32 p 20)

def ChecksumOk (p : Bytes) : Prop := le32 p 4 = crc32Comp 0 (splice p 4 (leBytes 4 0))

instance (p : Bytes) : Decidable (ChecksumOk p) := inferInstanceAs (Decidable (_ = _))

/-- A packet to the receiver: the payload of a data packet, or the end of a range. -/
inductive Packet where
  | data (payload : Bytes)
  | rangeEnd (index : Nat)
  deriving DecidableEq

/-- A UDP packet from the receiver's side: its source address and its payload. -/
structure Reply where
  src : Nat
  bytes : Bytes
  deriving DecidableEq

namespace Reply

def type (p : Reply) : Nat := le32 p.bytes 16
def index (p : Reply) : Nat := le32 p.bytes 24
def addr (p : Reply) : Nat := leNat (field p.bytes 32 8)
def stop (p : Reply) : Nat := leNat (field p.bytes 40 8)

end Reply

def rangeRexmit : Nat := 1

def rangeAck : Nat := 2

def respMax : Nat := 6

def checkMdumpResponseHeader (ss : Session) (p : Reply) : Bool :=
  le32 p.bytes 8 == ss.negoVer && le32 p.bytes 12 == ss.assocId && decide (p.type < respMax) &&
    le32 p.bytes 4 == crc32Comp 0 (splice (p.bytes.take 48) 4 (leBytes 4 0))

def fromReceiver (ss : Session) (p : Reply) : Bool :=
  ss.dipaddr == 0xffffffff || p.src == ss.dipaddr

/-- Where `send_mdump_ranges` is with a range: sending from an address to another, about to send
the end of the range, or waiting for a response. -/
inductive Phase where
  | sending (pos stop : Nat)
  | ending
  | waiting
  | finished
  deriving DecidableEq, Repr

structure Sender where
  index : Nat
  phase : Phase
  deriving DecidableEq, Repr

/-- The start of the loop for range `i`; mapping it succeeds. -/
def enterRange (ss : Session) (i : Nat) : Sender :=
  match ss.ranges[i]? with
  | none => ⟨i, .finished⟩
  | some r => ⟨i, .sending r.paddr (r.last ss)⟩

/-- What a packet does to a sender that waits with range `i`; `unmapped` says whether unmapping
the range succeeds. -/
def onReply (ss : Session) (i : Nat) (r : MdumpRange) (p : Reply) (unmapped : Bool) : Sender :=
  if checkMdumpResponseHeader ss p = false then ⟨i, .waiting⟩
  else if fromReceiver ss p = false then ⟨i, .ending⟩
  else if p.type = rangeAck then
    if r.needMap && !unmapped then ⟨i + 1, .finished⟩ else enterRange ss (i + 1)
  else if p.type = rangeRexmit ∧ p.index = i then
    if p.addr < r.paddr ∨ r.last ss < p.stop ∨ p.stop < p.addr then ⟨i, .ending⟩
    else ⟨i, .sending p.addr p.stop⟩
  else ⟨i, .ending⟩

/-! ### Sender, receiver and network -/

/-- The receiver keeps the bytes of each range by their addresses. -/
abbrev Store := Nat → Nat → Option UInt8

def Complete (ss : Session) (store : Store) (i : Nat) : Prop :=
  ∀ r ∈ ss.ranges[i]?, ∀ a < r.last ss, r.paddr ≤ a → (store i a).isSome

instance (ss : Session) (store : Store) (i : Nat) : Decidable (Complete ss store i) :=
  inferInstanceAs (Decidable (∀ r ∈ ss.ranges[i]?, _))

/-- The receiver takes the data of a packet whose checksum is right. -/
def Packet.apply (store : Store) : Packet → Store
  | data p => fun i a =>
    let offset := (headerOf p).1
    if ChecksumOk p ∧ i = le32 p 16 ∧ offset ≤ a ∧ a < offset + (p.drop 32).length then
      (p.drop 32)[a - offset]?
    else store i a
  | rangeEnd _ => store

structure State where
  sender : Sender
  sent : List Packet
  replies : List Reply
  store : Store

inductive Event where
  /-- One round of a loop that sends data. -/
  | chunk (regs : Mem)
  /-- That loop ends. -/
  | chunksDone
  | sendRangeEnd
  | timeout
  /-- The waiting sender gets a packet. -/
  | deliver (p : Reply) (unmapped : Bool)
  /-- The receiver gets a packet. -/
  | receive (m : Packet)
  /-- The receiver sends a packet. -/
  | reply (p : Reply)

/-- One event.  The receiver may send anything, but it acknowledges a range only if it holds every
byte of it. -/
def step (ss : Session) (s : State) : Event → Option State
  | .chunk regs =>
    match s.sender.phase, ss.ranges[s.sender.index]? with
    | .sending pos stop, some r =>
      if pos < stop then
        let n := chksz r (stop - pos)
        some { s with
          sender.phase := .sending (pos + n) stop
          sent := .data (sendMdumpPacket ss s.sender.index pos (chunkBytes ss r regs pos n)) ::
            s.sent }
      else none
    | _, _ => none
  | .chunksDone =>
    match s.sender.phase with
    | .sending pos stop => if pos < stop then none else some { s with sender.phase := .ending }
    | _ => none
  | .sendRangeEnd =>
    match s.sender.phase with
    | .ending =>
      some { s with sender.phase := .waiting, sent := .rangeEnd s.sender.index :: s.sent }
    | _ => none
  | .timeout =>
    match s.sender.phase with
    | .waiting => some { s with sender.phase := .ending }
    | _ => none
  | .deliver p unmapped =>
    match s.sender.phase, ss.ranges[s.sender.index]? with
    | .waiting, some r =>
      if p ∈ s.replies then some { s with sender := onReply ss s.sender.index r p unmapped }
      else none
    | _, _ => none
  | .receive m => if m ∈ s.sent then some { s with store := m.apply s.store } else none
  | .reply p =>
    if p.type = rangeAck ∧ ¬Complete ss s.store p.index then none
    else some { s with replies := p :: s.replies }

def start (ss : Session) : State :=
  { sender := enterRange ss 0, sent := [], replies := [], store := fun _ _ => none }

end MtkBoot.Mdump
