import MtkBoot.Lib.Bytes
import MtkBoot.Lib.Strings

/-! The TFTP client as a download uses it.  What it prints is left out. -/

namespace MtkBoot.Tftp

open Lib

inductive Phase
  | sendRrq | data | oack | invalidOption
  deriving DecidableEq, Repr

/-- `net_state`; `again` is a restart. -/
inductive Status
  | running | success | fail | again
  deriving DecidableEq, Repr

inductive Sent
  | rrq | ack (block : Nat) | error (code : Nat)
  deriving DecidableEq, Repr

/-- The configuration: `reserved` is `lmb_read_check`, which is asked if `lmb` is set. -/
structure Config where
  blockSizeOption : Nat
  timeoutSecs : Nat
  timeoutCountMax : Nat
  lmb : Bool
  reserved : Nat → Nat → Bool
  loadAddr : Nat
  ourPort : Nat

structure State where
  status : Status
  phase : Phase
  remotePort : Nat
  curBlock : Nat
  prevBlock : Nat
  blockWrap : Nat
  blockWrapOffset : Nat
  blockSize : Nat
  windowsize : Nat
  nextAck : Nat
  lastNack : Nat
  timeoutCount : Nat
  timeoutCountMax : Nat
  mem : Mem
  bootFileSize : Nat
  sent : List Sent

def sequenceSize : Nat := 2 ^ 16

variable (cfg : Config)

/-- The product of two numbers of at most 16 bits as an `int`, converted to an unsigned 64-bit
number. -/
def intMul (a b : Nat) : Nat := (Int.bmod (a * b) (2 ^ 32) % 2 ^ 64).toNat

def storeBlock (s : State) (block : Nat) (src : Bytes) : Option State :=
  let offset := u64 (u64 (intMul block s.blockSize + s.blockWrapOffset) + (2 ^ 64 - s.blockSize))
  let newsize := u64 (offset + src.length)
  let storeAddr := u64 (cfg.loadAddr + offset)
  if cfg.lmb ∧ (storeAddr < cfg.loadAddr ∨ cfg.reserved storeAddr src.length) then none
  else
    some { s with
      mem := putBytes s.mem storeAddr src
      bootFileSize := if s.bootFileSize < newsize then u32 newsize else s.bootFileSize }

def newTransfer (s : State) : State :=
  { s with prevBlock := 0, blockWrap := 0, blockWrapOffset := 0 }

def updateBlockNumber (s : State) : State :=
  if s.curBlock = 0 ∧ s.prevBlock ≠ 0 then
    { s with
      blockWrap := s.blockWrap + 1
      blockWrapOffset := u64 (s.blockWrapOffset + s.blockSize * sequenceSize)
      timeoutCount := 0 }
  else s

def tftpComplete (s : State) : State := { s with status := .success }

def tftpSend (s : State) : State :=
  match s.phase with
  | .sendRrq => { s with sent := s.sent ++ [.rrq] }
  | .oack | .data => { s with sent := s.sent ++ [.ack (u16 s.curBlock)] }
  | .invalidOption => { s with sent := s.sent ++ [.error 8], status := .fail }

/-! ## Options -/

def toLower (c : UInt8) : UInt8 := if 65 ≤ c ∧ c ≤ 90 then c + 0x20 else c

/-- `strcasecmp` finds a string equal to a name of an option. -/
def isOption (l : Bytes) (name : String) : Bool := (cstr l).map toLower = ascii name

structure Options where
  blockSize : Nat
  windowsize : Nat
  invalid : Bool

def oackAt (pkt : Bytes) (o : Options) (i : Nat) : Options :=
  let o :=
    if isOption (pkt.drop i) "blksize" then
      let blockSize := u16 (strtoul 10 (pkt.drop (i + 8))).1
      { o with blockSize := blockSize,
               invalid := o.invalid || decide (cfg.blockSizeOption < blockSize) }
    else o
  let o :=
    if isOption (pkt.drop i) "timeout" then
      { o with invalid := o.invalid ||
                 decide (u16 (strtoul 10 (pkt.drop (i + 8))).1 ≠ cfg.timeoutSecs) }
    else o
  if isOption (pkt.drop i) "windowsize" then
    { o with windowsize := u16 (strtoul 10 (pkt.drop (i + 11))).1 }
  else o

def oackOptions (pkt : Bytes) (o : Options) : Options :=
  (List.range (pkt.length - 8)).foldl (oackAt cfg pkt) o

/-! ## Packets -/

def oackPacket (s : State) (src : Nat) (pkt : Bytes) : State :=
  let o := oackOptions cfg pkt ⟨s.blockSize, s.windowsize, false⟩
  tftpSend { s with
    phase := if o.invalid then .invalidOption else .oack
    remotePort := src
    blockSize := o.blockSize
    windowsize := o.windowsize
    nextAck := o.windowsize }

def toShort (n : Nat) : Int := Int.bmod n (2 ^ 16)

def unexpectedBlock (s : State) (num : Nat) : State :=
  -- an older block: the server sends the window again
  if (u16 (s.curBlock + 1) : Int) - toShort num > 0 then s
  else if s.lastNack ≠ s.curBlock then
    { tftpSend s with lastNack := u16 s.curBlock, nextAck := u16 (s.curBlock + s.windowsize) }
  else s

/-- The next block, after the checks of the first one. -/
def acceptBlock (s : State) (payload : Bytes) : State :=
  if s.curBlock = s.prevBlock then s
  else
    let s := updateBlockNumber s
    let s := { s with prevBlock := s.curBlock, timeoutCountMax := cfg.timeoutCountMax }
    match storeBlock cfg s s.curBlock payload with
    | none => { s with status := .fail }
    | some s =>
      let s := { s with timeoutCount := 0 }
      if payload.length < s.blockSize then tftpComplete (tftpSend s)
      else if s.curBlock = s.nextAck then
        { tftpSend s with nextAck := u16 (s.nextAck + s.windowsize) }
      else s

def dataPacket (s : State) (src num : Nat) (payload : Bytes) : State :=
  if num ≠ u16 (s.curBlock + 1) then unexpectedBlock s num
  else
    let s := { s with curBlock := (s.curBlock + 1) % sequenceSize }
    let s := if s.phase = .sendRrq then { s with nextAck := s.windowsize } else s
    if s.phase = .sendRrq ∨ s.phase = .oack then
      let s := newTransfer { s with phase := .data, remotePort := src }
      if s.curBlock ≠ 1 then { s with status := .again } else acceptBlock cfg s payload
    else acceptBlock cfg s payload

def be16 (l : Bytes) : Nat := beNat (l.take 2)

def tftpHandler (s : State) (dest src : Nat) (pkt : Bytes) : State :=
  if dest ≠ cfg.ourPort then s
  else if s.phase ≠ .sendRrq ∧ src ≠ s.remotePort then s
  else if pkt.length < 2 then s
  else
    let rest := pkt.drop 2
    if be16 pkt = 6 then oackPacket cfg s src rest
    else if be16 pkt = 3 then
      if rest.length < 2 then s else dataPacket cfg s src (be16 rest) (rest.drop 2)
    else if be16 pkt = 5 then
      if be16 rest = 1 ∨ be16 rest = 2 then { s with status := .fail }
      else { s with status := .again }
    else s

def tftpTimeoutHandler (s : State) : State :=
  let s := { s with timeoutCount := s.timeoutCount + 1 }
  if s.timeoutCountMax < s.timeoutCount then { s with status := .again } else tftpSend s

/-- `tftp_start`: the variables that it does not set keep what a transfer before has left there. -/
def tftpStart (s : State) : State := tftpSend { s with
    status := .running
    phase := .sendRrq
    timeoutCountMax := cfg.timeoutCountMax
    remotePort := 69
    timeoutCount := 0
    curBlock := 0
    windowsize := 1
    lastNack := 0
    blockSize := 512 }

inductive Event
  | packet (dest src : Nat) (pkt : Bytes)
  | timeout

def step (s : State) (e : Event) : State :=
  if s.status = .running then
    match e with
    | .packet dest src pkt => tftpHandler cfg s dest src pkt
    | .timeout => tftpTimeoutHandler s
  else s

def run (s : State) (es : List Event) : State := es.foldl (step cfg) s

end MtkBoot.Tftp
