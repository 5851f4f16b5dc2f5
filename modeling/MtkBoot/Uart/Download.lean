import MtkBoot.Base
import MtkBoot.Lib.Serial
import MtkBoot.Lib.System

/-! The download of a FIP over a serial line: `send_fip` on the host, `receive_data` in BL2, and the
line between them, which may corrupt the payload of a packet. -/

namespace MtkBoot.Uart

open Lib

/-! ### The checksum

Both sides add up the big-endian 16-bit words of a packet in 32 bits and fold the carries. -/

/-- `while csum >> 16 != 0`.  A 32-bit sum needs two rounds at most. -/
def foldCarries : Nat → Nat → Nat
  | 0, csum => csum
  | fuel + 1, csum =>
    if csum >>> 16 ≠ 0 then foldCarries fuel (((csum >>> 16) &&& 0xffff) + (csum &&& 0xffff))
    else csum

def chksumLoop : Nat → Bytes → Nat
  | chksum, d0 :: d1 :: data => chksumLoop (u32 (chksum + (d0.toNat <<< 8 ||| d1.toNat))) data
  | chksum, [d0] => u32 (chksum + d0.toNat <<< 8)
  | chksum, [] => chksum

def calcChksum (data : Bytes) : Nat := u16 (foldCarries 3 (chksumLoop 0 data))

def csumLoop (fip : Bytes) : Nat → Nat → Nat → Nat × Nat
  | 0, p, csum => (p, csum)
  | fuel + 1, p, csum =>
    if fip.length - p > 1 then csumLoop fip fuel (p + 2) (u32 (csum + beNat (field fip p 2)))
    else (p, csum)

def fipPacketChecksum (fip : Bytes) : Nat :=
  let (p, csum) := csumLoop fip fip.length 0 0
  let csum := if fip.length ≠ p then u32 (csum + (fip.getLastD 0).toNat <<< 8) else csum
  u16 (foldCarries 3 csum)

/-- The loop that takes the payload of a packet into the memory. -/
def receiveBytes : Nat → Nat → Prog Mem Unit
  | 0, _ => pure ()
  | len + 1, ptr => do
    let b ← getc
    modify fun w => { w with mem := Function.update w.mem ptr b }
    receiveBytes len (ptr + 1)

def receivePacket (addr expectedIdx : Nat) : Prog Mem Nat := do
  let idx ← receiveNat 4
  send (beBytes 4 idx)
  let len ← receiveNat 2
  send (beBytes 2 len)
  let chksum ← receiveNat 2
  send (beBytes 2 chksum)
  receiveBytes len addr
  if idx ≠ expectedIdx then
    send (beBytes 4 expectedIdx)
    send (beBytes 2 0)
    return 0
  else
    let realChksum := calcChksum (bytesAt (← get).mem addr len)
    send (beBytes 4 expectedIdx)
    send (beBytes 2 realChksum)
    if realChksum ≠ chksum then return 0 else return len

/-- The variables of `receive_data`. -/
structure Bl2 where
  size : Nat
  curridx : Nat
  rcvdSize : Nat
  curraddr : Nat

def Bl2.next (b : Bl2) (ret : Nat) : Bl2 :=
  if ret = 0 then b
  else
    { b with
      curridx := u32 (b.curridx + 1), rcvdSize := u32 (b.rcvdSize + ret),
      curraddr := b.curraddr + ret }

def receiveSize (loadaddr : Nat) : Prog Mem Bl2 := do
  let size ← receiveNat 4
  send (beBytes 4 size)
  return ⟨size, 0, 0, loadaddr⟩

def echo (buf : Bytes) : Prog Unit Unit := do
  send buf
  let rxBuf ← receive buf.length
  if buf ≠ rxBuf then failure

def sendFipPacket (idx : Nat) (fip : Bytes) : Prog Unit Bool := do
  echo (beBytes 4 idx)
  echo (beBytes 2 (u16 fip.length))
  let checksum := fipPacketChecksum fip
  echo (beBytes 2 checksum)
  send fip
  let expectedIdx ← receiveNat 4
  let realCsum ← receiveNat 2
  return expectedIdx = idx ∧ realCsum = checksum

/-- Where `send_fip` is: at a packet of one of its two loops, or at its end. -/
inductive Host where
  | sending (idx pktLen p : Nat)
  | finished
  deriving DecidableEq

def growPktLen (pktLen : Nat) : Nat :=
  if pktLen < 32768 then pktLen * 2
  else if pktLen < 65536 - 1024 then pktLen + 1024
  else pktLen

/-- The packet at offset `p`: `pktLen` bytes while there are more than that, then the rest. -/
def packet (fip : Bytes) (pktLen p : Nat) : Bytes :=
  if fip.length - p > pktLen then field fip p pktLen else fip.drop p

def Host.next (n idx pktLen p : Nat) (accepted : Bool) : Host :=
  if n - p > pktLen then
    if accepted then .sending (u32 (idx + 1)) (growPktLen pktLen) (p + pktLen)
    else .sending idx pktLen p
  else if accepted then .finished else .sending idx pktLen p

/-- The host, BL2 with its memory, and what is still on the line in both directions. -/
structure State where
  host : Host
  bl2 : Bl2
  mem : Mem
  toBl2 : Bytes
  toHost : Bytes

/-- The bytes that may arrive for a payload: the payload, or one with another checksum. -/
def Delivered (sent rcvd : Bytes) : Prop :=
  rcvd = sent ∨ rcvd.length = sent.length ∧ calcChksum rcvd ≠ calcChksum sent

def Start (fip : Bytes) (loadaddr : Nat) (mem : Mem) (s : State) : Prop :=
  ∃ returned toBl2 toHost written,
    (echo (beBytes 4 (u32 fip.length))).run ⟨returned, [], ()⟩ = some ((), ⟨toHost, written, ()⟩) ∧
    (receiveSize loadaddr).run ⟨written, [], mem⟩ = some (s.bl2, ⟨toBl2, returned, s.mem⟩) ∧
    s.host = .sending 0 128 0 ∧ s.toBl2 = toBl2 ∧ s.toHost = toHost

/-- One packet.  The host reads what BL2 returns for what the host has written; the first eight
bytes of a packet and everything that is returned arrive as they were sent. -/
inductive Step (fip : Bytes) : State → State → Prop
  | packet {idx pktLen p : Nat} {bl2 : Bl2} {mem mem' : Mem} {toBl2 toBl2' toHost toHost' : Bytes}
      {header rcvd returned : Bytes} {accepted : Bool} {ret : Nat}
      (hleft : bl2.rcvdSize < bl2.size)
      (hhost : (sendFipPacket idx (packet fip pktLen p)).run ⟨toHost ++ returned, [], ()⟩ =
        some (accepted, ⟨toHost', header ++ packet fip pktLen p, ()⟩))
      (hline : Delivered (packet fip pktLen p) rcvd)
      (hbl2 : (receivePacket bl2.curraddr bl2.curridx).run ⟨toBl2 ++ header ++ rcvd, [], mem⟩ =
        some (ret, ⟨toBl2', returned, mem'⟩)) :
      Step fip ⟨.sending idx pktLen p, bl2, mem, toBl2, toHost⟩
        ⟨Host.next fip.length idx pktLen p accepted, bl2.next ret, mem', toBl2', toHost'⟩

end MtkBoot.Uart
