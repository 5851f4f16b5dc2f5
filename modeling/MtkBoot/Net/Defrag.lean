import MtkBoot.Base

/-! Reassembly of IP fragments.  The holes that are still missing are a doubly linked list whose
nodes lie in the holes themselves, in the buffer that is being filled. -/

namespace MtkBoot.Net

def ipHdrSize : Nat := 20

/-- `struct hole`, four 16-bit numbers. -/
structure Hole where
  lastByte : Nat
  nextHole : Nat
  prevHole : Nat
  unused : Nat
  deriving DecidableEq, Repr

def getU16 (buf : Mem) (a : Nat) : Nat := (buf a).toNat + 256 * (buf (a + 1)).toNat

def getHole (buf : Mem) (i : Nat) : Hole :=
  ⟨getU16 buf (8 * i), getU16 buf (8 * i + 2), getU16 buf (8 * i + 4), getU16 buf (8 * i + 6)⟩

def Hole.byte (h : Hole) : Mem
  | 0 => UInt8.ofNat h.lastByte
  | 1 => UInt8.ofNat (h.lastByte / 256)
  | 2 => UInt8.ofNat h.nextHole
  | 3 => UInt8.ofNat (h.nextHole / 256)
  | 4 => UInt8.ofNat h.prevHole
  | 5 => UInt8.ofNat (h.prevHole / 256)
  | 6 => UInt8.ofNat h.unused
  | _ => UInt8.ofNat (h.unused / 256)

def setHole (buf : Mem) (i : Nat) (h : Hole) : Mem :=
  fun a => if 8 * i ≤ a ∧ a < 8 * i + 8 then h.byte (a - 8 * i) else buf a

def setLast (buf : Mem) (i v : Nat) : Mem := setHole buf i { getHole buf i with lastByte := v }
def setNext (buf : Mem) (i v : Nat) : Mem := setHole buf i { getHole buf i with nextHole := v }
def setPrev (buf : Mem) (i v : Nat) : Mem := setHole buf i { getHole buf i with prevHole := v }

def copyIn (buf : Mem) (start len : Nat) (data : Bytes) : Mem :=
  fun a => if start ≤ a ∧ a < start + len then data.getD (a - start) 0 else buf a

/-- The static variables of `__net_defragment`; `buf` is the buffer after the IP header. -/
structure State where
  buf : Mem
  firstHole : Nat
  totalLen : Nat
  ipId : Nat

/-- A fragment: the offset in blocks of eight bytes, whether more fragments follow, and its
payload. -/
structure Frag where
  ipId : Nat
  offset8 : Nat
  more : Bool
  data : Bytes

def State.reset (s : State) (id : Nat) : State where
  buf := setHole s.buf 0 { getHole s.buf 0 with lastByte := 0xffff, nextHole := 0, prevHole := 0 }
  firstHole := 0
  totalLen := 0xffff
  ipId := id

/-- The first hole from `h` on that does not end before `start`; `none` when there is none that far
away. -/
def findHole (buf : Mem) (start : Nat) : Nat → Nat → Option Nat
  | 0, _ => none
  | fuel + 1, h =>
    if (getHole buf h).lastByte < start then
      if (getHole buf h).nextHole = 0 then none
      else findHole buf start fuel (getHole buf h).nextHole
    else some h

/-- What becomes of hole `h` when `len` bytes from block `this` on fill a part of it: the buffer,
the first hole, and whether it was the last one.  A descriptor outside the buffer is `none`. -/
def fillHole (maxUdp : Nat) (buf : Mem) (first h this len : Nat) : Option (Mem × Nat × Bool) :=
  let hole := getHole buf h
  let start := 8 * this
  let newh := this + len / 8
  if h ≥ this ∧ hole.lastByte ≤ start + len then
    -- complete overlap with hole: remove hole
    if hole.prevHole = 0 ∧ hole.nextHole = 0 then some (buf, first, true)
    else if hole.prevHole = 0 then some (setPrev buf hole.nextHole 0, hole.nextHole, false)
    else if hole.nextHole = 0 then some (setNext buf hole.prevHole 0, first, false)
    else some (setNext (setPrev buf hole.nextHole hole.prevHole) hole.prevHole hole.nextHole, first,
      false)
  else if hole.lastByte ≤ start + len then
    -- overlaps with final part of the hole: shorten this hole
    some (setLast buf h start, first, false)
  else if 8 * newh + 8 > maxUdp then none
  else if h ≥ this then
    -- overlaps with initial part of the hole: move this hole
    let buf := setHole buf newh hole
    let buf := if hole.nextHole ≠ 0 then setPrev buf hole.nextHole newh else buf
    if hole.prevHole ≠ 0 then some (setNext buf hole.prevHole newh, first, false)
    else some (buf, newh, false)
  else
    -- fragment sits in the middle: split the hole
    let buf := setHole buf newh hole
    let buf := setNext (setLast buf h start) h newh
    let buf := setPrev buf newh h
    let next := (getHole buf newh).nextHole
    some (if next ≠ 0 then setPrev buf next newh else buf, first, false)

structure Packet where
  len : Nat
  payload : Mem

def takeFrag (maxUdp : Nat) (s : State) (f : Frag) (h : Nat) : Option (State × Option Packet) :=
  let start := f.offset8 * 8
  let len := f.data.length
  let s :=
    if f.more then s else { s with totalLen := start + len, buf := setLast s.buf h (start + len) }
  let last := (getHole s.buf h).lastByte
  let len := if last < start + len then last - start else len
  match fillHole maxUdp s.buf s.firstHole h f.offset8 len with
  | none => none
  | some (buf, first, done) =>
    let s := { s with buf := copyIn buf start len f.data, firstHole := first }
    some (s, if done then some ⟨s.totalLen + ipHdrSize, s.buf⟩ else none)

/-- `__net_defragment`; `none` is a write past the end of the buffer. -/
def netDefragment (maxUdp : Nat) (s : State) (f : Frag) : Option (State × Option Packet) :=
  let ipLen := f.data.length + ipHdrSize
  if ipLen ≤ ipHdrSize then some (s, none)
  else
    let start := f.offset8 * 8
    let len := ipLen - ipHdrSize
    if len % 8 ≠ 0 ∧ f.more then some (s, none)
    else if start + len > maxUdp then some (s, none)
    else
      let s := if s.totalLen = 0 ∨ s.ipId ≠ f.ipId then s.reset f.ipId else s
      -- the holes are in order, so there are no more of them than blocks
      match findHole s.buf start (maxUdp / 8 + 1) s.firstHole with
      | none => some (s, none)
      | some h =>
        if f.offset8 + (len + 7) / 8 ≤ h then some (s, none)
        else takeFrag maxUdp s f h

end MtkBoot.Net
