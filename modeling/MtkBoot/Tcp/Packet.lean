import MtkBoot.Tcp.Seq

/-! A received IP packet as `mtk_receive_tcp` reads it: the memory from its IP header on, so that a
read past its end is a read like any other. -/

namespace MtkBoot.Tcp

def be16 (mem : Mem) (o : Nat) : Nat := (mem o).toNat * 256 + (mem (o + 1)).toNat

def be32 (mem : Mem) (o : Nat) : Nat := be16 mem o * 65536 + be16 mem (o + 2)

def slice (mem : Mem) (o len : Nat) : Bytes := (List.range len).map fun i => mem (o + i)

def fin : Nat := 1
def syn : Nat := 2
def rst : Nat := 4
def psh : Nat := 8
def ack : Nat := 16
def urg : Nat := 32
def flagMask : Nat := 63

def has (flags mask : Nat) : Bool := decide (flags &&& mask ≠ 0)

def hdrSize : Nat := 20

/-- The sum of the little-endian 16-bit words of a buffer; an odd last byte is a word of its own. -/
def wordSum (mem : Mem) : Nat → Nat → Nat
  | 0, _ => 0
  | 1, o => (mem o).toNat
  | len + 2, o => (mem o).toNat + 256 * (mem (o + 1)).toNat + wordSum mem len (o + 2)

/-- `mtk_tcp_checksum_compute` for the segment at `o` with the addresses of the IP header.  A
negative length has no words but is in the pseudo header. -/
def checksumCompute (mem : Mem) (o : Nat) (len : Int) : Nat :=
  let lenField := (len % 65536).toNat
  let pseudo := 256 * 6 + (lenField / 256 + 256 * (lenField % 256)) + wordSum mem 8 12
  let sum := toInt (pseudo + wordSum mem len.toNat o)
  let sum := sum / 65536 + sum % 65536
  let sum := sum + sum / 65536
  ((-sum - 1) % 65536).toNat

/-- What `mtk_receive_tcp` reads from a packet before it looks for a connection.  `tcp` and `data`
are the offsets of the header and of the payload. -/
structure Segment where
  ipSrc : Nat
  src : Nat
  dst : Nat
  seq : Nat
  ack : Nat
  flags : Nat
  wnd : Nat
  tcp : Nat
  tcphdrLen : Nat
  data : Nat
  dataSize : Nat
  deriving DecidableEq, Repr

/-- The first part of `mtk_receive_tcp`; `none` when the packet is refused. -/
def parse (mem : Mem) (len : Nat) : Option Segment :=
  let iphdrLen := (mem 0).toNat % 16 * 4
  if checksumCompute mem iphdrLen ((len : Int) - iphdrLen) ≠ 0 then none
  else
    let flags := be16 mem (iphdrLen + 12)
    let tcphdrLen := flags / 4096 % 16 * 4
    if tcphdrLen < hdrSize then none
    else if len < iphdrLen + tcphdrLen then none
    else
      -- urgent data is skipped
      let skip := if has flags urg then be16 mem (iphdrLen + 18) else 0
      some {
        ipSrc := be32 mem 12
        src := be16 mem iphdrLen
        dst := be16 mem (iphdrLen + 2)
        seq := be32 mem (iphdrLen + 4)
        ack := be32 mem (iphdrLen + 8)
        flags := flags
        wnd := be16 mem (iphdrLen + 14)
        tcp := iphdrLen
        tcphdrLen := tcphdrLen
        data := iphdrLen + tcphdrLen + skip
        dataSize := subU32 (len - iphdrLen - tcphdrLen) skip }

def optEol : Nat := 0
def optNop : Nat := 1
def optMss : Nat := 2
def optWs : Nat := 3

/-- What the options of a SYN set in a connection. -/
structure Opts where
  mss : Nat
  peerWs : Nat
  deriving DecidableEq, Repr

/-- The option loop of `mtk_tcp_conn_create` and `mtk_tcp_conn_fill` at offset `o`, with at least
`optend - o` as the first number.  `none` is a loop that never ends, at an option of length zero. -/
def parseOptions (mem : Mem) (optend : Nat) : Nat → Nat → Opts → Option Opts
  | 0, _, c => some c
  | n + 1, o, c =>
    if optend ≤ o then some c
    else if (mem o).toNat = optEol then some c
    else if (mem o).toNat = optNop then parseOptions mem optend n (o + 1) c
    else
      let c :=
        if (mem o).toNat = optMss then
          if be16 mem (o + 2) < c.mss then { c with mss := be16 mem (o + 2) } else c
        else if (mem o).toNat = optWs then { c with peerWs := min (mem (o + 2)).toNat 14 }
        else c
      if mem (o + 1) = 0 then none else parseOptions mem optend n (o + (mem (o + 1)).toNat) c

def Segment.options (seg : Segment) (mem : Mem) (c : Opts) : Option Opts :=
  let o := seg.tcp + hdrSize
  let optend := seg.tcp + seg.tcphdrLen
  parseOptions mem optend (optend - o) o c

end MtkBoot.Tcp
