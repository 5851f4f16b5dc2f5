import MtkBoot.Base
import MtkBoot.Lib.Bytes

/-! A list of tagged blobs in one stretch of memory: a header, then records of eight bytes each
followed by its data. -/

namespace MtkBoot.Bloblist

open Lib

/-- `sizeof(struct bloblist_hdr)` and `sizeof(struct bloblist_rec)`. -/
def hdrSize : Nat := 24
def recSizeof : Nat := 8

/-- The header's fields and the memory from the header on; `addr` is where it lies. -/
structure State where
  addr : Nat
  alignLog2 : Nat
  used : Nat
  total : Nat
  mem : Mem

def alignUp (x a : Nat) : Nat := (x + a - 1) / a * a

def getU32 (mem : Mem) (a : Nat) : Nat := leNat (bytesAt mem a 4)

section

variable (b : State)

def recTag (rec : Nat) : Nat := getU32 b.mem rec % 2 ^ 24
def recHdrSize (rec : Nat) : Nat := getU32 b.mem rec / 2 ^ 24
def recSize (rec : Nat) : Nat := getU32 b.mem (rec + 4)

/-! ## The walk -/

def firstBlob : Option Nat := if b.used ≤ hdrSize then none else some hdrSize

/-- The sizes are added as 32-bit numbers, and the shift of an `int` takes the low five bits of the
exponent. -/
def blobEndOfs (rec : Nat) : Nat :=
  alignUp (rec + u32 (recHdrSize b rec + recSize b rec) + recHdrSize b rec)
    (2 ^ (b.alignLog2 % 32)) - recHdrSize b rec

def nextBlob (rec : Nat) : Option Nat :=
  if b.used ≤ blobEndOfs b rec then none else some (blobEndOfs b rec)

/-- `foreach_rec`: the records it visits, or `none` when it does not end. -/
def walk : Nat → Option Nat → Option (List Nat)
  | _, none => some []
  | 0, some _ => none
  | fuel + 1, some rec => (walk fuel (nextBlob b rec)).map (rec :: ·)

/-- A record never ends before it starts: a walk that ends takes at most `used` steps. -/
def records : Option (List Nat) := walk b (b.used + 1) (firstBlob b)

def findFrom (tag : Nat) : Nat → Option Nat → Option (Option Nat)
  | _, none => some none
  | 0, some _ => none
  | fuel + 1, some rec =>
    if recTag b rec = tag then some (some rec) else findFrom tag fuel (nextBlob b rec)

def findrec (tag : Nat) : Option (Option Nat) := findFrom b tag (b.used + 1) (firstBlob b)

def getBlob (tag : Nat) : Option (Option (Nat × Nat)) :=
  (findrec b tag).map fun r => r.map fun rec => (rec + recHdrSize b rec, recSize b rec)

def find (tag size : Nat) : Option (Option Nat) :=
  (getBlob b tag).map fun r => r.bind fun (data, blobSize) =>
    if size ≠ 0 ∧ size ≠ blobSize then none else some data

/-! ## Adding -/

/-- The end of `bloblist_addrec`: the record goes to the end of the used part, unless there is no
space. -/
def place (tag size alignLog2 : Nat) : State × Option Nat :=
  let newAlloced := u32 (b.used + recSizeof + alignUp size (2 ^ alignLog2))
  if b.total < newAlloced then (b, none)
  else
    let mem := putBytes b.mem b.used (leBytes 4 (tag ||| recSizeof <<< 24) ++ leBytes 4 size)
    let mem :=
      putBytes mem (b.used + recHdrSize { b with mem := mem } b.used) (List.replicate size 0)
    ({ b with used := newAlloced, mem := mem }, some b.used)

end

/-- `bloblist_addrec`.  It calls itself for a record that fills the gap before aligned data; `none`
when that does not end. -/
def addrecFrom : Nat → State → Nat → Nat → Nat → Option (State × Option Nat)
  | 0, _, _, _, _ => none
  | fuel + 1, b, tag, size, alignLog2 =>
    let alignLog2 := if alignLog2 = 0 then 3 else alignLog2
    let dataStart := b.addr + b.used + recSizeof
    let alignedStart := alignUp dataStart (2 ^ alignLog2) - dataStart
    if alignedStart = 0 then some (place b tag size alignLog2)
    else
      match addrecFrom fuel b 0 (alignedStart - recSizeof) 0 with
      | none => none
      | some (b, none) => some (b, none)
      | some (b, some _) => some (place b tag size alignLog2)

def addrec (b : State) (tag size alignLog2 : Nat) : Option (State × Option Nat) :=
  addrecFrom 3 b tag size alignLog2

def ensurerec (b : State) (tag size alignLog2 : Nat) : Option (State × Option Nat) :=
  match findrec b tag with
  | none => none
  | some (some rec) =>
    if size ≠ 0 ∧ size ≠ recSize b rec then some (b, none) else some (b, some rec)
  | some none => addrec b tag size alignLog2

/-! ## Resizing -/

def expandBy (old : Nat) (new : Int) : Int := Int.bmod ((new - old + 7) / 8 * 8) (2 ^ 32)

/-- `bloblist_resize_rec`; `none` when `memmove` gets a negative length. -/
def resizeRec (b : State) (rec : Nat) (newSize : Int) : Option (State × Bool) :=
  let size := recSize b rec
  let expand := expandBy size newSize
  let newAlloced := (((b.used + expand + 7) / 8 * 8) % 2 ^ 32).toNat
  if newSize < 0 then some (b, false)
  else if b.total < newAlloced then some (b, false)
  else
    let nextOfs := blobEndOfs b rec
    if nextOfs ≠ b.used ∧ newAlloced < nextOfs then none
    else
      let mem :=
        if nextOfs ≠ b.used then putBytes b.mem (nextOfs + expand).toNat
          (bytesAt b.mem nextOfs (newAlloced - nextOfs))
        else b.mem
      let mem :=
        if 0 < expand then putBytes mem (rec + recHdrSize b rec + size)
          (List.replicate (newSize - size).toNat 0)
        else mem
      some ({ b with used := newAlloced, mem := putBytes mem (rec + 4) (leBytes 4 newSize.toNat) },
        true)

def resize (b : State) (tag : Nat) (newSize : Int) : Option (State × Bool) :=
  match findrec b tag with
  | none => none
  | some none => some (b, false)
  | some (some rec) => resizeRec b rec newSize

/-! ## Calls -/

def new (addr size alignLog2 : Nat) (mem : Mem) : Option State :=
  if size < hdrSize then none
  else if addr % 8 ≠ 0 then none
  else some ⟨addr, if alignLog2 = 0 then 3 else alignLog2, hdrSize, size, mem⟩

inductive Call where
  | add (tag size alignLog2 : Nat)
  | ensure (tag size : Nat)
  | ensureSize (tag size alignLog2 : Nat)
  | resize (tag : Nat) (newSize : Int)
  | fill (tag : Nat) (data : Bytes)

def step (b : State) : Call → Option State
  | .add tag size alignLog2 =>
    match addrec b tag size alignLog2 with
    | some (b, some _) => some b
    | _ => none
  | .ensure tag size =>
    match ensurerec b tag size 0 with
    | some (b, some _) => some b
    | _ => none
  | .ensureSize tag size alignLog2 =>
    match ensurerec b tag size alignLog2 with
    | some (b, some _) => some b
    | _ => none
  | .resize tag newSize =>
    match resize b tag newSize with
    | some (b, true) => some b
    | _ => none
  | .fill tag data =>
    match getBlob b tag with
    | some (some (ofs, size)) =>
      if data.length = size then some { b with mem := putBytes b.mem ofs data } else none
    | _ => none

def run (b : State) : List Call → Option State
  | [] => some b
  | c :: cs => (step b c).bind fun b => run b cs

end MtkBoot.Bloblist
