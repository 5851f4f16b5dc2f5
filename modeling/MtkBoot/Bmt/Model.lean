import MtkBoot.Lib.Strings
import MtkBoot.Lib.System

/-! Bad block management, version 2.  The first pages of any block are read as a `struct bbbt`. -/

namespace MtkBoot.Bmt

open Lib Function

structure Bbmt where
  block : Nat
  mapped : Nat
  deriving DecidableEq, Repr

def noMapped : Nat := 0
def normalMapped : Nat := 1
def bmtMapped : Nat := 2

/-- `struct bbbt`, with `bmt_tbl` behind `bb_tbl`. -/
structure Bbbt where
  signature : List UInt8
  version : Nat
  bbTbl : Nat → Nat
  bmt : Nat → Bbmt

structure Block where
  bbt : Bbbt
  fdm : List UInt8

def blank : Block :=
  ⟨⟨[255, 255, 255], 255, fun _ => 0xffff, fun _ => ⟨0xffff, 0xffff⟩⟩, [255, 255, 255, 255]⟩

def bufSize (tableSize pgSize : Nat) : Nat := (4 + tableSize * 4 + (pgSize - 1)) / pgSize * pgSize

def bmtSlots (tableSize pgSize : Nat) : Nat := (bufSize tableSize pgSize - (4 + tableSize * 2)) / 4

/-- The chip and its configuration: the tables do not overlap and the pool fits into the buffer. -/
structure Geometry where
  totalBlks : Nat
  poolSize : Nat
  tableSize : Nat
  pgSize : Nat
  /-- `mapping_block_in_range`. -/
  inRange : Nat → Bool
  total_lt : totalBlks < 2 ^ 16
  pool_le : poolSize + 2 ≤ totalBlks
  tbl_fits : totalBlks - poolSize ≤ tableSize
  pool_fits : poolSize < bmtSlots tableSize pgSize

namespace Geometry

variable (g : Geometry)

def pmtBlock : Nat := g.totalBlks - g.poolSize - 2

def poolLba : Nat := g.pmtBlock + 2

def bbMax : Nat := g.totalBlks * 2 / 100

def slots : Nat := bmtSlots g.tableSize g.pgSize

end Geometry

structure State where
  flash : Nat → Block
  bbt : Bbbt
  bmtBlkIdx : Nat

def bmtSig : List UInt8 := ascii "BMT"
def oobSig : List UInt8 := ascii "bmt"

def isValidBmt (b : Block) : Bool :=
  b.bbt.signature = bmtSig && (b.fdm.drop 1).take 3 = oobSig && b.bbt.version = 2

def Bbbt.stored (bbt : Bbbt) (g : Geometry) : Bbbt :=
  { bbt with
    bbTbl := fun i => if i < g.tableSize then bbt.bbTbl i else 0
    bmt := fun i => if i < g.slots then bbt.bmt i else ⟨0, noMapped⟩ }

def bmtIndexFrom (bmt : Nat → Bbmt) : Nat → Nat → Nat
  | 0, _ => 0
  | k + 1, i =>
    if (bmt i).block = 0 then 0
    else if (bmt i).mapped = bmtMapped then i
    else bmtIndexFrom bmt k (i + 1)

def getBmtIndex (g : Geometry) (bbt : Bbbt) : Nat := bmtIndexFrom bbt.bmt g.slots 0

inductive Attempt
  | done
  | eraseFails
  | writeFails (left : Block)

def State.dropBlock (s : State) (n : Nat) : State :=
  { s with bbt := { s.bbt with bmt := update s.bbt.bmt n { s.bbt.bmt n with block := 0 } } }

def State.sign (s : State) : State :=
  { s with bbt := { s.bbt with signature := bmtSig, version := 2 } }

def State.put (s : State) (b : Nat) (left : Block) : State :=
  { s with flash := update s.flash b left }

/-- `upload_bmt` from entry `n - 1` down; -1 is 65535. -/
def uploadBmt (g : Geometry) (attempt : Nat → Attempt) : Nat → State → State
  | 0, s => { s with bmtBlkIdx := 65535 }
  | n + 1, s =>
    if (s.bbt.bmt n).mapped = normalMapped then { s with bmtBlkIdx := 65535 }
    else match attempt n with
      | .eraseFails => uploadBmt g attempt n (s.dropBlock n)
      | .writeFails left =>
        uploadBmt g attempt n ((s.put (s.bbt.bmt n).block left).sign.dropBlock n)
      | .done =>
        { s.sign.put (s.bbt.bmt n).block ⟨s.sign.bbt.stored g, 255 :: oobSig⟩ with bmtBlkIdx := n }

def findValidBlockInPool (s : State) : Option Nat := (List.range s.bmtBlkIdx).find? fun i =>
    (s.bbt.bmt i).block ≠ 0 && (s.bbt.bmt i).mapped = noMapped

/-- What happens in `remap_block_v2`: whether the new block is erased, what the copy leaves in it,
and the writes of the table. -/
structure RemapOutcome where
  erased : Bool
  copied : Block
  attempt : Nat → Attempt

def remapBlockV2 (g : Geometry) (s : State) (block copyLen : Nat) (o : RemapOutcome) :
    State × Bool :=
  match findValidBlockInPool s with
  | none => (s, false)
  | some i =>
    let newBlock := (s.bbt.bmt i).block
    let bbt := { s.bbt with
      bbTbl := update s.bbt.bbTbl block newBlock
      bmt := update s.bbt.bmt i { s.bbt.bmt i with mapped := normalMapped } }
    let s := { s with bbt }
    let s := if o.erased then s.put newBlock blank else s
    let s := if 0 < copyLen then s.put newBlock o.copied else s
    (uploadBmt g o.attempt (s.bmtBlkIdx + 1) s, true)

def mtkBmtRemapBlock (g : Geometry) (s : State) (block copyLen : Nat) (o : RemapOutcome) :
    State × Bool :=
  if g.inRange block then remapBlockV2 g s block copyLen o else (s, false)

def getMappingBlockIndexV2 (g : Geometry) (s : State) (block : Nat) : Nat :=
  if g.poolLba ≤ block then block
  else if g.inRange block then s.bbt.bbTbl block
  else block

/-! ### The operations of the MTD device -/

/-- One round of a loop over blocks: what the operation leaves in the block, whether it succeeds,
and whether the block is remapped all the same. -/
structure Round where
  left : Option Block
  ok : Bool
  remaps : Bool
  copyLen : Nat
  remap : RemapOutcome

def State.leave (s : State) (b : Nat) : Option Block → State
  | some left => s.put b left
  | none => s

/-- The loops try again up to ten times when the block has been remapped. -/
def rounds (g : Geometry) : List Round → Nat → Nat → State → State
  | [], _, _, s => s
  | r :: rs, block, retry, s =>
    if g.pmtBlock ≤ block then s
    else
      let s := s.leave (getMappingBlockIndexV2 g s block) r.left
      if r.ok then
        rounds g rs (block + 1) 0
          (if r.remaps then (mtkBmtRemapBlock g s block r.copyLen r.remap).1 else s)
      else
        let remapped := mtkBmtRemapBlock g s block r.copyLen r.remap
        if remapped.2 && retry < 10 then rounds g rs block (retry + 1) remapped.1 else remapped.1

inductive Op
  /-- Each round reads, and finds too many bitflips or not. -/
  | read (block blkSize : Nat) (rs : List (Bool × Bool × RemapOutcome))
  /-- Each round writes from an offset within its block. -/
  | write (block : Nat) (rs : List (Bool × Block × Nat × RemapOutcome))
  | erase (block : Nat) (rs : List (Bool × RemapOutcome))

def mtkBmtRead (g : Geometry) (s : State) (block blkSize : Nat)
    (rs : List (Bool × Bool × RemapOutcome)) : State :=
  rounds g (rs.map fun r => ⟨none, r.1, r.2.1, blkSize, r.2.2⟩) block 0 s

def mtkBmtWrite (g : Geometry) (s : State) (block : Nat)
    (rs : List (Bool × Block × Nat × RemapOutcome)) : State :=
  rounds g (rs.map fun r => ⟨some r.2.1, r.1, false, r.2.2.1, r.2.2.2⟩) block 0 s

def mtkBmtMtdErase (g : Geometry) (s : State) (block : Nat) (rs : List (Bool × RemapOutcome)) :
    State :=
  rounds g (rs.map fun r => ⟨if r.1 then some blank else none, r.1, false, 0, r.2⟩) block 0 s

def Op.run (g : Geometry) (s : State) : Op → State
  | .read block blkSize rs => mtkBmtRead g s block blkSize rs
  | .write block rs => mtkBmtWrite g s block rs
  | .erase block rs => mtkBmtMtdErase g s block rs

def Op.remaps : Op → List RemapOutcome
  | .read _ _ rs => rs.map fun r => r.2.2
  | .write _ rs => rs.map fun r => r.2.2.2
  | .erase _ rs => rs.map fun r => r.2

/-- `find_valid_block`, which gives up behind `k` more bad blocks. -/
def findValidBlock (totalBlks : Nat) (bad : Nat → Bool) : Nat → Nat → Nat
  | k, block =>
    if totalBlks ≤ block then 0
    else if bad block then
      match k with
      | 0 => 0
      | k + 1 => findValidBlock totalBlks bad k (block + 1)
    else block

def scanTbl (g : Geometry) (bad : Nat → Bool) (bbTbl : Nat → Nat) : Nat → Option (Nat → Nat)
  | 0 => some (update bbTbl 0 0)
  | i + 1 => (scanTbl g bad bbTbl i).bind fun tbl =>
    let next := findValidBlock g.totalBlks bad g.bbMax (tbl i + 1)
    if next = 0 then none else some (update tbl (i + 1) next)

def scanPool (g : Geometry) (bad : Nat → Bool) : Nat → Nat → List Nat
  | 0, _ => []
  | k + 1, block =>
    let next := findValidBlock g.totalBlks bad g.bbMax block
    if next = 0 then [] else next :: scanPool g bad k (next + 1)

def poolTbl (pool : List Nat) (i : Nat) : Bbmt :=
  match pool[i]? with
  | some block => ⟨block, if i + 1 = pool.length then bmtMapped else noMapped⟩
  | none => ⟨0, noMapped⟩

/-- `scan_bad_blocks`; the result is `bb_tbl` and the blocks of the pool. -/
def scanBadBlocks (g : Geometry) (bad : Nat → Bool) (bbTbl : Nat → Nat) :
    Option ((Nat → Nat) × List Nat) :=
  (scanTbl g bad bbTbl (g.poolLba - 1)).bind fun tbl =>
    let poolPba := tbl (g.poolLba - 1) + 1
    if g.totalBlks - 2 ≤ poolPba then none
    else
      let pool := scanPool g bad (g.totalBlks - poolPba) poolPba
      if pool.length < 1 then none else some (tbl, pool)

/-- What happens while the driver attaches: the reads that fail in the search for a table and in the
scan for bad blocks, what the search leaves in the buffer, and the writes of a new table. -/
structure InitOutcome where
  readFails : Nat → Bool
  buf : Bbbt
  scanFails : Nat → Bool
  attempt : Nat → Attempt

/-- The search of `mtk_bmt_init_v2` through the last `k` blocks from `pool_lba` on, from the end. -/
def findBmt (g : Geometry) (flash : Nat → Block) (readFails : Nat → Bool) :
    Nat → Option (Bbbt × Nat)
  | 0 => none
  | k + 1 =>
    let b := flash (g.poolLba + k)
    if readFails (g.poolLba + k) || !isValidBmt b then findBmt g flash readFails k
    else if getBmtIndex g b.bbt = 0 then none
    else some (b.bbt.stored g, getBmtIndex g b.bbt)

/-- A block counts as bad when it cannot be read or its mark is not 0xff. -/
def isBad (flash : Nat → Block) (fails : Nat → Bool) (block : Nat) : Bool :=
  fails block || (flash block).fdm.head? ≠ some 255

def mtkBmtInitV2 (g : Geometry) (flash : Nat → Block) (o : InitOutcome) : Option State :=
  match findBmt g flash o.readFails (g.totalBlks - g.poolLba) with
  | some (bbt, idx) => some ⟨flash, bbt, idx⟩
  | none =>
    if g.tableSize + g.tableSize * 2 / 100 < g.totalBlks then none
    else (scanBadBlocks g (isBad flash o.scanFails) o.buf.bbTbl).bind fun scan =>
      let s := uploadBmt g o.attempt scan.2.length
        ⟨flash, { o.buf with bbTbl := scan.1, bmt := poolTbl scan.2 }, scan.2.length - 1⟩
      if s.bmtBlkIdx = 65535 then none else some s

def freeBlocks (bbt : Bbbt) (idx : Nat) : List Nat := (List.range idx).filterMap fun i =>
    if (bbt.bmt i).block ≠ 0 ∧ (bbt.bmt i).mapped = noMapped then some (bbt.bmt i).block else none

end MtkBoot.Bmt
