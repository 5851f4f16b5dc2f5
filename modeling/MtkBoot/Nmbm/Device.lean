import MtkBoot.Base
import MtkBoot.Lib.Bytes

/-! The lower NAND device of NMBM (NAND mapped-block management), the instance, and the device calls
with their retries.  The chip is a flash memory together with the outcomes of all future calls. -/

namespace MtkBoot.Nmbm

/-- `struct nmbm_lower_device`: two of its flags, the geometry and which optional callbacks are
given. -/
structure Lower where
  emptyPageEccOk : Bool
  readOnly : Bool
  size : Nat
  erasesize : Nat
  writesize : Nat
  hasIsBadBlock : Bool
  hasMarkBadBlock : Bool
  deriving Repr

/-- The sizes that `nmbm_init_structure` derives from a lower device.  A block is made of whole
pages, and the size of an info table fits in 32 bits. -/
structure Geometry where
  erasesize : Nat
  writesize : Nat
  pages : Nat
  blockCount : Nat
  stateTableSize : Nat
  mappingTableSize : Nat
  stateTableOff : Nat
  mappingTableOff : Nat
  infoTableSize : Nat
  writesize_pos : 0 < writesize
  pages_pos : 0 < pages
  erasesize_eq : erasesize = writesize * pages
  header_le : 32 ≤ stateTableOff
  state_le : stateTableOff + stateTableSize ≤ mappingTableOff
  mapping_le : mappingTableOff + mappingTableSize ≤ infoTableSize
  state_size : blockCount ≤ 4 * stateTableSize
  mapping_size : mappingTableSize = 4 * blockCount
  info_lt : infoTableSize < 2 ^ 32

def align (v a : Nat) : Nat := (v + a - 1) / a * a

theorem le_align (v : Nat) {a : Nat} (h : 0 < a) : v ≤ align v a := by
  unfold align
  have := Nat.div_add_mod (v + a - 1) a
  have := Nat.mod_lt (v + a - 1) h
  have : a * ((v + a - 1) / a) = (v + a - 1) / a * a := mul_comm _ _
  omega

/-- The sizes of `nmbm_init_structure`; none when the info table does not fit in 32 bits or a block
is not made of whole pages. -/
def Lower.geometry (nld : Lower) : Option Geometry :=
  let blockCount := nld.size / nld.erasesize
  let stateTableSize := (blockCount + 15) / 16 * 4
  let stateTableOff := align 32 nld.writesize
  let mappingTableOff := stateTableOff + align stateTableSize nld.writesize
  let infoTableSize := mappingTableOff + align (4 * blockCount) nld.writesize
  if h : 0 < nld.writesize ∧ 0 < nld.erasesize / nld.writesize ∧
      nld.erasesize = nld.writesize * (nld.erasesize / nld.writesize) ∧
      infoTableSize < 2 ^ 32 then
    some
      { erasesize := nld.erasesize
        writesize := nld.writesize
        pages := nld.erasesize / nld.writesize
        blockCount, stateTableSize, stateTableOff, mappingTableOff, infoTableSize
        mappingTableSize := 4 * blockCount
        writesize_pos := h.1
        pages_pos := h.2.1
        erasesize_eq := h.2.2.1
        header_le := le_align 32 h.1
        state_le := Nat.add_le_add_left (le_align _ h.1) _
        mapping_le := Nat.add_le_add_left (le_align _ h.1) _
        state_size := by omega
        mapping_size := rfl
        info_lt := h.2.2.2 }
  else none

namespace Geometry

theorem erasesize_pos (g : Geometry) : 0 < g.erasesize := by
  rw [g.erasesize_eq]
  exact Nat.mul_pos g.writesize_pos g.pages_pos

theorem div_erasesize_of_page (g : Geometry) {i j : Nat} (h : i / g.writesize = j / g.writesize) :
    i / g.erasesize = j / g.erasesize := by
  rw [g.erasesize_eq, ← Nat.div_div_eq_div_mul, ← Nat.div_div_eq_div_mul, h]

def size2blk (g : Geometry) (size : Nat) : Nat := (size + g.erasesize - 1) / g.erasesize

def tableBlocks (g : Geometry) : Nat := g.size2blk g.infoTableSize

def spareBlocks (g : Geometry) : Nat := max ((g.tableBlocks + 1) / 2) 2

def ba2addr (g : Geometry) (ba : Nat) : Nat := ba * g.erasesize

def addr2ba (g : Geometry) (addr : Nat) : Nat := u32 (addr / g.erasesize)

end Geometry

inductive BlockState where
  | bad
  | reserved
  | needRemap
  | good
  deriving DecidableEq, Repr

structure InfoHeader where
  magic : Nat
  version : Nat
  size : Nat
  checksum : Nat
  writeCount : Nat
  stateTableOff : Nat
  mappingTableOff : Nat
  padding : Nat
  deriving DecidableEq, Repr

/-- `struct nmbm_instance`. -/
structure Instance where
  lower : Lower
  geo : Geometry
  infoTableCache : Bytes
  infoTable : InfoHeader
  blockState : Nat → BlockState
  blockStateChanged : Nat
  blockMapping : Nat → Int
  blockMappingChanged : Nat
  pageCache : Mem
  isProtected : Bool
  dataBlockCount : Nat
  mgmtStartBa : Nat
  mainTableBa : Nat
  backupTableBa : Nat
  mappingBlocksBa : Nat
  mappingBlocksTopBa : Nat
  signatureBa : Nat

/-- What a call of the lower device does.  `store` is what an erase or a program leaves behind
(`none`: what it was asked to store), `data` and `oob` what a failed read leaves in its buffers. -/
structure Outcome where
  ret : Int
  bad : Nat → Bool
  store : Option Mem
  data : Mem
  oob : Nat → Mem

/-- The chip: the bytes of all pages, and the outcome of every call. -/
structure Chip where
  data : Mem
  fate : Nat → Outcome
  calls : Nat

/-- An instance on a chip, and the flash after every call, which no code reads. -/
structure Sys where
  ni : Instance
  chip : Chip
  flashes : List Mem

def Instance.zeroed (nld : Lower) (geo : Geometry) : Instance where
  lower := nld
  geo := geo
  infoTableCache := []
  infoTable := ⟨0, 0, 0, 0, 0, 0, 0, 0⟩
  blockState := fun _ => .bad
  blockStateChanged := 0
  blockMapping := fun _ => 0
  blockMappingChanged := 0
  pageCache := fun _ => 0
  isProtected := false
  dataBlockCount := 0
  mgmtStartBa := 0
  mainTableBa := 0
  backupTableBa := 0
  mappingBlocksBa := 0
  mappingBlocksTopBa := 0
  signatureBa := 0

namespace Sys

def start (nld : Lower) (geo : Geometry) (chip : Chip) : Sys :=
  { ni := .zeroed nld geo, chip, flashes := [] }

def outcome (s : Sys) : Outcome := s.chip.fate s.chip.calls

def tick (s : Sys) : Sys := { s with chip.calls := s.chip.calls + 1 }

def flash (s : Sys) (data : Mem) : Sys :=
  { s with chip.data := data, flashes := data :: s.flashes }

def cachePage (s : Sys) (page : Mem) : Sys := { s with ni.pageCache := page }

end Sys

/-! ### Calls of the lower device -/

def tryCount : Nat := 3

structure ReadResult where
  ret : Int
  data : Mem
  oob : Mem

/-- `read_page`: a read that succeeds delivers what the page holds. -/
def readPage (s : Sys) (addr : Nat) : ReadResult × Sys :=
  let ws := s.ni.geo.writesize
  ({ ret := s.outcome.ret
     data := if 0 ≤ s.outcome.ret then fun i => s.chip.data (addr / ws * ws + i)
       else s.outcome.data
     oob := s.outcome.oob addr }, s.tick)

def readTries : Nat → Sys → Nat → ReadResult × Sys
  | 0, s, addr => readPage s addr
  | n + 1, s, addr =>
    match readPage s addr with
    | (r, s) => if 0 ≤ r.ret then (r, s) else readTries n s addr

def readPhysPage (s : Sys) (addr : Nat) : ReadResult × Sys := readTries (tryCount - 1) s addr

/-- `write_page` and `panic_write_page`; without `data` only the spare area is written. -/
def writePage (addr : Nat) (data : Option Mem) (s : Sys) : Int × Sys :=
  let ws := s.ni.geo.writesize
  let page := s.outcome.store.getD (data.getD fun i => s.chip.data (addr / ws * ws + i))
  (s.outcome.ret, s.tick.flash fun i => if i / ws = addr / ws then page (i % ws) else s.chip.data i)

def eraseBlock (addr : Nat) (s : Sys) : Int × Sys :=
  let es := s.ni.geo.erasesize
  let block := s.outcome.store.getD fun _ => 0xff
  (s.outcome.ret,
    s.tick.flash fun i => if i / es = addr / es then block (i % es) else s.chip.data i)

def retry (call : Sys → Int × Sys) : Nat → Sys → Bool × Sys
  | 0, s => (false, s)
  | n + 1, s =>
    match call s with
    | (ret, s) => if ret = 0 then (true, s) else retry call n s

/-- `nmbm_write_phys_page`, and `nmbm_panic_write_phys_page` on its own callback. -/
def writePhysPage (s : Sys) (addr : Nat) (data : Option Mem) : Bool × Sys :=
  if s.ni.lower.readOnly then (false, s) else retry (writePage addr data) tryCount s

def erasePhysBlock (s : Sys) (addr : Nat) : Bool × Sys :=
  if s.ni.lower.readOnly then (false, s) else retry (eraseBlock addr) tryCount s

def checkBadPhysBlock (s : Sys) (ba : Nat) : Bool × Sys :=
  if s.ni.lower.hasIsBadBlock then (s.outcome.bad ba, s.tick)
  else
    match readPhysPage s (s.ni.geo.ba2addr ba) with
    | (r, s) =>
      let ws := s.ni.geo.writesize
      (decide (r.ret < 0 ∧ r.ret ≠ -ebadmsg) || r.oob 0 != 0xff,
        s.cachePage fun i => if ws ≤ i then r.oob (i - ws) else s.ni.pageCache i)

/-- The pages of a block from page `k` on written with zeros, whatever comes of it. -/
def zeroPages (ba : Nat) : Nat → Nat → Sys → Sys
  | 0, _, s => s
  | n + 1, k, s =>
    let addr := s.ni.geo.ba2addr ba + k * s.ni.geo.writesize
    zeroPages ba n (k + 1) (writePhysPage s addr (some fun _ => 0)).2

/-- `nmbm_mark_phys_bad_block`; no caller looks at its result. -/
def markPhysBadBlock (s : Sys) (ba : Nat) : Sys :=
  if s.ni.lower.readOnly then s
  else if s.ni.lower.hasMarkBadBlock then
    let es := s.ni.geo.erasesize
    let block := s.outcome.store.getD fun i => s.chip.data (ba * es + i)
    s.tick.flash fun i => if i / es = ba then block (i % es) else s.chip.data i
  else zeroPages ba s.ni.geo.pages 0 (s.cachePage fun _ => 0)

/-! ### A small chip -/

/-- Sixteen blocks of four pages of 64 bytes, twelve of them for the management. -/
def smallLower : Lower where
  emptyPageEccOk := false
  readOnly := false
  size := 4096
  erasesize := 256
  writesize := 64
  hasIsBadBlock := true
  hasMarkBadBlock := true

def smallGeometry : Geometry := smallLower.geometry.get (by decide)

def succeeding (bad : Nat → Bool) : Outcome :=
  { ret := 0, bad, store := none, data := fun _ => 0, oob := fun _ _ => 0xff }

def smallInstance : Instance :=
  { Instance.zeroed smallLower smallGeometry with
    blockState := fun _ => .good
    blockMapping := fun lb => if lb < 4 then lb else -1
    dataBlockCount := 4
    mgmtStartBa := 4
    signatureBa := 15 }

def smallSys : Sys :=
  { Sys.start smallLower smallGeometry
      { data := fun _ => 0xff, fate := fun _ => succeeding fun _ => false, calls := 0 } with
    ni := smallInstance }

end MtkBoot.Nmbm
