import MtkBoot.Nmbm.Device

/-! The image NMBM keeps on flash: the header with its checksum, the block state table and the block
mapping table. -/

namespace MtkBoot.Nmbm

open MtkBoot.Lib

def magicInfoTable : Nat := 0x314d4d4e

def nmbmVer : Nat := 1

def checkHeader (data : Bytes) (size : Nat) : Bool :=
  let hsize := le32 data 8
  let nhdr := splice (data.take 16) 12 (leBytes 4 0)
  let crc := crc32 0 nhdr
  decide (hsize ≤ size) &&
    le32 data 12 == if 16 < hsize then crc32 crc (field data 16 (hsize - 16)) else crc

def updateChecksum (data : Bytes) : Bytes :=
  let zeroed := splice data 12 (leBytes 4 0)
  splice zeroed 12 (leBytes 4 (crc32 0 (zeroed.take (le32 zeroed 8))))

def BlockState.code : BlockState → Nat
  | .bad => 0
  | .reserved => 1
  | .needRemap => 2
  | .good => 3

def BlockState.ofCode : Nat → BlockState
  | 0 => .bad
  | 1 => .reserved
  | 2 => .needRemap
  | _ => .good

def stateBytes (state : Nat → BlockState) (len : Nat) : Bytes :=
  (List.range len).map fun j => UInt8.ofNat <| (state (4 * j)).code +
    4 * (state (4 * j + 1)).code + 16 * (state (4 * j + 2)).code + 64 * (state (4 * j + 3)).code

/-- `nmbm_get_block_state_raw` on the bitmap at `off`. -/
def stateAt (data : Bytes) (off ba : Nat) : BlockState :=
  .ofCode ((data.getD (off + ba / 4) 0).toNat / 4 ^ (ba % 4) % 4)

def entryWord (e : Int) : Nat := (e % 2 ^ 32).toNat

def wordEntry (n : Nat) : Int := if n < 2 ^ 31 then n else n - 2 ^ 32

def mappingBytes (mapping : Nat → Int) (count : Nat) : Bytes :=
  words ((List.range count).map fun lb => entryWord (mapping lb))

def mappingAt (data : Bytes) (off lb : Nat) : Int := wordEntry (le32 data (off + 4 * lb))

/-! ### The header of an info table -/

def InfoHeader.encode (h : InfoHeader) : Bytes :=
  words [h.magic, h.version, h.size, h.checksum, h.writeCount, h.stateTableOff, h.mappingTableOff,
    h.padding]

def InfoHeader.decode (data : Bytes) : InfoHeader :=
  { magic := le32 data 0
    version := le32 data 4
    size := le32 data 8
    checksum := le32 data 12
    writeCount := le32 data 16
    stateTableOff := le32 data 20
    mappingTableOff := le32 data 24
    padding := le32 data 28 }

def checkInfoTableHeader (g : Geometry) (data : Bytes) : Bool :=
  let h := InfoHeader.decode data
  h.magic == magicInfoTable && h.size == g.infoTableSize &&
    decide (g.stateTableSize ≤ subU32 h.mappingTableOff h.stateTableOff) &&
    decide (g.mappingTableSize ≤ subU32 g.infoTableSize h.mappingTableOff)

/-- The image of an info table, with its checksum. -/
def infoImage (g : Geometry) (h : InfoHeader) (state : Nat → BlockState) (mapping : Nat → Int) :
    Bytes :=
  let blank := List.replicate g.infoTableSize (0xff : UInt8)
  let cache := splice blank h.stateTableOff (stateBytes state g.stateTableSize)
  let cache := splice cache h.mappingTableOff (mappingBytes mapping g.blockCount)
  updateChecksum (splice cache 0 h.encode)

def generateInfoTableCache (s : Sys) : Bool × Sys :=
  let ni := s.ni
  let changed := decide (ni.blockStateChanged ≠ 0 ∨ ni.blockMappingChanged ≠ 0)
  let h := { ni.infoTable with
    magic := magicInfoTable
    version := nmbmVer
    size := ni.geo.infoTableSize
    writeCount := if changed then u32 (ni.infoTable.writeCount + 1) else ni.infoTable.writeCount }
  (changed,
    { s with
      ni.infoTable := h
      ni.infoTableCache := infoImage ni.geo h ni.blockState ni.blockMapping })

/-! ### What an image says -/

@[simp] theorem length_stateBytes (state : Nat → BlockState) (len : Nat) :
    (stateBytes state len).length = len := by simp [stateBytes]

@[simp] theorem length_mappingBytes (mapping : Nat → Int) (count : Nat) :
    (mappingBytes mapping count).length = 4 * count := by simp [mappingBytes]

@[simp] theorem length_encode (h : InfoHeader) : h.encode.length = 32 := by simp [InfoHeader.encode]

end MtkBoot.Nmbm
