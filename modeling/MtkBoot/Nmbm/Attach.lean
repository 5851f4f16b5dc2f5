import MtkBoot.Nmbm.Update

/-! Parts of attaching to a lower device: numbering the good blocks, and checking and taking an info
table that has been read into the cache. -/

namespace MtkBoot.Nmbm

open MtkBoot.Lib

def mapGood (state : Nat → BlockState) : Nat → Nat → Nat → (Nat → Int) → Nat × (Nat → Int)
  | 0, _, lb, mapping => (lb, mapping)
  | n + 1, pb, lb, mapping =>
    if state pb = .bad then mapGood state n (pb + 1) lb mapping
    else mapGood state n (pb + 1) (lb + 1) fun b => if b = lb then (pb : Int) else mapping b

def buildMappingTable (s : Sys) : Sys :=
  let built := mapGood s.ni.blockState s.ni.mgmtStartBa 0 0 s.ni.blockMapping
  { s with
    ni.dataBlockCount := built.1
    ni.blockMapping := fun lb =>
      if built.1 ≤ lb ∧ lb < s.ni.geo.blockCount then -1 else built.2 lb }

/-- The mapping entries from `lb` on checked against the table's end; the lowest remapped block. -/
def checkMapping (entry : Nat → Nat) (dataBlockCount endBa signatureBa : Nat) :
    Nat → Nat → Nat → Option Nat
  | 0, _, low => some low
  | n + 1, lb, low =>
    let e := entry lb
    if (dataBlockCount ≤ e ∧ e < endBa) ∨ e = signatureBa then none
    else
      checkMapping entry dataBlockCount endBa signatureBa n (lb + 1)
        (if endBa ≤ e ∧ e < low then e else low)

/-- `nmbm_check_info_table`: the block below the lowest remapped one. -/
def checkInfoTable (ni : Instance) (startBa endBa : Nat) (data : Bytes) : Option Nat :=
  let h := InfoHeader.decode data
  let entry lb := le32 data (h.mappingTableOff + 4 * lb)
  match checkMapping entry ni.dataBlockCount endBa ni.signatureBa ni.dataBlockCount 0
      ni.signatureBa with
  | none => none
  | some low =>
    if (List.range' startBa (endBa - startBa)).all fun ba =>
        ni.blockState ba != .good || stateAt data h.stateTableOff ba == .good
    then some (subU32 low 1)
    else none

def takeTables (s : Sys) : Sys :=
  let data := s.ni.infoTableCache
  let h := InfoHeader.decode data
  { s with
    ni.infoTable := h
    ni.blockState := fun ba =>
      if ba < 4 * s.ni.geo.stateTableSize then stateAt data h.stateTableOff ba
      else s.ni.blockState ba
    ni.blockMapping := fun lb =>
      if lb < s.ni.geo.blockCount then mappingAt data h.mappingTableOff lb
      else s.ni.blockMapping lb }

end MtkBoot.Nmbm
