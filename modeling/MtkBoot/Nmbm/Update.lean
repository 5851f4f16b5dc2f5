import MtkBoot.Nmbm.Write

/-! Building the two info tables, rescuing the main one, updating both, and mapping a logic block to
a spare block from the top of the management area. -/

namespace MtkBoot.Nmbm

def markTablesClean (s : Sys) : Sys :=
  { s with ni.blockStateChanged := 0, ni.blockMappingChanged := 0 }

def Sys.place (s : Sys) (mainTableBa backupTableBa mappingBlocksBa : Nat) : Sys :=
  { s with
    ni.mainTableBa := mainTableBa
    ni.backupTableBa := backupTableBa
    ni.mappingBlocksBa := mappingBlocksBa }

def Sys.protect (s : Sys) : Sys := { s with ni.isProtected := true }

def reserveSpare (ni : Instance) (ba : Nat) : Option Nat :=
  tryReserveBlocks ni ba (subU32 ni.mappingBlocksTopBa ni.geo.tableBlocks) ni.geo.spareBlocks

def rebuildInfoTable (s : Sys) : Bool × Sys :=
  let s := s.place 0 0 s.ni.mappingBlocksTopBa
  match writeInfoTable s s.ni.mgmtStartBa s.ni.mappingBlocksTopBa with
  | (none, s) => (false, s.protect)
  | (some (start, mainEnd), s) =>
    let s := markTablesClean (s.place start 0 mainEnd)
    match reserveSpare s.ni mainEnd with
    | none => (true, s)
    | some next =>
      match writeInfoTable s next s.ni.mappingBlocksTopBa with
      | (none, s) => (true, s)
      | (some (backup, stop), s) => (true, eraseRange (s.place start backup stop) mainEnd backup)

/-- An info table written at `ba` or, when that fails, at one of the `n` blocks below it.  The
loops of the source end at `mapping_blocks_ba`, which is never block zero. -/
def writeInfoTableDown : Nat → Nat → Sys → Option (Nat × Nat) × Sys
  | 0, ba, s => writeInfoTable s ba s.ni.mappingBlocksTopBa
  | n + 1, ba, s =>
    match writeInfoTable s ba s.ni.mappingBlocksTopBa with
    | (some table, s) => (some table, s)
    | (none, s) => writeInfoTableDown n (ba - 1) s

/-- The end of `nmbm_rescue_main_info_table`, for a new main table that has grown over the
temporary one. -/
def rewriteBackup (s : Sys) (mainEnd : Nat) : Bool × Sys :=
  let main := s.ni.mainTableBa
  let s := s.place main s.ni.backupTableBa mainEnd
  match reserveSpare s.ni mainEnd with
  | none => (true, s.place main 0 mainEnd)
  | some ba =>
    match writeInfoTableDown (ba - mainEnd) ba s with
    | (none, s) => (true, s.place main 0 mainEnd)
    | (some (start, stop), s) => (true, eraseRange (s.place main start stop) mainEnd start)

/-- `nmbm_rescue_main_info_table`.  Without a temporary table the backup table becomes the main
table. -/
def rescueMainInfoTable (s : Sys) : Bool × Sys :=
  let main := s.ni.mainTableBa
  let backup := s.ni.backupTableBa
  match reserveSpare s.ni s.ni.mappingBlocksBa with
  | none => (true, s.place backup 0 s.ni.mappingBlocksBa)
  | some ba =>
    match writeInfoTableDown (ba - s.ni.mappingBlocksBa) ba s with
    | (none, s) => (true, s.place backup 0 s.ni.mappingBlocksBa)
    | (some (tmpStart, tmpEnd), s) =>
      let s := s.place main backup tmpEnd
      match writeInfoTable s s.ni.mgmtStartBa tmpStart with
      | (none, s) => (true, markTablesClean (s.place tmpStart 0 tmpEnd))
      | (some (mainStart, mainEnd), s) =>
        let s := markTablesClean (s.place mainStart backup tmpEnd)
        if mainEnd ≤ tmpStart then (true, s.place mainStart tmpStart tmpEnd)
        else rewriteBackup s mainEnd

/-- `nmbm_update_info_table_once` from `write_main_table` on. -/
def writeMainTable (s : Sys) (limit : Nat) : Bool × Sys :=
  let backup := s.ni.backupTableBa
  if s.ni.mainTableBa = 0 then rebuildInfoTable s
  else
    match writeInfoTable s s.ni.mainTableBa limit with
    | (none, s) => if backup = 0 then rebuildInfoTable s else rescueMainInfoTable s
    | (some (start, stop), s) =>
      (true,
        markTablesClean (s.place start backup (if backup = 0 then stop else s.ni.mappingBlocksBa)))

def updateInfoTableOnce (s : Sys) (force : Bool) : Bool × Sys :=
  match generateInfoTableCache s with
  | (changed, s) =>
    let main := s.ni.mainTableBa
    let backup := s.ni.backupTableBa
    if !changed && !force then (true, s)
    else if backup = 0 then writeMainTable s s.ni.mappingBlocksTopBa
    else
      match writeInfoTable s backup s.ni.mappingBlocksTopBa with
      | (none, s) => writeMainTable (s.place main 0 backup) s.ni.mappingBlocksTopBa
      | (some (start, stop), s) => writeMainTable (markTablesClean (s.place main start stop)) start

/-- The loop of `nmbm_update_info_table`; `none` if it has not ended. -/
def updateLoop : Nat → Sys → Option (Bool × Sys)
  | 0, _ => none
  | fuel + 1, s =>
    if s.ni.blockStateChanged = 0 ∧ s.ni.blockMappingChanged = 0 then some (true, s)
    else
      match updateInfoTableOnce s false with
      | (false, s) => some (false, s)
      | (true, s) => updateLoop fuel s

/-- `nmbm_update_info_table`.  Every further round has found a new bad block. -/
def updateInfoTable (s : Sys) : Option (Bool × Sys) :=
  if s.ni.isProtected then some (true, s) else updateLoop (s.ni.geo.blockCount + 2) s

def mapBlock (s : Sys) (lb : Nat) : Option (Bool × Sys) :=
  let top := s.ni.mappingBlocksTopBa
  if s.ni.mappingBlocksBa = top then some (false, s)
  else
    match blockWalkDesc s.ni top 0 s.ni.mappingBlocksBa with
    | none =>
      match updateInfoTable s with
      | none => none
      | some (_, s) => some (false, { s with ni.mappingBlocksTopBa := s.ni.mappingBlocksBa })
    | some pb =>
      some (true, { s with
        ni.blockMapping := fun b => if b = lb then (pb : Int) else s.ni.blockMapping b
        ni.mappingBlocksTopBa := top - 1
        ni.blockMappingChanged := s.ni.blockMappingChanged + 1 })

end MtkBoot.Nmbm
