import MtkBoot.Nmbm.Table

/-! Block states, and the functions that write management data: it goes to the next good blocks,
every page is read back, and a block that fails is marked bad. -/

namespace MtkBoot.Nmbm

open MtkBoot.Lib

def setBlockState (s : Sys) (ba : Nat) (state : BlockState) : Sys :=
  { s with
    ni.blockState := fun b => if b = ba then state else s.ni.blockState b
    ni.blockStateChanged :=
      if s.ni.blockState ba = state then s.ni.blockStateChanged else s.ni.blockStateChanged + 1 }

/-- The first good block after `count` good ones among `n` blocks from `ba` up. -/
def walkUp (state : Nat → BlockState) : Nat → Nat → Nat → Option Nat
  | 0, _, _ => none
  | n + 1, ba, count =>
    if state ba = .good then
      match count with
      | 0 => some ba
      | count + 1 => walkUp state n (ba + 1) count
    else walkUp state n (ba + 1) count

def walkDown (state : Nat → BlockState) : Nat → Nat → Nat → Option Nat
  | 0, _, _ => none
  | n + 1, ba, count =>
    if state ba = .good then
      match count with
      | 0 => some ba
      | count + 1 => walkDown state n (ba - 1) count
    else walkDown state n (ba - 1) count

def walkLimit (ni : Instance) (limit : Nat) : Nat := min limit (ni.geo.blockCount - 1)

def blockWalkAsc (ni : Instance) (ba count limit : Nat) : Option Nat :=
  walkUp ni.blockState (walkLimit ni limit - ba) ba count

def blockWalkDesc (ni : Instance) (ba count limit : Nat) : Option Nat :=
  walkDown ni.blockState (ba - walkLimit ni limit) ba count

def tryReserveBlocks (ni : Instance) (ba limit : Nat) : Nat → Option Nat
  | 0 => blockWalkAsc ni ba 0 limit
  | count + 1 =>
    match blockWalkAsc ni ba (count + 1) limit with
    | some nba => some nba
    | none => tryReserveBlocks ni ba limit count

/-- The pages of a block from page `k` on read; whether none has too many bitflips. -/
def checkPages (ba : Nat) : Nat → Nat → Sys → Bool × Sys
  | 0, _, s => (true, s)
  | n + 1, k, s =>
    match readPhysPage s (s.ni.geo.ba2addr ba + k * s.ni.geo.writesize) with
    | (r, s) =>
      if r.ret = -ebadmsg then (false, s.cachePage r.data)
      else checkPages ba n (k + 1) (s.cachePage r.data)

def eraseBlockAndCheck (s : Sys) (ba : Nat) : Bool × Sys :=
  match erasePhysBlock s (s.ni.geo.ba2addr ba) with
  | (false, s) => (false, s)
  | (true, s) => if s.ni.lower.emptyPageEccOk then checkPages ba s.ni.geo.pages 0 s else (true, s)

def retireBlock (s : Sys) (ba : Nat) : Sys := setBlockState (markPhysBadBlock s ba) ba .bad

/-- One block in the loops that write management data: if good and unmarked it is erased and
written, and retired if that fails. -/
def tryBlock (write : Sys → Bool × Sys) (s : Sys) (ba : Nat) : Bool × Sys :=
  if s.ni.blockState ba ≠ .good then (false, s)
  else
    match checkBadPhysBlock s ba with
    | (true, s) => (false, setBlockState s ba .bad)
    | (false, s) =>
      match eraseBlockAndCheck s ba with
      | (false, s) => (false, retireBlock s ba)
      | (true, s) =>
        match write s with
        | (true, s) => (true, s)
        | (false, s) => (false, retireBlock s ba)

def eraseBlocks : Nat → Nat → Sys → Sys
  | 0, _, s => s
  | n + 1, ba, s => eraseBlocks n (ba + 1) (tryBlock (fun s => (true, s)) s ba).2

def eraseRange (s : Sys) (ba limit : Nat) : Sys := eraseBlocks (limit - ba) ba s

/-! ### Writing data -/

def writeVerify : Nat → Nat → Bytes → Sys → Bool × Sys
  | 0, _, _, s => (true, s)
  | fuel + 1, off, data, s =>
    if data = [] then (true, s)
    else
      let ws := s.ni.geo.writesize
      let leading := off % ws
      let chunk := data.take (ws - leading)
      let page : Mem := fun i =>
        if leading ≤ i ∧ i < leading + chunk.length then chunk.getD (i - leading) 0 else 0xff
      match writePhysPage (s.cachePage page) (off - leading) (some page) with
      | (false, s) => (false, s)
      | (true, s) =>
        match readPhysPage s (off - leading) with
        | (r, s) =>
          if r.ret < 0 then (false, s.cachePage r.data)
          else if bytesAt r.data leading chunk.length ≠ chunk then (false, s.cachePage r.data)
          else
            writeVerify fuel (off + chunk.length) (data.drop chunk.length) (s.cachePage r.data)

/-- `nmbm_write_mgmt_range` over `n` blocks from `ba` up, with `data` still to be written and
`start` the block of its beginning, once there is one. -/
def writeMgmtFrom : Nat → Nat → Bytes → Option Nat → Sys → Option (Nat × Nat) × Sys
  | 0, ba, data, start, s => (if data = [] then some (start.getD 0, ba) else none, s)
  | n + 1, ba, data, start, s =>
    if data = [] then (some (start.getD 0, ba), s)
    else
      let chunk := data.take s.ni.geo.erasesize
      let write := writeVerify chunk.length (s.ni.geo.ba2addr ba) chunk
      match tryBlock write s ba with
      | (true, s) =>
        writeMgmtFrom n (ba + 1) (data.drop chunk.length) (some (start.getD ba)) s
      | (false, s) => writeMgmtFrom n (ba + 1) data start s

/-- `nmbm_write_mgmt_range`: the first block written and the block after the last. -/
def writeMgmtRange (s : Sys) (ba limit : Nat) (data : Bytes) : Option (Nat × Nat) × Sys :=
  writeMgmtFrom (limit - ba) ba data none s

def writeInfoTable (s : Sys) (ba limit : Nat) : Option (Nat × Nat) × Sys :=
  writeMgmtRange s ba limit s.ni.infoTableCache

end MtkBoot.Nmbm
