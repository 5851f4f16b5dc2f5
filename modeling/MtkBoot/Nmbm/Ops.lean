import MtkBoot.Nmbm.Attach

/-! The operations of an attached instance on a range: erasing, writing and reading, each with the
calls it makes for single blocks or pages.  `none` is a run that does not come back. -/

namespace MtkBoot.Nmbm

def unmapBlock (s : Sys) (lb : Nat) : Sys :=
  { s with ni.blockMapping := fun b => if b = lb then -1 else s.ni.blockMapping b }

def dropBlock (s : Sys) (pb : Nat) : Sys :=
  if s.ni.blockState pb ≠ .needRemap then setBlockState s pb .bad else s

/-- The erasure of a mapped block; `false` if the logic block needs another one. -/
def eraseMapped (s : Sys) (pb : Nat) : Bool × Sys :=
  if s.ni.blockState pb = .bad ∨ s.ni.blockState pb = .needRemap then (false, s)
  else
    match checkBadPhysBlock s pb with
    | (true, s) => (false, setBlockState s pb .bad)
    | (false, s) =>
      match eraseBlockAndCheck s pb with
      | (true, s) => (true, s)
      | (false, s) => (false, retireBlock s pb)

/-- `nmbm_erase_logic_block`.  Every retry has taken a block from the top of the spare area. -/
def eraseLogicBlock : Nat → Sys → Nat → Option (Int × Sys)
  | 0, _, _ => none
  | fuel + 1, s, lb =>
    if s.ni.blockMapping lb < 0 then some (-eio, s)
    else
      let pb := (s.ni.blockMapping lb).toNat
      match eraseMapped s pb with
      | (true, s) => some (0, s)
      | (false, s) =>
        match mapBlock s lb with
        | none => none
        | some (false, s) =>
          match updateInfoTable (dropBlock (unmapBlock s lb) pb) with
          | none => none
          | some (_, s) => some (-eio, s)
        | some (true, s) =>
          match updateInfoTable (dropBlock s pb) with
          | none => none
          | some (_, s) => eraseLogicBlock fuel s lb

/-- The loop of `nmbm_erase_block_range` over `n` logic blocks from `lb` up: the blocks it erases,
the result, and the address of the block that failed. -/
def eraseLogicBlocks : Nat → Nat → Sys → List Nat × Option ((Int × Option Nat) × Sys)
  | 0, _, s => ([], some ((0, none), s))
  | n + 1, lb, s =>
    let rest := match eraseLogicBlock (s.ni.mappingBlocksTopBa + 2) s lb with
      | none => ([], none)
      | some (ret, s) =>
        if ret ≠ 0 then ([], some ((ret, some (s.ni.geo.ba2addr lb)), s))
        else eraseLogicBlocks n (lb + 1) s
    (lb :: rest.1, rest.2)

def refuse (ni : Instance) (addr : Nat) : Option Int :=
  if ni.isProtected || ni.lower.readOnly then some (-erofs)
  else if ni.geo.ba2addr ni.dataBlockCount ≤ addr then some (-einval)
  else none

def eraseBlockRange (s : Sys) (addr size : Nat) : List Nat × Option ((Int × Option Nat) × Sys) :=
  match refuse s.ni addr with
  | some ret => ([], some ((ret, none), s))
  | none =>
    if s.ni.geo.ba2addr s.ni.dataBlockCount < u64 (addr + size) then ([], some ((-einval, none), s))
    else if size = 0 then ([], some ((0, none), s))
    else
      let startBa := s.ni.geo.addr2ba addr
      let endBa := s.ni.geo.addr2ba (subU64 (addr + size) 1)
      eraseLogicBlocks (endBa + 1 - startBa) startBa s

/-- `nmbm_write_logic_page` and `nmbm_panic_write_logic_page`. -/
def writeLogicPage (s : Sys) (addr : Nat) (data : Option Mem) : Option (Int × Sys) :=
  let entry := s.ni.blockMapping (s.ni.geo.addr2ba addr)
  let pb := entry.toNat
  if entry < 0 then some (-eio, s)
  else if s.ni.blockState pb = .bad then some (-eio, s)
  else
    match writePhysPage s (s.ni.geo.ba2addr pb + addr % s.ni.geo.erasesize) data with
    | (true, s) => some (0, s)
    | (false, s) =>
      match updateInfoTable (setBlockState s pb .needRemap) with
      | none => none
      | some (_, s) => some (-eio, s)

/-- A call of `nmbm_write_logic_page`: the address, the buffer, and the state before it. -/
structure WriteCall where
  addr : Nat
  page : Mem
  sys : Sys

/-- The page for the first of `data`.  Behind a partial page the page cache keeps what was there. -/
def fillPage (s : Sys) (off : Nat) (data : Bytes) : Mem :=
  let leading := off % s.ni.geo.writesize
  let chunk := data.take (s.ni.geo.writesize - leading)
  fun i =>
    if i < leading then 0xff
    else if i < leading + chunk.length then chunk.getD (i - leading) 0
    else s.ni.pageCache i

/-- A page that is not written whole is put together in the page cache. -/
def stagePage (s : Sys) (off : Nat) (data : Bytes) : Sys :=
  if (data.take (s.ni.geo.writesize - off % s.ni.geo.writesize)).length = s.ni.geo.writesize then s
  else s.cachePage (fillPage s off data)

/-- The loop of `nmbm_write_range`: its calls, the result and the number of bytes left. -/
def writeChunks : Nat → Nat → Bytes → Sys → List WriteCall × Option ((Int × Nat) × Sys)
  | 0, _, data, s => ([], some ((0, data.length), s))
  | fuel + 1, off, data, s =>
    if data = [] then ([], some ((0, 0), s))
    else
      let leading := off % s.ni.geo.writesize
      let chunk := data.take (s.ni.geo.writesize - leading)
      let call : WriteCall := ⟨off - leading, fillPage s off data, stagePage s off data⟩
      let rest := match writeLogicPage call.sys call.addr (some call.page) with
        | none => ([], none)
        | some (ret, s) =>
          if ret ≠ 0 then ([], some ((ret, data.length), s))
          else writeChunks fuel (u64 (off + chunk.length)) (data.drop chunk.length) s
      (call :: rest.1, rest.2)

def writeRange (s : Sys) (addr : Nat) (data : Bytes) :
    List WriteCall × Option ((Int × Option Nat) × Sys) :=
  match refuse s.ni addr with
  | some ret => ([], some ((ret, none), s))
  | none =>
    if s.ni.geo.ba2addr s.ni.dataBlockCount < u64 (addr + data.length) then
      ([], some ((-einval, none), s))
    else if data = [] then ([], some ((0, none), s))
    else
      let (calls, res) := writeChunks data.length addr data s
      (calls, res.map fun ((ret, left), s) => ((ret, some (data.length - left)), s))

/-- `nmbm_read_logic_page`; the buffer is left alone if there is no page to read. -/
def readLogicPage (s : Sys) (addr : Nat) : (Int × Option Mem) × Sys :=
  let entry := s.ni.blockMapping (s.ni.geo.addr2ba addr)
  let pb := entry.toNat
  if entry < 0 then ((-eio, none), s)
  else if s.ni.blockState pb = .bad then ((-eio, none), s)
  else
    match readPhysPage s (s.ni.geo.ba2addr pb + addr % s.ni.geo.erasesize) with
    | (r, s) => ((r.ret, some r.data), s)

/-- What the loop of `nmbm_read_range` has gathered: the bytes, whether a page had an ECC error, and
the largest number of bitflips. -/
structure ReadAcc where
  data : Bytes
  hasEccErr : Bool
  maxBitflips : Int

/-- The loop of `nmbm_read_range` over `left` bytes: the pages it reads, and the error that has
ended it, or zero.  A partial page is read into the page cache. -/
def readChunks : Nat → Nat → Nat → ReadAcc → Sys → List Nat × (Int × ReadAcc) × Sys
  | 0, _, _, acc, s => ([], (0, acc), s)
  | fuel + 1, off, left, acc, s =>
    if left = 0 then ([], (0, acc), s)
    else
      let ws := s.ni.geo.writesize
      let leading := off % ws
      let chunk := min (ws - leading) left
      let rest := match readLogicPage s (off - leading) with
        | ((ret, read), s) =>
          if ret < 0 ∧ ret ≠ -ebadmsg then ([], (ret, acc), s)
          else
            let cache := s.ni.pageCache
            let page := read.getD cache
            let s := if chunk = ws then s
              else s.cachePage fun i => if i < ws then page i else cache i
            readChunks fuel (u64 (off + chunk)) (left - chunk)
              { data := acc.data ++ (List.range chunk).map fun i => page (leading + i)
                hasEccErr := acc.hasEccErr || ret == -ebadmsg
                maxBitflips := max acc.maxBitflips ret } s
      ((off - leading) :: rest.1, rest.2)

def readRange (s : Sys) (addr size : Nat) : List Nat × (Int × Option Bytes) × Sys :=
  if s.ni.isProtected then ([], (-erofs, none), s)
  else if s.ni.geo.ba2addr s.ni.dataBlockCount ≤ addr then ([], (-einval, none), s)
  else if s.ni.geo.ba2addr s.ni.dataBlockCount < u64 (addr + size) then ([], (-einval, none), s)
  else if size = 0 then ([], (0, none), s)
  else
    match readChunks size addr size { data := [], hasEccErr := false, maxBitflips := 0 } s with
    | (calls, (err, acc), s) =>
      (calls, (if err < 0 then err else if acc.hasEccErr then -ebadmsg else acc.maxBitflips,
        some acc.data), s)

end MtkBoot.Nmbm
