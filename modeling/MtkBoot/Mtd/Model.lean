import MtkBoot.Base

/-! Writing an image to an MTD partition and reading it, passing over bad blocks.  Addresses are
offsets in the partition.  A failed operation is its error code. -/

namespace MtkBoot.Mtd

/-- `struct mtd_info`; `isBad` is what `mtd_block_isbad` returns for the block of that number. -/
structure MtdInfo where
  size : Nat
  erasesizeShift : Nat
  writesizeShift : Nat
  isBad : Nat → Int
  writesize_le : writesizeShift ≤ erasesizeShift
  size_aligned : 2 ^ erasesizeShift ∣ size

structure Io where
  erase : Nat → Int
  write : Nat → Int
  read : Nat → Int

def MtdInfo.erasesize (m : MtdInfo) : Nat := 2 ^ m.erasesizeShift

def MtdInfo.writesize (m : MtdInfo) : Nat := 2 ^ m.writesizeShift

def MtdInfo.bad (m : MtdInfo) (b : Nat) : Bool := m.isBad b ≠ 0

def erased (f : Mem) (addr len : Nat) : Mem :=
  fun a => if addr ≤ a ∧ a < addr + len then 0xff else f a

def programmed (f : Mem) (addr len : Nat) (src : Mem) : Mem :=
  fun a => if addr ≤ a ∧ a < addr + len then f a &&& src (a - addr) else f a

def copied (mem : Mem) (dst len : Nat) (src : Mem) : Mem :=
  fun a => if dst ≤ a ∧ a < dst + len then src (a - dst) else mem a

def checkDataSize (totalSize offset maxSize size : Nat) : Int :=
  if totalSize < offset ∨ size > totalSize - offset then -einval
  else if maxSize = 0 ∨ size ≤ maxSize then 0
  else -einval

section

variable (m : MtdInfo) (io : Io)

/-- The loop of `mtd_erase_skip_bad`: the length that is left, and the flash. -/
def eraseLoop (limit : Nat) : Nat → Nat → Nat → Mem → Except Int (Nat × Mem)
  | 0, _, len, f => .ok (len, f)
  | fuel + 1, start, len, f =>
    if len ≠ 0 ∧ start < limit then
      let ret := m.isBad (start / m.erasesize)
      if ret < 0 then .error ret
      else if ret ≠ 0 then eraseLoop limit fuel (start + m.erasesize) len f
      else
        let ret := io.erase start
        if ret ≠ 0 then .error ret
        else eraseLoop limit fuel (start + m.erasesize) (len - m.erasesize)
          (erased f start m.erasesize)
    else .ok (len, f)

def MtdInfo.roundUp (a : Nat) : Nat := (a + (m.erasesize - 1)) / m.erasesize * m.erasesize

def mtdEraseSkipBad (offset size maxsize : Nat) (fullerase : Bool) (f : Mem) : Except Int Mem :=
  if offset ≥ m.size then .error (-erange)
  else if size > m.size - offset then .error (-erange)
  else
    let maxsize := if maxsize < size then size else maxsize
    let maxsize := if maxsize > m.size - offset then m.size - offset else maxsize
    let limit := m.roundUp (offset + maxsize)
    let stop := m.roundUp (offset + size)
    let start := offset / m.erasesize * m.erasesize
    if size = 0 then .ok f
    else
      -- every round moves `start` on, so the distance to `limit` bounds the rounds
      match eraseLoop m io limit (limit - start) start (stop - start) f with
      | .error e => .error e
      | .ok (len, f) => if len ≠ 0 ∧ fullerase then .error (-enodata) else .ok f

/-- The loop of `mtd_write_skip_bad` and `mtd_read_skip_bad`.  `op s addr pos chksz` works on
`chksz` bytes at flash address `addr` and position `pos` of the buffer. -/
def walk {σ : Type} (op : σ → Nat → Nat → Nat → Except Int σ) (limit : Nat) :
    Nat → Bool → Nat → Nat → Nat → σ → Except Int (Nat × σ)
  | 0, _, _, _, len, s => .ok (len, s)
  | fuel + 1, checkbad, addr, pos, len, s =>
    if len ≠ 0 ∧ addr < limit then
      let ret := if checkbad ∨ addr % m.erasesize = 0 then m.isBad (addr / m.erasesize) else 0
      if ret < 0 then .error ret
      else if ret ≠ 0 then walk op limit fuel true (addr + m.erasesize) pos len s
      else
        let blockoff := addr % m.erasesize
        let chksz := m.erasesize - blockoff
        let chksz := if chksz > len then len else chksz
        let chksz := if addr + chksz > limit then limit - addr else chksz
        match op s addr pos chksz with
        | .error e => .error e
        | .ok s => walk op limit fuel false (addr + chksz) (pos + chksz) (len - chksz) s
    else .ok (len, s)

def skipBad {σ : Type} (op : σ → Nat → Nat → Nat → Except Int σ) (offset size maxsize : Nat)
    (s : σ) : Except Int σ :=
  if size = 0 then .ok s
  else if offset ≥ m.size then .error (-erange)
  else
    let maxsize := if maxsize < size then size else maxsize
    let maxsize := if maxsize > m.size - offset then m.size - offset else maxsize
    if checkDataSize m.size offset maxsize size ≠ 0 then .error (-einval)
    else
      let limit := offset + maxsize
      match walk m op limit (limit - offset) true offset 0 size s with
      | .error e => .error e
      | .ok (len, s) => if len ≠ 0 then .error (-enodata) else .ok s

/-- `mtd_read_oob` copies to the buffer; corrected bit flips are no failure. -/
def readOob (f : Mem) (dst : Nat) (mem : Mem) (addr pos chksz : Nat) : Except Int Mem :=
  let ret := io.read addr
  if ret ≠ 0 ∧ ret ≠ -euclean then .error ret
  else .ok (copied mem (dst + pos) chksz fun i => f (addr + i))

def mtdReadSkipBad (offset size maxsize : Nat) (f : Mem) (dst : Nat) (mem : Mem) : Except Int Mem :=
  skipBad m (readOob io f dst) offset size maxsize mem

def verifyData (orig rdback : Mem) (size : Nat) : Bool :=
  (List.range size).all fun i => orig i == rdback i

def mtdValidateBlock (f : Mem) : Nat → Nat → Nat → (Mem) → Except Int Unit
  | 0, _, _, _ => .ok ()
  | fuel + 1, addr, size, data =>
    if size = 0 then .ok ()
    else
      let col := addr % m.writesize
      let chksz := m.writesize - col
      let chksz := if chksz > size then size else chksz
      let ret := io.read addr
      if ret ≠ 0 ∧ ret ≠ -euclean then .error ret
      else if !verifyData data (fun i => f (addr + i)) chksz then .error (-ebadmsg)
      else mtdValidateBlock f fuel (addr + chksz) (size - chksz) fun i => data (chksz + i)

/-- `mtd_write_oob`, and the check of what was written. -/
def writeOob (data : Mem) (verify : Bool) (f : Mem) (addr pos chksz : Nat) : Except Int Mem :=
  let src := fun i => data (pos + i)
  let ret := io.write addr
  if ret ≠ 0 then .error ret
  else
    let f := programmed f addr chksz src
    if verify then (mtdValidateBlock m io f chksz addr chksz src).map fun _ => f else .ok f

def mtdWriteSkipBad (offset size maxsize : Nat) (data : Mem) (verify : Bool) (f : Mem) :
    Except Int Mem :=
  skipBad m (writeOob m io data verify) offset size maxsize f

def mtdUpdateGeneric (data : Mem) (size : Nat) (verify : Bool) (f : Mem) : Except Int Mem :=
  match mtdEraseSkipBad m io 0 size m.size true f with
  | .error e => .error e
  | .ok f => mtdWriteSkipBad m io 0 size m.size data verify f

end

/-! ## Booting -/

inductive Format
  | invalid | legacy | fit
  deriving DecidableEq, Repr

/-- The image functions of U-Boot, on memory from the load address on. -/
structure ImageOps where
  genimgGetFormat : Mem → Format
  imageGetImageSize : Mem → Nat
  fitGetSize : Mem → Nat
  itbImageSize : Mem → Nat

def fitHdrsize : Nat := 40

def legacyHdrsize : Nat := 64

def hdrsize (m : MtdInfo) : Nat := max (max fitHdrsize legacyHdrsize) m.writesize

/-- The switch of `boot_from_mtd` on the format, after the header was read. -/
def loadImage (m : MtdInfo) (io : Io) (ops : ImageOps) (offset : Nat) (f : Mem) (mem : Mem) :
    Except Int Mem :=
  let hdrsize := hdrsize m
  match ops.genimgGetFormat mem with
  | .legacy =>
    let size := ops.imageGetImageSize mem
    if size < hdrsize then .ok mem
    else mtdReadSkipBad m io (offset + hdrsize) (size - hdrsize) (m.size - hdrsize) f hdrsize mem
  | .fit =>
    let size := ops.fitGetSize mem
    if size < hdrsize then .ok mem
    else do
      let mem ← mtdReadSkipBad m io (offset + hdrsize) (size - hdrsize) (m.size - hdrsize)
        f hdrsize mem
      let itbSize := ops.itbImageSize mem
      if itbSize > size then
        mtdReadSkipBad m io (offset + size) (itbSize - size) (m.size - size) f size mem
      else .ok mem
  | .invalid => .error (-einval)

/-- `boot_from_mtd` without booting: memory from the load address on.  `fdtargs` is what
`mtd_set_fdtargs_basic` returns. -/
def bootFromMtd (m : MtdInfo) (io : Io) (ops : ImageOps) (fdtargs : Int) (offset : Nat) (f : Mem)
    (mem : Mem) : Except Int Mem := do
  let mem ← mtdReadSkipBad m io offset (hdrsize m) m.size f 0 mem
  let mem ← loadImage m io ops offset f mem
  if fdtargs ≠ 0 then .error fdtargs else .ok mem

end MtkBoot.Mtd
