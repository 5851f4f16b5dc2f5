import MtkBoot.Base

/-! The UBI reader of BL2 (`drivers/io/ubi/ubispl.c`, `io_ubi.c`) with fastmap off: the scan of the
VID headers, the load of one logical erase block, and the calls of the io layer. -/

namespace MtkBoot.Ubi

open Function

def maxPebs : Nat := 4096

def maxVolLebs : Nat := 256

def maxPebSize : Nat := 262144

def volIds : Nat := 16

def fmMaxStart : Nat := 64

def ecHdrMagic : Nat := 0x55424923
def vidHdrMagic : Nat := 0x55424921
def layoutVolumeId : Nat := 0x7FFFFFFF - 4096
def fmSbVolumeId : Nat := layoutVolumeId + 1

def vidStatic : Nat := 2

/-- What a platform read returns: zero, `UBI_IO_BITFLIPS` or a negative error. -/
inductive Io where
  | ok
  | bitflips
  | failed
deriving DecidableEq, Repr

inductive Ret where
  | ok
  | ff
  | badHdr
  | bitflips
  | eof
  | einval
  | eio
deriving DecidableEq, Repr

def Io.ret : Io → Ret
  | .ok => .ok
  | .bitflips => .bitflips
  | .failed => .eio

/-- `struct ubi_vid_hdr` in host byte order; `rest` are the fields that only the CRC looks at. -/
structure VidHdr where
  magic : Nat
  volType : Nat
  volId : Nat
  lnum : Nat
  dataSize : Nat
  usedEbs : Nat
  dataCrc : Nat
  sqnum : Nat
  hdrCrc : Nat
  rest : List Nat
deriving DecidableEq, Repr

def VidHdr.zero : VidHdr := ⟨0, 0, 0, 0, 0, 0, 0, 0, 0, []⟩

structure EcHdr where
  magic : Nat
  padding1 : List Nat
  hdrCrc : Nat
  rest : List Nat
deriving DecidableEq, Repr

/-- The device description and the flash behind it.  The CRC is any function.  A failed read leaves
the bytes it names at the start of the buffer.  A LEB fits `leb_cache`, and a volume has at most
`maxVolLebs` LEBs. -/
structure Dev where
  pebCount : Nat
  pebOffset : Nat
  lebSize : Nat
  isBadPeb : Nat → Bool
  readVid : Nat → Io × VidHdr
  readEc : Nat → Io × EcHdr
  /-- The read of a volume table and whether what it read passes `vtbl_check`. -/
  readVtbl : Nat → Io × Bool
  readData : Nat → Nat → Io × Bytes
  vidCrc : VidHdr → Nat
  ecCrc : EcHdr → Nat
  dataCrc : Bytes → Nat
  length_readData : ∀ pnum len, (readData pnum len).1 ≠ .failed → (readData pnum len).2.length = len
  dataSize_le : ∀ pnum, vidCrc (readVid pnum).2 = (readVid pnum).2.hdrCrc →
    (readVid pnum).2.dataSize ≤ lebSize
  lebSize_le : lebSize ≤ maxPebSize

structure VolInfo where
  lastBlock : Nat
  found : Nat → Bool
  lebsToPebs : Nat → Nat

/-- `struct ubi_leb_cache_info`, without its `valid` flag. -/
structure LebCacheInfo where
  volId : Nat
  leb : Nat
  len : Nat
  crc : Nat
deriving DecidableEq

structure Scan where
  pebCount : Nat
  vtblValid : Bool
  scanned : Nat → Bool
  corrupt : Nat → Bool
  blockinfo : Nat → VidHdr
  volinfo : Nat → VolInfo
  sizes : Nat → Option Nat
  lebCacheInfo : Option LebCacheInfo
  lebCache : Bytes

namespace Scan

def setScanned (s : Scan) (pnum : Nat) : Scan :=
  { s with scanned := update s.scanned pnum true }

def setCorrupt (s : Scan) (pnum : Nat) : Scan :=
  { s with corrupt := update s.corrupt pnum true }

def setBlockinfo (s : Scan) (pnum : Nat) (vh : VidHdr) : Scan :=
  { s with blockinfo := update s.blockinfo pnum vh }

def setVolinfo (s : Scan) (volId : Nat) (vi : VolInfo) : Scan :=
  { s with volinfo := update s.volinfo volId vi }

def setFound (s : Scan) (volId lnum : Nat) (b : Bool) : Scan :=
  let vi := s.volinfo volId
  s.setVolinfo volId { vi with found := update vi.found lnum b }

def setLeb (s : Scan) (volId lnum pnum : Nat) : Scan :=
  let vi := s.volinfo volId
  s.setVolinfo volId { vi with lebsToPebs := update vi.lebsToPebs lnum pnum }

def setLastBlock (s : Scan) (volId lnum : Nat) : Scan :=
  s.setVolinfo volId { s.volinfo volId with lastBlock := lnum }

def fillCache (s : Scan) (bytes : Bytes) : Scan :=
  { s with lebCache := bytes ++ s.lebCache.drop bytes.length }

end Scan

/-! ### The scan of the headers -/

def ubiCheckEcHdr (d : Dev) (pnum : Nat) : Ret :=
  let r := d.readEc (pnum + d.pebOffset)
  if r.1 ≠ .ok then .ff
  else if r.2.magic ≠ ecHdrMagic then .ff
  else if d.ecCrc r.2 ≠ r.2.hdrCrc then .ff
  else if r.2.padding1 = [0x45, 0x4f, 0x46] then .eof
  else .ff

def ubiReadVolumeTable (d : Dev) (s : Scan) (pnum : Nat) : Ret × Scan :=
  let r := d.readVtbl (pnum + d.pebOffset)
  if r.1 = .failed then (r.1.ret, s)
  else if r.2 then (.ok, { s with vtblValid := true })
  else (r.1.ret, s)

def ubiIoReadVidHdr (d : Dev) (s : Scan) (pnum : Nat) : Ret × Scan :=
  if s.corrupt pnum then (.badHdr, s)
  else if s.scanned pnum then (.ok, s)
  else
    let s := s.setScanned pnum
    if d.isBadPeb (pnum + d.pebOffset) then
      (.eio, (s.setBlockinfo pnum { s.blockinfo pnum with magic := 0 }).setCorrupt pnum)
    else
      let r := d.readVid (pnum + d.pebOffset)
      let s := s.setBlockinfo pnum r.2
      if r.1 ≠ .ok then
        (r.1.ret, (s.setBlockinfo pnum { r.2 with magic := 0 }).setCorrupt pnum)
      else if r.2.magic ≠ vidHdrMagic then
        if r.2.magic = 0xffffffff then (ubiCheckEcHdr d pnum, s.setCorrupt pnum)
        else (.badHdr, s.setCorrupt pnum)
      else if d.vidCrc r.2 ≠ r.2.hdrCrc then (.badHdr, s.setCorrupt pnum)
      else (.ok, s)

def ubiRescanFmVidHdr (d : Dev) (s : Scan) (pnum volId lnum : Nat) : Ret × Scan :=
  if s.pebCount ≤ pnum then (.einval, s)
  else
    let r := ubiIoReadVidHdr d s pnum
    let vh := r.2.blockinfo pnum
    if r.1 = .ok ∧ vh.volId = volId ∧ vh.volType = vidStatic ∧ vh.lnum = lnum then (.ok, r.2)
    else r

def ubiAddPebToVol (d : Dev) (s : Scan) (volId pnum lnum : Nat) : Ret × Scan :=
  if maxVolLebs ≤ lnum then (.einval, s)
  else if (s.volinfo volId).found lnum then
    let cur := (s.volinfo volId).lebsToPebs lnum
    let r := if s.scanned cur then (.ok, s) else ubiRescanFmVidHdr d s cur volId lnum
    if r.1 ≠ .ok then (.ok, r.2.setLeb volId lnum pnum)
    else if r.2.corrupt cur then (.ok, r.2.setLeb volId lnum pnum)
    else if (r.2.blockinfo cur).sqnum < (r.2.blockinfo pnum).sqnum then
      (.ok, r.2.setLeb volId lnum pnum)
    else (.ok, r.2)
  else
    let s := (s.setFound volId lnum true).setLeb volId lnum pnum
    if (s.volinfo volId).lastBlock < lnum then (.ok, s.setLastBlock volId lnum) else (.ok, s)

/-- `none` is a block past the end of the `blockinfo` array. -/
def ubiScanVidHdr (d : Dev) (s : Scan) (pnum : Nat) : Option (Ret × Scan) :=
  if s.pebCount ≤ pnum then some (.einval, s)
  else if maxPebs ≤ pnum then none
  else
    let r := ubiIoReadVidHdr d s pnum
    let vh := r.2.blockinfo pnum
    if r.1 ≠ .ok then some r
    else if vh.volId = fmSbVolumeId then some (.ok, r.2)
    else if vh.volId = layoutVolumeId ∧ r.2.vtblValid = false then
      some (ubiReadVolumeTable d r.2 pnum)
    else if volIds ≤ vh.volId ∨ vh.volType ≠ vidStatic then some (.ok, r.2)
    else some (ubiAddPebToVol d r.2 vh.volId pnum vh.lnum)

/-- `n` rounds of a scan loop from block `pnum`; the end mark of the UBI area stops it. The second
component is the block at which the loop stopped. -/
def scanFrom (d : Dev) : Nat → Nat → Scan → Option (Scan × Nat)
  | 0, pnum, s => some (s, pnum)
  | n + 1, pnum, s =>
    match ubiScanVidHdr d s pnum with
    | none => none
    | some (res, s') =>
      if res = .eof then some ({ s' with pebCount := pnum }, pnum)
      else scanFrom d n (pnum + 1) s'

def iplScan (d : Dev) (s : Scan) : Option Scan :=
  match scanFrom d fmMaxStart 0 s with
  | none => none
  | some (s, pnum) => (scanFrom d (s.pebCount - pnum) pnum s).map Prod.fst

def cleared (d : Dev) (lebCache : Bytes) : Scan where
  pebCount := d.pebCount
  vtblValid := false
  scanned := fun _ => false
  corrupt := fun _ => false
  blockinfo := fun _ => .zero
  volinfo := fun _ => ⟨0, fun _ => false, fun _ => 0⟩
  sizes := fun _ => none
  lebCacheInfo := none
  lebCache := lebCache

def ubisplInitScan (d : Dev) (s : Scan) : Option Scan := iplScan d (cleared d s.lebCache)

/-- Whether the header of `pnum` is there: a block not yet scanned is scanned first. -/
def vidReady (d : Dev) (s : Scan) (pnum volId lnum : Nat) : Bool × Scan :=
  if s.scanned pnum then (true, s)
  else
    let r := ubiRescanFmVidHdr d s pnum volId lnum
    (r.1 = .ok, r.2)

/-- One round of the search for a replacement; the second component is `vrepl`. -/
def findOtherStep (d : Dev) (volId lnum : Nat) (acc : Scan × Option Nat) (pnum : Nat) :
    Scan × Option Nat :=
  let tmp := acc.1.blockinfo pnum
  if acc.1.corrupt pnum then acc
  else if tmp.volId ≠ volId ∨ tmp.lnum ≠ lnum then acc
  else
    let r := vidReady d acc.1 pnum volId lnum
    if r.1 = false then (r.2, acc.2)
    else
      let s := r.2.setFound volId lnum true
      match acc.2 with
      | none => (s, some pnum)
      | some vrepl =>
        if (s.blockinfo vrepl).sqnum < (s.blockinfo pnum).sqnum then (s, some pnum)
        else (s, some vrepl)

/-- The part of `ubi_load_block` behind `find_other`. -/
def findOther (d : Dev) (s : Scan) (volId lnum : Nat) : Scan :=
  let r :=
    (List.range s.pebCount).foldl (findOtherStep d volId lnum) (s.setFound volId lnum false, none)
  match r.2 with
  | none => r.1
  | some vrepl => r.1.setLeb volId lnum vrepl

/-- The data of block `pnum` in `leb_cache`: from the cache if its record fits the header, else
read from the flash. -/
def fetch (d : Dev) (s : Scan) (volId lnum pnum : Nat) (vh : VidHdr) : Bool × Scan :=
  if s.lebCacheInfo = some ⟨volId, lnum, vh.dataSize, vh.dataCrc⟩ then (true, s)
  else
    let r := d.readData (pnum + d.pebOffset) vh.dataSize
    let s := s.fillCache r.2
    if r.1 = .failed then (false, s.setCorrupt pnum)
    else if d.dataCrc (s.lebCache.take vh.dataSize) ≠ vh.dataCrc then (false, s.setCorrupt pnum)
    else (true, { s with lebCacheInfo := some ⟨volId, lnum, vh.dataSize, vh.dataCrc⟩ })

/-- How one round of `ubi_load_block` ends. `ret` is what the function returns and `out` what it
copies to the destination. -/
inductive Pass where
  | done (ret : Int) (out : Bytes) (s : Scan)
  | retry (s : Scan)

/-- One round of `ubi_load_block`, from `retry` to the next jump there; `laddr` is whether there
is a destination. -/
def loadPass (d : Dev) (laddr : Bool) (volId lnum last skiplen readlen : Nat) (s : Scan) : Pass :=
  let vi := s.volinfo volId
  let pnum := vi.lebsToPebs lnum
  if vi.found lnum = false then .done (-einval) [] s
  else if s.pebCount ≤ pnum then .done (-einval) [] s
  else if s.corrupt pnum then .retry (findOther d s volId lnum)
  else
    let r := vidReady d s pnum volId lnum
    let s := r.2
    let vh := s.blockinfo pnum
    if r.1 = false then .retry (findOther d s volId lnum)
    else if vh.usedEbs ≠ last then .retry (findOther d (s.setCorrupt pnum) volId lnum)
    else if laddr = false ∨ vh.dataSize ≤ skiplen then .done vh.dataSize [] s
    else
      let f := fetch d s volId lnum pnum vh
      if f.1 = false then .retry (findOther d f.2 volId lnum)
      else .done vh.dataSize
        ((f.2.lebCache.drop skiplen).take (min readlen (vh.dataSize - skiplen))) f.2

/-- `ubi_load_block` with at most `fuel` rounds. -/
def ubiLoadBlock (d : Dev) (laddr : Bool) (volId lnum last skiplen readlen : Nat) :
    Nat → Scan → Option (Int × Bytes × Scan)
  | 0, _ => none
  | fuel + 1, s =>
    match loadPass d laddr volId lnum last skiplen readlen s with
    | .done ret out s' => some (ret, out, s')
    | .retry s' => ubiLoadBlock d laddr volId lnum last skiplen readlen fuel s'

/-- The loop of `ipl_load` over the `n` LEBs from `lnum` on. `doff` and `lenread` are its counters
and `out` is what has been copied so far. -/
def iplLoadFrom (d : Dev) (laddr : Bool) (volId last offset size : Nat) :
    Nat → Nat → Nat → Nat → Bytes → Scan → Option (Int × Bytes × Scan)
  | 0, _, _, lenread, out, s => some (lenread, out, s)
  | n + 1, lnum, doff, lenread, out, s =>
    let skiplen := if laddr = true ∧ doff < offset then offset - doff else 0
    match ubiLoadBlock d laddr volId lnum last skiplen (size - lenread) (s.pebCount + 1) s with
    | none => none
    | some (ret, bytes, s') =>
      if ret < 0 then some (ret, out, s')
      else if laddr then
        if size = lenread + bytes.length then some (lenread + bytes.length, out ++ bytes, s')
        else iplLoadFrom d laddr volId last offset size n (lnum + 1) (doff + ret.toNat)
          (lenread + bytes.length) (out ++ bytes) s'
      else iplLoadFrom d laddr volId last offset size n (lnum + 1) doff (lenread + ret.toNat) out s'

/-- `ipl_load`: what it returns, what it copies to the destination, and the new scan info. -/
def iplLoad (d : Dev) (laddr : Bool) (volId offset size : Nat) (s : Scan) :
    Option (Int × Bytes × Scan) :=
  if volIds ≤ volId then some (-einval, [], s)
  else
    let last := (s.volinfo volId).lastBlock + 1
    iplLoadFrom d laddr volId last offset size last 0 0 0 [] s

/-- `ubispl_get_volume_data_size` for a volume given by its id. -/
def ubisplGetVolumeDataSize (d : Dev) (volId : Nat) (s : Scan) : Option (Int × Scan) :=
  match s.sizes volId with
  | some size => some (size, s)
  | none =>
    match iplLoad d false volId 0 (2 ^ 32 - 1) s with
    | none => none
    | some (ret, _, s) =>
      if ret < 0 then some (ret, s)
      else some (ret, { s with sizes := update s.sizes volId (some ret.toNat) })

/-- `ubi_dev_state_t` with the scan info and the `init_done` flag of its device; `volId` is the id
of the open volume. -/
structure State where
  initDone : Bool
  scan : Scan
  volId : Fin volIds
  readPos : Nat
  volSize : Nat
  volSizeInit : Bool

/-- Seek modes of the io layer; `other` is any mode that UBI does not have. -/
inductive Mode where
  | set
  | cur
  | other
deriving DecidableEq, Repr

inductive Call where
  | open (volId : Fin volIds)
  | size
  | seek (mode : Mode) (offset : Int)
  | read (length : Nat)
deriving DecidableEq, Repr

/-- What a call returns: an error, or success with the size or the bytes it gives. -/
inductive Outcome where
  | error (ret : Int)
  | done
  | size (length : Nat)
  | bytes (out : Bytes)
deriving DecidableEq, Repr

/-- The device after `ubi_dev_open` with a volume just opened; nothing has been scanned. -/
def State.fresh (d : Dev) (lebCache : Bytes) (volId : Fin volIds) : State :=
  ⟨false, cleared d lebCache, volId, 0, 0, false⟩

def ubiVolumeOpen (s : State) (volId : Fin volIds) : State :=
  { s with volId := volId, readPos := 0, volSizeInit := false, volSize := 0 }

/-- The scan info a call works on: scanned anew while no call has succeeded. -/
def State.ready (d : Dev) (s : State) : Option Scan :=
  if s.initDone then some s.scan else ubisplInitScan d s.scan

/-- How the `init_done` flag follows from what the volume layer returned. -/
def State.after (s : State) (ret : Int) (scan : Scan) : State :=
  { s with scan := scan, initDone := s.initDone || decide (0 ≤ ret) || decide (ret = -enoent) }

def ubiVolumeSize (d : Dev) (s : State) : Option (Outcome × State) :=
  match s.ready d with
  | none => none
  | some scan =>
    match ubisplGetVolumeDataSize d s.volId scan with
    | none => none
    | some (ret, scan) =>
      if ret < 0 then some (.error ret, s.after ret scan)
      else some (.size ret.toNat, s.after ret scan)

/-- The new position; its assertions are those of a debug build and not checked here. -/
def ubiVolumeSeekTo (s : State) (mode : Mode) (offset : Int) : Outcome × State :=
  match mode with
  | .set => (.done, { s with readPos := (offset % 2 ^ 32).toNat })
  | .cur => (.done, { s with readPos := ((s.readPos + offset) % 2 ^ 32).toNat })
  | .other => (.error (-einval), s)

def ubiVolumeSeek (d : Dev) (s : State) (mode : Mode) (offset : Int) : Option (Outcome × State) :=
  if s.volSizeInit then some (ubiVolumeSeekTo s mode offset)
  else
    match ubiVolumeSize d s with
    | some (.size length, s) =>
      some (ubiVolumeSeekTo { s with volSizeInit := true, volSize := length } mode offset)
    | r => r

/-- The length is passed on as a 32-bit number. -/
def ubiVolumeRead (d : Dev) (s : State) (length : Nat) : Option (Outcome × State) :=
  match s.ready d with
  | none => none
  | some scan =>
    match iplLoad d true s.volId s.readPos (length % 2 ^ 32) scan with
    | none => none
    | some (ret, out, scan) =>
      if ret < 0 then some (.error ret, s.after ret scan)
      else some (.bytes out, { s.after ret scan with readPos := (s.readPos + ret.toNat) % 2 ^ 32 })

def step (d : Dev) (s : State) : Call → Option (Outcome × State)
  | .open volId => some (.done, ubiVolumeOpen s volId)
  | .size => ubiVolumeSize d s
  | .seek mode offset => ubiVolumeSeek d s mode offset
  | .read length => ubiVolumeRead d s length

def run (d : Dev) : State → List Call → Option (List Outcome × State)
  | s, [] => some ([], s)
  | s, call :: calls =>
    match step d s call with
    | none => none
    | some (r, s') => (run d s' calls).map fun x => (r :: x.1, x.2)

end MtkBoot.Ubi
