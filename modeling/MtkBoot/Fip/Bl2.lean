import MtkBoot.Fip.Format

/-! BL2's check of a FIP slot (`load_validate_fip`).  The slot is a memory that BL2 reads from its
start on; a read does not fail. -/

namespace MtkBoot.Fip.Bl2

open Lib

def uuidBl31 : Uuid := beBytes 16 0x47d4086d4cfe98469b952950cbbd5a00
def uuidBl32 : Uuid := beBytes 16 0x05d0e18953dc13478d2b500a4b7a3e38
def uuidBl33 : Uuid := beBytes 16 0xd6d0eea7fcead54b97829934f234b6e4

/-- `fip_uuids`: the images that must be there, by the build options `NEED_BL32` and
`TRUSTED_BOARD_BOOT`. -/
def fipUuids (needBl32 trustedBoardBoot : Bool) : List Uuid := [uuidBl31, uuidBl33]
  ++ (if needBl32 then [uuidBl32] else [])
  ++ (if trustedBoardBoot then
      [beBytes 16 0x827ee890f860e411a1b4777a21b4f94c,
        beBytes 16 0x8ab8beccf960e4119ad0eb4822d8dcf8,
        beBytes 16 0xe2b20c205e63e4119ce8abccf92bb666,
        beBytes 16 0x8ad5832afb60e4118aafdf30bbc49859,
        beBytes 16 0x8ec4c1f35d63e411a7a987ee40b23fa7]
      ++ (if needBl32 then
          [beBytes 16 0x9477d603fb60e41185ddb7105b8cee04,
            beBytes 16 0xa49f44115e63e41187283f05722af33d]
        else [])
    else [])

def tocEntryReadNum : Nat := 16
def tocEntryMaxNum : Nat := tocEntryReadNum * 2
def dualFipBufSize : Nat := 0x1000000

def tocReadLen : Nat := tocEntryReadNum * tocEntrySize

structure Scan where
  pos : Nat
  fipReadLen : Nat
  maxEnd : Nat
  ntoc : Nat
  chksumOffs : Nat
  seen : List Uuid

def Scan.next (s : Scan) (e : TocEntry) : Scan where
  pos := s.pos + tocEntrySize
  fipReadLen := s.fipReadLen
  maxEnd := max s.maxEnd (u64 (e.offset + e.size))
  ntoc := s.ntoc + 1
  chksumOffs := if e.uuid = uuidFipChksum then e.offset else s.chksumOffs
  seen := e.uuid :: s.seen

def Scan.refill (s : Scan) : Except Err Scan :=
  if s.fipReadLen - s.pos < tocEntrySize then
    if dualFipBufSize ≤ s.fipReadLen + tocReadLen ∨ tocEntryMaxNum ≤ s.ntoc then .error .ebadmsg
    else .ok { s with fipReadLen := s.fipReadLen + tocReadLen }
  else .ok s

def checkEntry (s : Scan) (e : TocEntry) : Except Err Scan :=
  if e.offset < s.pos + tocEntrySize * 2 then .error .ebadmsg
  else if e.uuid = uuidFipChksum ∧ e.size < chksumSize then .error .ebadmsg
  else (s.next e).refill

/-- The loop over the ToC.  It reads `tocEntryMaxNum` entries at most. -/
def scanToc (slot : Mem) : Nat → Scan → Except Err Scan
  | 0, s => .ok s
  | fuel + 1, s =>
    if s.pos < s.fipReadLen then
      let e := TocEntry.decode (bytesAt slot s.pos tocEntrySize)
      if e.uuid = uuidNull then
        if e.offset < s.maxEnd then .error .ebadmsg
        else if e.size ≠ 0 then .error .ebadmsg
        else .ok { s with maxEnd := e.offset }
      else
        match checkEntry s e with
        | .error err => .error err
        | .ok s => scanToc slot fuel s
    else .ok s

def Scan.start : Scan where
  pos := tocHeaderSize
  fipReadLen := tocHeaderSize + tocReadLen
  maxEnd := tocHeaderSize + tocEntrySize
  ntoc := 0
  chksumOffs := 0
  seen := []

/-- The checks after the loop.  A checksum record that a wrapped end puts outside the buffer is
read there. -/
def checkPackage (h : Hashes) (uuids : List Uuid) (slot : Mem) (s : Scan) : Except Err Unit :=
  if dualFipBufSize < s.maxEnd then .error .ebadmsg
  else if ¬∀ u ∈ uuids, u ∈ s.seen then .error .ebadmsg
  else if s.chksumOffs = 0 then .error .ebadmsg
  else if dualFipBufSize < s.chksumOffs + chksumSize then .error .fault
  else
    let chksum := Chksum.decode (bytesAt slot s.chksumOffs chksumSize)
    if chksum.len ≠ s.chksumOffs then .error .ebadmsg
    else if (h.crc32 (bytesAt slot 0 chksum.len)).toNat ≠ chksum.crc then .error .ebadmsg
    else if h.sha256 (bytesAt slot 0 chksum.len) ≠ chksum.sha256sum then .error .ebadmsg
    else .ok ()

def loadValidateFip (h : Hashes) (uuids : List Uuid) (slot : Mem) : Except Err Unit :=
  let hdr := bytesAt slot 0 tocHeaderSize
  if le32 hdr 0 ≠ tocHeaderName ∨ le32 hdr 4 = 0 then .error .ebadmsg
  else
    match scanToc slot (tocEntryMaxNum + 1) Scan.start with
    | .error err => .error err
    | .ok s => checkPackage h uuids slot s

structure Access where
  off : Nat
  len : Nat
  deriving DecidableEq, Repr

def Access.Inside (a : Access) : Prop := a.off + a.len ≤ dualFipBufSize

/-- The accesses of the loop over the ToC: each entry is copied from the buffer, and more of the ToC
is read into it. -/
def scanAccesses (slot : Mem) : Nat → Scan → List Access
  | 0, _ => []
  | fuel + 1, s =>
    if s.pos < s.fipReadLen then
      let e := TocEntry.decode (bytesAt slot s.pos tocEntrySize)
      ⟨s.pos, tocEntrySize⟩ ::
        if e.uuid = uuidNull then []
        else
          match checkEntry s e with
          | .error _ => []
          | .ok s' => ⟨s.fipReadLen, s'.fipReadLen - s.fipReadLen⟩ :: scanAccesses slot fuel s'
    else []

/-- The accesses behind the loop: the last read, the checksum record, and the bytes it covers. -/
def packageAccesses (uuids : List Uuid) (slot : Mem) (s : Scan) : List Access :=
  if dualFipBufSize < s.maxEnd then []
  else if ¬∀ u ∈ uuids, u ∈ s.seen then []
  else if s.chksumOffs = 0 then []
  else
    ⟨s.fipReadLen, u64 (s.chksumOffs + chksumSize) - s.fipReadLen⟩ :: ⟨s.chksumOffs, chksumSize⟩ ::
      if (Chksum.decode (bytesAt slot s.chksumOffs chksumSize)).len ≠ s.chksumOffs then []
      else [⟨0, s.chksumOffs⟩]

def accesses (uuids : List Uuid) (slot : Mem) : List Access :=
  let hdr := bytesAt slot 0 tocHeaderSize
  ⟨0, tocHeaderSize + tocReadLen⟩ :: ⟨0, tocHeaderSize⟩ ::
    if le32 hdr 0 ≠ tocHeaderName ∨ le32 hdr 4 = 0 then []
    else
      scanAccesses slot (tocEntryMaxNum + 1) Scan.start ++
        match scanToc slot (tocEntryMaxNum + 1) Scan.start with
        | .error _ => []
        | .ok s => packageAccesses uuids slot s

end MtkBoot.Fip.Bl2
