import MtkBoot.Fip.Format
import MtkBoot.Lib.Strings

/-! U-Boot's handling of a FIP (`fip.c`): `init_fip` parses a package, `fip_update` replaces an
image and moves those after it, `fip_create` writes the package out again. -/

namespace MtkBoot.Fip

open Lib

/-- `toc_entries`: the images U-Boot knows. -/
def tocEntries : List (Uuid × Str) := [
  (beBytes 16 0x659227032f74e6448dff579ac1ff0610, ascii "scp-fwu-cfg"),
  (beBytes 16 0x60b3eb37c1e5ea419df319eda11f6801, ascii "ap-fwu-cfg"),
  (beBytes 16 0x4f511d112be54e49b4c583c2f715840a, ascii "fwu"),
  (beBytes 16 0x71408ab218d6874c8b2ec6dccd50f096, ascii "fwu-cert"),
  (beBytes 16 0x5ff9ec0b4d223e4da544c39d81c73f0a, ascii "tb-fw"),
  (beBytes 16 0x9766fd3d89bee849ae5d78a140608213, ascii "scp-fw"),
  (beBytes 16 0x47d4086d4cfe98469b952950cbbd5a00, ascii "soc-fw"),
  (beBytes 16 0x05d0e18953dc13478d2b500a4b7a3e38, ascii "tos-fw"),
  (beBytes 16 0x0b70c29b2a5a78409f650a5682738288, ascii "tos-fw-extra1"),
  (beBytes 16 0x8ea87bb1cfa23f4d85fde7bba50220d9, ascii "tos-fw-extra2"),
  (beBytes 16 0xd6d0eea7fcead54b97829934f234b6e4, ascii "nt-fw"),
  (beBytes 16 0x6c0762a612f24b5692cbba8f633606d9, ascii "rmm-fw"),
  (beBytes 16 0x5807e16a845947be8ed5648e8dddab0e, ascii "fw-config"),
  (beBytes 16 0x08b8f1d9c9cf9349a9626fbc6b7265cc, ascii "hw-config"),
  (beBytes 16 0x6c0458ffaf6b7d4f82edaa27bc69bfd2, ascii "tb-fw-config"),
  (beBytes 16 0x9979814b0376fb468c8e8d267f7859e0, ascii "soc-fw-config"),
  (beBytes 16 0x26257c1adbc67f478d96c4c4b0248021, ascii "tos-fw-config"),
  (beBytes 16 0x28da981593e87e44ac661aaf801550f9, ascii "nt-fw-config"),
  (beBytes 16 0x862d1d72f860e411920b8be762160f24, ascii "rot-cert"),
  (beBytes 16 0x827ee890f860e411a1b4777a21b4f94c, ascii "trusted-key-cert"),
  (beBytes 16 0x024221a1f860e4118d9bf33c0e15a014, ascii "scp-fw-key-cert"),
  (beBytes 16 0x8ab8beccf960e4119ad0eb4822d8dcf8, ascii "soc-fw-key-cert"),
  (beBytes 16 0x9477d603fb60e41185ddb7105b8cee04, ascii "tos-fw-key-cert"),
  (beBytes 16 0x8ad5832afb60e4118aafdf30bbc49859, ascii "nt-fw-key-cert"),
  (beBytes 16 0xd6e269ea5d63e4118d8c9fbabe9956a5, ascii "tb-fw-cert"),
  (beBytes 16 0x44be6f045e63e411b28b73d8eaae9656, ascii "scp-fw-cert"),
  (beBytes 16 0xe2b20c205e63e4119ce8abccf92bb666, ascii "soc-fw-cert"),
  (beBytes 16 0xa49f44115e63e41187283f05722af33d, ascii "tos-fw-cert"),
  (beBytes 16 0x8ec4c1f35d63e411a7a987ee40b23fa7, ascii "nt-fw-cert"),
  (beBytes 16 0x776dfd4486974c3b91ebc13e025a2a6f, ascii "sip-sp-cert"),
  (beBytes 16 0xddcbbf4acad611ea87d00242ac130003, ascii "plat-sp-cert"),
  (uuidFipChksum, ascii "fip-chksum")]

def lookupImageDesc (uuid : Uuid) : Option Str := tocEntries.lookup uuid

structure Image where
  name : Str
  data : Bytes
  toc : TocEntry
  deriving DecidableEq, Repr

structure Package where
  tocHeader : Bytes
  images : List Image
  size : Nat
  deriving DecidableEq, Repr

def fipMinSize : Nat := tocHeaderSize + tocEntrySize

structure Walk where
  images : List Image
  fipSize : Nat
  hasChecksum : Bool

def checkChksum (h : Hashes) (data : Bytes) (e : TocEntry) : Except Err Unit :=
  if e.size < chksumSize then .error .einval
  else
    let chksum := Chksum.decode (field data e.offset chksumSize)
    if chksum.len ≠ e.offset then .error .ebadmsg
    else if chksum.crc ≠ (h.crc32 (data.take chksum.len)).toNat then .error .ebadmsg
    else if chksum.sha256sum ≠ h.sha256 (data.take chksum.len) then .error .ebadmsg
    else .ok ()

def admitEntry (h : Hashes) (data : Bytes) (w : Walk) (e : TocEntry) : Except Err Walk :=
  match lookupImageDesc e.uuid with
  | none => .error .einval
  | some name =>
    let value := u64 (e.offset + e.size)
    if value < e.offset ∨ value < e.size then .error .eoverflow
    else if data.length < value then .error .einval
    else
      let w := { w with
        images := w.images ++ [⟨name, field data e.offset e.size, e⟩]
        fipSize := max w.fipSize value }
      if e.uuid = uuidFipChksum then
        (checkChksum h data e).map fun _ => { w with hasChecksum := true }
      else .ok w

/-- The loop over the ToC.  The data that are left bound the number of its rounds. -/
def walkToc (h : Hashes) (data : Bytes) : Nat → Nat → Walk → Except Err Walk
  | 0, _, w => .ok w
  | fuel + 1, pos, w =>
    if pos + tocEntrySize ≤ data.length then
      let e := entryAt data pos
      if e.uuid = uuidNull then
        if e.size ≠ 0 then .error .einval
        else if data.length < e.offset then .error .einval
        else .ok w
      else
        match admitEntry h data w e with
        | .error err => .error err
        | .ok w => walkToc h data fuel (pos + tocEntrySize) w
    else .ok w

/-- `init_fip`, where `dual` says whether `CONFIG_MTK_DUAL_FIP` is set. -/
def initFip (h : Hashes) (dual : Bool) (data : Bytes) : Except Err Package :=
  if data.length < fipMinSize then .error .einval
  else if le32 data 0 ≠ tocHeaderName then .error .einval
  else
    match walkToc h data data.length tocHeaderSize ⟨[], 0, false⟩ with
    | .error err => .error err
    | .ok w =>
      if dual && !w.hasChecksum then .error .ebadmsg
      else .ok ⟨field data 0 tocHeaderSize, w.images,
        if w.fipSize ≠ 0 then w.fipSize else data.length⟩

/-! ### `fip_update` and `fip_create` -/

def toLower (c : UInt8) : UInt8 := if 65 ≤ c ∧ c ≤ 90 then c + 0x20 else c

def imageName (name : Str) : Str :=
  let buffer := name.map toLower
  if buffer = ascii "bl31" then ascii "soc-fw"
  else if buffer = ascii "bl33" then ascii "nt-fw"
  else if buffer = ascii "uboot" then ascii "nt-fw"
  else if buffer = ascii "u-boot" then ascii "nt-fw"
  else if buffer = ascii "bootloader" then ascii "nt-fw"
  else name

def fipFindImageDesc (fip : Package) (name : Str) : Except Err Nat :=
  if 255 < name.length then .error .einval
  else
    match fip.images.findIdx? fun desc => desc.name = imageName name with
    | some i => .ok i
    | none => .error .einval

def fipGetImage (fip : Package) (name : Str) : Except Err Bytes :=
  match fipFindImageDesc fip name with
  | .error err => .error err
  | .ok i =>
    match fip.images[i]? with
    | some desc => .ok desc.data
    | none => .error .fault

/-- The loop that moves the images after `desc`: the images and the end of the last one. -/
def placeAfter (desc : TocEntry) : Nat → List Image → Except Err (List Image × Nat)
  | offset, [] => .ok ([], offset)
  | offset, next :: rest =>
    let value := u64 (offset + next.toc.size)
    if value < desc.offset ∨ value < desc.size then .error .eoverflow
    else
      match placeAfter desc value rest with
      | .error err => .error err
      | .ok (rest, size) =>
        .ok ({ next with toc := { next.toc with offset := offset } } :: rest, size)

def fipUpdate (fip : Package) (name : Str) (dataIn : Bytes) : Except Err Package :=
  match fipFindImageDesc fip name with
  | .error err => .error err
  | .ok i =>
    match fip.images[i]? with
    | none => .error .fault
    | some desc =>
      let toc := { desc.toc with size := dataIn.length }
      let value := u64 (toc.offset + toc.size)
      if value < toc.offset ∨ value < toc.size then .error .eoverflow
      else
        match placeAfter toc value (fip.images.drop (i + 1)) with
        | .error err => .error err
        | .ok (rest, size) => .ok { fip with
            images := fip.images.take i ++ { desc with data := dataIn, toc := toc } :: rest
            size := size }

def copyTo (buf : Bytes) (off : Nat) (b : Bytes) : Except Err Bytes :=
  if off + b.length ≤ buf.length then .ok (splice buf off b) else .error .fault

/-- The checksum record that stands at `offset` and covers what has been written so far. -/
def chksumOf (h : Hashes) (buf : Bytes) (offset : Nat) : Chksum :=
  let len := u32 offset
  ⟨len, (h.crc32 (buf.take len)).toNat, h.sha256 (buf.take len)⟩

def writeImage (h : Hashes) (buf : Bytes) (desc : Image) : Except Err Bytes :=
  if desc.toc.uuid = uuidFipChksum then
    if desc.toc.size < chksumSize then .error .fault
    else
      match copyTo buf (desc.toc.offset + chksumSize)
          (List.replicate (desc.toc.size - chksumSize) 0) with
      | .error err => .error err
      | .ok zeroed => copyTo zeroed desc.toc.offset (chksumOf h buf desc.toc.offset).encode
  else copyTo buf desc.toc.offset desc.data

def writeImages (h : Hashes) : Bytes → List Image → Except Err Bytes
  | buf, [] => .ok buf
  | buf, desc :: rest =>
    match writeImage h buf desc with
    | .error err => .error err
    | .ok buf => writeImages h buf rest

def tocBytes (fip : Package) : Bytes :=
  fip.tocHeader ++ fip.images.flatMap (fun desc => desc.toc.encode) ++
    TocEntry.encode ⟨uuidNull, fip.size, 0, 0⟩

/-- `fip_create` into the buffer `dataOut`, whose length is `max_len`: the buffer and
`*data_len_out`. -/
def fipCreate (h : Hashes) (fip : Package) (dataOut : Bytes) : Except Err (Bytes × Nat) :=
  if dataOut.length < fip.size then .error .enobufs
  else
    match copyTo dataOut 0 (tocBytes fip) with
    | .error err => .error err
    | .ok buf =>
      match writeImages h buf fip.images with
      | .error err => .error err
      | .ok buf =>
        .ok (buf, (tocBytes fip).length + (fip.images.map fun desc => desc.toc.size).sum)

end MtkBoot.Fip
