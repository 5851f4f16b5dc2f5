import MtkBoot.Base
import MtkBoot.Lib.Bytes

/-! The firmware image package (FIP): a header, a table of contents (ToC) that an entry with the
null UUID ends, the images, and a record with the CRC-32 and the SHA-256 of all bytes before it. -/

namespace MtkBoot.Fip

open Lib

/-- The errors of both parsers.  `fault` stands for an access outside a buffer. -/
inductive Err
  | einval | eoverflow | ebadmsg | enobufs | fault
  deriving DecidableEq, Repr

/-- CRC-32 and SHA-256 are the same functions in U-Boot and in BL2. -/
structure Hashes where
  crc32 : Bytes → UInt32
  sha256 : Bytes → Bytes
  length_sha256 : ∀ l, (sha256 l).length = 32

def tocHeaderName : Nat := 0xAA640001
def tocHeaderSize : Nat := 16
def tocEntrySize : Nat := 40

/-- `sizeof(struct mtk_fip_checksum)`: a length, a CRC-32 and a SHA-256. -/
def chksumSize : Nat := 40

abbrev Uuid := List UInt8

def uuidNull : Uuid := beBytes 16 0
def uuidFipChksum : Uuid := beBytes 16 0xa2cceab7f8254b279704633a6fd69ad8

structure TocEntry where
  uuid : Uuid
  offset : Nat
  size : Nat
  flags : Nat
  deriving DecidableEq, Repr

def TocEntry.decode (b : Bytes) : TocEntry where
  uuid := field b 0 16
  offset := leNat (field b 16 8)
  size := leNat (field b 24 8)
  flags := leNat (field b 32 8)

def TocEntry.encode (e : TocEntry) : Bytes :=
  e.uuid ++ leBytes 8 e.offset ++ leBytes 8 e.size ++ leBytes 8 e.flags

def entryAt (data : Bytes) (pos : Nat) : TocEntry := .decode (field data pos tocEntrySize)

structure Chksum where
  len : Nat
  crc : Nat
  sha256sum : Bytes
  deriving DecidableEq, Repr

def Chksum.decode (b : Bytes) : Chksum where
  len := le32 b 0
  crc := le32 b 4
  sha256sum := field b 8 32

def Chksum.encode (c : Chksum) : Bytes := leBytes 4 c.len ++ leBytes 4 c.crc ++ c.sha256sum

/-- What both parsers ask of the checksum record `c` at `offset`, where `covered` is the bytes
before it. -/
def Chksum.Valid (h : Hashes) (c : Chksum) (offset : Nat) (covered : Bytes) : Prop :=
  c.len = offset ∧ c.crc = (h.crc32 covered).toNat ∧ c.sha256sum = h.sha256 covered

/-- The ToC from `pos` on: the entries before the terminator, and the terminator where there is
one before the data ends. -/
inductive Toc (data : Bytes) : Nat → List TocEntry → Option TocEntry → Prop
  | cut {pos : Nat} (short : data.length < pos + tocEntrySize) : Toc data pos [] none
  | terminator {pos : Nat} (room : pos + tocEntrySize ≤ data.length)
      (null : (entryAt data pos).uuid = uuidNull) : Toc data pos [] (some (entryAt data pos))
  | entry {pos : Nat} {es : List TocEntry} {t : Option TocEntry}
      (room : pos + tocEntrySize ≤ data.length) (named : (entryAt data pos).uuid ≠ uuidNull)
      (rest : Toc data (pos + tocEntrySize) es t) : Toc data pos (entryAt data pos :: es) t

end MtkBoot.Fip
