import MtkBoot.Fip.Parse
import MtkBoot.Lib.Spans

/-! What `fip_create` leaves in the buffer.  It writes the ToC and then one image after the other,
and a checksum record is about what lies before it when its turn comes. -/

namespace MtkBoot.Fip

open Lib List Nat TocEntry

variable {fip : Package} {l1 l2 : List Image}

variable {h : Hashes} {data buf buf' : Bytes} {pos : Nat} {e t : TocEntry}
  {es : List TocEntry} {d : Image} {l : List Image}

def TocEntry.finish (e : TocEntry) : Nat := e.offset + e.size

def TocEntry.Covers (e : TocEntry) (x : Nat) : Prop := Within TocEntry.offset TocEntry.finish e x

structure TocEntry.Wf (e : TocEntry) : Prop where
  uuid : e.uuid.length = 16
  offset : e.offset < 2 ^ 64
  size : e.size < 2 ^ 64
  flags : e.flags < 2 ^ 64

theorem TocEntry.length_encode (hu : e.uuid.length = 16) : e.encode.length = tocEntrySize := by
  simp [encode, hu, tocEntrySize]

theorem leNat_field_mid {n o : Nat} {front : Bytes} (rest : Bytes) (hn : n < 2 ^ 64)
    (ho : front.length = o) : leNat (field (front ++ (leBytes 8 n ++ rest)) o 8) = n := by
  have hself := field_self (leBytes 8 n)
  rw [length_leBytes] at hself
  rw [field_append_right ho.le, ho, Nat.sub_self, field_append_left (by simp), hself, leNat_leBytes]
  exact mod_eq_of_lt hn

theorem TocEntry.decode_encode (hwf : e.Wf) : decode e.encode = e := by
  obtain ⟨uuid, offset, size, flags⟩ := e
  obtain ⟨hu, ho, hs, hf⟩ := hwf
  dsimp only at hu ho hs hf
  have huuid : field (encode ⟨uuid, offset, size, flags⟩) 0 16 = uuid := by
    simp only [encode, append_assoc]
    rw [field_append_left (by omega), ← hu, field_self]
  have hoffset : leNat (field (encode ⟨uuid, offset, size, flags⟩) 16 8) = offset := by
    simp only [encode, append_assoc]
    exact leNat_field_mid _ ho hu
  have hsize : leNat (field (encode ⟨uuid, offset, size, flags⟩) 24 8) = size := by
    rw [encode, append_assoc]
    exact leNat_field_mid _ hs (by simp [hu])
  have hflags : leNat (field (encode ⟨uuid, offset, size, flags⟩) 32 8) = flags := by
    rw [encode, ← append_nil (leBytes 8 flags)]
    exact leNat_field_mid _ hf (by simp [hu])
  rw [decode, huuid, hoffset, hsize, hflags]

theorem entryAt_wf (hroom : pos + tocEntrySize ≤ data.length) : (entryAt data pos).Wf where
  uuid := by
    have hlen := length_field hroom
    exact length_field (by rw [hlen]; decide)
  offset := leNat_field_lt _ _ 8
  size := leNat_field_lt _ _ 8
  flags := leNat_field_lt _ _ 8

theorem Toc.wf {t : Option TocEntry} (htoc : Toc data pos es t) :
    ∀ e ∈ es, e.Wf ∧ e.uuid ≠ uuidNull := by
  induction htoc with
  | cut => simp
  | terminator => simp
  | entry room named _ ih => exact forall_mem_cons.mpr ⟨⟨entryAt_wf room, named⟩, ih⟩

def tocEnd (n : Nat) : Nat := tocHeaderSize + tocEntrySize * (n + 1)

theorem length_flatMap_encode (hu : ∀ e ∈ es, e.uuid.length = 16) :
    (es.flatMap encode).length = tocEntrySize * es.length := by
  induction es with
  | nil => rfl
  | cons e es ih =>
    obtain ⟨he, hes⟩ := forall_mem_cons.mp hu
    rw [flatMap_cons, length_append, length_encode he, ih hes,
      length_cons, mul_succ, add_comm]

theorem Toc.of_field (hroom : pos + tocEntrySize * (es.length + 1) ≤ data.length)
    (hfield : field data pos (tocEntrySize * (es.length + 1)) = es.flatMap encode ++ t.encode)
    (hes : ∀ e ∈ es, e.Wf ∧ e.uuid ≠ uuidNull) (ht : t.Wf) (hnull : t.uuid = uuidNull) :
    Toc data pos es (some t) := by
  induction es generalizing pos with
  | nil =>
    have hentry : entryAt data pos = t := by
      rw [length_nil, zero_add, mul_one, flatMap_nil, nil_append] at hfield
      rw [entryAt, hfield, decode_encode ht]
    rw [← hentry]
    exact .terminator hroom (by rw [hentry, hnull])
  | cons e es ih =>
    obtain ⟨⟨hwf, hnamed⟩, hes⟩ := forall_mem_cons.mp hes
    have hlen := length_encode hwf.uuid
    rw [length_cons, mul_succ] at hroom hfield
    rw [flatMap_cons, append_assoc] at hfield
    have hentry : entryAt data pos = e := by
      have hhead := congrArg (field · 0 tocEntrySize) hfield
      rw [field_field (by omega), field_append_left (by omega), add_zero] at hhead
      rw [← hlen, field_self, hlen] at hhead
      rw [entryAt, hhead, decode_encode hwf]
    have htail := congrArg (field · tocEntrySize (tocEntrySize * (es.length + 1))) hfield
    rw [field_field (by omega), field_append_right hlen.le, hlen, Nat.sub_self] at htail
    have hall : (es.flatMap encode ++ t.encode).length = tocEntrySize * (es.length + 1) := by
      rw [length_append, length_flatMap_encode fun e he => (hes e he).1.uuid,
        length_encode ht.uuid, mul_succ]
    rw [← hall, field_self, hall] at htail
    rw [← hentry]
    exact .entry (by omega) (by rw [hentry]; exact hnamed) (ih (by omega) htail hes)

/-- A package whose images U-Boot knows, with as many bytes as their entries say. -/
structure Package.Wf (fip : Package) : Prop where
  length_header : fip.tocHeader.length = tocHeaderSize
  header : le32 fip.tocHeader 0 = tocHeaderName
  toc : ∀ d ∈ fip.images, d.toc.Wf ∧ d.toc.uuid ≠ uuidNull
  known : ∀ d ∈ fip.images, lookupImageDesc d.toc.uuid = some d.name
  length : ∀ d ∈ fip.images, d.data.length = d.toc.size

theorem initFip_wf {dual : Bool} (hinit : initFip h dual data = .ok fip) :
    fip.Wf ∧ (dual → ∃ d ∈ fip.images, d.toc.uuid = uuidFipChksum) := by
  obtain ⟨hmin, hname, es, t, htoc, hall, -, hdual, rfl⟩ := initFip_ok_iff.mp hinit
  have hroom : 0 + tocHeaderSize ≤ data.length := by
    unfold fipMinSize at hmin
    omega
  refine ⟨⟨length_field hroom, ?_, ?_, ?_, ?_⟩, ?_⟩
  · rw [le32, field_field (by decide)]
    exact hname
  · intro d hd
    obtain ⟨e, he, rfl⟩ := mem_map.mp hd
    exact htoc.wf e he
  · intro d hd
    obtain ⟨e, he, rfl⟩ := mem_map.mp hd
    obtain ⟨n, hn⟩ := Option.isSome_iff_exists.mp (hall e he).known
    simp [imageAt, hn]
  · intro d hd
    obtain ⟨e, he, rfl⟩ := mem_map.mp hd
    exact length_field (hall e he).inside
  · intro hd
    obtain ⟨e, he, hu⟩ := hdual hd
    exact ⟨imageAt data e, mem_map_of_mem he, hu⟩

theorem length_tocBytes (hwf : fip.Wf) : (tocBytes fip).length = tocEnd fip.images.length := by
  have hu : ∀ e ∈ fip.images.map Image.toc, e.uuid.length = 16 := by
    intro e he
    obtain ⟨d, hd, rfl⟩ := mem_map.mp he
    exact (hwf.toc d hd).1.uuid
  have hentries := length_flatMap_encode hu
  rw [flatMap_map, length_map] at hentries
  rw [tocBytes, length_append, length_append, hwf.length_header, hentries,
    length_encode (length_beBytes 16 0), tocEnd, mul_succ, add_assoc]

/-- The buffer `buf'` holds the image `d`; a checksum record is about the buffer `buf`. -/
structure Shown (h : Hashes) (buf : Bytes) (d : Image) (buf' : Bytes) : Prop where
  content : d.toc.uuid ≠ uuidFipChksum → field buf' d.toc.offset d.toc.size = d.data
  chksum_size : d.toc.uuid = uuidFipChksum → chksumSize ≤ d.toc.size
  record : d.toc.uuid = uuidFipChksum →
    field buf' d.toc.offset chksumSize = (chksumOf h buf d.toc.offset).encode

/-- What is known of the buffer `buf'` after the image `d` was written over `buf`. -/
structure Written (h : Hashes) (buf : Bytes) (d : Image) (buf' : Bytes) : Prop
    extends Shown h buf d buf' where
  length : buf'.length = buf.length
  inside : d.toc.finish ≤ buf.length
  outside : ∀ x, ¬d.toc.Covers x → buf'[x]? = buf[x]?

theorem Shown.congr {buf'' : Bytes} (hs : Shown h buf d buf')
    (hsame : ∀ x, d.toc.Covers x → buf''[x]? = buf'[x]?) : Shown h buf d buf'' := by
  refine ⟨fun hne => ?_, hs.chksum_size, fun hchk => ?_⟩
  · rw [← hs.content hne]
    exact field_congr fun x hlo hhi => hsame x ⟨hlo, hhi⟩
  · have hsize := hs.chksum_size hchk
    rw [← hs.record hchk]
    exact field_congr fun x hlo hhi => hsame x ⟨hlo, by unfold finish; omega⟩

theorem Chksum.decode_encode {c : Chksum} (hlen : c.len < 2 ^ 32) (hcrc : c.crc < 2 ^ 32)
    (hsha : c.sha256sum.length = 32) : decode c.encode = c := by
  obtain ⟨len, crc, sha⟩ := c
  have hself (n : Nat) : field (leBytes 4 n) 0 4 = leBytes 4 n := by
    simpa using field_self (leBytes 4 n)
  have hl : le32 (encode ⟨len, crc, sha⟩) 0 = len := by
    rw [encode, append_assoc, le32, field_append_left (by simp), hself, leNat_leBytes]
    exact mod_eq_of_lt hlen
  have hc : le32 (encode ⟨len, crc, sha⟩) 4 = crc := by
    rw [encode, append_assoc, le32, field_append_right (by simp), length_leBytes, Nat.sub_self,
      field_append_left (by simp), hself, leNat_leBytes]
    exact mod_eq_of_lt hcrc
  have hs : field (encode ⟨len, crc, sha⟩) 8 32 = sha := by
    rw [encode, field_append_right (by simp), length_append, length_leBytes, length_leBytes,
      Nat.sub_self, ← hsha, field_self]
  rw [decode, hl, hc, hs]

theorem copyTo_ok {b : Bytes} {off : Nat} (hcopy : copyTo buf off b = .ok buf') :
    off + b.length ≤ buf.length ∧ buf' = splice buf off b := by
  unfold copyTo at hcopy
  split at hcopy
  · rename_i hle
    cases hcopy
    exact ⟨hle, rfl⟩
  · cases hcopy

theorem length_encode_chksumOf (offset : Nat) :
    (chksumOf h buf offset).encode.length = chksumSize := by
  simp [Chksum.encode, chksumOf, h.length_sha256, chksumSize]

theorem writeImage_ok (hlen : d.data.length = d.toc.size)
    (hwrite : writeImage h buf d = .ok buf') : Written h buf d buf' := by
  unfold writeImage at hwrite
  by_cases hchk : d.toc.uuid = uuidFipChksum
  · rw [if_pos hchk] at hwrite
    obtain ⟨hsize, hwrite⟩ := of_guard hwrite nofun
    split at hwrite
    · cases hwrite
    rename_i zeroed hzero
    obtain ⟨hle, rfl⟩ := copyTo_ok hzero
    obtain ⟨hle', rfl⟩ := copyTo_ok hwrite
    have hrec : (chksumOf h buf d.toc.offset).encode.length = chksumSize :=
      length_encode_chksumOf d.toc.offset
    have hfill : (List.replicate (d.toc.size - chksumSize) (0 : UInt8)).length =
        d.toc.size - chksumSize := length_replicate
    refine ⟨⟨fun hne => absurd hchk hne, fun _ => not_lt.mp hsize, fun _ => ?_⟩, ?_, ?_, ?_⟩
    · rw [field_splice_inside hle' le_rfl (by omega), Nat.sub_self, ← hrec, field_self]
    · rw [length_splice hle', length_splice hle]
    · unfold finish
      omega
    · intro x hx
      simp only [Covers, Within, finish] at hx
      rw [splice_getElem? hle', if_neg (by omega), splice_getElem? hle,
        if_neg (by omega)]
  · rw [if_neg hchk] at hwrite
    obtain ⟨hle, rfl⟩ := copyTo_ok hwrite
    refine ⟨⟨fun _ => ?_, fun hc => absurd hc hchk, fun hc => absurd hc hchk⟩, length_splice hle,
      ?_, ?_⟩
    · rw [field_splice_inside hle le_rfl (by omega), Nat.sub_self, ← hlen, field_self]
    · unfold finish
      omega
    · intro x hx
      simp only [Covers, Within, finish] at hx
      rw [splice_getElem? hle, if_neg (by omega)]

theorem writeImages_cons_ok (hwrite : writeImages h buf (d :: l) = .ok buf') :
    ∃ mid, writeImage h buf d = .ok mid ∧ writeImages h mid l = .ok buf' := by
  rw [writeImages] at hwrite
  split at hwrite
  · cases hwrite
  · rename_i mid hmid
    exact ⟨mid, hmid, hwrite⟩

theorem writeImages_append_ok (hwrite : writeImages h buf (l1 ++ l2) = .ok buf') :
    ∃ mid, writeImages h buf l1 = .ok mid ∧ writeImages h mid l2 = .ok buf' := by
  induction l1 generalizing buf with
  | nil => exact ⟨buf, rfl, hwrite⟩
  | cons d l1 ih =>
    obtain ⟨b, hb, hrest⟩ := writeImages_cons_ok hwrite
    obtain ⟨mid, hmid, hmid'⟩ := ih hrest
    refine ⟨mid, ?_, hmid'⟩
    rw [writeImages, hb]
    exact hmid

theorem writeImages_frame (hlen : ∀ d ∈ l, d.data.length = d.toc.size)
    (hwrite : writeImages h buf l = .ok buf') :
    buf'.length = buf.length ∧ (∀ d ∈ l, d.toc.finish ≤ buf.length) ∧
      ∀ x, (∀ d ∈ l, ¬d.toc.Covers x) → buf'[x]? = buf[x]? := by
  induction l generalizing buf with
  | nil =>
    cases hwrite
    exact ⟨rfl, by simp, fun _ _ => rfl⟩
  | cons d l ih =>
    obtain ⟨hd, hl⟩ := forall_mem_cons.mp hlen
    obtain ⟨mid, hmid, hrest⟩ := writeImages_cons_ok hwrite
    have hw := writeImage_ok hd hmid
    obtain ⟨hlength, hinside, hout⟩ := ih hl hrest
    rw [hw.length] at hlength hinside
    refine ⟨hlength, forall_mem_cons.mpr ⟨hw.inside, hinside⟩, ?_⟩
    intro x hx
    obtain ⟨hxd, hxl⟩ := forall_mem_cons.mp hx
    rw [hout x hxl, hw.outside x hxd]

theorem writeImages_at (hlen : ∀ d' ∈ l1 ++ d :: l2, d'.data.length = d'.toc.size)
    (hwrite : writeImages h buf (l1 ++ d :: l2) = .ok buf') :
    ∃ mid after, writeImages h buf l1 = .ok mid ∧ Written h mid d after ∧
      ∀ x, (∀ d' ∈ l2, ¬d'.toc.Covers x) → buf'[x]? = after[x]? := by
  obtain ⟨mid, hmid, hrest⟩ := writeImages_append_ok hwrite
  obtain ⟨after, hafter, hlast⟩ := writeImages_cons_ok hrest
  refine ⟨mid, after, hmid, writeImage_ok (hlen d (by simp)) hafter, ?_⟩
  exact (writeImages_frame (fun d' hd' => hlen d' (by simp [hd'])) hlast).2.2

def packageLen (fip : Package) : Nat :=
  tocEnd fip.images.length + (fip.images.map fun d => d.toc.size).sum

structure Created (h : Hashes) (fip : Package) (dataOut buf : Bytes) (len : Nat) : Prop where
  size : fip.size ≤ dataOut.length
  room : tocEnd fip.images.length ≤ dataOut.length
  write : writeImages h (splice dataOut 0 (tocBytes fip)) fip.images = .ok buf
  len_eq : len = packageLen fip

variable {dataOut : Bytes} {len : Nat}

theorem fipCreate_ok (hwf : fip.Wf) (hcreate : fipCreate h fip dataOut = .ok (buf, len)) :
    Created h fip dataOut buf len := by
  have hlen := length_tocBytes hwf
  unfold fipCreate at hcreate
  obtain ⟨hsize, hcreate⟩ := of_guard hcreate nofun
  split at hcreate
  · cases hcreate
  rename_i b hb
  obtain ⟨hle, rfl⟩ := copyTo_ok hb
  split at hcreate
  · cases hcreate
  · rename_i b' hb'
    cases hcreate
    exact ⟨not_lt.mp hsize, by omega, hb', by rw [hlen, packageLen]⟩

theorem Created.frame (hwf : fip.Wf) (hc : Created h fip dataOut buf len) :
    buf.length = dataOut.length ∧ (∀ d ∈ fip.images, d.toc.finish ≤ dataOut.length) ∧ ∀ x,
      (∀ d ∈ fip.images, ¬d.toc.Covers x) → buf[x]? = (splice dataOut 0 (tocBytes fip))[x]? := by
  have hfit : 0 + (tocBytes fip).length ≤ dataOut.length := by
    have := hc.room
    rw [length_tocBytes hwf]
    omega
  have hframe := writeImages_frame hwf.length hc.write
  rwa [length_splice hfit] at hframe

/-- What the images `l` and the ToC of the package put into the buffer, and where. -/
def pieces (fip : Package) (l : List Image) : List (Nat × Bytes) := (0, tocBytes fip) ::
    (l.filter fun d => d.toc.uuid ≠ uuidFipChksum).map fun d => (d.toc.offset, d.data)

def HoldsAt (p : Nat × Bytes) (x : Nat) (v : UInt8) : Prop := p.1 ≤ x ∧ p.2[x - p.1]? = some v

/-- Images that overlap one another or the ToC hold the same bytes there.  A checksum record shares
no byte, and what lies below it has been written before it. -/
structure Consistent (fip : Package) (maxLen : Nat) : Prop where
  room : packageLen fip ≤ maxLen
  ends : fip.size ≤ packageLen fip
  fits : ∀ d ∈ fip.images, d.toc.finish ≤ packageLen fip
  agree : ∀ p ∈ pieces fip fip.images, ∀ q ∈ pieces fip fip.images, ∀ x v w, HoldsAt p x v →
    HoldsAt q x w → v = w
  narrow : ∀ c ∈ fip.images, c.toc.uuid = uuidFipChksum → c.toc.offset < 2 ^ 32
  clear : ∀ c ∈ fip.images, c.toc.uuid = uuidFipChksum → ∀ x, c.toc.Covers x →
    tocEnd fip.images.length ≤ x
  apart : ∀ c ∈ fip.images, c.toc.uuid = uuidFipChksum →
    ∀ d ∈ fip.images, d.toc.uuid ≠ uuidFipChksum → ∀ x, c.toc.Covers x → ¬d.toc.Covers x
  records : fip.images.Pairwise fun c d => c.toc.uuid = uuidFipChksum → d.toc.uuid = uuidFipChksum →
    ∀ x, c.toc.Covers x → ¬d.toc.Covers x
  below : ∀ l₁ c l₂, fip.images = l₁ ++ c :: l₂ → c.toc.uuid = uuidFipChksum → ∀ d ∈ l₂,
    ∀ x < c.toc.offset, d.toc.Covers x → x < tocEnd fip.images.length ∨ ∃ b ∈ l₁, b.toc.Covers x

/-- The buffer holds the ToC and the images `l`, checksum records apart. -/
def Kept (fip : Package) (l : List Image) (buf : Bytes) : Prop :=
  ∀ p ∈ pieces fip l, ∀ x v, HoldsAt p x v → buf[x]? = some v

section Kept

variable {maxLen : Nat} (hwf : fip.Wf) (hcons : Consistent fip maxLen)

theorem mem_pieces {p : Nat × Bytes} : p ∈ pieces fip l ↔
    p = (0, tocBytes fip) ∨ ∃ d ∈ l, d.toc.uuid ≠ uuidFipChksum ∧ (d.toc.offset, d.data) = p := by
  simp only [pieces, mem_cons, mem_map, mem_filter, decide_eq_true_eq, and_assoc]

theorem piece_mem (hd : d ∈ l) (hne : d.toc.uuid ≠ uuidFipChksum) :
    (d.toc.offset, d.data) ∈ pieces fip l :=
  mem_pieces.mpr (.inr ⟨d, hd, hne, rfl⟩)

theorem Kept.field {p : Nat × Bytes} (hk : Kept fip l buf) (hp : p ∈ pieces fip l) :
    field buf p.1 p.2.length = p.2 := by
  apply ext_getElem?
  intro i
  rw [field_getElem?]
  split
  · next hi =>
    rw [getElem?_eq_getElem hi]
    exact hk p hp _ _ ⟨le_add_right _ _, by rw [Nat.add_sub_cancel_left, getElem?_eq_getElem hi]⟩
  · next hi => rw [getElem?_eq_none (not_lt.mp hi)]

include hwf

theorem covers_iff (hd : d ∈ fip.images) (x : Nat) :
    d.toc.Covers x ↔ ∃ v, HoldsAt (d.toc.offset, d.data) x v := by
  simp only [Covers, Within, finish, HoldsAt, ← hwf.length d hd, exists_and_left]
  refine and_congr_right fun hlo => ?_
  rw [← Option.isSome_iff_exists, isSome_getElem?]
  omega

theorem lt_tocEnd_iff (x : Nat) :
    x < tocEnd fip.images.length ↔ ∃ v, HoldsAt (0, tocBytes fip) x v := by
  simp only [HoldsAt, Nat.zero_le, true_and, Nat.sub_zero]
  rw [← Option.isSome_iff_exists, isSome_getElem?, length_tocBytes hwf]

include hcons

theorem Kept.write (hsub : l ⊆ fip.images) (hd : d ∈ fip.images) (hw : Written h buf d buf')
    (hk : Kept fip l buf) : Kept fip (l ++ [d]) buf' := by
  have hnew (hne : d.toc.uuid ≠ uuidFipChksum) {x : Nat} {v : UInt8}
      (hv : HoldsAt (d.toc.offset, d.data) x v) : buf'[x]? = some v := by
    obtain ⟨hlo, hhi⟩ := (covers_iff hwf hd x).mpr ⟨v, hv⟩
    unfold finish at hhi
    rw [← hv.2, ← hw.content hne, field_getElem?, if_pos (by omega), Nat.add_sub_cancel' hlo]
  have hold {p : Nat × Bytes} (hp : p ∈ pieces fip l) {x : Nat} {v : UInt8} (hv : HoldsAt p x v) :
      buf'[x]? = some v := by
    by_cases hcov : d.toc.Covers x
    · by_cases hne : d.toc.uuid = uuidFipChksum
      · rcases mem_pieces.mp hp with rfl | ⟨e, he, hne', rfl⟩
        · exact absurd ((lt_tocEnd_iff hwf x).mpr ⟨v, hv⟩)
            (not_lt.mpr (hcons.clear d hd hne x hcov))
        · exact absurd ((covers_iff hwf (hsub he) x).mpr ⟨v, hv⟩)
            (hcons.apart d hd hne e (hsub he) hne' x hcov)
      · obtain ⟨w, hw'⟩ := (covers_iff hwf hd x).mp hcov
        have hp' : p ∈ pieces fip fip.images := by
          rcases mem_pieces.mp hp with rfl | ⟨e, he, hne', rfl⟩
          · exact mem_cons_self
          · exact piece_mem (hsub he) hne'
        rw [hcons.agree p hp' _ (piece_mem hd hne) x v w hv hw']
        exact hnew hne hw'
    · rw [hw.outside x hcov]
      exact hk p hp x v hv
  intro p hp x v hv
  rcases mem_pieces.mp hp with rfl | ⟨e, he, hne, rfl⟩
  · exact hold mem_cons_self hv
  · rcases mem_append.mp he with he | he
    · exact hold (piece_mem he hne) hv
    · obtain rfl := mem_singleton.mp he
      exact hnew hne hv

theorem Kept.writeImages {l' : List Image} (hsub : l ++ l' ⊆ fip.images) (hk : Kept fip l buf)
    (hwrite : Fip.writeImages h buf l' = .ok buf') : Kept fip (l ++ l') buf' := by
  induction l' generalizing l buf with
  | nil =>
    cases hwrite
    rwa [append_nil]
  | cons d l' ih =>
    obtain ⟨mid, hmid, hrest⟩ := writeImages_cons_ok hwrite
    have hd : d ∈ fip.images := hsub (by simp)
    have hw := writeImage_ok (hwf.length d hd) hmid
    rw [append_cons] at hsub ⊢
    exact ih hsub (hk.write hwf hcons (fun _ hx => hsub (by simp [hx])) hd hw) hrest

theorem Created.kept (hc : Created h fip dataOut buf len) {l₁ l₂ : List Image}
    (hl : fip.images = l₁ ++ l₂)
    (hwrite : Fip.writeImages h (splice dataOut 0 (tocBytes fip)) l₁ = .ok buf') :
    Kept fip l₁ buf' := by
  refine Kept.writeImages hwf hcons (l := []) (by simp [hl]) (fun p hp x v hv => ?_) hwrite
  obtain rfl : p = (0, tocBytes fip) := by simpa [pieces] using hp
  have hlt := (lt_tocEnd_iff hwf x).mpr ⟨v, hv⟩
  have hroom := hc.room
  rw [← length_tocBytes hwf] at hlt hroom
  rw [splice_getElem? (by omega), if_pos (by omega)]
  exact hv.2

/-- A checksum record is held, and it is about the whole package. -/
theorem Created.record (hc : Created h fip dataOut buf len) (hd : d ∈ fip.images)
    (hchk : d.toc.uuid = uuidFipChksum) :
    ∃ mid, Shown h mid d buf ∧ chksumOf h mid d.toc.offset = chksumOf h buf d.toc.offset := by
  obtain ⟨l₁, l₂, hl⟩ := append_of_mem hd
  have hlen := hwf.length
  have hwrite := hc.write
  have hrecords := hcons.records
  rw [hl] at hlen hwrite hrecords
  obtain ⟨mid, after, hmid, hw, hrest⟩ := writeImages_at hlen hwrite
  have hfirst := hc.kept hwf hcons hl hmid
  have hlast := hc.kept hwf hcons (append_nil _).symm hc.write
  have hin : ∀ b ∈ l₂, b ∈ fip.images := fun b hb => by simp [hl, hb]
  refine ⟨mid, hw.toShown.congr fun x hx => hrest x fun b hb hbx => ?_, ?_⟩
  · by_cases hb' : b.toc.uuid = uuidFipChksum
    · exact (pairwise_cons.mp (pairwise_append.mp hrecords).2.1).1 b hb hchk hb' x hx hbx
    · exact hcons.apart d hd hchk b (hin b hb) hb' x hx hbx
  have hsame : mid.take (u32 d.toc.offset) = buf.take (u32 d.toc.offset) := by
    apply field_congr (o := 0)
    intro x _ hx
    have hlt : x < d.toc.offset := by
      unfold u32 at hx
      omega
    by_cases hcov : ∃ b ∈ l₂, b.toc.Covers x
    · obtain ⟨b, hb, hbx⟩ := hcov
      -- the byte was there before
      obtain ⟨p, hp, hp', v, hv⟩ : ∃ p ∈ pieces fip l₁, p ∈ pieces fip fip.images ∧
          ∃ v, HoldsAt p x v := by
        rcases hcons.below l₁ d l₂ hl hchk b hb x hlt hbx with htoc | ⟨a, ha, hax⟩
        · exact ⟨_, mem_cons_self, mem_cons_self, (lt_tocEnd_iff hwf x).mp htoc⟩
        · have ha' : a ∈ fip.images := by simp [hl, ha]
          have hne : a.toc.uuid ≠ uuidFipChksum := fun hc => by
            by_cases hb' : b.toc.uuid = uuidFipChksum
            · exact (pairwise_append.mp hrecords).2.2 a ha b (by simp [hb]) hc hb' x hax hbx
            · exact hcons.apart a ha' hc b (hin b hb) hb' x hax hbx
          exact ⟨_, piece_mem ha hne, piece_mem ha' hne, (covers_iff hwf ha' x).mp hax⟩
      rw [hfirst p hp x v hv, hlast p hp' x v hv]
    · push Not at hcov
      rw [hrest x hcov, hw.outside x fun hcov => absurd hcov.1 (by omega)]
  simp [chksumOf, hsame]

end Kept

theorem Created.toc (hwf : fip.Wf) (hc : Created h fip dataOut buf len)
    (htoc : field buf 0 (tocEnd fip.images.length) = tocBytes fip) (hsize : fip.size < 2 ^ 64) :
    fipMinSize ≤ (buf.take len).length ∧ le32 (buf.take len) 0 = tocHeaderName ∧ Toc (buf.take len)
      tocHeaderSize (fip.images.map Image.toc) (some ⟨uuidNull, fip.size, 0, 0⟩) := by
  have hroom := hc.room
  have hge : tocEnd fip.images.length ≤ len := hc.len_eq ▸ le_add_right _ _
  have hlength : tocEnd fip.images.length ≤ (buf.take len).length := by
    rw [length_take, (hc.frame hwf).1]
    omega
  have hend : tocEnd fip.images.length = tocHeaderSize + tocEntrySize * (fip.images.length + 1) :=
    rfl
  have hhead : field (buf.take len) 0 tocHeaderSize = fip.tocHeader := by
    have hfst := congrArg (field · 0 tocHeaderSize) htoc
    rw [field_field (by omega), tocBytes, append_assoc,
      field_append_left (by rw [hwf.length_header]; omega), ← hwf.length_header, field_self] at hfst
    rw [field_take (by omega), ← hwf.length_header]
    exact hfst
  refine ⟨?_, ?_, ?_⟩
  · simp only [fipMinSize, tocHeaderSize, tocEntrySize] at hend ⊢
    omega
  · have hname := hwf.header
    rw [← hhead, le32, field_field (by decide)] at hname
    exact hname
  · apply Toc.of_field
    · rw [length_map]
      omega
    · have hsnd := congrArg (field · tocHeaderSize (tocEntrySize * (fip.images.length + 1))) htoc
      have hall := length_tocBytes hwf
      rw [tocBytes, append_assoc, length_append, hwf.length_header] at hall
      rw [field_field (by omega), tocBytes, append_assoc,
        field_append_right hwf.length_header.le, hwf.length_header, Nat.sub_self,
        zero_add] at hsnd
      rw [length_map, flatMap_map, field_take (by omega)]
      rw [hsnd, ← Nat.add_left_cancel (hall.trans hend), field_self]
    · intro e he
      obtain ⟨d, hd, rfl⟩ := mem_map.mp he
      exact hwf.toc d hd
    · exact ⟨length_beBytes 16 0, hsize, Nat.two_pow_pos 64, Nat.two_pow_pos 64⟩
    · rfl

end MtkBoot.Fip
