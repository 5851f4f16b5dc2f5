import MtkBoot.Fip.Agree
import MtkBoot.Fip.Create

/-! When a package survives `fip_update` and `fip_create`.  The images listed after the replaced one
are moved right behind it. -/

namespace MtkBoot.Fip

open Lib Bl2 List Image TocEntry

variable {fip fip' : Package} {left rest right : List Image} {offset size : Nat}

variable {h : Hashes} {dual : Bool} {data dataIn dataOut buf : Bytes} {name : Str} {fip₁ : Package}
  {k len : Nat}
variable {l l' : List Image} {n : Str} {j : Nat} {d : Image}

def Image.replace (desc : Image) (dataIn : Bytes) : Image :=
  { desc with data := dataIn, toc := { desc.toc with size := dataIn.length } }

def endToEnd : Nat → List Image → List Image
  | _, [] => []
  | offset, d :: l =>
    { d with toc := { d.toc with offset := offset } } :: endToEnd (offset + d.toc.size) l

/-- The package after the update: the images listed after the image `k` follow it end to end. -/
def updatedFip (fip : Package) (k : Nat) (dataIn : Bytes) : Package :=
  match fip.images.drop k with
  | [] => fip
  | desc :: right =>
    let finish := desc.toc.offset + dataIn.length
    ⟨fip.tocHeader, fip.images.take k ++ desc.replace dataIn :: endToEnd finish right,
      finish + (right.map fun d => d.toc.size).sum⟩

/-- `fip_update` keeps everything of an image but its place. -/
structure Moved (d d' : Image) : Prop where
  name : d'.name = d.name
  data : d'.data = d.data
  uuid : d'.toc.uuid = d.toc.uuid
  size : d'.toc.size = d.toc.size
  flags : d'.toc.flags = d.toc.flags

theorem placeAfter_moved {desc : TocEntry} {offset size : Nat}
    (hplace : placeAfter desc offset l = .ok (l', size)) (hoff : offset < 2 ^ 64) :
    Forall₂ Moved l l' ∧ size < 2 ^ 64 ∧ ∀ d ∈ l', d.toc.offset < 2 ^ 64 := by
  induction l generalizing offset l' with
  | nil =>
    cases hplace
    exact ⟨.nil, hoff, by simp⟩
  | cons next l ih =>
    simp only [placeAfter] at hplace
    split at hplace
    · cases hplace
    · split at hplace
      · cases hplace
      · rename_i rest size' hrest
        cases hplace
        obtain ⟨hmoved, hsize, hall⟩ := ih hrest (u64_lt _)
        exact ⟨.cons ⟨rfl, rfl, rfl, rfl, rfl⟩ hmoved, hsize, forall_mem_cons.mpr ⟨hoff, hall⟩⟩

theorem placeAfter_eq {desc : TocEntry} (hplace : placeAfter desc offset l = .ok (l', size))
    (hsmall : ∀ d ∈ l', d.toc.finish < 2 ^ 64) :
    l' = endToEnd offset l ∧ size = offset + (l.map fun d => d.toc.size).sum := by
  induction l generalizing offset l' with
  | nil =>
    cases hplace
    exact ⟨rfl, rfl⟩
  | cons next l ih =>
    simp only [placeAfter] at hplace
    split at hplace
    · cases hplace
    split at hplace
    · cases hplace
    rename_i rest size' hrest
    cases hplace
    obtain ⟨hfirst, hothers⟩ := forall_mem_cons.mp hsmall
    have hvalue : u64 (offset + next.toc.size) = offset + next.toc.size := u64_of_lt hfirst
    rw [hvalue] at hrest
    obtain ⟨rfl, rfl⟩ := ih hrest hothers
    exact ⟨rfl, by rw [map_cons, sum_cons, Nat.add_assoc]⟩

theorem map_eq_of_moved {α : Type} {f : Image → α} (hmoved : Forall₂ Moved l l')
    (hf : ∀ d d', Moved d d' → f d' = f d) : l'.map f = l.map f := by
  induction hmoved with
  | nil => rfl
  | cons hd _ ih => rw [map_cons, map_cons, hf _ _ hd, ih]

theorem exists_moved (hmoved : Forall₂ Moved l l') : ∀ d' ∈ l', ∃ d ∈ l, Moved d d' := by
  induction hmoved with
  | nil => simp
  | cons hd _ ih =>
    refine forall_mem_cons.mpr ⟨⟨_, mem_cons_self, hd⟩, fun d' hd' => ?_⟩
    obtain ⟨d, hmem, hm⟩ := ih d' hd'
    exact ⟨d, mem_cons_of_mem _ hmem, hm⟩

structure Update (fip : Package) (k : Nat) (dataIn : Bytes) (fip₁ : Package)
    (left : List Image) (desc : Image) (right rest : List Image) : Prop where
  images : fip.images = left ++ desc :: right
  index : left.length = k
  small : desc.toc.offset + dataIn.length < 2 ^ 64
  place : placeAfter (desc.replace dataIn).toc (desc.toc.offset + dataIn.length) right =
    .ok (rest, fip₁.size)
  header : fip₁.tocHeader = fip.tocHeader
  images₁ : fip₁.images = left ++ desc.replace dataIn :: rest

theorem fipUpdate_ok (hfind : fipFindImageDesc fip name = .ok k)
    (hupd : fipUpdate fip name dataIn = .ok fip₁) :
    ∃ left desc right rest, Update fip k dataIn fip₁ left desc right rest := by
  unfold fipUpdate at hupd
  simp only [hfind] at hupd
  split at hupd
  · cases hupd
  rename_i desc hdesc
  obtain ⟨hlt, hget⟩ := List.getElem?_eq_some_iff.mp hdesc
  have hsplit : fip.images = fip.images.take k ++ desc :: fip.images.drop (k + 1) := by
    rw [← hget, getElem_cons_drop, take_append_drop]
  obtain ⟨hnowrap, hupd⟩ := of_guard hupd nofun
  have hsmall : desc.toc.offset + dataIn.length < 2 ^ 64 := by
    unfold u64 at hnowrap
    omega
  rw [u64_of_lt hsmall] at hupd
  split at hupd
  · cases hupd
  · rename_i rest size hrest
    cases hupd
    exact ⟨_, desc, _, rest, hsplit, length_take_of_le hlt.le, hsmall, hrest, rfl, rfl⟩

section

variable {desc : Image}

variable (hu : Update fip k dataIn fip₁ left desc right rest)
include hu

theorem Update.moved : Forall₂ Moved right rest ∧ fip₁.size < 2 ^ 64 ∧
    ∀ d ∈ rest, d.toc.offset < 2 ^ 64 :=
  placeAfter_moved hu.place hu.small

theorem Update.map_eq {α : Type} {f : Image → α} (hf : ∀ d d', Moved d d' → f d' = f d)
    (hdesc : f (desc.replace dataIn) = f desc) : fip₁.images.map f = fip.images.map f := by
  rw [hu.images, hu.images₁, map_append, map_append, map_cons, map_cons, hdesc,
    map_eq_of_moved hu.moved.1 hf]

omit hu in
theorem Update.wf (hwf : fip.Wf) (hu : Update fip k dataIn fip₁ left desc right rest) :
    fip₁.Wf := by
  have hmem (d : Image) (hd : d ∈ fip₁.images) : d ∈ fip.images ∨ d = desc.replace dataIn ∨
        ∃ d0 ∈ fip.images, Moved d0 d ∧ d.toc.offset < 2 ^ 64 := by
    rw [hu.images₁] at hd
    rw [hu.images]
    rcases mem_append.mp hd with hd | hd
    · exact .inl (mem_append_left _ hd)
    · rcases mem_cons.mp hd with hd | hd
      · exact .inr (.inl hd)
      · obtain ⟨d0, hd0, hm⟩ := exists_moved hu.moved.1 d hd
        exact .inr (.inr ⟨d0, by simp [hd0], hm, hu.moved.2.2 d hd⟩)
  have hdesc : desc ∈ fip.images := by rw [hu.images]; simp
  refine ⟨hu.header ▸ hwf.length_header, hu.header ▸ hwf.header, ?_, ?_, ?_⟩
  · intro d hd
    rcases hmem d hd with hd | rfl | ⟨d0, hd0, hm, hoff⟩
    · exact hwf.toc d hd
    · obtain ⟨hw, hn⟩ := hwf.toc desc hdesc
      have hsmall := hu.small
      exact ⟨⟨hw.uuid, hw.offset, by simp only [Image.replace]; omega, hw.flags⟩, hn⟩
    · obtain ⟨hw, hn⟩ := hwf.toc d0 hd0
      exact ⟨⟨hm.uuid ▸ hw.uuid, hoff, hm.size ▸ hw.size, hm.flags ▸ hw.flags⟩, hm.uuid ▸ hn⟩
  · intro d hd
    rcases hmem d hd with hd | rfl | ⟨d0, hd0, hm, -⟩
    · exact hwf.known d hd
    · exact hwf.known desc hdesc
    · rw [hm.uuid, hm.name]
      exact hwf.known d0 hd0
  · intro d hd
    rcases hmem d hd with hd | rfl | ⟨d0, hd0, hm, -⟩
    · exact hwf.length d hd
    · rfl
    · rw [hm.data, hm.size]
      exact hwf.length d0 hd0

theorem Update.eq_updatedFip (hsmall : ∀ d ∈ fip₁.images, d.toc.finish < 2 ^ 64) :
    fip₁ = updatedFip fip k dataIn := by
  obtain ⟨header₁, images₁, size₁⟩ := fip₁
  obtain ⟨himages, rfl, -, hplace, hheader, himages₁⟩ := hu
  dsimp only at hsmall hplace hheader himages₁
  subst hheader himages₁
  obtain ⟨rfl, rfl⟩ := placeAfter_eq hplace fun d hd => hsmall d (by simp [hd])
  simp [updatedFip, himages]

omit hu in
theorem fipFindImageDesc_congr (hnames : fip'.images.map Image.name = fip.images.map Image.name)
    (n : Str) : fipFindImageDesc fip' n = fipFindImageDesc fip n := by
  have hmap (l : List Image) : (l.findIdx? fun d => d.name = imageName n) =
      (l.map name).findIdx? (· = imageName n) := by
    rw [findIdx?_map]
    rfl
  unfold fipFindImageDesc
  rw [hmap, hmap, hnames]

omit hu in
theorem lt_of_find (hfind : fipFindImageDesc fip n = .ok j) : j < fip.images.length := by
  unfold fipFindImageDesc at hfind
  split at hfind
  · cases hfind
  · split at hfind
    · rename_i i hi
      cases hfind
      exact (findIdx?_eq_some_iff_getElem.mp hi).1
    · cases hfind

omit hu in
theorem fipGetImage_ok (hfind : fipFindImageDesc fip n = .ok j) (hd : fip.images[j]? = some d) :
    fipGetImage fip n = .ok d.data := by
  unfold fipGetImage
  simp only [hfind, hd]

theorem Update.names : fip₁.images.map Image.name = fip.images.map Image.name :=
  hu.map_eq (fun _ _ hm => hm.name) rfl

theorem Update.get (hd : fip₁.images[j]? = some d) : ∃ d0, fip.images[j]? = some d0 ∧
    d0.toc.uuid = d.toc.uuid ∧ (j = k → d.data = dataIn) ∧ (j ≠ k → d.data = d0.data) := by
  have huuid := congrArg (·[j]?) (hu.map_eq (f := fun d => d.toc.uuid) (fun _ _ hm => hm.uuid) rfl)
  simp only [getElem?_map, hd, Option.map_some] at huuid
  obtain ⟨d0, hd0, heq⟩ := Option.map_eq_some_iff.mp huuid.symm
  refine ⟨d0, hd0, heq, ?_, ?_⟩
  · rintro rfl
    rw [hu.images₁, ← hu.index, getElem?_append_right le_rfl, Nat.sub_self] at hd
    cases hd
    rfl
  intro hjk
  have hmap : (fip₁.images.map data)[j]? = (fip.images.map data)[j]? := by
    rw [hu.images, hu.images₁, map_append, map_append, map_cons, map_cons,
      map_eq_of_moved hu.moved.1 fun _ _ hm => hm.data]
    rcases lt_or_ge j left.length with hj | hj
    · rw [getElem?_append_left (by simpa using hj), getElem?_append_left (by simpa using hj)]
    · obtain ⟨i, rfl⟩ : ∃ i, j = left.length + (i + 1) :=
        ⟨j - left.length - 1, by have := hu.index; omega⟩
      rw [getElem?_append_right (by simp), getElem?_append_right (by simp),
        length_map, Nat.add_sub_cancel_left, getElem?_cons_succ,
        getElem?_cons_succ]
  simpa [hd, hd0] using hmap

end

/-- The image `k` can be replaced in a buffer of `maxLen` bytes. -/
structure Updatable (fip : Package) (k : Nat) (dataIn : Bytes) (maxLen : Nat) : Prop where
  image : ∀ d ∈ fip.images[k]?, d.toc.uuid ≠ uuidFipChksum
  consistent : Consistent (updatedFip fip k dataIn) maxLen

structure RoundTrip (h : Hashes) (dual : Bool) (fip : Package) (k : Nat)
    (dataIn buf : Bytes) (len : Nat) : Prop where
  room : len ≤ buf.length
  reads : ∃ fip', initFip h dual (buf.take len) = .ok fip' ∧ ∀ n j, fipFindImageDesc fip n = .ok j →
      (j = k → fipGetImage fip' n = .ok dataIn) ∧ (j ≠ k →
        (∀ d ∈ fip.images[j]?, d.toc.uuid ≠ uuidFipChksum) → fipGetImage fip' n = fipGetImage fip n)

def reread (fip₁ : Package) (out : Bytes) : Package :=
  ⟨field out 0 tocHeaderSize, (fip₁.images.map Image.toc).map (imageAt out),
    sizeOf out (fip₁.images.map Image.toc)⟩

theorem reread_get {out : Bytes} (hwf : fip₁.Wf) (hfind : fipFindImageDesc fip₁ n = .ok j)
    (hd : fip₁.images[j]? = some d) :
    fipGetImage (reread fip₁ out) n = .ok (field out d.toc.offset d.toc.size) := by
  have himage : (reread fip₁ out).images[j]? = some (imageAt out d.toc) := by simp [reread, hd]
  have hnames : (reread fip₁ out).images.map Image.name = fip₁.images.map Image.name := by
    simp only [reread, map_map]
    exact map_congr_left fun d hd => by simp [imageAt, hwf.known d hd]
  rw [← fipFindImageDesc_congr hnames] at hfind
  exact fipGetImage_ok hfind himage

theorem Update.roundTrip {desc : Image}
    (hwf : fip₁.Wf) (hu : Update fip k dataIn fip₁ left desc right rest)
    (himage : ∀ d ∈ fip.images[k]?, d.toc.uuid ≠ uuidFipChksum) (hroom : len ≤ buf.length)
    (hinit : initFip h dual (buf.take len) = .ok (reread fip₁ (buf.take len)))
    (hfield : ∀ d ∈ fip₁.images, d.toc.uuid ≠ uuidFipChksum → field (buf.take len)
      d.toc.offset d.toc.size = d.data) : RoundTrip h dual fip k dataIn buf len := by
  refine ⟨hroom, _, hinit, fun n j hfind => ?_⟩
  have hfind1 := hfind
  rw [← fipFindImageDesc_congr hu.names] at hfind1
  obtain ⟨d, hd⟩ : ∃ d, fip₁.images[j]? = some d := ⟨_, getElem?_eq_getElem (lt_of_find hfind1)⟩
  have hmem := mem_of_getElem? hd
  obtain ⟨d0, hd0, huuid, hsame, hkept⟩ := hu.get hd
  rw [reread_get hwf hfind1 hd]
  constructor
  · rintro rfl
    rw [hfield d hmem (huuid ▸ himage d0 hd0), hsame rfl]
  · intro hj hne
    rw [hfield d hmem (huuid ▸ hne d0 hd0), fipGetImage_ok hfind hd0, hkept hj]

theorem Shown.valid {mid : Bytes} (hs : Shown h mid d buf) (hchk : d.toc.uuid = uuidFipChksum)
    (hfin : d.toc.finish ≤ len) (hnarrow : d.toc.offset < 2 ^ 32)
    (hsum : chksumOf h mid d.toc.offset = chksumOf h buf d.toc.offset) :
    (Chksum.decode (field (buf.take len) d.toc.offset chksumSize)).Valid h d.toc.offset
      ((buf.take len).take d.toc.offset) := by
  have hsize := hs.chksum_size hchk
  unfold finish at hfin
  rw [field_take (by omega), hs.record hchk, chksumOf, Chksum.decode_encode (u32_lt _)
    (h.crc32 _).toNat_lt (h.length_sha256 _), ← chksumOf, hsum, take_take, min_eq_left (by omega)]
  simp only [Chksum.Valid, chksumOf, u32_of_lt hnarrow, and_self]

/-- A consistent package is read again as it was written. -/
theorem Created.reads (hwf : fip₁.Wf) (hcons : Consistent fip₁ dataOut.length)
    (hc : Created h fip₁ dataOut buf len) (hmax : dataOut.length < 2 ^ 64)
    (hdual : dual → ∃ d ∈ fip₁.images, d.toc.uuid = uuidFipChksum) : len ≤ buf.length ∧
    initFip h dual (buf.take len) = .ok (reread fip₁ (buf.take len)) ∧ ∀ d ∈ fip₁.images,
      d.toc.uuid ≠ uuidFipChksum → field (buf.take len) d.toc.offset d.toc.size = d.data := by
  obtain ⟨hlength, hinside, -⟩ := hc.frame hwf
  have hkept := hc.kept hwf hcons (append_nil _).symm hc.write
  have hroom := hcons.room
  have hends := hcons.ends
  have hfits := hcons.fits
  have hlen := hc.len_eq
  have hout : (buf.take len).length = len := by rw [length_take, min_eq_left (by omega)]
  have htoc := hkept.field mem_cons_self
  rw [length_tocBytes hwf] at htoc
  obtain ⟨hmin, hname, htoc⟩ := hc.toc hwf htoc (by omega)
  refine ⟨by omega, initFip_ok_iff.mpr ⟨hmin, hname, _, _, htoc, ?_,
    ?_, by simpa using hdual, rfl⟩, ?_⟩
  · intro e he
    obtain ⟨d, hd, rfl⟩ := mem_map.mp he
    have hfin : d.toc.finish ≤ len := hlen ▸ hfits d hd
    refine ⟨by simp [hwf.known d hd], lt_of_le_of_lt (hinside d
      hd) hmax, by rw [hout]; exact hfin, ?_, ?_⟩
    · intro hchk
      obtain ⟨mid, hs, -⟩ := hc.record hwf hcons hd hchk
      exact hs.chksum_size hchk
    · intro hchk
      obtain ⟨mid, hs, hsum⟩ := hc.record hwf hcons hd hchk
      exact hs.valid hchk hfin (hcons.narrow d hd hchk) hsum
  · rintro x ⟨⟩
    exact ⟨rfl, show fip₁.size ≤ _ by omega⟩
  · intro d hd hne
    rw [field_take (hlen ▸ hfits d hd), ← hwf.length d hd]
    exact hkept.field (piece_mem hd hne)

/-- Images that are the same or lie apart, and the checksum record at the end. -/
theorem Consistent.of_ordered {maxLen : Nat} (hroom : packageLen fip ≤ maxLen)
    (hends : fip.size ≤ packageLen fip) (hfits : ∀ d ∈ fip.images, d.toc.finish ≤ packageLen fip)
    (hagree : ∀ p ∈ pieces fip fip.images, ∀ q ∈ pieces fip fip.images,
      p = q ∨ p.1 + p.2.length ≤ q.1 ∨ q.1 + q.2.length ≤ p.1)
    (hnarrow : ∀ c ∈ fip.images, c.toc.uuid = uuidFipChksum → c.toc.offset < 2 ^ 32)
    (hrecord : ∀ c ∈ fip.images, c.toc.uuid = uuidFipChksum → tocEnd fip.images.length ≤
      c.toc.offset ∧ ∀ d ∈ fip.images, d.toc.uuid ≠ uuidFipChksum → d.toc.finish ≤ c.toc.offset)
    (hlast : fip.images.Pairwise fun c _ => c.toc.uuid ≠ uuidFipChksum) :
    Consistent fip maxLen := by
  refine ⟨hroom, hends, hfits, ?_, hnarrow, ?_, ?_, ?_, ?_⟩
  · rintro p hp q hq x v w ⟨hpx, hv⟩ ⟨hqx, hw⟩
    have hpx' := (List.getElem?_eq_some_iff.mp hv).1
    have hqx' := (List.getElem?_eq_some_iff.mp hw).1
    obtain rfl | hout := hagree p hp q hq
    · exact Option.some.inj (hv.symm.trans hw)
    · omega
  · intro c hc hchk x hx
    exact (hrecord c hc hchk).1.trans hx.1
  · intro c hc hchk d hd hne x hx hdx
    have hle := (hrecord c hc hchk).2 d hd hne
    exact absurd (lt_of_lt_of_le hdx.2 (hle.trans hx.1)) (lt_irrefl x)
  · exact hlast.imp fun hne hchk => absurd hchk hne
  · intro l₁ c l₂ hl hchk d hd
    rw [hl] at hlast
    exact absurd hchk ((pairwise_cons.mp (pairwise_append.mp hlast).2.1).1 d hd)

/-! ### Small packages -/

def packageOf (es : List TocEntry) (body : Bytes) (chksum : Nat) : Bytes :=
  leBytes 4 tocHeaderName ++ leBytes 4 1 ++ leBytes 8 0 ++ es.flatMap TocEntry.encode
  ++ TocEntry.encode ⟨uuidFipChksum, chksum, 40, 0⟩
  ++ TocEntry.encode ⟨uuidNull, chksum + 40, 0, 0⟩
  ++ body ++ Chksum.encode ⟨chksum, 0, List.replicate 32 0⟩

def packedFip : Bytes := packageOf [⟨uuidBl31, 176, 1, 0⟩, ⟨uuidBl33, 177, 1, 0⟩] [0x31, 0x33] 178

def paddedFip : Bytes := packageOf [⟨uuidBl31, 176, 1, 0⟩, ⟨uuidBl33, 192, 1, 0⟩]
    (0x31 :: List.replicate 15 0 ++ [0x33]) 193

/-- Two images share their only byte. -/
def sharedFip : Bytes :=
  packageOf [⟨uuidBl31, 216, 1, 0⟩, ⟨uuidBl32, 216, 1, 0⟩, ⟨uuidBl33, 217, 1, 0⟩] [0x31, 0x33] 218

/-- The image listed first lies behind the second one. -/
def swappedFip : Bytes := packageOf [⟨uuidBl33, 177, 1, 0⟩, ⟨uuidBl31, 176, 1, 0⟩] [0x31, 0x33] 178

def erasedBuf : Bytes := List.replicate 320 0xff

def parsed (data : Bytes) : Package :=
  match initFip zeroHashes true data with
  | .ok fip => fip
  | .error _ => ⟨[], [], 0⟩

def updated (data : Bytes) (name : Str) (dataIn : Bytes) : Package :=
  match fipUpdate (parsed data) name dataIn with
  | .ok fip => fip
  | .error _ => parsed data

def written (data : Bytes) (name : Str) (dataIn : Bytes) : Bytes × Nat :=
  match fipCreate zeroHashes (updated data name dataIn) erasedBuf with
  | .ok out => out
  | .error _ => ([], 0)

theorem sharedFip_updatable : Updatable (parsed sharedFip) 2 [0x44, 0x45] erasedBuf.length :=
  ⟨by decide +kernel, .of_ordered (by decide +kernel) (by decide +kernel) (by decide +kernel)
    (by decide +kernel) (by decide +kernel) (by decide +kernel) (by decide +kernel)⟩

/-- The package is accepted, updated and written, and does not come back. -/
def Broken (data : Bytes) (name : Str) (k : Nat) (dataIn : Bytes) : Prop :=
  initFip zeroHashes true data = .ok (parsed data) ∧
  fipFindImageDesc (parsed data) name = .ok k ∧
  fipUpdate (parsed data) name dataIn = .ok (updated data name dataIn) ∧
  fipCreate zeroHashes (updated data name dataIn) erasedBuf = .ok (written data name dataIn) ∧
  ¬RoundTrip zeroHashes true (parsed data) k dataIn (written data name dataIn).1
    (written data name dataIn).2

end MtkBoot.Fip
