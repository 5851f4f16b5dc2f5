import MtkBoot.Fip.Update

/-! The buffers of both sides.  `fip_create` compares its buffer with the size of the package only.
BL2 reads a checksum record whose place it has compared with nothing when its end wraps. -/

namespace MtkBoot.Fip

open Lib Bl2 List Nat

/-! ### `fip_create` -/

/-- The packages that `init_fip` and any number of successful calls of `fip_update` lead to. -/
inductive Obtained (h : Hashes) (dual : Bool) : Package → Prop
  | init {data : Bytes} {fip : Package} (hinit : initFip h dual data = .ok fip) :
      Obtained h dual fip
  | update {fip fip₁ : Package} {name : Str} {dataIn : Bytes} (hfip : Obtained h dual fip)
    (hupd : fipUpdate fip name dataIn = .ok fip₁) : Obtained h dual fip₁

/-- The image ends within `len` bytes, and a checksum record has its full size. -/
def Image.Fits (d : Image) (len : Nat) : Prop :=
  d.toc.finish ≤ len ∧ (d.toc.uuid = uuidFipChksum → chksumSize ≤ d.toc.size)

section Create

variable {h : Hashes} {dual : Bool} {fip : Package} {buf dataOut : Bytes} {d : Image}
  {l : List Image}

theorem Obtained.wf (hfip : Obtained h dual fip) : fip.Wf := by
  induction hfip with
  | init hinit => exact (initFip_wf hinit).1
  | @update fip fip₁ name dataIn hfip hupd ih =>
    cases hfind : fipFindImageDesc fip name with
    | error err => simp [fipUpdate, hfind] at hupd
    | ok k =>
      obtain ⟨left, desc, right, rest, hu⟩ := fipUpdate_ok hfind hupd
      exact hu.wf ih

/-- An image is written if it fits; `fip_create` does not ask. -/
theorem writeImage_cases (hlen : d.data.length = d.toc.size) :
    (d.Fits buf.length ∧ ∃ buf', writeImage h buf d = .ok buf') ∨
      (¬d.Fits buf.length ∧ writeImage h buf d = .error .fault) := by
  simp only [Image.Fits, TocEntry.finish, writeImage, copyTo]
  split
  · next hchk =>
    have hrec : (chksumOf h buf d.toc.offset).encode.length = chksumSize :=
      length_encode_chksumOf d.toc.offset
    rw [length_replicate]
    split
    · exact .inr ⟨fun hfit => absurd (hfit.2 hchk) (by omega), rfl⟩
    next hsize =>
    split
    · next hzero =>
      split at hzero
      · cases hzero
      · cases hzero
        exact .inr ⟨by omega, rfl⟩
    · next hzero =>
      split at hzero
      · next hend =>
        cases hzero
        rw [if_pos (by rw [length_splice (by rwa [length_replicate]), hrec]; omega)]
        exact .inl ⟨⟨by omega, fun _ => by omega⟩, _, rfl⟩
      · cases hzero
  · next hchk =>
    split
    · exact .inl ⟨⟨by omega, fun hc => absurd hc hchk⟩, _, rfl⟩
    · exact .inr ⟨by omega, rfl⟩

theorem writeImages_cases (hlen : ∀ d ∈ l, d.data.length = d.toc.size) :
    ((∀ d ∈ l, d.Fits buf.length) ∧ ∃ buf', writeImages h buf l = .ok buf') ∨
      ((¬∀ d ∈ l, d.Fits buf.length) ∧ writeImages h buf l = .error .fault) := by
  induction l generalizing buf with
  | nil => exact .inl ⟨by simp, buf, rfl⟩
  | cons d l ih =>
    obtain ⟨hd, hl⟩ := forall_mem_cons.mp hlen
    rw [writeImages, forall_mem_cons]
    rcases @writeImage_cases h buf d hd with ⟨hfit, mid, hmid⟩ | ⟨hfit, herr⟩
    · have hrest := @ih mid hl
      rw [(writeImage_ok hd hmid).length] at hrest
      simpa [hmid, hfit] using hrest
    · rw [herr]
      exact .inr ⟨fun hfits => hfit hfits.1, rfl⟩

theorem fipCreate_fault_iff (hwf : fip.Wf) :
    fipCreate h fip dataOut = .error .fault ↔ fip.size ≤ dataOut.length ∧
      ¬(tocEnd fip.images.length ≤ dataOut.length ∧ ∀ d ∈ fip.images, d.Fits dataOut.length) := by
  unfold fipCreate copyTo
  rw [length_tocBytes hwf, zero_add]
  by_cases hsize : dataOut.length < fip.size
  · rw [if_pos hsize]
    exact iff_of_false (by simp) fun hc => absurd hc.1 (not_le.mpr hsize)
  rw [if_neg hsize]
  by_cases hroom : tocEnd fip.images.length ≤ dataOut.length
  · have hcases := @writeImages_cases h (splice dataOut 0 (tocBytes fip)) _ hwf.length
    rw [length_splice (by rw [length_tocBytes hwf]; omega)] at hcases
    rw [if_pos hroom]
    dsimp only
    rcases hcases with ⟨hfits, buf, hbuf⟩ | ⟨hfits, herr⟩
    · rw [hbuf]
      exact iff_of_false (fun hc => nomatch hc) fun hc => hc.2 ⟨hroom, hfits⟩
    · rw [herr]
      exact iff_of_true rfl ⟨not_lt.mp hsize, fun hc => hfits hc.2⟩
  · rw [if_neg hroom]
    exact iff_of_true rfl ⟨not_lt.mp hsize, fun hc => hroom hc.1⟩

/-- `fip_create` fails or stays in its buffer exactly when the size of the package covers the ToC
with its terminator and every image, and no checksum record has been replaced by something
shorter. -/
theorem fip_create_in_buffer_iff (hfip : Obtained h dual fip) :
    (∀ dataOut, fipCreate h fip dataOut ≠ .error .fault) ↔
      tocEnd fip.images.length ≤ fip.size ∧ ∀ d ∈ fip.images, d.Fits fip.size := by
  simp only [ne_eq, fipCreate_fault_iff hfip.wf, not_and_not_right]
  constructor
  · intro hin
    simpa using hin (List.replicate fip.size 0)
  · rintro ⟨hroom, hfits⟩ dataOut hsize
    exact ⟨hroom.trans hsize, fun d hd => ⟨(hfits d hd).1.trans hsize, (hfits d hd).2⟩⟩

end Create

theorem fip_create_in_buffer_packed : (parsed packedFip).size = 218 ∧
    ∀ dataOut, fipCreate zeroHashes (parsed packedFip) dataOut ≠ .error .fault := by
  have htocs : (parsed packedFip).images.map Image.toc = [⟨uuidBl31, 176, 1, 0⟩,
    ⟨uuidBl33, 177, 1, 0⟩, ⟨uuidFipChksum, 178, 40, 0⟩] := by decide +kernel
  have hsize : (parsed packedFip).size = 218 := by decide +kernel
  have hobt : Obtained zeroHashes true (parsed packedFip) :=
    .init (show initFip zeroHashes true packedFip = _ by decide +kernel)
  refine ⟨hsize, (fip_create_in_buffer_iff hobt).mpr ⟨by decide +kernel, fun d hd => ?_⟩⟩
  have htoc := mem_map_of_mem (f := Image.toc) hd
  simp only [htocs, mem_cons, not_mem_nil, or_false] at htoc
  rw [Image.Fits, hsize]
  rcases htoc with htoc | htoc | htoc <;> rw [htoc] <;> decide +kernel

/-- A header and one entry, for an image that lies over the header; no terminator. -/
def bareFip : Bytes :=
  leBytes 4 tocHeaderName ++ leBytes 4 1 ++ leBytes 8 0 ++ TocEntry.encode ⟨uuidBl33, 0, 1, 0⟩

theorem fip_create_past_buffer : initFip zeroHashes false bareFip = .ok
      ⟨field bareFip 0 16, [⟨ascii "nt-fw", field bareFip 0 1, ⟨uuidBl33, 0, 1, 0⟩⟩], 1⟩ ∧
      fipCreate zeroHashes
        ⟨field bareFip 0 16, [⟨ascii "nt-fw", field bareFip 0 1, ⟨uuidBl33, 0, 1, 0⟩⟩], 1⟩
      (List.replicate 64 0) = .error .fault := by
  decide +kernel

/-! ### The buffer of BL2 -/

namespace Bl2

def entryOf (slot : Mem) (i : Nat) : TocEntry :=
  .decode (bytesAt slot (tocHeaderSize + tocEntrySize * i) tocEntrySize)

/-- The entries before the `n`-th are named, none begins before the entry after the next, and a
checksum record has its full size. -/
structure Listed (slot : Mem) (n : Nat) : Prop where
  few : n < tocEntryMaxNum
  named : ∀ i < n, (entryOf slot i).uuid ≠ uuidNull
  behind : ∀ i < n, tocHeaderSize + tocEntrySize * (i + 2) ≤ (entryOf slot i).offset
  whole : ∀ i < n, (entryOf slot i).uuid = uuidFipChksum → chksumSize ≤ (entryOf slot i).size

/-- The ToC has `n` entries before its terminator, and all of them end, modulo `2^64`, before the
offset of that. -/
structure Closed (slot : Mem) (n : Nat) : Prop extends Listed slot n where
  null : (entryOf slot n).uuid = uuidNull
  empty : (entryOf slot n).size = 0
  first : tocHeaderSize + tocEntrySize ≤ (entryOf slot n).offset
  ends : ∀ i < n, u64 ((entryOf slot i).offset + (entryOf slot i).size) ≤ (entryOf slot n).offset

/-- Of every accepted ToC the last checksum record before the terminator lies inside the buffer. -/
def RecordInside (uuids : List Uuid) (slot : Mem) : Prop :=
  let hdr := bytesAt slot 0 tocHeaderSize
  le32 hdr 0 = tocHeaderName → le32 hdr 4 ≠ 0 → ∀ n, Closed slot n →
    (entryOf slot n).offset ≤ dualFipBufSize → (∀ u ∈ uuids, ∃ i < n, (entryOf slot i).uuid = u) →
    ∀ i < n, (entryOf slot i).uuid = uuidFipChksum →
      (∀ j, i < j → j < n → (entryOf slot j).uuid ≠ uuidFipChksum) →
      (entryOf slot i).offset + chksumSize ≤ dualFipBufSize

section Scan

variable {slot : Mem} {s s' : Scan} {fuel n : Nat}

theorem Closed.unique (h : Closed slot n) {m : Nat} (h' : Closed slot m) : n = m := by
  rcases lt_trichotomy n m with hlt | heq | hgt
  · exact absurd h.null (h'.named n hlt)
  · exact heq
  · exact absurd h'.null (h.named m hgt)

/-- What the loop knows of the entries it has seen; `chksum_offs` is the place of the last checksum
record. -/
structure Noted (slot : Mem) (s : Scan) : Prop where
  seen : ∀ u, u ∈ s.seen ↔ ∃ i < s.ntoc, (entryOf slot i).uuid = u
  none : s.chksumOffs = 0 → ∀ i < s.ntoc, (entryOf slot i).uuid ≠ uuidFipChksum
  last : s.chksumOffs ≠ 0 → ∃ i < s.ntoc, (entryOf slot i).uuid = uuidFipChksum ∧
    (∀ j, i < j → j < s.ntoc → (entryOf slot j).uuid ≠ uuidFipChksum) ∧
    s.chksumOffs = (entryOf slot i).offset

/-- The loop at its head: the next entry is in the buffer. -/
structure Scanning (slot : Mem) (s : Scan) : Prop extends Listed slot s.ntoc, Noted slot s where
  pos_eq : s.pos = tocHeaderSize + tocEntrySize * s.ntoc
  len_eq : s.fipReadLen = tocHeaderSize + tocReadLen * (s.ntoc / tocEntryReadNum + 1)
  max_le : ∀ m, s.maxEnd ≤ m ↔ tocHeaderSize + tocEntrySize ≤ m ∧
    ∀ i < s.ntoc, u64 ((entryOf slot i).offset + (entryOf slot i).size) ≤ m

/-- The loop has stopped at the terminator. -/
structure Scanned (slot : Mem) (s : Scan) : Prop extends Closed slot s.ntoc, Noted slot s where
  max_eq : s.maxEnd = (entryOf slot s.ntoc).offset
  read_le : s.fipReadLen ≤ dualFipBufSize

theorem scanning_start : Scanning slot Scan.start where
  few := by decide
  named i hi := absurd hi (not_lt_zero i)
  behind i hi := absurd hi (not_lt_zero i)
  whole i hi := absurd hi (not_lt_zero i)
  seen := by simp [Scan.start]
  none _ i hi := absurd hi (not_lt_zero i)
  last h := absurd rfl h
  pos_eq := rfl
  len_eq := rfl
  max_le := by simp [Scan.start]

theorem Scanning.entry (hs : Scanning slot s) :
    TocEntry.decode (bytesAt slot s.pos tocEntrySize) = entryOf slot s.ntoc := by
  rw [entryOf, hs.pos_eq]

theorem Scanning.room (hs : Scanning slot s) :
    s.pos + tocEntrySize ≤ s.fipReadLen ∧ s.fipReadLen ≤ dualFipBufSize := by
  have hpos := hs.pos_eq
  have hlen := hs.len_eq
  have hfew := hs.few
  simp only [tocHeaderSize, tocReadLen, tocEntrySize, tocEntryReadNum, tocEntryMaxNum,
    dualFipBufSize] at *
  omega

theorem Listed.mono {m : Nat} (h : Listed slot n) (hle : m ≤ n) : Listed slot m where
  few := hle.trans_lt h.few
  named i hi := h.named i (hi.trans_le hle)
  behind i hi := h.behind i (hi.trans_le hle)
  whole i hi := h.whole i (hi.trans_le hle)

/-- More of the ToC is read behind every sixteenth entry, but not behind the last one. -/
theorem refill_eq {k : Nat} (hn : s.ntoc = k + 1) (hk : k < tocEntryMaxNum)
    (hpos : s.pos = tocHeaderSize + tocEntrySize * (k + 1))
    (hlen : s.fipReadLen = tocHeaderSize + tocReadLen * (k / tocEntryReadNum + 1)) :
    s.refill = if k + 1 < tocEntryMaxNum then .ok { s with
      fipReadLen := tocHeaderSize + tocReadLen * ((k + 1) / tocEntryReadNum + 1) }
        else .error .ebadmsg := by
  obtain ⟨pos, fipReadLen, maxEnd, ntoc, chksumOffs, seen⟩ := s
  simp only at hn hpos hlen
  subst hn hpos hlen
  have hcases : k + 1 = 16 ∨ k + 1 = 32 ∨ (k + 1) / 16 = k / 16 ∧ (k + 1) % 16 ≠ 0 ∧
      k + 1 < 32 := by
    change k < 32 at hk
    omega
  unfold Scan.refill
  simp only [tocReadLen, tocEntryMaxNum, tocEntryReadNum, tocEntrySize, tocHeaderSize,
    dualFipBufSize]
  rcases hcases with h | h | ⟨heq, hne, hlt⟩
  · simp [show k = 15 by omega]
  · simp [show k = 31 by omega]
  · have hfull : ¬16 + 16 * 40 * (k / 16 + 1) - (16 + 40 * (k + 1)) < 40 := by omega
    simp only [hfull, if_false, show k + 1 < 16 * 2 from hlt, if_true, heq]

theorem Noted.next (hs : Noted slot s) (hoff : (entryOf slot s.ntoc).offset ≠ 0) :
    Noted slot (s.next (entryOf slot s.ntoc)) := by
  refine ⟨fun u => ?_, fun hzero => ?_, fun hne => ?_⟩
  · rw [Scan.next, mem_cons, hs.seen, exists_lt_succ_right, or_comm, eq_comm]
  · simp only [Scan.next] at hzero ⊢
    split at hzero
    · exact absurd hzero hoff
    · next hu =>
      exact forall_lt_succ_right.mpr ⟨hs.none hzero, hu⟩
  · simp only [Scan.next] at hne ⊢
    split at hne
    · next hu =>
      exact ⟨s.ntoc, lt_succ_self _, hu, fun j hj hj' => by omega, if_pos hu⟩
    · next hu =>
      obtain ⟨i, hi, hiu, hlast, heq⟩ := hs.last hne
      refine ⟨i, lt_succ_of_lt hi, hiu, fun j hj hj' => ?_, by rw [if_neg hu, heq]⟩
      rcases lt_or_eq_of_le (le_of_lt_succ hj') with hlt | rfl
      · exact hlast j hj hlt
      · exact hu

/-- An entry that is not the terminator is accepted exactly if the list goes on. -/
theorem Scanning.next (hs : Scanning slot s) (hnamed : (entryOf slot s.ntoc).uuid ≠ uuidNull) :
    (∃ s', checkEntry s (entryOf slot s.ntoc) = .ok s' ∧ Scanning slot s' ∧ s'.ntoc = s.ntoc + 1) ∨
      (∃ err, checkEntry s (entryOf slot s.ntoc) = .error err) ∧ ¬Listed slot (s.ntoc + 1) := by
  have hpos := hs.pos_eq
  have hlen := hs.len_eq
  unfold checkEntry
  split
  · next hoff =>
    refine .inr ⟨⟨_, rfl⟩, fun hl => ?_⟩
    have := hl.behind s.ntoc (lt_succ_self _)
    unfold tocEntrySize at *
    omega
  next hoff =>
  split
  · next hsize =>
    exact .inr ⟨⟨_, rfl⟩, fun hl => absurd (hl.whole s.ntoc (lt_succ_self _) hsize.1) (by omega)⟩
  next hsize =>
  rw [refill_eq (s := s.next _) rfl hs.few (by simp only [Scan.next, hpos, mul_succ, add_assoc])
    hs.len_eq]
  split
  · next hfew =>
    refine .inl ⟨_, rfl, ?_, rfl⟩
    have hnoted := hs.toNoted.next (by unfold tocEntrySize at hoff; omega)
    refine ⟨⟨hfew, ?_, ?_, ?_⟩, ⟨hnoted.seen, hnoted.none, hnoted.last⟩, ?_, rfl, fun m => ?_⟩
    · exact forall_lt_succ_right.mpr ⟨hs.named, hnamed⟩
    · exact forall_lt_succ_right.mpr ⟨hs.behind, by unfold tocEntrySize at *; omega⟩
    · exact forall_lt_succ_right.mpr ⟨hs.whole, fun hu => not_lt.mp fun hlt => hsize ⟨hu, hlt⟩⟩
    · simp only [Scan.next, hpos, mul_succ, add_assoc]
    · simp only [Scan.next, Nat.max_le, hs.max_le, and_assoc, forall_lt_succ_right]
  · next hfew => exact .inr ⟨⟨_, rfl⟩, fun hl => hfew hl.few⟩

/-- The loop returns the state at the terminator, and it does so if there is one. -/
theorem Scanning.run (hs : Scanning slot s) (hfuel : tocEntryMaxNum ≤ s.ntoc + fuel) :
    (∀ a ∈ scanAccesses slot fuel s, a.Inside) ∧
    (∀ s', scanToc slot fuel s = .ok s' → Scanned slot s') ∧
      ∀ n, s.ntoc ≤ n → Closed slot n → ∃ s', scanToc slot fuel s = .ok s' := by
  induction fuel generalizing s with
  | zero => exact absurd hs.few (not_lt.mpr hfuel)
  | succ fuel ih =>
    have hroom := hs.room
    unfold scanAccesses scanToc
    rw [if_pos (lt_of_lt_of_le (Nat.lt_add_of_pos_right (by decide)) hroom.1),
      if_pos (lt_of_lt_of_le (Nat.lt_add_of_pos_right (by decide)) hroom.1), forall_mem_cons]
    simp only [hs.entry]
    refine and_assoc.mpr ⟨hroom.1.trans hroom.2, ?_⟩
    by_cases hnull : (entryOf slot s.ntoc).uuid = uuidNull
    · simp only [if_pos hnull]
      refine ⟨by simp, fun s' hok => ?_, fun n hn hc => ?_⟩
      · split at hok
        · cases hok
        next hoff =>
        split at hok
        · cases hok
        next hsize =>
        cases hok
        obtain ⟨hfirst, hends⟩ := (hs.max_le _).mp (not_lt.mp hoff)
        exact ⟨⟨hs.toListed, hnull, not_not.mp hsize, hfirst, hends⟩, ⟨hs.seen, hs.none, hs.last⟩,
          rfl, hroom.2⟩
      · obtain rfl : n = s.ntoc := hn.eq_of_not_lt' fun hlt => hc.named _ hlt hnull
        rw [if_neg (not_lt.mpr ((hs.max_le _).mpr ⟨hc.first, hc.ends⟩)),
          if_neg (not_not.mpr hc.empty)]
        exact ⟨_, rfl⟩
    · simp only [if_neg hnull]
      rcases hs.next hnull with ⟨s₁, hok, hs₁, hn₁⟩ | ⟨⟨err, herr⟩, hstop⟩
      · obtain ⟨hin, hsound, hcomplete⟩ := ih hs₁ (by omega)
        have hmono : s.fipReadLen ≤ s₁.fipReadLen := by
          rw [hs.len_eq, hs₁.len_eq, hn₁]
          gcongr
          omega
        simp only [hok]
        refine ⟨forall_mem_cons.mpr ⟨?_, hin⟩, hsound, fun n hn hc => hcomplete n ?_ hc⟩
        · show s.fipReadLen + (s₁.fipReadLen - s.fipReadLen) ≤ dualFipBufSize
          have := hs₁.room
          omega
        · rw [hn₁]
          exact hn.lt_of_ne fun heq => hnull (heq ▸ hc.null)
      · simp only [herr]
        refine ⟨by simp, by simp, fun n hn hc => absurd ?_ hstop⟩
        exact hc.toListed.mono (hn.lt_of_ne fun heq => hnull (heq ▸ hc.null))

end Scan

/-- The accesses of `load_validate_fip` stay in its buffer exactly when the checksum record of a ToC
that passes all checks lies in it. -/
theorem load_validate_in_buffer_iff (uuids : List Uuid) (slot : Mem) :
    (∀ a ∈ accesses uuids slot, a.Inside) ↔ RecordInside uuids slot := by
  have hfuel : tocEntryMaxNum ≤ Scan.start.ntoc + (tocEntryMaxNum + 1) := by decide
  have hstart : Scanning slot Scan.start := scanning_start
  obtain ⟨hscanIn, hsound, hcomplete⟩ := hstart.run hfuel
  constructor
  · intro hin hname hserial n hc hmax hseen i hi hu hlast
    obtain ⟨s, hscan⟩ := hcomplete n (zero_le n) hc
    have hs := hsound s hscan
    obtain rfl := hc.unique hs.toClosed
    have hne : s.chksumOffs ≠ 0 := fun hzero => hs.none hzero i hi hu
    obtain ⟨k, hk, hku, hklast, hoffs⟩ := hs.last hne
    obtain rfl : k = i := by
      rcases lt_trichotomy k i with hlt | heq | hgt
      · exact absurd hu (hklast i hlt hi)
      · exact heq
      · exact absurd hku (hlast k hgt hk)
    have hmem : (⟨s.chksumOffs, chksumSize⟩ : Access) ∈ accesses uuids slot := by
      have hpkg : (⟨s.chksumOffs, chksumSize⟩ : Access) ∈ packageAccesses uuids slot s := by
        rw [packageAccesses, if_neg (by rw [hs.max_eq]; exact not_lt.mpr hmax),
          if_neg (not_not.mpr fun u hu => (hs.seen u).mpr (hseen u hu)), if_neg hne]
        simp
      rw [accesses, if_neg (by simp [hname, hserial]), hscan]
      simp [hpkg]
    rw [← hoffs]
    exact hin _ hmem
  · intro hrec
    unfold accesses
    refine forall_mem_cons.mpr ⟨by unfold Access.Inside; decide,
      forall_mem_cons.mpr ⟨by unfold Access.Inside; decide, ?_⟩⟩
    split
    · simp
    next hhdr =>
    rw [not_or, not_not] at hhdr
    refine forall_mem_append.mpr ⟨hscanIn, ?_⟩
    split
    · simp
    next s hscan =>
    have hs := hsound s hscan
    have hroom := hs.read_le
    unfold packageAccesses
    by_cases hmax : dualFipBufSize < s.maxEnd
    · simp [hmax]
    by_cases hseen : ∀ u ∈ uuids, u ∈ s.seen
    · by_cases hzero : s.chksumOffs = 0
      · simp [hzero]
      rw [if_neg hmax, if_neg (not_not.mpr hseen), if_neg hzero]
      obtain ⟨k, hk, hku, hklast, hoffs⟩ := hs.last hzero
      have hend := hrec hhdr.1 hhdr.2 s.ntoc hs.toClosed (hs.max_eq ▸ not_lt.mp hmax)
        (fun u hu => (hs.seen u).mp (hseen u hu)) k hk hku hklast
      rw [← hoffs] at hend
      have hsmall := u64_of_lt (hend.trans_lt (by decide))
      refine forall_mem_cons.mpr ⟨?_, forall_mem_cons.mpr ⟨hend, ?_⟩⟩
      · show s.fipReadLen + (u64 _ - s.fipReadLen) ≤ dualFipBufSize
        omega
      · split
        · simp
        · simp only [mem_singleton, forall_eq, Access.Inside]
          omega
    · simp [hseen]

/-- A ToC whose checksum entry begins at 32 MiB and ends, modulo `2^64`, at 200. -/
def wrappedFip : Bytes := leBytes 4 tocHeaderName ++ leBytes 4 1 ++ leBytes 8 0
  ++ TocEntry.encode ⟨uuidBl31, 176, 1, 0⟩ ++ TocEntry.encode ⟨uuidBl33, 177, 1, 0⟩
  ++ TocEntry.encode ⟨uuidFipChksum, 0x2000000, 2 ^ 64 - 0x2000000 + 200, 0⟩
  ++ TocEntry.encode ⟨uuidNull, 200, 0, 0⟩

theorem load_validate_past_buffer :
    (⟨656, 0x2000000 + 40 - 656⟩ : Access) ∈ accesses (fipUuids false false) (slotOf wrappedFip) ∧
      dualFipBufSize < 656 + (0x2000000 + 40 - 656) := by
  decide +kernel

end Bl2

end MtkBoot.Fip
