import MtkBoot.Fip.Bl2
import MtkBoot.Fip.Parse

/-! When BL2 boots what U-Boot accepts.  BL2 also wants a serial number, images behind the entry
after their own, and a terminator whose offset is not before the end of any image. -/

namespace MtkBoot.Fip

open Lib Bl2 List Scan

variable {h : Hashes} {data : Bytes} {slot : Mem} {pos fuel : Nat}
  {es : List TocEntry} {t : Option TocEntry} {e : TocEntry} {s s' : Scan}

/-- What BL2 asks beyond `init_fip` of a package with the ToC `es`, ended by `t`. -/
structure Bootable (data : Bytes) (es : List TocEntry) (t : Option TocEntry) : Prop where
  serial : le32 data 4 ≠ 0
  clear : ∀ i e, es[i]? = some e → tocHeaderSize + tocEntrySize * (i + 2) ≤ e.offset
  closed : ∃ x ∈ t, ∀ e ∈ es, e.offset + e.size ≤ x.offset

/-! ### The loop over the ToC -/

structure Ready (s : Scan) : Prop where
  pos_eq : s.pos = tocHeaderSize + tocEntrySize * s.ntoc
  few : s.ntoc ≤ tocEntryReadNum
  once : s.ntoc < tocEntryReadNum → s.fipReadLen = tocHeaderSize + tocReadLen
  twice : s.ntoc = tocEntryReadNum → s.fipReadLen = tocHeaderSize + tocReadLen + tocReadLen

theorem Ready.pos_lt (hs : Ready s) : s.pos < s.fipReadLen := by
  have hpos := hs.pos_eq
  have hfew := hs.few
  have honce := hs.once
  have htwice := hs.twice
  simp only [tocHeaderSize, tocEntrySize, tocReadLen, tocEntryReadNum] at hpos hfew honce htwice
  omega

theorem checkEntry_eq (hs : Ready s) (hnum : s.ntoc < tocEntryReadNum) (hadm : Admitted h data e) :
    ∃ s1, Ready s1 ∧ s1.ntoc = s.ntoc + 1 ∧ s1.maxEnd = max s.maxEnd (e.offset + e.size) ∧ s1.seen =
    e.uuid :: s.seen ∧ s1.chksumOffs = (if e.uuid = uuidFipChksum then e.offset else s.chksumOffs) ∧
      checkEntry s e = if e.offset < s.pos + tocEntrySize * 2 then .error .ebadmsg else .ok s1 := by
  have hpos := hs.pos_eq
  have hlen := hs.once hnum
  have hsize : ¬(e.uuid = uuidFipChksum ∧ e.size < chksumSize) := by
    rintro ⟨hchk, hlt⟩
    exact absurd (hadm.chksum_size hchk) (not_le.mpr hlt)
  have hend : (s.next e).maxEnd = max s.maxEnd (e.offset + e.size) := by
    rw [Scan.next, u64_of_lt hadm.small]
  simp only [tocHeaderSize, tocEntrySize, tocReadLen, tocEntryReadNum] at hpos hlen hnum
  unfold checkEntry
  rw [if_neg hsize]
  by_cases hlast : s.ntoc + 1 < tocEntryReadNum
  · -- The next entry has been read with this one.
    have hrefill : (s.next e).refill = .ok (s.next e) := by
      unfold refill
      rw [if_neg]
      simp only [Scan.next, tocEntrySize, tocEntryReadNum] at hlast ⊢
      omega
    refine ⟨s.next e, ⟨?_, hlast.le, fun _ => hlen, ?_⟩, rfl, hend, rfl, rfl, by rw [hrefill]⟩
    · simp only [Scan.next, tocHeaderSize, tocEntrySize]
      omega
    · intro heq
      exact absurd heq (ne_of_lt hlast)
  · -- The first read ends here, and the second one is allowed.
    have hrefill : (s.next e).refill =
        .ok { s.next e with fipReadLen := (s.next e).fipReadLen + tocReadLen } := by
      unfold refill
      rw [if_pos, if_neg]
      · simp only [Scan.next, tocReadLen, dualFipBufSize, tocEntryMaxNum, tocEntryReadNum,
          tocEntrySize]
        omega
      · simp only [Scan.next, tocEntrySize, tocEntryReadNum] at hlast ⊢
        omega
    refine ⟨{ s.next e with fipReadLen := (s.next e).fipReadLen + tocReadLen },
      ⟨?_, hnum, fun hlt => absurd hlt hlast, ?_⟩, rfl, hend, rfl, rfl, by rw [hrefill]⟩
    · simp only [Scan.next, tocHeaderSize, tocEntrySize]
      omega
    · intro _
      exact congrArg (· + tocReadLen) hlen

theorem scanToc_entry (hslot : bytesAt slot 0 data.length = data) (hs : Ready s)
    (hroom : s.pos + tocEntrySize ≤ data.length) (hnamed : (entryAt data s.pos).uuid ≠ uuidNull) :
    scanToc slot (fuel + 1) s = match checkEntry s (entryAt data s.pos) with
      | .error err => .error err
      | .ok s => scanToc slot fuel s := by
  rw [scanToc, if_pos hs.pos_lt, bytesAt_eq_field hslot hroom]
  exact if_neg hnamed

theorem scanToc_terminator (hslot : bytesAt slot 0 data.length = data) (hs : Ready s)
    (hroom : s.pos + tocEntrySize ≤ data.length) (hnull : (entryAt data s.pos).uuid = uuidNull)
    (hsize : (entryAt data s.pos).size = 0) : scanToc slot (fuel + 1) s =
      if (entryAt data s.pos).offset < s.maxEnd then .error .ebadmsg
      else .ok { s with maxEnd := (entryAt data s.pos).offset } := by
  rw [scanToc, if_pos hs.pos_lt, bytesAt_eq_field hslot hroom]
  change (if (entryAt data s.pos).uuid = uuidNull then _ else _) = _
  rw [if_pos hnull]
  change (if _ then _ else if (entryAt data s.pos).size ≠ 0 then _ else _) = _
  rw [if_neg (not_not.mpr hsize)]
  rfl

/-- The loop accepts only a ToC whose images are clear of it and end before the terminator. -/
theorem scanToc_sound (htoc : Toc data pos es t) (hslot : bytesAt slot 0 data.length = data)
    (hall : ∀ e ∈ es, Admitted h data e) (hends : Ends data t) (hany : es ≠ [] ∨ t.isSome)
    (hs : Ready s) (hpos : s.pos = pos) (hnum : s.ntoc + es.length ≤ tocEntryReadNum)
    (hfuel : es.length < fuel) (hok : scanToc slot fuel s = .ok s') :
    (∀ i e, es[i]? = some e → pos + tocEntrySize * (i + 2) ≤ e.offset) ∧
      ∃ x ∈ t, s.maxEnd ≤ x.offset ∧ ∀ e ∈ es, e.offset + e.size ≤ x.offset := by
  induction htoc generalizing s fuel with
  | cut => simp at hany
  | @terminator pos room null =>
    obtain ⟨fuel, rfl⟩ : ∃ n, fuel = n + 1 := ⟨fuel - 1, by omega⟩
    subst hpos
    rw [scanToc_terminator hslot hs room null (hends _ rfl).1] at hok
    obtain ⟨hend, hok⟩ := of_guard hok nofun
    exact ⟨by simp, _, rfl, not_lt.mp hend, by simp⟩
  | @entry pos es t room named rest ih =>
    obtain ⟨fuel, rfl⟩ : ∃ n, fuel = n + 1 := ⟨fuel - 1, by omega⟩
    obtain ⟨hadm, hrest⟩ := forall_mem_cons.mp hall
    subst hpos
    rw [length_cons] at hnum hfuel
    rw [scanToc_entry hslot hs room named] at hok
    obtain ⟨s1, hs1, hntoc, hmax, -, -, hcheck⟩ := checkEntry_eq hs (by omega) hadm
    rw [hcheck] at hok
    split at hok
    · cases hok
    rename_i heq
    split at heq
    · cases heq
    cases heq
    have hnext : s1.pos = s.pos + tocEntrySize := by
      rw [hs1.pos_eq, hs.pos_eq, hntoc, mul_add, mul_one, add_assoc]
    -- A ToC that the end of the data cuts off has a last image that begins too early.
    have hany' : es ≠ [] ∨ t.isSome := by
      cases rest with
      | cut short =>
        have := hadm.inside
        omega
      | terminator => right; rfl
      | entry => left; simp
    obtain ⟨hcl, x, hx, hmax', hle⟩ := ih hrest hends hany' hs1 hnext (by omega) (by omega) hok
    refine ⟨?_, x, hx, by omega, forall_mem_cons.mpr ⟨by omega, hle⟩⟩
    intro i e he
    cases i with
    | zero =>
      cases he
      omega
    | succ i =>
      have := hcl i e (by simpa using he)
      unfold tocEntrySize at *
      omega

/-- The loop accepts every such ToC, and notes its UUIDs and the place of a checksum record. -/
theorem scanToc_complete (htoc : Toc data pos es t) (hslot : bytesAt slot 0 data.length = data)
    (hall : ∀ e ∈ es, Admitted h data e) (hends : Ends data t) (hs : Ready s) (hpos : s.pos = pos)
    (hnum : s.ntoc + es.length ≤ tocEntryReadNum) (hfuel : es.length < fuel)
    (hclear : ∀ i e, es[i]? = some e → pos + tocEntrySize * (i + 2) ≤ e.offset) {x : TocEntry}
    (hx : x ∈ t) (hmax : s.maxEnd ≤ x.offset) (hclosed : ∀ e ∈ es, e.offset + e.size ≤ x.offset) :
    ∃ s', scanToc slot fuel s = .ok s' ∧ s'.maxEnd = x.offset ∧
      (∀ u ∈ s.seen, u ∈ s'.seen) ∧ (∀ e ∈ es, e.uuid ∈ s'.seen) ∧
      ((s'.chksumOffs = s.chksumOffs ∧ ∀ e ∈ es, e.uuid ≠ uuidFipChksum) ∨
        ∃ e ∈ es, e.uuid = uuidFipChksum ∧ s'.chksumOffs = e.offset) := by
  induction htoc generalizing s fuel with
  | cut => cases hx
  | @terminator pos room null =>
    obtain ⟨fuel, rfl⟩ : ∃ n, fuel = n + 1 := ⟨fuel - 1, by omega⟩
    subst hpos
    cases hx
    refine ⟨{ s with maxEnd := (entryAt data s.pos).offset }, ?_, rfl,
      fun _ hu => hu, by simp, .inl ⟨rfl, by simp⟩⟩
    rw [scanToc_terminator hslot hs room null (hends _ rfl).1,
      if_neg (not_lt.mpr hmax)]
  | @entry pos es t room named rest ih =>
    obtain ⟨fuel, rfl⟩ : ∃ n, fuel = n + 1 := ⟨fuel - 1, by omega⟩
    obtain ⟨hadm, hrest⟩ := forall_mem_cons.mp hall
    obtain ⟨hle, hclosed'⟩ := forall_mem_cons.mp hclosed
    subst hpos
    rw [length_cons] at hnum hfuel
    obtain ⟨s1, hs1, hntoc, hend, hseen, hchk, hcheck⟩ := checkEntry_eq hs (by omega) hadm
    have hfirst := hclear 0 _ rfl
    rw [if_neg (by unfold tocEntrySize at *; omega)] at hcheck
    have hnext : s1.pos = s.pos + tocEntrySize := by
      rw [hs1.pos_eq, hs.pos_eq, hntoc, mul_add, mul_one, add_assoc]
    have hclear' :
        ∀ i e, es[i]? = some e → s.pos + tocEntrySize + tocEntrySize * (i + 2) ≤ e.offset := by
      intro i e he
      have := hclear (i + 1) e (by simpa using he)
      unfold tocEntrySize at *
      omega
    obtain ⟨s', hok, hmax', hkeep, hmem, hoffs⟩ := ih hrest hends hs1 hnext (by omega)
      (show es.length < fuel by omega) hclear' hx (by omega) hclosed'
    refine ⟨s', ?_, hmax', ?_, ?_, ?_⟩
    · rw [scanToc_entry hslot hs room named, hcheck]
      exact hok
    · intro u hu
      exact hkeep u (by rw [hseen]; exact mem_cons_of_mem _ hu)
    · refine forall_mem_cons.mpr ⟨?_, hmem⟩
      exact hkeep _ (by rw [hseen]; exact mem_cons_self)
    · rcases hoffs with ⟨hsame, hnone⟩ | ⟨e, he, hue, hoff⟩
      · rw [hchk] at hsame
        split at hsame
        · rename_i huuid
          exact .inr ⟨_, mem_cons_self, huuid, hsame⟩
        · rename_i huuid
          exact .inl ⟨hsame, forall_mem_cons.mpr ⟨huuid, hnone⟩⟩
      · exact .inr ⟨e, mem_cons_of_mem _ he, hue, hoff⟩

theorem ready_start : Ready start := by exact ⟨rfl, by decide, fun _ => rfl, by decide⟩

theorem checkPackage_ok {uuids : List Uuid} (hslot : bytesAt slot 0 data.length = data)
    (hbuf : data.length ≤ dualFipBufSize) (hmax : s.maxEnd ≤ data.length)
    (hseen : ∀ u ∈ uuids, u ∈ s.seen) (hadm : Admitted h data e) (hchk : e.uuid = uuidFipChksum)
    (hoffs : s.chksumOffs = e.offset) (hpos : 0 < e.offset) :
    checkPackage h uuids slot s = .ok () := by
  have hsize := hadm.chksum_size hchk
  have hin := hadm.inside
  obtain ⟨hlen, hcrc, hsha⟩ := hadm.chksum hchk
  have hrecord : bytesAt slot e.offset chksumSize = field data e.offset chksumSize :=
    bytesAt_eq_field hslot (by omega)
  have hcovered : bytesAt slot 0 e.offset = data.take e.offset := bytesAt_eq_field hslot (by omega)
  unfold checkPackage
  rw [if_neg (by omega), if_neg (not_not.mpr hseen), hoffs, if_neg (by omega), if_neg (by omega)]
  simp [hrecord, hlen, hcovered, hcrc, hsha]

theorem load_validate_fip_iff (h : Hashes) (needBl32 trustedBoardBoot : Bool) (data : Bytes)
    (es : List TocEntry) (t : Option TocEntry) (fip : Package) (slot : Mem)
    (htoc : Toc data tocHeaderSize es t) (hinit : initFip h true data = .ok fip)
    (hbuf : data.length ≤ dualFipBufSize) (hnum : es.length ≤ 16)
    (hreq : ∀ u ∈ fipUuids needBl32 trustedBoardBoot, ∃ e ∈ es, e.uuid = u)
    (hslot : bytesAt slot 0 data.length = data) :
    loadValidateFip h (fipUuids needBl32 trustedBoardBoot) slot = .ok () ↔ Bootable data es t := by
  obtain ⟨hmin, hname, es', t', htoc', hall, hends, hchk, -⟩ := initFip_ok_iff.mp hinit
  obtain ⟨rfl, rfl⟩ := htoc.unique htoc'
  obtain ⟨c, hc, hcu⟩ := hchk rfl
  have hhdr : bytesAt slot 0 tocHeaderSize = field data 0 tocHeaderSize :=
    bytesAt_eq_field hslot (by unfold fipMinSize at hmin; omega)
  have hle (o : Nat) (ho : o + 4 ≤ tocHeaderSize) :
      le32 (field data 0 tocHeaderSize) o = le32 data o := by
    unfold le32 field
    rw [drop_zero, drop_take, take_take, min_eq_left (by omega)]
  have hne : es ≠ [] := ne_nil_of_mem hc
  unfold loadValidateFip
  simp only [hhdr, hle 0 (by decide), hle 4 (by decide), hname, ne_eq, not_true_eq_false, false_or]
  constructor
  · intro hok
    split at hok
    · cases hok
    rename_i hserial
    split at hok
    · cases hok
    · rename_i s' hscan
      obtain ⟨hclear, x, hx, -, hclosed⟩ := scanToc_sound htoc hslot hall hends (.inl hne)
        ready_start rfl (by simpa [start, tocEntryReadNum] using hnum)
        (by unfold tocEntryMaxNum tocEntryReadNum; omega) hscan
      exact ⟨hserial, hclear, x, hx, hclosed⟩
  · rintro ⟨hserial, hclear, x, hx, hclosed⟩
    obtain ⟨i, hi, hci⟩ := mem_iff_getElem.mp hc
    have hcoff := hclear i c (by rw [getElem?_eq_getElem hi, hci])
    have hcend := hclosed c hc
    obtain ⟨s', hscan, hmax, -, hmem, hoffs⟩ := scanToc_complete htoc hslot hall hends ready_start
      rfl (by simpa [start, tocEntryReadNum] using hnum)
      (show es.length < tocEntryMaxNum + 1 by unfold tocEntryMaxNum tocEntryReadNum; omega)
      hclear hx (by simp only [start, tocHeaderSize, tocEntrySize] at *; omega) hclosed
    rw [if_neg hserial, hscan]
    rcases hoffs with ⟨-, hnone⟩ | ⟨d, hd, hdu, hoff⟩
    · exact absurd hcu (hnone c hc)
    obtain ⟨j, hj, hdj⟩ := mem_iff_getElem.mp hd
    have hdoff := hclear j d (by rw [getElem?_eq_getElem hj, hdj])
    refine checkPackage_ok hslot hbuf (hmax ▸ (hends x hx).2) ?_ (hall d hd) hdu hoff ?_
    · intro u hu
      obtain ⟨e, he, rfl⟩ := hreq u hu
      exact hmem e he
    · unfold tocHeaderSize at hdoff
      omega

/-! ### A small package -/

def smallFip (serial terminator : Nat) : Bytes :=
  leBytes 4 tocHeaderName ++ leBytes 4 serial ++ leBytes 8 0 ++
    TocEntry.encode ⟨uuidBl31, 176, 1, 0⟩ ++ TocEntry.encode ⟨uuidBl33, 177, 1, 0⟩ ++
    TocEntry.encode ⟨uuidFipChksum, 178, 40, 0⟩ ++ TocEntry.encode ⟨uuidNull, terminator, 0, 0⟩ ++
    [0x31, 0x33] ++ Chksum.encode ⟨178, 0, List.replicate 32 0⟩

def smallToc : List TocEntry :=
  [⟨uuidBl31, 176, 1, 0⟩, ⟨uuidBl33, 177, 1, 0⟩, ⟨uuidFipChksum, 178, 40, 0⟩]

def zeroHashes : Hashes where
  crc32 _ := 0
  sha256 _ := List.replicate 32 0
  length_sha256 _ := length_replicate

def slotOf (data : Bytes) (i : Nat) : UInt8 := data.getD i 0xff

theorem bytesAt_slotOf (data : Bytes) : bytesAt (slotOf data) 0 data.length = data := by
  apply bytesAt_eq
  intro i hi
  simp [slotOf, hi]

theorem load_validate_fip_iff_small :
    loadValidateFip zeroHashes (fipUuids false false) (slotOf (smallFip 1 218)) = .ok () ↔
      Bootable (smallFip 1 218) smallToc (some ⟨uuidNull, 218, 0, 0⟩) :=
  load_validate_fip_iff zeroHashes false false (smallFip 1 218) smallToc
    (some ⟨uuidNull, 218, 0, 0⟩) ⟨field (smallFip 1 218) 0 16,
    smallToc.map (imageAt (smallFip 1 218)), 218⟩ (slotOf (smallFip 1 218))
    (.entry (by decide +kernel) (by decide +kernel) (.entry (by decide +kernel) (by decide +kernel)
      (.entry
    (by decide +kernel) (by decide +kernel) (.terminator (by decide +kernel) (by decide +kernel)))))
    (by decide +kernel) (by decide +kernel) (by decide) (by decide +kernel) (bytesAt_slotOf _)

def Refused (serial terminator : Nat) : Prop :=
  (initFip zeroHashes true (smallFip serial terminator)).toOption.isSome ∧
    (smallFip serial terminator).length ≤ dualFipBufSize ∧
    Toc (smallFip serial terminator) tocHeaderSize smallToc (some ⟨uuidNull, terminator, 0, 0⟩) ∧
    smallToc.length ≤ 16 ∧ (∀ u ∈ fipUuids false false, ∃ e ∈ smallToc, e.uuid = u) ∧
    bytesAt (slotOf (smallFip serial terminator)) 0 (smallFip serial terminator).length =
      smallFip serial terminator ∧
    loadValidateFip zeroHashes (fipUuids false false) (slotOf (smallFip serial terminator)) =
      .error .ebadmsg

/-- U-Boot accepts a package without a serial number and one whose terminator names no end; BL2
boots neither. -/
theorem load_validate_fip_refuses : Refused 0 218 ∧ Refused 1 0 := by
  constructor
  all_goals
    refine ⟨by decide +kernel, by decide +kernel, ?_, by decide, by decide +kernel,
      bytesAt_slotOf _, by decide +kernel⟩
    apply Toc.entry (by decide +kernel) (by decide +kernel)
    apply Toc.entry (by decide +kernel) (by decide +kernel)
    apply Toc.entry (by decide +kernel) (by decide +kernel)
    exact Toc.terminator (by decide +kernel) (by decide +kernel)

end MtkBoot.Fip
