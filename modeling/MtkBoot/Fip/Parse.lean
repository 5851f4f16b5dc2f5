import MtkBoot.Fip.Package

/-! What `init_fip` accepts: every entry of the ToC is a known image inside the data, every checksum
record covers the bytes before it, and the terminator is empty. -/

namespace MtkBoot.Fip

open Lib

variable {w w' : Walk}

variable {h : Hashes} {data : Bytes} {pos : Nat} {e : TocEntry}

structure Admitted (h : Hashes) (data : Bytes) (e : TocEntry) : Prop where
  known : (lookupImageDesc e.uuid).isSome
  small : e.offset + e.size < 2 ^ 64
  inside : e.offset + e.size ≤ data.length
  chksum_size : e.uuid = uuidFipChksum → chksumSize ≤ e.size
  chksum : e.uuid = uuidFipChksum →
    (Chksum.decode (field data e.offset chksumSize)).Valid h e.offset (data.take e.offset)

def imageAt (data : Bytes) (e : TocEntry) : Image :=
  ⟨(lookupImageDesc e.uuid).getD [], field data e.offset e.size, e⟩

def Walk.add (w : Walk) (data : Bytes) (e : TocEntry) : Walk where
  images := w.images ++ [imageAt data e]
  fipSize := max w.fipSize (e.offset + e.size)
  hasChecksum := w.hasChecksum || decide (e.uuid = uuidFipChksum)

theorem checkChksum_ok_iff : checkChksum h data e = .ok () ↔ chksumSize ≤ e.size ∧
    (Chksum.decode (field data e.offset chksumSize)).Valid h e.offset (data.take e.offset) := by
  unfold checkChksum Chksum.Valid
  generalize Chksum.decode (field data e.offset chksumSize) = c
  by_cases hsize : e.size < chksumSize
  · simp [hsize]
  · by_cases hlen : c.len = e.offset
    · simp only [hsize, if_false, hlen, ne_eq, not_true_eq_false, not_lt.mp hsize, true_and]
      split_ifs <;> simp_all
    · simp [hsize, hlen]

theorem admitEntry_ok_iff (ho : e.offset < 2 ^ 64) (hs : e.size < 2 ^ 64) :
    admitEntry h data w e = .ok w' ↔ Admitted h data e ∧ w' = w.add data e := by
  unfold admitEntry
  cases hname : lookupImageDesc e.uuid with
  | none =>
    simp only [reduceCtorEq, false_iff, not_and]
    intro hadm
    simpa [hname] using hadm.known
  | some name =>
    by_cases hover : e.offset + e.size < 2 ^ 64
    · have himage : imageAt data e = ⟨name, field data e.offset e.size, e⟩ := by
        simp [imageAt, hname]
      simp only [u64_of_lt hover]
      rw [if_neg (by omega)]
      by_cases hin : data.length < e.offset + e.size
      · rw [if_pos hin]
        simp only [reduceCtorEq, false_iff, not_and]
        intro hadm
        exact absurd hadm.inside (not_le.mpr hin)
      rw [if_neg hin]
      by_cases hchk : e.uuid = uuidFipChksum
      · rw [if_pos hchk]
        cases hres : checkChksum h data e with
        | error err =>
          simp only [Except.map, reduceCtorEq, false_iff, not_and]
          intro hadm
          have := checkChksum_ok_iff.mpr ⟨hadm.chksum_size hchk, hadm.chksum hchk⟩
          simp [hres] at this
        | ok u =>
          obtain ⟨hsize, hvalid⟩ := checkChksum_ok_iff.mp hres
          have hadm : Admitted h data e :=
            ⟨by simp [hname], hover, by omega, fun _ => hsize, fun _ => hvalid⟩
          simp [Except.map, hadm, Walk.add, himage, hchk, eq_comm]
      · rw [if_neg hchk]
        have hadm : Admitted h data e :=
          ⟨by simp [hname], hover, by omega, fun hc => absurd hc hchk, fun hc => absurd hc hchk⟩
        simp [hadm, Walk.add, himage, hchk, eq_comm]
    · have hwrap : u64 (e.offset + e.size) < e.offset := by
        unfold u64
        omega
      simp only [hwrap, true_or, if_true, reduceCtorEq, false_iff, not_and]
      intro hadm
      exact absurd hadm.small hover

def Ends (data : Bytes) (t : Option TocEntry) : Prop := ∀ x ∈ t, x.size = 0 ∧ x.offset ≤ data.length

theorem short_ok_iff (hshort : data.length < pos + tocEntrySize) :
    Except.ok (ε := Err) w = .ok w' ↔ ∃ es t, Toc data pos es t ∧ (∀ e ∈ es, Admitted h data e) ∧
      Ends data t ∧ w' = es.foldl (·.add data ·) w := by
  constructor
  · intro hw
    cases hw
    exact ⟨[], none, .cut hshort, by simp, by simp [Ends], rfl⟩
  · rintro ⟨es, t, htoc, -, -, rfl⟩
    cases htoc with
    | cut => rfl
    | terminator room => omega
    | entry room => omega

theorem walkToc_ok_iff {fuel : Nat} (hfuel : data.length < pos + tocEntrySize * (fuel + 1)) :
    walkToc h data fuel pos w = .ok w' ↔ ∃ es t, Toc data pos es t ∧
      (∀ e ∈ es, Admitted h data e) ∧ Ends data t ∧ w' = es.foldl (·.add data ·) w := by
  induction fuel generalizing pos w with
  | zero =>
    rw [walkToc]
    exact short_ok_iff (by omega)
  | succ fuel ih =>
    rw [walkToc]
    by_cases hroom : pos + tocEntrySize ≤ data.length
    · rw [if_pos hroom]
      by_cases hnull : (entryAt data pos).uuid = uuidNull
      · simp only [hnull, if_true]
        constructor
        · intro hw
          split_ifs at hw with hsize hoff
          cases hw
          refine ⟨[], _, .terminator hroom hnull, by simp, ?_, rfl⟩
          intro x hx
          cases hx
          exact ⟨not_not.mp hsize, not_lt.mp hoff⟩
        · rintro ⟨es, t, htoc, -, hends, rfl⟩
          cases htoc with
          | cut short => omega
          | terminator =>
            obtain ⟨hsize, hoff⟩ := hends _ rfl
            rw [if_neg (not_not.mpr hsize), if_neg (not_lt.mpr hoff)]
            rfl
          | entry _ named => exact absurd hnull named
      · simp only [hnull, if_false]
        have hentry (w1 : Walk) : admitEntry h data w (entryAt data pos) = .ok w1 ↔
            Admitted h data (entryAt data pos) ∧ w1 = w.add data (entryAt data pos) :=
          admitEntry_ok_iff (leNat_field_lt _ _ 8) (leNat_field_lt _ _ 8)
        have hnext : data.length < pos + tocEntrySize + tocEntrySize * (fuel + 1) := by
          unfold tocEntrySize at hfuel ⊢
          omega
        constructor
        · intro hw
          split at hw
          · cases hw
          · rename_i w1 hw1
            obtain ⟨hadm, rfl⟩ := (hentry w1).mp hw1
            obtain ⟨es, t, htoc, hall, hends, rfl⟩ := (ih hnext).mp hw
            refine ⟨_ :: es, t, .entry hroom hnull htoc, ?_, hends, rfl⟩
            exact List.forall_mem_cons.mpr ⟨hadm, hall⟩
        · rintro ⟨es, t, htoc, hall, hends, rfl⟩
          cases htoc with
          | cut short => omega
          | terminator _ null => exact absurd null hnull
          | entry _ _ rest =>
            obtain ⟨hadm, hall⟩ := List.forall_mem_cons.mp hall
            rw [(hentry _).mpr ⟨hadm, rfl⟩]
            exact (ih hnext).mpr ⟨_, t, rest, hall, hends, rfl⟩
    · rw [if_neg hroom]
      exact short_ok_iff (by omega)

theorem Toc.unique {es es' : List TocEntry} {t t' : Option TocEntry} (htoc : Toc data pos es t)
    (htoc' : Toc data pos es' t') : es = es' ∧ t = t' := by
  induction htoc generalizing es' t' with
  | cut short =>
    cases htoc' with
    | cut => exact ⟨rfl, rfl⟩
    | terminator room => omega
    | entry room => omega
  | terminator room null =>
    cases htoc' with
    | cut short => omega
    | terminator => exact ⟨rfl, rfl⟩
    | entry _ named => exact absurd null named
  | entry room named rest ih =>
    cases htoc' with
    | cut short => omega
    | terminator _ null => exact absurd null named
    | entry _ _ rest' =>
      obtain ⟨rfl, rfl⟩ := ih rest'
      exact ⟨rfl, rfl⟩

theorem foldl_add (es : List TocEntry) (w : Walk) : es.foldl (·.add data ·) w =
    ⟨w.images ++ es.map (imageAt data), es.foldl (fun n e => max n (e.offset + e.size)) w.fipSize,
      w.hasChecksum || es.any fun e => e.uuid = uuidFipChksum⟩ := by
  induction es generalizing w with
  | nil => simp
  | cons e es ih =>
    rw [List.foldl_cons, ih]
    simp [Walk.add, Bool.or_assoc]

def sizeOf (data : Bytes) (es : List TocEntry) : Nat :=
  let fipSize := es.foldl (fun n e => max n (e.offset + e.size)) 0
  if fipSize ≠ 0 then fipSize else data.length

theorem initFip_ok_iff {dual : Bool} {fip : Package} :
    initFip h dual data = .ok fip ↔ fipMinSize ≤ data.length ∧ le32 data 0 = tocHeaderName ∧
      ∃ es t, Toc data tocHeaderSize es t ∧ (∀ e ∈ es, Admitted h data e) ∧ Ends data t ∧
        (dual → ∃ e ∈ es, e.uuid = uuidFipChksum) ∧
        fip = ⟨field data 0 tocHeaderSize, es.map (imageAt data), sizeOf data es⟩ := by
  have hwalk (w : Walk) : walkToc h data data.length tocHeaderSize ⟨[], 0, false⟩ = .ok w ↔
      ∃ es t, Toc data tocHeaderSize es t ∧ (∀ e ∈ es, Admitted h data e) ∧ Ends data t ∧
        w = es.foldl (·.add data ·) ⟨[], 0, false⟩ :=
    walkToc_ok_iff (by unfold tocHeaderSize tocEntrySize; omega)
  unfold initFip
  by_cases hmin : data.length < fipMinSize
  · simp [hmin, not_le.mpr hmin]
  rw [if_neg hmin]
  by_cases hname : le32 data 0 = tocHeaderName
  · rw [if_neg (not_not.mpr hname)]
    simp only [not_lt.mp hmin, hname, true_and]
    constructor
    · intro hinit
      split at hinit
      · cases hinit
      rename_i w hw
      obtain ⟨es, t, htoc, hall, hends, rfl⟩ := (hwalk w).mp hw
      rw [foldl_add] at hinit
      obtain ⟨hdual, hinit⟩ := of_guard hinit nofun
      cases hinit
      refine ⟨es, t, htoc, hall, hends, ?_, rfl⟩
      rintro rfl
      simpa using hdual
    · rintro ⟨es, t, htoc, hall, hends, hdual, rfl⟩
      rw [(hwalk _).mpr ⟨es, t, htoc, hall, hends, rfl⟩, foldl_add]
      have hchk : ¬(dual && !es.any fun e => decide (e.uuid = uuidFipChksum)) := by
        cases dual with
        | false => simp
        | true => simpa using hdual rfl
      simp only [Bool.false_or]
      rw [if_neg hchk]
      rfl
  · simp [hname]

end MtkBoot.Fip
