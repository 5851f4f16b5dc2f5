import Mathlib.Data.List.MinMax
import MtkBoot.Ubi.Volume

/-! The scan of the headers: for each LEB it has the static block with the highest sequence
number. -/

namespace MtkBoot.Ubi

open List Function Dev Scan

variable {cur k : Nat} {d : Dev} {h : VidHdr}

/-! ### Small facts about the scan info -/

def Scan.mapped (s : Scan) (v l : Nat) : Option Nat :=
  if (s.volinfo v).found l then some ((s.volinfo v).lebsToPebs l) else none

namespace Scan

variable (s : Scan) (v l p : Nat)

theorem mapped_eq_some : s.mapped v l = some p ↔ (s.volinfo v).found l ∧
    (s.volinfo v).lebsToPebs l = p := by
  simp [mapped]

theorem mapped_eq_none : s.mapped v l = none ↔ (s.volinfo v).found l = false := by simp [mapped]

@[simp] theorem setBlockinfo_setBlockinfo (k : Nat) (h h' : VidHdr) :
    (s.setBlockinfo k h).setBlockinfo k h' = s.setBlockinfo k h' := by
  simp [setBlockinfo, update_idem]

@[simp] theorem volinfo_setVolinfo (vi : VolInfo) (v' : Nat) :
    (s.setVolinfo v vi).volinfo v' = if v' = v then vi else s.volinfo v' := by
  simp [setVolinfo, update_apply]

theorem mapped_assign (v' l' : Nat) : ((s.setFound v l true).setLeb v l p).mapped v' l' =
      if v' = v ∧ l' = l then some p else s.mapped v' l' := by
  by_cases hv : v' = v <;> by_cases hl : l' = l <;> simp [mapped, setFound, setLeb, hv, hl]

theorem mapped_setLeb (h : s.mapped v l ≠ none) (v' l' : Nat) :
    (s.setLeb v l p).mapped v' l' = if v' = v ∧ l' = l then some p else s.mapped v' l' := by
  have hf : (s.volinfo v).found l := by simpa [mapped_eq_none] using h
  by_cases hv : v' = v <;> by_cases hl : l' = l <;> simp [mapped, setLeb, hv, hl, hf]

@[simp] theorem mapped_setLastBlock (k v' l' : Nat) :
    (s.setLastBlock v k).mapped v' l' = s.mapped v' l' := by
  by_cases hv : v' = v <;> simp [mapped, setLastBlock, hv]

@[simp] theorem lastBlock_setFound (b : Bool) (v' : Nat) :
    ((s.setFound v l b).volinfo v').lastBlock = (s.volinfo v').lastBlock := by
  by_cases hv : v' = v <;> simp [setFound, hv]

@[simp] theorem lastBlock_setLeb (v' : Nat) :
    ((s.setLeb v l p).volinfo v').lastBlock = (s.volinfo v').lastBlock := by
  by_cases hv : v' = v <;> simp [setLeb, hv]

end Scan

/-! ### The header of one block -/

section Header

variable {s : Scan}

theorem ubiIoReadVidHdr_some (hc : s.corrupt k = false) (hs : s.scanned k = false)
    (hv : d.vid k = some h) : ubiIoReadVidHdr d s k = (.ok, (s.setScanned k).setBlockinfo k h) := by
  rcases ite_eq_iff.mp hv with ⟨⟨hbad, hio, hmagic, hcrc⟩, hv⟩ | ⟨-, hv⟩
  · cases hv
    simp [ubiIoReadVidHdr, hc, hs, hbad, hio, hmagic, hcrc]
  · cases hv

theorem ubiIoReadVidHdr_none (hc : s.corrupt k = false) (hs : s.scanned k = false)
    (hv : d.vid k = none) :
    ∃ res b, ubiIoReadVidHdr d s k = (res, ((s.setScanned k).setBlockinfo k b).setCorrupt k) ∧
      res ≠ .ok ∧ (res = .eof ↔ d.endMark k) := by
  have hec : ubiCheckEcHdr d k ≠ .ok := by
    unfold ubiCheckEcHdr
    dsimp only
    split_ifs <;> simp
  cases hbad : d.isBadPeb (k + d.pebOffset) with
  | true =>
    exact ⟨.eio, { s.blockinfo k with magic := 0 }, by simp [ubiIoReadVidHdr, hc, hs, hbad,
      setScanned], by simp, by simp [endMark, hbad]⟩
  | false =>
    rcases hr : d.readVid (k + d.pebOffset) with ⟨io, vh⟩
    by_cases hio : io = .ok
    · by_cases hmagic : vh.magic = vidHdrMagic
      · have hcrc : d.vidCrc vh ≠ vh.hdrCrc := by
          intro hcrc
          simp [vid, hbad, hr, hio, hmagic, hcrc] at hv
        exact ⟨.badHdr, vh, by simp [ubiIoReadVidHdr, hc, hs, hbad, hr, hio, hmagic, hcrc],
          by simp, by simp [endMark, hr, hmagic, vidHdrMagic]⟩
      · by_cases hff : vh.magic = 0xffffffff
        · exact ⟨ubiCheckEcHdr d k, vh, by simp [ubiIoReadVidHdr, hc, hs, hbad, hr, hio, hff,
            vidHdrMagic], hec, by simp [endMark, hbad, hr, hio, hff]⟩
        · exact ⟨.badHdr, vh, by simp [ubiIoReadVidHdr, hc, hs, hbad, hr, hio, hmagic, hff],
            by simp, by simp [endMark, hr, hff]⟩
    · refine
        ⟨io.ret, { vh with magic := 0 }, by simp [ubiIoReadVidHdr, hc, hs, hbad, hr, hio], ?_, ?_⟩
      · cases io <;> simp_all [Io.ret]
      · cases io <;> simp_all [Io.ret, endMark]

end Header

structure Scanned (d : Dev) (k : Nat) (s : Scan) : Prop where
  scanned : ∀ p, s.scanned p = decide (p < k)
  corrupt : ∀ p, s.corrupt p = decide (p < k ∧ d.vid p = none)
  info : ∀ p < k, ∀ h, d.vid p = some h → s.blockinfo p = h
  last : ∀ v < volIds, (s.volinfo v).lastBlock = (Finset.range k).sup (d.lebNum v)
  mapped : ∀ v < volIds, ∀ l < maxVolLebs, s.mapped v l =
    ((List.range k).filter (d.isStatic v l)).argmax d.sqnum
  cache : s.lebCacheInfo = none

theorem Scanned.cleared (d : Dev) (cache : Bytes) : Scanned d 0 (cleared d cache) := by
  constructor <;> simp [Ubi.cleared, Scan.mapped]

section Step

variable {s : Scan}

def newer (d : Dev) (k : Nat) : Option Nat → Option Nat
  | none => some k
  | some c => if d.sqnum c < d.sqnum k then some k else some c

theorem argmax_range_succ (P : Nat → Bool) (k : Nat) :
    ((List.range (k + 1)).filter P).argmax d.sqnum =
      if P k then newer d k (((List.range k).filter P).argmax d.sqnum)
      else ((List.range k).filter P).argmax d.sqnum := by
  rw [range_succ, filter_append]
  cases hP : P k with
  | false => simp [hP]
  | true =>
    simp only [hP, filter_cons_of_pos, filter_nil, argmax_concat, if_true]
    cases ((List.range k).filter P).argmax d.sqnum <;> rfl

theorem Scanned.mapped_some (hs : Scanned d k s) {v l : Nat} (hv : v < volIds) (hl : l < maxVolLebs)
    (hm : s.mapped v l = some cur) :
    cur < k ∧ ∃ h, d.vid cur = some h ∧ h.volId = v ∧ h.lnum = l ∧ h.volType = vidStatic := by
  rw [hs.mapped v hv l hl] at hm
  have hmem := argmax_mem hm
  rw [mem_filter, mem_range, Dev.isStatic_iff] at hmem
  exact hmem

/-- The header of block `k` has been read: what changes besides the tables of the volumes. -/
structure Seen (d : Dev) (k : Nat) (s s' : Scan) : Prop where
  scanned : s'.scanned = update s.scanned k true
  corrupt : s'.corrupt = update s.corrupt k (decide (d.vid k = none))
  info : ∀ p, p ≠ k → s'.blockinfo p = s.blockinfo p
  self : ∀ h, d.vid k = some h → s'.blockinfo k = h
  cache : s'.lebCacheInfo = s.lebCacheInfo

theorem Scanned.succ (hs : Scanned d k s) {s' : Scan} (hseen : Seen d k s s') (hlast : ∀ v < volIds,
      (s'.volinfo v).lastBlock = max (s.volinfo v).lastBlock (d.lebNum v k))
    (hmap : ∀ v < volIds, ∀ l < maxVolLebs, s'.mapped v l =
      if d.isStatic v l k then newer d k (s.mapped v l) else s.mapped v l) :
    Scanned d (k + 1) s' := by
  constructor
  · intro p
    rw [hseen.scanned, update_apply, hs.scanned]
    by_cases hp : p = k
    · simp [hp]
    · simp only [hp, if_false, decide_eq_decide]
      omega
  · intro p
    rw [hseen.corrupt, update_apply, hs.corrupt]
    by_cases hp : p = k
    · simp [hp]
    · have : p < k + 1 ↔ p < k := by omega
      simp [hp, this]
  · intro p hp h hh
    by_cases hpk : p = k
    · subst hpk
      exact hseen.self h hh
    · rw [hseen.info p hpk]
      exact hs.info p (by omega) h hh
  · intro v hv
    rw [hlast v hv, hs.last v hv, Finset.range_add_one, Finset.sup_insert, max_comm]
  · intro v hv l hl
    rw [hmap v hv l hl, hs.mapped v hv l hl, argmax_range_succ]
  · rw [hseen.cache, hs.cache]

theorem Scanned.skip (hs : Scanned d k s)
    {s' : Scan} (hseen : Seen d k s s') (hvol : s'.volinfo = s.volinfo)
    (hnot : ∀ h, d.vid k = some h → h.volId < volIds → h.volType = vidStatic →
      maxVolLebs ≤ h.lnum) : Scanned d (k + 1) s' := by
  apply hs.succ hseen
  · intro v hv
    have hnum : d.lebNum v k = 0 := by
      unfold lebNum
      cases hk : d.vid k with
      | none => rfl
      | some h =>
        apply if_neg
        rintro ⟨rfl, hst, hl⟩
        exact absurd (hnot h hk hv hst) (by omega)
    rw [hvol, hnum]
    exact (Nat.max_zero _).symm
  · intro v hv l hl
    have hstat : ¬ d.isStatic v l k := by
      intro hne
      obtain ⟨h, hk, rfl, rfl, hst⟩ := isStatic_iff.mp hne
      exact absurd (hnot h hk hv hst) (by omega)
    rw [if_neg hstat]
    simp [Scan.mapped, hvol]

section Add

def entered (s : Scan) (k : Nat) (h : VidHdr) : Scan := (s.setScanned k).setBlockinfo k h

theorem mapped_entered (v l : Nat) : (entered s k h).mapped v l = s.mapped v l := rfl

variable (hs : Scanned d k s)
include hs

variable (hk : d.vid k = some h)
include hk

theorem Scanned.seen (b : Bool)
    (vi : Nat → VolInfo) : Seen d k s { entered s k h with vtblValid := b, volinfo := vi } := by
  refine ⟨rfl, ?_, fun p hp => update_of_ne hp _ _, fun h' hh => ?_, rfl⟩
  · funext p
    show s.corrupt p = _
    by_cases hp : p = k
    · simp [hp, hk, hs.corrupt]
    · simp [hp]
  · exact (update_self _ _ _).trans (Option.some.inj (hk.symm.trans hh))

theorem Scanned.pass (b : Bool)
    (hnot : h.volId < volIds → h.volType = vidStatic → maxVolLebs ≤ h.lnum) :
    Scanned d (k + 1) { entered s k h with vtblValid := b } := by
  refine hs.skip (hs.seen hk b s.volinfo) rfl fun h' hh => ?_
  obtain rfl : h = h' := Option.some.inj (hk.symm.trans hh)
  exact hnot

theorem Scanned.enter (hl : h.lnum < maxVolLebs) (hst : h.volType = vidStatic) {s' : Scan}
    (heq : s' = { entered s k h with volinfo := s'.volinfo })
    (hlast : ∀ v, (s'.volinfo v).lastBlock =
      if v = h.volId then max (s.volinfo v).lastBlock h.lnum else (s.volinfo v).lastBlock)
    (hmap : ∀ v l, s'.mapped v l = if v = h.volId ∧ l = h.lnum then newer d k (s.mapped v l)
      else s.mapped v l) : Scanned d (k + 1) s' := by
  apply hs.succ (heq ▸ hs.seen hk s.vtblValid _)
  · intro v _
    rw [hlast]
    by_cases hvv : v = h.volId
    · simp [hvv, lebNum, hk, hst, hl]
    · have : ¬ h.volId = v := fun e => hvv e.symm
      simp [hvv, this, lebNum, hk]
  · intro v _ l _
    have hiff : d.isStatic v l k ↔ v = h.volId ∧ l = h.lnum := by
      simp only [isStatic_iff, hk, Option.some.injEq, exists_eq_left']
      constructor
      · rintro ⟨hv, hl, -⟩
        exact ⟨hv.symm, hl.symm⟩
      · rintro ⟨hv, hl⟩
        exact ⟨hv.symm, hl.symm, hst⟩
    rw [hmap]
    simp [hiff]

theorem Scanned.add_first (hl : h.lnum < maxVolLebs)
    (hst : h.volType = vidStatic) (hm : s.mapped h.volId h.lnum = none) :
    ∃ s', ubiAddPebToVol d (entered s k h) h.volId k h.lnum = (.ok, s') ∧
      s'.pebCount = s.pebCount ∧ Scanned d (k + 1) s' := by
  have hf : ¬ (s.volinfo h.volId).found h.lnum := by simp [(s.mapped_eq_none _ _).mp hm]
  set s2 := ((entered s k h).setFound h.volId h.lnum true).setLeb h.volId h.lnum k with hs2
  have hmap : ∀ v l, s2.mapped v l = if v = h.volId ∧ l = h.lnum then newer d k (s.mapped v l)
      else s.mapped v l := by
    intro v l
    rw [hs2, mapped_assign, mapped_entered]
    split
    · next he => rw [he.1, he.2, hm, newer]
    · rfl
  have hlast : ∀ v, (s2.volinfo v).lastBlock = (s.volinfo v).lastBlock := by
    intro v
    rw [hs2, lastBlock_setLeb, lastBlock_setFound]
    rfl
  unfold ubiAddPebToVol
  rw [if_neg (by omega), if_neg (show ¬ ((entered s k h).volinfo h.volId).found h.lnum from hf)]
  dsimp only
  split
  · next hlt =>
    refine ⟨_, rfl, rfl, hs.enter hk hl hst rfl ?_ ?_⟩
    · intro v
      rw [hlast] at hlt
      by_cases hvv : v = h.volId
      · subst hvv
        simp only [setLastBlock, volinfo_setVolinfo, if_true]
        omega
      · simp only [setLastBlock, volinfo_setVolinfo, if_neg hvv]
        exact hlast v
    · intro v l
      rw [mapped_setLastBlock]
      exact hmap v l
  · next hlt =>
    refine ⟨_, rfl, rfl, hs.enter hk hl hst rfl ?_ hmap⟩
    intro v
    rw [hlast] at hlt ⊢
    split
    · next hvv => rw [hvv]; omega
    · rfl

theorem Scanned.add_again (hv : h.volId < volIds) (hl : h.lnum < maxVolLebs)
    (hst : h.volType = vidStatic) (hm : s.mapped h.volId h.lnum = some cur) :
    ∃ s', ubiAddPebToVol d (entered s k h) h.volId k h.lnum = (.ok, s') ∧
      s'.pebCount = s.pebCount ∧ Scanned d (k + 1) s' := by
  obtain ⟨hcur, h', hvid, hvol', hlnum', hst'⟩ := hs.mapped_some hv hl hm
  obtain ⟨hf, hptr⟩ := ((entered s k h).mapped_eq_some _ _ _).mp hm
  have hscan : (entered s k h).scanned cur := by
    show update s.scanned k true cur
    rw [update_of_ne (by omega), hs.scanned]
    simpa using hcur
  have hcor : (entered s k h).corrupt cur = false := by
    show s.corrupt cur = false
    simp [hs.corrupt, hvid]
  have hcursq : ((entered s k h).blockinfo cur).sqnum = d.sqnum cur := by
    show (update s.blockinfo k h cur).sqnum = _
    rw [update_of_ne (by omega), hs.info cur hcur h' hvid]
    simp [sqnum, hvid]
  have hksq : ((entered s k h).blockinfo k).sqnum = d.sqnum k := by
    show (update s.blockinfo k h k).sqnum = _
    simp [sqnum, hk]
  -- the LEB is known, so its number does not raise the last one
  have hlast : ∀ v, (s.volinfo v).lastBlock = if v = h.volId then
      max (s.volinfo v).lastBlock h.lnum else (s.volinfo v).lastBlock := by
    intro v
    split
    · next hvv =>
      have hnum : d.lebNum h.volId cur = h.lnum := by simp [lebNum, hvid, hvol', hlnum', hst', hl]
      have hle : d.lebNum h.volId cur ≤ (s.volinfo h.volId).lastBlock := by
        rw [hs.last _ hv]
        exact Finset.le_sup (f := d.lebNum h.volId) (Finset.mem_range.mpr hcur)
      rw [hvv]
      omega
    · rfl
  unfold ubiAddPebToVol
  rw [if_neg (by omega), if_pos hf]
  simp only [hptr, hscan, if_true, ne_eq, not_true_eq_false, if_false, hcor, hcursq, hksq,
    Bool.false_eq_true]
  split
  · next hlt =>
    refine ⟨_, rfl, rfl, hs.enter hk hl hst rfl ?_ ?_⟩
    · intro v
      rw [lastBlock_setLeb]
      exact hlast v
    · intro v l
      rw [mapped_setLeb _ _ _ _ (by rw [mapped_entered, hm]; simp), mapped_entered]
      split
      · next he => rw [he.1, he.2, hm, newer, if_pos hlt]
      · rfl
  · next hlt =>
    refine ⟨_, rfl, rfl, hs.enter hk hl hst rfl hlast ?_⟩
    intro v l
    rw [mapped_entered]
    split
    · next he => rw [he.1, he.2, hm, newer, if_neg hlt]
    · rfl

end Add

theorem ubiReadVolumeTable_spec (s : Scan) (k : Nat) :
    ∃ res b, ubiReadVolumeTable d s k = (res, { s with vtblValid := b }) ∧ res ≠ .eof := by
  have hret : ∀ io : Io, io.ret ≠ .eof := by
    intro io
    cases io <;> simp [Io.ret]
  unfold ubiReadVolumeTable
  dsimp only
  split_ifs
  · exact ⟨_, s.vtblValid, rfl, hret _⟩
  · exact ⟨_, true, rfl, by simp⟩
  · exact ⟨_, s.vtblValid, rfl, hret _⟩

theorem Scanned.scanVidHdr (hs : Scanned d k s) (hk : k < s.pebCount) (hmax : k < maxPebs) :
    ∃ res s', ubiScanVidHdr d s k = some (res, s') ∧ (res = .eof ↔ d.endMark k) ∧
      s'.pebCount = s.pebCount ∧ Scanned d (k + 1) s' := by
  have hcor : s.corrupt k = false := by simp [hs.corrupt]
  have hscan : s.scanned k = false := by simp [hs.scanned]
  unfold ubiScanVidHdr
  rw [if_neg (by omega), if_neg (by omega)]
  cases hvid : d.vid k with
  | none =>
    obtain ⟨res, b, heq, hne, heof⟩ := ubiIoReadVidHdr_none hcor hscan hvid
    simp only [heq, ne_eq, hne, not_false_eq_true, if_true]
    refine ⟨res, _, rfl, heof, rfl, hs.skip ⟨rfl, ?_, ?_, ?_, rfl⟩ rfl ?_⟩
    · simp [setCorrupt, setBlockinfo, setScanned, hvid]
    · intro p hp
      exact update_of_ne hp _ _
    · simp [hvid]
    · simp [hvid]
  | some h =>
    have hend : ¬ d.endMark k := by
      intro hend
      rw [vid_eq_none_of_endMark hend] at hvid
      cases hvid
    have hself : ((s.setScanned k).setBlockinfo k h).blockinfo k = h := update_self _ _ _
    rw [ubiIoReadVidHdr_some hcor hscan hvid]
    simp only [hself, ne_eq, not_true_eq_false, if_false, hend]
    split_ifs with hfm hlay hno
    · refine ⟨_, _, rfl, by simp, rfl, hs.pass hvid _ ?_⟩
      intro hlt
      rw [hfm] at hlt
      exact absurd hlt (by decide)
    · obtain ⟨res, b, heq, hne⟩ := ubiReadVolumeTable_spec (d := d) (entered s k h) k
      refine ⟨res, _, congrArg some heq, by simp [hne], rfl, hs.pass hvid _ ?_⟩
      intro hlt
      rw [hlay.1] at hlt
      exact absurd hlt (by decide)
    · refine ⟨_, _, rfl, by simp, rfl, hs.pass hvid _ ?_⟩
      intro hlt hst
      rcases hno with hno | hno
      · omega
      · exact absurd hst hno
    · rw [not_or, not_le, not_not] at hno
      by_cases hl : h.lnum < maxVolLebs
      · have hadd : ∃ s', ubiAddPebToVol d (entered s k h) h.volId k h.lnum = (.ok, s') ∧
            s'.pebCount = s.pebCount ∧ Scanned d (k + 1) s' := by
          cases hm : s.mapped h.volId h.lnum with
          | none => exact hs.add_first hvid hl hno.2 hm
          | some cur => exact hs.add_again hvid hno.1 hl hno.2 hm
        obtain ⟨s', heq, hcount, hs'⟩ := hadd
        exact ⟨_, s', congrArg some heq, by simp, hcount, hs'⟩
      · refine ⟨.einval, entered s k h, ?_, by simp, rfl, hs.pass hvid _ ?_⟩
        · rw [ubiAddPebToVol, if_pos (by omega)]
          rfl
        · intro _ _
          omega

/-- The blocks below `k` have been scanned and none of them carries an end mark. -/
structure Covered (d : Dev) (k : Nat) (s : Scan) : Prop where
  count : s.pebCount = d.pebCount
  scanned : Scanned d (min k d.pebCount) s
  noEnd : ∀ p < min k d.pebCount, d.endMark p = false

/-- The scan has stopped at the first end mark, on block `k`. -/
structure Ended (d : Dev) (k : Nat) (s : Scan) : Prop where
  lt : k < d.pebCount
  count : s.pebCount = k
  scanned : Scanned d (k + 1) s
  endMark : d.endMark k = true
  noEnd : ∀ p < k, d.endMark p = false

theorem Covered.scanFrom (hmax : d.pebCount ≤ maxPebs) (n : Nat) (hc : Covered d k s) :
    ∃ s' k', scanFrom d n k s = some (s', k') ∧ (k' = k + n ∧ Covered d k' s' ∨ Ended d k' s') := by
  induction n generalizing k s with
  | zero => exact ⟨s, k, rfl, .inl ⟨rfl, hc⟩⟩
  | succ n ih =>
    have hcount := hc.count
    rw [Ubi.scanFrom]
    rcases lt_or_ge k d.pebCount with hlt | hge
    · have hs : Scanned d k s := by
        have := hc.scanned
        rwa [min_eq_left hlt.le] at this
      have hno : ∀ p < k, d.endMark p = false := fun p hp => hc.noEnd p (by omega)
      obtain ⟨res, s', heq, heof, hcount', hs'⟩ := hs.scanVidHdr (by omega) (by omega)
      rw [heq]
      dsimp only
      by_cases hend : d.endMark k
      · rw [if_pos (heof.mpr hend)]
        exact ⟨_, k, rfl, .inr ⟨hlt, rfl, { hs' with }, hend, hno⟩⟩
      rw [if_neg (fun h => hend (heof.mp h))]
      have hc' : Covered d (k + 1) s' := by
        refine ⟨hcount'.trans hcount, ?_, ?_⟩
        · rwa [min_eq_left (by omega)]
        · intro p hp
          rcases lt_or_ge p k with h | h
          · exact hno p h
          · obtain rfl : p = k := by omega
            simpa using hend
      obtain ⟨s'', k', heq', h⟩ := ih hc'
      exact ⟨s'', k', heq', h.imp_left fun h => ⟨by omega, h.2⟩⟩
    · have hout : ubiScanVidHdr d s k = some (.einval, s) := by
        rw [ubiScanVidHdr, if_pos (by omega)]
      have hmin : min (k + 1) d.pebCount = min k d.pebCount := by omega
      have hc' : Covered d (k + 1) s := ⟨hcount, hmin ▸ hc.scanned, hmin ▸ hc.noEnd⟩
      rw [hout]
      dsimp only
      rw [if_neg (by simp)]
      obtain ⟨s'', k', heq', h⟩ := ih hc'
      exact ⟨s'', k', heq', h.imp_left fun h => ⟨by omega, h.2⟩⟩

/-- The whole scan sees all blocks of the area, and what it saw behind it has no valid header. -/
theorem ubisplInitScan_spec (hmax : d.pebCount ≤ maxPebs) (s : Scan) :
    ∃ s' k, ubisplInitScan d s = some s' ∧ Scanned d k s' ∧ s'.pebCount = d.area ∧
      d.area ≤ k ∧ ∀ p, d.area ≤ p → p < k → d.vid p = none := by
  have ended : ∀ {k s}, Ended d k s → Scanned d (k + 1) s ∧ s.pebCount = d.area ∧
      d.area ≤ k + 1 ∧ ∀ p, d.area ≤ p → p < k + 1 → d.vid p = none := by
    intro k s h
    have harea := area_eq_of_endMark h.lt h.endMark h.noEnd
    refine ⟨h.scanned, h.count.trans harea.symm, by omega, ?_⟩
    intro p hp hlt
    obtain rfl : p = k := by omega
    exact vid_eq_none_of_endMark h.endMark
  have hc : Covered d 0 (cleared d s.lebCache) :=
    ⟨rfl, by simpa using Scanned.cleared d s.lebCache, by simp⟩
  unfold ubisplInitScan iplScan
  obtain ⟨s1, k1, heq1, h1⟩ := hc.scanFrom hmax fmMaxStart
  rw [heq1]
  dsimp only
  rcases h1 with ⟨-, h1⟩ | h1
  · obtain ⟨s2, k2, heq2, h2⟩ := h1.scanFrom hmax (s1.pebCount - k1)
    rw [heq2]
    rcases h2 with ⟨hk2, h2⟩ | h2
    · have hall : min k2 d.pebCount = d.pebCount := by
        have := h1.count
        omega
      have harea := area_eq_pebCount fun p hp => h2.noEnd p (by omega)
      refine ⟨s2, d.pebCount, rfl, hall ▸ h2.scanned, h2.count.trans harea.symm, harea.le, ?_⟩
      intro p hp hlt
      omega
    · exact ⟨s2, k2 + 1, rfl, ended h2⟩
  · rw [h1.count, Nat.sub_self]
    exact ⟨s1, k1 + 1, rfl, ended h1⟩

end Step

end MtkBoot.Ubi
