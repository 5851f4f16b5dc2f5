import MtkBoot.Ubi.Scan

/-! The load of one LEB.  `Inv` is what every call keeps of a scan: the blocks marked corrupt are no
good copies, and each LEB is mapped to the newest of the others. -/

namespace MtkBoot.Ubi

open List Finset Scan

variable {cache : Bytes} {d : Dev} {l p q readlen skiplen v : Nat} {laddr : Bool} {r : Option Nat}
  {s : Scan}

/-- Block `p` is the one a LEB should be mapped to: no block that is not marked is newer. -/
structure Top (d : Dev) (s : Scan) (v l p : Nat) : Prop where
  lt : p < d.area
  live : s.corrupt p = false
  vol : (s.blockinfo p).volId = v
  leb : (s.blockinfo p).lnum = l
  newest : ∀ q < d.area, s.corrupt q = false → d.isStatic v l q = true → d.sqnum q ≤ d.sqnum p

/-- The cache record names the block its LEB is mapped to, and the buffer is long enough. -/
structure Recorded (d : Dev) (s : Scan) (c : LebCacheInfo) : Prop where
  vol : c.volId < volIds
  leb : c.leb < d.lebCount c.volId
  block : ∃ p, s.mapped c.volId c.leb = some p ∧ (s.blockinfo p).dataSize = c.len ∧
    (s.blockinfo p).dataCrc = c.crc ∧ (s.blockinfo p).usedEbs = d.lebCount c.volId
  len : c.len ≤ s.lebCache.length

structure Inv (d : Dev) (s : Scan) : Prop where
  count : s.pebCount = d.area
  scanned : ∀ p < d.area, s.scanned p = true
  info : ∀ p < d.area, s.corrupt p = false → d.vid p = some (s.blockinfo p)
  corrupt : ∀ p < d.area, s.corrupt p = true → ∀ v < volIds, ∀ l c, ¬ d.Good v l p c
  last : ∀ v < volIds, (s.volinfo v).lastBlock + 1 = d.lebCount v
  mapped : ∀ v < volIds, ∀ l < d.lebCount v, ∀ p, s.mapped v l = some p → Top d s v l p
  missing : ∀ v < volIds, ∀ l < d.lebCount v, s.mapped v l = none →
    ∀ p < d.area, s.corrupt p = false → d.isStatic v l p = false
  cache : ∀ c, s.lebCacheInfo = some c → Recorded d s c

theorem Scanned.inv {k : Nat} (hs : Scanned d k s) (hcount : s.pebCount = d.area) (hk : d.area ≤ k)
    (hrest : ∀ p, d.area ≤ p → p < k → d.vid p = none) : Inv d s := by
  have hlebs : ∀ v, ∀ l < d.lebCount v, l < maxVolLebs :=
    fun v l hl => hl.trans_le (Dev.lebCount_le v)
  have hvid : ∀ p < d.area, s.corrupt p = false → d.vid p = some (s.blockinfo p) := by
    intro p hp hc
    rw [hs.corrupt] at hc
    cases hv : d.vid p with
    | none => simp [hv, hp.trans_le hk] at hc
    | some h => rw [hs.info p (hp.trans_le hk) h hv]
  constructor
  · exact hcount
  · intro p hp
    rw [hs.scanned]
    simpa using hp.trans_le hk
  · exact hvid
  · rintro p hp hc v - l c ⟨h, hcopy, -⟩
    rw [hs.corrupt, hcopy.2.1] at hc
    simp at hc
  · intro v hv
    rw [hs.last v hv, Dev.lebCount]
    congr 1
    apply le_antisymm
    · apply Finset.sup_le
      intro p hp
      rcases lt_or_ge p d.area with h | h
      · exact Finset.le_sup (f := d.lebNum v) (Finset.mem_range.mpr h)
      · simp [Dev.lebNum, hrest p h (Finset.mem_range.mp hp)]
    · exact sup_mono (range_mono hk)
  · intro v hv l hl p hm
    obtain ⟨hpk, h, hvp, hvol, hlnum, -⟩ := hs.mapped_some hv (hlebs v l hl) hm
    rw [hs.mapped v hv l (hlebs v l hl)] at hm
    have hp : p < d.area := by
      by_contra hge
      rw [hrest p (by omega) hpk] at hvp
      cases hvp
    refine ⟨hp, by simp [hs.corrupt, hvp], ?_, ?_, ?_⟩
    · rw [hs.info p hpk h hvp, hvol]
    · rw [hs.info p hpk h hvp, hlnum]
    · intro q hq _ hst
      apply le_of_mem_argmax _ hm
      exact List.mem_filter.mpr ⟨List.mem_range.mpr (hq.trans_le hk), hst⟩
  · intro v hv l hl hm p hp _
    rw [hs.mapped v hv l (hlebs v l hl), argmax_eq_none, filter_eq_nil_iff] at hm
    simpa using hm p (List.mem_range.mpr (hp.trans_le hk))
  · intro c hc
    rw [hs.cache] at hc
    cases hc

/-! ### The search for a replacement -/

section FindOther

def cand (s : Scan) (v l p : Nat) : Bool :=
  !s.corrupt p && (s.blockinfo p).volId == v && (s.blockinfo p).lnum == l

def replacement (s : Scan) (v l : Nat) : Option Nat :=
  ((List.range s.pebCount).filter (cand s v l)).argmax fun p => (s.blockinfo p).sqnum

theorem setFound_setFound (s : Scan) (v l : Nat) (b b' : Bool) :
    (s.setFound v l b).setFound v l b' = s.setFound v l b' := by
  simp [setFound, setVolinfo, Function.update_idem]

theorem findOtherStep_eq (hs : s.scanned p) :
    findOtherStep d v l (s, r) p = if cand s v l p then (s.setFound v l true,
        List.argAux (fun b c => (s.blockinfo c).sqnum < (s.blockinfo b).sqnum) r p)
        else (s, r) := by
  unfold findOtherStep cand
  by_cases hc : s.corrupt p
  · simp [hc]
  by_cases hn : (s.blockinfo p).volId = v ∧ (s.blockinfo p).lnum = l
  · have hset : (s.setFound v l true).blockinfo = s.blockinfo := rfl
    rw [if_neg hc, if_neg (by simp [hn]), vidReady, if_pos hs]
    simp only [hc, hn.1, hn.2, Bool.not_false, beq_self_eq_true, Bool.and_self, if_true,
      Bool.true_eq_false, if_false, hset]
    cases r with
    | none => rfl
    | some q =>
      simp only [List.argAux]
      split_ifs <;> rfl
  · have hn' : (s.blockinfo p).volId ≠ v ∨ (s.blockinfo p).lnum ≠ l := by
      rcases Decidable.not_and_iff_or_not.mp hn with h | h
      · exact .inl h
      · exact .inr h
    rw [if_neg hc, if_pos hn', if_neg]
    simp only [Bool.and_eq_true, beq_iff_eq]
    rintro ⟨⟨-, h1⟩, h2⟩
    exact hn ⟨h1, h2⟩

theorem findOther_foldl {ps : List Nat} (hs : ∀ p ∈ ps, s.scanned p) :
    ps.foldl (findOtherStep d v l) (s, r) =
    (if ps.filter (cand s v l) = [] then s else s.setFound v l true, (ps.filter (cand s v l)).foldl
        (argAux fun b c => (s.blockinfo c).sqnum < (s.blockinfo b).sqnum) r) := by
  induction ps generalizing s r with
  | nil => simp
  | cons p ps ih =>
    rw [foldl_cons, findOtherStep_eq (hs p (by simp))]
    have hs' : ∀ q ∈ ps, s.scanned q := fun q hq => hs q (by simp [hq])
    by_cases hc : cand s v l p
    · have hsame : cand (s.setFound v l true) v l = cand s v l := rfl
      have hs1 : ∀ q ∈ ps, (s.setFound v l true).scanned q := hs'
      rw [if_pos hc, ih hs1, hsame, setFound_setFound, ite_self, filter_cons_of_pos hc,
        if_neg (cons_ne_nil _ _)]
      rfl
    · rw [if_neg hc, ih hs']
      simp [hc]

variable (hs : ∀ p < s.pebCount, s.scanned p = true)
include hs

theorem findOther_eq : findOther d s v l = match replacement s v l with
      | none => s.setFound v l false
      | some p => (s.setFound v l true).setLeb v l p := by
  have hs' : ∀ p ∈ List.range s.pebCount, (s.setFound v l false).scanned p :=
    fun p hp => hs p (List.mem_range.mp hp)
  have hcand : cand (s.setFound v l false) v l = cand s v l := rfl
  have harg : ((List.range s.pebCount).filter (cand s v l)).foldl
      (argAux fun b c => ((s.setFound v l false).blockinfo c).sqnum <
        ((s.setFound v l false).blockinfo b).sqnum) none = replacement s v l := rfl
  unfold findOther
  simp only [findOther_foldl hs', hcand, harg]
  cases hr : replacement s v l with
  | none =>
    rw [replacement, argmax_eq_none] at hr
    simp [hr]
  | some p =>
    have hne : (List.range s.pebCount).filter (cand s v l) ≠ [] := by
      intro h
      rw [replacement, h] at hr
      cases hr
    simp [hne, setFound_setFound]

/-- Apart from the mapping, two scan infos agree on what the invariant looks at. -/
structure Frame (s s' : Scan) : Prop where
  count : s'.pebCount = s.pebCount
  scanned : s'.scanned = s.scanned
  corrupt : s'.corrupt = s.corrupt
  blockinfo : s'.blockinfo = s.blockinfo
  last : ∀ v, (s'.volinfo v).lastBlock = (s.volinfo v).lastBlock
  info : s'.lebCacheInfo = s.lebCacheInfo
  cache : s'.lebCache = s.lebCache

theorem findOther_frame : Frame s (findOther d s v l) := by
  rw [findOther_eq hs]
  cases replacement s v l with
  | none => exact ⟨rfl, rfl, rfl, rfl, by simp, rfl, rfl⟩
  | some p => exact ⟨rfl, rfl, rfl, rfl, by simp, rfl, rfl⟩

theorem mapped_findOther (v' l' : Nat) : (findOther d s v l).mapped v' l' =
      if v' = v ∧ l' = l then replacement s v l else s.mapped v' l' := by
  rw [findOther_eq hs]
  cases replacement s v l with
  | none =>
    by_cases hv : v' = v <;> by_cases hl : l' = l <;> simp [Scan.mapped, Scan.setFound, hv, hl]
  | some p => exact mapped_assign s v l p v' l'

end FindOther

/-- The number of blocks not marked corrupt, which each retry makes smaller. -/
def live (s : Scan) : Nat := ((Finset.range s.pebCount).filter fun p => s.corrupt p = false).card

theorem live_le (s : Scan) : live s ≤ s.pebCount := by
  simpa [live] using card_filter_le (range s.pebCount) fun p => s.corrupt p = false

def marked (s : Scan) (p : Nat) (cache : Bytes) : Scan :=
  { s with corrupt := Function.update s.corrupt p true, lebCache := cache }

section Drop

theorem marked_corrupt_false : (marked s p cache).corrupt q = false ↔ q ≠ p ∧
    s.corrupt q = false := by
  show Function.update s.corrupt p true q = false ↔ _
  by_cases hq : q = p
  · simp [hq]
  · simp [hq]

theorem live_marked (hp : p < s.pebCount) (hc : s.corrupt p = false) :
    live (marked s p cache) < live s := by
  apply card_lt_card
  rw [ssubset_iff_of_subset]
  · refine ⟨p, by simp [hp, hc], ?_⟩
    rw [Finset.mem_filter, marked_corrupt_false]
    exact fun h => h.2.1 rfl
  · intro q hq
    rw [Finset.mem_filter, marked_corrupt_false] at hq
    exact mem_filter.mpr ⟨hq.1, hq.2.2⟩

variable (hi : Inv d s)
include hi

theorem Inv.scanned_marked (q : Nat) (hq : q < (marked s p cache).pebCount) :
    (marked s p cache).scanned q :=
  hi.scanned q (hi.count ▸ hq)

theorem Inv.sqnum_eq (hq : q < d.area) (hc : s.corrupt q = false) :
    (s.blockinfo q).sqnum = d.sqnum q := by
  simp [Dev.sqnum, hi.info q hq hc]

theorem Inv.cand_of_isStatic (hq : q < d.area) (hc : (marked s p cache).corrupt q = false)
    (hst : d.isStatic v l q) : cand (marked s p cache) v l q := by
  obtain ⟨h, hvid, rfl, rfl, -⟩ := Dev.isStatic_iff.mp hst
  have hinfo := hi.info q hq (marked_corrupt_false.mp hc).2
  rw [hvid] at hinfo
  have hself : (marked s p cache).blockinfo q = h := (Option.some.inj hinfo).symm
  simp [cand, hc, hself]

theorem Inv.replacement_top (hr : replacement (marked s p cache) v l = some q) :
    Top d (marked s p cache) v l q := by
  have hmem := argmax_mem hr
  rw [List.mem_filter, List.mem_range] at hmem
  obtain ⟨hlt, hcand⟩ := hmem
  have hq : q < d.area := hi.count ▸ hlt
  simp only [cand, Bool.and_eq_true, Bool.not_eq_true', beq_iff_eq] at hcand
  obtain ⟨⟨hlive, hvol⟩, hleb⟩ := hcand
  refine ⟨hq, hlive, hvol, hleb, ?_⟩
  intro q' hq' hc' hst
  have hle : ((marked s p cache).blockinfo q').sqnum ≤ ((marked s p cache).blockinfo q).sqnum := by
    apply le_of_mem_argmax (f := fun p' => ((marked s p cache).blockinfo p').sqnum) _ hr
    exact List.mem_filter.mpr
      ⟨List.mem_range.mpr (hi.count.symm ▸ hq'), hi.cand_of_isStatic hq' hc' hst⟩
  rw [← hi.sqnum_eq hq' (marked_corrupt_false.mp hc').2,
    ← hi.sqnum_eq hq (marked_corrupt_false.mp hlive).2]
  exact hle

/-- A block that is no good copy is dropped and the search run: the invariant stays. -/
theorem Inv.drop (hv : v < volIds) (hl : l < d.lebCount v) (hm : s.mapped v l = some p)
    (hbad : ∀ v < volIds, ∀ l c, ¬ d.Good v l p c) (hlen : s.lebCache.length ≤ cache.length)
    (hrec : ∀ c, s.lebCacheInfo = some c → ¬ (c.volId = v ∧ c.leb = l)) :
    Inv d (findOther d (marked s p cache) v l) := by
  have htop := hi.mapped v hv l hl p hm
  have hf : Frame (marked s p cache) (findOther d (marked s p cache) v l) :=
    findOther_frame hi.scanned_marked
  have hmap (v' l') : (findOther d (marked s p cache) v l).mapped v' l' = _ :=
    mapped_findOther hi.scanned_marked v' l'
  have htopFrame : ∀ {v' l' q}, Top d (marked s p cache) v' l' q →
      Top d (findOther d (marked s p cache) v l) v' l' q := by
    intro v' l' q h
    exact ⟨h.lt, by rw [hf.corrupt]; exact h.live, by rw [hf.blockinfo]; exact h.vol,
      by rw [hf.blockinfo]; exact h.leb, by rw [hf.corrupt]; exact h.newest⟩
  constructor
  · rw [hf.count]
    exact hi.count
  · rw [hf.scanned]
    exact hi.scanned
  · intro q hq hc
    rw [hf.corrupt, marked_corrupt_false] at hc
    rw [hf.blockinfo]
    exact hi.info q hq hc.2
  · intro q hq hc
    rw [hf.corrupt] at hc
    by_cases hqp : q = p
    · subst hqp
      exact hbad
    · have hc' : s.corrupt q := by
        rw [← hc]
        exact (Function.update_of_ne hqp _ _).symm
      exact hi.corrupt q hq hc'
  · intro v' hv'
    rw [hf.last]
    exact hi.last v' hv'
  · intro v' hv' l' hl' q hq
    rw [hmap] at hq
    rcases ite_eq_iff.mp hq with ⟨⟨rfl, rfl⟩, hq⟩ | ⟨hne, hq⟩
    · exact htopFrame (hi.replacement_top hq)
    have h := hi.mapped v' hv' l' hl' q hq
    have hqp : q ≠ p := by
      rintro rfl
      exact hne ⟨h.vol.symm.trans htop.vol, h.leb.symm.trans htop.leb⟩
    apply htopFrame
    exact ⟨h.lt, marked_corrupt_false.mpr ⟨hqp, h.live⟩, h.vol, h.leb,
      fun q' hq' hc' => h.newest q' hq' (marked_corrupt_false.mp hc').2⟩
  · intro v' hv' l' hl' hq q hlt hc
    rw [hf.corrupt] at hc
    rw [hmap] at hq
    rcases ite_eq_iff.mp hq with ⟨⟨rfl, rfl⟩, hq⟩ | ⟨-, hq⟩
    · by_contra hst
      rw [replacement, argmax_eq_none, filter_eq_nil_iff] at hq
      exact hq q (List.mem_range.mpr (hi.count.symm ▸ hlt))
        (hi.cand_of_isStatic hlt hc (by simpa using hst))
    · exact hi.missing v' hv' l' hl' hq q hlt (marked_corrupt_false.mp hc).2
  · intro c hc
    rw [hf.info] at hc
    have h := hi.cache c hc
    obtain ⟨q, hq⟩ := h.block
    refine ⟨h.vol, h.leb, ⟨q, ?_⟩, ?_⟩
    · rw [hmap, if_neg (hrec c hc), hf.blockinfo]
      exact hq
    · rw [hf.cache]
      exact h.len.trans hlen

end Drop

section Pass

inductive Fetched (d : Dev) (s : Scan) (p : Nat) (h : VidHdr) (r : LebCacheInfo) :
  Bool × Scan → Prop
  | hit : s.lebCacheInfo = some r → Fetched d s p h r (true, s)
  | read {c : Bytes} : d.data p h = some c →
    Fetched d s p h r (true, { s.fillCache c with lebCacheInfo := some r })
  | damaged {cache : Bytes} : s.lebCacheInfo ≠ some r → d.data p h = none →
    s.lebCache.length ≤ cache.length → Fetched d s p h r (false, marked s p cache)

theorem fetch_cases (d : Dev) (s : Scan) (v l p : Nat) (h : VidHdr) :
    Fetched d s p h ⟨v, l, h.dataSize, h.dataCrc⟩ (fetch d s v l p h) := by
  have hlen : s.lebCache.length ≤
      (s.fillCache (d.readData (p + d.pebOffset) h.dataSize).2).lebCache.length := by
    simp only [fillCache, length_append, length_drop]
    omega
  unfold fetch
  dsimp only
  split_ifs with hhit hfail hcrc
  · exact .hit hhit
  · exact .damaged hhit (if_neg fun hn => hn.1 hfail) hlen
  all_goals rw [fillCache, take_left' (d.length_readData _ _ hfail)] at hcrc
  · exact .damaged hhit (if_neg fun hn => hcrc hn.2) hlen
  · exact .read (if_pos ⟨hfail, not_not.mp hcrc⟩)

variable {last : Nat}

theorem Inv.loadPass_mapped (hi : Inv d s) (hv : v < volIds) (hl : l < d.lebCount v)
    (hm : s.mapped v l = some p) : loadPass d laddr v l last skiplen readlen s =
      if (s.blockinfo p).usedEbs ≠ last then .retry (findOther d (s.setCorrupt p) v l)
      else if laddr = false ∨
      (s.blockinfo p).dataSize ≤ skiplen then .done (s.blockinfo p).dataSize [] s
      else if (fetch d s v l p (s.blockinfo p)).1 = false then
        .retry (findOther d (fetch d s v l p (s.blockinfo p)).2 v l)
          else .done (s.blockinfo p).dataSize
        (((fetch d s v l p (s.blockinfo p)).2.lebCache.drop skiplen).take
          (min readlen ((s.blockinfo p).dataSize - skiplen)))
          (fetch d s v l p (s.blockinfo p)).2 := by
  have htop := hi.mapped v hv l hl p hm
  obtain ⟨hf, hptr⟩ := (s.mapped_eq_some v l p).mp hm
  have hlt : ¬ s.pebCount ≤ p := by
    have := hi.count
    have := htop.lt
    omega
  have hready : vidReady d s p v l = (true, s) := if_pos (hi.scanned p htop.lt)
  unfold loadPass
  simp [hf, hptr, hlt, htop.live, hready]

end Pass

section Load

variable (hi : Inv d s)
include hi

theorem Inv.drop_count (hv : v < volIds) (hl : l < d.lebCount v)
    (hm : s.mapped v l = some p) (hne : (s.blockinfo p).usedEbs ≠ d.lebCount v) :
    Inv d (findOther d (marked s p s.lebCache) v l) := by
  have htop := hi.mapped v hv l hl p hm
  apply hi.drop hv hl hm _ le_rfl
  · rintro c hc ⟨rfl, rfl⟩
    obtain ⟨q, hq, -, -, hebs⟩ := (hi.cache c hc).block
    rw [hm] at hq
    cases hq
    exact hne hebs
  · rintro v' - l' c ⟨h, ⟨-, hvid, hvol, -, -, hebs⟩, -⟩
    rw [hi.info p htop.lt htop.live] at hvid
    cases hvid
    have : v' = v := hvol.symm.trans htop.vol
    exact hne (this ▸ hebs)

theorem Inv.filled (hv : v < volIds) (hl : l < d.lebCount v)
    (hm : s.mapped v l = some p) (hebs : (s.blockinfo p).usedEbs = d.lebCount v)
    {c : Bytes} (hdata : d.data p (s.blockinfo p) = some c) : Inv d { s.fillCache c with
      lebCacheInfo := some ⟨v, l, (s.blockinfo p).dataSize, (s.blockinfo p).dataCrc⟩ } := by
  have hlen := Dev.length_data hdata
  refine { hi with
    mapped := fun v' hv' l' hl' q hq => { hi.mapped v' hv' l' hl' q hq with }, cache := ?_ }
  · intro r hr
    cases hr
    refine ⟨hv, hl, ⟨p, hm, rfl, rfl, hebs⟩, ?_⟩
    show (s.blockinfo p).dataSize ≤ (c ++ s.lebCache.drop c.length).length
    rw [length_append]
    omega

inductive Round (d : Dev) (laddr : Bool) (v l skiplen readlen : Nat) (s : Scan) : Pass → Prop where
  /-- The LEB has no block. -/
  | missing : s.mapped v l = none → Round d laddr v l skiplen readlen s (.done (-einval) [] s)
  /-- A block with another number of LEBs is dropped. -/
  | count {s' : Scan} : Inv d s' → live s' < live s → s'.lebCacheInfo = s.lebCacheInfo →
      s'.lebCache = s.lebCache → Round d laddr v l skiplen readlen s (.retry s')
  /-- Only the length of the block counts. -/
  | skipped {p : Nat} : Top d s v l p → (s.blockinfo p).usedEbs = d.lebCount v →
      laddr = false ∨ (s.blockinfo p).dataSize ≤ skiplen →
      Round d laddr v l skiplen readlen s (.done (s.blockinfo p).dataSize [] s)
  /-- The data is in the cache. -/
  | cached {p : Nat} : Top d s v l p → (s.blockinfo p).usedEbs = d.lebCount v → laddr = true →
      skiplen < (s.blockinfo p).dataSize →
      s.lebCacheInfo = some ⟨v, l, (s.blockinfo p).dataSize, (s.blockinfo p).dataCrc⟩ →
      Round d laddr v l skiplen readlen s (.done (s.blockinfo p).dataSize
        ((s.lebCache.drop skiplen).take (min readlen ((s.blockinfo p).dataSize - skiplen))) s)
  /-- The data has been read. -/
  | read {p : Nat} {c : Bytes} {s' : Scan} : Top d s v l p →
      (s.blockinfo p).usedEbs = d.lebCount v → laddr = true →
      skiplen < (s.blockinfo p).dataSize → d.data p (s.blockinfo p) = some c → Inv d s' →
      s'.lebCacheInfo = some ⟨v, l, (s.blockinfo p).dataSize, (s.blockinfo p).dataCrc⟩ →
      s'.lebCache = c ++ s.lebCache.drop c.length →
      Round d laddr v l skiplen readlen s (.done (s.blockinfo p).dataSize
        ((s'.lebCache.drop skiplen).take (min readlen ((s.blockinfo p).dataSize - skiplen))) s')
  /-- A block with damaged data is dropped. -/
  | damaged {p : Nat} {s' : Scan} : Top d s v l p → (s.blockinfo p).usedEbs = d.lebCount v →
      laddr = true → skiplen < (s.blockinfo p).dataSize → d.data p (s.blockinfo p) = none →
      Inv d s' → live s' < live s → s'.lebCacheInfo = s.lebCacheInfo →
      (∀ c, s.lebCacheInfo = some c → ¬ (c.volId = v ∧ c.leb = l)) →
      Round d laddr v l skiplen readlen s (.retry s')

theorem Inv.round (hv : v < volIds) (hl : l < d.lebCount v) : Round d laddr v l skiplen readlen s
      (loadPass d laddr v l (d.lebCount v) skiplen readlen s) := by
  have hframe (p cache) : Frame (marked s p cache) (findOther d (marked s p cache) v l) :=
    findOther_frame hi.scanned_marked
  have hlive : ∀ {p cache}, Top d s v l p → live (findOther d (marked s p cache) v l) < live s := by
    intro p cache htop
    have heq : live (findOther d (marked s p cache) v l) = live (marked s p cache) := by
      simp [live, (hframe p cache).count, (hframe p cache).corrupt]
    rw [heq]
    exact live_marked (hi.count.symm ▸ htop.lt) htop.live
  cases hm : s.mapped v l with
  | none =>
    rw [loadPass, if_pos ((s.mapped_eq_none v l).mp hm)]
    exact .missing hm
  | some p =>
    have htop := hi.mapped v hv l hl p hm
    rw [hi.loadPass_mapped hv hl hm]
    have hfetched := fetch_cases d s v l p (s.blockinfo p)
    split_ifs with hebs hskip hfetch
    · exact .count (hi.drop_count hv hl hm hebs) (hlive htop) (hframe p _).info (hframe p _).cache
    · exact .skipped htop (not_not.mp hebs) hskip
    all_goals
      rw [not_not] at hebs
      rw [not_or, not_le, Bool.not_eq_false] at hskip
      generalize fetch d s v l p (s.blockinfo p) = f at hfetch hfetched ⊢
    · cases hfetched with
      | hit => cases hfetch
      | read => cases hfetch
      | @damaged cache hmiss hdata hlen =>
        have hrec : ∀ c, s.lebCacheInfo = some c → ¬ (c.volId = v ∧ c.leb = l) := by
          rintro c hc ⟨hvol, hleb⟩
          obtain ⟨q, hq, hsize, hcrc, -⟩ := (hi.cache c hc).block
          rw [hvol, hleb, hm] at hq
          cases hq
          exact hmiss (by rw [hc, hsize, hcrc, ← hvol, ← hleb])
        refine .damaged htop hebs hskip.1 hskip.2 hdata (hi.drop hv hl hm ?_ hlen hrec)
          (hlive htop) (hframe p cache).info hrec
        rintro v' - l' c ⟨h, ⟨-, hvid, -⟩, hgood⟩
        rw [hi.info p htop.lt htop.live] at hvid
        cases hvid
        rw [hdata] at hgood
        cases hgood
    · cases hfetched with
      | hit hhit => exact .cached htop hebs hskip.1 hskip.2 hhit
      | read hdata =>
        exact .read htop hebs hskip.1 hskip.2 hdata (hi.filled hv hl hm hebs hdata) rfl rfl
      | damaged => exact absurd rfl hfetch

omit hi in
/-- The rule for the retry loop: `P` holds at the start of each round and `Q` of the result. -/
theorem load_rule {P : Scan → Prop} {Q : Int → Bytes → Scan → Prop} (hv : v < volIds)
    (hl : l < d.lebCount v)
    (hround : ∀ s pass, Inv d s → P s → Round d laddr v l skiplen readlen s pass → match pass with
      | .done ret out s' => Q ret out s'
      | .retry s' => Inv d s' ∧ P s' ∧ live s' < live s) (hi : Inv d s) (hP : P s) :
    ∃ ret out s', ubiLoadBlock d laddr v l (d.lebCount v) skiplen readlen (s.pebCount + 1) s =
      some (ret, out, s') ∧ Q ret out s' := by
  -- each retry leaves fewer live blocks, so that many rounds are enough
  have hall : ∀ fuel s, Inv d s → P s → live s < fuel → ∃ ret out s',
      ubiLoadBlock d laddr v l (d.lebCount v) skiplen readlen fuel s = some (ret, out, s') ∧
      Q ret out s' := by
    intro fuel
    induction fuel with
    | zero =>
      intro s _ _ h
      exact absurd h (Nat.not_lt_zero _)
    | succ fuel ih =>
      intro s hi hP hlive
      have h := hround s _ hi hP (hi.round hv hl)
      rw [ubiLoadBlock]
      cases hp : loadPass d laddr v l (d.lebCount v) skiplen readlen s with
      | done ret out s' =>
        rw [hp] at h
        exact ⟨ret, out, s', rfl, h⟩
      | retry s' =>
        rw [hp] at h
        exact ih s' h.1 h.2.1 (by omega)
  exact hall _ s hi hP (Nat.lt_succ_of_le (live_le s))

theorem Inv.load (hv : v < volIds) (hl : l < d.lebCount v) (laddr : Bool) (skiplen readlen : Nat) :
    ∃ ret out s', ubiLoadBlock d laddr v l (d.lebCount v) skiplen readlen (s.pebCount + 1) s =
      some (ret, out, s') ∧ Inv d s' ∧ out.length ≤ readlen := by
  refine load_rule (P := fun _ => True) hv hl ?_ hi trivial
  intro s pass hi _ hr
  cases hr with
  | missing => exact ⟨hi, Nat.zero_le _⟩
  | count hi' hlive => exact ⟨hi', trivial, hlive⟩
  | skipped => exact ⟨hi, Nat.zero_le _⟩
  | cached => exact ⟨hi, by simp⟩
  | read _ _ _ _ _ hi' => exact ⟨hi', by simp⟩
  | damaged _ _ _ _ _ hi' hlive => exact ⟨hi', trivial, hlive⟩

end Load

end MtkBoot.Ubi
