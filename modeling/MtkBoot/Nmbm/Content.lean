import MtkBoot.Nmbm.Range

/-! The pages that `nmbm_write_range` hands to the lower device.  Behind the end of the range the
page cache shows through, with what its last user has left in it. -/

namespace MtkBoot.Nmbm

open List Nmbm.Geometry Instance Nat

/-! ### What should be written -/

def WriteCall.Reaches (c : WriteCall) : Prop :=
  c.sys.ni.lower.readOnly = false ∧ Usable c.sys.ni (c.sys.ni.geo.addr2ba c.addr)

instance (c : WriteCall) : Decidable c.Reaches := inferInstanceAs (Decidable (_ ∧ _))

/-- The calls of `nmbm_write_range` that hand a buffer to the lower device. -/
def handed (s : Sys) (addr : Nat) (data : Bytes) : List WriteCall :=
  (writeRange s addr data).1.filter fun c => decide c.Reaches

def wanted (addr : Nat) (data : Bytes) (x : Nat) : UInt8 :=
  if addr ≤ x ∧ x < addr + data.length then data.getD (x - addr) 0 else 0xff

/-- The pages handed to the lower device hold the data and are blank around it. -/
def HandsRange (s : Sys) (addr : Nat) (data : Bytes) : Prop :=
  ∀ c ∈ handed s addr data, ∀ i < s.ni.geo.writesize, c.page i = wanted addr data (c.addr + i)

def Sys.withFate (s : Sys) (fate : Nat → Outcome) : Sys := { s with chip.fate := fate }

/-- What the page cache holds when the last page of a range is put together in it. -/
def stale (s : Sys) (addr : Nat) (data : Bytes) (i : Nat) : UInt8 :=
  let ws := s.ni.geo.writesize
  let leading := addr % ws
  if leading ≠ 0 ∧ ws - leading < data.length then
    if i < leading then 0xff else data.getD (i - leading) 0
  else s.ni.pageCache i

/-! ### The calls of a write -/

/-- What is known of a call for data at `off`: it is for a page of the range, only the page cache of
the instance has changed, and the blocks before this one could be written. -/
structure CallOf (s : Sys) (off : Nat) (c : WriteCall) : Prop where
  aligned : c.addr % s.ni.geo.writesize = 0
  le : off - off % s.ni.geo.writesize ≤ c.addr
  ni : c.sys.ni.unpaged = s.ni.unpaged
  usable : ∀ lb, off / s.ni.geo.erasesize ≤ lb → lb < c.addr / s.ni.geo.erasesize → Usable s.ni lb

section Calls

variable {s s' : Sys} {off : Nat} {data : Bytes} {c : WriteCall}

theorem stagePage_unpaged (s : Sys) (off : Nat) (data : Bytes) :
    (stagePage s off data).ni.unpaged = s.ni.unpaged := by
  unfold stagePage
  split <;> rfl

theorem stagePage_fate (s : Sys) (off : Nat) (data : Bytes) :
    (stagePage s off data).chip.fate = s.chip.fate := by
  unfold stagePage
  split <;> rfl

theorem Usable.of_unpaged {ni ni' : Instance} {lb : Nat} (h : Usable ni lb)
    (heq : ni'.unpaged = ni.unpaged) : Usable ni' lb := by
  have hmap : ni'.blockMapping = ni.blockMapping := (congrArg blockMapping heq :)
  have hstate : ni'.blockState = ni.blockState := (congrArg blockState heq :)
  unfold Usable
  rw [hmap, hstate]
  exact h

theorem geo_of_unpaged {ni ni' : Instance} (heq : ni'.unpaged = ni.unpaged) : ni'.geo = ni.geo :=
  (congrArg geo heq :)

theorem ne_nil_of_mem_writeChunks {fuel : Nat} (h : c ∈ (writeChunks fuel off data s).1) :
    data ≠ [] := by
  cases fuel with
  | zero => cases h
  | succ fuel => exact (mem_writeChunks h).1

theorem page_start_aligned (off ws : Nat) : (off - off % ws) % ws = 0 := by
  rw [← mul_div_self_eq_mod_sub_self]
  exact mul_mod_right ws _

theorem page_start_mono {off off' : Nat} (ws : Nat) (h : off ≤ off') :
    off - off % ws ≤ off' - off' % ws := by
  rw [← mul_div_self_eq_mod_sub_self, ← mul_div_self_eq_mod_sub_self]
  exact Nat.mul_le_mul_left ws (Nat.div_le_div_right h)

theorem page_start_pred {stop ws : Nat} (h : 0 < stop % ws) :
    stop - 1 - (stop - 1) % ws = stop - stop % ws := by
  have hdiv := Nat.div_add_mod stop ws
  rcases Nat.eq_zero_or_pos ws with rfl | hws
  · simp
  have hlt := mod_lt stop hws
  have hmod : (stop - 1) % ws = stop % ws - 1 := by
    rw [show stop - 1 = stop % ws - 1 + ws * (stop / ws) by omega, add_mul_mod_self_left,
      mod_eq_of_lt (by omega)]
  omega

theorem Geometry.div_page (g : Geometry) (off : Nat) :
    (off - off % g.writesize) / g.erasesize = off / g.erasesize := by
  apply g.div_erasesize_of_page
  have hdiv := div_add_mod off g.writesize
  rw [show off - off % g.writesize = g.writesize * (off / g.writesize) by omega]
  exact Nat.mul_div_cancel_left _ g.writesize_pos

theorem Geometry.addr2ba_page (g : Geometry) (hoff : off < 2 ^ 32 * g.erasesize) :
    g.addr2ba (off - off % g.writesize) = off / g.erasesize := by
  rw [addr2ba, g.div_page, u32_of_lt]
  exact (div_lt_iff_lt_mul g.erasesize_pos).mpr hoff

theorem Geometry.writesize_le (g : Geometry) : g.writesize ≤ g.erasesize := by
  rw [g.erasesize_eq]
  exact Nat.le_mul_of_pos_right _ g.pages_pos

theorem callOf_writeChunks (fuel : Nat) : ∀ (off : Nat) (data : Bytes) (s : Sys),
    off + data.length < 2 ^ 64 → off + data.length ≤ 2 ^ 32 * s.ni.geo.erasesize →
    ∀ c ∈ (writeChunks fuel off data s).1, CallOf s off c := by
  induction fuel with
  | zero => intro off data s _ _ c hc; cases hc
  | succ fuel ih =>
    intro off data s hword hblocks c hc
    have hes := s.ni.geo.erasesize_pos
    obtain ⟨hne, rfl | ⟨s', hwrite, hc⟩⟩ := mem_writeChunks hc
    · refine ⟨page_start_aligned off _, le_rfl, stagePage_unpaged s off data, ?_⟩
      intro lb hlo hhi
      have := Nat.div_le_div_right (c := s.ni.geo.erasesize)
        (Nat.sub_le off (off % s.ni.geo.writesize))
      simp only at hhi
      omega
    · have hpos := length_pos_iff.mpr hne
      have hchunk := length_take_le' (s.ni.geo.writesize - off % s.ni.geo.writesize) data
      have hchunk' := length_take_le (s.ni.geo.writesize - off % s.ni.geo.writesize) data
      generalize (data.take (s.ni.geo.writesize - off % s.ni.geo.writesize)).length =
        chunk at hc hchunk hchunk'
      obtain ⟨hhead, hni, -⟩ := writeLogicPage_ok hwrite
      have hsame : s'.ni.unpaged = s.ni.unpaged := by rw [hni, stagePage_unpaged]
      have hgeo := geo_of_unpaged hsame
      rw [u64_of_lt (by omega)] at hc
      have hrest := ih _ _ _ (by rw [length_drop]; omega) (by rw [length_drop, hgeo]; omega) c hc
      refine ⟨hgeo ▸ hrest.aligned, ?_, hrest.ni.trans hsame, ?_⟩
      · have hle := hrest.le
        rw [hgeo] at hle
        exact (page_start_mono _ (le_add_right off chunk)).trans hle
      intro lb hlo hhi
      by_cases hlb : lb = off / s.ni.geo.erasesize
      · rw [geo_of_unpaged (stagePage_unpaged s off data), addr2ba_page _ (by omega)] at hhead
        exact hlb ▸ hhead.of_unpaged (stagePage_unpaged s off data).symm
      · -- the rest of the range starts in this block or in the next
        have hnext : (off + chunk) / s.ni.geo.erasesize ≤ off / s.ni.geo.erasesize + 1 := by
          rw [← add_div_right off hes]
          have := s.ni.geo.writesize_le
          exact Nat.div_le_div_right (by omega)
        exact (hrest.usable lb (by rw [hgeo]; omega) (by rw [hgeo]; exact hhi)).of_unpaged
          hsame.symm

end Calls

/-! ### The pages of a write -/

theorem getD_take {data : Bytes} {n j : Nat} (h : j < n) :
    (data.take n).getD j 0 = data.getD j 0 := by
  simp [getD_eq_getElem?_getD, h]

theorem getD_drop (data : Bytes) (n j : Nat) : (data.drop n).getD j 0 = data.getD (n + j) 0 := by
  simp [getD_eq_getElem?_getD]

theorem page_of_aligned (fuel : Nat) : ∀ (off : Nat) (data : Bytes) (s : Sys),
    off % s.ni.geo.writesize = 0 → off + data.length < 2 ^ 64 →
    ∀ c ∈ (writeChunks fuel off data s).1, off ≤ c.addr ∧ ∀ i < s.ni.geo.writesize,
      c.page i = if c.addr + i < off + data.length then data.getD (c.addr + i - off) 0
      else s.ni.pageCache i := by
  induction fuel with
  | zero => intro off data s _ _ c hc; cases hc
  | succ fuel ih =>
    intro off data s hoff hword c hc
    obtain ⟨hne, rfl | ⟨s', hwrite, hc⟩⟩ := mem_writeChunks hc
    · refine ⟨by simp [hoff], fun i hi => ?_⟩
      simp only [fillPage, hoff, Nat.sub_zero, zero_add, Nat.not_lt_zero, if_false,
        length_take, Nat.add_sub_cancel_left]
      by_cases hin : i < data.length
      · rw [if_pos (by omega), if_pos (by omega), getD_take hi]
      · rw [if_neg (by omega), if_neg (by omega)]
    · have hrest := ne_nil_of_mem_writeChunks hc
      simp only [hoff, Nat.sub_zero] at hwrite hc hrest
      have hfull : (data.take s.ni.geo.writesize).length = s.ni.geo.writesize := by
        have := length_pos_iff.mpr hrest
        rw [length_drop, length_take] at this
        rw [length_take]
        omega
      have hlong : s.ni.geo.writesize ≤ data.length := by
        rw [length_take] at hfull
        omega
      have hstage : stagePage s off data = s := by rw [stagePage, hoff, Nat.sub_zero, if_pos hfull]
      obtain ⟨-, hni, -⟩ := writeLogicPage_ok hwrite
      rw [hstage] at hni
      rw [hfull, u64_of_lt (by omega)] at hc
      obtain ⟨hle, hpage⟩ := ih _ _ _ (by rw [hni]; simp [Nat.add_mod_right, hoff])
        (by rw [length_drop]; omega) c hc
      refine ⟨by omega, fun i hi => ?_⟩
      rw [hpage i (by rw [hni]; exact hi), hni, length_drop]
      by_cases hin : c.addr + i < off + data.length
      · rw [if_pos (by omega), if_pos hin, getD_drop]
        congr 1
        omega
      · rw [if_neg (by omega), if_neg hin]

theorem page_of_writeChunks {fuel off : Nat} {data : Bytes} {s : Sys}
    (hword : off + data.length < 2 ^ 64) {c : WriteCall} (hc : c ∈ (writeChunks fuel off data s).1)
    {i : Nat} (hi : i < s.ni.geo.writesize) : c.page i = if c.addr + i < off then 0xff
      else if c.addr + i < off + data.length then data.getD (c.addr + i - off) 0
      else stale s off data i := by
  cases fuel with
  | zero => cases hc
  | succ fuel =>
    have hdiv := div_add_mod off s.ni.geo.writesize
    obtain ⟨hne, rfl | ⟨s', hwrite, hc⟩⟩ := mem_writeChunks hc
    · simp only [fillPage, length_take]
      by_cases hlo : i < off % s.ni.geo.writesize
      · rw [if_pos hlo, if_pos (by omega)]
      · rw [if_neg hlo, if_neg (by omega : ¬off - off % s.ni.geo.writesize + i < off)]
        by_cases hin : off - off % s.ni.geo.writesize + i < off + data.length
        · rw [if_pos (by omega), if_pos hin, getD_take (by omega)]
          congr 1
          omega
        · rw [if_neg (by omega), if_neg hin, stale, if_neg (by omega)]
    · -- the range goes on behind its first page
      have hlong : s.ni.geo.writesize - off % s.ni.geo.writesize < data.length := by
        have := length_pos_iff.mpr (ne_nil_of_mem_writeChunks hc)
        rw [length_drop, length_take] at this
        omega
      rw [length_take, min_eq_left (by omega), u64_of_lt (by omega)] at hc
      obtain ⟨-, hni, -⟩ := writeLogicPage_ok hwrite
      have hgeo : s'.ni.geo = s.ni.geo := by rw [hni, geo_of_unpaged (stagePage_unpaged s off data)]
      have hnext :
          (off + (s.ni.geo.writesize - off % s.ni.geo.writesize)) % s'.ni.geo.writesize = 0 := by
        rw [hgeo]
        have := @next_aligned _ off data.length s.ni.geo.writesize_pos (by omega)
        rwa [min_eq_left (by omega)] at this
      obtain ⟨hle, hpage⟩ := page_of_aligned _ _ _ _ hnext (by rw [length_drop]; omega) c hc
      rw [hpage i (by rw [hgeo]; exact hi), length_drop, if_neg (by omega : ¬c.addr + i < off)]
      by_cases hin : c.addr + i < off + data.length
      · rw [if_pos (by omega), if_pos hin, getD_drop]
        congr 1
        omega
      rw [if_neg (by omega), if_neg hin, hni, stale]
      by_cases hzero : off % s.ni.geo.writesize = 0
      · rw [if_neg (by omega), stagePage, if_pos (by rw [length_take]; omega)]
      · rw [if_pos ⟨hzero, hlong⟩, stagePage, if_neg (by rw [length_take]; omega)]
        simp only [Sys.cachePage, fillPage, length_take]
        by_cases hlo : i < off % s.ni.geo.writesize
        · rw [if_pos hlo, if_pos hlo]
        · rw [if_neg hlo, if_neg hlo, if_pos (by omega), getD_take (by omega)]

/-! ### A chip that takes every page -/

section Complete

variable {s : Sys}

theorem writeLogicPage_succeeds {addr : Nat} (page : Mem) (hro : s.ni.lower.readOnly = false)
    (husable : Usable s.ni (s.ni.geo.addr2ba addr)) (hfate : ∀ n, (s.chip.fate n).ret = 0) :
    ∃ s', writeLogicPage s addr (some page) = some (0, s') := by
  simp only [writeLogicPage, if_neg (Int.not_lt.mpr husable.1), if_neg husable.2, writePhysPage,
    hro, Bool.false_eq_true, if_false, tryCount, retry, writePage, Sys.outcome, hfate, if_true]
  exact ⟨_, rfl⟩

theorem last_mem_writeChunks (fuel : Nat) : ∀ (off : Nat) (data : Bytes) (s : Sys),
    data ≠ [] → data.length ≤ fuel → off + data.length < 2 ^ 64 → off + data.length ≤
    2 ^ 32 * s.ni.geo.erasesize → s.ni.lower.readOnly = false → (∀ n, (s.chip.fate n).ret = 0) →
    (∀ lb, off / s.ni.geo.erasesize ≤ lb → lb ≤ (off + data.length - 1) / s.ni.geo.erasesize →
      Usable s.ni lb) → ∃ c ∈ (writeChunks fuel off data s).1, c.addr =
      off + data.length - 1 - (off + data.length - 1) % s.ni.geo.writesize := by
  induction fuel with
  | zero =>
    intro off data s hne hfuel
    exact absurd (length_eq_zero_iff.mp (le_zero.mp hfuel)) hne
  | succ fuel ih =>
    intro off data s hne hfuel hword hblocks hro hfate husable
    have hpos := length_pos_iff.mpr hne
    have hws := s.ni.geo.writesize_pos
    have hdiv := div_add_mod off s.ni.geo.writesize
    have hlead := mod_lt off hws
    simp only [writeChunks, if_neg hne]
    by_cases hlast : data.length ≤ s.ni.geo.writesize - off % s.ni.geo.writesize
    · refine ⟨_, mem_cons_self, ?_⟩
      have hmod : (off + data.length - 1) % s.ni.geo.writesize =
          off % s.ni.geo.writesize + data.length - 1 := by
        rw [show off + data.length - 1 = off % s.ni.geo.writesize + data.length - 1 +
          s.ni.geo.writesize * (off / s.ni.geo.writesize) by omega, add_mul_mod_self_left,
          mod_eq_of_lt (by omega)]
      simp only [hmod]
      omega
    · have hstage := stagePage_unpaged s off data
      have hgeo := geo_of_unpaged hstage
      have hhead : Usable (stagePage s off data).ni ((stagePage s off data).ni.geo.addr2ba
          (off - off % s.ni.geo.writesize)) := by
        rw [hgeo, addr2ba_page _ (by omega)]
        exact (husable _ le_rfl (Nat.div_le_div_right (by omega))).of_unpaged hstage
      have hlower : (stagePage s off data).ni.lower = s.ni.lower := (congrArg lower hstage :)
      obtain ⟨s', hwrite⟩ := writeLogicPage_succeeds (fillPage s off data)
        (by rw [hlower]; exact hro) hhead (by rw [stagePage_fate]; exact hfate)
      obtain ⟨-, hni, hfate'⟩ := writeLogicPage_ok hwrite
      have hsame : s'.ni.unpaged = s.ni.unpaged := by rw [hni, hstage]
      have hgeo' : s'.ni.geo = s.ni.geo := geo_of_unpaged hsame
      rw [hwrite]
      rw [length_take, min_eq_left (by omega), u64_of_lt (by omega)]
      obtain ⟨c, hc, haddr⟩ := ih (off + (s.ni.geo.writesize - off % s.ni.geo.writesize))
        (data.drop (s.ni.geo.writesize - off % s.ni.geo.writesize)) s'
        (by rw [← length_pos_iff, length_drop]; omega)
        (by rw [length_drop]; omega) (by rw [length_drop]; omega)
        (by rw [length_drop, hgeo']; omega)
        (by rw [hni, hlower]; exact hro)
        (by rw [hfate', stagePage_fate]; exact hfate)
        (by
          intro lb hlo hhi
          rw [hgeo'] at hlo hhi
          rw [length_drop] at hhi
          refine (husable lb (le_trans (Nat.div_le_div_right (by omega)) hlo) ?_).of_unpaged
            hsame
          rwa [show off + (s.ni.geo.writesize - off % s.ni.geo.writesize) + (data.length -
            (s.ni.geo.writesize - off % s.ni.geo.writesize)) = off + data.length by omega] at hhi)
      refine ⟨c, mem_cons_of_mem _ hc, ?_⟩
      rw [haddr, hgeo', length_drop, show off + (s.ni.geo.writesize -
        off % s.ni.geo.writesize) + (data.length - (s.ni.geo.writesize -
        off % s.ni.geo.writesize)) = off + data.length by omega]

end Complete

/-! ### The content of a range -/

section Content

variable {s : Sys} {addr : Nat} {data : Bytes}

/-- The instance can be written and its sizes are words. -/
structure Writable (ni : Instance) : Prop where
  isProtected : ni.isProtected = false
  readOnly : ni.lower.readOnly = false
  blocks_lt : ni.dataBlockCount < 2 ^ 32
  size_lt : ni.geo.ba2addr ni.dataBlockCount < 2 ^ 64

theorem mem_handed (hw : Writable s.ni)
    (hle : addr + data.length ≤ s.ni.geo.ba2addr s.ni.dataBlockCount) {c : WriteCall} :
    c ∈ handed s addr data ↔ c ∈ (writeChunks data.length addr data s).1 ∧ c.Reaches := by
  by_cases hne : data = []
  · subst hne
    simp [handed, RangeOp.mem_writeRange, writeChunks]
  have hpos := length_pos_iff.mpr hne
  have hpass : (RangeOp.write data).Passes s.ni addr := by
    refine ⟨by simp [RangeOp.refused, hw.isProtected, hw.readOnly], by omega, ?_⟩
    exact (mod_le _ _).trans hle
  rw [handed, mem_filter, decide_eq_true_iff, RangeOp.mem_writeRange, and_iff_right hpass]

theorem last_of_beyond {ws a stop i : Nat} (ha : a % ws = 0) (hlt : a < stop) (hi : i < ws)
    (hbeyond : stop ≤ a + i) : a = stop - stop % ws ∧ 0 < stop % ws ∧ stop % ws ≤ i := by
  have hdiv := div_add_mod a ws
  have hmod : stop % ws = stop - a := by
    rw [show stop =
      stop - a + ws * (a / ws) by omega, add_mul_mod_self_left, mod_eq_of_lt (by omega)]
    omega
  omega

/-- The pages that a write hands to the lower device are those of its range exactly if the range
ends with a page, the page cache is blank where the last page ends early, or a block of the range
cannot be written. -/
theorem handsRange_iff (hw : Writable s.ni)
    (hle : addr + data.length ≤ s.ni.geo.ba2addr s.ni.dataBlockCount) :
    (∀ fate, HandsRange (s.withFate fate) addr data) ↔
      data = [] ∨ (addr + data.length) % s.ni.geo.writesize = 0 ∨
      (∀ i, (addr + data.length) % s.ni.geo.writesize ≤ i → i < s.ni.geo.writesize →
        stale s addr data i = 0xff) ∨
      ∃ lb, addr / s.ni.geo.erasesize ≤ lb ∧
        lb ≤ (addr + data.length - 1) / s.ni.geo.erasesize ∧ ¬Usable s.ni lb := by
  have hword := hw.size_lt
  have hblocks : addr + data.length ≤ 2 ^ 32 * s.ni.geo.erasesize :=
    hle.trans (mul_le_mul_right _ (le_of_lt hw.blocks_lt))
  constructor
  · intro h
    by_contra hnot
    simp only [not_or, not_exists, not_and, not_not] at hnot
    obtain ⟨hne, hpartial, hdirty, husable⟩ := hnot
    apply hdirty
    intro i hlo hi
    have hpos := length_pos_iff.mpr hne
    -- a chip that takes every page gets the last one
    let t := s.withFate fun _ => succeeding fun _ => false
    obtain ⟨c, hc, haddr⟩ := last_mem_writeChunks data.length addr data t hne le_rfl
      (by omega) hblocks hw.readOnly (fun _ => rfl) husable
    have hcall := callOf_writeChunks _ _ _ t (by omega) hblocks c hc
    have hgeo := geo_of_unpaged hcall.ni
    have hlast : c.addr = addr + data.length - (addr + data.length) % s.ni.geo.writesize := by
      rw [haddr, ← page_start_pred (pos_of_ne_zero hpartial)]
      rfl
    have hreach : c.Reaches := by
      refine ⟨(congrArg (fun ni => ni.lower.readOnly) hcall.ni).trans hw.readOnly, ?_⟩
      rw [hgeo, haddr]
      rw [show t.ni.geo = s.ni.geo from rfl, addr2ba_page _ (by omega)]
      exact (husable _ (Nat.div_le_div_right (by omega)) le_rfl).of_unpaged hcall.ni
    have hpage := h _ c ((@mem_handed t addr data hw hle c).mpr ⟨hc, hreach⟩) i hi
    rw [page_of_writeChunks (by omega) hc hi, wanted, if_neg (by omega), if_neg (by omega),
      if_neg (by omega)] at hpage
    exact hpage
  · intro h fate c hc i hi
    obtain ⟨hc, -, hreach⟩ := (@mem_handed (s.withFate fate) addr data hw hle c).mp hc
    have hcall := callOf_writeChunks _ _ _ (s.withFate fate) (by omega) hblocks c hc
    have hlt := writeChunks_lt _ _ _ _ (by omega) c hc
    rw [page_of_writeChunks (by omega) hc hi, wanted]
    by_cases hlo : c.addr + i < addr
    · rw [if_pos hlo, if_neg (by omega)]
    rw [if_neg hlo]
    by_cases hin : c.addr + i < addr + data.length
    · rw [if_pos hin, if_pos (by omega)]
    rw [if_neg hin, if_neg (by omega)]
    obtain ⟨hlast, hpartial, hbehind⟩ := last_of_beyond hcall.aligned hlt hi (by omega)
    rcases h with hnil | hwhole | hblank | ⟨lb, hlb, hlb', hbad⟩
    · rw [hnil] at hc
      cases hc
    · exact absurd hwhole (ne_of_gt hpartial)
    · exact hblank i hbehind hi
    · rw [← page_start_pred hpartial] at hlast
      have hblock :
          c.addr / s.ni.geo.erasesize = (addr + data.length - 1) / s.ni.geo.erasesize := by
        rw [hlast]
        exact s.ni.geo.div_page _
      rw [geo_of_unpaged hcall.ni, hlast] at hreach
      replace hreach : Usable c.sys.ni ((addr + data.length - 1) / s.ni.geo.erasesize) := by
        rwa [← s.ni.geo.addr2ba_page (by omega)]
      rcases lt_or_eq_of_le hlb' with hbefore | rfl
      · exact absurd (hcall.usable lb hlb (hblock ▸ hbefore)) hbad
      · exact absurd (hreach.of_unpaged hcall.ni.symm) hbad

end Content

def dirtySys : Sys := { smallSys with ni.pageCache := fun _ => 0 }

theorem handsRange_iff_whole_page :
    (∀ fate, HandsRange (dirtySys.withFate fate) 64 (List.replicate 64 1)) ∧
      (64 + (List.replicate 64 (1 : UInt8)).length) % dirtySys.ni.geo.writesize = 0 :=
  ⟨(handsRange_iff ⟨rfl, rfl, by decide, by decide⟩ (by decide)).mpr
    (.inr (.inl (by decide))), by decide⟩

/-- Three bytes for a page of 64: the zeros of the cache follow them. -/
theorem stale_bytes_handed : Writable dirtySys.ni ∧
    0 + [1, 2, 3].length ≤ dirtySys.ni.geo.ba2addr dirtySys.ni.dataBlockCount ∧
    ¬HandsRange dirtySys 0 [1, 2, 3] := by
  have hw : Writable dirtySys.ni := ⟨rfl, rfl, by decide, by decide⟩
  have hle :
    0 + [(1 : UInt8), 2, 3].length ≤ dirtySys.ni.geo.ba2addr dirtySys.ni.dataBlockCount := by decide
  refine ⟨hw, hle, fun h => ?_⟩
  have hcall : (⟨0, fillPage dirtySys 0 [1, 2, 3], stagePage dirtySys 0 [1, 2, 3]⟩ : WriteCall) ∈
      (writeChunks 3 0 [1, 2, 3] dirtySys).1 := by
    rw [writeChunks, if_neg (by decide)]
    exact mem_cons_self
  have hbyte : (0 : UInt8) = 0xff :=
    h _ ((mem_handed hw hle).mpr ⟨hcall, rfl, by decide⟩) 3 (by decide)
  cases hbyte

end MtkBoot.Nmbm
