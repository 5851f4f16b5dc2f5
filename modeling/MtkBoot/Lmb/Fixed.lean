import MtkBoot.Lmb.Clear

/-! Allocation at a fixed address.  `_lmb_alloc_addr` looks at the first bank that overlaps the
range and at the last byte of the range, and then reserves it. -/

namespace MtkBoot.Lmb

open MtkBoot.Lib List Region

variable {base size flags : Nat} {l left right : List Region} {lmb : Map} {m r : Region}

/-! ### Reserving a range that overlaps the list -/

theorem Rep.sane (h : Rep l) : ∀ r ∈ l, r.Sane :=
  fun r hr => ⟨h.sorted.nonempty r hr, h.bounded r hr⟩

theorem resizeRegions_ne_none
    (h : ∀ t ∈ right, addrsOverlap base size t.base t.size → t.flags = lmbNone) :
    resizeRegions (left ++ right) left.length base size ≠ none := by
  have hscan : ∀ idx cnt idxEnd, resizeScan base size right idx cnt idxEnd ≠ none := by
    induction right with
    | nil => simp [resizeScan]
    | cons t right ih =>
      obtain ⟨ht, hright⟩ := forall_mem_cons.mp h
      intro idx cnt idxEnd
      rw [resizeScan]
      split
      · next hover =>
        rw [if_neg (not_not.mpr (ht hover))]
        exact ih hright _ _ _
      · exact ih hright _ _ _
  unfold resizeRegions
  rw [drop_left]
  split
  · next hnone => exact absurd hnone (hscan _ _ _)
  · simp

/-- A call that has merged the range returns 0, unless the merged entry overlaps one with a flag. -/
theorem coalesceNext_pos
    (h : ∀ t ∈ m :: right, addrsOverlap m.base m.size t.base t.size → t.flags = lmbNone) :
    ∃ rgn c, coalesceNext (left ++ m :: right) left.length 1 = some (rgn, c) ∧ c ≠ 0 := by
  unfold coalesceNext
  split
  · split
    · exact ⟨_, _, rfl, by decide⟩
    · rw [entry_append]
      split
      · next hnone => exact absurd hnone (resizeRegions_ne_none h)
      · exact ⟨_, _, rfl, by decide⟩
    · exact ⟨_, _, rfl, by decide⟩
  · exact ⟨_, _, rfl, by decide⟩

section Overlap

variable (h : Rep (left ++ r :: right)) (hsize : 0 < size) (htop : base + size < 2 ^ 64)
  (hcompat : Compatible base size flags (left ++ r :: right))
include h hsize htop hcompat

/-- The region below the range is extended up to its end. -/
theorem coalesceNext_extended (hstop : u64 r.stop = base) (hnone : r.flags = lmbNone) :
    ∃ rgn c, coalesceNext (left ++ { r with size := u64 (r.size + size) } :: right) left.length 1 =
      some (rgn, c) ∧ c ≠ 0 := by
  refine coalesceNext_pos (forall_mem_cons.mpr ⟨fun _ => hnone, fun t ht hover => ?_⟩)
  have hle := h.ordered.sides.2 t ht
  have ht' : t ∈ left ++ r :: right := by simp [ht]
  have hpos := h.sorted.nonempty t ht'
  have hbound := h.bounded t ht'
  unfold stop at hle hbound hstop
  rw [u64_of_lt (by omega)] at hstop
  have hover : addrsOverlap r.base (u64 (r.size + size)) t.base t.size := hover
  rw [u64_of_lt (by omega), Lmb.overlap_iff (by omega) (by omega) hpos hbound] at hover
  exact (hcompat t ht' (by unfold stop; omega) (by omega)).1

/-- The regions that overlap the range are merged with it. -/
theorem coalesceNext_resized (hlo : base < r.stop) (hhi : r.base < base + size) :
    ∃ rgn, resizeRegions (left ++ r :: right) left.length base size = some rgn ∧
      ∃ rgn' c, coalesceNext rgn left.length 1 = some (rgn', c) ∧ c ≠ 0 := by
  obtain ⟨mid, rest, m, rfl, heq, hover, hrest, hm, hbase, hstop⟩ :=
    resizeRegions_compatible h.ordered h.sane hsize htop hcompat hlo hhi
  have hnone := hm.trans (hcompat r (by simp) hlo hhi).1
  refine ⟨_, heq, coalesceNext_pos (forall_mem_cons.mpr ⟨fun _ => hnone, fun t ht hshare => ?_⟩)⟩
  -- a region above the merged ones does not overlap what they have become
  have ht' : t ∈ left ++ r :: (mid ++ rest) := by simp [ht]
  have hpos := h.sorted.nonempty t ht'
  have hbound := h.bounded t ht'
  have hlast : ((r :: mid).getLast (by simp)).stop ≤ t.base := by
    have hord : Ordered Region.base Region.stop ((r :: mid) ++ rest) := h.ordered.sublist (by simp)
    exact (ordered_append.mp hord).2.2 _ (getLast_mem _) t ht
  have ht_above := hrest t ht
  have hmstop := hstop (by unfold stop at hbound; omega)
  have hmbase : m.base ≤ base := by omega
  unfold stop at hmstop hlast hbound
  rw [Lmb.overlap_iff (by omega) (by omega) hpos hbound] at hshare
  omega

end Overlap

/-- The call has merged the range, and returns 0. -/
def Joins (res : Option (Nat × List Region × Nat)) : Prop :=
  ∃ i rgn, res = some (i, rgn, 1) ∧ ∃ rgn' c, coalesceNext rgn i 1 = some (rgn', c) ∧ c ≠ 0

/-- The first loop passes over regions below the range, up to one that the range touches or
overlaps. -/
theorem coalesceScan_joins (h : Rep l) (hsize : 0 < size) (htop : base + size < 2 ^ 64)
    (hcompat : Compatible base size flags l) (rest : List Region) : ∀ left, left ++ rest = l →
      (∃ x ∈ rest, base < x.stop ∧ x.base < base + size) →
      Joins (coalesceScan l base size flags rest left.length) := by
  induction rest with
  | nil => simp
  | cons r rest ih =>
    rintro left rfl ⟨x, hx, hxlo, hxhi⟩
    have hrx : r.base ≤ x.base := by
      rcases mem_cons.mp hx with rfl | hx
      · exact le_rfl
      · exact (h.ordered.nonempty r (by simp)).le.trans (h.ordered.sides.2 x hx)
    obtain ⟨hxf, hf⟩ := hcompat x (by simp [hx]) hxlo hxhi
    have hover := h.overlap_iff hsize htop.le (r := r) (by simp)
    -- if the range neither touches nor overlaps the region, the loop goes on
    have hnext : ¬(base < r.stop ∧ r.base < base + size) →
        Joins (coalesceScan (left ++ r :: rest) base size flags rest (left.length + 1)) :=
      fun hno => by
      have hx' : x ∈ rest := (mem_cons.mp hx).resolve_left fun heq => hno (heq ▸ ⟨hxlo, hxhi⟩)
      simpa using ih (left ++ [r]) (by simp) ⟨x, hx', hxlo, hxhi⟩
    rw [coalesceScan, if_neg (by rw [adjacent_pos r.base r.size htop]; omega)]
    by_cases hadj : base = u64 r.stop
    · rw [if_pos
        (by rw [addrsAdjacent, u64_of_lt htop, if_neg (by omega), ← stop, if_pos hadj]; decide)]
      split
      · next hne =>
        exact hnext fun hc => hne (hf.trans (hcompat r (by simp) hc.1 hc.2).1.symm)
      · next heq =>
        refine ⟨_, _, rfl, ?_⟩
        simpa using coalesceNext_extended h hsize htop hcompat hadj.symm
          ((not_not.mp heq).symm.trans hf)
    · rw [if_neg
        (by rw [addrsAdjacent, u64_of_lt htop, if_neg (by omega), ← stop, if_neg hadj]; decide)]
      split
      · next hc =>
        obtain ⟨hlo, hhi⟩ := hover.mp hc
        obtain ⟨rgn, heq, hjoin⟩ := coalesceNext_resized h hsize htop hcompat hlo hhi
        rw [heq]
        exact ⟨_, _, rfl, hjoin⟩
      · next hc => exact hnext (mt hover.mpr hc)

/-- `lmb_reserve` accepts the range: it is not rejected, the list takes it, and the notification
succeeds. -/
def Accepts (env : Env) (lmb : Map) (base size flags : Nat) : Prop :=
  ¬Rejected base size flags lmb.usedMem.rgn ∧ (Room lmb.usedMem base size flags env.expand ∨
    lmb.usedMem.err = false ∧ ¬Apart lmb.usedMem.rgn base size) ∧ mapUpdateNotify env lmb flags = 0

theorem addRegionFlags_eq_zero_iff (lst : Alist) (expand : Bool) (h : Rep lst.rgn)
    (hsize : 0 < size) (htop : base + size < 2 ^ 64)
    (hcompat : Compatible base size flags lst.rgn) : (addRegionFlags lst base size flags expand).1 =
    0 ↔ Room lst base size flags expand ∨ lst.err = false ∧ ¬Apart lst.rgn base size := by
  by_cases hapart : Apart lst.rgn base size
  · have hclear := (h.clear_iff hsize htop.le).mpr hapart
    simp [hapart, (addRegionFlags_clear lst flags expand h (by omega) hclear).ret_eq_zero]
  · obtain ⟨x, hx, hshare⟩ : ∃ x ∈ lst.rgn, base < x.stop ∧ x.base < base + size := by
      simpa [Apart, and_comm] using hapart
    obtain ⟨i, rgn, hscan, rgn', c, hnext, hc⟩ :=
      coalesceScan_joins h hsize htop hcompat lst.rgn [] rfl ⟨x, hx, hshare⟩
    simp only [length_nil] at hscan
    cases herr : lst.err with
    | true => simp [addRegionFlags, Room, herr]
    | false => simp [addRegionFlags, herr, hscan, hnext, hc, hapart]

theorem reserve_eq_zero_iff (env : Env)
    (h : Rep lmb.usedMem.rgn) (hsize : 0 < size) (htop : base + size < 2 ^ 64) :
    (reserve env lmb base size flags).1 = 0 ↔ Accepts env lmb base size flags := by
  have hcheck := overlapChecks_reserve hsize htop flags h.sane 0
  unfold reserve Accepts
  rw [rejected_iff, not_not]
  cases hc : overlapChecks base size flags false lmb.usedMem.rgn 0 with
  | some i =>
    have hno : ¬Compatible base size flags lmb.usedMem.rgn :=
      fun hcompat => by simp [hcheck.mpr hcompat] at hc
    simp [hno, eexist]
  | none =>
    have hcompat := hcheck.mp hc
    have hadd := addRegionFlags_eq_zero_iff lmb.usedMem env.expand h hsize htop hcompat
    rw [← hadd]
    simp only [hcompat, true_and]
    split
    · next hne => simp [hne]
    · next heq =>
      simp only [not_not.mp heq, true_and]
      rfl

/-- An allocation at a fixed address that succeeds is in one bank exactly when the range does not
start in the hole below its bank, or `lmb_reserve` does not accept it. -/
theorem allocMem_addr_inOneBank_iff (env : Env) (align flags : Nat) (h : lmb.Rep) (hsize : 0 < size)
    (htop : base + size < 2 ^ 64) :
    ((allocMem env lmb .allocAddr align base size flags).1 = 0 → InOneBank lmb base size) ↔
      (FromHole lmb base size → ¬Accepts env lmb base size flags) := by
  have hret : (allocMem env lmb .allocAddr align base size flags).1 =
      (allocAddr env lmb base size flags).1 := by
    simp [allocMem, hsize.ne']
  rw [hret, ← reserve_eq_zero_iff env h.used hsize htop]
  rcases allocAddr_spec h.available hsize htop.le env flags with ⟨hplace, heq⟩ | ⟨hplace, heq⟩
  · rw [heq]
    constructor
    · rintro hsound ⟨r, hr, hlt, hin, hend, hbelow⟩ hzero
      obtain ⟨s, hs, hle, hs_end⟩ := hsound hzero
      have := h.available.ordered.eq_of_within hr hs (x := r.base)
        ⟨le_rfl, h.available.ordered.nonempty r hr⟩ ⟨by omega, by omega⟩
      subst this
      omega
    · intro hhole hzero
      rcases hplace with hbank | hfrom
      · exact hbank
      · exact absurd hzero (hhole hfrom)
  · rw [heq]
    refine iff_of_true (fun hzero => ?_) fun hfrom => absurd (.inr hfrom) hplace
    simp [einval] at hzero

theorem allocMem_addr_inOneBank_iff_second_bank :
    let lmb : Map := ⟨⟨[⟨0x1000, 0x1000, 0⟩, ⟨0x3000, 0x1000, 0⟩], 4, false⟩, ⟨[], 4, false⟩, false⟩
    let env : Env := ⟨false, 0, true⟩
    (allocMem env lmb .allocAddr 0 0x3800 0x800 0).1 = 0 ∧ InOneBank lmb 0x3800 0x800 := by
  intro lmb env
  have hzero : (allocMem env lmb .allocAddr 0 0x3800 0x800 0).1 = 0 := by decide
  refine ⟨hzero,
    (allocMem_addr_inOneBank_iff env 0 0 (by decide) (by decide) (by decide)).mpr ?_ hzero⟩
  rintro ⟨r, hr, hlt, -⟩
  simp only [lmb, mem_cons, not_mem_nil, or_false] at hr
  rcases hr with rfl | rfl <;> simp at hlt

/-- A range that starts 0x800 bytes below the only bank is allocated. -/
theorem alloc_below_bank_accepted :
    let lmb : Map := ⟨⟨[⟨0x1000, 0x1000, 0⟩], 4, false⟩, ⟨[], 4, false⟩, false⟩
    let env : Env := ⟨false, 0, true⟩
    lmb.Rep ∧ (allocMem env lmb .allocAddr 0 0x800 0x1000 0).1 = 0 ∧
      ¬InOneBank lmb 0x800 0x1000 := by
  intro lmb env
  exact ⟨by decide, by decide, by simp [lmb, InOneBank]⟩

end MtkBoot.Lmb
