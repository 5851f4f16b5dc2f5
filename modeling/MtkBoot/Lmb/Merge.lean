import MtkBoot.Lib.Spans
import MtkBoot.Lmb.Region

/-! What `lmb_add_region_flags` does to a well-formed list: the region is merged with a run of
neighbours, or inserted, or lost because two other neighbours were merged instead. -/

namespace MtkBoot.Lmb

open MtkBoot.Lib List Region

/-- Non-empty regions, sorted and disjoint, that end below the top of the address space. -/
structure Wf (l : List Region) : Prop where
  ordered : Ordered Region.base Region.stop l
  bounded : ∀ r ∈ l, r.stop < 2 ^ 64

theorem Wf.nil : Wf [] := ⟨.nil, by simp⟩

theorem Wf.size_pos {l : List Region} (h : Wf l) {r : Region} (hr : r ∈ l) : 0 < r.size := by
  have := h.ordered.nonempty r hr
  unfold stop at this
  omega

theorem Wf.sublist {l l' : List Region} (h : Wf l') (hs : l.Sublist l') : Wf l :=
  ⟨h.ordered.sublist hs, fun r hr => h.bounded r (hs.subset hr)⟩

theorem Wf.replace {left mid right : List Region} {r : Region} (h : Wf (left ++ mid ++ right))
    (hsize : 0 < r.size) (hstop : r.stop < 2 ^ 64) (hleft : ∀ x ∈ left, x.stop ≤ r.base)
    (hright : ∀ x ∈ right, r.stop ≤ x.base) : Wf (left ++ r :: right) := by
  refine ⟨h.ordered.replace (by unfold stop; omega) hleft hright, fun x hx => ?_⟩
  rcases mem_append_cons.mp hx with hx | rfl | hx
  · exact h.bounded x (by simp [hx])
  · exact hstop
  · exact h.bounded x (by simp [hx])

theorem length_le {l : List Region} (h : Ordered base stop l) {b n : Nat}
    (hb : ∀ r ∈ l, b ≤ r.base) (hn : ∀ r ∈ l, r.base < n) (hbn : b ≤ n) : b + l.length ≤ n := by
  induction l generalizing b with
  | nil => simpa using hbn
  | cons r l ih =>
    obtain ⟨hr, hl, hrl⟩ := ordered_cons.mp h
    have hbr := hb r (by simp)
    have hrn := hn r (by simp)
    have := ih hl (b := b + 1) (fun x hx => by have := hrl x hx; omega) (fun x hx =>
      hn x (by simp [hx])) (by omega)
    simp only [length_cons]
    omega

theorem Wf.length_lt {l : List Region} (h : Wf l) : l.length < 2 ^ 64 := by
  have := length_le h.ordered (b := 0) (n := 2 ^ 64 - 1) (by simp)
    (fun r hr => by have := h.bounded r hr; have := h.ordered.nonempty r hr; omega) (by omega)
  omega

/-! ### The tests on two ranges, when neither wraps -/

section Ranges

variable {base1 size1 base2 size2 : Nat}

theorem subU64_one {a : Nat} (h : 0 < a) (ha : a ≤ 2 ^ 64) : subU64 a 1 = a - 1 := by
  unfold subU64
  omega

theorem overlap_iff (h1 : 0 < size1) (h1' : base1 + size1 ≤ 2 ^ 64) (h2 : 0 < size2)
    (h2' : base2 + size2 ≤ 2 ^ 64) : addrsOverlap base1 size1 base2 size2 ↔
      base1 < base2 + size2 ∧ base2 < base1 + size1 := by
  rw [addrsOverlap_iff, subU64_one (by omega) h1', subU64_one (by omega) h2']
  omega

theorem adjacent_pos (base2 size2 : Nat) (h1 : base1 + size1 < 2 ^ 64) :
    addrsAdjacent base1 size1 base2 size2 > 0 ↔ base2 = base1 + size1 := by
  unfold addrsAdjacent
  rw [u64_of_lt h1]
  split
  · simp_all
  · split <;> simp_all

theorem adjacent_neg (base2 size2 : Nat)
    (h1 : base1 + size1 < 2 ^ 64) (h2 : base2 + size2 < 2 ^ 64) :
    addrsAdjacent base1 size1 base2 size2 < 0 ↔ base2 ≠ base1 + size1 ∧ base1 = base2 + size2 := by
  unfold addrsAdjacent
  rw [u64_of_lt h1, u64_of_lt h2]
  split
  · simp_all
  · split <;> simp_all

theorem adjacent_ne_zero {base1 size1 base2 size2 : Nat} : addrsAdjacent base1 size1 base2 size2 ≠
    0 ↔ base2 = u64 (base1 + size1) ∨ base1 = u64 (base2 + size2) := by
  unfold addrsAdjacent
  split
  · simp_all
  · split <;> simp_all

end Ranges

/-! ### `lmb_resize_regions` -/

def Region.Sane (r : Region) : Prop := 0 < r.size ∧ r.stop ≤ 2 ^ 64

theorem Wf.sane {l : List Region} (h : Wf l) : ∀ r ∈ l, r.Sane :=
  fun r hr => ⟨h.size_pos hr, (h.bounded r hr).le⟩

section Resize

variable {base size : Nat} (hsize : 0 < size) (htop : base + size < 2 ^ 64)
include hsize htop

theorem Region.Sane.overlap_iff {r : Region} (hr : r.Sane) :
    addrsOverlap base size r.base r.size ↔ base < r.stop ∧ r.base < base + size :=
  Lmb.overlap_iff hsize htop.le hr.1 hr.2

omit hsize htop in
theorem resizeScan_pass {rs : List Region}
    (h : ∀ r ∈ rs, addrsOverlap base size r.base r.size = false) (idx cnt idxEnd : Nat) :
    resizeScan base size rs idx cnt idxEnd = some (cnt, idxEnd) := by
  induction rs generalizing idx cnt with
  | nil => rfl
  | cons r rs ih =>
    rw [resizeScan, h r (by simp)]
    exact ih (fun x hx => h x (by simp [hx])) _ _

theorem resizeScan_run {mid right : List Region} (h : ∀ r ∈ mid ++ right, r.Sane)
    (hmid : ∀ r ∈ mid, base < r.stop ∧ r.base < base + size ∧ r.flags = lmbNone)
    (hright : ∀ r ∈ right, base + size ≤ r.base) (idx cnt idxEnd : Nat) :
    resizeScan base size (mid ++ right) idx cnt idxEnd =
      some (cnt + mid.length, if mid = [] then idxEnd else idx + mid.length - 1) := by
  induction mid generalizing idx cnt idxEnd with
  | nil =>
    refine resizeScan_pass (fun r hr => ?_) idx cnt idxEnd
    have := hright r hr
    rw [← Bool.not_eq_true, (h r hr).overlap_iff hsize htop]
    omega
  | cons r mid ih =>
    obtain ⟨hlo, hhi, hflags⟩ := hmid r (by simp)
    have hyes := ((h r (by simp)).overlap_iff hsize htop).mpr ⟨hlo, hhi⟩
    rw [cons_append, resizeScan, hyes]
    simp only [if_true, hflags, ne_eq, not_true_eq_false, if_false]
    rw [ih (fun x hx => h x (mem_cons_of_mem r hx)) (fun x hx => hmid x (by simp [hx]))]
    rcases mid with _ | ⟨s, mid⟩
    · simp
    · simp; omega

/-- `lmb_resize_regions` replaces a run of overlapping regions without flags by one region that
covers them and the range. -/
theorem resizeRegions_run (left mid right : List Region) (h : ∀ r ∈ mid ++ right, r.Sane)
    (hlen : mid.length < 2 ^ 64) (hne : mid ≠ [])
    (hmid : ∀ r ∈ mid, base < r.stop ∧ r.base < base + size ∧ r.flags = lmbNone)
    (hright : ∀ r ∈ right, base + size ≤ r.base) : ∃ m :
    Region, resizeRegions (left ++ mid ++ right) left.length base size = some (left ++ m :: right) ∧
      m.flags = lmbNone ∧ m.base = min base (mid.head hne).base ∧
      ((mid.getLast hne).stop < 2 ^ 64 → m.stop = max (mid.getLast hne).stop (base + size)) := by
  have hhead := hmid (mid.head hne) (head_mem hne)
  have hmidlen : 0 < mid.length := length_pos_iff.mpr hne
  have hfirst : entry (left ++ mid ++ right) left.length = mid.head hne := by
    obtain ⟨r, mid, rfl⟩ := exists_cons_of_ne_nil hne
    simp [entry]
  have hend : entry (left ++ mid ++ right) (left.length + mid.length - 1) = mid.getLast hne := by
    rw [entry, append_assoc, getD_eq_getElem?_getD,
      getElem?_append_right (by omega), getElem?_append_left (by omega),
      show left.length + mid.length - 1 - left.length = mid.length - 1 by omega,
      ← getLast?_eq_getElem?, getLast?_eq_some_getLast hne]
    rfl
  have hdrop : (left ++ mid ++ right).drop left.length = mid ++ right := by simp
  have htake : (left ++ mid ++ right).take left.length = left := by simp
  have hrest : (left ++ mid ++ right).drop (left.length + 1 + subU64 mid.length 1) = right := by
    rw [subU64_of_le (by omega) hlen,
      show left.length + 1 + (mid.length - 1) = (left ++ mid).length by simp; omega, drop_left]
  unfold resizeRegions
  rw [hdrop, resizeScan_run hsize htop h hmid hright]
  simp only [hne, if_false, zero_add, htake, hrest, hfirst, hend]
  refine ⟨_, rfl, hhead.2.2, rfl, fun hlast => ?_⟩
  simp only [stop] at hlast ⊢
  rw [u64_of_lt hlast, u64_of_lt htop, subU64_of_le (by omega) (by omega)]
  omega

end Resize

/-! ### A run of neighbours joined with the new range -/

/-- The region `m` takes the place of the run `mid` between `left` and `right`: it covers the run
and the range `[base, base + size)` and nothing else. -/
structure Merge (base size flags : Nat) (left mid right : List Region) (m : Region) : Prop where
  flags_mid : ∀ r ∈ mid, r.flags = flags
  flags_eq : m.flags = flags
  lower : m.base ≤ base
  upper : base + size ≤ m.stop
  covers : ∀ x, Within Region.base Region.stop m x ↔
    (base ≤ x ∧ x < base + size) ∨ ∃ r ∈ mid, Within Region.base Region.stop r x
  left_le : ∀ r ∈ left, r.stop ≤ m.base
  le_right : ∀ r ∈ right, m.stop ≤ r.base

def Merged (base size flags : Nat) (l l' : List Region) : Prop :=
  ∃ left mid right m, l = left ++ mid ++ right ∧ l' = left ++ m :: right ∧
    Merge base size flags left mid right m

section Join

variable {base size flags : Nat} {left mid right : List Region} {m : Region}

section

variable (h : Merge base size flags left mid right m)
include h

theorem Merge.stop_lt (hsize : 0 < size)
    (htop : base + size < 2 ^ 64) (hwf : Wf (left ++ mid ++ right)) : m.stop < 2 ^ 64 := by
  have hlower := h.lower
  have hupper := h.upper
  have hlast : Within Region.base Region.stop m (m.stop - 1) := ⟨by omega, by omega⟩
  rcases (h.covers _).mp hlast with hx | ⟨r, hr, -, hx⟩
  · omega
  · have := hwf.bounded r (by simp [hr])
    omega

theorem Merge.ordered (hsize : 0 < size)
    (hord : Ordered Region.base Region.stop (left ++ mid ++ right)) :
    Ordered Region.base Region.stop (left ++ m :: right) := by
  have hlower := h.lower
  have hupper := h.upper
  exact hord.replace (by omega) h.left_le h.le_right

theorem Merge.wf (hsize : 0 < size)
    (htop : base + size < 2 ^ 64) (hwf : Wf (left ++ mid ++ right)) : Wf (left ++ m :: right) := by
  refine hwf.replace ?_ (h.stop_lt hsize htop hwf) h.left_le h.le_right
  have hlower := h.lower
  have hupper := h.upper
  unfold stop at hupper
  omega

end

theorem merge_run (hord : Ordered Region.base Region.stop (left ++ mid ++ right)) (hne : mid ≠ [])
    (hflags : ∀ r ∈ mid, r.flags = flags) (hm : m.flags = flags)
    (htouch : ∀ r ∈ mid, base ≤ r.stop ∧ r.base ≤ base + size) (hleft : ∀ r ∈ left, r.stop ≤ base)
    (hright : ∀ r ∈ right, base + size ≤ r.base) (hbase : m.base = min base (mid.head hne).base)
    (hstop : m.stop = max (mid.getLast hne).stop (base + size)) :
    Merge base size flags left mid right m := by
  have hhead := htouch _ (head_mem hne)
  have hlast := htouch _ (getLast_mem hne)
  have hmid : Ordered Region.base Region.stop mid := hord.sublist (by simp)
  have hfirst : ∀ r ∈ mid, (mid.head hne).base ≤ r.base := by
    obtain ⟨r, mid, rfl⟩ := exists_cons_of_ne_nil hne
    obtain ⟨hr, -, hrest⟩ := ordered_cons.mp hmid
    intro x hx
    rcases mem_cons.mp hx with rfl | hx
    · simp
    · exact hr.le.trans (hrest x hx)
  rw [append_assoc] at hord
  obtain ⟨-, hmr, hl⟩ := ordered_append.mp hord
  obtain ⟨-, -, hr⟩ := ordered_append.mp hmr
  refine ⟨hflags, hm, by omega, by omega, fun x => ?_, fun r hr => ?_, fun r hr' => ?_⟩
  · constructor
    · rintro ⟨hlo, hhi⟩
      by_cases hx : base ≤ x
      · by_cases hx' : x < base + size
        · exact Or.inl ⟨hx, hx'⟩
        · exact Or.inr ⟨_, getLast_mem hne, by omega, by omega⟩
      · exact Or.inr ⟨_, head_mem hne, by omega, by omega⟩
    · rintro (⟨hlo, hhi⟩ | ⟨r, hr, hlo, hhi⟩)
      · exact ⟨by omega, by omega⟩
      · have hlow := hfirst r hr
        have hhigh := hmid.le_getLast hne hr
        exact ⟨by omega, by omega⟩
  · have hb := hleft r hr
    have hh := hl r hr (mid.head hne) (by simp)
    omega
  · have hb := hright r hr'
    have hh := hr (mid.getLast hne) (getLast_mem hne) r hr'
    omega

theorem Merge.next {s m' : Region} (h : Merge base size flags left mid (s :: right) m)
    (hord : Ordered Region.base Region.stop (left ++ mid ++ s :: right)) (hs : s.flags = flags)
    (hadj : m.stop = s.base) (hbase : m'.base = m.base) (hstop : m'.stop = s.stop)
    (hm : m'.flags = flags) : Merge base size flags left (mid ++ [s]) right m' := by
  have hupper := h.upper
  obtain ⟨hss, -, hsr⟩ := ordered_cons.mp (ordered_append.mp hord).2.1
  refine ⟨fun r hr => ?_, hm,
    hbase ▸ h.lower, by omega, fun x => ?_, hbase ▸ h.left_le, fun r hr => hstop ▸ hsr r hr⟩
  · rcases mem_append.mp hr with hr | hr
    · exact h.flags_mid r hr
    · obtain rfl : r = s := by simpa using hr
      exact hs
  have hcov := h.covers x
  constructor
  · rintro ⟨hlo, hhi⟩
    by_cases hx : x < m.stop
    · rcases hcov.mp ⟨by omega, hx⟩ with hx | ⟨r, hr, hx⟩
      · exact Or.inl hx
      · exact Or.inr ⟨r, by simp [hr], hx⟩
    · exact Or.inr ⟨s, by simp, by omega, by omega⟩
  · rintro (hx | ⟨r, hr, hx⟩)
    · have := hcov.mpr (Or.inl hx)
      exact ⟨hbase ▸ this.1, by have := this.2; omega⟩
    rcases mem_append.mp hr with hr | hr
    · have := hcov.mpr (Or.inr ⟨r, hr, hx⟩)
      exact ⟨hbase ▸ this.1, by have := this.2; omega⟩
    · obtain rfl : r = s := by simpa using hr
      have hlower := h.lower
      have hx1 := hx.1
      have hx2 := hx.2
      exact ⟨by omega, by omega⟩

end Join

/-! ### The two merging steps of `lmb_add_region_flags` -/

/-- A region that the first loop of `lmb_add_region_flags` passes over. -/
def Skipped (base size flags : Nat) (r : Region) : Prop :=
  (r.stop ≤ base ∨ base + size ≤ r.base) ∧ r.base ≠ base + size ∧ (r.stop = base → r.flags ≠ flags)

/-- Where the first loop of `lmb_add_region_flags` stops: at a region above the range, at one below
it with the same flags, or at the first that overlaps it. -/
inductive Stop (base size flags : Nat) (left : List Region) (r : Region) (right : List Region) :
    Option (Nat × List Region × Nat) → Prop
  | foreign (hbase : r.base = base + size) (hflags : r.flags ≠ flags) :
    Stop base size flags left r right (some (left.length, left ++ r :: right, 0))
  | above (hbase : r.base = base + size) (hflags : r.flags = flags) :
      Stop base size flags left r right
        (some (left.length, left ++ ⟨base, r.size + size, r.flags⟩ :: right, 1))
  | below (hstop : r.stop = base) (hflags : r.flags = flags) : Stop base size flags left r right
      (some (left.length, left ++ ⟨r.base, r.size + size, r.flags⟩ :: right, 1))
  | overlap (hlo : base < r.stop) (hhi : r.base < base + size) : Stop base size flags left r right
      ((resizeRegions (left ++ r :: right) left.length base size).map (left.length, ·, 1))

/-- What the first loop of `lmb_add_region_flags` makes of the list `l`: it passes over every region
or stops at one. -/
def Scanned (base size flags : Nat) (l : List Region) (res : Option (Nat × List Region × Nat)) :
    Prop :=
  ((∀ r ∈ l, Skipped base size flags r) ∧ res = some (l.length, l, 0)) ∨
  ∃ left r right, l = left ++ r :: right ∧ (∀ x ∈ left, Skipped base size flags x) ∧
    Stop base size flags left r right res

section Scan

variable {base size : Nat} (hsize : 0 < size) (htop : base + size < 2 ^ 64)
include hsize htop

theorem coalesceScan_cases (flags : Nat) (done rest : List Region) (h : Wf (done ++ rest))
    (hdone : ∀ r ∈ done, Skipped base size flags r) : Scanned base size flags (done ++ rest)
      (coalesceScan (done ++ rest) base size flags rest done.length) := by
  induction rest generalizing done with
  | nil => exact .inl ⟨by simpa using hdone, by simp [coalesceScan]⟩
  | cons r rest ih =>
    have hrtop := h.bounded r (by simp)
    -- the loop goes on with the next region
    have hnext : Skipped base size flags r → Scanned base size flags (done ++ r :: rest)
        (coalesceScan (done ++ r :: rest) base size flags rest (done.length + 1)) := by
      intro hskip
      have := ih (done ++ [r]) (by simpa using h) (fun x hx => by
        rcases mem_append.mp hx with hx | hx
        · exact hdone x hx
        · obtain rfl : x = r := by simpa using hx
          exact hskip)
      simpa using this
    have hpos := adjacent_pos r.base r.size htop
    have hneg := adjacent_neg r.base r.size htop hrtop
    have hover := (h.sane r (by simp)).overlap_iff hsize htop
    unfold stop at hrtop
    by_cases hup : r.base = base + size
    · right
      refine ⟨done, r, rest, rfl, hdone, ?_⟩
      rw [coalesceScan, if_pos (hpos.mpr hup)]
      by_cases hf : flags = r.flags
      · rw [if_neg (by simpa using hf), subU64_of_le (by omega) (by omega), u64_of_lt (by omega)]
        simpa [hup] using @Stop.above base size flags done r rest hup hf.symm
      · rw [if_pos hf]
        exact .foreign hup (Ne.symm hf)
    · by_cases hdown : r.stop = base
      · by_cases hf : flags = r.flags
        · right
          refine ⟨done, r, rest, rfl, hdone, ?_⟩
          rw [coalesceScan, if_neg (mt hpos.mp hup), if_pos (hneg.mpr ⟨hup, hdown.symm⟩),
            if_neg (by simpa using hf), u64_of_lt (by unfold stop at hdown; omega)]
          simpa using @Stop.below base size flags done r rest hdown hf.symm
        · rw [coalesceScan, if_neg (mt hpos.mp hup), if_pos (hneg.mpr ⟨hup, hdown.symm⟩), if_pos hf]
          exact hnext ⟨.inl hdown.le, hup, fun _ => Ne.symm hf⟩
      · have hnneg := mt hneg.mp (fun hc => hdown hc.2.symm)
        by_cases ho : base < r.stop ∧ r.base < base + size
        · right
          refine ⟨done, r, rest, rfl, hdone, ?_⟩
          rw [coalesceScan, if_neg (mt hpos.mp hup), if_neg hnneg, if_pos (hover.mpr ho)]
          have := @Stop.overlap base size flags done r rest ho.1 ho.2
          cases hres : resizeRegions (done ++ r :: rest) done.length base size <;>
            simpa [hres] using this
        · rw [coalesceScan, if_neg (mt hpos.mp hup), if_neg hnneg, if_neg (mt hover.mp ho)]
          exact hnext ⟨by omega, hup, fun hc => absurd hc hdown⟩

end Scan

/-- Entry `left.length` and the next one do not overlap: they are joined when they have the same
flags and touch. -/
inductive NextStep (left right : List Region) (m : Region) (c : Nat) :
  Option (List Region × Nat) → Prop
  | joined {s : Region} {rest : List Region} (heq : right = s :: rest) (hflags : m.flags = s.flags)
      (hadj : s.base = u64 (m.base + m.size) ∨ m.base = u64 (s.base + s.size)) :
      NextStep left right m c
        (some (left ++ { m with size := u64 (m.size + s.size) } :: rest, c + 1))
  | alone (hnot : ∀ s rest, right = s :: rest → m.flags = s.flags →
        ¬(s.base = u64 (m.base + m.size) ∨ m.base = u64 (s.base + s.size))) :
      NextStep left right m c (some (left ++ m :: right, c))

theorem coalesceNext_clear (left right : List Region) (m : Region) (c : Nat)
    (hclear : ∀ s rest, right = s :: rest → addrsOverlap m.base m.size s.base s.size = false) :
    NextStep left right m c (coalesceNext (left ++ m :: right) left.length c) := by
  cases right with
  | nil =>
    rw [coalesceNext, if_neg (by simp)]
    exact .alone (by simp)
  | cons s rest =>
    rw [coalesceNext, if_pos (by simp), regionsCheck, entry_append, entry_append_succ,
      hclear s rest rfl]
    by_cases hflags : m.flags = s.flags
    · rw [if_neg (by simp [hflags]), if_neg (by simp)]
      by_cases hadj : s.base = u64 (m.base + m.size) ∨ m.base = u64 (s.base + s.size)
      · rw [if_pos (adjacent_ne_zero.mpr hadj)]
        have heq : coalesceRegions (left ++ m :: s :: rest) left.length (left.length + 1) =
            left ++ { m with size := u64 (m.size + s.size) } :: rest := by
          rw [coalesceRegions, entry_append, entry_append_succ, removeRegion]
          simp [eraseIdx_append_of_length_le]
        simp only [heq]
        exact .joined rfl hflags hadj
      · rw [if_neg (mt adjacent_ne_zero.mp hadj)]
        refine .alone ?_
        rintro s' rest' ⟨⟩ -
        exact hadj
    · rw [if_pos hflags]
      refine .alone ?_
      rintro s' rest' ⟨⟩ h
      exact absurd h hflags

/-- The step after the loop, on a well-formed list: the entry takes in the next one when that has
the same flags and begins where it ends. -/
theorem coalesceNext_wf {left right : List Region} {m : Region} (h : Wf (left ++ m :: right))
    (c : Nat) : (coalesceNext (left ++ m :: right) left.length c = some (left ++ m :: right, c) ∧
        ∀ s right', right = s :: right' → ¬(s.flags = m.flags ∧ m.stop = s.base)) ∨
      ∃ s right', right = s :: right' ∧ s.flags = m.flags ∧ m.stop = s.base ∧
        coalesceNext (left ++ m :: right) left.length c =
          some (left ++ ⟨m.base, m.size + s.size, m.flags⟩ :: right', c + 1) := by
  have hm := h.bounded m (by simp)
  have hsane : ∀ s ∈ right, s.stop < 2 ^ 64 := fun s hs => h.bounded s (by simp [hs])
  have hle := h.ordered.sides.2
  have hadj : ∀ s ∈ right, (s.base = u64 (m.base + m.size) ∨ m.base = u64 (s.base + s.size)) ↔
      m.stop = s.base := by
    intro s hs
    have := hle s hs
    rw [← stop, ← stop, u64_of_lt hm, u64_of_lt (hsane s hs)]
    unfold stop at *
    omega
  have hnext := coalesceNext_clear left right m c fun s rest hs => by
    have := hle s (by simp [hs])
    rw [← Bool.not_eq_true,
      (h.sane s (by simp [hs])).overlap_iff (h.size_pos (r := m) (by simp)) hm]
    unfold stop at this ⊢
    omega
  generalize coalesceNext (left ++ m :: right) left.length c = res at hnext ⊢
  cases hnext with
  | alone hnot =>
    refine .inl ⟨rfl, fun s rest hs hc => ?_⟩
    exact hnot s rest hs hc.1.symm ((hadj s (by simp [hs])).mpr hc.2)
  | @joined s rest heq hflags hc =>
    have hs : s ∈ right := by simp [heq]
    have hstop := (hadj s hs).mp hc
    refine .inr ⟨s, rest, heq, hflags.symm, hstop, ?_⟩
    have := hsane s hs
    unfold stop at hstop this
    rw [u64_of_lt (by omega)]

end MtkBoot.Lmb
