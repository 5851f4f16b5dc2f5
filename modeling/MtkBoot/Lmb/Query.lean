import MtkBoot.Lmb.Rep

/-! `lmb_get_free_size`, which reasons from the reserved list and the last bank, and
`_lmb_alloc_addr`, which looks at one bank and at the last byte of the request. -/

namespace MtkBoot.Lmb

open MtkBoot.Lib List Region

variable {addr : Nat} {last : Region} {lmb : Map}

/-- The loop of `lmb_get_free_size` over the reserved list: the value it returns, or `none` when
no reserved range is above the address. -/
def freeSizeScan (addr : Nat) : List Region → Option Nat
  | [] => none
  | r :: rs =>
    if addr < r.base then some (subU64 r.base addr)
    else if addr < u64 (r.base + r.size) then some 0
    else freeSizeScan addr rs

def getFreeSize (lmb : Map) (addr : Nat) : Nat :=
  let memory := lmb.availableMem.rgn
  match overlapChecks addr 1 lmbNooverwrite true memory 0 with
  | none => 0
  | some _ =>
    match freeSizeScan addr lmb.usedMem.rgn with
    | some n => n
    | none =>
      let last := entry memory (memory.length - 1)
      subU64 (last.base + last.size) addr

def FreeByte (lmb : Map) (x : Nat) : Prop :=
  Covered lmb.availableMem.rgn x ∧ ¬Covered lmb.usedMem.rgn x

/-- The first `n` bytes from `addr` on are free, and the next one is not. -/
def FreeRun (lmb : Map) (addr n : Nat) : Prop :=
  (∀ x, addr ≤ x → x < addr + n → FreeByte lmb x) ∧ ¬FreeByte lmb (addr + n)

/-- The bytes below every reserved range above `addr`, or below the end of a bank when no reserved
range is above `addr`. -/
def BelowLimit (lmb : Map) (addr x : Nat) : Prop :=
  (∀ u ∈ lmb.usedMem.rgn, addr < u.base → x < u.base) ∧
    ((∃ u ∈ lmb.usedMem.rgn, addr < u.base) ∨ ∃ r ∈ lmb.availableMem.rgn, x < r.stop)

/-- There is memory at every byte from `addr` to the next reserved range, or to the end of the last
bank when there is none. -/
def NoHole (lmb : Map) (addr : Nat) : Prop :=
  ∀ x, addr ≤ x → BelowLimit lmb addr x → Covered lmb.availableMem.rgn x

theorem covered_iff_overlapChecks {l : List Region} (hl : Rep l) (haddr : addr < 2 ^ 64) :
    overlapChecks addr 1 lmbNooverwrite true l 0 = none ↔ ¬Covered l addr := by
  rw [overlapChecks_eq_none, hl.clear_iff (by omega) (by omega)]
  simp only [Apart, Covered, Within, not_exists, not_and]
  constructor
  · intro h r hr hle
    have := h r hr
    omega
  · intro h r hr
    have := h r hr
    omega

/-! ### What the loop over the reserved list finds -/

/-- The value of the loop: the next reserved range, the range that contains the address unless it
ends at `2^64`, or neither. -/
inductive NextReserved (used : List Region) (addr : Nat) : Option Nat → Prop
  | above {u : Region} (hu : u ∈ used) (hlt : addr < u.base)
      (hfirst : ∀ w ∈ used, addr < w.base → u.base ≤ w.base) (hfree : ¬Covered used addr) :
      NextReserved used addr (some (u.base - addr))
  | inside {u : Region} (hu : u ∈ used) (hin : Within Region.base Region.stop u addr)
      (htop : u.stop < 2 ^ 64) : NextReserved used addr (some 0)
  | top {u : Region} (hu : u ∈ used) (hin : Within Region.base Region.stop u addr)
      (htop : u.stop = 2 ^ 64) : NextReserved used addr none
  | none (hbelow : ∀ u ∈ used, u.stop ≤ addr) : NextReserved used addr none

theorem freeSizeScan_spec {used : List Region} (hused : Rep used) (haddr : addr < 2 ^ 64) :
    NextReserved used addr (freeSizeScan addr used) := by
  have main : ∀ passed rest, passed ++ rest = used → (∀ w ∈ passed, w.stop ≤ addr) →
      NextReserved used addr (freeSizeScan addr rest) := by
    intro passed rest
    induction rest generalizing passed with
    | nil =>
      rintro rfl hpassed
      exact .none (by simpa using hpassed)
    | cons u rest ih =>
      rintro rfl hpassed
      have hsorted := hused.ordered.sides.2
      have hu : u ∈ passed ++ u :: rest := by simp
      have hbound := hused.bounded u hu
      have hpos := hused.sorted.nonempty u hu
      have hstop : u.stop = u.base + u.size := rfl
      unfold freeSizeScan
      by_cases hlt : addr < u.base
      · rw [if_pos hlt, subU64_of_le hlt.le (by omega)]
        refine .above hu hlt (fun w hw hwlt => ?_) ?_
        · rcases mem_append_cons.mp hw with hw | rfl | hw
          · have := hpassed w hw
            have : w.stop = w.base + w.size := rfl
            omega
          · exact le_rfl
          · have := hsorted w hw
            omega
        · rintro ⟨w, hw, hlo, hhi⟩
          rcases mem_append_cons.mp hw with hw | rfl | hw
          · have := hpassed w hw
            omega
          · omega
          · have := hsorted w hw
            omega
      · rw [if_neg hlt]
        rcases hbound.lt_or_eq with htop | htop
        · rw [← hstop, u64_of_lt htop]
          by_cases hin : addr < u.stop
          · rw [if_pos hin]
            exact .inside hu ⟨by omega, hin⟩ htop
          · rw [if_neg hin]
            refine ih (passed ++ [u]) (by simp) (fun w hw => ?_)
            rcases mem_append.mp hw with hw | hw
            · exact hpassed w hw
            · rw [mem_singleton.mp hw]
              omega
        · -- a region up to `2^64` seems to end at 0, and it is the last of the list
          have hlast : rest = [] := by
            rw [eq_nil_iff_forall_not_mem]
            intro w hw
            have := hsorted w hw
            have := hused.bounded w (by simp [hw])
            have := hused.sorted.nonempty w (by simp [hw])
            have : w.stop = w.base + w.size := rfl
            omega
          subst hlast
          rw [← hstop, htop, if_neg (by unfold u64; omega)]
          exact .top hu ⟨by omega, by omega⟩ htop
  exact main [] used rfl (by simp)

/-! ### The size that is returned -/

/-- For an address in memory, the value of the loop, or the distance to the end of the last bank,
which is 0 when it is `2^64`. -/
theorem getFreeSize_inside (h : Rep lmb.availableMem.rgn) (haddr : addr < 2 ^ 64)
    (hcov : Covered lmb.availableMem.rgn addr) : ∃ last ∈ lmb.availableMem.rgn,
    (∀ s ∈ lmb.availableMem.rgn, s.stop ≤ last.stop) ∧ addr < last.stop ∧
      getFreeSize lmb addr = (freeSizeScan addr lmb.usedMem.rgn).getD (u64 (last.stop - addr)) := by
  obtain ⟨r, hr, hin⟩ := hcov
  have hne := ne_nil_of_mem hr
  have hentry : entry lmb.availableMem.rgn (lmb.availableMem.rgn.length - 1) =
      lmb.availableMem.rgn.getLast hne := by
    have hpos := length_pos_iff.mpr hne
    rw [entry, getD_eq_getElem _ _ (by omega), getLast_eq_getElem]
  have hmax := fun s hs => h.ordered.le_getLast hne (a := s) hs
  have hlt := lt_of_lt_of_le hin.2 (hmax r hr)
  refine ⟨_, getLast_mem hne, hmax, hlt, ?_⟩
  have hdist : subU64
      ((lmb.availableMem.rgn.getLast hne).base + (lmb.availableMem.rgn.getLast hne).size) addr =
        u64 ((lmb.availableMem.rgn.getLast hne).stop - addr) := by
    rw [← stop]
    unfold subU64 u64
    omega
  cases hbank : overlapChecks addr 1 lmbNooverwrite true lmb.availableMem.rgn 0 with
  | none => exact absurd ⟨r, hr, hin⟩ ((covered_iff_overlapChecks h haddr).mp hbank)
  | some k =>
    simp only [getFreeSize, hbank, hentry, hdist]
    cases freeSizeScan addr lmb.usedMem.rgn <;> rfl

theorem freeRun_zero (h : ¬FreeByte lmb addr) : FreeRun lmb addr 0 := ⟨fun x hle hlt => by omega, h⟩

/-- A run that ends at a limit which is itself not free, with the bytes below it unreserved, is
free when none of them lies in a hole. -/
theorem freeRun_iff_noHole {limit : Nat} (hle : addr ≤ limit)
    (hbelow : ∀ x, addr ≤ x → (x < limit ↔ BelowLimit lmb addr x))
    (hfree : ∀ x, addr ≤ x → x < limit → ¬Covered lmb.usedMem.rgn x)
    (hlimit : ¬FreeByte lmb limit) : FreeRun lmb addr (limit - addr) ↔ NoHole lmb addr := by
  have hadd : addr + (limit - addr) = limit := by omega
  unfold FreeRun
  rw [hadd]
  constructor
  · intro h x hx hxl
    exact (h.1 x hx ((hbelow x hx).mpr hxl)).1
  · intro h
    exact ⟨fun x hx hxl => ⟨h x hx ((hbelow x hx).mp hxl), hfree x hx hxl⟩, hlimit⟩

theorem freeRun_above {u : Region} (h : Rep lmb.usedMem.rgn) (hu : u ∈ lmb.usedMem.rgn)
    (hlt : addr < u.base) (hfirst : ∀ w ∈ lmb.usedMem.rgn, addr < w.base → u.base ≤ w.base)
    (hfree : ¬Covered lmb.usedMem.rgn addr) :
    FreeRun lmb addr (u.base - addr) ↔ NoHole lmb addr := by
  have hself : Covered lmb.usedMem.rgn u.base := ⟨u, hu, le_rfl, h.ordered.nonempty u hu⟩
  refine freeRun_iff_noHole hlt.le (fun x _ => ⟨fun hx => ?_, fun hx => hx.1 u hu hlt⟩) ?_ fun hf =>
    hf.2 hself
  · exact ⟨fun w hw hwa => lt_of_lt_of_le hx (hfirst w hw hwa), .inl ⟨u, hu, hlt⟩⟩
  · rintro x hx hxu ⟨w, hw, hwin⟩
    by_cases hwa : addr < w.base
    · have := hfirst w hw hwa
      have := hwin.1
      omega
    · exact hfree ⟨w, hw, by omega, by have := hwin.2; omega⟩

theorem freeRun_last (hlast : last ∈ lmb.availableMem.rgn)
    (hmax : ∀ s ∈ lmb.availableMem.rgn, s.stop ≤ last.stop)
    (hlt : addr < last.stop) (hbelow : ∀ u ∈ lmb.usedMem.rgn, u.base < u.stop ∧ u.stop ≤ addr) :
    FreeRun lmb addr (last.stop - addr) ↔ NoHole lmb addr := by
  refine freeRun_iff_noHole hlt.le (fun x _ => ⟨fun hx => ?_, ?_⟩) ?_ ?_
  · refine ⟨fun w hw hwa => ?_, .inr ⟨last, hlast, hx⟩⟩
    have := hbelow w hw
    omega
  · rintro ⟨-, ⟨w, hw, hwa⟩ | ⟨s, hs, hx⟩⟩
    · have := hbelow w hw
      omega
    · exact lt_of_lt_of_le hx (hmax s hs)
  · rintro x hx - ⟨w, hw, hwin⟩
    have := hbelow w hw
    have := hwin.2
    omega
  · rintro ⟨⟨s, hs, hsin⟩, -⟩
    have := hmax s hs
    have := hsin.2
    omega

/-- The end of the last bank is `2^64` bytes away from the address, which reads as 0. -/
def FarEnd (lmb : Map) (addr : Nat) : Prop := addr = 0 ∧ ∃ r ∈ lmb.availableMem.rgn, r.stop = 2 ^ 64

theorem distance_of_not_farEnd (h : Rep lmb.availableMem.rgn) (hlast : last ∈ lmb.availableMem.rgn)
    (hfar : ¬FarEnd lmb addr) : u64 (last.stop - addr) = last.stop - addr := by
  have hbound := h.bounded last hlast
  apply u64_of_lt
  by_contra hge
  exact hfar ⟨by omega, last, hlast, by omega⟩

/-- `lmb_get_free_size` gives the run of free bytes from an address exactly when the address is not
in memory, is in a reserved range that ends below `2^64`, or is free and no hole lies between it and
the next reserved range or the end of the last bank, unless that is `2^64` bytes away. -/
theorem getFreeSize_exact_iff (h : lmb.Rep) (haddr : addr < 2 ^ 64) :
    FreeRun lmb addr (getFreeSize lmb addr) ↔ ¬Covered lmb.availableMem.rgn addr ∨
      (∃ u ∈ lmb.usedMem.rgn, Within base stop u addr ∧ u.stop < 2 ^ 64) ∨
      (¬Covered lmb.usedMem.rgn addr ∧ NoHole lmb addr ∧
        (lmb.usedMem.rgn = [] → ¬FarEnd lmb addr)) := by
  by_cases hcov : Covered lmb.availableMem.rgn addr
  case neg =>
    rw [show getFreeSize lmb addr =
      0 by simp [getFreeSize, (covered_iff_overlapChecks h.available haddr).mpr hcov]]
    exact iff_of_true (freeRun_zero fun hf => hcov hf.1) (.inl hcov)
  obtain ⟨last, hlast, hmax, hlt, heq⟩ := getFreeSize_inside h.available haddr hcov
  rw [heq]
  have hnext := freeSizeScan_spec h.used haddr
  generalize freeSizeScan addr lmb.usedMem.rgn = found at hnext
  cases hnext with
  | @above u hu hu_lt hfirst hfree =>
    have hne := ne_nil_of_mem hu
    rw [Option.getD_some, freeRun_above h.used hu hu_lt hfirst hfree]
    constructor
    · exact fun hno => .inr (.inr ⟨hfree, hno, fun he => absurd he hne⟩)
    · rintro (hnot | ⟨w, hw, hwin, -⟩ | ⟨-, hno, -⟩)
      · exact absurd hcov hnot
      · exact absurd ⟨w, hw, hwin⟩ hfree
      · exact hno
  | @inside u hu huin htop =>
    exact iff_of_true (freeRun_zero fun hf => hf.2 ⟨u, hu, huin⟩) (.inr (.inl ⟨u, hu, huin, htop⟩))
  | @top u hu huin htop =>
    have hfar : ¬FarEnd lmb addr := by
      rintro ⟨rfl, -⟩
      have := h.used.word u hu
      have := huin.1
      unfold stop at htop
      omega
    rw [Option.getD_none, distance_of_not_farEnd h.available hlast hfar]
    refine iff_of_false (fun hrun => ?_) ?_
    · -- the reserved byte at `addr` is counted as free
      exact (hrun.1 addr le_rfl (by omega)).2 ⟨u, hu, huin⟩
    · rintro (hnot | ⟨w, hw, hwin, hwtop⟩ | ⟨hnot, -⟩)
      · exact hnot hcov
      · obtain rfl := h.used.ordered.eq_of_within hu hw huin hwin
        omega
      · exact hnot ⟨u, hu, huin⟩
  | none hbelow =>
    have hfree : ¬Covered lmb.usedMem.rgn addr := by
      rintro ⟨w, hw, hwin⟩
      have := hbelow w hw
      have := hwin.2
      omega
    have hbelow' := fun u hu => And.intro (h.used.ordered.nonempty u hu) (hbelow u hu)
    by_cases hfar : FarEnd lmb addr
    · have hempty : lmb.usedMem.rgn = [] := by
        rw [eq_nil_iff_forall_not_mem]
        intro w hw
        have := hbelow' w hw
        have := hfar.1
        omega
      have hzero : u64 (last.stop - addr) = 0 := by
        obtain ⟨rfl, r, hr, htop⟩ := hfar
        have := hmax r hr
        have := h.available.bounded last hlast
        unfold u64
        omega
      rw [Option.getD_none, hzero]
      refine iff_of_false (fun hrun => hrun.2 ⟨hcov, hfree⟩) ?_
      rintro (hnot | ⟨w, hw, hwin, -⟩ | ⟨-, -, hno⟩)
      · exact hnot hcov
      · exact hfree ⟨w, hw, hwin⟩
      · exact hno hempty hfar
    · rw [Option.getD_none, distance_of_not_farEnd h.available hlast hfar,
        freeRun_last hlast hmax hlt hbelow']
      constructor
      · exact fun hno => .inr (.inr ⟨hfree, hno, fun _ => hfar⟩)
      · rintro (hnot | ⟨w, hw, hwin, -⟩ | ⟨-, hno, -⟩)
        · exact absurd hcov hnot
        · exact absurd ⟨w, hw, hwin⟩ hfree
        · exact hno

theorem getFreeSize_exact_iff_two_banks :
    let lmb : Map := ⟨⟨[⟨0x1000, 0x1000, 0⟩, ⟨0x2000, 0x2000, 0⟩], 4, false⟩,
      ⟨[⟨0x3000, 0x100, 0⟩], 4, false⟩, false⟩
    FreeRun lmb 0x1800 (getFreeSize lmb 0x1800) := by
  intro lmb
  refine (getFreeSize_exact_iff (by decide) (by decide)).mpr (.inr (.inr ⟨?_, ?_, ?_⟩))
  · simp [lmb, Covered, Within]
  · intro x hx hbelow
    have hlt : x < 0x3000 := hbelow.1 ⟨0x3000, 0x100, 0⟩ (by simp [lmb]) (by decide)
    simp only [lmb, Covered, Within, stop, mem_cons, not_mem_nil, or_false,
      exists_eq_or_imp, exists_eq_left]
    omega
  · simp [lmb]

/-- A hole between two banks is counted as free memory: of the 0x3000 bytes that are reported from
0x1000 on, the second 0x1000 are not memory. -/
theorem hole_counted_as_free :
    let lmb : Map := ⟨⟨[⟨0x1000, 0x1000, 0⟩, ⟨0x3000, 0x1000, 0⟩], 4, false⟩, ⟨[], 4, false⟩, false⟩
    lmb.Rep ∧ getFreeSize lmb 0x1000 = 0x3000 ∧ ¬FreeRun lmb 0x1000 (getFreeSize lmb 0x1000) := by
  intro lmb
  have hsize : getFreeSize lmb 0x1000 = 0x3000 := by decide
  refine ⟨by decide, hsize, fun hrun => ?_⟩
  rw [hsize] at hrun
  have hbyte := (hrun.1 0x2000 (by decide) (by decide)).1
  simp [lmb, Covered, Within, stop] at hbyte

/-! ### Allocation at a fixed address -/

section FixedAddress

variable {base size : Nat}

def InOneBank (lmb : Map) (base size : Nat) : Prop :=
  ∃ r ∈ lmb.availableMem.rgn, r.base ≤ base ∧ base + size ≤ r.stop

/-- The range starts in the hole below a bank and ends in that bank. -/
def FromHole (lmb : Map) (base size : Nat) : Prop :=
  ∃ r ∈ lmb.availableMem.rgn, base < r.base ∧ r.base < base + size ∧ base + size ≤ r.stop ∧
    ∀ s ∈ lmb.availableMem.rgn, s.base < r.base → s.stop ≤ base

/-- `_lmb_alloc_addr` goes on to `lmb_reserve` for the ranges in one bank and for those that start
in the hole below their bank. -/
theorem allocAddr_spec (h : Rep lmb.availableMem.rgn) (hsize : 0 < size)
    (htop : base + size ≤ 2 ^ 64) (env : Env) (flags : Nat) :
    (InOneBank lmb base size ∨ FromHole lmb base size) ∧ allocAddr env lmb base size flags =
      reserve env lmb base size flags ∨ ¬(InOneBank lmb base size ∨ FromHole lmb base size) ∧
    allocAddr env lmb base size flags = (-einval, lmb) := by
  unfold allocAddr
  cases hc : overlapChecks base size lmbNooverwrite true lmb.availableMem.rgn 0 with
  | none =>
    have hapart := (h.clear_iff hsize htop).mp (overlapChecks_eq_none.mp hc)
    refine .inr ⟨?_, rfl⟩
    rintro (⟨r, hr, hle, hend⟩ | ⟨r, hr, hlt, hin, hend, -⟩)
    · exact hapart r hr ⟨by omega, by omega⟩
    · exact hapart r hr ⟨by omega, hin⟩
  | some k =>
    obtain ⟨left, r, right, heq, hk, hclear, hover⟩ := overlapChecks_some hc
    have hr := (h.overlap_iff hsize htop (by simp [heq])).mp hover
    have hleft : Apart left base size := fun s hs hshare => by
      have := (h.overlap_iff hsize htop (by simp [heq, hs])).mpr hshare
      rw [hclear s hs] at this
      cases this
    have hk' : k = left.length := by omega
    have hord := h.ordered
    rw [heq] at hord
    obtain ⟨hleft_r, hright⟩ := hord.sides
    have hmem : r ∈ lmb.availableMem.rgn := by simp [heq]
    have hpos := h.sorted.nonempty r hmem
    have hentry : entry lmb.availableMem.rgn k = r := by rw [heq, hk', entry_append]
    have hlast : addrsOverlap r.base r.size (subU64 (base + size) 1) 1 ↔ base + size ≤ r.stop := by
      have hbound := h.bounded r hmem
      rw [subU64_one (by omega) htop, Lmb.overlap_iff hpos hbound (by omega) (by omega), ← stop]
      omega
    simp only [hentry]
    by_cases hend : base + size ≤ r.stop
    · rw [if_pos (hlast.mpr hend)]
      refine .inl ⟨?_, rfl⟩
      by_cases hle : r.base ≤ base
      · exact .inl ⟨r, hmem, hle, hend⟩
      refine .inr ⟨r, hmem, by omega, hr.2, hend, fun s hs hlt => ?_⟩
      rw [heq] at hs
      rcases mem_append_cons.mp hs with hs | rfl | hs
      · have := hleft s hs
        omega
      · omega
      · have := hright s hs
        omega
    · rw [if_neg (mt hlast.mp hend)]
      refine .inr ⟨?_, rfl⟩
      -- a bank that contains the end of the range is above the one that was found
      have habove : ∀ s ∈ lmb.availableMem.rgn, s.base < base + size → base + size ≤ s.stop →
          r.stop ≤ s.base := by
        intro s hs hlt hle
        rw [heq] at hs
        rcases mem_append_cons.mp hs with hs | rfl | hs
        · exact absurd ⟨by omega, hlt⟩ (hleft s hs)
        · exact absurd hle hend
        · exact hright s hs
      rintro (⟨s, hs, hle, hs_end⟩ | ⟨s, hs, hlt, hin, hs_end, hbelow⟩)
      · have := habove s hs (by omega) hs_end
        omega
      · have := habove s hs hin hs_end
        have := hbelow r hmem (by have : r.stop = r.base + r.size := rfl; omega)
        omega

end FixedAddress

end MtkBoot.Lmb
