import MtkBoot.Lmb.Placement

/-! When `lmb_alloc_mem` returns 0, the range it gives is free memory below the maximum that is
reserved afterwards. -/

namespace MtkBoot.Lmb

open MtkBoot.Lib

/-! ### The search from a candidate that wrapped -/

/-- The first candidate in a bank when the maximum address is smaller than the size. -/
def wrapStart (size align maxAddr : Nat) : Nat := alignDown (2 ^ 64 + maxAddr - size) align

/-- A place that the search takes in the bank `r` when the maximum address is smaller than the
size. -/
def WrapFitsBank (used : List Region) (size align maxAddr : Nat) (r : Region) (p : Nat) : Prop :=
  size ≤ r.size ∧ r.base < maxAddr ∧ p ≠ 0 ∧ align ∣ p ∧ r.base ≤ p ∧
    p ≤ wrapStart size align maxAddr ∧
    (2 ^ 64 < wrapStart size align maxAddr + size → p = wrapStart size align maxAddr) ∧
    Clear used p size

def WrapFit (lmb : Map) (size align maxAddr p : Nat) : Prop :=
  ∃ r ∈ lmb.availableMem.rgn, WrapFitsBank lmb.usedMem.rgn size align maxAddr r p

section Wrap

variable {used : List Region} {size k maxAddr : Nat}

/-- A range that wraps is tried once: a reserved region that overlaps it starts below its size. -/
theorem allocTry_wrapped (used : List Region) (align : Nat) {lo hi : Nat} (hhi : hi < 2 ^ 64)
    (hsize : size < 2 ^ 64) (hwrap : 2 ^ 64 < hi + size) : Highest (fun p => p ≠ 0 ∧ lo ≤ p ∧
      p = hi ∧ Clear used p size) (allocTry used size align lo hi) := by
  unfold allocTry
  split
  · next hcond =>
    split
    · next hnone =>
      exact ⟨⟨hcond.1, hcond.2, rfl, overlapChecks_eq_none.mp hnone⟩, fun q hq => hq.2.2.1.le⟩
    next rgn hsome =>
    obtain ⟨left, r, right, heq, hrgn, -, hover⟩ := overlapChecks_some hsome
    have hentry : entry used rgn = r := by rw [heq, show rgn = left.length by omega, entry_append]
    have hlow : r.base < size := by
      have := (addrsOverlap_iff.mp hover).2
      unfold subU64 at this
      omega
    simp only [hentry, hlow, dif_pos]
    rintro q ⟨-, -, rfl, hclear⟩
    rw [hclear r (by simp [heq])] at hover
    cases hover
  · next hcond =>
    rintro q ⟨h0, hlo, rfl, -⟩
    exact hcond ⟨h0, hlo⟩

theorem allocCandidate_wrapped {r : Region} (align : Nat) (hstop : r.stop ≤ 2 ^ 64)
    (hword : r.size < 2 ^ 64) (hmax : maxAddr ≠ lmbAllocAnywhere) (hlt : maxAddr < size) :
    allocCandidate r size align maxAddr =
      if size ≤ r.size ∧ r.base < maxAddr then some (wrapStart size align maxAddr) else none := by
  have hs : r.stop = r.base + r.size := rfl
  by_cases hsz : r.size < size
  · rw [allocCandidate, if_pos hsz, if_neg (by omega)]
  rw [allocCandidate, if_neg hsz, if_neg hmax]
  by_cases hbase : r.base < maxAddr
  · have hmin : min (if u64 (r.base + r.size) < r.base then 2 ^ 64 - 1
        else u64 (r.base + r.size)) maxAddr = maxAddr := by
      rcases hstop.lt_or_eq with htop | htop
      · rw [← hs, u64_of_lt htop, if_neg (by omega)]
        omega
      · rw [← hs, htop, if_pos (by unfold u64; omega)]
        omega
    have hsub : subU64 maxAddr size = 2 ^ 64 + maxAddr - size := by
      unfold subU64
      omega
    rw [if_pos hbase, if_pos ⟨by omega, hbase⟩]
    simp only [hmin, hsub, wrapStart]
  · rw [if_neg hbase, if_neg fun h => hbase h.2]

theorem allocCandidate_wrapped_highest (hused : Rep used) (hk : k < 64)
    (hmax : maxAddr ≠ lmbAllocAnywhere) (hlt : maxAddr < size) {r : Region}
    (hstop : r.stop ≤ 2 ^ 64) (hword : r.size < 2 ^ 64) :
    Highest (WrapFitsBank used size (2 ^ k) maxAddr r)
      ((allocCandidate r size (2 ^ k) maxAddr).bind (allocTry used size (2 ^ k) r.base)) := by
  rw [allocCandidate_wrapped (2 ^ k) hstop hword hmax hlt]
  split
  · next hbank =>
    have hx : 2 ^ 64 + maxAddr - size < 2 ^ 64 := by omega
    have hle := alignDown_le (2 ^ 64 + maxAddr - size) (2 ^ k)
    have hdvd : 2 ^ k ∣ wrapStart size (2 ^ k) maxAddr := dvd_alignDown hx hk
    have hstart : wrapStart size (2 ^ k) maxAddr < 2 ^ 64 := lt_of_le_of_lt hle hx
    rw [Option.bind_some]
    by_cases hwrap : 2 ^ 64 < wrapStart size (2 ^ k) maxAddr + size
    · refine (allocTry_wrapped used (2 ^ k) hstart (by omega) hwrap).congr fun p => ?_
      constructor
      · rintro ⟨h0, hlo, rfl, hclear⟩
        exact ⟨hbank.1, hbank.2, h0, hdvd, hlo, le_rfl, fun _ => rfl, hclear⟩
      · rintro ⟨-, -, h0, -, hlo, -, hp, hclear⟩
        exact ⟨h0, hlo, hp hwrap, hclear⟩
    · have hclear_iff : ∀ p, p ≤ wrapStart size (2 ^ k) maxAddr →
          (Clear used p size ↔ Apart used p size) :=
        fun p hp => hused.clear_iff (by omega) (by omega)
      refine (allocTry_highest hused (by omega) hk hdvd (by omega)).congr fun p => ?_
      constructor
      · rintro ⟨h0, hdiv, hlo, hhi, hapart⟩
        exact ⟨hbank.1, hbank.2, h0, hdiv, hlo, hhi, fun h => absurd h hwrap,
          (hclear_iff p hhi).mpr hapart⟩
      · rintro ⟨-, -, h0, hdiv, hlo, hhi, -, hclear⟩
        exact ⟨h0, hdiv, hlo, hhi, (hclear_iff p hhi).mp hclear⟩
  · next hbank =>
    rintro p ⟨hsz, hbase, -⟩
    exact hbank ⟨hsz, hbase⟩

end Wrap

def MemType.maxAddr (type : MemType) (addr : Nat) : Nat :=
  if type = .allocAny then lmbAllocAnywhere else addr

def Takes (lmb : Map) (size align maxAddr p : Nat) : Prop :=
  if maxAddr = lmbAllocAnywhere ∨ size ≤ maxAddr then Fit lmb size align maxAddr p
  else WrapFit lmb size align maxAddr p

/-- When the call returns 0, the range at the address it gives is aligned, in one bank, below the
maximum address, free before and reserved with the flags afterwards. -/
def AllocSound (lmb : Map) (type : MemType) (align addr size flags : Nat) (res : Int × Nat × Map) :
    Prop :=
  res.1 = 0 → align ∣ res.2.1 ∧ InOneBank lmb res.2.1 size ∧
    (type = .allocMax → res.2.1 + size ≤ addr) ∧ Apart lmb.usedMem.rgn res.2.1 size ∧
    ∀ x, res.2.1 ≤ x → x < res.2.1 + size → Marked res.2.2.usedMem.rgn x flags

section

variable {lmb : Map} {size k maxAddr : Nat}

theorem Map.Rep.search_highest (hrep : lmb.Rep) (hsize : 0 < size)
    (hk : k < 64) (hmax : maxAddr < 2 ^ 64) : Highest (Takes lmb size (2 ^ k) maxAddr)
      (allocBanks lmb.usedMem.rgn size (2 ^ k) maxAddr lmb.availableMem.rgn.reverse) := by
  by_cases hfit : maxAddr = lmbAllocAnywhere ∨ size ≤ maxAddr
  · exact (hrep.allocBanks_highest hsize hk hmax hfit).congr fun p => by
      rw [Takes, if_pos hfit]
      rfl
  push Not at hfit
  have htakes : Takes lmb size (2 ^ k) maxAddr = WrapFit lmb size (2 ^ k) maxAddr :=
    funext fun p => if_neg (by simp [hfit.1, hfit.2])
  rw [htakes]
  refine hrep.available.allocBanks_highest (fun r hr => allocCandidate_wrapped_highest hrep.used hk
    hfit.1 hfit.2 (hrep.available.bounded r hr) (hrep.available.word r hr)) ?_
  -- only one bank starts below the maximum address and is larger than it
  rintro r s p q hrs ⟨-, hbase, -⟩ ⟨hsz, -⟩
  unfold Region.stop at hrs
  omega

theorem Takes.props {align p : Nat} (hrep : lmb.Rep) (hsize : 0 < size)
    (h : Takes lmb size align maxAddr p) : p ≠ 0 ∧ p < 2 ^ 64 ∧ Clear lmb.usedMem.rgn p size := by
  unfold Takes at h
  split at h
  · obtain ⟨h0, -, hlt, hclear⟩ := h.props hrep hsize
    exact ⟨h0, hlt, hclear⟩
  · next hfit =>
    obtain ⟨r, hr, hsz, -, h0, -, -, hhi, -, hclear⟩ := h
    have := alignDown_le (2 ^ 64 + maxAddr - size) align
    unfold wrapStart at hhi
    exact ⟨h0, by omega, hclear⟩

end

/-- An allocation anywhere or below a maximum address is sound exactly when, at the place found, the
list of reserved regions takes the range and either the notification fails or the maximum is at
least the size and the range is not dropped. -/
theorem allocMem_sound_iff (env : Env) {lmb : Map} {type : MemType} {addr size k : Nat}
    (flags : Nat) (htype : type = .allocAny ∨ type = .allocMax)
    (hrep : lmb.Rep) (hsize : 0 < size) (hk : k < 64) (haddr : addr < 2 ^ 64) :
    AllocSound lmb type (2 ^ k) addr size flags (allocMem env lmb type (2 ^ k) addr size flags) ↔
      ∀ p, IsGreatest {p | Takes lmb size (2 ^ k) (type.maxAddr addr) p} p →
        Room lmb.usedMem p size flags env.expand ∧ (mapUpdateNotify env lmb flags ≠ 0 ∨
          (type = .allocMax → addr ≠ lmbAllocAnywhere ∧ size ≤ addr) ∧
            ¬Dropped p size flags lmb.usedMem.rgn) := by
  have hcall : allocMem env lmb type (2 ^ k) addr size flags =
      allocBase env lmb size (2 ^ k) (type.maxAddr addr) flags := by
    unfold allocMem
    rw [if_neg hsize.ne']
    rcases htype with rfl | rfl <;> rfl
  have hmax : type.maxAddr addr < 2 ^ 64 := by
    unfold MemType.maxAddr
    split
    · decide
    · exact haddr
  have hsearch := hrep.search_highest hsize hk hmax
  rw [hcall]
  cases hbanks :
    allocBanks lmb.usedMem.rgn size (2 ^ k) (type.maxAddr addr) lmb.availableMem.rgn.reverse with
  | none =>
    rw [hbanks] at hsearch
    rw [allocBase_none hbanks]
    exact iff_of_true (fun h => by simp at h) fun p hp => absurd hp.1 (hsearch p)
  | some p =>
    rw [hbanks] at hsearch
    have hbest := hsearch
    have htakes : Takes lmb size (2 ^ k) (type.maxAddr addr) p := hbest.1
    obtain ⟨h0, hlt, hclear⟩ := htakes.props hrep hsize
    have hout := allocBase_some env flags hrep hlt hclear hbanks
    -- it is enough to look at the place that was found
    suffices hp : AllocSound lmb type (2 ^ k) addr size flags
        (allocBase env lmb size (2 ^ k) (type.maxAddr addr) flags) ↔
        Room lmb.usedMem p size flags env.expand ∧ (mapUpdateNotify env lmb flags ≠ 0 ∨
            (type = .allocMax → addr ≠ lmbAllocAnywhere ∧ size ≤ addr) ∧
            ¬Dropped p size flags lmb.usedMem.rgn) by
      rw [hp]
      exact ⟨fun h q hq => hq.unique hbest ▸ h, fun h => h p hbest⟩
    generalize allocBase env lmb size (2 ^ k) (type.maxAddr addr) flags = res at hout
    cases hout with
    | refused used hroom hrgn =>
      -- nothing was reserved, so the bytes at the address that is reported are not
      refine iff_of_false (fun h => ?_) fun h => hroom h.1
      obtain ⟨-, -, -, hapart, hmarked⟩ := h rfl
      obtain ⟨r, hr, hin, -⟩ := hmarked _ le_rfl (by simp only; omega)
      exact hapart.not_within hsize r (hrgn ▸ hr) hin
    | unnotified used hroom hnotify =>
      exact iff_of_true (fun h => absurd h hnotify) ⟨hroom, .inl hnotify⟩
    | taken used hroom hnotify hused =>
      by_cases hfit : type.maxAddr addr = lmbAllocAnywhere ∨ size ≤ type.maxAddr addr
      · rw [Takes, if_pos hfit] at htakes
        obtain ⟨-, htop, -, -⟩ := htakes.props hrep hsize
        obtain ⟨r, hr, -, hdvd, hlo, hin, hbelow, hapart⟩ := htakes
        have hmarks := hused.marked_iff hrep.used h0 hsize htop hapart rfl
        have hmaxiff : (type = .allocMax → p + size ≤ addr) ↔
            (type = .allocMax → addr ≠ lmbAllocAnywhere ∧ size ≤ addr) := by
          refine forall_congr' fun hm => ?_
          have hma : type.maxAddr addr = addr := by simp [MemType.maxAddr, hm]
          rw [hma] at hbelow hfit
          constructor
          · intro hle
            exact ⟨fun hz => by simp [lmbAllocAnywhere] at hz; omega, by omega⟩
          · exact fun h => hbelow h.1
        constructor
        · intro h
          obtain ⟨-, -, hle, -, hm⟩ := h rfl
          exact ⟨hroom, .inr ⟨hmaxiff.mp hle, hmarks.mp hm⟩⟩
        · rintro ⟨-, hn | ⟨hm, hdrop⟩⟩
          · exact absurd hnotify hn
          · exact fun _ => ⟨hdvd, ⟨r, hr, hlo, hin⟩, hmaxiff.mpr hm, hapart, hmarks.mpr hdrop⟩
      · push Not at hfit
        have hm : type = .allocMax := by
          rcases htype with rfl | rfl
          · exact absurd rfl hfit.1
          · rfl
        have hma : type.maxAddr addr = addr := by simp [MemType.maxAddr, hm]
        rw [hma] at hfit
        refine iff_of_false (fun h => ?_) ?_
        · have := (h rfl).2.2.1 hm
          omega
        · rintro ⟨-, hn | ⟨hsz, -⟩⟩
          · exact hn hnotify
          · have := (hsz hm).2
            omega

theorem allocMem_sound_iff_below_max :
    let lmb : Map := ⟨⟨[⟨0x1000, 0x10000, 0⟩], 4, false⟩, ⟨[⟨0x2000, 0x100, 4⟩], 4, false⟩, false⟩
    AllocSound lmb .allocMax (2 ^ 4) 0x8000 0x400 0
      (allocMem ⟨false, 0, true⟩ lmb .allocMax (2 ^ 4) 0x8000 0x400 0) := by
  intro lmb
  refine (allocMem_sound_iff ⟨false, 0, true⟩ 0 (.inr rfl) (by decide) (by decide) (by decide)
    (by decide)).mpr fun p _ => ⟨⟨rfl, .inr (.inl (by decide))⟩, .inr ⟨fun _ => by decide, ?_⟩⟩
  -- the only reserved region has other flags, no region touches it, and there is room for one more
  rintro (⟨r, ⟨hr, -⟩, -, s, hs, hadj, -⟩ | ⟨r, ⟨hr, -⟩, hf, -⟩ | ⟨-, hcount⟩)
  · obtain rfl := List.mem_singleton.mp hr
    obtain rfl := List.mem_singleton.mp hs
    simp [Region.stop] at hadj
  · obtain rfl := List.mem_singleton.mp hr
    simp at hf
  · simp [lmb, u16] at hcount

/-- A request for 0x2000 bytes below 0x1800 succeeds with an address near the top of the address
space. -/
theorem allocation_above_maximum :
    let lmb : Map := ⟨⟨[⟨0x1000, 0x10000, 0⟩], 4, false⟩, ⟨[], 4, false⟩, false⟩
    let res := allocMem ⟨false, 0, true⟩ lmb .allocMax 1 0x1800 0x2000 0
    Inv lmb ∧ res.1 = 0 ∧ res.2.1 = 2 ^ 64 - 0x800 ∧
      ¬AllocSound lmb .allocMax 1 0x1800 0x2000 0 res := by
  intro lmb res
  have hres : res.1 = 0 ∧ res.2.1 = 2 ^ 64 - 0x800 := by decide +kernel
  refine ⟨by decide, hres.1, hres.2, fun hsound => ?_⟩
  have hle := (hsound hres.1).2.2.1 rfl
  rw [hres.2] at hle
  omega

end MtkBoot.Lmb
