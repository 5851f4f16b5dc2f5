import Mathlib.Order.Bounds.Basic
import MtkBoot.Lmb.Search
import MtkBoot.Lmb.Kept

/-! Where `_lmb_alloc_base` puts an allocation: the highest place that fits, if the list of reserved
regions takes the range and the notification does not fail. -/

namespace MtkBoot.Lmb

open MtkBoot.Lib

section

variable {env : Env} {lmb : Map} {size align addr flags p : Nat}

/-! ### The result of the call, given the place that the search found -/

/-- The outcome for the place `p`: the list does not take the range, the notification fails, or
`p` is the address that was allocated. -/
inductive Outcome (env : Env) (lmb : Map) (size addr flags p : Nat) : Int × Nat × Map → Prop
  | refused (used : Alist) (hroom : ¬Room lmb.usedMem p size flags env.expand)
      (hrgn : used.rgn = lmb.usedMem.rgn) :
      Outcome env lmb size addr flags p (0, addr, { lmb with usedMem := used })
  | unnotified (used : Alist) (hroom : Room lmb.usedMem p size flags env.expand)
      (hnotify : mapUpdateNotify env lmb flags ≠ 0) :
      Outcome env lmb size addr flags p
        (mapUpdateNotify env lmb flags, addr, { lmb with usedMem := used })
  | taken (used : Alist) (hroom : Room lmb.usedMem p size flags env.expand)
      (hnotify : mapUpdateNotify env lmb flags = 0)
      (hused : ClearAdd p size flags lmb.usedMem env.expand (0, used)) :
      Outcome env lmb size addr flags p (0, p, { lmb with usedMem := used })

theorem allocBase_none
    (h : allocBanks lmb.usedMem.rgn size align addr lmb.availableMem.rgn.reverse = none) :
    allocBase env lmb size align addr flags = (-1, addr, lmb) := by
  simp [allocBase, h]

theorem allocBase_some (env : Env) (flags : Nat) (hrep : lmb.Rep) (hlt : p < 2 ^ 64)
    (hclear : Clear lmb.usedMem.rgn p size)
    (h : allocBanks lmb.usedMem.rgn size align addr lmb.availableMem.rgn.reverse = some p) :
    Outcome env lmb size addr flags p (allocBase env lmb size align addr flags) := by
  have hadd := addRegionFlags_clear lmb.usedMem flags env.expand hrep.used hlt hclear
  have hret := hadd.ret_eq_zero
  simp only [allocBase, h]
  generalize addRegionFlags lmb.usedMem p size flags env.expand = res at hadd hret
  obtain ⟨ret, used⟩ := res
  by_cases hzero : ret = 0
  · subst hzero
    have hroom := hret.mp rfl
    simp only [ne_eq, not_true_eq_false, if_false]
    -- the notification does not look at the lists
    by_cases hnotify : mapUpdateNotify env { lmb with usedMem := used } flags = 0
    · rw [if_neg (not_not.mpr hnotify)]
      exact .taken used hroom hnotify hadd
    · rw [if_pos hnotify]
      exact .unnotified used hroom hnotify
  · simp only [ne_eq, hzero, not_false_eq_true, if_true]
    refine .refused used (fun hroom => hzero (hret.mpr hroom)) ?_
    cases hadd with
    | broken => rfl
    | full => rfl
    | inserted => exact absurd rfl hzero
    | displaced => exact absurd rfl hzero
    | joined => exact absurd rfl hzero

/-! ### Completeness and top-down placement -/

/-- The range fits at `p` in one bank, below the maximum address and apart from the reserved
regions. -/
def Fit (lmb : Map) (size align maxAddr p : Nat) : Prop :=
  FitsIn lmb.availableMem.rgn lmb.usedMem.rgn size align maxAddr p

/-- The call returns -1 only when the range fits nowhere, and gives the highest place when it
succeeds. -/
def TopDown (env : Env) (lmb : Map) (size align maxAddr flags : Nat) : Prop :=
  ((allocBase env lmb size align maxAddr flags).1 = -1 → ∀ p, ¬Fit lmb size align maxAddr p) ∧
    ((allocBase env lmb size align maxAddr flags).1 = 0 →
      IsGreatest {p | Fit lmb size align maxAddr p}
        (allocBase env lmb size align maxAddr flags).2.1)

theorem Fit.props (hrep : lmb.Rep) (hsize : 0 < size) (h : Fit lmb size align addr p) :
    p ≠ 0 ∧ p + size ≤ 2 ^ 64 ∧ p < 2 ^ 64 ∧ Clear lmb.usedMem.rgn p size := by
  obtain ⟨r, hr, h0, -, -, hin, -, hapart⟩ := h
  have hbound := hrep.available.bounded r hr
  exact ⟨h0, by omega, by omega, (hrep.used.clear_iff hsize (by omega)).mpr hapart⟩

end

/-- For a maximum address not smaller than the size, the call finds the highest place exactly when
the list of reserved regions takes the range there and the notification does not return -1. -/
theorem allocBase_topDown_iff (env : Env) {lmb : Map} {size maxAddr k : Nat} (flags : Nat)
    (hrep : lmb.Rep) (hsize : 0 < size) (hk : k < 64) (hmax : maxAddr < 2 ^ 64)
    (hfit : maxAddr = lmbAllocAnywhere ∨ size ≤ maxAddr) :
    TopDown env lmb size (2 ^ k) maxAddr flags ↔
      ∀ p, IsGreatest {p | Fit lmb size (2 ^ k) maxAddr p} p →
        Room lmb.usedMem p size flags env.expand ∧ mapUpdateNotify env lmb flags ≠ -1 := by
  have hsearch := hrep.allocBanks_highest hsize hk hmax hfit
  unfold TopDown
  cases hbanks : allocBanks lmb.usedMem.rgn size (2 ^ k) maxAddr lmb.availableMem.rgn.reverse with
  | none =>
    rw [hbanks] at hsearch
    rw [allocBase_none hbanks]
    refine iff_of_true ⟨fun _ => hsearch, fun h => by simp at h⟩ fun p hp => ?_
    exact absurd hp.1 (hsearch p)
  | some p =>
    rw [hbanks] at hsearch
    have hbest : IsGreatest {p | Fit lmb size (2 ^ k) maxAddr p} p := hsearch
    obtain ⟨h0, -, hlt, hclear⟩ := hbest.1.props hrep hsize
    have hcond : (∀ q, IsGreatest {p | Fit lmb size (2 ^ k) maxAddr p} q →
        Room lmb.usedMem q size flags env.expand ∧ mapUpdateNotify env lmb flags ≠ -1) ↔
        Room lmb.usedMem p size flags env.expand ∧ mapUpdateNotify env lmb flags ≠ -1 :=
      ⟨fun h => h p hbest, fun h q hq => hq.unique hbest ▸ h⟩
    rw [hcond]
    have hout := allocBase_some env flags hrep hlt hclear hbanks
    generalize allocBase env lmb size (2 ^ k) maxAddr flags = res at hout
    cases hout with
    | refused used hroom hrgn =>
      refine iff_of_false (fun h => ?_) fun h => hroom h.1
      -- the maximum address itself is reported, and nothing fits there
      obtain ⟨r, hr, h0', -, -, -, hbelow, -⟩ := (h.2 rfl).1
      have hmax : maxAddr + size ≤ maxAddr := hbelow h0'
      omega
    | unnotified used hroom hnotify =>
      constructor
      · exact fun h => ⟨hroom, fun hn => h.1 hn p hbest.1⟩
      · exact fun h => ⟨fun hn => absurd hn h.2, fun hn => absurd hn hnotify⟩
    | taken used hroom hnotify hused =>
      refine iff_of_true ⟨fun h => by simp at h, fun _ => hbest⟩ ⟨hroom, ?_⟩
      rw [hnotify]
      decide

theorem allocBase_topDown_iff_one_bank :
    let lmb : Map := ⟨⟨[⟨0x1000, 0x10000, 0⟩], 4, false⟩, ⟨[⟨0x2000, 0x100, 0⟩], 4, false⟩, false⟩
    TopDown ⟨true, 0, false⟩ lmb 0x100 (2 ^ 4) lmbAllocAnywhere 0 := by
  intro lmb
  refine (allocBase_topDown_iff ⟨true, 0, false⟩ 0 (by decide) (by decide) (by decide) (by decide)
    (.inl rfl)).mpr fun p _ => ⟨⟨rfl, .inr (.inl (by decide))⟩, by decide⟩

/-- With a full list that cannot be extended the call reports success without having allocated
anything: the address that it leaves is 0. -/
theorem success_without_allocation :
    let lmb : Map := ⟨⟨[⟨0x1000, 0x10000, 0⟩], 4, false⟩, ⟨[⟨0x2000, 0x100, 0⟩, ⟨0x3000, 0x100, 0⟩,
      ⟨0x4000, 0x100, 0⟩, ⟨0x5000, 0x100, 0⟩], 4, false⟩, false⟩
    Inv lmb ∧ (allocBase ⟨false, 0, false⟩ lmb 0x100 1 lmbAllocAnywhere 0).1 = 0 ∧
      (allocBase ⟨false, 0, false⟩ lmb 0x100 1 lmbAllocAnywhere 0).2.1 = 0 ∧
      ¬TopDown ⟨false, 0, false⟩ lmb 0x100 1 lmbAllocAnywhere 0 := by
  intro lmb
  refine ⟨by decide, by decide +kernel, by decide +kernel, fun htop => ?_⟩
  obtain ⟨r, -, h0, -⟩ := (htop.2 (by decide +kernel)).1
  exact h0 (by decide +kernel)

end MtkBoot.Lmb
