import MtkBoot.Lmb.Region

/-! The logical memory block map of U-Boot (`lib/lmb.c`): adding memory, reserving, allocating and
freeing.  What a call meets outside this file is its `Env`. -/

namespace MtkBoot.Lmb

variable {base flags i size : Nat} {l : List Region}

/-- What the surroundings of one call decide: `CONFIG_EFI_LOADER`, the result of
`efi_map_update_notify`, and `malloc` when a list has to grow. -/
structure Env where
  efiLoader : Bool
  efiNotify : Int
  expand : Bool
  deriving DecidableEq, Repr

structure Map where
  availableMem : Alist
  usedMem : Alist
  test : Bool
  deriving DecidableEq, Repr

def setup (test : Bool) : Map := ⟨⟨[], 4, false⟩, ⟨[], 4, false⟩, test⟩

def lmbAllocAnywhere : Nat := 0

/-- `enum lmb_mem_type`; any other value falls to the `default` case. -/
inductive MemType
  | allocAddr
  | allocAny
  | allocMax
  | invalid
  deriving DecidableEq, Repr

def mapUpdateNotify (env : Env) (lmb : Map) (flags : Nat) : Int :=
  if env.efiLoader && !lmb.test && decide (flags &&& lmbNonotify = 0) then env.efiNotify else 0

def reserve (env : Env) (lmb : Map) (base size flags : Nat) : Int × Map :=
  match overlapChecks base size flags false lmb.usedMem.rgn 0 with
  | some _ => (-eexist, lmb)
  | none =>
    match addRegionFlags lmb.usedMem base size flags env.expand with
    | (ret, used) =>
      let lmb := { lmb with usedMem := used }
      if ret ≠ 0 then (ret, lmb) else (mapUpdateNotify env lmb flags, lmb)

def add (env : Env) (lmb : Map) (base size : Nat) : Int × Map :=
  match addRegionFlags lmb.availableMem base size lmbNone env.expand with
  | (ret, available) =>
    let lmb := { lmb with availableMem := available }
    if ret ≠ 0 then (ret, lmb) else (mapUpdateNotify env lmb lmbNone, lmb)

def free (env : Env) (lmb : Map) (base size flags : Nat) : Int × Map :=
  match lmbFree lmb.usedMem base size env.expand with
  | (ret, used) =>
    let lmb := { lmb with usedMem := used }
    if ret < 0 then (ret, lmb) else (mapUpdateNotify env lmb flags, lmb)

/-- `ALIGN_DOWN`: the bits of `x` outside the mask `a - 1`, both 64 bits wide. -/
def alignDown (x a : Nat) : Nat := x &&& (2 ^ 64 - 1 - subU64 a 1)

theorem alignDown_le (x a : Nat) : alignDown x a ≤ x := Nat.and_le_left

/-- No region of the list overlaps the range for `lmb_addrs_overlap`. -/
def Clear (l : List Region) (base size : Nat) : Prop :=
  ∀ r ∈ l, addrsOverlap base size r.base r.size = false

theorem overlapChecks_cases (l : List Region) (base size flags i : Nat) :
    (overlapChecks base size flags true l i = none ∧ Clear l base size) ∨ ∃ left r right, l =
    left ++ r :: right ∧ overlapChecks base size flags true l i = some (i + left.length) ∧
        Clear left base size ∧ addrsOverlap base size r.base r.size := by
  rcases scan_cases (p := fun r => addrsOverlap base size r.base r.size)
      (f := overlapChecks base size flags true)
    (fun _ => rfl) (fun r l i => by simp [overlapChecks])
      l i with ⟨hnone, hl⟩ | ⟨left, r, right, heq, hsome, hr, hleft⟩
  · exact .inl ⟨hnone, fun x hx => by simpa using hl x hx⟩
  · exact .inr ⟨left, r, right, heq, hsome, fun x hx => by simpa using hleft x hx, hr⟩

theorem overlapChecks_some {k : Nat} (h : overlapChecks base size flags true l i = some k) :
    ∃ left r right, l = left ++ r :: right ∧ k = i + left.length ∧ Clear left base size ∧
      addrsOverlap base size r.base r.size := by
  rcases overlapChecks_cases l base size flags i with ⟨hnone, -⟩ | ⟨left, r, right, heq, hsome, hr⟩
  · cases h.symm.trans hnone
  · exact ⟨left, r, right, heq, Option.some.inj (h.symm.trans hsome), hr⟩

theorem overlapChecks_eq_none : overlapChecks base size flags true l i = none ↔
    Clear l base size := by
  rcases overlapChecks_cases l base size flags i with ⟨hnone, hl⟩ | ⟨left, r, right, heq, hsome, -,
    hr⟩
  · exact iff_of_true hnone hl
  · refine iff_of_false (by simp [hsome]) fun hclear => ?_
    rw [hclear r (by simp [heq])] at hr
    cases hr

theorem below_overlapping {used : List Region} {rgn : Nat} (align : Nat) (hbase : base ≠ 0)
    (h : overlapChecks base size lmbNooverwrite true used 0 = some rgn)
    (hsize : size ≤ (entry used rgn).base) :
    alignDown (subU64 (entry used rgn).base size) align < base := by
  obtain ⟨left, r, right, rfl, hk, -, ho⟩ := overlapChecks_some h
  obtain rfl : rgn = left.length := by omega
  rw [entry_append] at hsize ⊢
  have hle := alignDown_le (subU64 r.base size) align
  rw [addrsOverlap_iff] at ho
  unfold subU64 at *
  omega

/-- The inner loop of `_lmb_alloc_base`: the base it takes in the bank that starts at `lmbbase`,
beginning with the candidate `base`. -/
def allocTry (used : List Region) (size align lmbbase base : Nat) : Option Nat :=
  if hbase : base ≠ 0 ∧ lmbbase ≤ base then
    match h : overlapChecks base size lmbNooverwrite true used 0 with
    | none => some base
    | some rgn =>
      let resBase := (entry used rgn).base
      if hsize : resBase < size then none
      else
        have := below_overlapping align hbase.1 h (not_lt.mp hsize)
        allocTry used size align lmbbase (alignDown (subU64 resBase size) align)
  else none
termination_by base

/-- The first candidate of `_lmb_alloc_base` in a bank, or `none` when the bank is skipped. -/
def allocCandidate (r : Region) (size align maxAddr : Nat) : Option Nat :=
  if r.size < size then none
  else if maxAddr = lmbAllocAnywhere then some (alignDown (subU64 (r.base + r.size) size) align)
  else if r.base < maxAddr then
    let base := u64 (r.base + r.size)
    let base := if base < r.base then 2 ^ 64 - 1 else base
    some (alignDown (subU64 (min base maxAddr) size) align)
  else none

/-- The search of `_lmb_alloc_base` over the banks, highest index first. -/
def allocBanks (used : List Region) (size align maxAddr : Nat) : List Region → Option Nat
  | [] => none
  | r :: rs =>
    match allocCandidate r size align maxAddr with
    | none => allocBanks used size align maxAddr rs
    | some base =>
      match allocTry used size align r.base base with
      | some base => some base
      | none => allocBanks used size align maxAddr rs

/-- `_lmb_alloc_base`: the result, the value of `*addr` and the map.  When the list cannot take the
region it returns 0 and leaves `*addr` alone. -/
def allocBase (env : Env) (lmb : Map) (size align addr flags : Nat) : Int × Nat × Map :=
  match allocBanks lmb.usedMem.rgn size align addr lmb.availableMem.rgn.reverse with
  | none => (-1, addr, lmb)
  | some base =>
    match addRegionFlags lmb.usedMem base size flags env.expand with
    | (ret, used) =>
      let lmb := { lmb with usedMem := used }
      if ret ≠ 0 then (0, addr, lmb)
      else
        let ret := mapUpdateNotify env lmb flags
        if ret ≠ 0 then (ret, addr, lmb) else (0, base, lmb)

def allocAddr (env : Env) (lmb : Map) (base size flags : Nat) : Int × Map :=
  match overlapChecks base size lmbNooverwrite true lmb.availableMem.rgn 0 with
  | none => (-einval, lmb)
  | some rgn =>
    let r := entry lmb.availableMem.rgn rgn
    if addrsOverlap r.base r.size (subU64 (base + size) 1) 1 then reserve env lmb base size flags
    else (-einval, lmb)

/-- `lmb_alloc_mem`: the result, the value of `*addr` and the map. -/
def allocMem (env : Env) (lmb : Map) (type : MemType) (align addr size flags : Nat) :
    Int × Nat × Map :=
  if size = 0 then (0, addr, lmb)
  else
    match type with
    | .allocAny => allocBase env lmb size align lmbAllocAnywhere flags
    | .allocMax => allocBase env lmb size align addr flags
    | .allocAddr =>
      match allocAddr env lmb addr size flags with
      | (ret, lmb) => (ret, addr, lmb)
    | .invalid => (-1, addr, lmb)

inductive Op
  | add (base size : Nat)
  | reserve (base size flags : Nat)
  | alloc (type : MemType) (align addr size flags : Nat)
  | free (base size flags : Nat)
  deriving DecidableEq, Repr

def Op.run (env : Env) (lmb : Map) : Op → Map
  | .add base size => (MtkBoot.Lmb.add env lmb base size).2
  | .reserve base size flags => (MtkBoot.Lmb.reserve env lmb base size flags).2
  | .alloc type align addr size flags => (allocMem env lmb type align addr size flags).2.2
  | .free base size flags => (MtkBoot.Lmb.free env lmb base size flags).2

end MtkBoot.Lmb
