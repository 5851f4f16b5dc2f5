import MtkBoot.Bloblist.Model

/-! A list from an earlier stage.  `bloblist_check` looks at the header and the checksum but at no
record, so that a record can be its own successor, or end outside the list. -/

namespace MtkBoot.Bloblist

open Lib Option Nat

/-- `table_compute_checksum`, whose length is an `int`. -/
def tableComputeChecksum (mem : Mem) (len : Nat) : UInt8 :=
  if len < 2 ^ 31 then (bytesAt mem 0 len).foldl (· - ·) 0 else 0

def calcChksum (mem : Mem) (used : Nat) : UInt8 := tableComputeChecksum mem used + mem 4

/-- `bloblist_check`: the list it accepts. -/
def check (addr size : Nat) (mem : Mem) : Option State :=
  let used := getU32 mem 8
  let total := getU32 mem 12
  if getU32 mem 0 ≠ 0x4a0fb10b then none
  else if mem 5 ≠ 1 then none
  else if total = 0 ∨ size ≠ 0 ∧ size < total then none
  else if total < used then none
  else if (mem 6).toNat ≠ hdrSize then none
  else if mem 4 ≠ calcChksum mem used then none
  else some ⟨addr, (mem 7).toNat, used, total, mem⟩

section

variable (b : State)

/-- The record that `foreach_rec` comes to after `n` others. -/
def visit : Nat → Option Nat
  | 0 => firstBlob b
  | n + 1 => (visit n).bind (nextBlob b)

/-- The sizes of a record add up to 0, and its data is aligned. -/
def Stuck (rec : Nat) : Prop :=
  u32 (recHdrSize b rec + recSize b rec) = 0 ∧ (rec + recHdrSize b rec) % 2 ^ (b.alignLog2 % 32) = 0

def Inside (rec : Nat) : Prop := rec + recHdrSize b rec + recSize b rec ≤ b.used

instance (rec : Nat) : Decidable (Stuck b rec) := inferInstanceAs (Decidable (_ ∧ _))

instance (rec : Nat) : Decidable (Inside b rec) := inferInstanceAs (Decidable (_ ≤ _))

def FirstOfTag (n rec : Nat) : Prop := ∀ m < n, ∀ r, visit b m = some r → recTag b r ≠ recTag b rec

end

variable {b : State} {rec n m tag fuel : Nat} {found : Option Nat}

theorem nextBlob_some {r : Nat} (h : nextBlob b rec = some r) :
    r = blobEndOfs b rec ∧ r < b.used := by
  obtain ⟨-, hnone⟩ | ⟨hlt, hsome⟩ := ite_eq_iff.mp h
  · cases hnone
  · cases hsome
    exact ⟨rfl, not_le.mp hlt⟩

theorem visit_lt (h : visit b n = some rec) : rec < b.used := by
  cases n with
  | zero =>
    obtain ⟨-, hnone⟩ | ⟨hlt, hsome⟩ := ite_eq_iff.mp h
    · cases hnone
    · cases hsome
      exact not_le.mp hlt
  | succ n =>
    obtain ⟨r, -, hr⟩ := bind_eq_some_iff.mp h
    exact (nextBlob_some hr).2

theorem visit_isSome (h : (visit b n).isSome) (hm : m ≤ n) : (visit b m).isSome := by
  induction hm with
  | refl => exact h
  | step _ ih =>
    obtain ⟨r, hr⟩ := isSome_iff_exists.mp h
    obtain ⟨r', hr', -⟩ := bind_eq_some_iff.mp hr
    exact ih (by simp [hr'])

theorem le_alignUp {x a : Nat} (ha : 0 < a) : x ≤ alignUp x a := by
  have hdiv := div_add_mod (x + a - 1) a
  have hmod := mod_lt (x + a - 1) ha
  rw [alignUp, mul_comm]
  omega

theorem alignUp_eq_iff {x a : Nat} (ha : 0 < a) : alignUp x a = x ↔ x % a = 0 := by
  constructor
  · intro h
    rw [← h, alignUp]
    exact Nat.mul_mod_left _ a
  · intro h
    obtain ⟨q, rfl⟩ := Nat.dvd_of_mod_eq_zero h
    rw [alignUp, Nat.add_sub_assoc ha, Nat.mul_add_div ha, Nat.div_eq_of_lt (by omega), add_zero,
      mul_comm]

theorem Stuck.blobEndOfs (h : Stuck b rec) : blobEndOfs b rec = rec := by
  have halign := (alignUp_eq_iff (Nat.two_pow_pos _)).mpr h.2
  rw [Bloblist.blobEndOfs, h.1, add_zero, halign, Nat.add_sub_cancel]

theorem lt_blobEndOfs (h : ¬Stuck b rec) : rec < blobEndOfs b rec := by
  have hpos := Nat.two_pow_pos (b.alignLog2 % 32)
  have hle := le_alignUp (x := rec + u32 (recHdrSize b rec + recSize b rec) + recHdrSize b rec) hpos
  rw [blobEndOfs]
  by_cases hsum : u32 (recHdrSize b rec + recSize b rec) = 0
  · have hne := mt (alignUp_eq_iff hpos).mp (mt (And.intro hsum) h)
    rw [hsum, add_zero] at hle ⊢
    omega
  · omega

theorem visit_stuck (h : visit b n = some rec) (hs : Stuck b rec) (k : Nat) :
    visit b (n + k) = some rec := by
  induction k with
  | zero => exact h
  | succ k ih =>
    have hlt := visit_lt h
    rw [← add_assoc, visit, ih, bind_some, nextBlob, hs.blobEndOfs, if_neg (by omega)]

theorem visit_succ (h : visit b n = some rec) : visit b (n + 1) = nextBlob b rec := by
  rw [visit, h, bind_some]

/-- A search that ends stops at the first record of its tag, or behind the last record. -/
theorem findFrom_spec (h : findFrom b tag fuel (visit b n) = some found) :
    ∃ m, visit b m = found ∧ (∀ rec ∈ found, recTag b rec = tag) ∧
      ∀ k, n ≤ k → k < m → ∀ rec, visit b k = some rec → recTag b rec ≠ tag := by
  generalize hv : visit b n = cur at h
  fun_induction findFrom b tag fuel cur generalizing n with
  | case1 =>
    cases h
    exact ⟨n, hv, nofun, by omega⟩
  | case2 => cases h
  | case3 fuel rec htag =>
    cases h
    refine ⟨n, hv, ?_, by omega⟩
    rintro _ ⟨⟩
    exact htag
  | case4 fuel rec htag ih =>
    obtain ⟨m, hm, hfound, hbefore⟩ := ih (visit_succ hv) h
    refine ⟨m, hm, hfound, fun k hk hkm r hr => ?_⟩
    rcases eq_or_lt_of_le hk with rfl | hlt
    · rw [hv] at hr
      cases hr
      exact htag
    · exact hbefore k hlt hkm r hr

theorem findFrom_ends (hns : ∀ n rec, visit b n = some rec → ¬Stuck b rec)
    (h : ∀ rec, visit b n = some rec → b.used ≤ rec + fuel) :
    ∃ found, findFrom b tag fuel (visit b n) = some found := by
  generalize hv : visit b n = cur
  fun_induction findFrom b tag fuel cur generalizing n with
  | case1 => exact ⟨none, rfl⟩
  | case2 rec => exact absurd (visit_lt hv) (not_lt.mpr (h rec hv))
  | case3 fuel rec htag => exact ⟨some rec, rfl⟩
  | case4 fuel rec htag ih =>
    refine ih (fun r hr => ?_) (visit_succ hv)
    have hend := (nextBlob_some ((visit_succ hv).symm.trans hr)).1
    have hlt := lt_blobEndOfs (hns n rec hv)
    have hused := h rec hv
    omega

/-- The search ends for every tag, inside the list. -/
def SearchSound (b : State) : Prop :=
  ∀ tag, ∃ fuel found, findFrom b tag fuel (firstBlob b) = some found ∧ ∀ rec ∈ found, Inside b rec

theorem searchSound_iff (addr size : Nat) (mem : Mem) :
    ∀ b ∈ check addr size mem, SearchSound b ↔
      ∀ n rec, visit b n = some rec → ¬Stuck b rec ∧ (FirstOfTag b n rec → Inside b rec) := by
  rintro b -
  constructor
  · intro hall n rec hv
    refine ⟨fun hs => ?_, fun hfirst => ?_⟩
    · -- No record has the tag `2^24`.
      obtain ⟨fuel, found, hfind, -⟩ := hall (2 ^ 24)
      obtain ⟨m, hm, htag, -⟩ := findFrom_spec (n := 0) hfind
      have hvm := visit_isSome (m := m) (n := n + m) (by rw [visit_stuck hv hs]; rfl) (by omega)
      rw [hm] at hvm
      obtain ⟨r, rfl⟩ := isSome_iff_exists.mp hvm
      have hr := htag r rfl
      unfold recTag at hr
      omega
    · obtain ⟨fuel, found, hfind, hin⟩ := hall (recTag b rec)
      obtain ⟨m, hm, htag, hbefore⟩ := findFrom_spec (n := 0) hfind
      have hmn : m ≤ n := not_lt.mp fun hlt => hbefore n (zero_le n) hlt rec hv rfl
      have hvm := visit_isSome (m := m) (by rw [hv]; rfl) hmn
      rw [hm] at hvm
      obtain ⟨r, rfl⟩ := isSome_iff_exists.mp hvm
      rcases eq_or_lt_of_le hmn with rfl | hlt
      · rw [hv] at hm
        cases hm
        exact hin rec rfl
      · exact absurd (htag r rfl) (hfirst m hlt r hm)
  · intro hcond tag
    obtain ⟨found, hfind⟩ : ∃ found, findFrom b tag b.used (visit b 0) = some found :=
      findFrom_ends (fun n rec hv => (hcond n rec hv).1) fun rec _ => le_add_left _ rec
    refine ⟨b.used, found, hfind, ?_⟩
    rintro rec ⟨⟩
    obtain ⟨m, hm, htag, hbefore⟩ := findFrom_spec (n := 0) hfind
    refine (hcond m rec hm).2 fun k hk r hr => ?_
    rw [htag rec rfl]
    exact hbefore k (zero_le k) hk r hr

def memOf (l : Bytes) (i : Nat) : UInt8 := l.getD i 0

/-- The header of a list of 40 bytes, all used, that aligns to eight bytes. -/
def fortyBytes (chksum : UInt8) : Bytes :=
  [0x0b, 0xb1, 0x0f, 0x4a, chksum, 1, 24, 3, 40, 0, 0, 0, 40, 0, 0, 0, 0, 0, 0, 0, 0, 0, 0, 0]

def oneRecord : Mem := memOf (fortyBytes 0x6e ++ [1, 0, 0, 8, 8, 0, 0, 0])

theorem searchSound_one : ∃ b, check 0x40000000 0 oneRecord = some b ∧ SearchSound b := by
  refine ⟨_, rfl, (searchSound_iff 0x40000000 0 oneRecord _ rfl).mpr ?_⟩
  rintro (_ | n) rec hv
  · cases hv
    exact ⟨by decide +kernel, fun _ => by decide +kernel⟩
  · have hnone := visit_isSome (m := 1) (n := n + 1) (by rw [hv]; rfl) (by omega)
    cases hnone

/-- A list that holds nothing but zeros is accepted, and the search for the tag 1 does not end. -/
theorem search_stuck : ∃ b, check 0x40000000 0 (memOf (fortyBytes 0x7f)) = some b ∧
    ∀ fuel, findFrom b 1 fuel (firstBlob b) = none := by
  refine ⟨_, rfl, fun fuel => ?_⟩
  induction fuel with
  | zero => rfl
  | succ fuel ih => exact ih

end MtkBoot.Bloblist
