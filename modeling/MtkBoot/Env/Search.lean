import MtkBoot.Env.Probe

/-! What a search of the table has seen when it ends. -/

namespace MtkBoot.Env

open Found Nat

structure SizeOk (size : Nat) : Prop where
  lt : size < 2 ^ 32
  prime : size = 1 ∨ size.Prime ∧ 5 ≤ size

theorem firstHash_one (key : Str) : firstHash 1 key = 1 := by simp [firstHash, mod_one]

theorem SizeOk.firstHash {size : Nat} (h : SizeOk size) (key : Str) :
    1 ≤ firstHash size key ∧ firstHash size key ≤ size := by
  rcases h.prime with rfl | ⟨-, h5⟩
  · rw [firstHash_one]
    exact ⟨le_refl 1, le_refl 1⟩
  · obtain ⟨h1, h2⟩ := firstHash_bounds (show 1 < size by omega) key
    exact ⟨h1, h2.le⟩

def Htab.slotAt (t : Htab) (key : Str) (j : Nat) : Nat := probe t.size (firstHash t.size key) j

theorem SizeOk.slotAt {t : Htab} (h : SizeOk t.size) (key : Str) {j : Nat} (hj : j < t.size) :
    1 ≤ t.slotAt key j ∧ t.slotAt key j ≤ t.size := by
  rcases h.prime with hone | ⟨-, h5⟩
  · obtain rfl : j = 0 := by omega
    exact h.firstHash key
  · obtain ⟨h1, h2⟩ := firstHash_bounds (show 1 < t.size by omega) key
    obtain ⟨hlo, hhi, -⟩ := probe_spec h5 h.lt h1 h2 j
    exact ⟨hlo, hhi⟩

theorem SizeOk.exists_slotAt {t : Htab} (h : SizeOk t.size) (key : Str) {i : Nat} (hlo : 1 ≤ i)
    (hhi : i ≤ t.size) : ∃ j < t.size, t.slotAt key j = i := by
  unfold Htab.slotAt
  rcases h.prime with hone | ⟨hp, h5⟩
  · refine ⟨0, by omega, ?_⟩
    rw [hone, firstHash_one]
    exact (show i = 1 by omega).symm
  · obtain ⟨h1, h2⟩ := firstHash_bounds (show 1 < t.size by omega) key
    exact probe_surjective hp h5 h.lt h1 h2 hlo hhi

/-- A search has passed `n` slots without finding the key or a free slot; `firstDeleted` is the
first deleted one among them. -/
structure Passed (t : Htab) (key : Str) (n firstDeleted : Nat) : Prop where
  busy : ∀ j < n, t.table (t.slotAt key j) ≠ .free
  other : ∀ j < n, (t.table (t.slotAt key j)).holds (firstHash t.size key) key = false
  noneDeleted : firstDeleted = 0 → ∀ j < n, t.table (t.slotAt key j) ≠ .deleted
  deleted : firstDeleted ≠ 0 → ∃ j < n, firstDeleted = t.slotAt key j ∧
    t.table firstDeleted = .deleted

section Passing

variable {t : Htab} {key : Str} {n firstDeleted : Nat}

theorem Passed.next (h : Passed t key n firstDeleted) (hpos : 1 ≤ t.slotAt key n)
    (hbusy : t.table (t.slotAt key n) ≠ .free)
    (hother : (t.table (t.slotAt key n)).holds (firstHash t.size key) key = false) :
    Passed t key (n + 1) (if t.table (t.slotAt key n) = .deleted ∧ firstDeleted = 0
      then t.slotAt key n else firstDeleted) := by
  constructor
  · intro j hj
    rcases Nat.lt_succ_iff_lt_or_eq.mp hj with hj | rfl
    · exact h.busy j hj
    · exact hbusy
  · intro j hj
    rcases Nat.lt_succ_iff_lt_or_eq.mp hj with hj | rfl
    · exact h.other j hj
    · exact hother
  · intro hzero j hj
    split at hzero
    · omega
    · rename_i hcond
      rcases Nat.lt_succ_iff_lt_or_eq.mp hj with hj | rfl
      · exact h.noneDeleted hzero j hj
      · exact fun hdel => hcond ⟨hdel, hzero⟩
  · intro hne
    split at hne
    · rename_i hcond
      rw [if_pos hcond]
      exact ⟨n, Nat.lt_succ_self n, rfl, hcond.1⟩
    · rename_i hcond
      rw [if_neg hcond]
      obtain ⟨j, hj, hslot⟩ := h.deleted hne
      exact ⟨j, by omega, hslot⟩

/-- A search that ends without the key has passed some slots and met a free one, or has passed them
all. -/
structure Missed (t : Htab) (key : Str) (idx firstDeleted : Nat) : Prop where
  passed : ∃ n ≤ t.size, Passed t key n firstDeleted ∧
    (n < t.size → idx = t.slotAt key n ∧ t.table idx = .free)

theorem searchLoop_absent (hp : t.size.Prime) (h5 : 5 ≤ t.size) (hlt : t.size < 2 ^ 32)
    (fuel : Nat) : ∀ (j fd : Nat), j < t.size → j + fuel = t.size → Passed t key (j + 1) fd →
      ∀ idx fd', searchLoop t key (firstHash t.size key) (secondHash t.size (firstHash t.size key))
        fuel (t.slotAt key j) fd = .absent idx fd' → Missed t key idx fd' := by
  obtain ⟨h1, h2⟩ := firstHash_bounds (show 1 < t.size by omega) key
  induction fuel with
  | zero =>
    intro j fd hj hfuel
    omega
  | succ fuel ih =>
    intro j fd hj hfuel hpassed idx fd' hloop
    have hnext : nextIdx t.size (secondHash t.size (firstHash t.size key)) (t.slotAt key j) =
        t.slotAt key (j + 1) := rfl
    have hback : t.slotAt key (j + 1) = firstHash t.size key ↔ j + 1 = t.size :=
      probe_eq_first hp h5 hlt h1 h2 (succ_pos j) hj
    have hpos : 1 ≤ t.slotAt key (j + 1) := (probe_spec h5 hlt h1 h2 (j + 1)).1
    rw [searchLoop] at hloop
    simp only [hnext] at hloop
    split at hloop
    · obtain ⟨rfl, rfl⟩ := absent.inj hloop
      exact ⟨⟨j + 1, hj, hpassed, by omega⟩⟩
    have hj' : j + 1 < t.size := by omega
    obtain ⟨hholds, hloop⟩ := of_guard hloop nofun
    split at hloop
    · rename_i hfree
      obtain ⟨rfl, rfl⟩ := absent.inj hloop
      have hnot : ¬(t.table (t.slotAt key (j + 1)) = .deleted ∧ fd = 0) := by
        rw [hfree]
        exact fun h => by cases h.1
      rw [if_neg hnot]
      exact ⟨⟨j + 1, hj, hpassed, fun _ => ⟨rfl, hfree⟩⟩⟩
    · rename_i hbusy
      have hstep := hpassed.next hpos hbusy (Bool.eq_false_of_not_eq_true hholds)
      exact ih (j + 1) _ hj' (by omega) hstep idx fd' hloop

theorem search_absent (hsize : SizeOk t.size) (hzero : t.table 0 = .free) {idx fd : Nat}
    (h : search t key = .absent idx fd) : Missed t key idx fd := by
  have hpos := (hsize.firstHash key).1
  rw [search] at h
  simp only at h
  split at h
  · rename_i hfree
    obtain ⟨rfl, rfl⟩ := absent.inj h
    refine ⟨⟨0, zero_le _, ⟨fun j hj => ?_, fun j hj => ?_, fun _ j hj => ?_, fun h => ?_⟩,
      fun _ => ⟨rfl, hfree⟩⟩⟩
    · omega
    · omega
    · omega
    · exact absurd rfl h
  rename_i hbusy
  obtain ⟨hholds, h⟩ := of_guard h nofun
  have hnone : Passed t key 0 0 :=
    ⟨fun j hj => by omega, fun j hj => by omega, fun _ j hj => by omega, fun h => absurd rfl h⟩
  have hfirst := hnone.next hpos hbusy (Bool.eq_false_of_not_eq_true hholds)
  simp only [and_true] at hfirst
  rcases hsize.prime with hone | ⟨hp, h5⟩
  · -- the only slot has been passed, and the next step leaves the table at slot zero
    have hnext : nextIdx t.size (secondHash t.size (firstHash t.size key)) (firstHash t.size key) =
        0 := by
      rw [hone, firstHash_one]
      decide
    have hne : ¬0 = firstHash t.size key := by omega
    rw [hone, searchLoop, ← hone] at h
    simp only [hnext, hne, hzero, if_false, Slot.holds, reduceCtorEq, false_and, if_true,
      Bool.false_eq_true] at h
    obtain ⟨rfl, rfl⟩ := absent.inj h
    exact ⟨⟨1, hone.ge, hfirst, by omega⟩⟩
  · exact searchLoop_absent hp h5 hsize.lt t.size 0 _ (by omega) (zero_add _) hfirst idx fd h

theorem searchLoop_at (hval hval2 : Nat) (fuel : Nat) : ∀ (i fd idx : Nat),
    searchLoop t key hval hval2 fuel i fd = .at idx → (t.table idx).holds hval key := by
  induction fuel with
  | zero =>
    intro i fd idx h
    cases h
  | succ fuel ih =>
    intro i fd idx h
    rw [searchLoop] at h
    simp only at h
    split at h
    · cases h
    split at h
    · rename_i hholds
      obtain rfl := at.inj h
      exact hholds
    split at h
    · cases h
    · exact ih _ _ idx h

theorem search_at {idx : Nat} (h : search t key = .at idx) :
    ∃ data, t.table idx = .live (firstHash t.size key) ⟨key, data⟩ := by
  have hholds : (t.table idx).holds (firstHash t.size key) key := by
    rw [search] at h
    simp only at h
    split at h
    · cases h
    split at h
    · rename_i hholds
      obtain rfl := at.inj h
      exact hholds
    · exact searchLoop_at _ _ _ _ _ idx h
  cases hslot : t.table idx with
  | free => simp [hslot, Slot.holds] at hholds
  | deleted => simp [hslot, Slot.holds] at hholds
  | live used entry =>
    obtain ⟨k, data⟩ := entry
    simp only [hslot, Slot.holds, Bool.and_eq_true, beq_iff_eq] at hholds
    obtain ⟨rfl, rfl⟩ := hholds
    exact ⟨data, rfl⟩

end Passing

end MtkBoot.Env
