import MtkBoot.Lmb.Alloc
import MtkBoot.Lmb.Merge

/-! The representation invariant of a region list when a region may end at `2^64`: sorted,
non-empty, disjoint regions. -/

namespace MtkBoot.Lmb

open MtkBoot.Lib Region

/-- Sorted by base, without empty regions, and pairwise disjoint. -/
structure SortedDisjoint (l : List Region) : Prop where
  sorted : l.Pairwise fun r s => r.base < s.base
  nonempty : ∀ r ∈ l, 0 < r.size
  disjoint : l.Pairwise fun r s => r.stop ≤ s.base ∨ s.stop ≤ r.base

/-- Sorted, non-empty and disjoint regions within the address space.  Sizes are 64-bit words. -/
structure Rep (l : List Region) : Prop where
  sorted : SortedDisjoint l
  word : ∀ r ∈ l, r.size < 2 ^ 64
  bounded : ∀ r ∈ l, r.stop ≤ 2 ^ 64

structure Map.Rep (lmb : Map) : Prop where
  available : Lmb.Rep lmb.availableMem.rgn
  used : Lmb.Rep lmb.usedMem.rgn

section

variable {l : List Region}

instance : Decidable (SortedDisjoint l) :=
  decidable_of_iff (_ ∧ _ ∧ _) ⟨fun h => ⟨h.1, h.2.1, h.2.2⟩, fun h => ⟨h.1, h.2, h.3⟩⟩

instance : Decidable (Rep l) :=
  decidable_of_iff (SortedDisjoint l ∧ _ ∧ _)
    ⟨fun h => ⟨h.1, h.2.1, h.2.2⟩, fun h => ⟨h.1, h.2, h.3⟩⟩

instance (lmb : Map) : Decidable lmb.Rep :=
  decidable_of_iff (_ ∧ _) ⟨fun h => ⟨h.1, h.2⟩, fun h => ⟨h.1, h.2⟩⟩

theorem Rep.ordered (h : Rep l) : Ordered base stop l := by
  refine ⟨fun r hr => ?_, ?_⟩
  · have := h.sorted.nonempty r hr
    unfold stop
    omega
  · refine List.Pairwise.imp_of_mem ?_ (h.sorted.sorted.and h.sorted.disjoint)
    rintro r s hr hs ⟨hlt, hdisj⟩
    unfold stop at hdisj ⊢
    omega

theorem rep_iff : Rep l ↔ Ordered base stop l ∧ ∀ r ∈ l, r.size < 2 ^ 64 ∧ r.stop ≤ 2 ^ 64 := by
  refine ⟨fun h => ⟨h.ordered, fun r hr => ⟨h.word r hr, h.bounded r hr⟩⟩, fun ⟨hord, h⟩ =>
    ⟨⟨hord.lt, fun r hr => ?_, hord.pairwise.imp .inl⟩, fun r hr => (h r hr).1,
      fun r hr => (h r hr).2⟩⟩
  have := hord.nonempty r hr
  unfold stop at this
  omega

theorem Wf.rep (h : Wf l) : Rep l := by
  refine rep_iff.mpr ⟨h.ordered, fun r hr => ?_⟩
  have := h.bounded r hr
  unfold stop at this ⊢
  omega

def Covered (l : List Region) (x : Nat) : Prop := ∃ r ∈ l, Within Region.base Region.stop r x

def Apart (l : List Region) (base size : Nat) : Prop :=
  ∀ r ∈ l, ¬(base < r.stop ∧ r.base < base + size)

theorem Rep.overlap_iff {base size : Nat} (h : Rep l) (hsize : 0 < size)
    (htop : base + size ≤ 2 ^ 64) {r : Region} (hr : r ∈ l) :
    addrsOverlap base size r.base r.size ↔ base < r.stop ∧ r.base < base + size :=
  Lmb.overlap_iff hsize htop (h.sorted.nonempty r hr) (h.bounded r hr)

theorem Rep.clear_iff {base size : Nat} (h : Rep l) (hsize : 0 < size)
    (htop : base + size ≤ 2 ^ 64) : Clear l base size ↔ Apart l base size := by
  constructor
  · intro hclear r hr hshare
    have := (h.overlap_iff hsize htop hr).mpr hshare
    rw [hclear r hr] at this
    cases this
  · intro hapart r hr
    rw [← Bool.not_eq_true, h.overlap_iff hsize htop hr]
    exact hapart r hr

theorem Rep.shrink {left right : List Region} {r r' : Region} (h : Rep (left ++ r :: right))
    (hsize : 0 < r'.size) (hbase : r.base ≤ r'.base) (hstop : r'.stop ≤ r.stop) :
    Rep (left ++ r' :: right) := by
  have hold : Ordered base stop (left ++ [r] ++ right) := by simpa using h.ordered
  obtain ⟨hleft, hright⟩ := h.ordered.sides
  refine rep_iff.mpr ⟨hold.replace (by unfold stop; omega)
    (fun x hx => (hleft x hx).trans hbase) fun x hx => hstop.trans (hright x hx), fun x hx => ?_⟩
  rcases mem_append_cons.mp hx with hx | rfl | hx
  · exact ⟨h.word x (by simp [hx]), h.bounded x (by simp [hx])⟩
  · have := h.word r (by simp)
    have := h.bounded r (by simp)
    unfold stop at *
    omega
  · exact ⟨h.word x (by simp [hx]), h.bounded x (by simp [hx])⟩

end

end MtkBoot.Lmb
