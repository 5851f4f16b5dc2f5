import Mathlib.Data.List.Basic
import Mathlib.Order.Lattice

/-! Lists of half-open spans that are non-empty, sorted and disjoint.  A run of neighbours can be
replaced by one span, and the points that the list covers follow. -/

namespace MtkBoot.Lib

open List

variable {α β : Type*} [LinearOrder β]
variable {a : α} {l left right : List α}

section

variable (lo hi : α → β)

/-- Every span of the list is non-empty, and each ends no later than the next begins. -/
structure Ordered (l : List α) : Prop where
  nonempty : ∀ a ∈ l, lo a < hi a
  pairwise : l.Pairwise fun a b => hi a ≤ lo b

def Within (a : α) (x : β) : Prop := lo a ≤ x ∧ x < hi a

end

variable {lo hi : α → β}

theorem Ordered.nil : Ordered lo hi ([] : List α) := ⟨by simp, List.Pairwise.nil⟩

theorem ordered_append {l1 l2 : List α} : Ordered lo hi (l1 ++ l2) ↔
    Ordered lo hi l1 ∧ Ordered lo hi l2 ∧ ∀ a ∈ l1, ∀ b ∈ l2, hi a ≤ lo b := by
  constructor
  · intro h
    obtain ⟨h1, h2, h12⟩ := pairwise_append.mp h.pairwise
    exact ⟨⟨fun a ha => h.nonempty a (by simp [ha]), h1⟩,
      ⟨fun a ha => h.nonempty a (by simp [ha]), h2⟩, h12⟩
  · rintro ⟨h1, h2, h12⟩
    refine ⟨fun a ha => ?_, pairwise_append.mpr ⟨h1.pairwise, h2.pairwise, h12⟩⟩
    rcases mem_append.mp ha with ha | ha
    · exact h1.nonempty a ha
    · exact h2.nonempty a ha

theorem ordered_cons : Ordered lo hi (a :: l) ↔ lo a < hi a ∧ Ordered lo hi l ∧
    ∀ b ∈ l, hi a ≤ lo b := by
  constructor
  · intro h
    obtain ⟨h1, h2⟩ := pairwise_cons.mp h.pairwise
    exact ⟨h.nonempty a (by simp), ⟨fun b hb => h.nonempty b (by simp [hb]), h2⟩, h1⟩
  · rintro ⟨ha, hl, hab⟩
    refine ⟨fun b hb => ?_, pairwise_cons.mpr ⟨hab, hl.pairwise⟩⟩
    rcases mem_cons.mp hb with rfl | hb
    · exact ha
    · exact hl.nonempty b hb

theorem mem_append_cons {x : α} : x ∈ left ++ a :: right ↔ x ∈ left ∨ x = a ∨ x ∈ right := by simp

theorem Ordered.sides (h : Ordered lo hi (left ++ a :: right)) :
    (∀ x ∈ left, hi x ≤ lo a) ∧ ∀ x ∈ right, hi a ≤ lo x := by
  obtain ⟨-, hright, hleft⟩ := ordered_append.mp h
  exact ⟨fun x hx => hleft x hx a (by simp), (ordered_cons.mp hright).2.2⟩

theorem Ordered.sublist {l' : List α} (h : Ordered lo hi l') (hs : l.Sublist l') :
    Ordered lo hi l :=
  ⟨fun a ha => h.nonempty a (hs.subset ha), h.pairwise.sublist hs⟩

/-- A run of neighbours replaced by one span that keeps clear of both sides. -/
theorem Ordered.replace {mid : List α} (h : Ordered lo hi (left ++ mid ++ right))
    (ha : lo a < hi a) (hleft : ∀ x ∈ left, hi x ≤ lo a) (hright : ∀ x ∈ right, hi a ≤ lo x) :
    Ordered lo hi (left ++ a :: right) := by
  rw [append_assoc, ordered_append, ordered_append] at h
  obtain ⟨hl, ⟨-, hr, -⟩, hlr⟩ := h
  refine ordered_append.mpr ⟨hl, ordered_cons.mpr ⟨ha, hr, hright⟩, fun x hx y hy => ?_⟩
  rcases mem_cons.mp hy with rfl | hy
  · exact hleft x hx
  · exact hlr x hx y (by simp [hy])

section

variable (h : Ordered lo hi l)
include h

theorem Ordered.lt : l.Pairwise fun a b => lo a < lo b :=
  h.pairwise.imp_of_mem fun ha _ hab => lt_of_lt_of_le (h.nonempty _ ha) hab

theorem Ordered.eq_of_within {b : α} {x : β} (ha : a ∈ l) (hb : b ∈ l)
    (hax : Within lo hi a x) (hbx : Within lo hi b x) : a = b := by
  induction l with
  | nil => simp at ha
  | cons c l ih =>
    obtain ⟨-, hl, hc⟩ := ordered_cons.mp h
    rcases mem_cons.mp ha with rfl | ha' <;> rcases mem_cons.mp hb with rfl | hb'
    · rfl
    · exact absurd (lt_of_lt_of_le hax.2 (hc b hb')) (not_lt.mpr hbx.1)
    · exact absurd (lt_of_lt_of_le hbx.2 (hc a ha')) (not_lt.mpr hax.1)
    · exact ih hl ha' hb'

theorem Ordered.split_lt (x : β) : ∃ mid right, l = mid ++ right ∧ (∀ a ∈ mid, lo a < x) ∧
    ∀ a ∈ right, x ≤ lo a := by
  induction l with
  | nil => exact ⟨[], [], rfl, by simp, by simp⟩
  | cons a l ih =>
    obtain ⟨ha, hl, hal⟩ := ordered_cons.mp h
    by_cases hx : lo a < x
    · obtain ⟨mid, right, rfl, hmid, hright⟩ := ih hl
      refine ⟨a :: mid, right, rfl, fun b hb => ?_, hright⟩
      rcases mem_cons.mp hb with rfl | hb
      · exact hx
      · exact hmid b hb
    · refine ⟨[], a :: l, rfl, by simp, fun b hb => ?_⟩
      rcases mem_cons.mp hb with rfl | hb
      · exact not_lt.mp hx
      · exact (not_lt.mp hx).trans (ha.le.trans (hal b hb))

theorem Ordered.le_getLast (hne : l ≠ []) (ha : a ∈ l) : hi a ≤ hi (l.getLast hne) := by
  induction l with
  | nil => exact absurd rfl hne
  | cons b l ih =>
    obtain ⟨-, hl, hbl⟩ := ordered_cons.mp h
    cases l with
    | nil => simp_all
    | cons c l =>
      rw [getLast_cons (by simp)]
      rcases mem_cons.mp ha with rfl | ha
      · have hlast := getLast_mem (l := c :: l) (by simp)
        exact (hbl _ hlast).trans (hl.nonempty _ hlast).le
      · exact ih hl (by simp) ha

end

end MtkBoot.Lib
