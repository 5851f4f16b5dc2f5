import Mathlib.Data.List.Basic

/-! Doubly linked lists: nodes of any type, whose links are two functions. -/

namespace MtkBoot.Lib

open List

variable {ι : Type}

/-- The nodes `xs` are linked in this order, from `p` before the first to `q` after the last. -/
def Linked (next prev : ι → ι) : ι → List ι → ι → Prop
  | _, [], _ => True
  | p, x :: xs, q => next x = xs.headD q ∧ prev x = p ∧ Linked next prev x xs q

namespace Linked

variable {next prev next' prev' : ι → ι} {p q p' q' x : ι} {xs ys : List ι}

theorem append : Linked next prev p (xs ++ ys) q ↔
    Linked next prev p xs (ys.headD q) ∧ Linked next prev (xs.getLastD p) ys q := by
  induction xs generalizing p with
  | nil => simp [Linked]
  | cons x xs ih =>
    rw [cons_append, Linked, Linked, ih, getLastD_cons]
    have hhead : (xs ++ ys).headD q = xs.headD (ys.headD q) := by cases xs <;> rfl
    rw [hhead]
    exact ⟨fun ⟨h1, h2, h3, h4⟩ => ⟨⟨h1, h2, h3⟩, h4⟩, fun ⟨⟨h1, h2, h3⟩, h4⟩ => ⟨h1, h2, h3, h4⟩⟩

theorem congr (h : Linked next prev p xs q) (hnext : ∀ y ∈ xs, next' y = next y)
    (hprev : ∀ y ∈ xs, prev' y = prev y) : Linked next' prev' p xs q := by
  induction xs generalizing p with
  | nil => trivial
  | cons x xs ih =>
    obtain ⟨hn, hp, hrest⟩ := h
    exact ⟨(hnext x mem_cons_self).trans hn, (hprev x mem_cons_self).trans hp, ih hrest
      (fun y hy => hnext y (mem_cons_of_mem x hy)) fun y hy => hprev y (mem_cons_of_mem x hy)⟩

theorem relink_head (h : Linked next prev p (x :: xs) q) (hnext : ∀ y ∈ x :: xs, next' y = next y)
    (hx : prev' x = p') (hprev : ∀ y ∈ xs, prev' y = prev y) :
    Linked next' prev' p' (x :: xs) q := by
  obtain ⟨hn, -, hrest⟩ := h
  exact ⟨(hnext x mem_cons_self).trans hn, hx,
    hrest.congr (fun y hy => hnext y (mem_cons_of_mem x hy)) hprev⟩

theorem relink_last (h : Linked next prev p (xs ++ [x]) q) (hnext : ∀ y ∈ xs, next' y = next y)
    (hx : next' x = q') (hprev : ∀ y ∈ xs ++ [x], prev' y = prev y) :
    Linked next' prev' p (xs ++ [x]) q' := by
  obtain ⟨hxs, -, hp, -⟩ := append.mp h
  refine append.mpr ⟨hxs.congr hnext fun y hy => hprev y (mem_append_left _ hy), hx, ?_, trivial⟩
  exact (hprev x (mem_append_right _ mem_cons_self)).trans hp

theorem next_eq {pre post : List ι} (h : Linked next prev p (pre ++ x :: post) q) :
    next x = post.headD q :=
  (append.mp h).2.1

theorem prev_eq {pre post : List ι} (h : Linked next prev p (pre ++ x :: post) q) :
    prev x = pre.getLastD p :=
  (append.mp h).2.2.1

/-- A node is replaced by a list of nodes: besides their own links, the last node before and the
first node after are relinked. -/
theorem replace [DecidableEq ι] {pre post : List ι}
    (h : Linked next prev p (pre ++ x :: post) q) (mid : List ι) (hnodup : (pre ++ x :: post).Nodup)
    (hmid : Linked next' prev' (pre.getLastD p) mid (post.headD q))
    (hpreNext : ∀ y ∈ pre, next' y = if y = pre.getLastD p then (mid ++ post).headD q else next y)
    (hprePrev : ∀ y ∈ pre, prev' y = prev y) (hpostNext : ∀ y ∈ post, next' y = next y)
    (hpostPrev : ∀ y ∈ post, prev' y = if y = post.headD q then mid.getLastD (pre.getLastD p)
      else prev y) : Linked next' prev' p (pre ++ (mid ++ post)) q := by
  obtain ⟨hpre, -, -, hpost⟩ := append.mp h
  obtain ⟨hndPre, hndPost, -⟩ := nodup_append.mp hnodup
  refine append.mpr ⟨?_, append.mpr ⟨hmid, ?_⟩⟩
  · rcases pre.eq_nil_or_concat' with rfl | ⟨pre, l, rfl⟩
    · trivial
    · rw [getLastD_concat] at hpreNext
      refine hpre.relink_last (fun y hy => ?_) ((hpreNext l (by simp)).trans (if_pos rfl)) hprePrev
      have hne : y ≠ l := by
        rintro rfl
        exact (nodup_append.mp hndPre).2.2 y hy y mem_cons_self rfl
      exact (hpreNext y (mem_append_left _ hy)).trans (if_neg hne)
  · cases post with
    | nil => trivial
    | cons r post =>
      refine hpost.relink_head hpostNext ((hpostPrev r mem_cons_self).trans (if_pos rfl))
        fun y hy => ?_
      have hne : y ≠ r := by
        rintro rfl
        exact (nodup_cons.mp (nodup_cons.mp hndPost).2).1 hy
      exact (hpostPrev y (mem_cons_of_mem r hy)).trans (if_neg hne)

end Linked

end MtkBoot.Lib
