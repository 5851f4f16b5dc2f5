import MtkBoot.Lib.Links
import MtkBoot.Net.Holes

/-! A datagram cut into fragments, the runs of its fragments that are missing, and the list of holes
that stands for them. -/

namespace MtkBoot.Net

open Lib List

variable {arrived : Nat → Bool} {hs post pre : List (Nat × Nat)} {m : Nat} {x : Nat × Nat}

variable {i j a b : Nat}

/-- A datagram cut into `m` fragments at `c 1`, `c 2` and so on; the buffer size is that of the
configuration. -/
structure Cut (maxUdp : Nat) where
  m : Nat
  c : Nat → Nat
  zero : c 0 = 0
  mono : ∀ i < m, c i < c (i + 1)
  aligned : ∀ i < m, 8 ∣ c i
  fits : c m ≤ maxUdp
  large : 8 ≤ maxUdp
  small : maxUdp ≤ 65516

variable {maxUdp : Nat} {cut : Cut maxUdp} {D : Mem} {id : Nat}

namespace Cut

def frag (cut : Cut maxUdp) (D : Mem) (id j : Nat) : Frag :=
  ⟨id, cut.c j / 8, j + 1 ≠ cut.m, (List.range' (cut.c j) (cut.c (j + 1) - cut.c j)).map D⟩

theorem lt (cut : Cut maxUdp) (h : i < j) (hj : j ≤ cut.m) : cut.c i < cut.c j := by
  induction j with
  | zero => exact absurd h (Nat.not_lt_zero i)
  | succ j ih =>
    have hstep := cut.mono j (by omega)
    rcases eq_or_lt_of_le (Nat.le_of_lt_succ h) with rfl | hlt
    · exact hstep
    · exact lt_trans (ih hlt (by omega)) hstep

theorem le (cut : Cut maxUdp) (h : i ≤ j) (hj : j ≤ cut.m) : cut.c i ≤ cut.c j := by
  rcases eq_or_lt_of_le h with rfl | hlt
  · exact le_rfl
  · exact Nat.le_of_lt (cut.lt hlt hj)

theorem le_max (cut : Cut maxUdp) (hj : j ≤ cut.m) : cut.c j ≤ maxUdp :=
  le_trans (cut.le hj le_rfl) cut.fits

theorem c_u16 (cut : Cut maxUdp) (hj : j ≤ cut.m) : cut.c j < 2 ^ 16 := by
  have := cut.le_max hj
  have := cut.small
  omega

def block (cut : Cut maxUdp) (j : Nat) : Nat := cut.c j / 8

theorem block_mul (cut : Cut maxUdp) (hj : j < cut.m) : 8 * cut.block j = cut.c j :=
  Nat.mul_div_cancel' (cut.aligned j hj)

theorem block_lt (cut : Cut maxUdp) (h : i < j) (hj : j < cut.m) : cut.block i < cut.block j := by
  have := cut.lt h hj.le
  have := cut.block_mul hj
  have := cut.block_mul (lt_trans h hj)
  omega

theorem block_pos (cut : Cut maxUdp) (h : 0 < j) (hj : j < cut.m) : 0 < cut.block j :=
  lt_of_le_of_lt (Nat.zero_le _) (cut.block_lt h hj)

theorem block_u16 (cut : Cut maxUdp) (hj : j < cut.m) : cut.block j < 2 ^ 16 := by
  have := cut.block_mul hj
  have := cut.le_max hj.le
  have := cut.small
  omega

theorem add_eight_le (cut : Cut maxUdp) (h : i < j) (hj : j < cut.m) : cut.c i + 8 ≤ cut.c j := by
  have := cut.block_lt h hj
  have := cut.block_mul hj
  have := cut.block_mul (lt_trans h hj)
  omega

theorem count_le (cut : Cut maxUdp) : cut.m ≤ maxUdp / 8 + 1 := by
  have hblocks : ∀ j < cut.m, j ≤ cut.block j := by
    intro j hj
    induction j with
    | zero => exact Nat.zero_le _
    | succ j ih =>
      have := cut.block_lt (Nat.lt_add_one j) hj
      omega
  rcases Nat.eq_zero_or_pos cut.m with hm | hm
  · omega
  · have := hblocks (cut.m - 1) (by omega)
    have := cut.block_mul (by omega : cut.m - 1 < cut.m)
    have := cut.le_max (by omega : cut.m - 1 ≤ cut.m)
    omega

end Cut

/-! ## The holes -/

/-- Where a hole that ends before fragment `b` ends; the end of the datagram is not known before its
last fragment. -/
def Cut.holeEnd (cut : Cut maxUdp) (b : Nat) : Nat := if b = cut.m then 0xffff else cut.c b

/-- The missing fragments are those of the runs `hs`, in order and with a fragment between any two
of them. -/
structure Runs (m : Nat) (arrived : Nat → Bool) (hs : List (Nat × Nat)) : Prop where
  sorted : hs.Pairwise fun h h' => h.2 < h'.1
  run : ∀ h ∈ hs, h.1 < h.2 ∧ h.2 ≤ m
  missing : ∀ j < m, arrived j = false ↔ ∃ h ∈ hs, h.1 ≤ j ∧ j < h.2

def ids (cut : Cut maxUdp) (hs : List (Nat × Nat)) : List Nat := hs.map fun h => cut.block h.1

/-- The state after the fragments in `arrived`, some of which are missing. -/
structure Inv (cut : Cut maxUdp) (D : Mem) (id : Nat) (arrived : Nat → Bool) (hs : List (Nat × Nat))
  (s : State) : Prop where
  runs : Runs cut.m arrived hs
  nonempty : hs ≠ []
  linked : Linked (fun i => (getHole s.buf i).nextHole) (fun i => (getHole s.buf i).prevHole) 0
    (ids cut hs) 0
  first : s.firstHole = (ids cut hs).headD 0
  last : ∀ h ∈ hs, (getHole s.buf (cut.block h.1)).lastByte = cut.holeEnd h.2
  data : ∀ j < cut.m, arrived j = true → ∀ a, cut.c j ≤ a → a < cut.c (j + 1) → s.buf a = D a
  total : s.totalLen = if arrived (cut.m - 1) then cut.c cut.m else 0xffff
  ipId : s.ipId = id

namespace Runs

section

variable (h : Runs m arrived hs)
include h

theorem length_le : hs.length ≤ m := by
  obtain ⟨hsorted, hrun, -⟩ := h
  have hbound : ∀ lo, (∀ x ∈ hs, lo ≤ x.1) → lo ≤ m → lo + hs.length ≤ m := by
    induction hs with
    | nil => simp
    | cons x hs ih =>
      intro lo hlo hm
      obtain ⟨hx, hsorted⟩ := pairwise_cons.mp hsorted
      obtain ⟨hlt, hle⟩ := hrun x mem_cons_self
      have hx1 := hlo x mem_cons_self
      have := ih hsorted (fun y hy => hrun y (mem_cons_of_mem x hy)) (lo + 1)
        (fun y hy => by have := hx y hy; omega) (by omega)
      rw [length_cons]
      omega
  have := hbound 0 (fun _ _ => Nat.zero_le _) (Nat.zero_le _)
  omega

theorem pos_of_tail : ∀ x ∈ hs.tail, 0 < x.1 := by
  cases hs with
  | nil => simp
  | cons y hs =>
    intro x hx
    have := (pairwise_cons.mp h.sorted).1 x hx
    omega

theorem start_lt : ∀ x ∈ hs, x.1 < m := fun x hx => by
  have := h.run x hx
  omega

theorem start_missing (hx : x ∈ hs) : arrived x.1 = false :=
  (h.missing x.1 (h.start_lt x hx)).mpr ⟨x, hx, le_rfl, (h.run x hx).1⟩

end

end Runs

def pieces (a b j : Nat) : List (Nat × Nat) :=
  (if a < j then [(a, j)] else []) ++ if j + 1 < b then [(j + 1, b)] else []

theorem mem_pieces : x ∈ pieces a b j ↔ (a < j ∧ x = (a, j)) ∨ (j + 1 < b ∧ x = (j + 1, b)) := by
  rw [pieces, mem_append]
  split_ifs <;> simp [*]

theorem Runs.fill (h : Runs m arrived (pre ++ (a, b) :: post)) (ha : a ≤ j) (hb : j < b) :
    Runs m (Function.update arrived j true) (pre ++ (pieces a b j ++ post)) := by
  obtain ⟨hpre, hpost, hbefore⟩ := pairwise_append.mp h.sorted
  obtain ⟨hafter, hpost⟩ := pairwise_cons.mp hpost
  have hmem : ∀ x, x ∈ pre ++ (a, b) :: post ↔ x ∈ pre ∨ x = (a, b) ∨ x ∈ post := by simp
  have hmem' : ∀ x, x ∈ pre ++ (pieces a b j ++ post) ↔ x ∈ pre ∨ x ∈ pieces a b j ∨
    x ∈ post := by simp
  have hpreLt : ∀ x ∈ pre, x.2 < a := fun x hx => hbefore x hx _ mem_cons_self
  have hab : a < b ∧ b ≤ m := h.run (a, b) (by simp)
  refine ⟨?_, ?_, ?_⟩
  · refine pairwise_append.mpr ⟨hpre, pairwise_append.mpr ⟨?_, hpost, ?_⟩, ?_⟩
    · rw [pieces]
      split_ifs <;> simp
    · intro x hx y hy
      have := hafter y hy
      rcases mem_pieces.mp hx with ⟨hlt, rfl⟩ | ⟨hlt, rfl⟩ <;> simp only at this ⊢ <;> omega
    · intro x hx y hy
      have hxa := hpreLt x hx
      rcases mem_append.mp hy with hy | hy
      · rcases mem_pieces.mp hy with ⟨hlt, rfl⟩ | ⟨hlt, rfl⟩ <;> simp only <;> omega
      · exact hbefore x hx y (mem_cons_of_mem _ hy)
  · intro x hx
    rcases (hmem' x).mp hx with hx | hx | hx
    · exact h.run x ((hmem x).mpr (.inl hx))
    · rcases mem_pieces.mp hx with ⟨hlt, rfl⟩ | ⟨hlt, rfl⟩ <;> simp only <;> omega
    · exact h.run x ((hmem x).mpr (.inr (.inr hx)))
  · intro i hi
    by_cases hij : i = j
    · subst hij
      simp only [Function.update_self, Bool.true_eq_false, false_iff, not_exists, not_and]
      intro x hx hle
      rcases (hmem' x).mp hx with hx | hx | hx
      · have := hpreLt x hx
        omega
      · rcases mem_pieces.mp hx with ⟨hlt, rfl⟩ | ⟨hlt, rfl⟩ <;> simp only at hle ⊢ <;> omega
      · have := hafter x hx
        omega
    · rw [Function.update_of_ne hij, h.missing i hi]
      constructor
      · rintro ⟨x, hx, hxi⟩
        rcases (hmem x).mp hx with hx | rfl | hx
        · exact ⟨x, (hmem' x).mpr (.inl hx), hxi⟩
        · by_cases hlt : i < j
          · exact ⟨(a, j), (hmem' _).mpr (.inr (.inl (mem_pieces.mpr (.inl ⟨by omega, rfl⟩)))),
              hxi.1, hlt⟩
          · exact ⟨(j + 1, b),
              (hmem' _).mpr (.inr (.inl (mem_pieces.mpr (.inr ⟨by omega, rfl⟩)))), by omega, hxi.2⟩
        · exact ⟨x, (hmem' x).mpr (.inr (.inr hx)), hxi⟩
      · rintro ⟨x, hx, hxi⟩
        rcases (hmem' x).mp hx with hx | hx | hx
        · exact ⟨x, (hmem x).mpr (.inl hx), hxi⟩
        · refine ⟨(a, b), (hmem _).mpr (.inr (.inl rfl)), ?_⟩
          rcases mem_pieces.mp hx with ⟨hlt, rfl⟩ | ⟨hlt, rfl⟩ <;> simp only at hxi ⊢ <;> omega
        · exact ⟨x, (hmem x).mpr (.inr (.inr hx)), hxi⟩

theorem Runs.block_ne {arrived : Nat → Bool} {pre post : List (Nat × Nat)}
    (h : Runs cut.m arrived (pre ++ (a, b) :: post)) (ha : a ≤ i) (hb : i < b) {x : Nat × Nat}
    (hx : x ∈ pre ++ post) : cut.block x.1 ≠ cut.block i := by
  have hbm : b ≤ cut.m := (h.run (a, b) (by simp)).2
  obtain ⟨-, hpost, hbefore⟩ := pairwise_append.mp h.sorted
  rcases mem_append.mp hx with hx | hx
  · have hxa : x.2 < a := hbefore x hx _ mem_cons_self
    have := (h.run x (mem_append_left _ hx)).1
    exact ne_of_lt (cut.block_lt (by omega) (by omega))
  · have hbx : b < x.1 := (pairwise_cons.mp hpost).1 x hx
    have hxm := h.start_lt x (mem_append_right _ (mem_cons_of_mem _ hx))
    exact ne_of_gt (cut.block_lt (by omega) hxm)

theorem findHole_eq (start : Nat) {buf : Mem} {p fuel : Nat} (hne : hs ≠ [])
    (hlinked : Linked (fun i => (getHole buf i).nextHole) (fun i => (getHole buf i).prevHole)
      p (ids cut hs) 0) (hlast : ∀ h ∈ hs, (getHole buf (cut.block h.1)).lastByte = cut.holeEnd h.2)
    (hpos : ∀ h ∈ hs.tail, 0 < cut.block h.1) (hfuel : hs.length ≤ fuel) :
    findHole buf start fuel ((ids cut hs).headD 0) =
      (hs.find? fun h => start ≤ cut.holeEnd h.2).map fun h => cut.block h.1 := by
  induction hs generalizing p fuel with
  | nil => exact absurd rfl hne
  | cons h hs ih =>
    obtain ⟨fuel, rfl⟩ : ∃ k, fuel = k + 1 := ⟨fuel - 1, by rw [length_cons] at hfuel; omega⟩
    obtain ⟨hnext, -, hrest⟩ := hlinked
    have hl := hlast h mem_cons_self
    show findHole buf start (fuel + 1) (cut.block h.1) = _
    rw [findHole, hl, find?_cons]
    by_cases hlt : cut.holeEnd h.2 < start
    · rw [if_pos hlt, decide_eq_false (by omega)]
      simp only [] at hnext
      rw [hnext]
      cases hs with
      | nil => rfl
      | cons h' hs =>
        have hh' := hpos h' mem_cons_self
        rw [show (List.map (fun h => cut.block h.1) (h' :: hs)).headD 0 = cut.block h'.1 from rfl,
          if_neg (by omega)]
        exact ih (cons_ne_nil _ _) hrest (fun x hx => hlast x (mem_cons_of_mem h hx))
          (fun x hx => hpos x (mem_cons_of_mem _ hx)) (by simpa using hfuel)
    · rw [if_neg hlt, decide_eq_true (by omega)]
      rfl

end MtkBoot.Net
