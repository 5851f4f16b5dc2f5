import MtkBoot.Env.Table
import Mathlib.Data.Nat.Prime.Basic
import Mathlib.Data.Nat.ModEq
import Mathlib.Order.Interval.Finset.Nat

/-! The size of a table is a prime number, so the slots that a search tries are all slots, each of
them once. -/

namespace MtkBoot.Env

open Finset Nat

variable {fuel i j n : Nat}

theorem isprimeLoop_spec (hodd : n % 2 = 1) (hn : n < 2 ^ 32) (fuel : Nat) : ∀ d, d % 2 = 1 →
    3 ≤ d → d ≤ n → n < d + 2 * fuel → (∀ k, k % 2 = 1 → 3 ≤ k → k < d → n % k ≠ 0) →
      ∃ e, isprimeLoop n fuel d = e ∧ e % 2 = 1 ∧ 3 ≤ e ∧
        (∀ k, k % 2 = 1 → 3 ≤ k → k < e → n % k ≠ 0) ∧ (n ≤ e * e ∨ n % e = 0) := by
  induction fuel with
  | zero =>
    intro d _ _ hle hfuel _
    omega
  | succ fuel ih =>
    intro d hd hd3 hle hfuel hmin
    rw [isprimeLoop]
    by_cases hc : u32 (d * d) < n ∧ n % d ≠ 0
    · rw [if_pos hc]
      have hlt : d < n := by
        rcases lt_or_eq_of_le hle with h | rfl
        · exact h
        · exact absurd (mod_self d) hc.2
      rw [u32_of_lt (by omega)]
      refine ih (d + 2) (by omega) (by omega) (by omega) (by omega) ?_
      intro k hk hk3 hlt'
      by_cases hkd : k = d
      · exact hkd ▸ hc.2
      · exact hmin k hk hk3 (by omega)
    · rw [if_neg hc]
      refine ⟨d, rfl, hd, hd3, hmin, ?_⟩
      by_cases hdiv : n % d = 0
      · exact .inr hdiv
      · left
        have : u32 (d * d) ≤ d * d := mod_le _ _
        omega

theorem prime_of_isprime (hodd : n % 2 = 1) (hn : n < 2 ^ 32) (h : isprime n) :
    n = 1 ∨ n.Prime ∧ 5 ≤ n := by
  by_cases h1 : n = 1
  · exact .inl h1
  right
  obtain ⟨e, he, hodd', he3, hmin, hend⟩ := isprimeLoop_spec hodd hn n 3 (by decide) (by decide)
    (by omega) (by omega) (fun k _ _ _ => by omega)
  have hmod : n % e ≠ 0 := by
    rw [isprime, he] at h
    simpa using h
  have h3 : n ≠ 3 := by
    rintro rfl
    have : e = 3 := by
      by_contra hne
      exact hmin 3 (by decide) (by decide) (by omega) (by decide)
    rw [this] at hmod
    exact hmod (by decide)
  refine ⟨?_, by omega⟩
  by_contra hnp
  have hfac := minFac_sq_le_self (by omega) hnp
  have hprime := minFac_prime h1
  have hdvd := minFac_dvd n
  have hfodd : n.minFac % 2 = 1 := by
    rcases Prime.eq_two_or_odd hprime with h2 | h2
    · rw [h2] at hdvd
      omega
    · exact h2
  have hfge : 3 ≤ n.minFac := by
    have := hprime.two_le
    omega
  have hle : n.minFac ≤ e := by
    by_contra hgt
    have hlt : e * e < n.minFac ^ 2 := by
      rw [pow_two]
      exact mul_self_lt_mul_self (by omega)
    omega
  rcases lt_or_eq_of_le hle with hlt | heq
  · exact hmin _ hfodd hfge hlt (mod_eq_zero_of_dvd hdvd)
  · exact hmod (heq ▸ mod_eq_zero_of_dvd hdvd)

theorem primeFrom_spec : ∀ {nel size : Nat}, nel % 2 = 1 →
    primeFrom fuel nel = some size → size % 2 = 1 ∧ isprime (u32 size) := by
  induction fuel with
  | zero =>
    intro nel size _ h
    cases h
  | succ fuel ih =>
    intro nel size hodd h
    rw [primeFrom] at h
    split at h
    · rename_i hprime
      cases h
      exact ⟨hodd, hprime⟩
    · exact ih (by unfold u64; omega) h

/-- The search for a size ends: at the latest when the low 32 bits are one. -/
theorem primeFrom_isSome {k : Nat} : ∀ {nel : Nat}, k < fuel → u32 (nel + 2 * k) = 1 →
    (primeFrom fuel nel).isSome := by
  induction k generalizing fuel with
  | zero =>
    intro nel hlt hone
    obtain ⟨fuel, rfl⟩ := exists_eq_succ_of_ne_zero (show fuel ≠ 0 by omega)
    rw [primeFrom, show u32 nel = 1 from hone, if_pos (by decide)]
    rfl
  | succ k ih =>
    intro nel hlt hone
    obtain ⟨fuel, rfl⟩ := exists_eq_succ_of_ne_zero (show fuel ≠ 0 by omega)
    rw [primeFrom]
    split
    · rfl
    · refine ih (by omega) ?_
      unfold u32 u64 at *
      omega

/-- `hcreate_r` always ends, with a prime size of at least 5 or, when the search has passed the
largest 32-bit number, with size 1. -/
theorem hcreateR_spec (nel : Nat) : ∃ size, hcreateR nel = some ⟨size, 0, fun _ => .free⟩ ∧
    size < 2 ^ 32 ∧ (size = 1 ∨ size.Prime ∧ 5 ≤ size) := by
  have hodd : (nel ||| 1) % 2 = 1 := by
    rw [or_mod_two_eq_one]
    exact .inr rfl
  have hsome : (primeFrom (2 ^ 31 + 1) (nel ||| 1)).isSome := by
    refine primeFrom_isSome (k := (2 ^ 32 + 1 - (nel ||| 1) % 2 ^ 32) / 2) ?_ ?_
    · omega
    · unfold u32
      omega
  obtain ⟨n, hn⟩ := Option.isSome_iff_exists.mp hsome
  obtain ⟨hnodd, hprime⟩ := primeFrom_spec hodd hn
  refine ⟨u32 n, by rw [hcreateR, hn]; rfl, u32_lt n, ?_⟩
  exact prime_of_isprime (by unfold u32; omega) (u32_lt n) hprime

/-! ### The slots of a search -/

/-- The slot that a search with first hash `hval` tries after `j` others. -/
def probe (size hval : Nat) : Nat → Nat
  | 0 => hval
  | j + 1 => nextIdx size (secondHash size hval) (probe size hval j)

theorem firstHash_bounds {size : Nat} (hsize : 1 < size) (key : Str) :
    1 ≤ firstHash size key ∧ firstHash size key < size := by
  have := mod_lt (hashKey key) (show 0 < size by omega)
  unfold firstHash
  simp only
  split <;> omega

section Prime

variable {p h : Nat} (hp : p.Prime) (h5 : 5 ≤ p) (hlt : p < 2 ^ 32)

include h5 hlt

theorem secondHash_bounds : 1 ≤ secondHash p h ∧ secondHash p h < p := by
  unfold secondHash
  rw [subU32_of_le (by omega) hlt]
  have := mod_lt h (show 0 < p - 2 by omega)
  omega

theorem nextIdx_spec {d : Nat} (hd : 1 ≤ d) (hdp : d < p) (hi : 1 ≤ i) (hip : i ≤ p) :
    1 ≤ nextIdx p d i ∧ nextIdx p d i ≤ p ∧ (nextIdx p d i + d) % p = i % p := by
  unfold nextIdx
  split
  · have hval : subU32 (p + i) d = p + i - d := by
      unfold subU32
      omega
    rw [hval]
    refine ⟨by omega, by omega, ?_⟩
    rw [show p + i - d + d = i + p by omega, add_mod_right]
  · refine ⟨by omega, by omega, ?_⟩
    rw [show i - d + d = i by omega]

variable (h1 : 1 ≤ h) (hhp : h < p)

include h1 hhp

theorem probe_spec (j : Nat) :
    1 ≤ probe p h j ∧ probe p h j ≤ p ∧ (probe p h j + j * secondHash p h) % p = h % p := by
  induction j with
  | zero => exact ⟨h1, hhp.le, by rw [probe, zero_mul, add_zero]⟩
  | succ j ih =>
    obtain ⟨hlo, hhi, hmod⟩ := ih
    obtain ⟨hd, hdp⟩ := secondHash_bounds (h := h) h5 hlt
    obtain ⟨hlo', hhi', hmod'⟩ := nextIdx_spec h5 hlt hd hdp hlo hhi
    refine ⟨hlo', hhi', ?_⟩
    rw [probe, succ_mul, add_comm (j * _), ← add_assoc, add_mod, hmod', ← add_mod, hmod]

include hp

theorem probe_injective (hi : i < p) (hj : j < p) (heq : probe p h i = probe p h j) : i = j := by
  obtain ⟨-, -, hmodi⟩ := probe_spec h5 hlt h1 hhp i
  obtain ⟨-, -, hmodj⟩ := probe_spec h5 hlt h1 hhp j
  obtain ⟨hd, hdp⟩ := secondHash_bounds (h := h) h5 hlt
  have hsum : probe p h j + i * secondHash p h ≡ probe p h j + j * secondHash p h [MOD p] := by
    rw [heq] at hmodi
    exact hmodi.trans hmodj.symm
  have hmul := ModEq.add_left_cancel' _ hsum
  have hcop := Coprime.gcd_eq_one (coprime_of_lt_prime (by omega) hdp hp)
  exact (ModEq.cancel_right_of_coprime hcop hmul).eq_of_lt_of_lt hi hj

theorem probe_surjective (hlo : 1 ≤ i) (hhi : i ≤ p) : ∃ j < p, probe p h j = i := by
  have hsub : (range p).image (probe p h) ⊆ Icc 1 p := by
    intro x hx
    obtain ⟨j, -, rfl⟩ := mem_image.mp hx
    obtain ⟨h1', h2', -⟩ := probe_spec h5 hlt h1 hhp j
    exact mem_Icc.mpr ⟨h1', h2'⟩
  have hcard : ((range p).image (probe p h)).card = p := by
    rw [Finset.card_image_of_injOn, card_range]
    intro a ha b hb heq
    exact probe_injective hp h5 hlt h1 hhp (by simpa using ha) (by simpa using hb) heq
  have heq := eq_of_subset_of_card_le hsub (by rw [hcard, card_Icc]; omega)
  have hmem : i ∈ (range p).image (probe p h) := by
    rw [heq]
    exact mem_Icc.mpr ⟨hlo, hhi⟩
  obtain ⟨j, hj, hji⟩ := mem_image.mp hmem
  exact ⟨j, mem_range.mp hj, hji⟩

theorem probe_eq_first (hj : 0 < j) (hjp : j ≤ p) : probe p h j = h ↔ j = p := by
  constructor
  · intro heq
    rcases lt_or_eq_of_le hjp with hlt' | rfl
    · have := probe_injective hp h5 hlt h1 hhp (i := j) (j := 0) hlt' (by omega) heq
      omega
    · rfl
  · rintro rfl
    obtain ⟨hlo, hhi, hmod⟩ := probe_spec h5 hlt h1 hhp j
    rw [add_mul_mod_self_left, mod_eq_of_lt hhp] at hmod
    rcases lt_or_eq_of_le hhi with hlt' | heq
    · rwa [mod_eq_of_lt hlt'] at hmod
    · rw [heq, mod_self] at hmod
      omega

end Prime

end MtkBoot.Env
