import Mathlib.Tactic.Ring

/-! Aligned blocks of addresses. -/

namespace MtkBoot.Lib

open Nat

variable {b d i n v w x : Nat}

theorem add_le_of_aligned (hv : d ∣ v) (hw : d ∣ w) (h : v < w) : v + d ≤ w := by
  have hle := Nat.le_of_dvd (Nat.sub_pos_of_lt h) (Nat.dvd_sub hw hv)
  omega

theorem div_of_aligned (hb : 0 < b) (hv : b ∣ v) (hlo : v ≤ x) (hhi : x < v + b) :
    x / b = v / b := by
  obtain ⟨q, rfl⟩ := hv
  rw [Nat.mul_div_cancel_left q hb]
  apply Nat.div_eq_of_lt_le
  · rw [mul_comm]
    exact hlo
  · rw [Nat.succ_mul, mul_comm]
    exact hhi

theorem mod_of_aligned (hb : 0 < b) (hv : b ∣ v) (hlo : v ≤ x) (hhi : x < v + b) :
    x % b = x - v := by
  have hmod := Nat.mod_add_div x b
  rw [div_of_aligned hb hv hlo hhi, Nat.mul_div_cancel' hv] at hmod
  omega

theorem floor_le (b x : Nat) : x / b * b ≤ x := div_mul_le_self x b

theorem lt_floor_add (hb : 0 < b) (x : Nat) : x < x / b * b + b := by
  have hlt := lt_div_mul_add hb (a := x)
  exact hlt

theorem aligned_unique (hb : 0 < b) (hv : b ∣ v) (hw : b ∣ w) (hvx : v ≤ x) (hxv : x < v + b)
    (hwx : w ≤ x) (hxw : x < w + b) : v = w := by
  have h1 := div_of_aligned hb hv hvx hxv
  have h2 := div_of_aligned hb hw hwx hxw
  rw [← Nat.div_mul_cancel hv, ← Nat.div_mul_cancel hw, ← h1, ← h2]

theorem index_of_aligned (hb : 0 < b) (hv : n * b ∣ v) (hi : i < n) (hlo : v + i * b ≤ x)
    (hhi : x < v + i * b + b) : x / b % n = i := by
  obtain ⟨q, rfl⟩ := hv
  have hstart : b ∣ n * b * q + i * b := ⟨n * q + i, by ring⟩
  rw [div_of_aligned hb hstart hlo hhi]
  have hdiv : (n * b * q + i * b) / b = i + n * q := by
    apply Nat.div_eq_of_eq_mul_left hb
    ring
  rw [hdiv, Nat.add_mul_mod_self_left, Nat.mod_eq_of_lt hi]

theorem index_spec (hb : 0 < b) (hv : n * b ∣ v) (hlo : v ≤ x) (hhi : x < v + n * b) :
    v + x / b % n * b ≤ x ∧ x < v + x / b % n * b + b := by
  obtain ⟨q, rfl⟩ := hv
  have hlt : (x - n * b * q) / b < n := by
    rw [div_lt_iff_lt_mul hb]
    omega
  have hle := floor_le b (x - n * b * q)
  have hend := lt_floor_add hb (x - n * b * q)
  rw [index_of_aligned hb (Dvd.intro q rfl) hlt (by omega) (by omega)]
  omega

theorem block_end_le (hi : i < n) : v + i * b + b ≤ v + n * b := by
  have hle := mul_le_mul_right b (succ_le_of_lt hi)
  rw [succ_mul] at hle
  omega

end MtkBoot.Lib
