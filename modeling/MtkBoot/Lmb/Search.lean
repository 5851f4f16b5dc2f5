import MtkBoot.Lmb.Rep

/-! The search of `_lmb_alloc_base`: from the top of the highest bank downwards it jumps below each
reserved region it meets. -/

namespace MtkBoot.Lmb

open MtkBoot.Lib

variable {k maxAddr size x : Nat} {r : Region}

/-! ### The greatest number with a property -/

/-- The greatest number with the property, or `none` when no number has it. -/
def Highest (P : Nat → Prop) : Option Nat → Prop
  | some p => IsGreatest {q | P q} p
  | none => ∀ q, ¬P q

theorem Highest.congr {P Q : Nat → Prop} {o : Option Nat} (h : Highest P o) (hPQ : ∀ q, P q ↔ Q q) :
    Highest Q o := by
  obtain rfl : P = Q := funext fun q => propext (hPQ q)
  exact h

theorem Highest.orElse {P Q : Nat → Prop} {a b : Option Nat} (ha : Highest P a) (hb : Highest Q b)
    (hPQ : ∀ p q, P p → Q q → q ≤ p) : Highest (fun x => P x ∨ Q x) (a.or b) := by
  cases a with
  | some p =>
    refine ⟨.inl ha.1, fun q hq => ?_⟩
    rcases hq with hq | hq
    · exact ha.2 hq
    · exact hPQ p q ha.1 hq
  | none => exact hb.congr fun q => ⟨.inr, fun hq => hq.resolve_left (ha q)⟩

theorem alignDown_two_pow (hx : x < 2 ^ 64) (hk : k < 64) :
    alignDown x (2 ^ k) = x / 2 ^ k * 2 ^ k := by
  have hpow : 2 ^ k < 2 ^ 64 := Nat.pow_lt_pow_right (by omega) hk
  have hpos : 0 < 2 ^ k := Nat.two_pow_pos k
  have hmask : 2 ^ 64 - 1 - subU64 (2 ^ k) 1 = 2 ^ 64 - ((2 ^ k - 1) + 1) := by
    rw [subU64_one hpos hpow.le]
    omega
  have hand : alignDown x (2 ^ k) = x &&& (2 ^ 64 - ((2 ^ k - 1) + 1)) := congrArg (x &&& ·) hmask
  apply Nat.eq_of_testBit_eq
  intro i
  rw [hand, Nat.testBit_and, Nat.testBit_two_pow_sub_succ (by omega), Nat.testBit_two_pow_sub_one,
    Nat.testBit_mul_two_pow]
  by_cases hi : i < k
  · simp [hi]
  have hdiv : (x / 2 ^ k).testBit (i - k) = x.testBit i := by
    rw [Nat.testBit_div_two_pow, Nat.sub_add_cancel (by omega)]
  have hhigh : 64 ≤ i → x.testBit i = false := fun h64 =>
    Nat.testBit_lt_two_pow (hx.trans_le (Nat.pow_le_pow_right (by omega) h64))
  by_cases h64 : i < 64
  · simp [hi, h64, hdiv, show k ≤ i by omega]
  · simp [hdiv, hhigh (by omega)]

theorem dvd_alignDown (hx : x < 2 ^ 64) (hk : k < 64) : 2 ^ k ∣ alignDown x (2 ^ k) := by
  rw [alignDown_two_pow hx hk]
  exact Dvd.intro_left _ rfl

theorem le_alignDown {q : Nat} (hx : x < 2 ^ 64) (hk : k < 64) (hdvd : 2 ^ k ∣ q) :
    q ≤ alignDown x (2 ^ k) ↔ q ≤ x := by
  constructor
  · exact fun h => h.trans (alignDown_le _ _)
  · intro h
    obtain ⟨m, rfl⟩ := hdvd
    rw [alignDown_two_pow hx hk, mul_comm]
    apply Nat.mul_le_mul_right
    rw [Nat.le_div_iff_mul_le (Nat.two_pow_pos k), mul_comm]
    exact h

section Search

variable {used : List Region}

/-- A place between two addresses: a non-zero multiple that is apart from the reserved regions. -/
def Place (used : List Region) (size align lo hi p : Nat) : Prop :=
  p ≠ 0 ∧ align ∣ p ∧ lo ≤ p ∧ p ≤ hi ∧ Apart used p size

theorem allocTry_highest (hused : Rep used) (hsize : 0 < size) (hk : k < 64) {lo hi : Nat}
    (hdvd : 2 ^ k ∣ hi) (htop : hi + size ≤ 2 ^ 64) :
    Highest (Place used size (2 ^ k) lo hi) (allocTry used size (2 ^ k) lo hi) := by
  induction hi using Nat.strong_induction_on with
  | _ hi ih =>
    unfold allocTry
    split
    · next hcond =>
      split
      · next hnone =>
        have hapart := (hused.clear_iff hsize htop).mp (overlapChecks_eq_none.mp hnone)
        exact ⟨⟨hcond.1, hdvd, hcond.2, le_rfl, hapart⟩, fun q hq => hq.2.2.2.1⟩
      next rgn hsome =>
      obtain ⟨left, r, right, heq, hrgn, -, hover⟩ := overlapChecks_some hsome
      have hr := (hused.overlap_iff hsize htop (by simp [heq])).mp hover
      have hentry : entry used rgn = r := by rw [heq, show rgn = left.length by omega, entry_append]
      -- what is free at or below `hi` is below the region that was met
      have hbelow : ∀ q ≤ hi, Apart used q size → q + size ≤ r.base := by
        intro q hq hapart
        have := hapart r (by simp [heq])
        omega
      simp only [hentry]
      split
      · next hlow =>
        rintro q ⟨-, -, -, hq, hapart⟩
        have := hbelow q hq hapart
        omega
      next hlow =>
      have hlt64 : r.base < 2 ^ 64 := by omega
      rw [subU64_of_le (by omega) hlt64]
      have hx : r.base - size < 2 ^ 64 := by omega
      have hle := alignDown_le (r.base - size) (2 ^ k)
      refine (ih _ (by omega) (dvd_alignDown hx hk) (by omega)).congr fun q => ?_
      constructor
      · rintro ⟨h0, hdiv, hlo, hq, hapart⟩
        exact ⟨h0, hdiv, hlo, by omega, hapart⟩
      · rintro ⟨h0, hdiv, hlo, hq, hapart⟩
        have := hbelow q hq hapart
        exact ⟨h0, hdiv, hlo, (le_alignDown hx hk hdiv).mpr (by omega), hapart⟩
    · next hcond =>
      rintro q ⟨h0, -, hlo, hq, -⟩
      omega

def FitsBank (used : List Region) (size align maxAddr : Nat) (r : Region) (p : Nat) : Prop :=
  p ≠ 0 ∧ align ∣ p ∧ r.base ≤ p ∧ p + size ≤ r.stop ∧
    (maxAddr ≠ lmbAllocAnywhere → p + size ≤ maxAddr) ∧ Apart used p size

def bankEnd (r : Region) (maxAddr : Nat) : Nat :=
  if maxAddr = lmbAllocAnywhere then r.stop else min r.stop maxAddr

theorem allocCandidate_eq (align : Nat)
    (hsize : 0 < size) (hword : r.size < 2 ^ 64) (hstop : r.stop ≤ 2 ^ 64) (hmax : maxAddr < 2 ^ 64)
    (hfit : maxAddr = lmbAllocAnywhere ∨ size ≤ maxAddr) : allocCandidate r size align maxAddr =
    if size ≤ r.size ∧ (maxAddr ≠ lmbAllocAnywhere → r.base < maxAddr) then
        some (alignDown (bankEnd r maxAddr - size) align) else none := by
  have hs : r.stop = r.base + r.size := rfl
  by_cases hsz : r.size < size
  · rw [allocCandidate, if_pos hsz, if_neg (by omega)]
  rw [allocCandidate, if_neg hsz]
  by_cases hany : maxAddr = lmbAllocAnywhere
  · have hsub : subU64 r.stop size = r.stop - size := by
      unfold subU64
      omega
    rw [if_pos hany, if_pos ⟨by omega, fun h => absurd hany h⟩, bankEnd, if_pos hany, ← hs, hsub]
  rw [if_neg hany]
  by_cases hlt : r.base < maxAddr
  · rw [if_pos hlt, if_pos ⟨by omega, fun _ => hlt⟩, bankEnd, if_neg hany]
    have hmin : min (if u64 (r.base + r.size) < r.base then 2 ^ 64 - 1
        else u64 (r.base + r.size)) maxAddr = min r.stop maxAddr := by
      rcases hstop.lt_or_eq with htop | htop
      · rw [← hs, u64_of_lt htop, if_neg (by omega)]
      · rw [← hs, htop, if_pos (by unfold u64; omega)]
        omega
    simp only [hmin]
    rw [subU64_of_le (by omega) (by omega)]
  · rw [if_neg hlt, if_neg fun h => hlt (h.2 hany)]

theorem allocCandidate_highest (hused : Rep used) (hsize : 0 < size) (hk : k < 64)
    (hword : r.size < 2 ^ 64) (hstop : r.stop ≤ 2 ^ 64)
    (hmax : maxAddr < 2 ^ 64) (hfit : maxAddr = lmbAllocAnywhere ∨ size ≤ maxAddr) :
    Highest (FitsBank used size (2 ^ k) maxAddr r)
      ((allocCandidate r size (2 ^ k) maxAddr).bind (allocTry used size (2 ^ k) r.base)) := by
  have hs : r.stop = r.base + r.size := rfl
  rw [allocCandidate_eq (2 ^ k) hsize hword hstop hmax hfit]
  split
  · next hbank =>
    have hend :
        size ≤ bankEnd r maxAddr ∧ bankEnd r maxAddr ≤ 2 ^ 64 ∧ ∀ p, p + size ≤ bankEnd r maxAddr ↔
          p + size ≤ r.stop ∧ (maxAddr ≠ lmbAllocAnywhere → p + size ≤ maxAddr) := by
      unfold bankEnd
      split
      · next hany => exact ⟨by omega, hstop, fun p => by simp [hany]⟩
      · next hany =>
        exact ⟨by omega, by omega, fun p => by rw [le_min_iff]; simp [hany]⟩
    obtain ⟨hle, htop, hiff⟩ := hend
    have hx : bankEnd r maxAddr - size < 2 ^ 64 := by omega
    have hdown := alignDown_le (bankEnd r maxAddr - size) (2 ^ k)
    refine (allocTry_highest hused hsize hk (dvd_alignDown hx hk) (by omega)).congr fun p => ?_
    constructor
    · rintro ⟨h0, hdvd, hlo, hhi, hapart⟩
      obtain ⟨hin, hbelow⟩ := (hiff p).mp (by omega)
      exact ⟨h0, hdvd, hlo, hin, hbelow, hapart⟩
    · rintro ⟨h0, hdvd, hlo, hin, hbelow, hapart⟩
      have := (hiff p).mpr ⟨hin, hbelow⟩
      exact ⟨h0, hdvd, hlo, (le_alignDown hx hk hdvd).mpr (by omega), hapart⟩
  · next hbank =>
    rintro p ⟨-, -, hlo, hin, hbelow, -⟩
    exact hbank ⟨by omega, fun hany => by have := hbelow hany; omega⟩

theorem allocBanks_cons (used : List Region) (size align maxAddr : Nat) (r : Region)
    (rs : List Region) : allocBanks used size align maxAddr (r :: rs) =
      ((allocCandidate r size align maxAddr).bind (allocTry used size align r.base)).or
        (allocBanks used size align maxAddr rs) := by
  rw [allocBanks]
  cases allocCandidate r size align maxAddr with
  | none => rfl
  | some base =>
    simp only [Option.bind_some]
    cases allocTry used size align r.base base <;> rfl

def FitsIn (banks used : List Region) (size align maxAddr p : Nat) : Prop :=
  ∃ r ∈ banks, FitsBank used size align maxAddr r p

/-- The search over the banks of a list takes the highest of the places that it takes in one bank,
if those in a higher bank are higher. -/
theorem Rep.allocBanks_highest {banks : List Region}
    {align : Nat} {P : Region → Nat → Prop} (h : Rep banks) (hbank : ∀ r ∈ banks, Highest
      (P r) ((allocCandidate r size align maxAddr).bind (allocTry used size align r.base)))
    (hP : ∀ r s p q, s.stop ≤ r.base → P r p → P s q → q ≤ p) :
    Highest (fun p => ∃ r ∈ banks, P r p) (allocBanks used size align maxAddr banks.reverse) := by
  have hall : ∀ l : List Region, (l.Pairwise fun r s => s.stop ≤ r.base) → (∀ r ∈ l, r ∈ banks) →
      Highest (fun p => ∃ r ∈ l, P r p) (allocBanks used size align maxAddr l) := by
    intro l hsorted hsub
    induction l with
    | nil =>
      rintro q ⟨r, hr, -⟩
      cases hr
    | cons r rs ih =>
      obtain ⟨hr, hrs⟩ := List.pairwise_cons.mp hsorted
      have htail := ih hrs fun s hs => hsub s (by simp [hs])
      rw [allocBanks_cons]
      refine ((hbank r (hsub r (by simp))).orElse htail ?_).congr fun q => by simp
      rintro p q hp ⟨s, hs, hq⟩
      exact hP r s p q (hr s hs) hp hq
  exact (hall _ (List.pairwise_reverse.mpr h.ordered.pairwise) (by simp)).congr fun q => by simp

end Search

theorem Map.Rep.allocBanks_highest {lmb : Map} (h : lmb.Rep) (hsize : 0 < size)
    (hk : k < 64) (hmax : maxAddr < 2 ^ 64) (hfit : maxAddr = lmbAllocAnywhere ∨ size ≤ maxAddr) :
    Highest (FitsIn lmb.availableMem.rgn lmb.usedMem.rgn size (2 ^ k) maxAddr)
      (allocBanks lmb.usedMem.rgn size (2 ^ k) maxAddr lmb.availableMem.rgn.reverse) := by
  refine h.available.allocBanks_highest (fun r hr => allocCandidate_highest h.used hsize hk
    (h.available.word r hr) (h.available.bounded r hr) hmax hfit) ?_
  rintro r s p q hrs ⟨-, -, hlo, -⟩ ⟨-, -, -, hin, -⟩
  omega

end MtkBoot.Lmb
