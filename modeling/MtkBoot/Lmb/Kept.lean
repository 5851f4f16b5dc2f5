import MtkBoot.Lmb.Clear

/-! Which bytes a list gives the flags of a range that was clear of it, after
`lmb_add_region_flags` reported success. -/

namespace MtkBoot.Lmb

open MtkBoot.Lib Region

variable {base flags size : Nat} {l left right : List Region} {r s : Region}

/-- The region above the range has other flags and touches a next region of those flags: the two
are merged instead. -/
def Displaces (base size flags : Nat) (l : List Region) : Prop :=
  ∃ r, Meets base size flags l r ∧ r.flags ≠ flags ∧ ∃ s ∈ l, s.base = r.stop ∧ s.flags = r.flags

/-- The range and one or two regions of its flags make up the whole address space: the merged
region has size `2^64`, which reads as 0. -/
def Fills (base size flags : Nat) (l : List Region) : Prop :=
  ∃ r, Meets base size flags l r ∧ r.flags = flags ∧
    (r.size + size = 2 ^ 64 ∨ ∃ s ∈ l, s ≠ r ∧ s.flags = flags ∧ r.size + size + s.size = 2 ^ 64)

/-- `lmb_add_region_flags` reports success for the range, but the list does not cover it. -/
def Dropped (base size flags : Nat) (l : List Region) : Prop :=
  Displaces base size flags l ∨ Fills base size flags l ∨
    (¬Absorbed base size flags l ∧ u16 (l.length + 1) = 0)

theorem Rep.apart (h : Rep l) (hr : r ∈ l) (hs : s ∈ l) (hne : s ≠ r) :
    s.base + s.size ≤ r.base ∨ r.base + r.size ≤ s.base := by
  by_contra hnot
  push Not at hnot
  rcases le_total s.base r.base with hle | hle
  · exact hne
      (h.ordered.eq_of_within hs hr (x := r.base) ⟨hle, hnot.1⟩ ⟨le_rfl, h.ordered.nonempty r hr⟩)
  · exact hne
      (h.ordered.eq_of_within hs hr (x := s.base) ⟨le_rfl, h.ordered.nonempty s hs⟩ ⟨hle, hnot.2⟩)

theorem Apart.cases (h : Apart l base size) (hr : r ∈ l) :
    r.base + r.size ≤ base ∨ base + size ≤ r.base := by
  have := h r hr
  unfold stop at this
  omega

/-! ### The region that took the range in -/

section Joined

variable (h : Rep (left ++ r :: right)) (hbase : base ≠ 0) (hsize : 0 < size)
  (htop : base + size ≤ 2 ^ 64) (hapart : Apart (left ++ r :: right) base size)
  (hmeets : Meets base size flags (left ++ r :: right) r) (hflags : r.flags = flags)
include h hbase hsize htop hapart hmeets hflags

omit hsize hflags in
theorem extend_size : r.size + size ≤ 2 ^ 64 ∧ (extend base size r).base + (r.size + size) ≥
    base + size ∧ (extend base size r).base ≤ base := by
  have hr : r ∈ left ++ r :: right := by simp
  have hpart := hapart.cases hr
  have hbound := h.bounded r hr
  unfold stop at hbound
  unfold extend
  rcases hmeets.2.1 with habove | ⟨hstop, -⟩
  · rw [if_pos habove]
    exact ⟨by omega, by simp only; omega, le_rfl⟩
  · replace hstop := stop_eq_of_u64 hbase hbound hstop
    unfold stop at hstop
    split <;> exact ⟨by omega, by simp only; omega, by simp only; omega⟩

omit hflags in
/-- A region with which the range and `r` make up the whole address space is the next of the list
and touches the two. -/
theorem fills_next (hs : s ∈ left ++ r :: right) (hne : s ≠ r) (hsf : s.flags = flags)
    (hsum : r.size + size + s.size = 2 ^ 64) : (∃ rest, right = s :: rest) ∧
      (s.base = u64 ((extend base size r).base + (extend base size r).size) ∨
        (extend base size r).base = u64 (s.base + s.size)) := by
  have hr : r ∈ left ++ r :: right := by simp
  have hspart := hapart.cases hs
  have hrs := h.apart hr hs hne
  have hbound := h.bounded r hr
  have hsbound := h.bounded s hs
  have hspos := h.sorted.nonempty s hs
  have hlowest := hmeets.2.2 s hs
  simp only [extend]
  by_cases habove : r.base = u64 (base + size)
  · rw [if_pos habove]
    rcases htop.lt_or_eq with hlt | heq
    · rw [u64_of_lt hlt] at habove
      have := hlowest (.inr ⟨by unfold stop u64 at *; omega, hsf⟩)
      unfold stop at *
      omega
    have hzero : r.base = 0 := by rw [habove, heq]; rfl
    have hadj : s.base = r.stop := by
      unfold stop at *
      omega
    refine ⟨next_of_adjacent h.ordered hs hadj, .inl ?_⟩
    unfold stop at *
    unfold u64
    omega
  · rw [if_neg habove]
    have hstop := stop_eq_of_u64 hbase hbound (hmeets.2.1.resolve_left habove).1
    have hzero : r.base = 0 := by
      by_contra hnz
      rcases htop.lt_or_eq with hlt | heq
      · unfold stop at *
        omega
      · have hu : u64 (base + size) = 0 := by rw [heq]; rfl
        have := hlowest (.inl (by rw [hu]; unfold stop at *; omega))
        unfold stop at *
        omega
    have hsbase : s.base = base + size := by
      unfold stop at *
      omega
    refine ⟨next_of_least h.ordered hs (by unfold stop at *; omega) fun t ht => ?_, .inl ?_⟩
    · have htr := h.ordered.sides.2 t ht
      have htpart := hapart.cases (r := t) (by simp [ht])
      have htpos := h.sorted.nonempty t (by simp [ht])
      omega
    · unfold stop at *
      unfold u64
      omega

/-- Alone or with the next region, it covers the range unless it makes up the whole address
space. -/
theorem joined_covers_iff {rgn : List Region} {c : Nat}
    (hnext : NextStep left right (extend base size r) 1 (some (rgn, c))) :
    ∃ m rest, rgn = left ++ m :: rest ∧ (∀ x ∈ rest, x ∈ right) ∧ m.flags = flags ∧
      (Fills base size flags (left ++ r :: right) → m.size = 0) ∧
      (¬Fills base size flags (left ++ r :: right) → m.base ≤ base ∧ base + size ≤ m.stop) := by
  have hr : r ∈ left ++ r :: right := by simp
  obtain ⟨hle, hcover, hlow⟩ := extend_size h hbase htop hapart hmeets
  have hfills := fun s => fills_next h hbase hsize htop hapart hmeets (s := s)
  have hesize : (extend base size r).size = u64 (r.size + size) := rfl
  have hfill_iff : Fills base size flags (left ++ r :: right) ↔ r.size + size = 2 ^ 64 ∨
      ∃ s ∈ left ++ r :: right, s ≠ r ∧ s.flags = flags ∧ r.size + size + s.size = 2 ^ 64 := by
    constructor
    · rintro ⟨r', hr', -, hcase⟩
      rwa [hr'.unique h hmeets] at hcase
    · exact fun hcase => ⟨r, hmeets, hflags, hcase⟩
  rw [hfill_iff]
  cases hnext with
  | alone hnot =>
    refine ⟨_, right, rfl, fun x hx => hx, hflags, ?_, ?_⟩
    · rintro (hsum | ⟨s, hs, hne, hsf, hsum⟩)
      · rw [hesize, hsum]
        rfl
      · obtain ⟨⟨rest, hright⟩, hadj⟩ := hfills s hs hne hsf hsum
        exact absurd hadj (hnot s rest hright (hflags.trans hsf.symm))
    · intro hno
      push Not at hno
      rw [stop, hesize, u64_of_lt (lt_of_le_of_ne hle hno.1)]
      exact ⟨hlow, hcover⟩
  | @joined s rest heq hsame hadj =>
    have hs : s ∈ left ++ r :: right := by simp [heq]
    have hne : s ≠ r := by
      rintro rfl
      have := h.ordered.sides.2 s (by simp [heq])
      have := h.ordered.nonempty s hs
      omega
    have hsf : s.flags = flags := hsame.symm.trans hflags
    have hspos := h.sorted.nonempty s hs
    -- three disjoint ranges fit the address space
    have hsum_le : r.size + size + s.size ≤ 2 ^ 64 := by
      have := hapart.cases hr
      have := hapart.cases hs
      have := h.apart hr hs hne
      have := h.bounded r hr
      have := h.bounded s hs
      unfold stop at *
      omega
    have hm : u64 ((extend base size r).size + s.size) = u64 (r.size + size + s.size) := by
      rw [hesize, u64_of_lt (by omega : r.size + size < 2 ^ 64)]
    refine ⟨_, rest, rfl, fun x hx => by simp [heq, hx], hflags, ?_, ?_⟩
    · rintro (hsum | ⟨s', hs', hne', hsf', hsum⟩)
      · omega
      · obtain ⟨⟨rest', hright⟩, -⟩ := hfills s' hs' hne' hsf' hsum
        obtain ⟨rfl, -⟩ := List.cons.inj (heq.symm.trans hright)
        rw [hm, hsum]
        rfl
    · intro hno
      push Not at hno
      have hlt := lt_of_le_of_ne hsum_le (hno.2 s hs hne hsf)
      refine ⟨hlow, ?_⟩
      change base + size ≤ (extend base size r).base + u64 _
      rw [hm, u64_of_lt hlt]
      omega

end Joined

/-! ### The bytes of the range -/

section Bytes

variable {lst : Alist} {expand : Bool} {res : Int × Alist}

theorem Apart.not_within (h : Apart l base size) (hsize : 0 < size) :
    ∀ r ∈ l, ¬Within Region.base Region.stop r base := by
  rintro r hr ⟨hlo, hhi⟩
  exact h r hr ⟨hhi, by omega⟩

/-- After a call that reported success the list covers the range unless it is dropped. -/
theorem ClearAdd.marked_iff (h : ClearAdd base size flags lst expand res) (hrep : Rep lst.rgn)
    (hbase : base ≠ 0) (hsize : 0 < size) (htop : base + size ≤ 2 ^ 64)
    (hapart : Apart lst.rgn base size) (hret : res.1 = 0) :
    (∀ x, base ≤ x → x < base + size → Marked res.2.rgn x flags) ↔
    ¬Dropped base size flags lst.rgn := by
  have hold := hapart.not_within hsize
  -- a list without a region that contains the first byte does not cover the range
  have hempty : ∀ rgn : List Region, (∀ r ∈ rgn, ¬Within Region.base Region.stop r base) →
      ¬∀ x, base ≤ x → x < base + size → Marked rgn x flags := by
    intro rgn hno hall
    obtain ⟨r, hr, hin, -⟩ := hall base le_rfl (by omega)
    exact hno r hr hin
  have hnodisp : ¬Absorbed base size flags lst.rgn → ¬Displaces base size flags lst.rgn ∧
      ¬Fills base size flags lst.rgn := fun habs =>
    ⟨fun ⟨r, hr, _, hs⟩ => habs ⟨r, hr, Or.inr hs⟩, fun ⟨r, hr, hf, _⟩ => habs ⟨r, hr, Or.inl hf⟩⟩
  cases h with
  | broken => simp at hret
  | full => simp at hret
  | inserted alloc herr habs hroom =>
    obtain ⟨hdisp, hfills⟩ := hnodisp habs
    rcases insertRegion_apart flags hrep.ordered hsize fun r hr =>
      hapart.cases hr with ⟨hwrap, heq⟩ | ⟨hwrap, hmerged⟩
    · refine iff_of_false ?_ fun hno => hno (Or.inr (Or.inr ⟨habs, hwrap⟩))
      simp only [heq]
      exact hempty [] (by simp)
    · refine iff_of_true (fun x hlo hhi => ?_) ?_
      · rw [hmerged.marked hrep.ordered hsize, if_pos ⟨hlo, hhi⟩]
      · rintro (hd | hf | ⟨-, hw⟩)
        · exact hdisp hd
        · exact hfills hf
        · exact hwrap hw
  | @displaced left right r s herr heq hmeets hr hflags hs hadj =>
    refine iff_of_false (hempty _ ?_) fun hno => hno (Or.inl ⟨r, hmeets, hflags, s, ?_, hadj, hs⟩)
    · exact displaced_not_within (heq ▸ hold) hadj (Nat.mod_le _ _)
    · simp [heq]
  | @joined left right rgn r c herr heq hmeets hflags hnext =>
    rw [heq] at hrep hapart hmeets hold
    have hdrop : Dropped base size flags lst.rgn ↔ Fills base size flags (left ++ r :: right) := by
      rw [heq]
      constructor
      · rintro (⟨r', hr', hf, -⟩ | hf | ⟨habs, -⟩)
        · exact absurd (hr'.unique hrep hmeets ▸ hflags) hf
        · exact hf
        · exact absurd ⟨r, hmeets, Or.inl hflags⟩ habs
      · exact fun hf => Or.inr (Or.inl hf)
    obtain ⟨m, rest, rfl, hrest, hm, hzero, hcover⟩ :=
      joined_covers_iff hrep hbase hsize htop hapart hmeets hflags hnext
    rw [hdrop]
    by_cases hf : Fills base size flags (left ++ r :: right)
    · refine iff_of_false (hempty _ fun x hx hin => ?_) (not_not.mpr hf)
      rcases mem_append_cons.mp hx with hx | rfl | hx
      · exact hold x (by simp [hx]) hin
      · have := hzero hf
        obtain ⟨hlo, hhi⟩ := hin
        unfold Region.stop at hhi
        omega
      · exact hold x (by simp [hrest x hx]) hin
    · refine iff_of_true (fun x hlo hhi => ⟨m, by simp, ?_, hm⟩) hf
      obtain ⟨hm1, hm2⟩ := hcover hf
      exact ⟨by omega, by omega⟩

end Bytes

end MtkBoot.Lmb
