import MtkBoot.Lmb.Run

/-! `lmb_reserve` marks exactly the bytes of its range, unless `lmb_add_region_flags` reports
success without having added it or the notification fails. -/

namespace MtkBoot.Lmb

open MtkBoot.Lib

/-- The byte at address `x` is in a region of the list that has these flags. -/
def Marked (l : List Region) (x flags : Nat) : Prop :=
  ∃ r ∈ l, Within Region.base Region.stop r x ∧ r.flags = flags

/-- The range overlaps a region of the list, and not only regions without flags when it has none. -/
def Rejected (base size flags : Nat) (l : List Region) : Prop :=
  (∃ r ∈ l, base < r.stop ∧ r.base < base + size) ∧
    ¬(flags = lmbNone ∧ ∀ r ∈ l, base < r.stop → r.base < base + size → r.flags = lmbNone)

/-- `lmb_reserve` rejects the range and changes nothing exactly when it has to, and else gives every
byte of the range its flags and leaves all other bytes as they were. -/
structure ReserveExact (env : Env) (lmb : Map) (base size flags : Nat) : Prop where
  rejects : ((reserve env lmb base size flags).1 = -eexist ∧
    (reserve env lmb base size flags).2 = lmb) ↔ Rejected base size flags lmb.usedMem.rgn
  succeeds : ¬Rejected base size flags lmb.usedMem.rgn → (reserve env lmb base size flags).1 = 0
  marks : ¬Rejected base size flags lmb.usedMem.rgn → ∀ x f,
    Marked (reserve env lmb base size flags).2.usedMem.rgn x f ↔
      if base ≤ x ∧ x < base + size then f = flags else Marked lmb.usedMem.rgn x f

section Bytes

variable {base size flags : Nat} {l l' : List Region}

theorem rejected_iff : Rejected base size flags l ↔ ¬Compatible base size flags l := by
  unfold Rejected Compatible
  constructor
  · rintro ⟨⟨r, hr, hlo, hhi⟩, hno⟩ hcompat
    exact hno ⟨(hcompat r hr hlo hhi).2, fun s hs hslo hshi => (hcompat s hs hslo hshi).1⟩
  · intro h
    push Not at h
    obtain ⟨r, hr, hlo, hhi, hflags⟩ := h
    exact ⟨⟨r, hr, hlo, hhi⟩, fun hnone => hflags (hnone.2 r hr hlo hhi) hnone.1⟩

theorem marked_append {x f : Nat} : Marked (l ++ l') x f ↔ Marked l x f ∨ Marked l' x f := by
  simp [Marked, or_and_right, exists_or]

theorem marked_cons {r : Region} {x f : Nat} :
    Marked (r :: l) x f ↔ Within Region.base Region.stop r x ∧ r.flags = f ∨ Marked l x f := by
  simp [Marked]

theorem Merged.marked (h : Merged base size flags l l')
    (hord : Ordered Region.base Region.stop l) (hsize : 0 < size) (x f : Nat) :
    Marked l' x f ↔ if base ≤ x ∧ x < base + size then f = flags else Marked l x f := by
  obtain ⟨left, mid, right, m, rfl, rfl, hm⟩ := h
  have hord' := hm.ordered hsize hord
  split
  · next hx =>
    have hmx := (hm.covers x).mpr (.inl hx)
    constructor
    · rintro ⟨r, hr, hrx, rfl⟩
      rw [hord'.eq_of_within hr (by simp) hrx hmx]
      exact hm.flags_eq
    · rintro rfl
      exact ⟨m, by simp, hmx, hm.flags_eq⟩
  · next hx =>
    have hmid : Within Region.base Region.stop m x ∧ m.flags = f ↔ Marked mid x f := by
      rw [hm.covers x, or_iff_right hx]
      constructor
      · rintro ⟨⟨s, hs, hsx⟩, rfl⟩
        exact ⟨s, hs, hsx, (hm.flags_mid s hs).trans hm.flags_eq.symm⟩
      · rintro ⟨s, hs, hsx, rfl⟩
        exact ⟨⟨s, hs, hsx⟩, hm.flags_eq.trans (hm.flags_mid s hs).symm⟩
    rw [marked_append, marked_append, marked_append, marked_cons, hmid, or_assoc]

theorem displaced_not_within {left right : List Region} {r s : Region} {n : Nat}
    (hold : ∀ x ∈ left ++ r :: s :: right, ¬Within Region.base Region.stop x base)
    (hadj : s.base = r.stop) (hn : n ≤ r.size + s.size) :
    ∀ x ∈ left ++ { r with size := n } :: right, ¬Within Region.base Region.stop x base := by
  intro x hx hin
  rcases mem_append_cons.mp hx with hx | rfl | hx
  · exact hold x (by simp [hx]) hin
  · have hr := hold r (by simp)
    have hs := hold s (by simp)
    simp only [Within, Region.stop] at *
    omega
  · exact hold x (by simp [hx]) hin

theorem AddCase.not_marked {lst : Alist} {expand : Bool} {res : Int × Alist}
    (h : AddCase base size flags lst expand res) (hlost : Lost base size flags lst.rgn)
    (hsize : 0 < size) (f : Nat) : ¬Marked res.2.rgn base f := by
  have hold : ∀ r ∈ lst.rgn, ¬Within Region.base Region.stop r base := by
    rintro r hr ⟨hlo, hhi⟩
    have := (hlost.1 r hr).1
    omega
  cases h with
  | broken => exact fun ⟨r, hr, hrx, _⟩ => hold r hr hrx
  | full => exact fun ⟨r, hr, hrx, _⟩ => hold r hr hrx
  | added alloc hkept => exact absurd hlost hkept
  | wrapped => simp [Marked]
  | @displaced left right r s _ hrgn hflags hadj =>
    rintro ⟨x, hx, hin, -⟩
    exact displaced_not_within (hrgn ▸ hold) hadj.symm le_rfl x hx hin

end Bytes

theorem intact_of_reachable {lmb : Map}
    (h : Reachable Init (Step fun env lmb op => env.expand ∧ op.Fits lmb) lmb) : Intact lmb := by
  refine (h.invariant (I := fun lmb => Inv lmb ∧ Intact lmb) (fun _ hs => hs.inv) ?_).2
  rintro s s' ⟨hs, hi⟩ ⟨env, op, hvalid, ⟨he, hfit⟩, rfl⟩
  obtain ⟨hinv, hintact⟩ := hs.run env hvalid hfit
  exact ⟨hinv, hintact he hi⟩

/-- A reservation is exact in a reachable state if and only if the range is rejected, or it is not
lost and the notification succeeds. -/
theorem reserve_exact_iff {lmb : Map}
    (h : Reachable Init (Step fun env lmb op => env.expand = true ∧ op.Fits lmb) lmb)
    (env : Env) (hexpand : env.expand = true) {base size : Nat} (hsize : 0 < size)
    (htop : base + size < 2 ^ 64) (flags : Nat) :
    ReserveExact env lmb base size flags ↔
      Rejected base size flags lmb.usedMem.rgn ∨
        ¬Lost base size flags lmb.usedMem.rgn ∧ mapUpdateNotify env lmb flags = 0 := by
  have hwf := (inv_of_reachable (fun _ _ _ hop => hop.2) h).used
  have herr := (intact_of_reachable h).2
  have hcheck := overlapChecks_reserve hsize htop flags hwf.sane 0
  by_cases hcompat : Compatible base size flags lmb.usedMem.rgn
  · have hrej : ¬Rejected base size flags lmb.usedMem.rgn := fun hc => rejected_iff.mp hc hcompat
    have hadded := addRegionFlags_cases _ env.expand hwf hsize htop hcompat
    -- the list can be extended, so the call reports success
    have hret : (addRegionFlags lmb.usedMem base size flags env.expand).1 = 0 := by
      generalize addRegionFlags lmb.usedMem base size flags env.expand = res at hadded
      cases hadded with
      | broken hb => rw [herr] at hb; cases hb
      | full hf => rw [hexpand] at hf; cases hf
      | added => rfl
      | wrapped => rfl
      | displaced => rfl
    have heq : reserve env lmb base size flags = (mapUpdateNotify env lmb flags,
        { lmb with usedMem := (addRegionFlags lmb.usedMem base size flags env.expand).2 }) := by
      unfold reserve
      rw [hcheck.mpr hcompat]
      simp only [hret, ne_eq, not_true_eq_false, if_false]
      rfl
    simp only [hrej, false_or]
    constructor
    · intro hexact
      refine ⟨fun hlost => ?_, by simpa [heq] using hexact.succeeds hrej⟩
      have hmark := (hexact.marks hrej base flags).mpr (by rw [if_pos ⟨le_rfl, by omega⟩])
      rw [heq] at hmark
      exact hadded.not_marked hlost hsize flags hmark
    · rintro ⟨hlost, hnotify⟩
      refine ⟨?_, fun _ => by rw [heq]; exact hnotify, fun _ x f => ?_⟩
      · rw [heq]
        simp [hnotify, hrej, eexist]
      rw [heq]
      generalize addRegionFlags lmb.usedMem base size flags env.expand = res at hadded
      cases hadded with
      | broken hb => rw [herr] at hb; cases hb
      | full hf => rw [hexpand] at hf; cases hf
      | added alloc hkept hsealed => exact hsealed.merged.marked hwf.ordered hsize x f
      | wrapped alloc hl => exact absurd hl hlost
      | displaced hl => exact absurd hl hlost
  · have hrej := rejected_iff.mpr hcompat
    have heq : reserve env lmb base size flags = (-eexist, lmb) := by
      unfold reserve
      cases hfound : overlapChecks base size flags false lmb.usedMem.rgn 0 with
      | none => exact absurd (hcheck.mp hfound) hcompat
      | some i => rfl
    simp only [hrej, true_or, iff_true]
    exact ⟨by simp [heq, hrej], fun hc => absurd hrej hc, fun hc => absurd hrej hc⟩

theorem reserve_exact_iff_touching :
    ReserveExact ⟨true, 0, true⟩ ((Op.reserve 100 10 0).run ⟨true, 0, true⟩ (setup false))
      90 10 4 := by
  exact (reserve_exact_iff (.step (.init ⟨false, rfl⟩)
    ⟨_, .reserve 100 10 0, by decide, ⟨rfl, trivial⟩, rfl⟩) _ rfl (by decide) (by decide) 4).mpr
    (.inr ⟨by decide, rfl⟩)

/-- Three reservations and a fourth that fills the gaps leave two touching regions of the same
flags.  One with other flags right below them then returns 0 and is not in the list. -/
theorem reserve_dropped : ∃ lmb, Reachable Init (Step fun env _ _ => env.expand = true) lmb ∧
      ¬ReserveExact ⟨false, 0, true⟩ lmb 90 10 4 := by
  refine ⟨_, reachable_calls ⟨false, 0, true⟩ touchingCalls (by decide) (fun _ _ => rfl),
    fun h => ?_⟩
  have hstate : touchingCalls.foldl (fun lmb op => op.run ⟨false, 0, true⟩ lmb) (setup false) =
      ⟨⟨[], 4, false⟩, ⟨[⟨100, 30, 0⟩, ⟨130, 10, 0⟩], 4, false⟩, false⟩ := by decide
  rw [hstate] at h
  have hrej : ¬Rejected 90 10 4 [⟨100, 30, 0⟩, ⟨130, 10, 0⟩] := by
    rw [rejected_iff, not_not]
    decide
  obtain ⟨r, hr, hrx, -⟩ := (h.marks hrej 90 4).mpr (by simp)
  have hafter : (reserve ⟨false, 0, true⟩
      ⟨⟨[], 4, false⟩, ⟨[⟨100, 30, 0⟩, ⟨130, 10, 0⟩], 4, false⟩, false⟩ 90 10 4).2.usedMem.rgn =
      [⟨100, 40, 0⟩] := by decide
  rw [hafter, List.mem_singleton] at hr
  subst hr
  exact absurd hrx.1 (by decide)

end MtkBoot.Lmb
