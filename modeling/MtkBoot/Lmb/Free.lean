import MtkBoot.Lmb.Kept

/-! `_lmb_free`, byte by byte: the range is taken out of its region, unless the rest of a split
region is lost or cannot be added, or the range passes `2^64`. -/

namespace MtkBoot.Lmb

open MtkBoot.Lib List Region

variable {base flags i size : Nat} {left rgn right : List Region} {lst : Alist} {r s : Region}
  {res : Int × Alist}

variable {c : Nat} {expand : Bool}

/-- `_lmb_free` succeeds exactly on the ranges that one region contains, takes exactly these bytes
out of the list, and leaves the list alone when it fails. -/
structure FreeExact (lst : Alist) (base size : Nat) (expand : Bool) : Prop where
  succeeds : (lmbFree lst base size expand).1 = 0 ↔ Contained lst.rgn base size
  marks :
    (lmbFree lst base size expand).1 = 0 → ∀ x f, Marked (lmbFree lst base size expand).2.rgn x f ↔
      Marked lst.rgn x f ∧ ¬(base ≤ x ∧ x < base + size)
  atomic : (lmbFree lst base size expand).1 < 0 → (lmbFree lst base size expand).2.rgn = lst.rgn

/-! ### The bytes that are left -/

section Cut

variable {pieces : List Region} {lo hi : Nat}

theorem marked_cut (hord : Ordered Region.base Region.stop (left ++ r :: right))
    (hlo : r.base ≤ lo) (hhi : hi ≤ r.stop) (hflags : ∀ p ∈ pieces, p.flags = r.flags)
    (hpieces : ∀ x, (∃ p ∈ pieces, Within Region.base Region.stop p x) ↔
      Within Region.base Region.stop r x ∧ ¬(lo ≤ x ∧ x < hi)) (x f : Nat) :
    Marked (left ++ (pieces ++ right)) x f ↔
      Marked (left ++ r :: right) x f ∧ ¬(lo ≤ x ∧ x < hi) := by
  obtain ⟨hleft, hright⟩ := hord.sides
  have hcut : Marked pieces x f ↔ (Within Region.base Region.stop r x ∧ r.flags = f) ∧
      ¬(lo ≤ x ∧ x < hi) := by
    rw [and_right_comm, ← hpieces x]
    constructor
    · rintro ⟨p, hp, hpx, rfl⟩
      exact ⟨⟨p, hp, hpx⟩, (hflags p hp).symm⟩
    · rintro ⟨⟨p, hp, hpx⟩, rfl⟩
      exact ⟨p, hp, hpx, hflags p hp⟩
  -- a byte of another region is not one of the bytes that are cut out
  have hbelow : Marked left x f → ¬(lo ≤ x ∧ x < hi) := by
    rintro ⟨s, hs, ⟨h1, h2⟩, -⟩
    have := hleft s hs
    omega
  have habove : Marked right x f → ¬(lo ≤ x ∧ x < hi) := by
    rintro ⟨s, hs, ⟨h1, h2⟩, -⟩
    have := hright s hs
    omega
  rw [marked_append, marked_append, marked_append, marked_cons, hcut, or_and_right, or_and_right,
    and_iff_left_of_imp hbelow, and_iff_left_of_imp habove]

end Cut

/-! ### The rest of a region that is split -/

/-- A region with other flags starts at the end of `r`, and one with those flags touches it. -/
def TailDisplaced (l : List Region) (r : Region) : Prop :=
  ∃ s ∈ l, s.base = u64 r.stop ∧ s.flags ≠ r.flags ∧ ∃ t ∈ l, t.base = s.stop ∧ t.flags = s.flags

def TailJoined (l : List Region) (r : Region) : Prop :=
  ∃ s ∈ l, s.base = u64 r.stop ∧ s.flags = r.flags

/-- The rest of the region `r` can be added to the list and is not lost there. -/
def SplitOk (lst : Alist) (r : Region) (expand : Bool) : Prop :=
  lst.err = false ∧ ¬TailDisplaced lst.rgn r ∧
    (TailJoined lst.rgn r → r.stop < 2 ^ 64) ∧ (¬TailJoined lst.rgn r →
      (lst.rgn.length ≠ lst.alloc ∨ expand = true) ∧ u16 (lst.rgn.length + 1) ≠ 0)

section Split

variable (h : Rep (left ++ r :: right)) (hsize : 0 < size) (hbase : r.base < base)
  (hstop : base + size < r.stop)
include h hsize hbase hstop

theorem tail_meets_iff (s : Region) : Meets (base + size) (r.stop - (base + size)) r.flags
        (left ++ ⟨r.base, base - r.base, r.flags⟩ :: right) s ↔ s ∈ left ++ r :: right ∧
        s.base = u64 r.stop := by
  have hadd : base + size + (r.stop - (base + size)) = r.stop := by omega
  have hword := h.word r (by simp)
  obtain ⟨hleft, hright⟩ := h.ordered.sides
  -- the region itself does not start at its end
  have hself : r.base ≠ u64 r.stop := by
    unfold stop at *
    unfold u64
    omega
  have hhit : ∀ x ∈ left ++ ⟨r.base, base - r.base, r.flags⟩ :: right,
      Hit (base + size) (r.stop - (base + size)) r.flags x ↔ x.base = u64 r.stop := by
    intro x hx
    have hbound := h.bounded r (by simp)
    obtain ⟨hno, hle⟩ : x.stop ≠ base + size ∧ x.stop ≤ 2 ^ 64 := by
      rcases mem_append_cons.mp hx with hx | rfl | hx
      · have := hleft x hx
        omega
      · simp only [stop] at *
        omega
      · have := hright x hx
        have := h.ordered.nonempty x (by simp [hx])
        have := h.bounded x (by simp [hx])
        omega
    unfold Hit
    rw [hadd]
    exact or_iff_left fun hc => hno (stop_eq_of_u64 (by omega) hle hc.1)
  have hmem : ∀ x : Region, x.base ≠ r.base →
      (x ∈ left ++ ⟨r.base, base - r.base, r.flags⟩ :: right ↔ x ∈ left ++ r :: right) := by
    intro x hx
    have h1 : x ≠ r := fun he => hx (he ▸ rfl)
    have h2 : x ≠ ⟨r.base, base - r.base, r.flags⟩ := fun he => hx (he ▸ rfl)
    simp [h1, h2]
  constructor
  · rintro ⟨hs, hh, -⟩
    have hsb := (hhit s hs).mp hh
    exact ⟨(hmem s (by rw [hsb]; exact hself.symm)).mp hs, hsb⟩
  · rintro ⟨hs, hsb⟩
    have hs' := (hmem s (by rw [hsb]; exact hself.symm)).mpr hs
    exact ⟨hs', (hhit s hs').mpr hsb, fun t ht hh => by rw [hsb, (hhit t ht).mp hh]⟩

omit h hsize hbase hstop in
theorem exists_base_flags_iff (left right : List Region) (r r' : Region)
    (hr' : r'.base = r.base ∧ r'.flags = r.flags) (b f : Nat) :
    (∃ t ∈ left ++ r' :: right, t.base = b ∧ t.flags = f) ↔
      ∃ t ∈ left ++ r :: right, t.base = b ∧ t.flags = f := by
  simp only [mem_append, mem_cons]
  constructor
  · rintro ⟨t, ht | rfl | ht, hb, hf⟩
    · exact ⟨t, .inl ht, hb, hf⟩
    · exact ⟨r, .inr (.inl rfl), hr'.1 ▸ hb, hr'.2 ▸ hf⟩
    · exact ⟨t, .inr (.inr ht), hb, hf⟩
  · rintro ⟨t, ht | rfl | ht, hb, hf⟩
    · exact ⟨t, .inl ht, hb, hf⟩
    · exact ⟨r', .inr (.inl rfl), hr'.1.trans hb, hr'.2.trans hf⟩
    · exact ⟨t, .inr (.inr ht), hb, hf⟩

theorem tail_absorbed_iff : Absorbed (base + size) (r.stop - (base + size)) r.flags
        (left ++ ⟨r.base, base - r.base, r.flags⟩ :: right) ↔
      TailJoined (left ++ r :: right) r ∨ TailDisplaced (left ++ r :: right) r := by
  unfold Absorbed TailJoined TailDisplaced
  simp only [tail_meets_iff h hsize hbase hstop,
    exists_base_flags_iff left right r ⟨r.base, base - r.base, r.flags⟩ ⟨rfl, rfl⟩]
  constructor
  · rintro ⟨s, ⟨hs, hsb⟩, hcase⟩
    by_cases hf : s.flags = r.flags
    · exact .inl ⟨s, hs, hsb, hf⟩
    · exact .inr ⟨s, hs, hsb, hf, hcase.resolve_left hf⟩
  · rintro (⟨s, hs, hsb, hf⟩ | ⟨s, hs, hsb, -, ht⟩)
    · exact ⟨s, ⟨hs, hsb⟩, .inl hf⟩
    · exact ⟨s, ⟨hs, hsb⟩, .inr ht⟩

theorem split_marks (hrgn : ∀ x f, Marked rgn x f ↔ if base + size ≤ x ∧ x < r.stop then f = r.flags
      else Marked (left ++ ⟨r.base, base - r.base, r.flags⟩ :: right) x f) (x f : Nat) :
    Marked rgn x f ↔ Marked (left ++ r :: right) x f ∧ ¬(base ≤ x ∧ x < base + size) := by
  have hpiece : ∀ x,
      (∃ p ∈ [(⟨r.base, base - r.base, r.flags⟩ : Region)], Within Region.base Region.stop p x) ↔
      Within Region.base Region.stop r x ∧ ¬(base ≤ x ∧ x < r.stop) := by
    intro x
    simp only [mem_singleton, exists_eq_left, Within, Region.stop] at hstop ⊢
    omega
  have hcut := marked_cut h.ordered hbase.le le_rfl (by simp) hpiece x f
  rw [hrgn]
  split
  · next hx =>
    have hin : Within Region.base Region.stop r x := ⟨by omega, hx.2⟩
    constructor
    · rintro rfl
      exact ⟨⟨r, by simp, hin, rfl⟩, by omega⟩
    · rintro ⟨⟨s, hs, hsx, rfl⟩, -⟩
      rw [h.ordered.eq_of_within hs (by simp) hsx hin]
  · next hx =>
    simp only [singleton_append] at hcut
    rw [hcut]
    refine and_congr_right fun _ => ?_
    omega

end Split

theorem joined_above_merged (h : Rep (left ++ s :: right)) (hbase : base ≠ 0)
    (hapart : Apart (left ++ s :: right) base size)
    (hs : s.base = base + size) (hflags : s.flags = flags)
    (hnext : NextStep left right (extend base size s) 1 (some (rgn, c))) :
    Merged base size flags (left ++ s :: right) rgn := by
  obtain ⟨hleft, hright⟩ := h.ordered.sides
  have hbound := h.bounded s (by simp)
  have hpos := h.sorted.nonempty s (by simp)
  have hm : extend base size s = ⟨base, s.size + size, s.flags⟩ := by
    unfold stop at hbound
    rw [extend, u64_of_lt (by omega : base + size < 2 ^ 64), if_pos hs, u64_of_lt (by omega)]
  have hmerge : Merge base size flags left [s] right ⟨base, s.size + size, s.flags⟩ := by
    refine merge_run (by simpa using h.ordered) (by simp) (by simpa using hflags) hflags ?_
      (fun x hx => ?_) (fun x hx => ?_) ?_ ?_
    · simp only [mem_singleton, forall_eq, stop]
      omega
    · have := hapart x (by simp [hx])
      have := hleft x hx
      have := h.ordered.nonempty x (by simp [hx])
      omega
    · have := hright x hx
      unfold stop at this
      omega
    · simp only [head_cons]
      omega
    · simp only [stop, getLast_singleton]
      omega
  rw [hm] at hnext
  cases hnext with
  | alone hnot => exact ⟨left, [s], right, _, by simp, rfl, hmerge⟩
  | @joined t rest heq hsame hadj =>
    subst heq
    have ht := hright t (by simp)
    have htbound := h.bounded t (by simp)
    have htpos := h.sorted.nonempty t (by simp)
    unfold stop at ht htbound
    have htbase : t.base = base + (s.size + size) := by
      rcases hadj with hadj | hadj
      · simp only at hadj
        rw [hadj, u64_of_lt (by omega)]
      · -- a region that ends at `2^64` seems to end at 0, where the range does not start
        simp only at hadj
        unfold u64 at hadj
        omega
    refine ⟨left, [s] ++ [t], rest, _, by simp, rfl, hmerge.next (by simpa using h.ordered)
      (hsame.symm.trans hflags) ?_ rfl ?_ hflags⟩
    · simp only [stop]
      omega
    · simp only [stop]
      rw [u64_of_lt (by omega)]
      omega

theorem joined_zero_not_within (h : Rep (left ++ s :: right)) (hs : s.base = 0) (hbase : base ≠ 0)
    (hend : s.base = u64 (base + size))
    (hnext : NextStep left right (extend base size s) 1 (some (rgn, c))) :
    ∀ x ∈ rgn, ¬Within Region.base Region.stop x 0 := by
  obtain ⟨hleft, hright⟩ := h.ordered.sides
  have hside : ∀ x ∈ left ++ right, ¬Within Region.base Region.stop x 0 := by
    rintro x hx ⟨h1, h2⟩
    rcases mem_append.mp hx with hx | hx
    · have := hleft x hx
      omega
    · have := h.ordered.nonempty s (by simp)
      have := hright x hx
      omega
  have hm : (extend base size s).base = base := by simp [extend, hend]
  have hmain : ∀ (n : Nat) (rest : List Region), (∀ x ∈ rest, x ∈ right) → ∀ x ∈ left ++
      { extend base size s with size := n } :: rest, ¬Within Region.base Region.stop x 0 := by
    intro n rest hrest x hx hin
    rcases mem_append_cons.mp hx with hx | rfl | hx
    · exact hside x (by simp [hx]) hin
    · have := hin.1
      simp only [hm] at this
      omega
    · exact hside x (by simp [hrest x hx]) hin
  cases hnext with
  | alone hnot => exact hmain (extend base size s).size right fun x hx => hx
  | @joined t rest heq hsame hadj => exact hmain _ rest fun x hx => by simp [heq, hx]

theorem split_exact_iff {res : Int × Alist} (h : Rep lst.rgn) (heq : lst.rgn = left ++ r :: right)
    (hsize : 0 < size) (hbase : r.base < base) (hstop : base + size < r.stop)
    (hres : ClearAdd (base + size) (r.stop - (base + size)) r.flags
      { lst with rgn := left ++ ⟨r.base, base - r.base, r.flags⟩ :: right } expand res) :
    (res.1 = 0 ∧ ∀ x f, Marked res.2.rgn x f ↔ Marked lst.rgn x f ∧ ¬(base ≤ x ∧ x < base + size)) ↔
      SplitOk lst r expand := by
  unfold SplitOk
  rw [heq] at h ⊢
  have hrep' : Rep (left ++ ⟨r.base, base - r.base, r.flags⟩ :: right) := by
    refine h.shrink ?_ ?_ ?_
    all_goals simp only [Region.stop] at hstop ⊢; omega
  have hbound := h.bounded r (by simp)
  have hapart := tail_apart h hsize hbase hstop
  have habs := tail_absorbed_iff h hsize hbase hstop
  have hmeets := tail_meets_iff h hsize hbase hstop
  have hadd : base + size + (r.stop - (base + size)) = r.stop := by omega
  have hlen : (left ++ ⟨r.base, base - r.base, r.flags⟩ :: right).length =
    (left ++ r :: right).length := by simp
  -- the first byte of the rest was marked
  have hfirst : Marked (left ++ r :: right) (base + size) r.flags :=
    ⟨r, by simp, ⟨by omega, hstop⟩, rfl⟩
  cases hres with
  | broken herr => exact iff_of_false (fun hc => by simp at hc) fun hc => by simp_all
  | full herr hnabs hfull hexpand =>
    refine iff_of_false (fun hc => by simp at hc) fun hc => ?_
    rw [habs] at hnabs
    push Not at hnabs
    simp_all
  | inserted alloc herr hnabs hroom =>
    rw [habs] at hnabs
    push Not at hnabs
    rcases insertRegion_apart r.flags hrep'.ordered (by omega)
        fun x hx => hapart.cases hx with ⟨hwrap, hnil⟩ | ⟨hwrap, hmerged⟩
    · refine iff_of_false (fun hc => ?_) fun hc => (hc.2.2.2 hnabs.1).2 (hlen ▸ hwrap)
      have := (hc.2 (base + size) r.flags).mpr ⟨hfirst, by omega⟩
      simp only [hnil] at this
      simp [Marked] at this
    · refine iff_of_true ⟨rfl, fun x f => ?_⟩ ⟨herr, hnabs.2, fun hj => absurd hj hnabs.1,
        fun _ => ⟨hlen ▸ hroom, hlen ▸ hwrap⟩⟩
      refine split_marks h hsize hbase hstop (fun x f => ?_) x f
      rw [hmerged.marked hrep'.ordered (by omega), hadd]
  | @displaced left' right' s t herr hrgn hm hsb hflags ht hadj =>
    simp only at hrgn hm
    refine iff_of_false (fun hc => ?_) fun hc => ?_
    · obtain ⟨x, hx, hin, -⟩ := (hc.2 (base + size) r.flags).mpr ⟨hfirst, by omega⟩
      refine displaced_not_within ?_ hadj (Nat.mod_le _ _) x hx hin
      rw [← hrgn]
      exact hapart.not_within (by omega)
    · rcases habs.mp ⟨s, hm, Or.inr ⟨t, by simp [hrgn], hadj, ht⟩⟩ with hj | hd
      · obtain ⟨y, hy, hyb, hyf⟩ := hj
        have := hm.unique hrep' ((hmeets y).mpr ⟨hy, hyb⟩)
        exact hflags (this ▸ hyf)
      · exact hc.2.1 hd
  | @joined left' right' rgn s c herr hrgn hm hflags hnext =>
    obtain ⟨hs, hsb⟩ := (hmeets s).mp hm
    have hjoined : TailJoined (left ++ r :: right) r := ⟨s, hs, hsb, hflags⟩
    have hndisp : ¬TailDisplaced (left ++ r :: right) r := by
      rintro ⟨y, hy, hyb, hyf, -⟩
      have := hm.unique hrep' ((hmeets y).mpr ⟨hy, hyb⟩)
      exact hyf (this ▸ hflags)
    have hiff : (lst.err = false ∧ ¬TailDisplaced (left ++ r :: right) r ∧
        (TailJoined (left ++ r :: right) r → r.stop < 2 ^ 64) ∧
        (¬TailJoined (left ++ r :: right) r → ((left ++ r :: right).length ≠ lst.alloc ∨ expand) ∧
            u16 ((left ++ r :: right).length + 1) ≠ 0)) ↔ r.stop < 2 ^ 64 :=
      ⟨fun hc => hc.2.2.1 hjoined,
        fun hlt => ⟨herr, hndisp, fun _ => hlt, fun hj => absurd hjoined hj⟩⟩
    rw [hiff]
    simp only at hrgn
    rw [hrgn] at hrep' hapart
    rcases hbound.lt_or_eq with hlt | htop
    · refine iff_of_true ⟨rfl, fun x f => ?_⟩ hlt
      have hmerged :=
        joined_above_merged hrep' (by omega) hapart (by rw [hadd, hsb, u64_of_lt hlt]) hflags hnext
      refine split_marks h hsize hbase hstop (fun x f => ?_) x f
      rw [hmerged.marked hrep'.ordered (by omega), hadd, hrgn]
    -- the region at 0 is taken for the one above the rest, and its bytes are lost
    refine iff_of_false (fun hc => ?_) (by omega)
    have hzero : s.base = 0 := by rw [hsb, htop]; rfl
    have hmark : Marked (left ++ r :: right) 0 s.flags :=
      ⟨s, hs, ⟨by omega, by have := h.ordered.nonempty s hs; omega⟩, rfl⟩
    obtain ⟨x, hx, hin, -⟩ := (hc.2 0 s.flags).mpr ⟨hmark, by omega⟩
    exact joined_zero_not_within hrep' hzero (by omega) (by rw [hadd, htop]; exact hzero)
      hnext x hx hin

theorem freeExact_iff (hres : lmbFree lst base size expand = res) :
    FreeExact lst base size expand ↔ (res.1 = 0 ↔ Contained lst.rgn base size) ∧ (res.1 = 0 →
        ∀ x f, Marked res.2.rgn x f ↔ Marked lst.rgn x f ∧ ¬(base ≤ x ∧ x < base + size)) ∧
      (res.1 < 0 → res.2.rgn = lst.rgn) := by
  subst hres
  exact ⟨fun h => ⟨h.succeeds, h.marks, h.atomic⟩, fun h => ⟨h.1, h.2.1, h.2.2⟩⟩

theorem cut_exact (pieces : List Region) (h : Rep lst.rgn) (heq : lst.rgn = left ++ r :: right)
    (hlo : r.base ≤ base) (hhi : base + size ≤ r.stop) (hflags : ∀ p ∈ pieces, p.flags = r.flags)
    (hpieces : ∀ x, (∃ p ∈ pieces, Within Region.base Region.stop p x) ↔
      Within Region.base Region.stop r x ∧ ¬(base ≤ x ∧ x < base + size))
    (hres : lmbFree lst base size expand = (0, { lst with rgn := left ++ (pieces ++ right) })) :
    FreeExact lst base size expand := by
  rw [freeExact_iff hres]
  refine ⟨iff_of_true rfl ⟨r, by simp [heq], hlo, hhi⟩, fun _ x f => ?_, fun hc => by simp at hc⟩
  rw [heq]
  exact marked_cut (heq ▸ h.ordered) hlo hhi hflags hpieces x f

theorem lmbFree_exact_within (expand : Bool) (h : Rep lst.rgn) (hsize : 0 < size)
    (htop : base + size ≤ 2 ^ 64) : FreeExact lst base size expand ↔ ∀ r ∈ lst.rgn, r.base < base →
    base + size < r.stop → SplitOk lst r expand := by
  have hcases := lmbFree_cases expand h hsize htop
  generalize hres : lmbFree lst base size expand = res at hcases
  -- the region that contains the range is the only one that can be split
  have honly : ∀ r ∈ lst.rgn, r.base ≤ base → base + size ≤ r.stop → ∀ s ∈ lst.rgn,
      s.base < base → base + size < s.stop → s = r := by
    intro r hr hlo hhi s hs hslo hshi
    exact h.ordered.eq_of_within hs hr (x := base) ⟨hslo.le, by omega⟩ ⟨hlo, by omega⟩
  have hedge :
      ∀ r ∈ lst.rgn, r.base ≤ base → base + size ≤ r.stop → (r.base = base ∨ r.stop = base + size) →
      ∀ r ∈ lst.rgn, r.base < base → base + size < r.stop → SplitOk lst r expand := by
    intro r hr hlo hhi hedge s hs hslo hshi
    obtain rfl := honly r hr hlo hhi s hs hslo hshi
    omega
  cases hcases with
  | missing hno =>
    rw [freeExact_iff hres]
    refine iff_of_true ⟨iff_of_false (by simp) hno, fun hc => by simp at hc, fun _ => rfl⟩ ?_
    exact fun r hr hlo hhi => absurd ⟨r, hr, hlo.le, hhi.le⟩ hno
  | @whole left right r heq hbase hstop =>
    refine iff_of_true (cut_exact [] h heq hbase.le hstop.ge (by simp) (fun x => ?_) hres)
      (hedge r (by simp [heq]) hbase.le hstop.ge (Or.inl hbase))
    simp only [not_mem_nil, false_and, exists_false, false_iff, Within]
    omega
  | @front left right r heq hbase hstop =>
    refine iff_of_true (cut_exact [⟨base + size, r.size - size, r.flags⟩] h heq hbase.le hstop.le
      (by simp) (fun x => ?_) hres) (hedge r (by simp [heq]) hbase.le hstop.le (Or.inl hbase))
    simp only [mem_singleton, exists_eq_left, Within, Region.stop] at hstop ⊢
    omega
  | @back left right r heq hbase hstop =>
    refine iff_of_true (cut_exact [⟨r.base, r.size - size, r.flags⟩] h heq hbase.le hstop.ge
      (by simp) (fun x => ?_) hres) (hedge r (by simp [heq]) hbase.le hstop.ge (Or.inr hstop))
    simp only [mem_singleton, exists_eq_left, Within, Region.stop] at hstop ⊢
    omega
  | @split left right r heq hbase hstop =>
    have hr : r ∈ lst.rgn := by simp [heq]
    have hrep := heq ▸ h
    have hrep' : Rep (left ++ ⟨r.base, base - r.base, r.flags⟩ :: right) := by
      refine hrep.shrink ?_ ?_ ?_
      all_goals simp only [stop] at hstop ⊢; omega
    have hbound := h.bounded r hr
    have hclear := (hrep'.clear_iff (by omega) (by omega)).mpr (tail_apart hrep hsize hbase hstop)
    have hadd := addRegionFlags_clear
      { lst with rgn := left ++ ⟨r.base, base - r.base, r.flags⟩ :: right } r.flags expand hrep'
      (by omega) hclear
    have hsplit := split_exact_iff h heq hsize hbase hstop hadd
    have hcontained : Contained lst.rgn base size := ⟨r, hr, hbase.le, hstop.le⟩
    have hone : (∀ r ∈ lst.rgn, r.base < base → base + size < r.stop → SplitOk lst r expand) ↔
        SplitOk lst r expand := by
      refine ⟨fun hall => hall r hr hbase hstop, fun hok s hs hslo hshi => ?_⟩
      rwa [honly r hr hbase.le hstop.le s hs hslo hshi]
    rw [hone, ← hsplit, freeExact_iff hres]
    constructor
    · exact fun hc => ⟨hc.1.mpr hcontained, hc.2.1 (hc.1.mpr hcontained)⟩
    · exact fun hc => ⟨iff_of_true hc.1 hcontained, fun _ => hc.2, fun hneg => by omega⟩

/-! ### A range that passes the end of the address space -/

/-- The region that the search takes for the one that contains a range which wraps: the first that
starts at or below the range and ends at or above its wrapped end. -/
def WrapHit (l : List Region) (base size : Nat) (r : Region) : Prop :=
  r ∈ l ∧ r.base ≤ base ∧ base + size ≤ r.stop + 2 ^ 64 ∧ ∀ x ∈ l, x.base < r.base →
    x.stop + 2 ^ 64 < base + size

theorem Rep.coalesceNext_ne_none {l : List Region} (h : Rep l) (i c : Nat) :
    coalesceNext l i c ≠ none := by
  unfold coalesceNext
  split
  · next hi =>
    obtain ⟨left, r, s, right, rfl, rfl⟩ : ∃ left r s right, l = left ++ r :: s :: right ∧
        i = left.length := by
      refine ⟨l.take i, l[i], l[i + 1], l.drop (i + 2), ?_, ?_⟩
      · rw [← drop_eq_getElem_cons hi, ← drop_eq_getElem_cons, take_append_drop]
      · rw [length_take]
        omega
    have hno := h.overlap_eq_false (s := s) (by simp)
    rw [regionsCheck, entry_append, entry_append_succ, hno]
    by_cases hf : r.flags = s.flags
    · rw [if_neg (by simp [hf]), if_neg (by simp)]
      split_ifs <;> simp
    · rw [if_pos hf]
      simp
  · simp

section Failed

variable {rgn' : List Region}

theorem coalesceScan_zero {rs : List Region} {j : Nat}
    (h : coalesceScan rgn base size flags rs i = some (j, rgn', 0)) : rgn' = rgn := by
  induction rs generalizing i with
  | nil =>
    simp only [coalesceScan, Option.some.injEq, Prod.mk.injEq] at h
    exact h.2.1.symm
  | cons r rs ih =>
    rw [coalesceScan] at h
    rcases ite_eq_iff.mp h with ⟨-, h⟩ | ⟨-, h⟩
    · rcases ite_eq_iff.mp h with ⟨-, h⟩ | ⟨-, h⟩
      · simp only [Option.some.injEq, Prod.mk.injEq] at h
        exact h.2.1.symm
      · simp at h
    rcases ite_eq_iff.mp h with ⟨-, h⟩ | ⟨-, h⟩
    · rcases ite_eq_iff.mp h with ⟨-, h⟩ | ⟨-, h⟩
      · exact ih h
      · simp at h
    · rcases ite_eq_iff.mp h with ⟨-, h⟩ | ⟨-, h⟩
      · cases hres : resizeRegions rgn i base size <;> simp [hres] at h
      · exact ih h

theorem coalesceNext_zero (h : coalesceNext rgn i c = some (rgn', 0)) : rgn' = rgn ∧ c = 0 := by
  rcases ite_eq_iff.mp h with ⟨-, h⟩ | ⟨-, h⟩
  · cases hcheck : regionsCheck rgn i (i + 1) with
    | apart => simp_all
    | adjacent => simp [hcheck] at h
    | overlap =>
      simp only [hcheck] at h
      cases hres : resizeRegions rgn i (entry rgn i).base (entry rgn i).size <;> simp [hres] at h
  · simp_all

theorem addRegionFlags_ret (lst : Alist) (base size flags : Nat) (expand : Bool) :
    (addRegionFlags lst base size flags expand).1 = 0 ∨
    (addRegionFlags lst base size flags expand).1 = -1 := by
  unfold addRegionFlags
  split
  · exact .inr rfl
  split
  · exact .inr rfl
  split
  · exact .inr rfl
  · split
    · exact .inl rfl
    · split
      · exact .inr rfl
      · exact .inl rfl

theorem expandIfFull_rgn (lst : Alist) (expand : Bool) :
    (expandIfFull lst expand).2.rgn = lst.rgn := by
  unfold expandIfFull
  split_ifs <;> rfl

/-- A call of `lmb_add_region_flags` that fails leaves the list as it was, having merged nothing,
unless the second merging step failed. -/
theorem addRegionFlags_failed (h : (addRegionFlags lst base size flags expand).1 ≠ 0) :
    ((addRegionFlags lst base size flags expand).2.rgn = lst.rgn ∧
      (lst.err ∨ ∀ i rgn, coalesceScan lst.rgn base size flags lst.rgn 0 ≠ some (i, rgn, 1))) ∨
    ∃ i c, coalesceNext (addRegionFlags lst base size flags expand).2.rgn i c = none := by
  unfold addRegionFlags at h ⊢
  by_cases herr : lst.err
  · simp only [herr, if_true]
    exact .inl ⟨trivial, .inl trivial⟩
  simp only [if_neg herr] at h ⊢
  cases hscan : coalesceScan lst.rgn base size flags lst.rgn 0 with
  | none => simp
  | some res =>
    obtain ⟨i, rgn, c⟩ := res
    simp only [hscan] at h ⊢
    cases hnext : coalesceNext rgn i c with
    | none => exact .inr ⟨i, c, by simpa using hnext⟩
    | some res =>
      obtain ⟨rgn', c'⟩ := res
      simp only [hnext] at h ⊢
      by_cases hc : c' = 0
      · subst hc
        obtain ⟨rfl, rfl⟩ := coalesceNext_zero hnext
        obtain rfl := coalesceScan_zero hscan
        refine .inl ⟨?_, .inr fun j rgn => by simp⟩
        have hrgn := expandIfFull_rgn { lst with rgn := lst.rgn } expand
        generalize expandIfFull { lst with rgn := lst.rgn } expand = res at h hrgn
        obtain ⟨_ | _, lst'⟩ := res
        · exact hrgn
        · simp at h
      · simp [hc] at h

end Failed

theorem coalesceScan_pass {rest : List Region} {flags : Nat} (h : ∀ x ∈ left,
      addrsAdjacent base size x.base x.size = 0 ∧ addrsOverlap base size x.base x.size = false)
    (i : Nat) : coalesceScan rgn base size flags (left ++ rest) i =
      coalesceScan rgn base size flags rest (i + left.length) := by
  induction left generalizing i with
  | nil => rfl
  | cons x left ih =>
    obtain ⟨hadj, hover⟩ := h x (by simp)
    rw [cons_append, coalesceScan, hadj, hover, if_neg (by decide), if_neg (by decide),
      if_neg (by decide), ih (fun y hy => h y (by simp [hy]))]
    congr 1
    simp only [length_cons]
    omega

/-- The whole of a region, and more bytes below its end, come back to the list that still holds it:
the call fails when the region has flags, and merges it otherwise. -/
theorem coalesceScan_readd (base flags : Nat) (h : Rep (left ++ r :: right)) (hbase : base < r.stop)
    (hstop : r.stop < 2 ^ 64) (hleft : ∀ x ∈ left, x.stop < base) : (r.flags ≠ lmbNone →
      coalesceScan (left ++ r :: right) base (r.stop - base) flags (left ++ r :: right) 0 = none) ∧
    (r.flags = lmbNone → ∃ rgn, coalesceScan (left ++ r :: right) base (r.stop - base) flags
      (left ++ r :: right) 0 = some (left.length, rgn, 1)) := by
  have hadd : base + (r.stop - base) = r.stop := by omega
  have hpos := h.ordered.nonempty r (by simp)
  have hright := h.ordered.sides.2
  have hover : ∀ x ∈ left ++ r :: right, addrsOverlap base (r.stop - base) x.base x.size ↔
      base < x.stop ∧ x.base < r.stop := by
    intro x hx
    rw [h.overlap_iff (by omega) (by omega) hx, hadd]
  have hpass : ∀ x ∈ left, addrsAdjacent base (r.stop - base) x.base x.size = 0 ∧
      addrsOverlap base (r.stop - base) x.base x.size = false := by
    intro x hx
    have hx1 := hleft x hx
    have hx2 := h.ordered.nonempty x (by simp [hx])
    constructor
    · unfold addrsAdjacent
      rw [hadd, u64_of_lt hstop, ← stop, u64_of_lt (by omega), if_neg (by omega),
        if_neg (by omega)]
    · rw [← Bool.not_eq_true, hover x (by simp [hx])]
      omega
  have hclear : ∀ x ∈ right, addrsOverlap base (r.stop - base) x.base x.size = false := by
    intro x hx
    have := hright x hx
    rw [← Bool.not_eq_true, hover x (by simp [hx])]
    omega
  have hself := (hover r (by simp)).mpr ⟨hbase, hpos⟩
  have hadj : addrsAdjacent base (r.stop - base) r.base r.size = 0 := by
    unfold addrsAdjacent
    rw [hadd, u64_of_lt hstop, ← stop, u64_of_lt hstop, if_neg (by omega),
      if_neg (by omega)]
  rw [coalesceScan_pass hpass, zero_add, coalesceScan, hadj, hself, if_neg (by decide),
    if_neg (by decide), if_pos rfl]
  unfold resizeRegions
  rw [drop_left]
  constructor
  · intro hflags
    rw [resizeScan, if_pos hself, if_pos hflags]
  · intro hflags
    rw [resizeScan, if_pos hself, if_neg (not_not.mpr hflags), resizeScan_pass hclear]
    exact ⟨_, rfl⟩

section Wrapped

variable {e : Nat} (h : Rep lst.rgn) (hbase : base < 2 ^ 64) (hsize : size < 2 ^ 64)
  (he : base + size = e + 2 ^ 64) (hpos : 0 < e)
include h hbase hsize he hpos

omit hbase hsize in
theorem freeTest_wrapped (hr : r ∈ lst.rgn) :
    FreeTest base (e - 1) r ↔ r.base ≤ base ∧ base + size ≤ r.stop + 2 ^ 64 := by
  have hrpos := h.sorted.nonempty r hr
  have hbound := h.bounded r hr
  unfold stop at hbound ⊢
  rw [FreeTest, subU64_one (by omega) hbound]
  omega

omit hbase hsize in
theorem wrapHit_iff (heq : lst.rgn = left ++ r :: right) (htr : FreeTest base (e - 1) r)
    (hleft : ∀ x ∈ left, ¬FreeTest base (e - 1) x) (s : Region) :
    WrapHit lst.rgn base size s ↔ s = r := by
  have htest := fun {x} => freeTest_wrapped h he hpos (r := x)
  have hr : r ∈ lst.rgn := by simp [heq]
  have hord := heq ▸ h.ordered
  obtain ⟨hle, hend⟩ := (htest hr).mp htr
  have hne := h.ordered.nonempty r hr
  have hbelow : ∀ x ∈ lst.rgn, x.base < r.base → x.stop + 2 ^ 64 < base + size := by
    intro x hx hlt
    have hxl : x ∈ left := by
      rw [heq] at hx
      rcases mem_append_cons.mp hx with hx | rfl | hx
      · exact hx
      · omega
      · have := hord.sides.2 x hx
        omega
    have := mt (htest hx).mpr (hleft x hxl)
    omega
  constructor
  · rintro ⟨hs, hslo, hshi, hsmin⟩
    have h1 := hsmin r hr
    have h2 := hbelow s hs
    exact eq_of_base h.ordered hs hr (by omega)
  · rintro rfl
    exact ⟨hr, hle, hend, hbelow⟩

/-- Beyond the end of the address space the call fails and changes nothing only when the search
finds no region, or one with flags that ends where the range starts. -/
theorem lmbFree_exact_wrapped (expand : Bool) : FreeExact lst base size expand ↔
    ∀ r, WrapHit lst.rgn base size r → r.stop = base ∧ (lst.err ∨ r.flags ≠ lmbNone) := by
  have hlast : subU64 (base + size) 1 = e - 1 := by
    unfold subU64
    omega
  have hno : ¬Contained lst.rgn base size := by
    rintro ⟨r, hr, -, hend⟩
    have := h.bounded r hr
    omega
  -- no call that returns 0 is exact
  have hexact : FreeExact lst base size expand ↔ (lmbFree lst base size expand).1 ≠ 0 ∧
      ((lmbFree lst base size expand).1 < 0 → (lmbFree lst base size expand).2.rgn = lst.rgn) :=
    ⟨fun hc => ⟨fun hz => hno (hc.succeeds.mp hz), hc.atomic⟩,
      fun hc => ⟨iff_of_false hc.1 hno, fun hz => absurd hz hc.1, hc.2⟩⟩
  rw [hexact]
  rcases freeScan_cases base (e - 1) lst.rgn 0 with
    ⟨hscan, hnone⟩ | ⟨left, r, right, heq, hscan, htr, hleft⟩
  · have hres : lmbFree lst base size expand = (-1, lst) := by
      unfold lmbFree
      simp [hlast, hscan]
    rw [hres]
    refine iff_of_true ⟨by simp, fun _ => rfl⟩ ?_
    rintro r ⟨hr, hlo, hhi, -⟩
    exact absurd ((freeTest_wrapped h he hpos hr).mpr ⟨hlo, hhi⟩) (hnone r hr)
  · rw [zero_add] at hscan
    have hr : r ∈ lst.rgn := by simp [heq]
    obtain ⟨hle, hend⟩ := (freeTest_wrapped h he hpos hr).mp htr
    have hbound := h.bounded r hr
    have hne := h.ordered.nonempty r hr
    simp only [wrapHit_iff h he hpos heq htr hleft, forall_eq]
    rw [lmbFree_found expand heq (h.sorted.nonempty r hr) hbound hlast hscan]
    by_cases hfront : r.base = base
    · refine iff_of_false (fun hc => hc.1 ?_) (by omega)
      split_ifs <;> rfl
    rw [if_neg (fun hc => hfront hc.1), if_neg hfront]
    by_cases hback : r.stop - 1 = e - 1
    · rw [if_pos hback]
      exact iff_of_false (fun hc => hc.1 rfl) (by omega)
    rw [if_neg hback, u64_of_lt (by omega), subU64_of_le hle hbase,
      subU64_of_le (by omega) (by omega), show e - 1 + 1 = e by omega,
      show r.stop - 1 - (e - 1) = r.stop - e by omega]
    have hstop : r.stop = r.base + r.size := rfl
    by_cases hsame : r.stop = base
    · -- the region is not changed before its bytes are added again
      have hlst : { lst with rgn := left ++ ⟨r.base, base - r.base, r.flags⟩ :: right } = lst := by
        rw [show base - r.base = r.size by omega, ← heq]
      rw [hlst]
      obtain ⟨hfails, hmerges⟩ :=
        coalesceScan_readd e r.flags (heq ▸ h) (by omega) (by omega) fun x hx => by
          have hxr := (heq ▸ h.ordered : Ordered _ _ (left ++ r :: right)).sides.1 x hx
          have hxne := h.ordered.nonempty x (by simp [heq, hx])
          have := mt (freeTest_wrapped h he hpos (by simp [heq, hx])).mpr (hleft x hx)
          omega
      rw [← heq] at hfails hmerges
      refine ⟨fun hc => ⟨hsame, ?_⟩, fun hc => ?_⟩
      · by_contra hnot
        push Not at hnot
        obtain ⟨rgn, hrgn⟩ := hmerges hnot.2
        have hneg := (addRegionFlags_ret lst e (r.stop - e) r.flags expand).resolve_left hc.1
        rcases addRegionFlags_failed hc.1 with ⟨-, herr | hscan'⟩ | ⟨i, c, hnext⟩
        · exact hnot.1 herr
        · exact hscan' _ _ hrgn
        · rw [hc.2 (by omega)] at hnext
          exact h.coalesceNext_ne_none i c hnext
      · by_cases herr : lst.err
        · simp [addRegionFlags, herr]
        · have hscan' := hfails (hc.2.resolve_left herr)
          simp [addRegionFlags, herr, hscan']
    · refine iff_of_false (fun hc => ?_) fun hc => hsame hc.1
      have hneg := (addRegionFlags_ret _ e (r.stop - e) r.flags expand).resolve_left hc.1
      have hrgn := hc.2 (by omega)
      rcases addRegionFlags_failed hc.1 with ⟨hkept, -⟩ | ⟨i, c, hnext⟩
      · rw [hrgn, heq] at hkept
        have hr' : r = ⟨r.base, base - r.base, r.flags⟩ := by simpa using hkept
        have : r.size = base - r.base := congrArg Region.size hr'
        omega
      · rw [hrgn] at hnext
        exact h.coalesceNext_ne_none i c hnext

end Wrapped

/-- `_lmb_free` is exact and atomic if and only if the rest of a region that it splits can be added
and is not lost, and a range that passes `2^64` meets no region, or one with flags that ends where
the range starts. -/
theorem lmbFree_exact_iff {lst : Alist} {base size : Nat} (expand : Bool) (h : Rep lst.rgn)
    (hpos : 0 < size) (hbase : base < 2 ^ 64) (hsize : size < 2 ^ 64) :
    FreeExact lst base size expand ↔
      (base + size ≤ 2 ^ 64 → ∀ r ∈ lst.rgn, r.base < base → base + size < r.stop →
        SplitOk lst r expand) ∧
      (2 ^ 64 < base + size → ∀ r, WrapHit lst.rgn base size r →
        r.stop = base ∧ (lst.err = true ∨ r.flags ≠ lmbNone)) := by
  by_cases htop : base + size ≤ 2 ^ 64
  · rw [lmbFree_exact_within expand h hpos htop]
    exact ⟨fun hc => ⟨fun _ => hc, fun hw => by omega⟩, fun hc => hc.1 htop⟩
  · rw
      [lmbFree_exact_wrapped h hbase hsize (e := base + size - 2 ^ 64) (by omega) (by omega) expand]
    exact ⟨fun hc => ⟨fun hw => by omega, fun _ => hc⟩, fun hc => hc.2 (by omega)⟩

theorem lmbFree_exact_iff_middle :
    let lst : Alist := ⟨[⟨0x1000, 0x1000, 0⟩, ⟨0x3000, 0x100, 4⟩], 4, false⟩
    FreeExact lst 0x1400 0x200 false := by
  intro lst
  refine (lmbFree_exact_iff false (by decide) (by decide) (by decide) (by decide)).mpr
    ⟨fun _ r hr _ _ => ?_, fun hw => by omega⟩
  have hno : ¬TailJoined lst.rgn r ∧ ¬TailDisplaced lst.rgn r := by
    unfold TailJoined TailDisplaced
    simp only [lst, mem_cons, not_mem_nil, or_false] at hr ⊢
    rcases hr with rfl | rfl <;> simp [stop, u64]
  exact ⟨rfl, hno.2, fun hj => absurd hj hno.1, fun _ => ⟨.inl (by decide), by decide⟩⟩

/-- When the list is full and cannot be extended, the split fails after the region was cut down:
the bytes above the range are lost. -/
theorem failed_split_truncates :
    let lst : Alist := ⟨[⟨0x1000, 0x1000, 0⟩, ⟨0x3000, 0x100, 4⟩, ⟨0x5000, 0x100, 0⟩,
      ⟨0x7000, 0x100, 0⟩], 4, false⟩
    Rep lst.rgn ∧ (lmbFree lst 0x1400 0x200 false).1 = -1 ∧
      (lmbFree lst 0x1400 0x200 false).2.rgn ≠ lst.rgn ∧ ¬FreeExact lst 0x1400 0x200 false := by
  intro lst
  have hret : (lmbFree lst 0x1400 0x200 false).1 = -1 := by decide
  have hchanged : (lmbFree lst 0x1400 0x200 false).2.rgn ≠ lst.rgn := by decide
  exact ⟨by decide, hret, hchanged, fun hexact => hchanged (hexact.atomic (by rw [hret]; decide))⟩

end MtkBoot.Lmb
