import MtkBoot.Lmb.Merge

/-! What one call of `lmb_add_region_flags` does to a well-formed list: the range is joined with a
run of neighbours or put between two of them, or the call fails, or the range is lost. -/

namespace MtkBoot.Lmb

open MtkBoot.Lib List Region

/-- A range that overlaps regions without flags only, and has none itself when it does. -/
def Compatible (base size flags : Nat) (l : List Region) : Prop :=
  ∀ r ∈ l, base < r.stop → r.base < base + size → r.flags = lmbNone ∧ flags = lmbNone

/-- No region of the list overlaps the range, and none with its flags touches it. -/
def Fresh (base size flags : Nat) (l : List Region) : Prop :=
  ∀ r ∈ l, (r.stop ≤ base ∨ base + size ≤ r.base) ∧
    (r.flags = flags → r.stop ≠ base ∧ r.base ≠ base + size)

/-- The region above the range has other flags and touches a next region of those flags. -/
def Displaced (base size : Nat) (l : List Region) : Prop :=
  ∃ r ∈ l, ∃ s ∈ l, r.base = base + size ∧ s.base = r.stop ∧ s.flags = r.flags

/-- `lmb_add_region_flags` reports success for the range without having added it: it merged the two
regions above it instead, or the counter of the list wrapped. -/
def Lost (base size flags : Nat) (l : List Region) : Prop :=
  Fresh base size flags l ∧ (Displaced base size l ∨ u16 (l.length + 1) = 0)

/-- The range starts where a region of its flags ends, ends where another one starts, and overlaps a
region in between. -/
def Bridging (base size flags : Nat) (l : List Region) : Prop :=
  (∃ x ∈ l, x.stop = base ∧ x.flags = flags) ∧ (∃ x ∈ l, base < x.stop ∧ x.base < base + size) ∧
    ∃ x ∈ l, x.base = base + size ∧ x.flags = flags

/-- `l'` is `l` with some run of neighbours joined with the range, and no region of its flags is
left beside the range, unless the range is bridging. -/
def Sealed (base size flags : Nat) (l l' : List Region) : Prop :=
  ∃ left mid right m, l = left ++ mid ++ right ∧ l' = left ++ m :: right ∧
    Merge base size flags left mid right m ∧ (∀ x ∈ left, x.stop = base → x.flags ≠ flags) ∧
    (Bridging base size flags l ∨ ∀ x ∈ right, x.base = base + size → x.flags ≠ flags)

theorem Sealed.merged {base size flags : Nat} {l l' : List Region}
    (h : Sealed base size flags l l') : Merged base size flags l l' := by
  obtain ⟨left, mid, right, m, hl, hl', hm, -⟩ := h
  exact ⟨left, mid, right, m, hl, hl', hm⟩

instance (base size flags : Nat) (l : List Region) : Decidable (Compatible base size flags l) :=
  inferInstanceAs (Decidable (∀ r ∈ l, _ → _ → _))

instance (base size flags : Nat) (l : List Region) : Decidable (Fresh base size flags l) :=
  inferInstanceAs (Decidable (∀ r ∈ l, _))

instance (base size : Nat) (l : List Region) : Decidable (Displaced base size l) :=
  inferInstanceAs (Decidable (∃ r ∈ l, ∃ s ∈ l, _))

instance (base size flags : Nat) (l : List Region) : Decidable (Bridging base size flags l) :=
  inferInstanceAs (Decidable (_ ∧ _ ∧ _))

instance (base size flags : Nat) (l : List Region) : Decidable (Lost base size flags l) :=
  inferInstanceAs (Decidable (_ ∧ _))

section Insert

variable {base size flags : Nat}

theorem insertIdx_between {left right : List Region} (hleft : ∀ r ∈ left, r.base ≤ base)
    (hright : ∀ r ∈ right, base < r.base) {k : Nat} (hk : k ≤ right.length) :
    insertIdx (left ++ right) base (left.length + k) = left.length := by
  induction k with
  | zero =>
    rcases left.eq_nil_or_concat with rfl | ⟨init, r, rfl⟩
    · rfl
    · have hr : ¬base < r.base := not_lt.mpr (hleft r (by simp))
      simp [insertIdx, entry, hr]
  | succ k ih =>
    have hk' : k < right.length := hk
    have hentry : entry (left ++ right) (left.length + k) = right[k] := by simp [entry, hk']
    rw [← add_assoc, insertIdx, hentry, if_pos (hright _ (by simp)), ih (by omega)]

theorem insertRegion_apart {l : List Region} (flags : Nat) (h : Ordered Region.base Region.stop l)
    (hsize : 0 < size) (hapart : ∀ r ∈ l, r.stop ≤ base ∨ base + size ≤ r.base) :
    (u16 (l.length + 1) = 0 ∧ insertRegion l ⟨base, size, flags⟩ = []) ∨ (u16 (l.length + 1) ≠ 0 ∧
        Merged base size flags l (insertRegion l ⟨base, size, flags⟩)) := by
  obtain ⟨left, right, rfl, hlt, hge⟩ := h.split_lt (base + size)
  have hleft : ∀ r ∈ left, r.stop ≤ base := fun r hr => by
    have hr' := hapart r (by simp [hr])
    have := hlt r hr
    omega
  have hidx : insertIdx (left ++ right) base (left ++ right).length = left.length := by
    rw [length_append]
    refine insertIdx_between (fun r hr => ?_) (fun r hr => ?_) le_rfl
    · exact (h.nonempty r (by simp [hr])).le.trans (hleft r hr)
    · have := hge r hr
      omega
  simp only [insertRegion, hidx, take_left, drop_left, countUp]
  have hlen : (left ++ ⟨base, size, flags⟩ :: right).length = (left ++ right).length + 1 := by
    simp; omega
  rw [hlen]
  by_cases hwrap : u16 ((left ++ right).length + 1) = 0
  · exact Or.inl ⟨hwrap, if_pos hwrap⟩
  · refine Or.inr ⟨hwrap, ?_⟩
    rw [if_neg hwrap]
    exact ⟨left, [], right,
      _, by simp, rfl, by simp, rfl, le_rfl, le_rfl, fun x => by simp [Within, stop], hleft, hge⟩

end Insert

theorem eq_of_base {l : List Region} (h : Ordered base stop l) {x y : Region}
    (hx : x ∈ l) (hy : y ∈ l) (heq : x.base = y.base) : x = y :=
  h.eq_of_within hx hy ⟨le_rfl, h.nonempty x hx⟩ ⟨heq.ge, heq ▸ h.nonempty y hy⟩

theorem next_of_least {left right : List Region} {r s : Region}
    (h : Ordered base stop (left ++ r :: right)) (hs : s ∈ left ++ r :: right)
    (hle : r.stop ≤ s.base) (hleast : ∀ t ∈ right, s.base ≤ t.base) :
    ∃ rest, right = s :: rest := by
  obtain ⟨hr, hright, -⟩ := ordered_cons.mp (ordered_append.mp h).2.1
  have hs_ne := h.nonempty s hs
  have hmem : s ∈ right := by
    rcases mem_append_cons.mp hs with hs | rfl | hs
    · have := h.sides.1 s hs
      omega
    · omega
    · exact hs
  cases right with
  | nil => cases hmem
  | cons t rest =>
    rcases mem_cons.mp hmem with rfl | hmem
    · exact ⟨rest, rfl⟩
    · obtain ⟨ht, -, htr⟩ := ordered_cons.mp hright
      have := htr s hmem
      have := hleast t (by simp)
      omega

theorem next_of_adjacent {left right : List Region} {r y : Region}
    (h : Ordered base stop (left ++ r :: right)) (hy : y ∈ left ++ r :: right)
    (hadj : y.base = r.stop) : ∃ rest, right = y :: rest :=
  next_of_least h hy hadj.ge fun t ht => hadj ▸ h.sides.2 t ht

/-! ### The merging cases -/

section Cases

variable {base size flags : Nat} {left right : List Region} {r : Region}

theorem skipped_below (h : Wf (left ++ r :: right)) (hskip : ∀ x ∈ left, Skipped base size flags x)
    (hr : r.base ≤ base + size) : ∀ x ∈ left, x.stop ≤ base := by
  intro x hx
  have hxr := h.ordered.sides.1 x hx
  have hx' := h.ordered.nonempty x (by simp [hx])
  have := (hskip x hx).1
  omega

theorem split_right (h : Ordered Region.base Region.stop (left ++ r :: right)) (x : Nat) :
    ∃ mid rest, right = mid ++ rest ∧ (∀ s ∈ mid, r.stop ≤ s.base ∧ s.base < x) ∧
    ∀ s ∈ rest, x ≤ s.base := by
  obtain ⟨-, hright, habove⟩ := ordered_cons.mp (ordered_append.mp h).2.1
  obtain ⟨mid, rest, rfl, hmid, hrest⟩ := hright.split_lt x
  exact ⟨mid, rest, rfl, fun s hs => ⟨habove s (by simp [hs]), hmid s hs⟩, hrest⟩

/-- `lmb_resize_regions` at the first region that overlaps a compatible range. -/
theorem resizeRegions_compatible (h : Ordered Region.base Region.stop (left ++ r :: right))
    (hsane : ∀ x ∈ left ++ r :: right, x.Sane) (hsize : 0 < size) (htop : base + size < 2 ^ 64)
    (hcompat : Compatible base size flags (left ++ r :: right))
    (hlo : base < r.stop) (hhi : r.base < base + size) : ∃ mid rest m, right = mid ++ rest ∧
      resizeRegions (left ++ r :: right) left.length base size = some (left ++ m :: rest) ∧
      (∀ x ∈ r :: mid, base < x.stop ∧ x.base < base + size ∧ x.flags = flags) ∧
      (∀ x ∈ rest, base + size ≤ x.base) ∧ m.flags = r.flags ∧ m.base = min base r.base ∧
      (((r :: mid).getLast (by simp)).stop < 2 ^ 64 →
        m.stop = max ((r :: mid).getLast (by simp)).stop (base + size)) := by
  obtain ⟨mid, rest, rfl, hmid, hrest⟩ := split_right h (base + size)
  have hin : ∀ x ∈ r :: mid ++ rest, x ∈ left ++ r :: (mid ++ rest) := fun x hx =>
    mem_append_right _ (by simpa using hx)
  have hover : ∀ x ∈ r :: mid, base < x.stop ∧ x.base < base + size ∧ x.flags = lmbNone ∧
      flags = lmbNone := by
    intro x hx
    have hx' := hin x (mem_append_left _ hx)
    have hpos := h.nonempty x hx'
    have hx'' : base < x.stop ∧ x.base < base + size := by
      rcases mem_cons.mp hx with rfl | hx
      · exact ⟨hlo, hhi⟩
      · have := hmid x hx
        omega
    exact ⟨hx''.1, hx''.2, hcompat x hx' hx''.1 hx''.2⟩
  have hlen : 0 + (r :: mid).length ≤ base + size :=
    length_le (h.sublist (by simp)) (by simp) (fun x hx => (hover x hx).2.1) (by omega)
  obtain ⟨m, heq, hm, hbase, hstop⟩ := resizeRegions_run hsize htop left (r :: mid) rest
    (fun x hx => hsane x (hin x hx)) (by omega) (by simp)
    (fun x hx => ⟨(hover x hx).1, (hover x hx).2.1, (hover x hx).2.2.1⟩) hrest
  refine ⟨mid, rest, m, rfl, by simpa using heq, fun x hx => ?_, hrest, ?_, hbase, hstop⟩
  · obtain ⟨h1, h2, h3, h4⟩ := hover x hx
    exact ⟨h1, h2, h3.trans h4.symm⟩
  · exact hm.trans (hover r (by simp)).2.2.1.symm

theorem merge_next {mid : List Region} {m : Region} (h : Wf (left ++ mid ++ right))
    (hsize : 0 < size) (htop : base + size < 2 ^ 64) (hskip : ∀ x ∈ left, Skipped base size flags x)
    (hm : Merge base size flags left mid right m) :
    ∃ l' c, coalesceNext (left ++ m :: right) left.length 1 = some (l', c) ∧ c ≠ 0 ∧
      Sealed base size flags (left ++ mid ++ right) l' := by
  have hleft : ∀ x ∈ left, x.stop = base → x.flags ≠ flags := fun x hx => (hskip x hx).2.2
  have hord := hm.ordered hsize h.ordered
  have hupper := hm.upper
  rcases coalesceNext_wf (hm.wf hsize htop h) 1 with ⟨heq, hno⟩ | ⟨s, rest, rfl, hs, hadj, heq⟩
  · refine ⟨_, _, heq, by decide, left, mid, right, m, rfl, rfl, hm, hleft, .inr ?_⟩
    intro x hx hbase hflags
    have hle := hm.le_right x hx
    obtain ⟨rest, rfl⟩ := next_of_adjacent hord (by simp [hx]) (by omega : x.base = m.stop)
    exact hno x rest rfl ⟨hflags.trans hm.flags_eq.symm, by omega⟩
  · refine ⟨_, _, heq, by decide, left, mid ++ [s], rest, _, by simp, rfl,
      hm.next h.ordered (hs.trans hm.flags_eq) hadj rfl ?_ hm.flags_eq, hleft, .inr ?_⟩
    · simp only [stop] at hadj ⊢
      omega
    · intro x hx hbase
      obtain ⟨hs_ne, -, hsx⟩ := ordered_cons.mp (ordered_append.mp h.ordered).2.1
      have := hsx x hx
      omega

theorem merge_above (h : Wf (left ++ r :: right)) (hskip : ∀ x ∈ left, Skipped base size flags x)
    (hbase : r.base = base + size) (hflags : r.flags = flags) :
    Merge base size flags left [r] right ⟨base, r.size + size, r.flags⟩ := by
  have hright := h.ordered.sides.2
  refine merge_run (by simpa using h.ordered) (by simp) (by simpa using hflags) hflags ?_
    (skipped_below h hskip hbase.le) (fun s hs => ?_) ?_ ?_
  · simp only [mem_singleton, forall_eq, stop]
    omega
  · have := hright s hs
    unfold stop at this
    omega
  · simp [hbase]
  · simp only [stop, getLast_singleton]
    omega

variable (h : Wf (left ++ r :: right)) (hsize : 0 < size) (htop : base + size < 2 ^ 64)
  (hskip : ∀ x ∈ left, Skipped base size flags x)
include h hsize htop hskip

/-- The region below the range has the same flags: it is extended, and then takes in all the
regions that the range overlaps, or the next one if that is adjacent. -/
theorem coalesceNext_below (hcompat : Compatible base size flags (left ++ r :: right))
    (hstop : r.stop = base) (hflags : r.flags = flags) :
    ∃ l' c, coalesceNext (left ++ ⟨r.base, r.size + size, r.flags⟩ :: right) left.length 1 =
      some (l', c) ∧ c ≠ 0 ∧ Sealed base size flags (left ++ r :: right) l' := by
  have hleft := skipped_below h hskip (show r.base ≤ base + size by
    unfold stop at hstop; omega)
  obtain ⟨mid, rest, rfl, hmid, hrest⟩ := split_right h.ordered (base + size)
  have hrun : ∀ x ∈ r :: mid, base ≤ x.stop ∧ x.base ≤ base + size := by
    intro x hx
    rcases mem_cons.mp hx with rfl | hx
    · unfold stop at hstop ⊢
      omega
    · have := hmid x hx
      have := h.ordered.nonempty x (by simp [hx])
      omega
  rcases mid with _ | ⟨s, mid⟩
  · have hm : Merge base size flags left [r] rest ⟨r.base, r.size + size, r.flags⟩ := by
      refine merge_run (by simpa using h.ordered) (by simp) (by simpa using hflags)
        hflags hrun hleft hrest ?_ ?_
      · simp only [stop, head_cons] at hstop ⊢
        omega
      · simp only [stop, getLast_singleton] at hstop ⊢
        omega
    simpa using merge_next (by simpa using h) hsize htop hskip hm
  · have hover : ∀ x ∈ s :: mid, base < x.stop ∧ x.base < base + size ∧ x.flags = lmbNone ∧
        flags = lmbNone := by
      intro x hx
      have hx' : x ∈ left ++ r :: (s :: mid ++ rest) :=
        mem_append_right _ (mem_cons_of_mem _ (mem_append_left _ hx))
      have hlo := hmid x hx
      have hhi := h.ordered.nonempty x hx'
      exact ⟨by omega, by omega, hcompat x hx' (by omega) (by omega)⟩
    have hnone : r.flags = lmbNone := hflags.trans (hover s (by simp)).2.2.2
    let m : Region := ⟨r.base, r.size + size, r.flags⟩
    have hmstop : m.stop = base + size := by
      simp only [m, stop] at hstop ⊢
      omega
    have hmtop : m.stop < 2 ^ 64 := by omega
    have hmsane : m.Sane := ⟨by simp only [m]; omega, hmtop.le⟩
    have hsane : ∀ x ∈ m :: s :: mid ++ rest, x.Sane := by
      intro x hx
      rcases mem_cons.mp hx with rfl | hx
      · exact hmsane
      · exact h.sane x (mem_append_right _ (mem_cons_of_mem _ hx))
    have hlen : (m :: s :: mid).length < 2 ^ 64 := by
      have := (h.sublist (l := r :: s :: mid) (by simp)).length_lt
      simpa using this
    -- the extended entry itself is the first of the run that `lmb_resize_regions` finds
    obtain ⟨m', heq, hm', hbase', hstop'⟩ := resizeRegions_run hmsane.1 hmtop left _ rest
      hsane hlen (by simp) (fun x hx => by
        rcases mem_cons.mp hx with rfl | hx
        · exact ⟨by have := hmsane.1; unfold stop; omega, by have := hmsane.1; omega, hnone⟩
        · obtain ⟨hlo, hhi, hnone, -⟩ := hover x hx
          exact ⟨by simp only [m]; unfold stop at *; omega,
            by change x.base < m.stop; omega, hnone⟩)
      (fun x hx => by change m.stop ≤ x.base; rw [hmstop]; exact hrest x hx)
    refine ⟨left ++ m' :: rest, 2, ?_, by decide, left, r :: s :: mid, rest, m', by simp, rfl, ?_,
      fun x hx => (hskip x hx).2.2, ?_⟩
    · have hcheck : addrsOverlap m.base m.size s.base s.size := by
        rw [(hsane s (by simp)).overlap_iff hmsane.1 hmtop]
        obtain ⟨hlo, hhi, -⟩ := hover s (by simp)
        exact ⟨by simp only [m]; unfold stop at *; omega, by change s.base < m.stop; omega⟩
      have hsflags : m.flags = s.flags := hnone.trans (hover s (by simp)).2.2.1.symm
      change coalesceNext (left ++ m :: (s :: mid ++ rest)) left.length 1 = _
      unfold coalesceNext
      rw [if_pos (by simp)]
      simp only [cons_append, regionsCheck, entry_append, entry_append_succ, hsflags, hcheck,
        ne_eq, not_true_eq_false, if_false, if_true]
      rw [show left ++ m :: s :: (mid ++ rest) = left ++ (m :: s :: mid) ++ rest by simp, heq]
    · refine merge_run (by simpa using h.ordered) (by simp) (fun x hx => ?_)
        (hm'.trans (hover s (by simp)).2.2.2.symm) hrun hleft hrest ?_ ?_
      · rcases mem_cons.mp hx with rfl | hx
        · exact hflags
        · obtain ⟨-, -, hx0, h0⟩ := hover x hx
          exact hx0.trans h0.symm
      · simp only [hbase', head_cons, m]
        unfold stop at hstop
        omega
      · rw [hstop' (h.bounded _
          (mem_append_right _ (mem_cons_of_mem _ (mem_append_left _ (getLast_mem _)))))]
        change max _ m.stop = _
        simp [hmstop]
    · -- the entry after the run is not looked at again
      rw [or_iff_not_imp_right]
      intro hnot
      push Not at hnot
      obtain ⟨x, hx, hxb, hxf⟩ := hnot
      obtain ⟨hlo, hhi, -⟩ := hover s (by simp)
      exact ⟨⟨r, by simp, hstop, hflags⟩, ⟨s, by simp, hlo, hhi⟩, x, by simp [hx], hxb, hxf⟩

theorem resizeRegions_overlap (hcompat : Compatible base size flags (left ++ r :: right))
    (hlo : base < r.stop) (hhi : r.base < base + size) : ∃ mid rest m, right = mid ++ rest ∧
      resizeRegions (left ++ r :: right) left.length base size = some (left ++ m :: rest) ∧
      Merge base size flags left (r :: mid) rest m := by
  obtain ⟨mid, rest, m, rfl, heq, hover, hrest, hm, hbase, hstop⟩ :=
    resizeRegions_compatible h.ordered h.sane hsize htop hcompat hlo hhi
  refine ⟨mid, rest, m, rfl, heq, merge_run (by simpa using h.ordered) (by simp)
    (fun x hx => (hover x hx).2.2) (hm.trans (hover r (by simp)).2.2) (fun x hx => ?_)
    (skipped_below h hskip hhi.le) hrest hbase (hstop (h.bounded _ ?_))⟩
  · obtain ⟨h1, h2, -⟩ := hover x hx
    omega
  · rw [← cons_append]
    exact mem_append_right _ (mem_append_left _ (getLast_mem _))

end Cases

/-- The results of `lmb_add_region_flags` on the list `lst`. -/
inductive AddCase (base size flags : Nat) (lst : Alist) (expand : Bool) : Int × Alist → Prop
  | broken (herr : lst.err = true) : AddCase base size flags lst expand (-1, lst)
  | full (hexpand : expand = false) :
      AddCase base size flags lst expand (-1, { lst with err := true })
  | added {rgn : List Region} (alloc : Nat) (hkept : ¬Lost base size flags lst.rgn)
      (hsealed : Sealed base size flags lst.rgn rgn) :
    AddCase base size flags lst expand (0, { lst with rgn := rgn, alloc := alloc })
  | wrapped (alloc : Nat) (hlost : Lost base size flags lst.rgn) :
    AddCase base size flags lst expand (0, { lst with rgn := [], alloc := alloc })
  | displaced {left right : List Region} {r s : Region} (hlost : Lost base size flags lst.rgn)
      (hrgn : lst.rgn = left ++ r :: s :: right) (hflags : s.flags = r.flags)
      (hadj : r.stop = s.base) :
      AddCase base size flags lst expand (0,
        { lst with rgn := left ++ ⟨r.base, r.size + s.size, r.flags⟩ :: right })

section Added

variable {base size flags : Nat} {lst : Alist} {expand : Bool}

theorem Merged.seal {l l' : List Region} (h : Merged base size flags l l')
    (hfresh : Fresh base size flags l) : Sealed base size flags l l' := by
  obtain ⟨left, mid, right, m, rfl, rfl, hm⟩ := h
  refine ⟨left, mid, right, m, rfl, rfl, hm, fun x hx hstop hflags => ?_,
    .inr fun x hx hbase hflags => ?_⟩
  · exact ((hfresh x (by simp [hx])).2 hflags).1 hstop
  · exact ((hfresh x (by simp [hx])).2 hflags).2 hbase

theorem addCase_fresh (lst : Alist) (h : Wf lst.rgn) (hsize : 0 < size) (herr : lst.err = false)
    (hfresh : Fresh base size flags lst.rgn) (hplace : ¬Displaced base size lst.rgn) :
    AddCase base size flags lst expand (match expandIfFull lst expand with
        | (false, lst) => (-1, lst)
        | (true, lst) => (0, { lst with rgn := insertRegion lst.rgn ⟨base, size, flags⟩ })) := by
  rcases expandIfFull_cases lst expand herr with ⟨-, hexpand, heq⟩ | ⟨-, alloc, heq⟩
  · rw [heq]
    exact .full hexpand
  rw [heq]
  rcases insertRegion_apart flags h.ordered hsize fun r hr =>
    (hfresh r hr).1 with ⟨hwrap, heq⟩ | ⟨hwrap, hmerged⟩
  · simp only [heq]
    exact .wrapped alloc ⟨hfresh, Or.inr hwrap⟩
  · exact .added alloc (fun hlost => hlost.2.elim hplace hwrap) (hmerged.seal hfresh)

/-- `lmb_add_region_flags` on a well-formed list, for a range that overlaps regions without flags
only if it has none itself. -/
theorem addRegionFlags_cases (lst : Alist) (expand : Bool) (h : Wf lst.rgn) (hsize : 0 < size)
    (htop : base + size < 2 ^ 64) (hcompat : Compatible base size flags lst.rgn) :
    AddCase base size flags lst expand (addRegionFlags lst base size flags expand) := by
  cases herr : lst.err with
  | true =>
    rw [addRegionFlags, herr]
    exact .broken herr
  | false =>
    have hscan := coalesceScan_cases hsize htop flags [] lst.rgn (by simpa using h) (by simp)
    simp only [nil_append, length_nil] at hscan
    obtain ⟨rgn, alloc, err⟩ := lst
    subst herr
    unfold addRegionFlags
    rcases hscan with ⟨hskip, heq⟩ | ⟨left, r, right, rfl, hskip, hstop⟩
    · simp only [heq, coalesceNext, Nat.not_succ_lt_self, if_false, ne_eq, not_true_eq_false]
      refine addCase_fresh ⟨rgn, alloc, false⟩ h hsize rfl (fun r hr => ?_) ?_
      · obtain ⟨hno, hup, hdown⟩ := hskip r hr
        exact ⟨hno, fun hf => ⟨fun hc => hdown hc hf, hup⟩⟩
      · rintro ⟨r, hr, -, -, hbase, -⟩
        exact (hskip r hr).2.1 hbase
    · generalize coalesceScan (left ++ r :: right) base size flags (left ++ r :: right) 0 =
        res at hstop
      cases hstop with
      | foreign hbase hflags =>
        have hfresh : Fresh base size flags (left ++ r :: right) := fun x hx => by
          rcases mem_append_cons.mp hx with hx | rfl | hx'
          · obtain ⟨hno, hup, hdown⟩ := hskip x hx
            exact ⟨hno, fun hf => ⟨fun hc => hdown hc hf, hup⟩⟩
          · exact ⟨.inr hbase.ge, fun hf => absurd hf hflags⟩
          · have hrx := h.ordered.sides.2 x hx'
            have hrr := h.ordered.nonempty r (by simp)
            have hxx := h.ordered.nonempty x (by simp [hx'])
            exact ⟨by omega, fun _ => by omega⟩
        rcases coalesceNext_wf h 0 with ⟨heq, hno⟩ | ⟨s, rest, rfl, hs, hadj, heq⟩
        · simp only [heq, ne_eq, not_true_eq_false, if_false]
          refine addCase_fresh ⟨left ++ r :: right, alloc, false⟩ h hsize rfl hfresh ?_
          rintro ⟨x, hx, y, hy, hxb, hyx, hxy⟩
          obtain rfl := eq_of_base h.ordered hx (by simp) (hxb.trans hbase.symm)
          obtain ⟨rest, rfl⟩ := next_of_adjacent h.ordered hy hyx
          exact hno y rest rfl ⟨hxy, hyx.symm⟩
        · simp only [heq]
          refine .displaced ⟨hfresh, .inl ⟨r, by simp, s, by simp, hbase, hadj.symm, hs⟩⟩ rfl hs
            hadj
      | above hbase hflags =>
        have hm := merge_above h hskip hbase hflags
        obtain ⟨l', c, heq, hc, hmerged⟩ := merge_next (by simpa using h) hsize htop hskip hm
        simp only [heq, hc, ne_eq, not_false_eq_true, if_true]
        exact .added alloc (fun hlost => (hlost.1 r (by simp)).2 hflags |>.2 hbase)
          (by simpa using hmerged)
      | below hstop hflags =>
        obtain ⟨l', c, heq, hc, hmerged⟩ :=
          coalesceNext_below h hsize htop hskip hcompat hstop hflags
        simp only [heq, hc, ne_eq, not_false_eq_true, if_true]
        exact .added alloc (fun hlost => (hlost.1 r (by simp)).2 hflags |>.1 hstop) hmerged
      | overlap hlo hhi =>
        obtain ⟨mid, rest, m, rfl, heq, hm⟩ :=
          resizeRegions_overlap h hsize htop hskip hcompat hlo hhi
        obtain ⟨l', c, heq', hc, hmerged⟩ := merge_next (by simpa using h) hsize htop hskip hm
        simp only [heq, Option.map_some, heq', hc, ne_eq, not_false_eq_true, if_true]
        refine .added alloc (fun hlost => ?_) (by simpa using hmerged)
        have := (hlost.1 r (by simp)).1
        omega

end Added

end MtkBoot.Lmb
