import MtkBoot.Lmb.Reserve

/-! What one call of `lmb_add_region_flags` does with a range that overlaps no region of the list,
where the tests for neighbours may read a wrapped end. -/

namespace MtkBoot.Lmb

open MtkBoot.Lib Region

variable {base flags size : Nat} {l left right : List Region} {r s : Region}

/-- A region at which the first loop of `lmb_add_region_flags` stops when none overlaps the range:
it starts at the end of the range, or it ends at its start and has its flags.  Both ends may
wrap. -/
def Hit (base size flags : Nat) (r : Region) : Prop :=
  r.base = u64 (base + size) ∨ u64 r.stop = base ∧ r.flags = flags

def Meets (base size flags : Nat) (l : List Region) (r : Region) : Prop :=
  r ∈ l ∧ Hit base size flags r ∧ ∀ s ∈ l, Hit base size flags s → r.base ≤ s.base

/-- The region that the range meets takes it in, or is itself joined with the next one. -/
def Absorbed (base size flags : Nat) (l : List Region) : Prop := ∃ r, Meets base size flags l r ∧
    (r.flags = flags ∨ ∃ s ∈ l, s.base = r.stop ∧ s.flags = r.flags)

/-- `lmb_add_region_flags` accepts the range: no extension of the list has failed before, and the
range needs no new entry or there is one. -/
def Room (lst : Alist) (base size flags : Nat) (expand : Bool) : Prop := lst.err = false ∧
    (Absorbed base size flags lst.rgn ∨ lst.rgn.length ≠ lst.alloc ∨ expand = true)

theorem Meets.unique (h : Rep l) (hr : Meets base size flags l r) (hs : Meets base size flags l s) :
    r = s :=
  eq_of_base h.ordered hr.1 hs.1 (le_antisymm (hr.2.2 s hs.1 hs.2.1) (hs.2.2 r hr.1 hr.2.1))

theorem meets_of_split (h : Rep (left ++ r :: right)) (hleft : ∀ x ∈ left, ¬Hit base size flags x)
    (hr : Hit base size flags r) : Meets base size flags (left ++ r :: right) r := by
  refine ⟨by simp, hr, fun s hs hhit => ?_⟩
  rcases mem_append_cons.mp hs with hs | rfl | hs
  · exact absurd hhit (hleft s hs)
  · exact le_rfl
  · exact (h.ordered.nonempty r (by simp)).le.trans (h.ordered.sides.2 s hs)

def extend (base size : Nat) (r : Region) : Region :=
  { r with base := if r.base = u64 (base + size) then base else r.base,
           size := u64 (r.size + size) }

/-- Where the first loop stops on a list that is clear of the range, and with what. -/
inductive ClearScan (base size flags : Nat) (l : List Region) :
  Option (Nat × List Region × Nat) → Prop
  | end (hnone : ∀ x ∈ l, ¬Hit base size flags x) :
      ClearScan base size flags l (some (l.length, l, 0))
  | foreign {left right : List Region} {r : Region} (heq : l = left ++ r :: right)
      (hleft : ∀ x ∈ left, ¬Hit base size flags x) (hbase : r.base = u64 (base + size))
      (hflags : r.flags ≠ flags) : ClearScan base size flags l (some (left.length, l, 0))
  | same {left right : List Region} {r : Region} (heq : l = left ++ r :: right)
      (hleft : ∀ x ∈ left, ¬Hit base size flags x) (hr : Hit base size flags r)
      (hflags : r.flags = flags) :
      ClearScan base size flags l (some (left.length, left ++ extend base size r :: right, 1))

theorem stop_eq_of_u64 (hbase : base ≠ 0) (hr : r.stop ≤ 2 ^ 64) (h : u64 r.stop = base) :
    r.stop = base := by
  unfold u64 at h
  omega

theorem subU64_u64_add (hbase : base < 2 ^ 64) : subU64 (u64 (base + size)) size = base := by
  unfold subU64 u64
  omega

theorem coalesceScan_clear (flags : Nat) (hlt : base < 2 ^ 64) (hclear : Clear l base size) :
    ClearScan base size flags l (coalesceScan l base size flags l 0) := by
  have main : ∀ left rest, left ++ rest = l → (∀ x ∈ left, ¬Hit base size flags x) →
      ClearScan base size flags l (coalesceScan l base size flags rest left.length) := by
    intro left rest
    induction rest generalizing left with
    | nil =>
      intro heq hleft
      rw [List.append_nil] at heq
      subst heq
      exact .end hleft
    | cons r rest ih =>
      intro heq hleft
      have hmem : r ∈ l := by simp [← heq]
      have hset : ∀ m, l.set left.length m = left ++ m :: rest := by simp [← heq]
      rw [coalesceScan]
      by_cases habove : r.base = u64 (base + size)
      · have hpos : addrsAdjacent base size r.base r.size > 0 := by simp [addrsAdjacent, habove]
        rw [if_pos hpos]
        by_cases hflags : r.flags = flags
        · rw [if_neg (by simp [hflags]), hset]
          have hm : { r with base := subU64 r.base size, size := u64 (r.size + size) } =
              extend base size r := by
            simp [extend, habove, subU64_u64_add hlt]
          rw [hm]
          exact .same heq.symm hleft (.inl habove) hflags
        · rw [if_pos (fun h => hflags h.symm)]
          exact .foreign heq.symm hleft habove hflags
      · have hnpos : ¬addrsAdjacent base size r.base r.size > 0 := by
          unfold addrsAdjacent
          rw [if_neg habove]
          split <;> simp
        have hpass : ¬Hit base size flags r → ClearScan base size flags l
            (coalesceScan l base size flags rest (left.length + 1)) := by
          intro hnot
          rw [show left.length + 1 = (left ++ [r]).length by simp]
          refine ih (left ++ [r]) (by simp [heq]) fun x hx => ?_
          rcases List.mem_append.mp hx with hx | hx
          · exact hleft x hx
          · rwa [List.mem_singleton.mp hx]
        rw [if_neg hnpos]
        by_cases hbelow : u64 r.stop = base
        · have hneg : addrsAdjacent base size r.base r.size < 0 := by
            unfold addrsAdjacent
            rw [if_neg habove, ← stop, if_pos hbelow.symm]
            decide
          rw [if_pos hneg]
          by_cases hflags : r.flags = flags
          · rw [if_neg (by simp [hflags]), hset]
            have hm : { r with size := u64 (r.size + size) } = extend base size r := by
              simp [extend, habove]
            rw [hm]
            exact .same heq.symm hleft (.inr ⟨hbelow, hflags⟩) hflags
          · rw [if_pos (fun h => hflags h.symm)]
            exact hpass fun h => h.elim habove fun h => hflags h.2
        · have hnneg : ¬addrsAdjacent base size r.base r.size < 0 := by
            unfold addrsAdjacent
            rw [if_neg habove, ← stop, if_neg (Ne.symm hbelow)]
            decide
          rw [if_neg hnneg, hclear r hmem, if_neg (by simp)]
          exact hpass fun h => h.elim habove fun h => hbelow h.1
  exact main [] l rfl (by simp)

/-- What `lmb_add_region_flags` does with a range that the list is clear of. -/
inductive ClearAdd (base size flags : Nat) (lst : Alist) (expand : Bool) : Int × Alist → Prop
  | broken (herr : lst.err = true) : ClearAdd base size flags lst expand (-1, lst)
  | full (herr : lst.err = false) (habs : ¬Absorbed base size flags lst.rgn)
      (hfull : lst.rgn.length = lst.alloc) (hexpand : expand = false) :
      ClearAdd base size flags lst expand (-1, { lst with err := true })
  | inserted (alloc : Nat) (herr : lst.err = false) (habs : ¬Absorbed base size flags lst.rgn)
      (hroom : lst.rgn.length ≠ lst.alloc ∨ expand = true) :
      ClearAdd base size flags lst expand
        (0, { lst with alloc := alloc, rgn := insertRegion lst.rgn ⟨base, size, flags⟩ })
  | displaced {left right : List Region} {r s : Region} (herr : lst.err = false)
      (heq : lst.rgn = left ++ r :: s :: right) (hmeets : Meets base size flags lst.rgn r)
      (hbase : r.base = u64 (base + size)) (hflags : r.flags ≠ flags) (hs : s.flags = r.flags)
      (hadj : s.base = r.stop) :
      ClearAdd base size flags lst expand
        (0, { lst with rgn := left ++ { r with size := u64 (r.size + s.size) } :: right })
  | joined {left right rgn : List Region} {r : Region} {c : Nat} (herr : lst.err = false)
      (heq : lst.rgn = left ++ r :: right) (hmeets : Meets base size flags lst.rgn r)
      (hflags : r.flags = flags)
      (hnext : NextStep left right (extend base size r) 1 (some (rgn, c))) :
      ClearAdd base size flags lst expand (0, { lst with rgn := rgn })

theorem Rep.overlap_eq_false (h : Rep (left ++ r :: right)) (hs : s ∈ right) :
    addrsOverlap r.base r.size s.base s.size = false := by
  have hr : r ∈ left ++ r :: right := by simp
  rw [← Bool.not_eq_true, h.overlap_iff (h.sorted.nonempty r hr) (h.bounded r hr) (by simp [hs])]
  have := h.ordered.sides.2 s hs
  unfold stop at this ⊢
  omega

theorem extend_clear (h : Rep (left ++ r :: right))
    (hclear : Clear (left ++ r :: right) base size) (hr : Hit base size flags r) (hs : s ∈ right) :
    addrsOverlap (extend base size r).base (extend base size r).size s.base s.size = false := by
  have hle := h.ordered.sides.2 s hs
  have hbound := h.bounded s (by simp [hs])
  have hpos := h.sorted.nonempty s (by simp [hs])
  have hrpos := h.sorted.nonempty r (by simp)
  rw [← Bool.not_eq_true, addrsOverlap_iff]
  rintro ⟨hlow, hhigh⟩
  by_cases habove : r.base = u64 (base + size)
  · -- it ends where `r` ended
    have hend : subU64 (base + u64 (r.size + size)) 1 = r.stop - 1 := by
      unfold stop at hle hbound ⊢
      unfold subU64 u64 at *
      omega
    simp only [extend, if_pos habove, hend] at hhigh
    unfold stop at hle hhigh
    omega
  · -- it ends where the range ends, which `s` is clear of
    obtain ⟨hstop, -⟩ := hr.resolve_left habove
    rw [u64_of_lt (by unfold stop at *; omega)] at hstop
    have hend : subU64 (r.base + u64 (r.size + size)) 1 = subU64 (base + size) 1 := by
      unfold stop at hstop
      unfold subU64 u64
      omega
    simp only [extend, if_neg habove, hend] at hhigh
    have hno := hclear s (by simp [hs])
    rw [← Bool.not_eq_true, addrsOverlap_iff] at hno
    refine hno ⟨?_, hhigh⟩
    unfold stop at hle hbound hstop
    rw [subU64_one (by omega) hbound]
    omega

/-- Where the range is met from above by a region with other flags, this touches the next region
of the list when the latter starts at its end. -/
theorem foreign_adjacent (h : Rep (left ++ r :: s :: right)) (hlt : base < 2 ^ 64)
    (hclear : Clear (left ++ r :: s :: right) base size) (hr : r.base = u64 (base + size)) :
    (s.base = u64 (r.base + r.size) ∨ r.base = u64 (s.base + s.size)) ↔ s.base = r.stop := by
  have hle := h.ordered.sides.2 s (by simp)
  have hbound := h.bounded s (by simp)
  have hpos := h.sorted.nonempty s (by simp)
  have hno := hclear s (by simp)
  rw [← Bool.not_eq_true, addrsOverlap_iff] at hno
  unfold stop at *
  rw [u64_of_lt (by omega : r.base + r.size < 2 ^ 64)]
  refine ⟨fun hadj => hadj.resolve_right fun hwrap => hno ?_, .inl⟩
  -- `r` starts at 0, where both the range and `s` seem to end
  unfold subU64 u64 at *
  omega

theorem addRegionFlags_clear (lst : Alist) (flags : Nat) (expand : Bool) (h : Rep lst.rgn)
    (hlt : base < 2 ^ 64) (hclear : Clear lst.rgn base size) :
    ClearAdd base size flags lst expand (addRegionFlags lst base size flags expand) := by
  by_cases herr : lst.err
  · rw [addRegionFlags, if_pos herr]
    exact .broken herr
  simp only [Bool.not_eq_true] at herr
  rw [addRegionFlags, if_neg (by simp [herr])]
  -- the end of the call, when nothing was merged
  have hinsert : ¬Absorbed base size flags lst.rgn → ∀ {res},
      (∀ out, expandIfFull lst expand = (false, out) → res = (-1, out)) →
      (∀ out, expandIfFull lst expand = (true, out) →
        res = (0, { out with rgn := insertRegion out.rgn ⟨base, size, flags⟩ })) →
      ClearAdd base size flags lst expand res := by
    intro habs res hfailed hgrown
    rcases expandIfFull_cases lst expand herr with ⟨hfull, hexpand, heq⟩ | ⟨hroom, alloc, heq⟩
    · rw [hfailed _ heq]
      exact .full herr habs hfull hexpand
    · rw [hgrown _ heq]
      exact .inserted alloc herr habs hroom
  have hscan := coalesceScan_clear flags hlt hclear
  generalize coalesceScan lst.rgn base size flags lst.rgn 0 = scan at hscan
  cases hscan with
  | «end» hnone =>
    have habs : ¬Absorbed base size flags lst.rgn := by
      rintro ⟨r, hr, -⟩
      exact hnone r hr.1 hr.2.1
    simp only [coalesceNext, if_neg (show ¬lst.rgn.length + 1 < lst.rgn.length by omega)]
    exact hinsert habs (fun _ h => by simp [h]) fun _ h => by simp [h]
  | @foreign left right r heq hleft hr hflags =>
    rw [heq] at h hclear
    have hmeets := meets_of_split h hleft (.inl hr)
    have hnext :=
      coalesceNext_clear left right r 0 fun s rest hs => h.overlap_eq_false (by simp [hs])
    rw [← heq] at hnext hmeets
    simp only
    generalize coalesceNext lst.rgn left.length 0 = next at hnext
    cases hnext with
    | @joined s rest hs hsame hadj =>
      subst hs
      exact .displaced herr heq hmeets hr hflags hsame.symm
        ((foreign_adjacent h hlt hclear hr).mp hadj)
    | alone hnot =>
      have habs : ¬Absorbed base size flags lst.rgn := by
        rintro ⟨r', hm, hcase⟩
        rw [hm.unique (heq ▸ h) hmeets] at hcase
        rcases hcase with hc | ⟨s, hs, hadj, hsame⟩
        · exact hflags hc
        · obtain ⟨rest, rfl⟩ := next_of_adjacent h.ordered (heq ▸ hs) hadj
          exact hnot s rest rfl hsame.symm ((foreign_adjacent h hlt hclear hr).mpr hadj)
      simp only [← heq]
      exact hinsert habs (fun _ h => by simp [h]) fun _ h => by simp [h]
  | @same left right r heq hleft hr hflags =>
    rw [heq] at h hclear
    have hmeets := meets_of_split h hleft hr
    have hnext := coalesceNext_clear left right (extend base size r) 1
      fun s rest hs => extend_clear h hclear hr (by simp [hs])
    rw [← heq] at hmeets
    simp only
    generalize coalesceNext (left ++ extend base size r :: right) left.length 1 = next at hnext
    cases hnext with
    | joined hs hsame hadj => exact .joined herr heq hmeets hflags (.joined hs hsame hadj)
    | alone hnot => exact .joined herr heq hmeets hflags (.alone hnot)

theorem ClearAdd.ret_eq_zero {lst : Alist} {expand : Bool} {res : Int × Alist}
    (h : ClearAdd base size flags lst expand res) :
    res.1 = 0 ↔ Room lst base size flags expand := by
  cases h with
  | broken herr => simp [Room, herr]
  | full herr habs hfull hexpand => simp [Room, habs, hfull, hexpand]
  | inserted alloc herr habs hroom => simp [Room, herr, hroom]
  | @displaced left right r s herr heq hmeets hbase hflags hs hadj =>
    refine iff_of_true rfl ⟨herr, .inl ⟨r, hmeets, .inr ⟨s, ?_, hadj, hs⟩⟩⟩
    simp [heq]
  | joined herr heq hmeets hflags hnext =>
    exact iff_of_true rfl ⟨herr, .inl ⟨_, hmeets, .inl hflags⟩⟩

end MtkBoot.Lmb
