import MtkBoot.Lmb.Rep

/-! `_lmb_free`, case by case: the search finds the one region that contains the range, and the
range is all of it, its front, its end or a hole inside it. -/

namespace MtkBoot.Lmb

open MtkBoot.Lib

variable {base last size : Nat} {lst : Alist}

def Contained (l : List Region) (base size : Nat) : Prop :=
  ∃ r ∈ l, r.base ≤ base ∧ base + size ≤ r.stop

def FreeTest (base last : Nat) (r : Region) : Prop :=
  r.base ≤ base ∧ last ≤ subU64 (r.base + r.size) 1

instance : DecidablePred (FreeTest base last) := fun _ => inferInstanceAs (Decidable (_ ∧ _))

theorem freeScan_cases (base last : Nat) (l : List Region) (i : Nat) :
    (freeScan base last l i = none ∧ ∀ x ∈ l, ¬FreeTest base last x) ∨
      ∃ left r right, l = left ++ r :: right ∧ freeScan base last l i = some (i + left.length) ∧
        FreeTest base last r ∧ ∀ x ∈ left, ¬FreeTest base last x :=
  scan_cases (fun _ => rfl) (fun _ _ _ => rfl) l i

/-! ### A range within the address space -/

inductive FreeCase (lst : Alist) (base size : Nat) (expand : Bool) : Int × Alist → Prop
  | missing (hno : ¬Contained lst.rgn base size) : FreeCase lst base size expand (-1, lst)
  | whole {left right : List Region} {r : Region} (heq : lst.rgn = left ++ r :: right)
      (hbase : r.base = base) (hstop : r.stop = base + size) :
      FreeCase lst base size expand (0, { lst with rgn := left ++ right })
  | front {left right : List Region} {r : Region} (heq : lst.rgn = left ++ r :: right)
      (hbase : r.base = base) (hstop : base + size < r.stop) :
      FreeCase lst base size expand (0,
        { lst with rgn := left ++ ⟨base + size, r.size - size, r.flags⟩ :: right })
  | back {left right : List Region} {r : Region} (heq : lst.rgn = left ++ r :: right)
      (hbase : r.base < base) (hstop : r.stop = base + size) :
      FreeCase lst base size expand (0,
        { lst with rgn := left ++ ⟨r.base, r.size - size, r.flags⟩ :: right })
  | split {left right : List Region} {r : Region} (heq : lst.rgn = left ++ r :: right)
      (hbase : r.base < base) (hstop : base + size < r.stop) :
      FreeCase lst base size expand
        (addRegionFlags { lst with rgn := left ++ ⟨r.base, base - r.base, r.flags⟩ :: right }
          (base + size) (r.stop - (base + size)) r.flags expand)

theorem lmbFree_found {left right : List Region} {r : Region}
    (expand : Bool) (heq : lst.rgn = left ++ r :: right)
    (hpos : 0 < r.size) (hbound : r.stop ≤ 2 ^ 64) (hlast : subU64 (base + size) 1 = last)
    (hscan : freeScan base last lst.rgn 0 = some left.length) : lmbFree lst base size expand =
      if r.base = base ∧ r.stop - 1 = last then (0, { lst with rgn := left ++ right })
      else if r.base = base then
        (0, { lst with rgn := left ++ ⟨u64 (last + 1), subU64 r.size size, r.flags⟩ :: right })
      else if r.stop - 1 = last then (0,
        { lst with rgn := left ++ ⟨r.base, subU64 r.size size, r.flags⟩ :: right })
      else addRegionFlags { lst with rgn := left ++ ⟨r.base, subU64 base r.base, r.flags⟩ :: right }
          (u64 (last + 1)) (subU64 (r.stop - 1) last) r.flags expand := by
  have hset : ∀ m, lst.rgn.set left.length m = left ++ m :: right := by simp [heq]
  have hentry : entry lst.rgn left.length = r := by rw [heq, entry_append]
  have hend : subU64 (r.base + r.size) 1 = r.stop - 1 := subU64_one (by omega) hbound
  have herase : removeRegion lst.rgn left.length = left ++ right := by
    rw [removeRegion, heq, List.eraseIdx_append_of_length_le le_rfl]
    simp
  unfold lmbFree
  rw [hlast]
  simp [hscan, hentry, hend, hset, herase]

theorem lmbFree_cases (expand : Bool)
    (h : Rep lst.rgn) (hsize : 0 < size) (htop : base + size ≤ 2 ^ 64) :
    FreeCase lst base size expand (lmbFree lst base size expand) := by
  have htest : ∀ r ∈ lst.rgn, FreeTest base (base + size - 1) r ↔ r.base ≤ base ∧
      base + size ≤ r.stop := by
    intro r hr
    have hpos := h.sorted.nonempty r hr
    have hbound := h.bounded r hr
    unfold Region.stop at hbound ⊢
    rw [FreeTest, subU64_one (by omega) hbound]
    omega
  have hlast := subU64_one (show 0 < base + size by omega) htop
  rcases freeScan_cases base (base + size - 1) lst.rgn 0 with
    ⟨hscan, hnone⟩ | ⟨left, r, right, heq, hscan, htr, -⟩
  · have hres : lmbFree lst base size expand = (-1, lst) := by
      unfold lmbFree
      simp [hlast, hscan]
    rw [hres]
    refine .missing ?_
    rintro ⟨r, hr, hin⟩
    exact hnone r hr ((htest r hr).mpr hin)
  · rw [zero_add] at hscan
    have hr : r ∈ lst.rgn := by simp [heq]
    obtain ⟨hle, hend⟩ := (htest r hr).mp htr
    have hpos := h.sorted.nonempty r hr
    have hbound := h.bounded r hr
    have hword := h.word r hr
    have hstop : r.stop = r.base + r.size := rfl
    rw [lmbFree_found expand heq hpos hbound hlast hscan]
    -- the whole region, its front, its end, a hole inside it
    by_cases hfront : r.base = base <;> by_cases hback : r.stop = base + size
    · rw [if_pos ⟨hfront, by omega⟩]
      exact .whole heq hfront hback
    · rw [if_neg (fun hc => hback (by omega)), if_pos hfront, u64_of_lt (by omega),
        subU64_of_le (by omega) hword, show base + size - 1 + 1 = base + size by omega]
      exact .front heq hfront (by omega)
    · rw [if_neg (fun hc => hfront hc.1), if_neg hfront, if_pos (by omega),
        subU64_of_le (by omega) hword]
      exact .back heq (by omega) hback
    · rw [if_neg (fun hc => hfront hc.1), if_neg hfront, if_neg (by omega), u64_of_lt (by omega),
        subU64_of_le hle (by omega), subU64_of_le (by omega) (by omega),
        show base + size - 1 + 1 = base + size by omega,
        show r.stop - 1 - (base + size - 1) = r.stop - (base + size) by omega]
      exact .split heq (by omega) (by omega)

end MtkBoot.Lmb
