import MtkBoot.Base
import Mathlib.Data.List.Basic

/-! The region lists of U-Boot's logical memory blocks (`lib/lmb.c`) and the functions that add a
region to a list, merge its neighbours, and free part of one. -/

namespace MtkBoot.Lmb

structure Region where
  base : Nat
  size : Nat
  flags : Nat
  deriving DecidableEq, Repr, Inhabited

def Region.stop (r : Region) : Nat := r.base + r.size

def lmbNone : Nat := 0
def lmbNooverwrite : Nat := 4
def lmbNonotify : Nat := 8

/-- `lmb_addrs_overlap`: both ends are computed modulo `2^64`. -/
def addrsOverlap (base1 size1 base2 size2 : Nat) : Bool :=
  let base1End := subU64 (base1 + size1) 1
  let base2End := subU64 (base2 + size2) 1
  decide (base1 ≤ base2End) && decide (base2 ≤ base1End)

theorem addrsOverlap_iff {base1 size1 base2 size2 : Nat} : addrsOverlap base1 size1 base2 size2 ↔
      base1 ≤ subU64 (base2 + size2) 1 ∧ base2 ≤ subU64 (base1 + size1) 1 := by
  simp [addrsOverlap]

/-- `lmb_addrs_adjacent`: 1 when the second range starts where the first ends, -1 when the first
starts where the second ends. -/
def addrsAdjacent (base1 size1 base2 size2 : Nat) : Int :=
  if base2 = u64 (base1 + size1) then 1
  else if base1 = u64 (base2 + size2) then -1
  else 0

/-- The results of `lmb_regions_check`: 0, `LMB_RGN_OVERLAP` and `LMB_RGN_ADJACENT`. -/
inductive Contact
  | apart
  | overlap
  | adjacent
  deriving DecidableEq, Repr

def entry (rgn : List Region) (i : Nat) : Region := rgn.getD i default

theorem entry_append (left : List Region) (r : Region) (right : List Region) :
    entry (left ++ r :: right) left.length = r := by
  simp [entry]

theorem entry_append_succ (left : List Region) (r s : Region) (right : List Region) :
    entry (left ++ r :: s :: right) (left.length + 1) = s := by
  rw [show left ++ r :: s :: right = (left ++ [r]) ++ s :: right by simp,
    show left.length + 1 = (left ++ [r]).length by simp, entry_append]

def regionsCheck (rgn : List Region) (r1 r2 : Nat) : Contact :=
  let a := entry rgn r1
  let b := entry rgn r2
  if a.flags ≠ b.flags then .apart
  else if addrsOverlap a.base a.size b.base b.size then .overlap
  else if addrsAdjacent a.base a.size b.base b.size ≠ 0 then .adjacent
  else .apart

def removeRegion (rgn : List Region) (r : Nat) : List Region := rgn.eraseIdx r

def coalesceRegions (rgn : List Region) (r1 r2 : Nat) : List Region :=
  let a := entry rgn r1
  removeRegion (rgn.set r1 { a with size := u64 (a.size + (entry rgn r2).size) }) r2

/-- The counting loop of `lmb_resize_regions` from index `idx` on: the number of entries that
overlap the range and the index of the last one, or `none` when one of them has a flag. -/
def resizeScan (base size : Nat) : List Region → Nat → Nat → Nat → Option (Nat × Nat)
  | [], _, rgnCnt, idxEnd => some (rgnCnt, idxEnd)
  | r :: rs, idx, rgnCnt, idxEnd =>
    if addrsOverlap base size r.base r.size then
      if r.flags ≠ lmbNone then none
      else resizeScan base size rs (idx + 1) (rgnCnt + 1) idx
    else resizeScan base size rs (idx + 1) rgnCnt idxEnd

/-- `lmb_resize_regions`: `none` stands for the result -1, which leaves the list alone. -/
def resizeRegions (rgn : List Region) (idxStart base size : Nat) : Option (List Region) :=
  match resizeScan base size (rgn.drop idxStart) idxStart 0 idxStart with
  | none => none
  | some (rgnCnt, idxEnd) =>
    let first := entry rgn idxStart
    let last := entry rgn idxEnd
    let mergebase := min base first.base
    let rgnend := u64 (last.base + last.size)
    let mergeend := max rgnend (u64 (base + size))
    let merged := { first with base := mergebase, size := subU64 mergeend mergebase }
    -- `while (--rgn_cnt)` removes the entry after the merged one
    some (rgn.take idxStart ++ merged :: rgn.drop (idxStart + 1 + subU64 rgnCnt 1))

/-- The first loop of `lmb_add_region_flags` at index `i`, with the entries from `i` on: the index
where it stops, the list and `coalesced`, or `none` when `lmb_resize_regions` fails. -/
def coalesceScan (rgn : List Region) (base size flags : Nat) :
    List Region → Nat → Option (Nat × List Region × Nat)
  | [], i => some (i, rgn, 0)
  | r :: rs, i =>
    let ret := addrsAdjacent base size r.base r.size
    if ret > 0 then
      if flags ≠ r.flags then some (i, rgn, 0)
      else some (i, rgn.set i { r with base := subU64 r.base size, size := u64 (r.size + size) }, 1)
    else if ret < 0 then
      if flags ≠ r.flags then coalesceScan rgn base size flags rs (i + 1)
      else some (i, rgn.set i { r with size := u64 (r.size + size) }, 1)
    else if addrsOverlap base size r.base r.size then
      match resizeRegions rgn i base size with
      | none => none
      | some rgn => some (i, rgn, 1)
    else coalesceScan rgn base size flags rs (i + 1)

/-- The step of `lmb_add_region_flags` after its first loop: entry `i`, where the loop stopped, is
merged with the next one. -/
def coalesceNext (rgn : List Region) (i coalesced : Nat) : Option (List Region × Nat) :=
  if i + 1 < rgn.length then
    match regionsCheck rgn i (i + 1) with
    | .adjacent => some (coalesceRegions rgn i (i + 1), coalesced + 1)
    | .overlap =>
      match resizeRegions rgn i (entry rgn i).base (entry rgn i).size with
      | none => none
      | some rgn => some (rgn, coalesced + 1)
    | .apart => some (rgn, coalesced)
  else some (rgn, coalesced)

/-- The index at which the last loop of `lmb_add_region_flags` puts a region of this base, counting
down from `i`. -/
def insertIdx (rgn : List Region) (base : Nat) : Nat → Nat
  | 0 => 0
  | i + 1 => if base < (entry rgn i).base then insertIdx rgn base i else i + 1

/-- `struct alist` holding regions: `rgn` is the part of `data` below `count`. -/
structure Alist where
  rgn : List Region
  alloc : Nat
  err : Bool
  deriving DecidableEq, Repr, Inhabited

def countUp (rgn : List Region) : List Region := if u16 rgn.length = 0 then [] else rgn

/-- The sorted insertion at the end of `lmb_add_region_flags`. -/
def insertRegion (rgn : List Region) (r : Region) : List Region :=
  let i := insertIdx rgn r.base rgn.length
  countUp (rgn.take i ++ r :: rgn.drop i)

def expandIfFull (lst : Alist) (expand : Bool) : Bool × Alist :=
  if lst.rgn.length = lst.alloc then
    if lst.err then (false, lst)
    else if expand then (true, { lst with alloc := u16 (lst.alloc + lst.alloc) })
    else (false, { lst with err := true })
  else (true, lst)

theorem expandIfFull_cases (lst : Alist) (expand : Bool) (herr : lst.err = false) :
    (lst.rgn.length = lst.alloc ∧ expand = false ∧ expandIfFull lst expand =
      (false, { lst with err := true })) ∨ ((lst.rgn.length ≠ lst.alloc ∨ expand) ∧
      ∃ alloc, expandIfFull lst expand = (true, { lst with alloc })) := by
  unfold expandIfFull
  by_cases hfull : lst.rgn.length = lst.alloc
  · rw [if_pos hfull, if_neg (by simp [herr])]
    cases expand with
    | true => exact .inr ⟨.inr rfl, _, rfl⟩
    | false => exact .inl ⟨hfull, rfl, rfl⟩
  · rw [if_neg hfull]
    exact .inr ⟨.inl hfull, lst.alloc, rfl⟩

def addRegionFlags (lst : Alist) (base size flags : Nat) (expand : Bool) : Int × Alist :=
  if lst.err then (-1, lst)
  else
    match coalesceScan lst.rgn base size flags lst.rgn 0 with
    | none => (-1, lst)
    | some (i, rgn, coalesced) =>
      match coalesceNext rgn i coalesced with
      | none => (-1, { lst with rgn := rgn })
      | some (rgn, coalesced) =>
        if coalesced ≠ 0 then (0, { lst with rgn := rgn })
        else
          match expandIfFull { lst with rgn := rgn } expand with
          | (false, lst) => (-1, lst)
          | (true, lst) => (0, { lst with rgn := insertRegion lst.rgn ⟨base, size, flags⟩ })

/-- A loop that looks for the first entry with a property. -/
theorem scan_cases {α : Type} {p : α → Prop} [DecidablePred p] {f : List α → Nat → Option Nat}
    (hnil : ∀ i, f [] i = none)
    (hcons : ∀ a l i, f (a :: l) i = if p a then some i else f l (i + 1)) (l : List α) (i : Nat) :
    (f l i = none ∧ ∀ x ∈ l, ¬p x) ∨ ∃ left a right, l = left ++ a :: right ∧
    f l i = some (i + left.length) ∧ p a ∧ ∀ x ∈ left, ¬p x := by
  induction l generalizing i with
  | nil => exact .inl ⟨hnil i, by simp⟩
  | cons a l ih =>
    rw [hcons]
    by_cases ha : p a
    · exact .inr ⟨[], a, l, rfl, if_pos ha, ha, by simp⟩
    · rw [if_neg ha]
      rcases ih (i + 1) with ⟨hnone, hl⟩ | ⟨left, b, right, rfl, hsome, hb, hleft⟩
      · exact .inl ⟨hnone, List.forall_mem_cons.mpr ⟨ha, hl⟩⟩
      · refine .inr ⟨a :: left, b, right, rfl, ?_, hb, List.forall_mem_cons.mpr ⟨ha, hleft⟩⟩
        rw [hsome, List.length_cons, add_assoc, add_comm 1]

/-- The search loop of `_lmb_free`: the index of the first entry that contains the range from
`base` to its last address `last`. -/
def freeScan (base last : Nat) : List Region → Nat → Option Nat
  | [], _ => none
  | r :: rs, i =>
    let rgnend := subU64 (r.base + r.size) 1
    if r.base ≤ base ∧ last ≤ rgnend then some i else freeScan base last rs (i + 1)

def lmbFree (lst : Alist) (base size : Nat) (expand : Bool) : Int × Alist :=
  let last := subU64 (base + size) 1
  match freeScan base last lst.rgn 0 with
  | none => (-1, lst)
  | some i =>
    let r := entry lst.rgn i
    let rgnend := subU64 (r.base + r.size) 1
    if r.base = base ∧ rgnend = last then (0, { lst with rgn := removeRegion lst.rgn i })
    else if r.base = base then
      (0, { lst with
        rgn := lst.rgn.set i { r with base := u64 (last + 1), size := subU64 r.size size } })
    else if rgnend = last then
      (0, { lst with rgn := lst.rgn.set i { r with size := subU64 r.size size } })
    else
      addRegionFlags { lst with rgn := lst.rgn.set i { r with size := subU64 base r.base } }
        (u64 (last + 1)) (subU64 rgnend last) r.flags expand

/-- `lmb_overlap_checks`, at index `i`: the index of the first overlapping entry, among those that
an allocation or the flags rule out. -/
def overlapChecks (base size flags : Nat) (alloc : Bool) : List Region → Nat → Option Nat
  | [], _ => none
  | r :: rs, i =>
    if addrsOverlap base size r.base r.size &&
        (alloc || decide (flags ≠ lmbNone) || decide (flags ≠ r.flags)) then some i
    else overlapChecks base size flags alloc rs (i + 1)

end MtkBoot.Lmb
