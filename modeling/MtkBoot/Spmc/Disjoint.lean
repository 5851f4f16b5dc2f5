import Mathlib.Order.CompletePartialOrder
import Mathlib.Order.Interval.Set.Disjoint
import MtkBoot.Spmc.Integrity

/-! The transactions in the store and their memory.  The check for overlaps computes the size of a
range with 32 bits; complete transactions are disjoint if all ranges fit. -/

namespace MtkBoot.Spmc

open Lib

variable {a : Obj} {c : Call} {known : Nat → Bool} {l objs : List Obj} {s s' : Store}

def Range.Exact (r : Range) : Prop :=
  r.pageCount * 4096 < 2 ^ 32 ∧ r.address + r.pageCount * 4096 < 2 ^ 64

instance (r : Range) : Decidable r.Exact := inferInstanceAs (Decidable (_ ∧ _))

theorem Range.Exact.stop_eq {r : Range} (h : r.Exact) :
    r.stop = r.address + r.pageCount * 4096 := by
  rw [Range.stop, u32, Nat.mod_eq_of_lt h.1, u64_of_lt h.2]

def Range.bytes (r : Range) : Set Nat := Set.Ico r.address (r.address + r.pageCount * 4096)

def Obj.bytes (o : Obj) : Set Nat := ⋃ r ∈ o.ranges, r.bytes

theorem Obj.Apart.disjoint {b : Obj} (h : a.Apart b) (ha : ∀ r ∈ a.ranges, r.Exact)
    (hb : ∀ r ∈ b.ranges, r.Exact) : Disjoint a.bytes b.bytes := by
  simp only [Obj.bytes, Set.disjoint_iUnion_left, Set.disjoint_iUnion_right]
  intro y hy x hx
  rw [Range.bytes, Range.bytes, Set.Ico_disjoint_Ico, ← (ha x hx).stop_eq, ← (hb y hy).stop_eq]
  rcases h x hx y hy with hle | hle
  · exact (min_le_right _ _).trans (hle.trans (le_max_left _ _))
  · exact (min_le_left _ _).trans (hle.trans (le_max_right _ _))

/-- The ranges of a descriptor that becomes complete with the call are exact. -/
def ExactCall (s : Store) (c : Call) : Prop :=
  completes s c → ∀ r ∈ rangesOf c.version (incoming s c), r.Exact

instance (s : Store) (c : Call) : Decidable (ExactCall s c) := inferInstanceAs (Decidable (_ → _))

section Step

variable {r : Result}

/-- Where a complete transaction comes from. -/
inductive Origin (s : Store) (objs l : List Obj) (c : Call) (a : Obj) : Prop
  | old {b : Obj} (hb : b ∈ objs) (hcomplete : b.Complete) (hhandle : b.handle = a.handle)
      (hranges : b.ranges = a.ranges)
  | new (hgiven : Given s c a.ranges)
      (hapart : ∀ b ∈ l, b.handle ≠ a.handle → b.Complete → a.Apart b)

theorem Filled.origin {pre post : List Obj} {h : Nat} (hf : Filled pre post h (Given s c) r l)
    (hsub : ∀ a ∈ pre ++ post, a ∈ objs) (ha : a ∈ l) (hc : a.Complete) : Origin s objs l c a := by
  rcases hf.perm with ⟨-, rfl⟩ | ⟨-, o, hperm, -, -, hwhole⟩
  · exact .old (hsub a ha) hc rfl rfl
  · rcases List.mem_cons.mp (hperm.mem_iff.mp ha) with rfl | hmem
    · obtain ⟨hranges, hapart⟩ := hwhole hc
      refine .new hranges fun b hb hne hcb => hapart b ?_ hcb
      exact (List.mem_cons.mp (hperm.mem_iff.mp hb)).resolve_left fun heq => hne (heq ▸ rfl)
    · exact .old (hsub a hmem) hc rfl rfl

theorem Effect.origin (he : Effect s objs c r l) (ha : a ∈ l) (hc : a.Complete) :
    Origin s objs l c a := by
  -- an object that takes the place of one with the same descriptor
  have hsame : ∀ {pre post : List Obj} {o o' : Obj}, objs = pre ++ o :: post →
      l = pre ++ o' :: post → o'.desc = o.desc → o'.filled = o.filled → Origin s objs l c a := by
    rintro pre post o o' rfl rfl hdesc hfilled
    have hmem : o'.mem = o.mem := by unfold Obj.mem; rw [hdesc]
    rcases List.mem_cons.mp (List.perm_middle.mem_iff.mp ha) with rfl | hin
    · refine .old (b := o) (by simp) ?_ (by unfold Obj.handle; rw [hmem])
        (by unfold Obj.ranges; rw [hmem])
      unfold Obj.Complete at hc ⊢
      rwa [hfilled, hdesc] at hc
    · exact .old (List.perm_middle.mem_iff.mpr (List.mem_cons_of_mem _ hin)) hc rfl rfl
  cases he with
  | refused code => exact .old ha hc rfl rfl
  | begun htarget hfilled => exact hfilled.origin (by simp) ha hc
  | continued hobjs htarget hcall hopen hfilled =>
    subst hobjs
    exact hfilled.origin (fun a ha => List.perm_middle.mem_iff.mpr (List.mem_cons_of_mem _ ha))
      ha hc
  | retrieved err hobjs htarget hcall hcomplete hdesc hfilled huse =>
    exact hsame hobjs rfl hdesc hfilled
  | relinquished hobjs htarget hcall huse => exact hsame hobjs rfl rfl rfl
  | reclaimed hobjs htarget hcall hcomplete huse =>
    subst hobjs
    exact .old (List.perm_middle.mem_iff.mpr (List.mem_cons_of_mem _ ha)) hc rfl rfl

end Step

/-- Complete transactions are exact and disjoint. -/
structure Separate (objs : List Obj) : Prop where
  fits : ∀ a ∈ objs, a.Complete → ∀ r ∈ a.ranges, r.Exact
  disjoint : ∀ a ∈ objs, ∀ b ∈ objs, a.handle ≠ b.handle → a.Complete → b.Complete →
    Disjoint a.bytes b.bytes

theorem Effect.separate {r : Result} (he : Effect s objs c r l) (hcall : ExactCall s c)
    (h : Separate objs) : Separate l := by
  have hexact : ∀ a ∈ l, a.Complete → ∀ r ∈ a.ranges, r.Exact := by
    intro a ha hc
    cases he.origin ha hc with
    | old hb hcb hhandle hranges => exact hranges ▸ h.fits _ hb hcb
    | new hgiven hapart => exact hgiven.2 ▸ hcall hgiven.1
  refine ⟨hexact, fun a ha b hb hne hca hcb => ?_⟩
  cases he.origin ha hca with
  | new hgiven hapart =>
    exact (hapart b hb hne.symm hcb).disjoint (hexact a ha hca) (hexact b hb hcb)
  | @old a0 ha0 hca0 hha hra =>
    cases he.origin hb hcb with
    | new hgiven hapart =>
      exact ((hapart a ha hne hca).disjoint (hexact b hb hcb) (hexact a ha hca)).symm
    | @old b0 hb0 hcb0 hhb hrb =>
      have hdis := h.disjoint a0 ha0 b0 hb0 (by rwa [hha, hhb]) hca0 hcb0
      unfold Obj.bytes at hdis ⊢
      rwa [hra, hrb] at hdis

def ExactStep (known : Nat → Bool) (s s' : Store) : Prop :=
  ∃ c r, Fresh s c ∧ ExactCall s c ∧ call known s c = some (s', r)

theorem transactions_disjoint {known : Nat → Bool} {s : Store}
    (hs : Reachable Store.Init (ExactStep known) s) : ∃ objs, Holds s objs ∧
    objs.Pairwise fun a b => a.Complete → b.Complete → Disjoint a.bytes b.bytes := by
  obtain ⟨objs, hinv, hsep⟩ : ∃ objs, Inv s objs ∧ Separate objs := by
    refine hs.invariant (I := fun s => ∃ objs, Inv s objs ∧ Separate objs)
      (fun _ h => ⟨[], h.inv, by simp, by simp⟩) ?_
    rintro s s' ⟨objs, hinv, hsep⟩ ⟨c, r, hfresh, hexact, hres⟩
    obtain ⟨l, hl, he⟩ := call_inv hinv hfresh hres
    exact ⟨l, hl, he.separate hexact hsep⟩
  refine ⟨objs, hinv.holds, ?_⟩
  exact (List.pairwise_map.mp hinv.distinct).imp_of_mem fun ha hb hne => hsep.disjoint _ ha _ hb hne

/-! ### Runs of two senders -/

def shareDesc (attributes flags handle address pages : Nat) : Bytes :=
  leBytes 2 0 ++ leBytes 2 attributes ++ leBytes 4 flags ++ leBytes 8 handle ++ leBytes 8 0 ++
    leBytes 4 16 ++ leBytes 4 1 ++ leBytes 4 48 ++ leBytes 12 0 ++
    (leBytes 2 0x8001 ++ leBytes 2 0 ++ leBytes 4 64 ++ leBytes 8 0) ++
    (leBytes 4 pages ++ leBytes 4 1 ++ leBytes 8 0) ++
    (leBytes 8 address ++ leBytes 4 pages ++ leBytes 4 0)

def shareCall (address pages : Nat) : Call := .send 0x73 false v11 96 96 0 0
    { pageCount := 1, tx := fun i => (shareDesc 0 0 0 address pages).getD i 0, full := false } 0

def shareObj (handle address pages : Nat) : Obj :=
  { filled := 96, inUse := 0, hypShift := 0,
    desc := shareDesc (2 ^ 6) (2 ^ 3) handle address pages }

def runCalls (ok : Store → Call → Bool) (known : Nat → Bool) : Store → List Call → Option Store
  | s, [] => some s
  | s, c :: cs =>
    if ok s c then (call known s c).bind fun res => runCalls ok known res.1 cs else none

theorem runCalls_reachable {ok : Store → Call → Bool} {step : Store → Store → Prop}
    (hstep : ∀ s s' c r, ok s c → call known s c = some (s', r) → step s s') {cs : List Call}
    (hs : Reachable Store.Init step s) (hrun : runCalls ok known s cs = some s') :
    Reachable Store.Init step s' := by
  induction cs generalizing s with
  | nil => exact Option.some.inj hrun ▸ hs
  | cons c cs ih =>
    rcases ite_eq_iff.mp hrun with ⟨hok, hrun⟩ | ⟨-, hrun⟩
    · obtain ⟨⟨s1, r⟩, hcall, hrun⟩ := Option.bind_eq_some_iff.mp hrun
      exact ih (hs.step (hstep _ _ _ _ hok hcall)) hrun
    · cases hrun

/-- The contents of a store that decide what it holds. -/
def Store.contents (s : Store) : Bytes × Nat × Nat × Nat :=
  (bytesAt s.data 0 s.allocated, s.allocated, s.dataSize, s.nextHandle)

theorem Store.holds_of_contents {next : Nat}
    (hwf : ∀ o ∈ objs, o.Wf) (hsize : extent Obj.enc objs ≤ 4096) (hnext : next < 2 ^ 64)
    (h : s.contents = (objs.flatMap Obj.enc, extent Obj.enc objs, 4096, next)) : Holds s objs := by
  obtain ⟨hbytes, halloc, hdata, hn⟩ : _ ∧ _ ∧ _ ∧ _ := by simpa [contents] using h
  refine ⟨?_, halloc, by omega, by omega, by omega, hwf⟩
  unfold Laid
  rwa [← halloc]

theorem transactions_disjoint_two : ∃ s, s.allocated = 256 ∧ ∃ objs, Holds s objs ∧
    objs.Pairwise fun a b => a.Complete → b.Complete → Disjoint a.bytes b.bytes := by
  have hrun : ((runCalls (fun s c => decide (Fresh s c ∧ ExactCall s c)) (fun _ => true) emptyStore
      [shareCall 0 2, shareCall 8192 1]).map Store.allocated) = some 256 := by decide +kernel
  obtain ⟨s, hs, halloc⟩ := Option.map_eq_some_iff.mp hrun
  have hreach : Reachable Store.Init (ExactStep fun _ => true) s := by
    refine runCalls_reachable (fun s s' c r hok hcall => ?_) (.init emptyStore_init) hs
    obtain ⟨hfresh, hexact⟩ := of_decide_eq_true hok
    exact ⟨c, r, hfresh, hexact, hcall⟩
  exact ⟨s, halloc, transactions_disjoint hreach⟩

/-- A range of 4 GiB counts as empty, so the page inside it is shared a second time. -/
theorem overlapping_transactions : ∃ s a b, Reachable Store.Init (AnyStep fun _ => true) s ∧
    Holds s [a, b] ∧ a.Complete ∧ b.Complete ∧ 4096 ∈ a.bytes ∧ 4096 ∈ b.bytes := by
  have hrun : ((runCalls (fun _ _ => true) (fun _ => true) emptyStore
      [shareCall 0 (2 ^ 20), shareCall 4096 1]).map Store.contents) =
      some ([shareObj 0xffffffc0 0 (2 ^ 20), shareObj 0xffffffc1 4096 1].flatMap Obj.enc,
        extent Obj.enc [shareObj 0xffffffc0 0 (2 ^ 20), shareObj 0xffffffc1 4096 1], 4096,
        0xffffffc2) := by
    decide +kernel
  obtain ⟨s, hs, hcontents⟩ := Option.map_eq_some_iff.mp hrun
  have hfirst : (shareObj 0xffffffc0 0 (2 ^ 20)).ranges = [⟨0, 2 ^ 20⟩] := by decide +kernel
  have hsecond : (shareObj 0xffffffc1 4096 1).ranges = [⟨4096, 1⟩] := by decide +kernel
  refine ⟨s, shareObj 0xffffffc0 0 (2 ^ 20), shareObj 0xffffffc1 4096 1,
    runCalls_reachable (fun _ _ c r _ hcall => ⟨c, r, hcall⟩) (.init emptyStore_init) hs,
    Store.holds_of_contents ?_ (by decide +kernel) (by decide) hcontents, rfl, rfl, ?_, ?_⟩
  · intro o ho
    simp only [List.mem_cons, List.not_mem_nil, or_false] at ho
    rcases ho with rfl | rfl <;> exact ⟨by decide, by decide, by decide, by decide⟩
  · exact Set.mem_iUnion₂.mpr ⟨⟨0, 2 ^ 20⟩, by rw [hfirst]; simp, by simp [Range.bytes]⟩
  · exact Set.mem_iUnion₂.mpr ⟨⟨4096, 1⟩, by simp [hsecond], by simp [Range.bytes]⟩

end MtkBoot.Spmc
