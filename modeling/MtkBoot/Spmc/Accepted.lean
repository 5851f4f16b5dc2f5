import MtkBoot.Spmc.Disjoint

/-! The checks on a descriptor, on its first fragment and when it is complete, and what they leave
of the bytes of the sender. -/

namespace MtkBoot.Spmc

open Lib

/-- A descriptor of `n` bytes that has all its parts inside. -/
structure WellFormed (m : Mem) (d n v : Nat) : Prop where
  record : ∀ i, i < emadCount m d → getEmad m d i v + emadStep m d v ≤ d + n
  header : compOffset m d v + 16 ≤ n
  range : ∀ i, i < addressRangeCount m (d + compOffset m d v) →
    compOffset m d v + 16 + 16 * i + 16 ≤ n
  offset : ∀ i, i < emadCount m d → compMrdOffset m (getEmad m d i v) = compOffset m d v
  distinct : ∀ i j, i < j → j < emadCount m d →
    endpointId m (getEmad m d i v) ≠ endpointId m (getEmad m d j v)
  pages : totalPageCount m (d + compOffset m d v) =
    ((ranges m (d + compOffset m d v)).map Range.pageCount).sum

section WellFormed

variable {m m' : Mem} {d n v len : Nat} {known : Nat → Bool}

theorem checkObj_wellFormed (h : checkObj m d n n v known = some true) : WellFormed m d n v := by
  obtain ⟨-, hc⟩ := checkObj_true h
  have hpages : totalPageCount m (d + compOffset m d v) =
      ((ranges m (d + compOffset m d v)).map Range.pageCount).sum := by
    rw [checkObj, if_neg (by simp)] at h
    split at h
    · cases h
    · simp only [Option.some.injEq, Bool.and_eq_true, decide_eq_true_eq] at h
      exact h.2
  have hbehind := hc.behind
  have hsize := hc.size
  refine ⟨fun i hi => ?_, by omega, fun i hi => by omega, hc.comp, hc.distinct, hpages⟩
  have hstep : emadStep m d v * (i + 1) ≤ emadStep m d v * emadCount m d := Nat.mul_le_mul_left _ hi
  rw [mul_add, mul_one] at hstep
  unfold getEmad
  omega

/-- The header up to the handle is the firmware's own after the first fragment `m'`, and the rest of
the object comes with later fragments.  The check of the complete object ends, and what it accepts
is well formed. -/
theorem accepted_descriptor_wellFormed (hfirst : validateMtdStart m' d v len n = true)
    (hlen : len ≤ n) (hsame : ∀ i, 16 ≤ i → i < len → m (d + i) = m' (d + i)) :
    checkObj m d n n v known ≠ none ∧
      (checkObj m d n n v known = some true → WellFormed m d n v) := by
  refine ⟨?_, checkObj_wellFormed⟩
  have hmin : 32 ≤ len := by
    simp only [validateMtdStart, Bool.and_eq_true] at hfirst
    have := hfirst.1.1.1
    split at this <;> simp at this <;> omega
  rw [← validateMtdStart_congr hsame hmin (Nat.le_refl len)] at hfirst
  -- the length of what has been received counts only against the size of the header
  have hwhole : validateMtdStart m d v n n := by
    simp only [validateMtdStart, Bool.and_eq_true] at hfirst ⊢
    refine ⟨⟨⟨?_, hfirst.1.1.2⟩, hfirst.1.2⟩, hfirst.2⟩
    have := hfirst.1.1.1
    split at this <;> simp_all <;> omega
  simp [checkObj, hwhole]

theorem shareDesc_wellFormed : WellFormed (fun i => (shareDesc 0 0 0 0 2).getD i 0) 0 96 v11 := by
  have hfirst : validateMtdStart (fun i => (shareDesc 0 0 0 0 2).getD i 0) 0 v11 48 96 := by
    decide +kernel
  have hwhole : checkObj (fun i => (shareDesc 0 0 0 0 2).getD i 0) 0 96 96 v11 (fun _ => true) =
      some true := by
    decide +kernel
  exact (accepted_descriptor_wellFormed hfirst (by decide) fun _ _ _ => rfl).2 hwhole

end WellFormed

/-! ### The check for overlaps -/

/-- The memory at the check for overlaps, and the objects the new one is compared with up to the
first overlap. -/
def compared (known : Nat → Bool) (s : Store) (c : Call) : List (Mem × Nat) :=
  callWith s (fun _ _ => []) (fun s p v _ =>
    if checkObj s.data (p + 32) (descFilled s.data p) (descSize s.data p) v known = some true then
      (s.objects.filter fun q => handle s.data (p + 32) ≠ handle s.data (q + 32) ∧
        checkStateObj { s with allocated := q } p v).map fun q => (s.data, q)
    else []) [] c

/-- The composite descriptor that the check finds for the object at `q` has been received with all
its ranges. -/
def Received (m : Mem) (q : Nat) : Prop :=
  let comp := compOffset m (q + 32) versionCompiled
  comp + 16 + 16 * addressRangeCount m (q + 32 + comp) ≤ descFilled m q ∧
    descFilled m q ≤ descSize m q

instance (m : Mem) (q : Nat) : Decidable (Received m q) := inferInstanceAs (Decidable (_ ∧ _))

/-- A call that completes a descriptor finds all other transfers complete. -/
def NoneOpen (s : Store) (c : Call) : Prop :=
  completes s c → ∀ q ∈ s.objects, c.target ≠ some (handle s.data (q + 32)) →
    descFilled s.data q = descSize s.data q

instance (s : Store) (c : Call) : Decidable (NoneOpen s c) := inferInstanceAs (Decidable (_ → _))

section Compared

variable {s : Store} {objs : List Obj} {c : Call} {known : Nat → Bool}

/-- Between two calls a complete object has all its ranges. -/
theorem stored_received {pre post : List Obj} {a : Obj} (h : Holds s (pre ++ a :: post))
    (ha : a.Stored) (hc : a.Complete) : Received s.data (extent Obj.enc pre) := by
  have hsize := (at_checked h (ha.checked hc)).1.size
  have hcomp : compOffset s.data (extent Obj.enc pre + 32) versionCompiled =
    compOffset s.data (extent Obj.enc pre + 32) v11 := compOffset_of_ne (by decide) (by decide)
  have hfilled : a.filled = a.desc.length := hc
  rw [Received, hcomp, descFilled_at h.laid h.wf_of_split, descSize_at h.laid h.wf_of_split]
  omega

theorem compared_received (hs : Reachable Store.Init (FreshStep known) s) (hcall : NoneOpen s c) :
    ∀ x ∈ compared known s c, Received x.1 x.2 := by
  obtain ⟨objs, hinv⟩ := reachable_inv hs
  intro x hx
  generalize hl : compared known s c = l at hx
  rcases callWith_cases hinv hl with rfl | ⟨code, rfl⟩ | ⟨s1, pre, o, post, mbox, len, flag, hook,
    hfill, hb⟩
  · cases hx
  · cases hx
  have hheader := hb.header
  rw [length_bytesAt] at hheader
  cases fillWith_taken hb.holds hheader hfill with
  | refused hno hl hs' =>
    subst hl
    cases hx
  | @accepted s' hok hl hs' hn =>
    subst hl
    obtain ⟨hcheck, hx⟩ : _ ∧ _ := by simpa using hx
    obtain ⟨q, ⟨hq, hne, -⟩, rfl⟩ := hx
    rw [descFilled_at hs'.laid hs'.wf_of_split, descSize_at hs'.laid hs'.wf_of_split] at hcheck
    obtain ⟨hcomplete, hchecked⟩ := checkObj_true hcheck
    obtain ⟨pre', a, post', hsplit, rfl⟩ := hs'.of_mem_objects hq
    have ha : a ∈ pre ++ post := by
      have hmem : a ∈ pre' ++ a :: post' := by simp
      rw [← hsplit, List.perm_middle.mem_iff, List.mem_cons] at hmem
      refine hmem.resolve_left ?_
      rintro rfl
      have hlen := hchecked.size
      rw [handle_at hs'.laid (by omega)] at hne
      rw [hsplit] at hs'
      exact hne (handle_at hs'.laid (by omega)).symm
    obtain ⟨hold, htarget⟩ := hb.others hinv a ha
    have hac : a.Complete := by
      obtain ⟨pre₀, post₀, rfl⟩ := List.append_of_mem hold
      have hlast := complete_received hb.holds.wf_of_split hheader hok.2.2.1 hcomplete
      have hall := hcall (hb.completes (by rwa [length_bytesAt])) _ hinv.holds.mem_objects
      rw [handle_at hinv.holds.laid (hinv.length a hold), descFilled_at hinv.holds.laid
        hinv.holds.wf_of_split, descSize_at hinv.holds.laid hinv.holds.wf_of_split] at hall
      exact hall htarget
    rw [hsplit] at hs'
    exact stored_received hs' (hinv.stored a hold) hac

end Compared

/-- A first fragment that ends with the header. -/
def firstFragment : Call := .send 0x73 false v11 96 48 0 0
    { pageCount := 1, tx := fun i => (shareDesc 0 0 0 0 1).getD i 0, full := false } 0

/-- The records of the endpoints of the unfinished transfer are still missing, and so is what the
other sender's ranges are compared with. -/
theorem unfinished_compared : ∃ s, Reachable Store.Init (FreshStep fun _ => true) s ∧
    ∃ x ∈ compared (fun _ => true) s (shareCall 8192 1), ¬Received x.1 x.2 := by
  have hrun : (runCalls (fun s c => decide (Fresh s c)) (fun _ => true) emptyStore
    [firstFragment]).map (fun s =>
      (compared (fun _ => true) s (shareCall 8192 1)).any fun x => decide ¬Received x.1 x.2) =
        some true := by
    decide +kernel
  obtain ⟨s, hs, hany⟩ := Option.map_eq_some_iff.mp hrun
  obtain ⟨x, hx, hno⟩ := List.any_eq_true.mp hany
  exact ⟨s, runCalls_reachable (fun s s' c r hok hcall => ⟨c, r, of_decide_eq_true hok, hcall⟩)
    (.init emptyStore_init) hs, x, hx, of_decide_eq_true hno⟩

theorem compared_received_two : ∃ s, (compared (fun _ => true) s (shareCall 8192 1)).length = 1 ∧
    ∀ x ∈ compared (fun _ => true) s (shareCall 8192 1), Received x.1 x.2 := by
  have hrun : (runCalls (fun s c => decide (Fresh s c)) (fun _ => true) emptyStore
    [shareCall 0 2]).map (fun s =>
      decide ((compared (fun _ => true) s (shareCall 8192 1)).length = 1 ∧
        NoneOpen s (shareCall 8192 1))) =
      some true := by
    decide +kernel
  obtain ⟨s, hs, hok⟩ := Option.map_eq_some_iff.mp hrun
  obtain ⟨hlen, hopen⟩ := of_decide_eq_true hok
  exact ⟨s, hlen, compared_received
    (runCalls_reachable (fun s s' c r hok hcall => ⟨c, r, of_decide_eq_true hok, hcall⟩)
    (.init emptyStore_init) hs) hopen⟩

end MtkBoot.Spmc
