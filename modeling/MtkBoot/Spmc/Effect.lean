import MtkBoot.Spmc.Calls

/-! The objects of the store as the checks read them, and what becomes of an object behind the copy
of a fragment (`finishDesc_filled`). -/

namespace MtkBoot.Spmc

open Lib List Obj Spmc

variable {o : Obj} {post pre : List Obj} {s : Store} {v : Nat}

variable {m : Mem} {s' : Store} {r : Result}

namespace Obj

def ranges (o : Obj) : List Range := Spmc.ranges o.mem (compOffset o.mem 0 v11)

/-- The header has been received, a complete descriptor has been checked and has the v1.1 format,
and only such a one is in use. -/
structure Stored (o : Obj) : Prop where
  header : 32 ≤ o.filled
  checked : o.Complete → Checked o.mem 0 o.desc.length v11
  idle : ¬o.Complete → o.inUse = 0

/-- The ranges of two transactions as `overlapping_memory_regions` compares them. -/
def Apart (o a : Obj) : Prop :=
  ∀ x ∈ o.ranges, ∀ y ∈ a.ranges, y.stop ≤ x.address ∨ x.stop ≤ y.address

end Obj

def rangesOf (v : Nat) (desc : Bytes) : List Range :=
  ranges (fun i => desc.getD i 0) (compOffset (fun i => desc.getD i 0) 0 v)

section Objects

variable {objs : List Obj}

variable (h : Holds s (pre ++ o :: post))
include h

theorem checked_at (hc : Checked s.data (extent enc pre + 32) o.desc.length v) :
    Checked o.mem 0 o.desc.length v ∧
      compOffset o.mem 0 v = compOffset s.data (extent enc pre + 32) v ∧
      ranges o.mem (0 + compOffset s.data (extent enc pre + 32) v) = ranges s.data
        (extent enc pre + 32 + compOffset s.data (extent enc pre + 32) v) :=
  hc.congr fun _ _ hi => desc_at h.laid hi

theorem at_checked (hc : Checked o.mem 0 o.desc.length v) :
    Checked s.data (extent enc pre + 32) o.desc.length v ∧
      compOffset s.data (extent enc pre + 32) v = compOffset o.mem 0 v ∧
      ranges s.data (extent enc pre + 32 + compOffset o.mem 0 v) =
      ranges o.mem (0 + compOffset o.mem 0 v) :=
  hc.congr fun _ _ hi => (desc_at h.laid hi).symm

theorem Holds.writeDesc (hout : ∀ x, x < extent enc pre + 32 ∨
      extent enc pre + 32 + o.desc.length ≤ x → m x = s.data x) : Holds { s with data := m }
      (pre ++ { o with desc := bytesAt m (extent enc pre + 32) o.desc.length } :: post) := by
  set p := extent enc pre with hp
  have hbytes := bytesAt_putBytes s.data (p + 32) (bytesAt m (p + 32) o.desc.length)
  rw [length_bytesAt] at hbytes
  have hm : putBytes s.data (p + 32 + 0) (bytesAt m (p + 32) o.desc.length) = m := by
    funext x
    by_cases hx : x < p + 32 ∨ p + 32 + o.desc.length ≤ x
    · rw [putBytes_outside (by simpa using hx), hout x hx]
    · obtain ⟨i, rfl⟩ : ∃ i, x = p + 32 + i := ⟨x - (p + 32), by omega⟩
      exact bytesAt_apply hbytes (by omega)
  have hput := h.putDesc (x := 0) (b := bytesAt m (p + 32) o.desc.length) (by simp)
  rw [Store.write, ← hp, hm] at hput
  simpa [splice] using hput

theorem Holds.putSize : Holds (s.put (extent enc pre) 8 o.desc.length) (pre ++ o :: post) := by
  have henc : o.enc = splice o.enc 0 (leBytes 8 o.desc.length) := by
    have hmiddle := splice_middle (a := []) (b := leBytes 8 o.desc.length)
      (c := leBytes 8 o.filled ++ leBytes 8 o.inUse ++ leBytes 8 o.hypShift ++ o.desc)
      (rfl : (leBytes 8 o.desc.length).length = _)
    rw [← o.enc_size, length_nil] at hmiddle
    exact hmiddle.symm
  have hput := h.put (by simp; omega) henc h.wf_of_split
  rw [add_zero] at hput
  exact hput

end Objects

section Send

variable {hook : Int}

theorem Obj.Stored.le_length (h : o.Stored) (hwf : o.Wf) : 32 ≤ o.desc.length := by
  have := h.header
  have := hwf.filled
  omega

theorem overlappingMemoryRegions_false {c c' : Nat} (h : overlappingMemoryRegions m c c' = false) :
    ∀ x ∈ ranges m c, ∀ y ∈ ranges m c', y.stop ≤ x.address ∨ x.stop ≤ y.address := by
  intro x hx y hy
  unfold overlappingMemoryRegions at h
  rw [Bool.or_eq_false_iff, any_eq_false] at h
  have hany := h.2 x hx
  rw [Bool.not_eq_true, any_eq_false] at hany
  simpa [not_lt, or_iff_not_imp_left] using hany y hy

variable (h : Holds s (pre ++ o :: post))
include h

theorem checkStateObj_true (hstored : ∀ a ∈ pre ++ post, a.Stored)
    (hmin : 32 ≤ o.desc.length) (hcomplete : o.Complete) (hc : Checked o.mem 0 o.desc.length v)
    (hcheck : checkStateObj s (extent enc pre) v) : ∀ a ∈ pre ++ post, a.handle ≠ o.handle →
    a.Complete → ∀ x ∈ ranges o.mem (compOffset o.mem 0 v), ∀ y ∈ a.ranges, y.stop ≤ x.address ∨
      x.stop ≤ y.address := by
  intro a ha hne hac
  have hmem : a ∈ pre ++ o :: post := by
    rw [mem_append] at ha
    simp [or_left_comm, ha]
  have hachecked := (hstored a ha).checked hac
  have halen := (hstored a ha).le_length (h.wf a hmem)
  obtain ⟨hoc, hocomp, horanges⟩ := at_checked h hc
  unfold checkStateObj at hcheck
  rw [hoc.getCompMrd] at hcheck
  have hohandle := handle_at h.laid (show 16 ≤ o.desc.length by omega)
  have hosize : descSize s.data (extent enc pre) = descFilled s.data (extent enc pre) := by
    rw [descSize_at h.laid h.wf_of_split, descFilled_at h.laid h.wf_of_split]
    exact hcomplete.symm
  obtain ⟨pre', post', hsplit⟩ := append_of_mem hmem
  rw [hsplit] at h
  obtain ⟨haq, hacomp, haranges⟩ := at_checked h hachecked
  have hahandle := handle_at h.laid (show 16 ≤ a.desc.length by omega)
  have hcompiled : getCompMrd s.data (extent enc pre' + 32) versionCompiled =
      some (extent enc pre' + 32 + compOffset a.mem 0 v11) := by
    have heq : compOffset s.data (extent enc pre' + 32) versionCompiled =
        compOffset s.data (extent enc pre' + 32) v11 := compOffset_of_ne (by decide) (by decide)
    have hmrd := haq.getCompMrd
    rw [getCompMrd] at hmrd ⊢
    rw [heq, hmrd, hacomp]
  have hat := all_eq_true.mp hcheck _ h.mem_objects
  rw [hohandle, hahandle, if_pos ⟨hne.symm, hosize⟩, hcompiled] at hat
  have hapart := overlappingMemoryRegions_false (by simpa using hat)
  rw [hocomp, horanges, haranges, zero_add, zero_add] at hapart
  exact hapart

omit h in
theorem beginShare_cases {h : Nat} (hs : Holds s (pre ++ o :: post))
    (hres : beginShare s (extent enc pre) h hook = (s', r)) :
    (∃ code, r = .error code ∧ Holds s' (pre ++ post)) ∨
    (r = .sent h ∧ Holds s' (pre ++ o :: post)) := by
  unfold beginShare at hres
  split at hres
  · obtain ⟨rfl, rfl⟩ := Prod.mk.inj hres
    exact .inl ⟨hook, rfl, hs.free⟩
  · obtain ⟨rfl, rfl⟩ := Prod.mk.inj hres
    exact .inr ⟨rfl, hs⟩

theorem convertStored_alloc {size q : Nat} (ha : s.alloc size = some (s', q)) :
    ∃ f : Obj, Holds ((s'.put q 8 size).put (q + 8) 8 size) ((pre ++ o :: post) ++ [f]) ∧
      q = extent enc (pre ++ o :: post) ∧ f.desc.length = size ∧ f.Complete ∧ f.inUse = 0 := by
  obtain ⟨f, hf, hq, hlen, -, huse, -⟩ := h.alloc ha
  have hsized := hf.putSize
  have hfilled := hsized.putFilled (Nat.le_refl f.desc.length)
  rw [← hq, hlen] at hfilled
  exact ⟨{ f with filled := size }, hfilled, hq, hlen, hlen.symm, huse⟩

omit h in
theorem fromV10_holds {f : Obj} (h : Holds s ((pre ++ o :: post) ++ [f]))
    (hc : Checked s.data (extent enc pre + 32) o.desc.length v10)
    (hsize : f.desc.length = v11DescriptorSize s.data (extent enc pre + 32))
    (hsmall : f.desc.length < 2 ^ 32) (hf : f.Complete) (huse : f.inUse = 0)
    (hfrom : FromV10 s.data (extent enc pre + 32) m (extent enc (pre ++ o :: post) + 32))
    (hframe : ∀ x, x < extent enc (pre ++ o :: post) + 32 ∨
      extent enc (pre ++ o :: post) + 32 + f.desc.length ≤ x → m x = s.data x) :
    ∃ o' : Obj, Holds { s with data := m } ((pre ++ o :: post) ++ [o']) ∧ o'.Stored ∧ o'.Complete ∧
      o'.handle = handle s.data (extent enc pre + 32) ∧ o'.inUse = 0 ∧ o'.ranges = ranges s.data
        (extent enc pre + 32 + compOffset s.data (extent enc pre + 32) v10) := by
  have hnew := h.writeDesc hframe
  generalize extent enc pre + 32 = d at *
  generalize hq : extent enc (pre ++ o :: post) = q at *
  obtain ⟨o', ho'⟩ : ∃ o' : Obj, o' = { f with desc := bytesAt m (q + 32) f.desc.length } :=
    ⟨_, rfl⟩
  have hlen : o'.desc.length = f.desc.length := by rw [ho']; exact length_bytesAt _ _ _
  have hfilled : o'.filled = f.filled := by rw [ho']
  have huse' : o'.inUse = 0 := by rw [ho']; exact huse
  rw [← ho'] at hnew
  refine ⟨o', hnew, ?_⟩
  have hcomplete : o'.Complete := hfilled.trans (hf.trans hlen.symm)
  have hconv := hfrom.checked hc (by rw [← hsize]; exact hsmall)
  rw [← hsize, ← hlen, ← hq] at hconv
  obtain ⟨hoc, hocomp, horanges⟩ := checked_at hnew hconv
  rw [hsize, v11DescriptorSize] at hlen hsmall
  have hoff : compOffset m (q + 32) v11 = 48 + 16 * emadCount s.data d :=
    hfrom.compMrdOffset_eq (by omega) hc.count
  refine ⟨⟨?_, fun _ => hoc, fun hn => absurd hcomplete hn⟩, hcomplete, ?_, huse', ?_⟩
  · rw [show o'.filled = o'.desc.length from hcomplete]
    omega
  · rw [← handle_at hnew.laid (by omega), hq]
    exact hfrom.handle_eq
  · rw [hq, hoff, zero_add, hfrom.ranges_eq.2] at horanges
    rw [Obj.ranges, hocomp, hq, hoff, horanges]

theorem v11DescriptorSize_at (hc : Checked o.mem 0 o.desc.length v10) :
    v11DescriptorSize s.data (extent enc pre + 32) = v11DescriptorSize o.mem 0 := by
  obtain ⟨hcs, hcomp, -⟩ := at_checked h hc
  have hcount : emadCount s.data (extent enc pre + 32) = emadCount o.mem 0 := by
    have := hc.size
    have := hc.behind
    have := hc.le_base
    exact rd_at h.laid (by omega)
  have hsize := hcs.size
  have hsize' := hc.size
  unfold v11DescriptorSize
  rw [hcomp] at hsize ⊢
  omega

theorem convertStored_cases (hstored : ∀ a ∈ pre ++ post, a.Stored)
    (hc : Checked o.mem 0 o.desc.length v10) (honly : ∀ a ∈ pre ++ post, a.handle ≠ o.handle)
    (hres : convertStored s (extent enc pre) hook = (s', r)) :
    (∃ code, r = .error code ∧ Holds s' (pre ++ post)) ∨
      (r = .sent o.handle ∧ ∃ o' : Obj, Holds s' (pre ++ post ++ [o']) ∧ o'.Stored ∧ o'.Complete ∧
        o'.handle = o.handle ∧ o'.inUse = 0 ∧
        o'.ranges = ranges o.mem (compOffset o.mem 0 v10)) := by
  have hdropped : ∀ code, (s.free (extent enc pre), .error code) = (s', r) →
      ∃ code, r = .error code ∧ Holds s' (pre ++ post) := by
    intro code heq
    obtain ⟨rfl, rfl⟩ := Prod.mk.inj heq
    exact ⟨code, rfl, h.free⟩
  unfold convertStored at hres
  rw [v11DescriptorSize_at h hc] at hres
  dsimp only at hres
  split at hres
  · exact .inl (hdropped _ hres)
  rename_i hsmall
  split at hres
  · exact .inl (hdropped _ hres)
  rename_i s1 q halloc
  obtain ⟨f, hf, rfl, hlen, hfc, huse⟩ := convertStored_alloc h halloc
  generalize (s1.put _ 8 _).put _ 8 _ = s2 at hres hf
  -- In the larger store the object is where it was.
  have h2 : Holds s2 (pre ++ o :: (post ++ [f])) := by simpa using hf
  obtain ⟨hcs, hcomp, hranges⟩ := at_checked h2 hc
  have hsize : f.desc.length = v11DescriptorSize s2.data (extent enc pre + 32) := by
    rw [hlen, v11DescriptorSize_at h2 hc]
  have hlayout : extent enc pre + 32 + o.desc.length ≤ extent enc (pre ++ o :: post) := by
    rw [extent_append, extent_cons, length_enc]
    omega
  obtain ⟨hok, hfrom, hframe⟩ := convertFromV10_spec (descSize_at h2.laid h2.wf_of_split)
    hcs hlayout (by rw [descSize_at hf.laid hf.wf_of_split, hsize]) (by omega)
  generalize convertFromV10 s2.data _ _ = converted at hres hok hfrom hframe
  rw [← hsize] at hframe
  obtain ⟨o', hnew, hstored', hcomplete, hhandle, huse', hranges'⟩ :=
    fromV10_holds hf hcs hsize (by omega) hfc huse hfrom hframe
  have hmin : 16 ≤ o.desc.length := by
    have := hc.size
    have := hc.behind
    have := hc.le_base
    omega
  rw [handle_at h2.laid hmin] at hhandle
  rw [hcomp, hranges, zero_add] at hranges'
  rw [if_neg (by simp [hok])] at hres
  generalize hs3 : ({ s2 with data := converted.1 } : Store) = s3 at hres hnew
  have h3 : Holds s3 (pre ++ o :: (post ++ [o'])) := by simpa using hnew
  rw [show converted.1 = s3.data by rw [← hs3], handle_at h3.laid hmin] at hres
  have hfreed : Holds (s3.free (extent enc pre)) (pre ++ post ++ o' :: []) := by
    have := h3.free
    rwa [← append_assoc] at this
  have hfind : (s3.free (extent enc pre)).lookup o.handle = some (extent enc (pre ++ post)) := by
    rw [← hhandle]
    refine hfreed.lookup_eq (fun a ha => ?_) fun a ha => ?_
    · have hwf := hfreed.wf a ha
      rw [mem_append, mem_singleton] at ha
      rcases ha with ha | rfl
      · have := (hstored a ha).le_length hwf
        omega
      · have := hstored'.le_length hwf
        omega
    · rw [hhandle]
      exact honly a (by simpa using ha)
  rw [hfind] at hres
  rcases beginShare_cases hfreed hres with ⟨code, hr, hdrop⟩ | ⟨hr, hkeep⟩
  · exact .inl ⟨code, hr, by simpa using hdrop⟩
  · exact .inr ⟨hr, o', hkeep, hstored', hcomplete, hhandle, huse', hranges'⟩

/-- What becomes of an object for which a fragment has come in.  `h` is the handle of its
transaction, `given` says what the ranges of a complete descriptor are. -/
inductive Filled (pre post : List Obj) (h : Nat) (given : List Range → Prop) :
  Result → List Obj → Prop
  | dropped (code : Int) : Filled pre post h given (.error code) (pre ++ post)
  | partly {o : Obj} {n : Nat} (hstored : o.Stored) (hopen : ¬o.Complete) (hhandle : o.handle = h) :
      Filled pre post h given (.fragRx h n) (pre ++ o :: post)
  | whole {o : Obj} {l : List Obj} (hplace : l = pre ++ o :: post ∨ l = pre ++ post ++ [o])
      (hstored : o.Stored) (hcomplete : o.Complete) (hhandle : o.handle = h) (huse : o.inUse = 0)
      (hranges : given o.ranges) (hapart : ∀ a ∈ pre ++ post, a.Complete → o.Apart a) :
      Filled pre post h given (.sent h) l

omit h in
theorem Filled.imp {h : Nat} {given given' : List Range → Prop}
    {l : List Obj} (hf : Filled pre post h given r l) (himp : ∀ g, given g → given' g) :
    Filled pre post h given' r l := by
  cases hf with
  | dropped code => exact .dropped code
  | partly hstored hopen hhandle => exact .partly hstored hopen hhandle
  | whole hplace hstored hcomplete hhandle huse hranges hapart =>
    exact .whole hplace hstored hcomplete hhandle huse (himp _ hranges) hapart

theorem finishDesc_filled {known : Nat → Bool} {given : List Range → Prop}
    (hstored : ∀ a ∈ pre ++ post, a.Stored) (hheader : 32 ≤ o.filled) (huse : o.inUse = 0)
    (honly : ∀ a ∈ pre ++ post, a.handle ≠ o.handle)
    (hgiven : o.Complete → Checked o.mem 0 o.desc.length v →
      given (ranges o.mem (compOffset o.mem 0 v)))
    (hres : finishDesc known s (extent enc pre) v hook = some (s', r)) :
    ∃ l, Holds s' l ∧ Filled pre post o.handle given r l := by
  have hwf := h.wf_of_split
  have hlen : 32 ≤ o.desc.length := le_trans hheader hwf.filled
  unfold finishDesc at hres
  rw [descFilled_at h.laid hwf, descSize_at h.laid hwf, handle_at h.laid (by omega)] at hres
  have hdropped : ∀ code, some (s.free (extent enc pre), .error code) = some (s', r) →
      ∃ l, Holds s' l ∧ Filled pre post o.handle given r l := by
    intro code heq
    obtain ⟨rfl, rfl⟩ := Prod.mk.inj (Option.some.inj heq)
    exact ⟨_, h.free, .dropped code⟩
  split at hres
  · rename_i hopen
    cases hres
    exact ⟨_, h, .partly ⟨hheader, fun hc => absurd hc hopen, fun _ => huse⟩ hopen rfl⟩
  split at hres
  · cases hres
  · exact hdropped _ hres
  rename_i hcheck
  obtain ⟨hcomplete, hcs⟩ := checkObj_true hcheck
  obtain ⟨hc, hcomp, hranges⟩ := checked_at h hcs
  split at hres
  · exact hdropped _ hres
  rename_i hstate
  have hapart := checkStateObj_true h hstored hlen hcomplete hc (by simpa using hstate)
  split at hres
  · rename_i hv
    subst hv
    obtain ⟨code, rfl, hs'⟩ | ⟨rfl, o', hs', hst, hco, hha, hu, hra⟩ :=
      convertStored_cases h hstored hc honly (Option.some.inj hres)
    · exact ⟨_, hs', .dropped code⟩
    · refine ⟨_, hs',
        .whole (.inr rfl) hst hco hha hu (hra ▸ hgiven hcomplete hc) fun a ha hac x hx => ?_⟩
      rw [hra] at hx
      exact hapart a ha (honly a ha) hac x hx
  · rename_i hv
    have hranges' : o.ranges = ranges o.mem (compOffset o.mem 0 v) := by
      rw [Obj.ranges, compOffset_of_ne (show v11 ≠ v10 by decide) hv]
    obtain ⟨code, rfl, hs'⟩ | ⟨rfl, hs'⟩ := beginShare_cases h (Option.some.inj hres)
    · exact ⟨_, hs', .dropped code⟩
    · refine
        ⟨_, hs', .whole (.inl rfl) ⟨hheader, fun _ => hc.of_ne hv, fun hn => absurd hcomplete hn⟩
        hcomplete rfl huse (hranges' ▸ hgiven hcomplete hc) fun a ha hac x hx => ?_⟩
      rw [hranges'] at hx
      exact hapart a ha (honly a ha) hac x hx

end Send

end MtkBoot.Spmc
