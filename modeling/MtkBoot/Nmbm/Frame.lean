import MtkBoot.Nmbm.Write

/-! What device calls and writes of management data can change.  `Touch B` is the effect of device
calls on the blocks `B`; `Frame B` also allows that blocks of `B` have been found bad. -/

namespace MtkBoot.Nmbm

open MtkBoot.Lib

variable {B C : Set Nat} {addr ba k : Nat} {s s' s'' : Sys}

def Geometry.bytes (g : Geometry) (B : Set Nat) : Set Nat := { i | i / g.erasesize ∈ B }

def Instance.unpaged (ni : Instance) : Instance := { ni with pageCache := fun _ => 0 }

def Sys.stateless (s : Sys) : Sys :=
  { s with ni.blockState := fun _ => .bad, ni.blockStateChanged := 0 }

/-- Device calls that erase and program only the bytes `B`: apart from the page cache the instance
is as it was, and every flash on the way agrees with the first one outside `B`. -/
structure Touch (B : Set Nat) (s s' : Sys) : Prop where
  ni : s'.ni.unpaged = s.ni.unpaged
  fate : s'.chip.fate = s.chip.fate
  calls : s.chip.calls ≤ s'.chip.calls
  data : ∀ i, i ∉ B → s'.chip.data i = s.chip.data i
  flashes : ∃ new, s'.flashes = new ++ s.flashes ∧ ∀ d ∈ new, ∀ i, i ∉ B → d i = s.chip.data i

open Touch

namespace Touch

theorem refl (B : Set Nat) (s : Sys) : Touch B s s :=
  ⟨rfl, rfl, le_rfl, fun _ _ => rfl, ⟨[], rfl, by simp⟩⟩

theorem geo (h : Touch B s s') : s'.ni.geo = s.ni.geo := (congrArg Instance.geo h.ni :)

theorem blockState (h : Touch B s s') : s'.ni.blockState = s.ni.blockState :=
  (congrArg Instance.blockState h.ni :)

theorem trans (h : Touch B s s') (h' : Touch B s' s'') : Touch B s s'' := by
  obtain ⟨new, hnew, hagree⟩ := h.flashes
  obtain ⟨new', hnew', hagree'⟩ := h'.flashes
  have hdata : ∀ i, i ∉ B → s''.chip.data i = s.chip.data i := by
    intro i hi
    rw [h'.data i hi, h.data i hi]
  refine ⟨h'.ni.trans h.ni, h'.fate.trans h.fate, h.calls.trans h'.calls, hdata,
    ⟨new' ++ new, by rw [hnew', hnew, List.append_assoc], ?_⟩⟩
  intro d hd i hi
  rcases List.mem_append.mp hd with hd | hd
  · rw [hagree' d hd i hi, h.data i hi]
  · exact hagree d hd i hi

theorem mono (h : Touch B s s') (hBC : B ⊆ C) : Touch C s s' := by
  obtain ⟨new, hnew, hagree⟩ := h.flashes
  exact ⟨h.ni, h.fate, h.calls, fun i hi => h.data i fun hb => hi (hBC hb),
    ⟨new, hnew, fun d hd i hi => hagree d hd i fun hb => hi (hBC hb)⟩⟩

theorem transBlocks (h : Touch (s.ni.geo.bytes B) s s') (h' : Touch (s'.ni.geo.bytes B) s' s'') :
    Touch (s.ni.geo.bytes B) s s'' := by
  rw [h.geo] at h'
  exact h.trans h'

theorem tick (s : Sys) : Touch B s s.tick :=
  ⟨rfl, rfl, Nat.le_succ _, fun _ _ => rfl, ⟨[], rfl, by simp⟩⟩

theorem cachePage (s : Sys) (page : Mem) : Touch B s (s.cachePage page) :=
  ⟨rfl, rfl, le_rfl, fun _ _ => rfl, ⟨[], rfl, by simp⟩⟩

theorem flash {d : Mem} (h : ∀ i, i ∉ B → d i = s.chip.data i) : Touch B s (s.tick.flash d) := by
  refine ⟨rfl, rfl, Nat.le_succ _, h, ⟨[d], rfl, ?_⟩⟩
  intro d' hd'
  rwa [List.mem_singleton.mp hd']

end Touch

/-- Device calls on the blocks `B` that may have found some of them bad. -/
structure Frame (B : Set Nat) (s s' : Sys) : Prop where
  touch : Touch (s.ni.geo.bytes B) s.stateless s'.stateless
  state : ∀ b, s'.ni.blockState b = s.ni.blockState b ∨ b ∈ B ∧ s.ni.blockState b = .good ∧
    s'.ni.blockState b = .bad
  changed : s.ni.blockStateChanged ≤ s'.ni.blockStateChanged
  same : s'.ni.blockStateChanged = s.ni.blockStateChanged → s'.ni.blockState = s.ni.blockState

namespace Frame

theorem of_touch (h : Touch (s.ni.geo.bytes B) s s') : Frame B s s' := by
  refine ⟨⟨?_, h.fate, h.calls, h.data, h.flashes⟩,
    fun b => .inl (congrFun h.blockState b), ?_, fun _ => h.blockState⟩
  · exact congrArg (fun ni : Instance =>
      { ni with blockState := fun _ => .bad, blockStateChanged := 0 }) h.ni
  · exact le_of_eq (congrArg Instance.blockStateChanged h.ni).symm

theorem refl (B : Set Nat) (s : Sys) : Frame B s s := of_touch (.refl _ s)

section

variable (h : Frame B s s')
include h

theorem geo : s'.ni.geo = s.ni.geo := h.touch.geo

theorem trans (h' : Frame B s' s'') : Frame B s s'' := by
  refine ⟨transBlocks (s := s.stateless) h.touch h'.touch, fun b => ?_, h.changed.trans h'.changed,
    fun heq => ?_⟩
  · rcases h.state b with hb | ⟨hB, hgood, hbad⟩
    · rcases h'.state b with hb' | ⟨hB', hgood', hbad'⟩
      · exact .inl (hb'.trans hb)
      · exact .inr ⟨hB', hb ▸ hgood', hbad'⟩
    · rcases h'.state b with hb' | ⟨_, hgood', _⟩
      · exact .inr ⟨hB, hgood, hb'.trans hbad⟩
      · rw [hbad] at hgood'
        cases hgood'
  · have h1 := h.changed
    have h2 := h'.changed
    rw [h'.same (by omega), h.same (by omega)]

theorem mono (hBC : B ⊆ C) : Frame C s s' :=
  ⟨h.touch.mono fun _ hi => hBC hi, fun b => (h.state b).imp_right fun ⟨hB, hb⟩ => ⟨hBC hB, hb⟩,
    h.changed, h.same⟩

theorem infoTableCache : s'.ni.infoTableCache = s.ni.infoTableCache :=
  (congrArg Instance.infoTableCache h.touch.ni :)

theorem backupTableBa : s'.ni.backupTableBa = s.ni.backupTableBa :=
  (congrArg Instance.backupTableBa h.touch.ni :)

theorem mappingBlocksBa : s'.ni.mappingBlocksBa = s.ni.mappingBlocksBa :=
  (congrArg Instance.mappingBlocksBa h.touch.ni :)

theorem mappingBlocksTopBa : s'.ni.mappingBlocksTopBa = s.ni.mappingBlocksTopBa :=
  (congrArg Instance.mappingBlocksTopBa h.touch.ni :)

theorem data {i : Nat} (hi : i / s.ni.geo.erasesize ∉ B) : s'.chip.data i = s.chip.data i :=
  h.touch.data i hi

theorem state_of_notMem {b : Nat} (hb : b ∉ B) : s'.ni.blockState b = s.ni.blockState b := by
  rcases h.state b with heq | ⟨hB, _, _⟩
  · exact heq
  · exact absurd hB hb

end

theorem setBad (s : Sys) (hB : ba ∈ B) (hgood : s.ni.blockState ba = .good) :
    Frame B s (setBlockState s ba .bad) := by
  refine ⟨.refl _ s.stateless, fun b => ?_, ?_, fun h => ?_⟩
  · by_cases hb : b = ba
    · exact .inr ⟨hb ▸ hB, hb ▸ hgood, by simp [setBlockState, hb]⟩
    · exact .inl (by simp [setBlockState, hb])
  · simp [setBlockState, hgood]
  · simp [setBlockState, hgood] at h

end Frame

section Calls

variable {r : ReadResult} {ok : Bool} {n : Nat} {data : Option Mem}

theorem readTries_spec (h : readTries n s addr = (r, s')) :
    Touch ∅ s s' ∧ (0 ≤ r.ret → r.data = fun i =>
      s.chip.data (addr / s.ni.geo.writesize * s.ni.geo.writesize + i)) := by
  induction n generalizing s with
  | zero =>
    obtain ⟨rfl, rfl⟩ := h
    exact ⟨tick s, fun hret => if_pos hret⟩
  | succ n ih =>
    simp only [readTries, readPage] at h
    split at h
    · cases h
      exact ⟨tick s, fun _ => rfl⟩
    · obtain ⟨htouch, hdata⟩ := ih h
      exact ⟨(tick s).trans htouch, hdata⟩

theorem readPhysPage_spec (h : readPhysPage s addr = (r, s')) :
    Touch ∅ s s' ∧ (0 ≤ r.ret → r.data = fun i =>
      s.chip.data (addr / s.ni.geo.writesize * s.ni.geo.writesize + i)) :=
  readTries_spec h

def Geometry.pageBytes (g : Geometry) (addr : Nat) : Set Nat :=
  { i | i / g.writesize = addr / g.writesize }

theorem Geometry.pageBytes_subset (g : Geometry) (h : addr / g.erasesize = ba) :
    g.pageBytes addr ⊆ g.bytes {ba} :=
  fun _ hi => (g.div_erasesize_of_page hi).trans h

theorem eraseBlock_touch (addr : Nat) (s : Sys) :
    Touch (s.ni.geo.bytes {addr / s.ni.geo.erasesize}) s (eraseBlock addr s).2 :=
  flash fun _ hi => if_neg hi

theorem retry_touch {call : Sys → Int × Sys}
    (hcall : ∀ t, t.ni.geo = s.ni.geo → Touch B t (call t).2) (n : Nat) :
    Touch B s (retry call n s).2 := by
  induction n generalizing s with
  | zero => exact refl B s
  | succ n ih =>
    have h1 := hcall s rfl
    simp only [retry]
    split
    · exact h1
    · exact h1.trans (ih fun t ht => hcall t (ht.trans h1.geo))

theorem writePhysPage_touch (s : Sys) (addr : Nat) (data : Option Mem) :
    Touch (s.ni.geo.pageBytes addr) s (writePhysPage s addr data).2 := by
  unfold writePhysPage
  split
  · exact refl _ s
  · exact retry_touch (fun t ht => ht ▸ flash fun _ hi => if_neg hi) tryCount

theorem erasePhysBlock_touch (s : Sys) (ba : Nat) :
    Touch (s.ni.geo.bytes {ba}) s (erasePhysBlock s (s.ni.geo.ba2addr ba)).2 := by
  unfold erasePhysBlock
  split
  · exact refl _ s
  · refine retry_touch (fun t ht => ?_) tryCount
    simpa [ht, Geometry.ba2addr, s.ni.geo.erasesize_pos] using eraseBlock_touch
      (s.ni.geo.ba2addr ba) t

theorem checkBadPhysBlock_touch (s : Sys) (ba : Nat) : Touch ∅ s (checkBadPhysBlock s ba).2 := by
  unfold checkBadPhysBlock
  split
  · exact tick s
  · exact (readPhysPage_spec rfl).1.trans (cachePage _ _)

theorem Geometry.page_div (g : Geometry) (ba : Nat) (hk : k < g.pages) :
    (g.ba2addr ba + k * g.writesize) / g.erasesize = ba := by
  have hlt : k * g.writesize < g.erasesize := by
    rw [g.erasesize_eq, mul_comm]
    exact Nat.mul_lt_mul_of_pos_left hk g.writesize_pos
  rw [ba2addr, add_comm, Nat.add_mul_div_right _ _ g.erasesize_pos, Nat.div_eq_of_lt hlt, zero_add]

theorem zeroPages_touch (hk : k + n ≤ s.ni.geo.pages) :
    Touch (s.ni.geo.bytes {ba}) s (zeroPages ba n k s) := by
  induction n generalizing k s with
  | zero => exact refl _ s
  | succ n ih =>
    have h1 :=
      writePhysPage_touch s (s.ni.geo.ba2addr ba + k * s.ni.geo.writesize) (some fun _ => 0)
    have h1 := h1.mono (s.ni.geo.pageBytes_subset (s.ni.geo.page_div ba (by omega)))
    exact h1.transBlocks (ih (by rw [h1.geo]; omega))

theorem markPhysBadBlock_touch (s : Sys) (ba : Nat) :
    Touch (s.ni.geo.bytes {ba}) s (markPhysBadBlock s ba) := by
  unfold markPhysBadBlock
  split
  · exact refl _ s
  split
  · exact flash fun _ hi => if_neg hi
  · exact (cachePage s _).trans (zeroPages_touch (s := s.cachePage fun _ => 0) (zero_add _).le)

theorem checkPages_touch : Touch ∅ s (checkPages ba n k s).2 := by
  induction n generalizing k s with
  | zero => exact refl _ s
  | succ n ih =>
    simp only [checkPages]
    rcases hread : readPhysPage s (s.ni.geo.ba2addr ba + k * s.ni.geo.writesize) with ⟨r, s1⟩
    have h1 := (readPhysPage_spec hread).1
    split
    · exact h1.trans (cachePage _ _)
    · exact (h1.trans (cachePage _ _)).trans ih

theorem eraseBlockAndCheck_touch (s : Sys) (ba : Nat) :
    Touch (s.ni.geo.bytes {ba}) s (eraseBlockAndCheck s ba).2 := by
  have h1 := erasePhysBlock_touch s ba
  unfold eraseBlockAndCheck
  split
  · rename_i heq
    rw [heq] at h1
    exact h1
  · rename_i heq
    rw [heq] at h1
    split
    · exact h1.trans (checkPages_touch.mono (Set.empty_subset _))
    · exact h1

theorem retireBlock_frame (hgood : s.ni.blockState ba = .good) :
    Frame {ba} s (retireBlock s ba) := by
  have h1 := markPhysBadBlock_touch s ba
  exact (Frame.of_touch h1).trans (Frame.setBad _ rfl (by rw [h1.blockState]; exact hgood))

end Calls

end MtkBoot.Nmbm
