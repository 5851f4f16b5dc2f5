import MtkBoot.Bsp.Conf
import MtkBoot.Lib.System

/-! Which copy the next boot takes up.  The counter in memory runs ahead of the stored ones when
saves fail, and the choice allows for a wrap from the largest counter to zero only. -/

namespace MtkBoot.Bsp

open MtkBoot.Lib Conf State

variable {i off v : Nat}

/-! ### What an update leaves -/

section Update

variable (c : Conf)

theorem Conf.word_setWord {o : Nat} (h : off + 4 ≤ confSize) (ho : o + 4 ≤ off ∨ off + 4 ≤ o) :
    le32 (c.setWord off v h).bytes o = le32 c.bytes o :=
  le32_splice_outside (by rw [length_leBytes, c.length_eq]; exact h) (by rwa [length_leBytes])

theorem Conf.word_setWord_self (h : off + 4 ≤ confSize) :
    le32 (c.setWord off v h).bytes off = v % 2 ^ 32 :=
  le32_splice_self v (by rw [c.length_eq]; exact h)

theorem Conf.crcOver_setWord_zero {n : Nat} (h : 0 + 4 ≤ confSize) :
    (c.setWord 0 v h).crcOver n = c.crcOver n := by
  unfold crcOver setWord
  rw [field_splice_outside (by rw [length_leBytes, c.length_eq]; exact h)
    (by rw [length_leBytes]; omega)]

theorem updateBspConf_updCnt : (updateBspConf c).updCnt = c.updCnt := by
  unfold updateBspConf updCnt
  rw [word_setWord _ _ (by omega), word_setWord _ _ (by omega), word_setWord _ _ (by omega)]

theorem updateBspConf_len : (updateBspConf c).len = confSize := by
  unfold updateBspConf
  simp only [len]
  rw [word_setWord _ _ (by omega), word_setWord_self]
  rfl

theorem updateBspConf_ver : (updateBspConf c).ver = confVer := by
  unfold updateBspConf ver
  rw [word_setWord _ _ (by omega), word_setWord _ _ (by omega), word_setWord_self]
  rfl

theorem checkBspConf_updateBspConf : checkBspConf (updateBspConf c) = 0 := by
  have hcrc : (updateBspConf c).crcOver ((updateBspConf c).len - 4) = (updateBspConf c).crc := by
    rw [updateBspConf_len]
    unfold updateBspConf crc
    rw [crcOver_setWord_zero, word_setWord_self, Nat.mod_eq_of_lt]
    · congr 1
      simp only [len]
      rw [word_setWord_self]
      rfl
    · exact crc32Comp_lt (by decide) _
  unfold checkBspConf
  rw [if_neg (by rw [updateBspConf_len]; decide), if_neg (by rw [updateBspConf_len]; omega),
    if_neg (not_not.mpr hcrc), if_neg (by rw [updateBspConf_ver]; omega),
    if_neg (by rw [updateBspConf_len]; omega)]

end Update

section Next

variable (s : State)

theorem nextConf_check : checkBspConf s.nextConf = 0 := checkBspConf_updateBspConf _

theorem nextConf_updCnt : s.nextConf.updCnt = u32 (s.ram.curr.updCnt + 1) := by
  unfold nextConf
  rw [updateBspConf_updCnt, updCnt, word_setWord_self, updateBspConf_updCnt]
  exact Nat.mod_eq_of_lt (u32_lt _)

end Next

/-! ### The choice between the copies -/

def State.selected (s : State) : Option (Nat × Conf) := selectCopy (some s.copy1) (some s.copy2)

theorem usable_ok {c : Conf} (h : checkBspConf c = 0) : usable (some c) = some c :=
  Option.filter_some_pos (decide_eq_true h)

theorem usable_rejected {c : Conf} (h : checkBspConf c ≠ 0) : usable (some c) = none :=
  Option.filter_some_neg (by simpa using h)

section Select

variable {s : State}

theorem selected_cases (s : State) :
    s.selected = none ∧ checkBspConf s.copy1 ≠ 0 ∧ checkBspConf s.copy2 ≠ 0 ∨
      ∃ i, (i = 1 ∨ i = 2) ∧ checkBspConf (s.copy i) = 0 ∧ s.selected = some (i, s.copy i) := by
  by_cases h1 : checkBspConf s.copy1 = 0
  · by_cases h2 : checkBspConf s.copy2 = 0
    · right
      have hsel : s.selected = some (1, s.copy1) ∨ s.selected = some (2, s.copy2) := by
        simp only [selected, selectCopy, usable_ok h1, usable_ok h2]
        repeat' split
        all_goals simp
      rcases hsel with hsel | hsel
      · exact ⟨1, .inl rfl, h1, hsel⟩
      · exact ⟨2, .inr rfl, h2, hsel⟩
    · exact .inr ⟨1, .inl rfl, h1, by
        simp only [selected, selectCopy, usable_ok h1, usable_rejected h2, copy, if_true]⟩
  · by_cases h2 : checkBspConf s.copy2 = 0
    · exact .inr ⟨2, .inr rfl, h2, by
        simp only [selected, selectCopy, usable_ok h2, usable_rejected h1]
        rfl⟩
    · exact .inl ⟨by simp [selected, selectCopy, usable_rejected h1, usable_rejected h2], h1, h2⟩

theorem selected_of_rejected (hi : i = 1 ∨ i = 2) (hok : checkBspConf (s.copy i) = 0)
    (hother : checkBspConf (s.copy (3 - i)) ≠ 0) : s.selected = some (i, s.copy i) := by
  rcases hi with rfl | rfl
  · have hother : checkBspConf s.copy2 ≠ 0 := hother
    simp only [selected, selectCopy, usable_ok (show checkBspConf s.copy1 = 0 from hok),
      usable_rejected hother]
    rfl
  · have hother : checkBspConf s.copy1 ≠ 0 := hother
    simp only [selected, selectCopy, usable_ok (show checkBspConf s.copy2 = 0 from hok),
      usable_rejected hother]
    rfl

/-- The counter of a copy has gone on from that of the other one, without a wrap or by a step from
the largest value to zero. -/
def Newer (new old : Nat) : Prop :=
  old < new ∧ ¬(old = 0 ∧ new = uint32Max) ∨ old = uint32Max ∧ new = 0

theorem selected_of_newer (hi : i = 1 ∨ i = 2) (hok : checkBspConf (s.copy i) = 0)
    (hnew : Newer (s.copy i).updCnt (s.copy (3 - i)).updCnt) : s.selected = some (i, s.copy i) := by
  by_cases hother : checkBspConf (s.copy (3 - i)) = 0
  · have hmax : 0 < uint32Max := by decide
    rcases hi with rfl | rfl
    · change checkBspConf s.copy1 = 0 at hok
      change checkBspConf s.copy2 = 0 at hother
      change Newer s.copy1.updCnt s.copy2.updCnt at hnew
      change selectCopy _ _ = some (1, s.copy1)
      unfold Newer at hnew
      simp only [selectCopy, usable_ok hok, usable_ok hother]
      split_ifs <;> first | rfl | (exfalso; omega)
    · change checkBspConf s.copy2 = 0 at hok
      change checkBspConf s.copy1 = 0 at hother
      change Newer s.copy2.updCnt s.copy1.updCnt at hnew
      change selectCopy _ _ = some (2, s.copy2)
      unfold Newer at hnew
      simp only [selectCopy, usable_ok hok, usable_ok hother]
      split_ifs <;> first | rfl | (exfalso; omega)
  · exact selected_of_rejected hi hok hother

end Select

def Init (s : State) : Prop := ∃ copy1 copy2, s = State.boot ⟨copy1, copy2, .zero, none⟩

/-- The next save does not lose its order: no copy is in use, or the counter in memory is still that
of the copy in use, or ahead of it and taken neither past the largest value nor from zero to it. -/
def Counted (s : State) : Prop :=
  s.ram.index = 0 ∨ s.ram.curr.updCnt = (s.copy s.ram.index).updCnt ∨
    (s.copy s.ram.index).updCnt ≤ s.ram.curr.updCnt ∧ s.ram.curr.updCnt ≠ uint32Max ∧
    ¬((s.copy s.ram.index).updCnt = 0 ∧ s.ram.curr.updCnt = uint32Max - 1)

inductive Step (ok : State → Prop) : State → State → Prop
  | boot (s : State) : Step ok s s.boot
  | edit (s : State) (c : Conf) (hcnt : c.updCnt = s.ram.curr.updCnt) : Step ok s (s.edit c)
  | save (s : State) (forced : Bool) (w : Write) (hok : ok s) (hw : w.Honest) :
      Step ok s (s.saveBspConf forced w).2

/-- The copy in use is the one a boot would take up, and it is what was saved last. -/
structure Inv (s : State) : Prop where
  index : s.ram.index = 0 ∨ s.ram.index = 1 ∨ s.ram.index = 2
  unused : s.ram.index = 0 → checkBspConf s.copy1 ≠ 0 ∧ checkBspConf s.copy2 ≠ 0
  inUse : s.ram.index ≠ 0 → checkBspConf (s.copy s.ram.index) = 0 ∧
    s.selected = some (s.ram.index, s.copy s.ram.index)
  last : ∀ i c, s.last = some (i, c) → i ≠ 0 ∧ s.ram.index = i ∧ s.copy i = c ∧ c.len = confSize

section Boot

variable {s : State}

theorem boot_none (h : s.selected = none) : s.boot.ram.index = 0 := by
  unfold boot importBspConf
  rw [selected] at h
  rw [h]
  rfl

theorem boot_some {c : Conf} (h : s.selected = some (i, c)) :
    s.boot.ram.index = i ∧ (c.len = confSize → s.boot.ram.curr = c) := by
  unfold boot importBspConf
  rw [selected] at h
  rw [h]
  refine ⟨rfl, fun hlen => ?_⟩
  simp only
  rw [if_neg (by omega)]

theorem Inv.boot_of (hlast : ∀ i c, s.last = some (i, c) →
    i ≠ 0 ∧ s.selected = some (i, c) ∧ c.len = confSize) : Inv s.boot := by
  rcases selected_cases s with ⟨hnone, h1, h2⟩ | ⟨j, hj, hok, hsel⟩
  · refine ⟨.inl (boot_none hnone), fun _ => ⟨h1, h2⟩, fun h => absurd (boot_none hnone) h, ?_⟩
    intro i c h
    obtain ⟨-, hsel, -⟩ := hlast i c h
    rw [hnone] at hsel
    cases hsel
  · have hidx := (boot_some hsel).1
    constructor
    · rw [hidx]
      exact .inr hj
    · intro h
      omega
    · intro _
      rw [hidx]
      exact ⟨hok, hsel⟩
    · intro i c h
      obtain ⟨hi, hsel', hlen⟩ := hlast i c h
      obtain ⟨rfl, rfl⟩ : j = i ∧ s.copy j = c := by
        rw [hsel] at hsel'
        simpa using hsel'
      exact ⟨hi, hidx, rfl, hlen⟩

end Boot

section Save

variable {s : State}

theorem copy_setCopy_self (hi : i = 1 ∨ i = 2) (c : Conf) : (s.setCopy i c).copy i = c := by
  rcases hi with rfl | rfl <;> rfl

theorem copy_setCopy_other (hi : i = 1 ∨ i = 2) (c : Conf) :
    (s.setCopy i c).copy (3 - i) = s.copy (3 - i) := by
  rcases hi with rfl | rfl <;> rfl

theorem nextIndex_cases (s : State) : s.nextIndex = 1 ∨ s.nextIndex = 2 := by
  unfold nextIndex
  split
  · exact .inr rfl
  · exact .inl rfl

theorem index_eq (hidx : s.ram.index = 1 ∨ s.ram.index = 2) : s.ram.index = 3 - s.nextIndex := by
  unfold nextIndex
  rcases hidx with h | h <;> rw [h] <;> rfl

theorem Counted.newer (h : Counted s) (hne : s.ram.index ≠ 0) :
    Newer s.nextConf.updCnt (s.copy s.ram.index).updCnt := by
  have hlt : s.ram.curr.updCnt < 2 ^ 32 := le32_lt _ _
  rw [nextConf_updCnt]
  unfold Counted at h
  unfold Newer uint32Max u32 at *
  omega

theorem Inv.saved (h : Inv s) (hok : Counted s) :
    (s.setCopy s.nextIndex s.nextConf).selected = some (s.nextIndex, s.nextConf) := by
  have hnext := nextIndex_cases s
  have hself := copy_setCopy_self (s := s) hnext s.nextConf
  have hother := copy_setCopy_other (s := s) hnext s.nextConf
  have hcheck : checkBspConf ((s.setCopy s.nextIndex s.nextConf).copy s.nextIndex) = 0 := by
    rw [hself]
    exact nextConf_check s
  by_cases hzero : s.ram.index = 0
  · have hrej : checkBspConf ((s.setCopy s.nextIndex s.nextConf).copy (3 - s.nextIndex)) ≠ 0 := by
      rw [hother, nextIndex, hzero]
      exact (h.unused hzero).2
    rw [selected_of_rejected hnext hcheck hrej, hself]
  · have hidx := index_eq (h.index.resolve_left hzero)
    have hnew : Newer ((s.setCopy s.nextIndex s.nextConf).copy s.nextIndex).updCnt
        ((s.setCopy s.nextIndex s.nextConf).copy (3 - s.nextIndex)).updCnt := by
      rw [hself, hother, ← hidx]
      exact hok.newer hzero
    rw [selected_of_newer hnext hcheck hnew, hself]

theorem Inv.cut (h : Inv s) {junk : Conf} (hjunk : checkBspConf junk ≠ 0) (curr : Conf) :
    Inv { s.setCopy s.nextIndex junk with ram := { s.ram with curr } } := by
  have hnext := nextIndex_cases s
  have hself := copy_setCopy_self (s := s) hnext junk
  have hother := copy_setCopy_other (s := s) hnext junk
  have hkeep :
      s.ram.index ≠ 0 → (s.setCopy s.nextIndex junk).copy s.ram.index = s.copy s.ram.index := by
    intro hne
    rw [index_eq (h.index.resolve_left hne)]
    exact hother
  constructor
  · exact h.index
  · intro hzero
    have hone : s.nextIndex = 1 := by rw [nextIndex, if_neg (by rw [hzero]; decide)]
    rw [hone]
    exact ⟨hjunk, (h.unused hzero).2⟩
  · intro hne
    have hcheck : checkBspConf ((s.setCopy s.nextIndex junk).copy s.ram.index) = 0 := by
      rw [hkeep hne]
      exact (h.inUse hne).1
    refine ⟨hcheck, selected_of_rejected (h.index.resolve_left hne) hcheck ?_⟩
    have hback : 3 - s.ram.index = s.nextIndex := by
      rw [index_eq (h.index.resolve_left hne)]
      omega
    rw [hback]
    exact fun hc => hjunk ((congrArg checkBspConf hself).symm.trans hc)
  · intro i c hlast
    have hlast : s.last = some (i, c) := by
      rw [← hlast]
      rcases hnext with hn | hn <;> rw [hn] <;> rfl
    obtain ⟨hi, rfl, hc, hlen⟩ := h.last i c hlast
    exact ⟨hi, rfl, (hkeep hi).trans hc, hlen⟩

theorem Inv.save (h : Inv s) (hok : Counted s) (forced : Bool) {w : Write} (hw : w.Honest) :
    Inv (s.saveBspConf forced w).2 := by
  unfold saveBspConf
  split
  · exact ⟨h.index, h.unused, h.inUse, h.last⟩
  cases w with
  | saved =>
    have hnext := nextIndex_cases s
    have hself := copy_setCopy_self (s := s) hnext s.nextConf
    have hsel := h.saved hok
    have hne : s.nextIndex ≠ 0 := by omega
    constructor
    · exact .inr hnext
    · intro hzero
      exact absurd hzero hne
    · intro _
      refine ⟨(congrArg checkBspConf hself).trans (nextConf_check s), hsel.trans ?_⟩
      exact congrArg (fun c => some (s.nextIndex, c)) hself.symm
    · rintro i c ⟨⟩
      exact ⟨hne, rfl, hself, updateBspConf_len _⟩
  | failed ret =>
    have hret : ret ≠ 0 := hw
    have hsame : s.setCopy s.nextIndex (s.copy s.nextIndex) = s := by
      rcases nextIndex_cases s with hn | hn <;> rw [hn] <;> rfl
    simp only [Write.run, if_pos hret, hsame]
    exact ⟨h.index, h.unused, h.inUse, h.last⟩
  | cut junk ret =>
    obtain ⟨hret, hjunk⟩ := hw
    have hram : (s.setCopy s.nextIndex junk).ram = s.ram := by
      rcases nextIndex_cases s with hn | hn <;> rw [hn] <;> rfl
    simp only [Write.run, if_pos hret, hram]
    exact h.cut hjunk s.nextConf

end Save

theorem inv_of_reachable {s : State} (h : Reachable Init (Step Counted) s) : Inv s := by
  refine h.invariant ?_ fun s s' hs hstep => ?_
  · rintro s ⟨copy1, copy2, rfl⟩
    exact .boot_of fun i c hlast => by cases hlast
  cases hstep with
  | boot =>
    refine .boot_of fun i c hlast => ?_
    obtain ⟨hi, hidx, hcopy, hlen⟩ := hs.last i c hlast
    have hsel := (hs.inUse (hidx ▸ hi)).2
    rw [hidx, hcopy] at hsel
    exact ⟨hi, hsel, hlen⟩
  | edit c hcnt => exact ⟨hs.index, hs.unused, hs.inUse, hs.last⟩
  | save forced w hok hw => exact hs.save hok forced hw

/-- If every save finds its counter in order, a boot takes up the copy that the last successful save
has written. -/
theorem boot_selects_lastSaved {s : State} (h : Reachable Init (Step Counted) s) {i : Nat}
    {c : Conf} (hlast : s.last = some (i, c)) : s.boot.ram.index = i ∧ s.boot.ram.curr = c ∧
    s.copy i = c := by
  have hinv := inv_of_reachable h
  obtain ⟨hi, hidx, hcopy, hlen⟩ := hinv.last i c hlast
  have hsel := (hinv.inUse (hidx ▸ hi)).2
  rw [hidx, hcopy] at hsel
  obtain ⟨h1, h2⟩ := boot_some hsel
  exact ⟨h1, h2 hlen, hcopy⟩

def savedTwice : State :=
  ((State.boot ⟨.zero, .zero, .zero, none⟩).saveBspConf true .saved).2.saveBspConf true .saved |>.2

theorem boot_selects_lastSaved_second : savedTwice.boot.ram.index = 2 := by
  have h0 : Reachable Init (Step Counted) (boot ⟨.zero, .zero, .zero, none⟩) := .init ⟨_, _, rfl⟩
  have h1 := h0.step (.save _ true .saved (.inl (by decide +kernel)) trivial)
  have h2 := h1.step (.save _ true .saved (.inr (.inl (by decide +kernel))) trivial)
  have hlast : savedTwice.last = some (2, savedTwice.copy2) := by decide +kernel
  exact (boot_selects_lastSaved h2 hlast).1

def almostWrapped : Conf :=
  updateBspConf (Conf.zero.setWord 12 (uint32Max - 1) (show 15 < confSize by decide))

/-- A save fails, the next one succeeds, and the counter wraps: the boot takes up the old copy. -/
def wrappedAfterFailure : State :=
  ((State.boot ⟨almostWrapped, .zero, .zero, none⟩).saveBspConf true (.failed (-5))).2.saveBspConf
    true .saved |>.2

theorem boot_selects_old_copy : ∃ s i c, Reachable Init (Step fun _ => True) s ∧
    s.last = some (i, c) ∧ s.boot.ram.index ≠ i := by
  have h0 : Reachable Init (Step fun _ => True) (boot ⟨almostWrapped, .zero, .zero, none⟩) :=
    .init ⟨_, _, rfl⟩
  have h1 := h0.step (.save _ true (.failed (-5)) trivial (by simp [Write.Honest]))
  have h2 := h1.step (.save _ true .saved trivial trivial)
  exact ⟨wrappedAfterFailure, 2, wrappedAfterFailure.copy2,
    h2, by decide +kernel, by decide +kernel⟩

end MtkBoot.Bsp
