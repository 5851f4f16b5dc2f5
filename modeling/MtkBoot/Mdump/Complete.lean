import MtkBoot.Mdump.Wire

/-! When the sender leaves a range.  `send_mdump_ranges` does not look at the index of an
acknowledgement: one for an earlier range ends the current one. -/

namespace MtkBoot.Mdump

open MtkBoot.Lib List Option

variable {i : Nat} {store : Store} {ss : Session} {s s' : State}

structure Holds (ss : Session) (store : Store) (i : Nat) : Prop where
  complete : Complete ss store i
  mem : ∀ r ∈ ss.ranges[i]?, r.isDevice = false → ∀ a b, store i a = some b → b = ss.mem a

/-- Where the checksum is right, the data are those of the memory. -/
def Packet.FromMem (ss : Session) : Packet → Prop
  | data p => ChecksumOk p → ∀ r ∈ ss.ranges[le32 p 16]?, r.isDevice = false →
    ∀ j b, (p.drop 32)[j]? = some b → b = ss.mem ((headerOf p).1 + j)
  | rangeEnd _ => True

theorem Packet.apply_isSome (m : Packet) {a : Nat} (h : (store i a).isSome) :
    (m.apply store i a).isSome := by
  cases m with
  | data p =>
    simp only [Packet.apply]
    split
    · rw [getElem?_eq_getElem (by omega)]
      rfl
    · exact h
  | rangeEnd index => exact h

theorem Complete.apply (h : Complete ss store i) (m : Packet) : Complete ss (m.apply store) i :=
  fun r hr a ha hlo => m.apply_isSome (h r hr a ha hlo)

theorem Packet.FromMem.apply {m : Packet} (hm : m.FromMem ss)
    (h : ∀ r ∈ ss.ranges[i]?, r.isDevice = false → ∀ a b, store i a = some b → b = ss.mem a) :
    ∀ r ∈ ss.ranges[i]?, r.isDevice = false → ∀ a b, m.apply store i a = some b → b = ss.mem a := by
  intro r hr hdev a b hb
  cases m with
  | data p =>
    simp only [Packet.apply] at hb
    split at hb
    · rename_i hin
      obtain ⟨hok, rfl, hlo, -⟩ := hin
      have := hm hok r hr hdev (a - (headerOf p).1) b hb
      rwa [Nat.add_sub_cancel' hlo] at this
    · exact h r hr hdev a b hb
  | rangeEnd index => exact h r hr hdev a b hb

theorem chunk_fromMem {r : MdumpRange} (hr : ss.ranges[i]? = some r) (regs : Mem) {pos : Nat}
    (hpos : pos < 2 ^ 64) (left : Nat) :
    (Packet.data (sendMdumpPacket ss i pos (chunkBytes ss r regs pos (chksz r left)))).FromMem
    ss := by
  intro hok r' hr' hdev j b hb
  have hi : i < 2 ^ 32 := (List.getElem?_eq_some_iff.mp hr).1.trans_le ss.count_le
  have hlen : (chunkBytes ss r regs pos (chksz r left)).length < 2 ^ 32 := by
    simp only [chunkBytes, length_map, length_range, chksz, dataMax]
    split <;> omega
  obtain ⟨sum, hsum⟩ := hok.intact
  rw [hsum] at hr' hb ⊢
  rw [index_withSum sum hi] at hr'
  obtain rfl : r = r' := Option.some.inj (hr.symm.trans hr')
  rw [headerOf_withSum sum hpos hlen]
  change (chunkBytes ss r regs pos (chksz r left))[j]? = some b at hb
  simp only [chunkBytes, hdev, Bool.false_eq_true, if_false, List.getElem?_map,
    Option.map_eq_some_iff] at hb
  obtain ⟨k, hk, rfl⟩ := hb
  obtain ⟨-, rfl⟩ := List.getElem?_eq_some_iff.mp hk
  rw [getElem_range]

/-- An acknowledgement that the sender accepts names the range that is being sent. -/
def Matching (ss : Session) (s : State) : Event → Prop
  | .deliver p _ => checkMdumpResponseHeader ss p = true → fromReceiver ss p = true →
    p.type = rangeAck → p.index = s.sender.index
  | _ => True

instance (ss : Session) (s : State) : ∀ e, Decidable (Matching ss s e)
  | .deliver p _ => inferInstanceAs (Decidable (checkMdumpResponseHeader ss p = true →
      fromReceiver ss p = true → p.type = rangeAck → p.index = s.sender.index))
  | .chunk _ | .chunksDone | .sendRangeEnd | .timeout | .receive _ | .reply _ =>
    inferInstanceAs (Decidable True)

abbrev MatchingRun (ss : Session) : State → Prop :=
  Reachable (fun s => s = start ss) fun s s' => ∃ e, Matching ss s e ∧ step ss s e = some s'

structure Inv (ss : Session) (s : State) : Prop where
  sending : ∀ pos stop, s.sender.phase = .sending pos stop → stop ≤ 2 ^ 64
  sent : ∀ m ∈ s.sent, m.FromMem ss
  stored : ∀ i, ∀ r ∈ ss.ranges[i]?, r.isDevice = false → ∀ a b, s.store i a = some b → b = ss.mem a
  acked : ∀ p ∈ s.replies, p.type = rangeAck → Complete ss s.store p.index
  left : ∀ i < s.sender.index, Complete ss s.store i

theorem enterRange_index (ss : Session) (i : Nat) : (enterRange ss i).index = i := by
  unfold enterRange
  split <;> rfl

theorem enterRange_sending {pos stop : Nat} (h : (enterRange ss i).phase = .sending pos stop) :
    stop ≤ 2 ^ 64 := by
  unfold enterRange at h
  split at h
  · cases h
  · rename_i r hr
    cases h
    have hstop := ss.stop_le r (mem_of_getElem? hr)
    have hdram := ss.dram_le
    simp only [MdumpRange.last]
    split_ifs <;> omega

theorem onReply_index (ss : Session) (i : Nat) (r : MdumpRange) (p : Reply) (unmapped : Bool) :
    (onReply ss i r p unmapped).index = i ∨ (onReply ss i r p unmapped).index = i + 1 ∧
    checkMdumpResponseHeader ss p ∧ fromReceiver ss p ∧ p.type = rangeAck := by
  unfold onReply
  split
  · exact .inl rfl
  rename_i hcheck
  split
  · exact .inl rfl
  rename_i hfrom
  split
  · rename_i hack
    refine .inr ⟨?_, Bool.eq_true_of_not_eq_false hcheck, Bool.eq_true_of_not_eq_false hfrom, hack⟩
    split
    · rfl
    · exact enterRange_index ss (i + 1)
  · split
    · split <;> exact .inl rfl
    · exact .inl rfl

theorem Inv.start (ss : Session) : Inv ss (start ss) :=
  ⟨fun _ _ => enterRange_sending, by simp [Mdump.start], by simp [Mdump.start],
    by simp [Mdump.start], by simp [Mdump.start, enterRange_index]⟩

theorem Inv.step {e : Event} (h : Inv ss s) (hmatch : Matching ss s e)
    (hstep : Mdump.step ss s e = some s') : Inv ss s' := by
  cases e with
  | chunk regs =>
    simp only [Mdump.step] at hstep
    split at hstep
    · rename_i pos stop r hphase hr
      have hstop := h.sending pos stop hphase
      split at hstep
      · cases hstep
        refine ⟨fun _ _ heq => ?_, forall_mem_cons.mpr ⟨chunk_fromMem hr regs (by omega) _, h.sent⟩,
          h.stored, h.acked, h.left⟩
        cases heq
        exact hstop
      · cases hstep
    · cases hstep
  | chunksDone =>
    simp only [Mdump.step] at hstep
    split at hstep
    · split at hstep
      · cases hstep
      · cases hstep
        exact ⟨by simp, h.sent, h.stored, h.acked, h.left⟩
    · cases hstep
  | sendRangeEnd =>
    simp only [Mdump.step] at hstep
    split at hstep
    · cases hstep
      exact ⟨by simp, forall_mem_cons.mpr ⟨trivial, h.sent⟩, h.stored, h.acked, h.left⟩
    · cases hstep
  | timeout =>
    simp only [Mdump.step] at hstep
    split at hstep
    · cases hstep
      exact ⟨by simp, h.sent, h.stored, h.acked, h.left⟩
    · cases hstep
  | deliver p unmapped =>
    simp only [Mdump.step] at hstep
    split at hstep
    · rename_i r hphase hr
      split at hstep
      · rename_i hp
        cases hstep
        refine ⟨fun _ _ hsend => ?_, h.sent, h.stored, h.acked, fun i hi => ?_⟩
        · unfold onReply at hsend
          split_ifs at hsend
          · exact enterRange_sending hsend
          · cases hsend
            exact (leNat_field_lt _ _ 8).le
        rcases onReply_index ss s.sender.index r p unmapped with heq | ⟨heq, hcheck, hfrom, hack⟩
        · exact h.left i (heq ▸ hi)
        · -- the range that was left is the one the receiver has acknowledged
          have hi := heq ▸ hi
          rcases Nat.lt_succ_iff_lt_or_eq.mp hi with hlt | rfl
          · exact h.left i hlt
          · exact hmatch hcheck hfrom hack ▸ h.acked p hp hack
      · cases hstep
    · cases hstep
  | receive m =>
    simp only [Mdump.step] at hstep
    split at hstep
    · rename_i hm
      cases hstep
      exact ⟨h.sending, h.sent, fun i => (h.sent m hm).apply (h.stored i),
        fun p hp hack => (h.acked p hp hack).apply m, fun i hi => (h.left i hi).apply m⟩
    · cases hstep
  | reply p =>
    simp only [Mdump.step] at hstep
    obtain ⟨hcontract, hstep⟩ := of_guard hstep nofun
    cases hstep
    refine ⟨h.sending, h.sent, h.stored, forall_mem_cons.mpr ⟨fun hack => ?_, h.acked⟩, h.left⟩
    exact not_not.mp fun hnot => hcontract ⟨hack, hnot⟩

/-- In every run in which no acknowledgement is taken for another range, the receiver holds every
range that the sender has left. -/
theorem left_ranges_held (h : MatchingRun ss s) : ∀ i < s.sender.index, Holds ss s.store i := by
  have hinv : Inv ss s := by
    apply Reachable.invariant h
    · rintro _ rfl
      exact Inv.start ss
    · rintro s s' hs ⟨e, hmatch, hstep⟩
      exact hs.step hmatch hstep
  exact fun i hi => ⟨hinv.left i hi, hinv.stored i⟩

/-! ### A dump of two words -/

def twoWords : Session where
  ranges := [⟨0x10, 0x14, false, false, []⟩, ⟨0x20, 0x24, false, false, []⟩]
  dramStart := 0x40000000
  dramEnd := 0xc0000000
  dramSize := 0x20000000
  mem := fun a => UInt8.ofNat a
  negoVer := 1
  assocId := 7
  dipaddr := 0xc0a80102
  count_le := by decide
  stop_le := by decide
  dram_le := by decide

def ackOf (i : Nat) : Reply :=
  let body := words [0x5052444d, 0, 1, 7, rangeAck, 0, i, 0, 0, 0, 0, 0]
  ⟨0xc0a80102, splice body 4 (leBytes 4 (crc32Comp 0 body))⟩

def runEvents (ss : Session) (ok : State → Event → Bool) : List Event → State → Option State
  | [], s => some s
  | e :: es, s => if ok s e then (step ss s e).bind (runEvents ss ok es) else none

theorem matchingRun_of_runEvents (es : List Event) : ∀ s, MatchingRun ss s →
    runEvents ss (fun s e => decide (Matching ss s e)) es s = some s' → MatchingRun ss s' := by
  induction es with
  | nil =>
    rintro s hs heq
    exact some.inj heq ▸ hs
  | cons e es ih =>
    intro s hs heq
    simp only [runEvents, decide_eq_true_eq] at heq
    split at heq
    · rename_i hmatch
      obtain ⟨t, hstep, ht⟩ := bind_eq_some_iff.mp heq
      exact ih t (.step hs ⟨e, hmatch, hstep⟩) ht
    · cases heq

def firstWord : List Event :=
  [.chunk fun _ => 0, .chunksDone, .sendRangeEnd,
    .receive (.data (sendMdumpPacket twoWords 0 0x10 [0x10, 0x11, 0x12, 0x13])), .reply (ackOf 0),
    .deliver (ackOf 0) true]

/-- The second word is sent and lost, and the acknowledgement of the first comes once more. -/
def lateAck : List Event := [.chunk fun _ => 0, .chunksDone, .sendRangeEnd, .deliver (ackOf 0) true]

theorem left_ranges_held_first_word :
    ∃ s, runEvents twoWords (fun s e => decide (Matching twoWords s e)) firstWord
        (start twoWords) = some s ∧ s.sender.index = 1 ∧ Holds twoWords s.store 0 := by
  have hrun : ((runEvents twoWords (fun s e => decide (Matching twoWords s e)) firstWord
      (start twoWords)).any fun s => s.sender.index == 1) := by decide +kernel
  obtain ⟨s, hs, hindex⟩ := (any_eq_true _ _).mp hrun
  have hindex : s.sender.index = 1 := beq_iff_eq.mp hindex
  exact ⟨s, hs, hindex,
    left_ranges_held (matchingRun_of_runEvents firstWord _ (.init rfl) hs) 0 (by omega)⟩

/-- The sender has left the second range, and the receiver has nothing of it. -/
theorem late_ack_ends_range :
    ∃ s, runEvents twoWords (fun _ _ => true) (firstWord ++ lateAck) (start twoWords) = some s ∧
      1 < s.sender.index ∧ ¬Holds twoWords s.store 1 := by
  have hrun : ((runEvents twoWords (fun _ _ => true) (firstWord ++ lateAck)
      (start twoWords)).any fun s => decide (1 < s.sender.index ∧
        ¬Complete twoWords s.store 1)) := by decide +kernel
  obtain ⟨s, hs, hleft⟩ := (any_eq_true _ _).mp hrun
  obtain ⟨hindex, hlacks⟩ := of_decide_eq_true hleft
  exact ⟨s, hs, hindex, fun h => hlacks h.complete⟩

end MtkBoot.Mdump
