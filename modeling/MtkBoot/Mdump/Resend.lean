import MtkBoot.Mdump.Complete

/-! One call of `send_mdump_mem_range` or `send_mdump_device_range`.  Of a device only whole words
are sent, so a rest of less than a word is never sent and the loop goes on with empty packets. -/

namespace MtkBoot.Mdump

open MtkBoot.Lib List

variable {ss : Session} {s s' : State} {r : MdumpRange} {stop pos fuel : Nat} {l : List (Nat × Nat)}

/-- The address and the size of each packet; `none` if the loop has not ended after `fuel`
rounds. -/
def sendMdumpRange (r : MdumpRange) (stop fuel pos : Nat) : Option (List (Nat × Nat)) :=
  if pos < stop then
    match fuel with
    | 0 => none
    | fuel + 1 =>
      (sendMdumpRange r stop fuel (pos + chksz r (stop - pos))).map
        ((pos, chksz r (stop - pos)) :: ·)
  else some []

/-- The packets of a call are those that the sender of a run sends; `regs` are the registers of a
device when the packet of an address is sent. -/
theorem chunks_of_sendMdumpRange (h : sendMdumpRange r stop fuel pos = some l) (regs : Nat → Mem)
    (hr : ss.ranges[s.sender.index]? = some r) (hphase : s.sender.phase = .sending pos stop) :
    (l.map (Event.chunk ∘ regs ∘ Prod.fst) ++ [Event.chunksDone]).foldlM (step ss) s = some { s with
      sender.phase := .ending
      sent := (l.map fun c => Packet.data (sendMdumpPacket ss s.sender.index c.1
        (chunkBytes ss r (regs c.1) c.1 c.2))).reverse ++ s.sent } := by
  fun_induction sendMdumpRange r stop fuel pos generalizing l s with
  | case1 => cases h
  | case2 pos hpos fuel ih =>
    obtain ⟨l, hl, rfl⟩ := Option.map_eq_some_iff.mp h
    rw [map_cons, cons_append, foldlM_cons]
    simp only [step, Function.comp_apply, hphase, hr, if_pos hpos, Option.bind_eq_bind,
      Option.bind_some]
    refine (ih hl ?_ ?_).trans ?_
    · exact hr
    · rfl
    · simp
  | case3 fuel pos hpos =>
    cases h
    simp [step, hphase, hpos]

/-- The bytes of the packets, by their addresses. -/
def addresses (l : List (Nat × Nat)) : List Nat := l.flatMap fun c => List.range' c.1 c.2

theorem chksz_eq {left : Nat} (h : r.isDevice → left % 4 = 0) : chksz r left = min 1424 left := by
  unfold chksz dataMax
  split
  · rename_i hdev
    have := h hdev
    omega
  · rfl

theorem sendMdumpRange_ends (hword : r.isDevice → (stop - pos) % 4 = 0)
    (hfuel : stop - pos ≤ fuel) : ∃ l, sendMdumpRange r stop fuel pos = some l := by
  fun_induction sendMdumpRange r stop fuel pos with
  | case1 pos hpos => omega
  | case2 pos hpos fuel ih =>
    have hn := chksz_eq hword
    obtain ⟨l, hl⟩ := ih (fun hdev => by have := hword hdev; omega) (by omega)
    exact ⟨_, congrArg (Option.map _) hl⟩
  | case3 => exact ⟨[], rfl⟩

/-- Every round but the last sends a full packet. -/
theorem sendMdumpRange_cover (hword : r.isDevice → (stop - pos) % 4 = 0)
    (h : sendMdumpRange r stop fuel pos = some l) :
    l.length ≤ (stop - pos + 1423) / 1424 ∧ addresses l = List.range' pos (stop - pos) := by
  fun_induction sendMdumpRange r stop fuel pos generalizing l with
  | case1 => cases h
  | case2 pos hpos fuel ih =>
    obtain ⟨l, hl, rfl⟩ := Option.map_eq_some_iff.mp h
    have hn := chksz_eq hword
    obtain ⟨hlen, haddr⟩ := ih (fun hdev => by have := hword hdev; omega) hl
    refine ⟨by rw [length_cons]; omega, ?_⟩
    rw [addresses, flatMap_cons, ← addresses, haddr, range'_append_1]
    congr 1
    omega
  | case3 fuel pos hpos =>
    cases h
    simp [addresses, Nat.sub_eq_zero_of_le (not_lt.mp hpos)]

/-- What is left of a device never becomes a multiple of a word. -/
theorem sendMdumpRange_stuck (hdev : r.isDevice) (hword : (stop - pos) % 4 ≠ 0) :
    sendMdumpRange r stop fuel pos = none := by
  fun_induction sendMdumpRange r stop fuel pos with
  | case1 => rfl
  | case2 pos hpos fuel ih =>
    have hn : chksz r (stop - pos) = min dataMax (stop - pos) / 4 * 4 := if_pos hdev
    rw [ih (by omega), Option.map_none]
  | case3 => omega

/-- Sending from one address to another ends, with as many packets as the length needs, exactly if
what is sent of a device is whole words. -/
theorem resend_ends_iff (r : MdumpRange) (addr stop : Nat) :
    (∃ fuel l, sendMdumpRange r stop fuel addr = some l ∧
      l.length ≤ (stop - addr) / (dataMax / 4 * 4) + 1 ∧
      addresses l = List.range' addr (stop - addr)) ↔ (r.isDevice → (stop - addr) % 4 = 0) := by
  constructor
  · rintro ⟨fuel, l, hl, -⟩ hdev
    by_contra hword
    rw [sendMdumpRange_stuck hdev hword] at hl
    cases hl
  · intro hword
    obtain ⟨l, hl⟩ := sendMdumpRange_ends hword le_rfl
    obtain ⟨hlen, haddr⟩ := sendMdumpRange_cover hword hl
    refine ⟨_, l, hl, ?_, haddr⟩
    rw [show dataMax / 4 * 4 = 1424 from rfl]
    omega

/-- Four registers, the second of which must not be read. -/
def fourRegisters : Session :=
  { twoWords with
    ranges := [⟨0x10, 0x20, false, true, [(0x14, 0x18)]⟩],
    count_le := by decide, stop_le := by decide }

def rexmitOf (addr stop : Nat) : Reply :=
  let body := words [0x5052444d, 0, 1, 7, rangeRexmit, 0, 0, 0, addr, 0, stop, 0]
  ⟨0xc0a80102, splice body 4 (leBytes 4 (crc32Comp 0 body))⟩

/-- A request for half a word is accepted and never answered in full. -/
theorem half_word_never_ends : ∃ r ∈ fourRegisters.ranges[0]?,
    onReply fourRegisters 0 r (rexmitOf 0x10 0x12) true = ⟨0, .sending 0x10 0x12⟩ ∧
      ∀ fuel, sendMdumpRange r 0x12 fuel 0x10 = none :=
  ⟨_, rfl, by decide +kernel, fun _ => sendMdumpRange_stuck rfl (by decide)⟩

/-! ### The registers that are read -/

/-- The words that `send_mdump_device_packet` reads. -/
def packetReads (r : MdumpRange) (pos n : Nat) : List Nat :=
  ((List.range (n / 4)).map fun k => pos + 4 * k).filter fun a => !r.excluded a

/-- The words read in the first `fuel` rounds of `send_mdump_device_range`. -/
def deviceReads (r : MdumpRange) (stop : Nat) : Nat → Nat → List Nat
  | 0, _ => []
  | fuel + 1, pos =>
    if pos < stop then
      packetReads r pos (chksz r (stop - pos)) ++
        deviceReads r stop fuel (pos + chksz r (stop - pos))
    else []

/-- No byte of the word is excluded. -/
def Spared (r : MdumpRange) (a : Nat) : Prop :=
  ∀ e ∈ r.excludes, ∀ x < a + 4, a ≤ x → ¬(e.1 ≤ x ∧ x < e.2)

instance (r : MdumpRange) (a : Nat) : Decidable (Spared r a) :=
  inferInstanceAs (Decidable (∀ e ∈ r.excludes, _))

/-- An exclude starts or ends within the word. -/
def Straddled (r : MdumpRange) (a : Nat) : Prop :=
  ∃ e ∈ r.excludes, e.1 < e.2 ∧ (a < e.1 ∧ e.1 < a + 4 ∨ a < e.2 ∧ e.2 < a + 4)

theorem mem_packetReads {n a : Nat} :
    a ∈ packetReads r pos n ↔ (∃ k < n / 4, pos + 4 * k = a) ∧ r.excluded a = false := by
  simp [packetReads]

theorem deviceReads_of_mem (hdev : r.isDevice) {a : Nat} (h : a ∈ deviceReads r stop fuel pos) :
    (∃ k, pos + 4 * k = a) ∧ a + 4 ≤ stop ∧ r.excluded a = false := by
  fun_induction deviceReads r stop fuel pos with
  | case1 => cases h
  | case2 fuel pos hpos ih =>
    have hn : chksz r (stop - pos) = min dataMax (stop - pos) / 4 * 4 := if_pos hdev
    rcases mem_append.mp h with h | h
    · obtain ⟨⟨k, hk, rfl⟩, hread⟩ := mem_packetReads.mp h
      exact ⟨⟨k, rfl⟩, by omega, hread⟩
    · obtain ⟨⟨k, rfl⟩, hread⟩ := ih h
      exact ⟨⟨min dataMax (stop - pos) / 4 + k, by omega⟩, hread⟩
  | case3 => cases h

theorem mem_deviceReads (hdev : r.isDevice) (hfuel : stop - pos ≤ fuel)
    {k : Nat} (hk : pos + 4 * k + 4 ≤ stop) (hread : r.excluded (pos + 4 * k) = false) :
    pos + 4 * k ∈ deviceReads r stop fuel pos := by
  fun_induction deviceReads r stop fuel pos generalizing k with
  | case1 => omega
  | case2 fuel pos hpos ih =>
    have hn : chksz r (stop - pos) = min dataMax (stop - pos) / 4 * 4 := if_pos hdev
    have hmax : dataMax = 1426 := rfl
    by_cases hlt : k < chksz r (stop - pos) / 4
    · exact mem_append_left _ (mem_packetReads.mpr ⟨⟨k, hlt, rfl⟩, hread⟩)
    · have hk' : pos + 4 * k = pos + chksz r (stop - pos) + 4 * (k - chksz r (stop - pos) / 4) := by
        omega
      rw [hk'] at hk hread ⊢
      exact mem_append_right _ (ih (by omega) hk hread)
  | case3 => omega

theorem straddled_of_not_spared {a : Nat} (hread : r.excluded a = false) (h : ¬Spared r a) :
    Straddled r a := by
  simp only [Spared, not_forall, not_not] at h
  obtain ⟨e, he, x, hx, hax, hin⟩ := h
  have hout : ¬(e.1 ≤ a ∧ a + 4 ≤ e.2) := fun hin => any_eq_false.mp hread e he (decide_eq_true hin)
  exact ⟨e, he, by omega⟩

theorem Straddled.not_spared {a : Nat} (h : Straddled r a) : ¬Spared r a := by
  obtain ⟨e, he, hlt, hstart | hend⟩ := h
  · exact fun hs => hs e he e.1 (by omega) (by omega) (by omega)
  · exact fun hs => hs e he (e.2 - 1) (by omega) (by omega) (by omega)

/-- Whatever is asked for again, no read of a device touches an excluded byte, exactly if every word
that is asked for and that the edge of an exclude cuts lies in another exclude; and every read lies
in the range. -/
theorem reads_spared_iff (ss : Session) (hdev : r.isDevice) (requests : List (Nat × Nat))
    (haccepted : ∀ c ∈ requests, ¬(c.1 < r.paddr ∨ r.last ss < c.2 ∨ c.2 < c.1)) :
    (∀ c ∈ (r.paddr, r.last ss) :: requests, ∀ fuel, ∀ a ∈ deviceReads r c.2 fuel c.1,
      Spared r a ∧ r.paddr ≤ a ∧ a + 4 ≤ r.last ss) ↔
    ∀ c ∈ (r.paddr, r.last ss) :: requests, ∀ k, c.1 + 4 * k + 4 ≤ c.2 → Straddled r (c.1 + 4 * k) →
      r.excluded (c.1 + 4 * k) := by
  constructor
  · intro h c hc k hk hcut
    by_contra hread
    have hmem := mem_deviceReads hdev le_rfl hk (Bool.eq_false_of_not_eq_true hread)
    exact hcut.not_spared (h c hc _ _ hmem).1
  · intro h c hc fuel a ha
    obtain ⟨⟨k, rfl⟩, hstop, hread⟩ := deviceReads_of_mem hdev ha
    refine ⟨?_, ?_⟩
    · by_contra hs
      have hexcluded := h c hc k hstop (straddled_of_not_spared hread hs)
      rw [hread] at hexcluded
      cases hexcluded
    · rcases mem_cons.mp hc with rfl | hc
      · exact ⟨Nat.le_add_right _ _, hstop⟩
      · have := haccepted c hc
        omega

theorem reads_spared_first_word : ∃ r ∈ fourRegisters.ranges[0]?,
    ∀ fuel, ∀ a ∈ deviceReads r 0x14 fuel 0x10, Spared r a ∧ 0x10 ≤ a ∧ a + 4 ≤ 0x20 := by
  refine ⟨_, rfl,
    (reads_spared_iff fourRegisters rfl [(0x10, 0x14)] (by decide)).mpr ?_ (0x10, 0x14) (by simp)⟩
  rintro c hc k - ⟨e, he, hcut⟩
  have hc : c.1 = 0x10 := by
    rcases mem_cons.mp hc with rfl | hc
    · rfl
    · rw [mem_singleton.mp hc]
  rw [mem_singleton.mp he] at hcut
  omega

/-- A request for the word at `0x12` is accepted, and half of what is read must not be. -/
theorem cut_word_is_read : ∃ r ∈ fourRegisters.ranges[0]?, r.isDevice ∧
    onReply fourRegisters 0 r (rexmitOf 0x12 0x16) true = ⟨0, .sending 0x12 0x16⟩ ∧
      ∃ fuel, ∃ a ∈ deviceReads r 0x16 fuel 0x12, ¬Spared r a :=
  ⟨_, rfl, rfl, by decide +kernel, 1, 0x12, by decide, by decide⟩

end MtkBoot.Mdump
