import MtkBoot.Mdump.Resend

/-! The packets of `send_mdump_mem_range`.  Only the last one can be of odd length and lose a
byte. -/

namespace MtkBoot.Mdump

open MtkBoot.Lib List

variable {r : MdumpRange} {stop pos fuel : Nat} {l : List (Nat × Nat)}

def sendMdumpMemPacket (ss : Session) (index : Nat) (c : Nat × Nat) : Bytes :=
  sendMdumpPacket ss index c.1 (bytesAt ss.mem c.1 c.2)

theorem chunk_of_mem (ss : Session) (hmem : r.isDevice = false) (index : Nat)
    (regs : Mem) (c : Nat × Nat) : sendMdumpPacket ss index c.1 (chunkBytes ss r regs c.1 c.2) =
    sendMdumpMemPacket ss index c := by
  simp [sendMdumpMemPacket, chunkBytes, bytesAt, hmem]

structure Carries (ss : Session) (addr len : Nat) (packets : List Bytes) : Prop where
  cover : addresses (packets.map headerOf) = List.range' addr len
  data : ∀ p ∈ packets, p.drop 32 = bytesAt ss.mem (headerOf p).1 (headerOf p).2
  checksum : ∀ p ∈ packets, ChecksumOk p

/-- The last packet of a call that sends `len` bytes of memory. -/
def lastPacket (addr len : Nat) : Nat × Nat :=
  let n := (len - 1) % 1424 + 1
  (addr + (len - n), n)

/-- Only the last packet of memory can be of odd length. -/
theorem sendMdumpRange_odd (hmem : r.isDevice = false)
    (h : sendMdumpRange r stop fuel pos = some l) : (∀ c ∈ l, c.1 < stop ∧
      c.2 ≤ 1424 ∧ (c.2 % 2 = 1 → (stop - pos) % 2 = 1 ∧ c = lastPacket pos (stop - pos))) ∧
      ((stop - pos) % 2 = 1 → lastPacket pos (stop - pos) ∈ l) := by
  fun_induction sendMdumpRange r stop fuel pos generalizing l with
  | case1 => cases h
  | case2 pos hpos fuel ih =>
    obtain ⟨l, hl, rfl⟩ := Option.map_eq_some_iff.mp h
    have hn : chksz r (stop - pos) = min 1424 (stop - pos) := chksz_eq (by simp [hmem])
    obtain ⟨hrest, hlast⟩ := ih hl
    have hnext (hodd : (stop - (pos + chksz r (stop - pos))) % 2 = 1) :
        lastPacket (pos + chksz r (stop - pos)) (stop - (pos + chksz r (stop - pos))) =
        lastPacket pos (stop - pos) :=
      Prod.ext (by simp only [lastPacket]; omega) (by simp only [lastPacket]; omega)
    have hthis (hle : stop - pos ≤ 1424) :
        (pos, chksz r (stop - pos)) = lastPacket pos (stop - pos) :=
      Prod.ext (by simp only [lastPacket]; omega) (by simp only [lastPacket]; omega)
    constructor
    · refine forall_mem_cons.mpr ⟨⟨hpos, by omega, fun hodd => ⟨by omega, hthis (by omega)⟩⟩,
        fun c hc => ?_⟩
      obtain ⟨hstop, hsize, hcase⟩ := hrest c hc
      refine ⟨hstop, hsize, fun hodd => ?_⟩
      obtain ⟨hleft, heq⟩ := hcase hodd
      exact ⟨by omega, heq.trans (hnext hleft)⟩
    · intro hodd
      by_cases hle : stop - pos ≤ 1424
      · exact hthis hle ▸ mem_cons_self
      · exact mem_cons_of_mem _ (hnext (by omega) ▸ hlast (by omega))
  | case3 fuel pos hpos =>
    cases h
    simp only [not_mem_nil, false_imp_iff, implies_true, true_and]
    omega

/-- The byte of a packet of odd length that is cleared. -/
def clearedByte (ss : Session) (index : Nat) (c : Nat × Nat) : UInt8 :=
  clearedIn ss index c.1 (bytesAt ss.mem c.1 c.2)

/-- One call carries the memory exactly if its length is even or the byte that is cleared is
zero. -/
theorem packets_carry_iff (ss : Session) (hmem : r.isDevice = false) (index addr len : Nat)
    (hlen : addr + len ≤ 2 ^ 64) :
    (∃ fuel l, sendMdumpRange r (addr + len) fuel addr = some l ∧
      Carries ss addr len (l.map (sendMdumpMemPacket ss index))) ↔
    (len % 2 = 1 → clearedByte ss index (lastPacket addr len) = 0) := by
  have hleft : addr + len - addr = len := Nat.add_sub_cancel_left ..
  constructor
  · rintro ⟨fuel, l, hl, hcarries⟩ hodd
    have hin := (sendMdumpRange_odd hmem hl).2 (by rwa [hleft])
    rw [hleft] at hin
    have hlast : (lastPacket addr len).2 % 2 = 1 := by
      simp only [lastPacket]
      omega
    exact checksumOk_iff.mp (hcarries.checksum _ (mem_map_of_mem hin)) (by simpa using hlast)
  · intro hzero
    obtain ⟨l, hl⟩ : ∃ l, sendMdumpRange r (addr + len) (addr + len - addr) addr = some l :=
      sendMdumpRange_ends (by simp [hmem]) le_rfl
    have hpackets := (sendMdumpRange_odd hmem hl).1
    have hok (c) (hc : c ∈ l) : ChecksumOk (sendMdumpMemPacket ss index c) := by
      refine checksumOk_iff.mpr fun hodd => ?_
      obtain ⟨hlen, rfl⟩ := (hpackets c hc).2.2 (by simpa using hodd)
      rw [hleft] at hlen ⊢
      exact hzero hlen
    have hheader (c) (hc : c ∈ l) : headerOf (sendMdumpMemPacket ss index c) = c := by
      have := hpackets c hc
      obtain ⟨sum, hsum⟩ := (hok c hc).intact
      rw [sendMdumpMemPacket, hsum, headerOf_withSum sum (by omega) (by simp; omega),
        length_bytesAt]
    refine ⟨_, l, hl, ?_, forall_mem_map.mpr fun c hc => ?_, forall_mem_map.mpr fun c hc => ?_⟩
    · rw [map_map, show l.map (headerOf ∘ _) = l from (map_congr_left hheader).trans l.map_id,
        ← hleft]
      exact (sendMdumpRange_cover (by simp [hmem]) hl).2
    · obtain ⟨sum, hsum⟩ := (hok c hc).intact
      rw [hheader c hc, sendMdumpMemPacket, hsum]
      rfl
    · exact hok c hc

theorem packets_carry_word :
    ∃ fuel l, sendMdumpRange ⟨0x10, 0x14, false, false, []⟩ (0x10 + 4) fuel 0x10 = some l ∧
    Carries twoWords 0x10 4 (l.map (sendMdumpMemPacket twoWords 0)) :=
  (packets_carry_iff twoWords rfl 0 0x10 4 (by decide)).mpr (by decide)

/-- The second of 21 bytes is sent as zero. -/
theorem odd_packet_loses_byte :
    sendMdumpRange ⟨0x10, 0x25, false, false, []⟩ 0x25 1 0x10 = some [(0x10, 21)] ∧
    (sendMdumpMemPacket twoWords 0 (0x10, 21)).drop 32 ≠ bytesAt twoWords.mem 0x10 21 ∧
      ¬Carries twoWords 0x10 21 [sendMdumpMemPacket twoWords 0 (0x10, 21)] :=
  ⟨rfl, by decide +kernel, fun h => absurd (h.data _ mem_cons_self) (by decide +kernel)⟩

end MtkBoot.Mdump
