import MtkBoot.Tftp.Transfer

/-! The answers to data packets under other block numbers.  The test for an older block takes the
number of a packet for a signed one, so that from `2^15` on every unexpected block counts as
older. -/

namespace MtkBoot.Tftp

open List Sent

/-- A data packet: its block number and its payload. -/
abbrev Data := Nat × List UInt8

section

variable (cfg : Config) (src : Nat)

def receive (s : State) (p : Data) : State :=
  if s.status = .running then dataPacket cfg s src p.1 p.2 else s

def answer (s : State) (p : Data) : List Sent := (receive cfg src s p).sent.drop s.sent.length

def answers : State → List Data → List (List Sent)
  | _, [] => []
  | s, p :: ps => answer cfg src s p :: answers (receive cfg src s p) ps

/-- The number of the next block is not 0, a block of this number can be stored, and a block ahead
of it has a number below `2^15`. -/
def met (s : State) (p : Data) : Bool :=
  s.curBlock + 1 < 2 ^ 16 && if p.1 = s.curBlock + 1 then (storeBlock cfg s p.1 p.2).isSome
    else p.1 ≤ s.curBlock || p.1 < 2 ^ 15

def allMet : State → List Data → Bool
  | _, [] => true
  | s, p :: ps => met cfg s p && allMet (receive cfg src s p) ps

end

def Sent.shift (d : Int) : Sent → Sent
  | .ack block => .ack (block + d).toNat
  | x => x

/-- Two transfers at the same place, with block numbers that differ by `d`. -/
structure Shifted (d : Int) (s t : State) : Prop where
  status : t.status = s.status
  phase : s.phase = .data ∧ t.phase = .data
  prev : s.prevBlock = s.curBlock ∧ t.prevBlock = t.curBlock
  sizes : t.blockSize = s.blockSize ∧ t.windowsize = s.windowsize
  curBlock : (t.curBlock : Int) = s.curBlock + d
  nextAck : (t.nextAck : Int) = (s.nextAck + d) % 2 ^ 16
  lastNack : (t.lastNack : Int) = (s.lastNack + d) % 2 ^ 16
  small : s.curBlock < 2 ^ 16 ∧ t.curBlock < 2 ^ 16 ∧ s.nextAck < 2 ^ 16 ∧ s.lastNack < 2 ^ 16

def ShiftedData (d : Int) (p q : Data) : Prop := (q.1 : Int) = p.1 + d ∧ q.2 = p.2

variable {cfg : Config} (src : Nat) {d : Int} {s t : State} {p q : Data} {ps qs : List Data}

theorem toShort_eq {n : Nat} (h : n < 2 ^ 16) : toShort n = if n < 2 ^ 15 then (n : Int)
    else n - 2 ^ 16 := by
  delta toShort
  have hmod : (n : Int) % (2 ^ 16 : Nat) = n := by omega
  rw [Int.bmod_def, hmod]
  split_ifs <;> omega

theorem met_lt (h : met cfg s p) : s.curBlock + 1 < 2 ^ 16 := by
  rw [met, Bool.and_eq_true] at h
  exact of_decide_eq_true h.1

section Receive

variable (hrun : s.status = .running) (hphase : s.phase = .data) (hmet : met cfg s p = true)
include hrun hphase hmet

theorem receive_unexpected (hne : p.1 ≠ s.curBlock + 1) :
    receive cfg src s p = if s.curBlock < p.1 ∧ s.lastNack ≠ s.curBlock then
      { s with sent := s.sent ++ [.ack s.curBlock], lastNack := s.curBlock,
               nextAck := u16 (s.curBlock + s.windowsize) }
    else s := by
  rw [met, if_neg hne] at hmet
  simp only [Bool.and_eq_true, Bool.or_eq_true, decide_eq_true_eq] at hmet
  obtain ⟨hlt, hcase⟩ := hmet
  have hcur : u16 s.curBlock = s.curBlock := Nat.mod_eq_of_lt (by omega)
  have hold : (u16 (s.curBlock + 1) : Int) - toShort p.1 > 0 ↔ p.1 ≤ s.curBlock := by
    rw [u16, Nat.mod_eq_of_lt hlt, toShort_eq (by omega)]
    split_ifs <;> omega
  rw [receive, if_pos hrun, dataPacket, if_pos (by rwa [u16, Nat.mod_eq_of_lt hlt]),
    unexpectedBlock]
  simp only [hold, tftpSend, hphase, hcur]
  split_ifs <;> first | rfl | omega

theorem receive_next (hprev : s.prevBlock = s.curBlock) (heq : p.1 = s.curBlock + 1) :
    ∃ mem size, receive cfg src s p =
      let s' := { s with curBlock := p.1, prevBlock := p.1, timeoutCountMax := cfg.timeoutCountMax,
                         timeoutCount := 0, mem := mem, bootFileSize := size }
      if p.2.length < s.blockSize then { s' with sent := s.sent ++ [.ack p.1], status := .success }
      else if p.1 = s.nextAck then
        { s' with sent := s.sent ++ [.ack p.1], nextAck := u16 (s.nextAck + s.windowsize) }
      else s' := by
  rw [met, if_pos heq] at hmet
  simp only [Bool.and_eq_true, decide_eq_true_eq] at hmet
  obtain ⟨hlt, hstore⟩ := hmet
  obtain ⟨mem, size, hstored⟩ : ∃ mem size, ∀ c m,
      storeBlock cfg { s with curBlock := c, prevBlock := c, timeoutCountMax := m } p.1 p.2 =
        some { s with curBlock := c, prevBlock := c, timeoutCountMax := m, mem := mem,
                      bootFileSize := size } := by
    obtain ⟨s', hs'⟩ := Option.isSome_iff_exists.mp hstore
    refine ⟨s'.mem, s'.bootFileSize, fun c m => ?_⟩
    rw [storeBlock] at hs' ⊢
    obtain ⟨-, hnone⟩ | ⟨hok, hsome⟩ := ite_eq_iff.mp hs'
    · cases hnone
    · cases hsome
      exact if_neg hok
  have hnum : (s.curBlock + 1) % sequenceSize = p.1 := by
    rw [heq]
    exact Nat.mod_eq_of_lt hlt
  have hack : u16 p.1 = p.1 := Nat.mod_eq_of_lt (by omega)
  refine ⟨mem, size, ?_⟩
  rw [receive, if_pos hrun, dataPacket, if_neg (by rw [u16, Nat.mod_eq_of_lt hlt]; simpa using heq)]
  simp only [hnum, hphase, reduceCtorEq, if_false, or_self, acceptBlock]
  rw [if_neg (by omega), updateBlockNumber, if_neg (by dsimp only; omega)]
  have hst := hstored p.1 cfg.timeoutCountMax
  rw [hphase] at hst
  simp [hst, tftpComplete, tftpSend, hack]

end Receive

theorem Shifted.receive (h : Shifted d s t) (hpq : ShiftedData d p q) (hs : met cfg s p)
    (ht : met cfg t q) : Shifted d (receive cfg src s p) (receive cfg src t q) ∧
      answer cfg src t q = (answer cfg src s p).map (shift d) := by
  obtain ⟨hnum, hload⟩ := hpq
  obtain ⟨hstatus, ⟨hsp, htp⟩, ⟨hsprev, htprev⟩, ⟨hsize, hwindow⟩, hcur, hnext, hnack, hsmall⟩ :=
    id h
  have hp := met_lt hs
  have hq := met_lt ht
  rw [answer, answer]
  by_cases hrun : s.status = .running
  · have hrun' := hstatus.trans hrun
    by_cases hn : p.1 = s.curBlock + 1
    · obtain ⟨_, _, hr⟩ := receive_next src hrun hsp hs hsprev hn
      obtain ⟨_, _, hr'⟩ := receive_next src hrun' htp ht htprev (by omega)
      have hacked : q.1 = t.nextAck ↔ p.1 = s.nextAck := by omega
      have hlast : q.2.length < t.blockSize ↔ p.2.length < s.blockSize := by rw [hload, hsize]
      have hshift : q.1 = (p.1 + d : Int).toNat := by omega
      simp only [hr, hr', hlast, hacked]
      split_ifs
      · refine ⟨{ h with status := rfl, prev := ⟨rfl, rfl⟩, curBlock := hnum, small := ?_ }, ?_⟩
        · simp only; omega
        · simp [shift, hshift]
      · refine ⟨{ h with prev := ⟨rfl, rfl⟩, curBlock := hnum, nextAck := ?_, small := ?_ }, ?_⟩
        · simp only [u16]; omega
        · simp only [u16]; omega
        · simp [shift, hshift]
      · refine ⟨{ h with prev := ⟨rfl, rfl⟩, curBlock := hnum, small := ?_ }, ?_⟩
        · simp only; omega
        · simp
    · rw [receive_unexpected src hrun hsp hs hn, receive_unexpected src hrun' htp ht (by omega)]
      have hcond : t.curBlock < q.1 ∧ t.lastNack ≠ t.curBlock ↔ s.curBlock < p.1 ∧
        s.lastNack ≠ s.curBlock := by omega
      simp only [hcond]
      split_ifs
      · refine ⟨{ h with nextAck := ?_, lastNack := ?_, small := ?_ }, ?_⟩
        · simp only [u16]; omega
        · simp only; omega
        · simp only [u16]; omega
        · simp [shift, ← hcur]
      · exact ⟨h, by simp⟩
  · rw [Tftp.receive, if_neg hrun, Tftp.receive, if_neg (by rwa [hstatus])]
    exact ⟨h, by simp⟩

theorem Shifted.answers (h : Shifted d s t) (hp : Forall₂ (ShiftedData d) ps qs)
    (hs : allMet cfg src s ps) (ht : allMet cfg src t qs) :
    answers cfg src t qs = (answers cfg src s ps).map (map (shift d)) := by
  induction hp generalizing s t with
  | nil => rfl
  | cons hpq _ ih =>
    rw [allMet, Bool.and_eq_true] at hs ht
    obtain ⟨hnext, hanswer⟩ := h.receive src hpq hs.1 ht.1
    rw [Tftp.answers, Tftp.answers, map_cons, hanswer, ih hnext hs.2 ht.2]

/-- Data packets under shifted numbers are answered with shifted numbers, and a block ahead of the
next one with a repeated acknowledgement, unless the last one has been repeated already. -/
theorem answers_shifted (h : Shifted d s t) (hp : Forall₂ (ShiftedData d) ps qs)
    (hs : allMet cfg src s ps = true) (ht : allMet cfg src t qs = true) :
    answers cfg src t qs = (answers cfg src s ps).map (map (shift d)) ∧
      (s.status = .running → s.lastNack ≠ s.curBlock →
        ∀ p, s.curBlock + 1 < p.1 → met cfg s p = true →
          answer cfg src s p = [.ack s.curBlock]) := by
  refine ⟨h.answers src hp hs ht, fun hrun hnack p hahead hmet => ?_⟩
  rw [answer, receive_unexpected src hrun h.phase.1 hmet (by omega), if_pos ⟨by omega, hnack⟩]
  exact drop_left

/-- A transfer with windows of four blocks of a byte each, just after its `n`th block. -/
def atBlock (n : Nat) : State :=
  { blank with
    status := .running, phase := .data, curBlock := n, prevBlock := n, blockSize := 1,
    windowsize := 4,
    nextAck := n + 4, lastNack := n - 1 }

theorem answers_shifted_at : answers plainConfig 69 (atBlock 20) [(22, [0]), (21, [0])] =
    (answers plainConfig 69 (atBlock 10) [(12, [0]), (11, [0])]).map (map (shift 10)) ∧
      answer plainConfig 69 (atBlock 10) (12, [0]) = [.ack 10] := by
  have hshift : Shifted 10 (atBlock 10) (atBlock 20) :=
    ⟨rfl, ⟨rfl, rfl⟩, ⟨rfl, rfl⟩, ⟨rfl, rfl⟩, rfl, rfl, rfl, by decide⟩
  have hdata : Forall₂ (ShiftedData 10) [(12, [0]), (11, [0])] [(22, [0]), (21, [0])] :=
    .cons ⟨rfl, rfl⟩ (.cons ⟨rfl, rfl⟩ .nil)
  have hmet : allMet plainConfig 69 (atBlock 10) [(12, [0]), (11, [0])] := by decide +kernel
  obtain ⟨hanswers, hahead⟩ := answers_shifted 69 hshift hdata hmet (by decide +kernel)
  exact ⟨hanswers, hahead rfl (by decide) (12, [0]) (by decide) (by decide +kernel)⟩

/-- The same block ahead is answered below `2^15` and not above. -/
theorem answers_not_shifted : Shifted 32768 (atBlock 10) (atBlock 32778) ∧
    Forall₂ (ShiftedData 32768) [(12, [0])] [(32780, [0])] ∧
    answers plainConfig 69 (atBlock 10) [(12, [0])] = [[.ack 10]] ∧
    answers plainConfig 69 (atBlock 32778) [(32780, [0])] = [[]] := by
  refine ⟨⟨rfl, ⟨rfl, rfl⟩, ⟨rfl, rfl⟩, ⟨rfl, rfl⟩, rfl, rfl, rfl, by decide⟩,
    .cons ⟨rfl, rfl⟩ .nil, ?_, ?_⟩
  · decide +kernel
  · decide +kernel

end MtkBoot.Tftp
