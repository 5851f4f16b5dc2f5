import MtkBoot.Tftp.Server

/-! A download from an honest server, whose packets may be lost, delayed and duplicated. -/

namespace MtkBoot.Tftp

open Lib List Msg Nat Server

variable {b c : Nat} {ms : List Msg} {o payload : Bytes} {t : State}

variable {cfg : Config} {srv : Server} {s : State} {k : Nat}

/-! ## A block -/

/-- The file is short enough for the product of block number and block size, and for its length. -/
structure Short (srv : Server) : Prop where
  product : ∀ b ≤ srv.blocks, b % sequenceSize * srv.blockSize < 2 ^ 31
  length : srv.file.length < 2 ^ 32

/-- The first `n` bytes of the file are in memory, and their number is noted. -/
structure Stored (cfg : Config) (srv : Server) (n : Nat) (s : State) : Prop where
  bytes : ∀ a < n, srv.file[a]? = some (s.mem (cfg.loadAddr + a))
  size : s.bootFileSize = n

structure Waiting (srv : Server) (s : State) : Prop where
  running : s.status = .running
  phase : (s.phase = .sendRrq ∧ s.blockSize = 512) ∨ (s.phase = .oack ∧ s.blockSize = srv.blockSize)
  port : s.phase ≠ .sendRrq → srv.port = s.remotePort
  cur : s.curBlock = 0
  size : s.bootFileSize = 0

structure Receiving (cfg : Config) (srv : Server) (k : Nat) (s : State) : Prop where
  running : s.status = .running
  pos : 0 < k
  more : k < srv.blocks
  phase : s.phase = .data ∨ (s.phase = .oack ∧ k % sequenceSize ≠ 0)
  port : srv.port = s.remotePort
  cur : s.curBlock = k % sequenceSize
  prev : s.prevBlock = k % sequenceSize
  wrap : s.blockWrap = k / sequenceSize
  offset : s.blockWrapOffset = k / sequenceSize * sequenceSize * srv.blockSize
  blockSize : s.blockSize = srv.blockSize
  stored : Stored cfg srv (k * srv.blockSize) s

/-- Block `k + 1` has arrived after `k` blocks. -/
structure Ready (cfg : Config) (srv : Server) (k : Nat) (s : State) : Prop where
  running : s.status = .running
  more : k < srv.blocks
  phase : s.phase = .data
  port : srv.port = s.remotePort
  cur : s.curBlock = (k + 1) % sequenceSize
  prev : s.prevBlock = k % sequenceSize
  wrap : s.blockWrap = k / sequenceSize
  offset : s.blockWrapOffset = k / sequenceSize * sequenceSize * srv.blockSize
  blockSize : s.blockSize = srv.blockSize
  stored : Stored cfg srv (k * srv.blockSize) s

/-- What a transfer that has ended without a restart has left. -/
def Finished (cfg : Config) (srv : Server) (s : State) : Prop :=
  s.status = .success ∧ Stored cfg srv srv.file.length s

theorem intMul_eq {a : Nat} (h : a * b < 2 ^ 31) : intMul a b = a * b := by
  unfold intMul
  rw [← Int.natCast_mul]
  generalize a * b = p at h ⊢
  have hmod : Int.bmod (p : Int) (2 ^ 32) = p := Int.bmod_eq_of_le (by omega) (by omega)
  rw [hmod]
  omega

theorem block_offset {n w : Nat} (hn : n ≤ 65464) (hshort : k * n < 2 ^ 32)
    (hprod : (k + 1) % sequenceSize * n < 2 ^ 31) (hc : c = (k + 1) % sequenceSize)
    (hw : w = (k + 1) / sequenceSize * sequenceSize * n) :
    u64 (u64 (intMul c n + w) + (2 ^ 64 - n)) = k * n := by
  have hsum :
      (k + 1) % sequenceSize * n + (k + 1) / sequenceSize * sequenceSize * n = k * n + n := by
    rw [← add_mul, mul_comm ((k + 1) / sequenceSize), mod_add_div, add_mul, one_mul]
  have hin : u64 (k * n + n) = k * n + n := u64_of_lt (by omega)
  rw [hc, hw, intMul_eq hprod, hsum, hin, u64]
  omega

def Server.upTo (srv : Server) (k : Nat) : Nat := min srv.file.length (k * srv.blockSize)

theorem Server.upTo_succ (hpos : 0 < srv.blockSize) (hk : k < srv.blocks) :
    k * srv.blockSize + (srv.block (k + 1)).length = srv.upTo (k + 1) := by
  have := (lt_blocks hpos).mp hk
  rw [length_block, upTo, add_mul]
  omega

theorem tftpSend_data (hphase : s.phase = .data) :
    tftpSend s = { s with sent := s.sent ++ [.ack (u16 s.curBlock)] } := by
  rw [tftpSend, hphase]

section Accept

variable (hsess : Session cfg srv) (hshort : Short srv)
include hsess hshort

omit hshort in
theorem stored_bytes (hk : k < srv.blocks) (h : Stored cfg srv (k * srv.blockSize) s) :
    ∀ a < srv.upTo (k + 1), srv.file[a]? = some (putBytes s.mem
        (u64 (cfg.loadAddr + k * srv.blockSize)) (srv.block (k + 1)) (cfg.loadAddr + a)) := by
  intro a ha
  have hup := Server.upTo_succ hsess.pos hk
  have hroom := hsess.room
  have hend : srv.upTo (k + 1) ≤ srv.file.length := min_le_left _ _
  have haddr : u64 (cfg.loadAddr + k * srv.blockSize) = cfg.loadAddr + k * srv.blockSize ∨
      (srv.block (k + 1)).length = 0 := by
    by_cases hlt : cfg.loadAddr + k * srv.blockSize < 2 ^ 64
    · exact .inl (u64_of_lt hlt)
    · exact .inr (by omega)
  rcases haddr with haddr | hempty
  · rw [haddr]
    by_cases hin : a < k * srv.blockSize
    · rw [putBytes_outside (.inl (by omega))]
      exact h.bytes a hin
    obtain ⟨i, rfl⟩ := Nat.exists_eq_add_of_le (not_lt.mp hin)
    have hi : i < (srv.block (k + 1)).length := by omega
    have hbs : i < srv.blockSize := by
      rw [Server.length_block] at hi
      omega
    rw [← Server.block_getElem? hbs, ← add_assoc]
    exact putBytes_inside hi
  · rw [length_eq_zero_iff.mp hempty]
    exact h.bytes a (by omega)

theorem storeBlock_eq (hk : k < srv.blocks) (h : Stored cfg srv (k * srv.blockSize) s)
    (hc : c = (k + 1) % sequenceSize)
    (hoff : s.blockWrapOffset = (k + 1) / sequenceSize * sequenceSize * srv.blockSize)
    (hbs : s.blockSize = srv.blockSize) :
    (cfg.lmb ∧ storeBlock cfg s c (srv.block (k + 1)) = none) ∨
      ∃ mem, storeBlock cfg s c (srv.block (k + 1)) =
      some { s with mem := mem, bootFileSize := srv.upTo (k + 1) } ∧
        ∀ a < srv.upTo (k + 1), srv.file[a]? = some (mem (cfg.loadAddr + a)) := by
  have hup := upTo_succ hsess.pos hk
  have hlen := hshort.length
  have hend : srv.upTo (k + 1) ≤ srv.file.length := min_le_left _ _
  have hoffset := block_offset hsess.le (by omega : k * srv.blockSize < 2 ^ 32)
    (hshort.product (k + 1) hk) hc hoff
  have hsize : (if s.bootFileSize < u64 (k * srv.blockSize + (srv.block (k + 1)).length) then
      u32 (u64 (k * srv.blockSize + (srv.block (k + 1)).length)) else s.bootFileSize) = srv.upTo
        (k + 1) := by
    have := h.size
    rw [hup, u64_of_lt (by omega), u32_of_lt (by omega)]
    split_ifs <;> omega
  simp only [storeBlock, hbs, hoffset, hsize]
  split_ifs with hfail
  · exact .inl ⟨hfail.1, rfl⟩
  · exact .inr ⟨_, rfl, stored_bytes hsess hk h⟩

theorem Ready.update (h : Ready cfg srv k s) : ∃ count, updateBlockNumber s = { s with
      blockWrap := (k + 1) / sequenceSize
      blockWrapOffset := (k + 1) / sequenceSize * sequenceSize * srv.blockSize
      timeoutCount := count } := by
  have hle := (lt_blocks hsess.pos).mp h.more
  have hlen := hshort.length
  have hbs := hsess.le
  rw [updateBlockNumber]
  by_cases hwrap : (k + 1) % sequenceSize = 0
  · have hprev : k % sequenceSize ≠ 0 := by
      simp only [sequenceSize] at *
      omega
    have hdiv : (k + 1) / sequenceSize = k / sequenceSize + 1 := by
      simp only [sequenceSize] at *
      omega
    have hsum : k / sequenceSize * sequenceSize * srv.blockSize + srv.blockSize * sequenceSize =
        (k + 1) / sequenceSize * sequenceSize * srv.blockSize := by
      rw [hdiv, mul_comm srv.blockSize, ← add_mul, add_mul _ 1, one_mul]
    have hk : (k + 1) / sequenceSize * sequenceSize = k + 1 := by
      simp only [sequenceSize] at *
      omega
    have hlt : (k + 1) / sequenceSize * sequenceSize * srv.blockSize < 2 ^ 64 := by
      rw [hk, add_mul]
      omega
    rw [if_pos ⟨h.cur.trans hwrap, h.prev.trans_ne hprev⟩, h.wrap, h.offset, h.blockSize, hsum,
      u64_of_lt hlt, hdiv]
    exact ⟨0, rfl⟩
  · have hdiv : (k + 1) / sequenceSize = k / sequenceSize := by
      simp only [sequenceSize] at *
      omega
    rw [if_neg (fun hc => hwrap (h.cur.symm.trans hc.1)), hdiv, ← h.offset, ← h.wrap]
    exact ⟨s.timeoutCount, rfl⟩

theorem Ready.accept (h : Ready cfg srv k s) :
    (cfg.lmb ∧ (acceptBlock cfg s (srv.block (k + 1))).status = .fail) ∨
      (Receiving cfg srv (k + 1) (acceptBlock cfg s (srv.block (k + 1))) ∧
        (acceptBlock cfg s (srv.block (k + 1))).phase = .data) ∨
      (¬ k + 1 < srv.blocks ∧ Finished cfg srv (acceptBlock cfg s (srv.block (k + 1)))) := by
  obtain ⟨count, hupdate⟩ := h.update hsess hshort
  have hne : s.curBlock ≠ s.prevBlock := by
    rw [h.cur, h.prev]
    simp only [sequenceSize]
    omega
  have hstored : Stored cfg srv (k * srv.blockSize) { s with
      blockWrap := (k + 1) / sequenceSize
      blockWrapOffset := (k + 1) / sequenceSize * sequenceSize * srv.blockSize
      timeoutCount := count
      prevBlock := s.curBlock
      timeoutCountMax := cfg.timeoutCountMax } := ⟨h.stored.bytes, h.stored.size⟩
  simp only [acceptBlock, if_neg hne, hupdate]
  rcases storeBlock_eq hsess hshort h.more hstored h.cur rfl h.blockSize with ⟨hlmb, hfail⟩ | ⟨mem,
    hstore, hbytes⟩
  · left
    rw [hfail]
    exact ⟨hlmb, rfl⟩
  right
  rw [hstore]
  have hblocks := lt_blocks (k := k + 1) hsess.pos
  have hlen := srv.length_block (k := k)
  have hpos := hsess.pos
  rw [add_mul] at hblocks
  by_cases hlast : (srv.block (k + 1)).length < srv.blockSize
  · right
    have hall : srv.upTo (k + 1) = srv.file.length := by
      rw [upTo, add_mul]
      omega
    rw [hall] at hbytes ⊢
    simp only [h.blockSize, if_pos hlast]
    rw [tftpSend_data]
    · exact ⟨fun hmore => by have := hblocks.mp hmore; omega, rfl, hbytes, rfl⟩
    · exact h.phase
  · left
    have hall : srv.upTo (k + 1) = (k + 1) * srv.blockSize := by
      rw [upTo, add_mul]
      omega
    have hmore : k + 1 < srv.blocks := hblocks.mpr (by omega)
    rw [hall] at hbytes ⊢
    simp only [h.blockSize, if_neg hlast]
    split_ifs
    · rw [tftpSend_data]
      · exact ⟨⟨h.running, succ_pos k, hmore, .inl h.phase, h.port, h.cur, h.cur, rfl, rfl, rfl,
          hbytes, rfl⟩, h.phase⟩
      · exact h.phase
    · exact ⟨⟨h.running, succ_pos k, hmore, .inl h.phase, h.port, h.cur, h.cur, rfl, rfl, rfl,
        hbytes, rfl⟩, h.phase⟩

end Accept

/-! ## Events -/

def Active (cfg : Config) (srv : Server) (s : State) : Prop :=
  Waiting srv s ∨ ∃ k, Receiving cfg srv k s

/-- What holds while the transfer goes on and when it has ended. -/
def Inv (cfg : Config) (srv : Server) (s : State) : Prop :=
  Active cfg srv s ∨ Finished cfg srv s ∨ s.status = .fail ∨ s.status = .again

theorem Inv.active (h : Inv cfg srv s) (hrun : s.status = .running) : Active cfg srv s := by
  rcases h with h | h | h | h
  · exact h
  · cases hrun.symm.trans h.1
  · cases hrun.symm.trans h
  · cases hrun.symm.trans h

theorem Inv.waiting (h : Waiting srv s) : Inv cfg srv s := .inl (.inl h)

theorem Inv.receiving (h : Receiving cfg srv k s) : Inv cfg srv s := .inl (.inr ⟨k, h⟩)

theorem Inv.failed (h : s.status = .fail) : Inv cfg srv s := .inr (.inr (.inl h))

theorem Inv.restarted (h : s.status = .again) : Inv cfg srv s := .inr (.inr (.inr h))

def expected (s : State) : Nat :=
  if s.phase = .data then s.blockWrap * sequenceSize + s.curBlock + 1 else s.curBlock + 1

/-- No packet is delayed for so long that its number comes round again: a data packet with the
number of the next block is that block, and no OACK arrives when the number of the last block is
0. -/
def Timely (s : State) : Msg → Prop
  | .data b => b % sequenceSize = (s.curBlock + 1) % sequenceSize → b = expected s
  | .oack => s.phase = .data → s.curBlock ≠ 0
  | .timeout => True

theorem tftpSend_cases (s : State) : (∃ sent, tftpSend s = { s with sent := sent }) ∨
    (tftpSend s).status = .fail := by
  rw [tftpSend]
  cases s.phase
  · exact .inl ⟨_, rfl⟩
  · exact .inl ⟨_, rfl⟩
  · exact .inl ⟨_, rfl⟩
  · exact .inr rfl

theorem Active.send (h : Active cfg srv s) : Inv cfg srv (tftpSend s) := by
  rcases tftpSend_cases s with ⟨sent, hsent⟩ | hfail
  · rw [hsent]
    rcases h with h | ⟨k, h⟩
    · exact .waiting { h with }
    · exact .receiving { h with stored := { h.stored with } }
  · exact .failed hfail

theorem Inv.acks (h : Inv cfg srv s) (lastNack nextAck : Nat) :
    Inv cfg srv { s with lastNack := lastNack, nextAck := nextAck } := by
  rcases h with (h | ⟨k, h⟩) | h | h | h
  · exact .waiting { h with }
  · exact .receiving { h with stored := { h.stored with } }
  · exact .inr (.inl ⟨h.1, { h.2 with }⟩)
  · exact .failed h
  · exact .restarted h

theorem Active.unexpected (h : Active cfg srv s) (num : Nat) :
    Inv cfg srv (unexpectedBlock s num) := by
  rw [unexpectedBlock]
  split_ifs
  · exact .inl h
  · exact h.send.acks _ _
  · exact .inl h

theorem Receiving.next (h : Receiving cfg srv k s) (hphase : s.phase = .data) :
    dataPacket cfg s srv.port ((k + 1) % sequenceSize) (srv.block (k + 1)) =
        acceptBlock cfg { s with curBlock := (k + 1) % sequenceSize } (srv.block (k + 1)) ∧
      Ready cfg srv k { s with curBlock := (k + 1) % sequenceSize } := by
  have hnum : u16 (k % sequenceSize + 1) = (k + 1) % sequenceSize := mod_add_mod k sequenceSize 1
  constructor
  · rw [dataPacket, h.cur, hnum, if_neg (fun hne => hne rfl), mod_add_mod]
    simp [hphase]
  · exact { h with phase := hphase, cur := rfl, stored := { h.stored with } }

/-- A block after a duplicate of the OACK: the client takes it for the first one and starts
again. -/
theorem Receiving.restarts (h : Receiving cfg srv k s)
    (hphase : s.phase = .oack) (hk : k % sequenceSize ≠ 0) :
    (dataPacket cfg s srv.port ((k + 1) % sequenceSize) payload).status = .again := by
  have hnum : u16 (k % sequenceSize + 1) = (k + 1) % sequenceSize := mod_add_mod k sequenceSize 1
  have hne : (k + 1) % sequenceSize ≠ 1 := by
    simp only [sequenceSize] at *
    omega
  rw [dataPacket, h.cur, hnum, if_neg (fun hc => hc rfl), mod_add_mod]
  simp [hphase, newTransfer, hne]

theorem Receiving.expected_eq (h : Receiving cfg srv k s) (hphase : s.phase = .data) :
    expected s = k + 1 := by
  rw [expected, if_pos hphase, h.wrap, h.cur]
  simp only [sequenceSize]
  omega

theorem Active.timeout (h : Active cfg srv s) : Inv cfg srv (tftpTimeoutHandler s) := by
  rw [tftpTimeoutHandler]
  split_ifs
  · exact .restarted rfl
  · apply Active.send
    rcases h with h | ⟨k, h⟩
    · exact .inl { h with }
    · exact .inr ⟨k, { h with stored := { h.stored with } }⟩

theorem Active.port (h : Active cfg srv s) (hphase : s.phase ≠ .sendRrq) :
    srv.port = s.remotePort := by
  rcases h with h | ⟨k, h⟩
  · exact h.port hphase
  · exact h.port

def Plays (cfg : Config) (srv : Server) : State → List Msg → Prop
  | _, [] => True
  | s, m :: ms => Arrives srv s m ∧ Timely s m ∧ Plays cfg srv (step cfg s (m.event cfg srv)) ms

section Step

variable (hsess : Session cfg srv) (hshort : Short srv)
include hsess hshort

theorem Ready.inv (h : Ready cfg srv k s) :
    Inv cfg srv (acceptBlock cfg s (srv.block (k + 1))) := by
  rcases h.accept hsess hshort with ⟨-, hfail⟩ | ⟨hrec, -⟩ | ⟨-, hfin⟩
  · exact .failed hfail
  · exact .receiving hrec
  · exact .inr (.inl hfin)

omit hshort in
theorem Waiting.first (h : Waiting srv s) (hwait : srv.oack ≠ none → s.phase ≠ .sendRrq) :
    dataPacket cfg s srv.port 1 (srv.block 1) = acceptBlock cfg (newTransfer { s with
        curBlock := 1
        nextAck := if s.phase = .sendRrq then s.windowsize else s.nextAck
        phase := .data
        remotePort := srv.port }) (srv.block 1) ∧
      Ready cfg srv 0 (newTransfer { s with
        curBlock := 1
        nextAck := if s.phase = .sendRrq then s.windowsize else s.nextAck
        phase := .data
        remotePort := srv.port }) := by
  have hsize : s.blockSize = srv.blockSize := by
    rcases h.phase with ⟨hphase, h512⟩ | ⟨-, hsize⟩
    · rw [h512]
      exact (hsess.plain (by_contra fun hne => hwait hne hphase)).symm
    · exact hsize
  constructor
  · rw [dataPacket, h.cur, if_neg (by decide)]
    rcases h.phase with ⟨hphase, -⟩ | ⟨hphase, -⟩ <;> simp [hphase, sequenceSize, newTransfer]
  · refine ⟨h.running, succ_pos _, rfl, rfl, rfl, rfl, rfl, ?_, hsize, ?_, ?_⟩
    · simp [newTransfer]
    · intro a ha
      simp at ha
    · exact h.size.trans (zero_mul _).symm

theorem Active.data (h : Active cfg srv s) (hwait : srv.oack ≠ none → s.phase ≠ .sendRrq)
    (hnum : b % sequenceSize = (s.curBlock + 1) % sequenceSize → b = expected s) :
    Inv cfg srv (dataPacket cfg s srv.port (b % sequenceSize) (srv.block b)) := by
  by_cases heq : b % sequenceSize = u16 (s.curBlock + 1)
  · have hb := hnum heq
    rcases h with h | ⟨k, h⟩
    · have hone : expected s = 1 := by
        rw [expected, h.cur]
        rcases h.phase with ⟨hp, -⟩ | ⟨hp, -⟩ <;> simp [hp]
      rw [hb, hone]
      obtain ⟨hpkt, hready⟩ := h.first hsess hwait
      exact hpkt ▸ hready.inv hsess hshort
    · rcases h.phase with hphase | ⟨hphase, hk⟩
      · rw [hb, h.expected_eq hphase]
        obtain ⟨hpkt, hready⟩ := h.next hphase
        exact hpkt ▸ hready.inv hsess hshort
      · have hmod : u16 (s.curBlock + 1) = (k + 1) % sequenceSize := by
          rw [h.cur]
          exact mod_add_mod k sequenceSize 1
        rw [heq, hmod]
        exact .restarted (h.restarts hphase hk)
  · rw [dataPacket, if_pos heq]
    exact h.unexpected _

omit hshort in
theorem Active.oack (h : Active cfg srv s) (ho : srv.oack = some o)
    (htime : s.phase = .data → s.curBlock ≠ 0) : Inv cfg srv (oackPacket cfg s srv.port o) := by
  have hsize :
      (oackOptions cfg o ⟨s.blockSize, s.windowsize, false⟩).blockSize = srv.blockSize := by
    apply hsess.oack_blockSize ho
    rcases h with h | ⟨k, h⟩
    · rcases h.phase with ⟨-, h512⟩ | ⟨-, hbs⟩
      · exact .inl h512
      · exact .inr hbs
    · exact .inr h.blockSize
  rw [oackPacket]
  simp only [hsize]
  by_cases hinv : (oackOptions cfg o ⟨s.blockSize, s.windowsize, false⟩).invalid
  · rw [if_pos hinv]
    exact .failed rfl
  rw [if_neg hinv]
  apply Active.send
  rcases h with h | ⟨k, h⟩
  · exact .inl ⟨h.running, .inr ⟨rfl, rfl⟩, fun _ => rfl, h.cur, h.size⟩
  · have hk : k % sequenceSize ≠ 0 := by
      rcases h.phase with hphase | ⟨-, hk⟩
      · rw [← h.cur]
        exact htime hphase
      · exact hk
    exact .inr ⟨k, { h with phase := .inr ⟨rfl, hk⟩, port := rfl, blockSize := rfl,
                            stored := { h.stored with } }⟩

theorem Inv.step {m : Msg} (h : Inv cfg srv s) (harr : Arrives srv s m)
    (htime : Timely s m) : Inv cfg srv (step cfg s (m.event cfg srv)) := by
  unfold Tftp.step
  by_cases hrun : s.status = .running
  · rw [if_pos hrun]
    have hact := h.active hrun
    cases m with
    | data b =>
      show Inv cfg srv (tftpHandler cfg s cfg.ourPort srv.port (srv.dataPkt b))
      rw [handler_data s b hact.port]
      exact hact.data hsess hshort harr.2.2 htime
    | oack =>
      obtain ⟨o, ho⟩ := Option.ne_none_iff_exists'.mp harr
      show Inv cfg srv (tftpHandler cfg s cfg.ourPort srv.port (oackPkt (srv.oack.getD [])))
      rw [ho, handler_oack s _ hact.port]
      exact hact.oack hsess ho htime
    | timeout => exact hact.timeout
  · rw [if_neg hrun]
    exact h

theorem Inv.run (h : Inv cfg srv s) (hplays : Plays cfg srv s ms) :
    Inv cfg srv (run cfg s (ms.map (event cfg srv))) := by
  induction ms generalizing s with
  | nil => exact h
  | cons m ms ih => exact ih (h.step hsess hshort hplays.1 hplays.2.1) hplays.2.2

end Step

/-- A transfer that completes without a restart has stored the file. -/
theorem tftp_stores_file (hsess : Session cfg srv) (hshort : Short srv)
    (hsize : s.bootFileSize = 0) {ms : List Msg} (hplays : Plays cfg srv (tftpStart cfg s) ms)
    (hdone : (run cfg (tftpStart cfg s) (ms.map (event cfg srv))).status = .success) :
    Stored cfg srv srv.file.length (run cfg (tftpStart cfg s) (ms.map (event cfg srv))) := by
  have hstart : Inv cfg srv (tftpStart cfg s) :=
    .waiting ⟨rfl, .inl ⟨rfl, rfl⟩, fun h => absurd rfl h, rfl, hsize⟩
  rcases hstart.run hsess hshort hplays with h | h | h | h
  · rcases h with h | ⟨k, h⟩
    · cases hdone.symm.trans h.running
    · cases hdone.symm.trans h.running
  · exact h.2
  · cases hdone.symm.trans h
  · cases hdone.symm.trans h

/-! ## A late OACK -/

theorem step_data (hact : Active cfg srv s) (b : Nat) (hrun : s.status = .running) :
    step cfg s (event cfg srv (.data b)) =
    dataPacket cfg s srv.port (b % sequenceSize) (srv.block b) := by
  rw [← handler_data s b hact.port]
  exact if_pos hrun

def inOrder (n : Nat) : List Msg := (List.range n).map fun i => .data (i + 1)

def AllArrive (cfg : Config) (srv : Server) : State → List Msg → Prop
  | _, [] => True
  | s, m :: ms => Arrives srv s m ∧ AllArrive cfg srv (step cfg s (m.event cfg srv)) ms

theorem AllArrive.append {ms' : List Msg} : AllArrive cfg srv s (ms ++ ms') ↔
    AllArrive cfg srv s ms ∧ AllArrive cfg srv (run cfg s (ms.map (event cfg srv))) ms' := by
  induction ms generalizing s with
  | nil => simp [AllArrive, run]
  | cons m ms ih =>
    rw [cons_append, AllArrive, AllArrive, ih, and_assoc]
    rfl

section Late

variable (hsess : Session cfg srv) (hshort : Short srv) (hlmb : cfg.lmb = false)
include hsess hshort hlmb

theorem Ready.go_on (h : Ready cfg srv k s) (hmore : k + 1 < srv.blocks) :
    Receiving cfg srv (k + 1) (acceptBlock cfg s (srv.block (k + 1))) ∧
      (acceptBlock cfg s (srv.block (k + 1))).phase = .data := by
  rcases h.accept hsess hshort with ⟨htrue, -⟩ | hrec | ⟨hlast, -⟩
  · rw [hlmb] at htrue
    cases htrue
  · exact hrec
  · exact absurd hmore hlast

/-- The first `n + 1` blocks may arrive in order, and are then received. -/
theorem Waiting.in_order (h : Waiting srv s) (hphase : s.phase = .oack)
    (n : Nat) (hn : n + 1 < srv.blocks) : AllArrive cfg srv s (inOrder (n + 1)) ∧
      Receiving cfg srv (n + 1) (run cfg s ((inOrder (n + 1)).map (event cfg srv))) ∧
      (run cfg s ((inOrder (n + 1)).map (event cfg srv))).phase = .data := by
  induction n with
  | zero =>
    have hwait : s.phase ≠ .sendRrq := by simp [hphase]
    obtain ⟨hpkt, hready⟩ := h.first hsess fun _ => hwait
    have hone : inOrder (0 + 1) = [.data 1] := rfl
    have hrun : run cfg s ((inOrder (0 + 1)).map (event cfg srv)) = step cfg s
      (event cfg srv (.data 1)) := rfl
    rw [hrun, hone, step_data (.inl h) 1 h.running, show 1 % sequenceSize = 1 from rfl, hpkt]
    exact ⟨⟨⟨one_pos, by omega, fun _ => hwait⟩, trivial⟩, hready.go_on hsess hshort hlmb hn⟩
  | succ n ih =>
    have hsplit : inOrder (n + 1 + 1) = inOrder (n + 1) ++ [.data (n + 2)] := by
      simp [inOrder, range_succ]
    have hrun : run cfg s ((inOrder (n + 1 + 1)).map (event cfg srv)) = step cfg
        (run cfg s ((inOrder (n + 1)).map (event cfg srv))) (event cfg srv (.data (n + 2))) := by
      simp [hsplit, run]
    obtain ⟨harrive, hrec, hdata⟩ := ih (by omega)
    obtain ⟨hpkt, hready⟩ := hrec.next hdata
    rw [hrun, hsplit, AllArrive.append, step_data (.inr ⟨_, hrec⟩) _ hrec.running, hpkt]
    exact ⟨⟨harrive, ⟨succ_pos _, by omega, fun _ => by simp [hdata]⟩, trivial⟩,
      hready.go_on hsess hshort hlmb hn⟩

omit hsess hshort in
theorem first_block_at_start (hphase : s.phase = .oack) (hcur : s.curBlock = 0)
    (hbs : s.blockSize ≤ 65464)
    (hlast : payload.length < s.blockSize) (hsize : payload.length ≤ s.bootFileSize) (src : Nat) :
    (dataPacket cfg s src 1 payload).status = .success ∧
      (dataPacket cfg s src 1 payload).bootFileSize = s.bootFileSize ∧
      (dataPacket cfg s src 1 payload).mem = putBytes s.mem (u64 cfg.loadAddr) payload := by
  have hoffset : u64 (u64 (intMul 1 s.blockSize) + (18446744073709551616 - s.blockSize)) = 0 := by
    have := block_offset (k := 0) (n := s.blockSize) (c := 1) (w := 0) hbs (by omega)
      (by simp only [sequenceSize]; omega) rfl (by simp [sequenceSize])
    rwa [zero_mul, add_zero] at this
  have hlen : u64 payload.length = payload.length := u64_of_lt (by omega)
  have hnum : ¬ 1 ≠ u16 (0 + 1) := by decide
  have hmod : (0 + 1) % sequenceSize = 1 := rfl
  simp only [dataPacket, hcur, if_neg hnum, hmod, hphase, newTransfer, acceptBlock,
    updateBlockNumber, storeBlock, hlmb]
  simp [hlast, hoffset, hlen, tftpSend, tftpComplete, not_lt.mpr hsize]

omit hshort hlmb in
theorem Receiving.dup_oack (h : Receiving cfg srv k s) (ho : srv.oack = some o)
    (hvalid : (oackOptions cfg o ⟨s.blockSize, s.windowsize, false⟩).invalid = false)
    (ht : step cfg s (event cfg srv .oack) = t) :
    t.status = .running ∧ t.phase = .oack ∧ t.remotePort = srv.port ∧ t.curBlock = s.curBlock ∧
      t.blockSize = srv.blockSize ∧ t.bootFileSize = s.bootFileSize ∧ t.mem = s.mem := by
  have hsize : (oackOptions cfg o ⟨s.blockSize, s.windowsize, false⟩).blockSize = srv.blockSize :=
    hsess.oack_blockSize ho (.inr h.blockSize)
  have hoack : step cfg s (event cfg srv .oack) = oackPacket cfg s srv.port o := by
    rw [← handler_oack s o fun _ => h.port]
    refine (if_pos h.running).trans ?_
    show tftpHandler cfg s cfg.ourPort srv.port (oackPkt (srv.oack.getD [])) = _
    rw [ho]
    rfl
  rw [← ht, hoack, oackPacket]
  simp [hvalid, tftpSend, hsize, h.running]

omit hshort in
/-- The client takes a duplicate of the OACK for a new transfer.  If the last block had number 0
then the next one has the number of a first block, and is stored at the start. -/
theorem Receiving.late_oack (h : Receiving cfg srv k s)
    (hk : k % sequenceSize = 0) (ho : srv.oack = some o)
    (hvalid : (oackOptions cfg o ⟨s.blockSize, s.windowsize, false⟩).invalid = false)
    (hlast : (srv.block (k + 1)).length < srv.blockSize)
    (ht : step cfg (step cfg s (event cfg srv .oack)) (event cfg srv (.data (k + 1))) = t) :
    t.status = .success ∧ t.bootFileSize = s.bootFileSize ∧
      t.mem = putBytes s.mem (u64 cfg.loadAddr) (srv.block (k + 1)) := by
  have hnum : (k + 1) % sequenceSize = 1 := by
    simp only [sequenceSize] at *
    omega
  generalize hdup : step cfg s (event cfg srv .oack) = d at ht
  obtain ⟨hrun, hphase, hport, hcur, hbs, hfile, hmem⟩ := h.dup_oack hsess ho hvalid hdup
  have hdata : t = dataPacket cfg d srv.port 1 (srv.block (k + 1)) := by
    have hpkt : tftpHandler cfg d cfg.ourPort srv.port (srv.dataPkt (k + 1)) = _ :=
      handler_data d (k + 1) fun _ => hport.symm
    rw [hnum] at hpkt
    exact ht.symm.trans ((if_pos hrun).trans hpkt)
  have hle : (srv.block (k + 1)).length ≤ d.bootFileSize := by
    have := Nat.le_mul_of_pos_left srv.blockSize h.pos
    rw [hfile, h.stored.size]
    omega
  rw [hdata, ← hfile, ← hmem]
  exact first_block_at_start hlmb hphase (hcur.trans (h.cur.trans hk)) (by rw [hbs]; exact hsess.le)
    (by rw [hbs]; exact hlast) hle srv.port

/-- The OACK and `n + 1` blocks in order, then a duplicate of the OACK before the last block. -/
def lateOack (n : Nat) : List Msg := .oack :: (inOrder (n + 1) ++ [.oack, .data (n + 2)])

/-- If the number of the last block is 1 again then it ends up at the start. -/
theorem late_oack_run (ho : srv.oack = some o)
    (hvalid : (oackOptions cfg o ⟨512, 1, false⟩).invalid = false)
    (hwaiting : Waiting srv (step cfg s (event cfg srv .oack)))
    (hphase : (step cfg s (event cfg srv .oack)).phase = .oack)
    (n : Nat) (hn : (n + 1) % sequenceSize = 0)
    (hblocks : srv.blocks = n + 2) (hlast : (srv.block (n + 2)).length < srv.blockSize)
    (ht : run cfg s ((lateOack n).map (event cfg srv)) = t) : AllArrive cfg srv s (lateOack n) ∧
    t.status = .success ∧ t.bootFileSize = (n + 1) * srv.blockSize ∧
      ∃ mem, t.mem = putBytes mem (u64 cfg.loadAddr) (srv.block (n + 2)) := by
  obtain ⟨harrive, hrec, -⟩ := hwaiting.in_order hsess hshort hlmb hphase n (by omega)
  have hvalid' : ∀ opts :
      Options, opts.invalid = false → (oackOptions cfg o opts).invalid = false := by
    obtain ⟨r, hr⟩ := oackOptions_invalid cfg o
    intro opts hopts
    rw [hr] at hvalid ⊢
    rw [hopts]
    exact hvalid
  have hoack : Arrives srv s .oack := by
    show srv.oack ≠ none
    simp [ho]
  have hrun : t = run cfg (step cfg s (event cfg srv .oack))
      ((inOrder (n + 1) ++ [Msg.oack, .data (n + 2)]).map (Msg.event cfg srv)) := ht.symm
  generalize hr :
    run cfg (step cfg s (event cfg srv .oack)) ((inOrder (n + 1)).map (event cfg srv)) = r at hrec
  have hlate : step cfg (step cfg r (event cfg srv .oack)) (event cfg srv (.data (n + 2))) = t := by
    rw [hrun, ← hr, map_append, run, run, foldl_append]
    rfl
  obtain ⟨hstatus, hsize, hmem⟩ := hrec.late_oack hsess hlmb hn ho (hvalid' _ rfl) hlast hlate
  have hphase' := (hrec.dup_oack hsess ho (hvalid' _ rfl) rfl).2.1
  refine ⟨⟨hoack, AllArrive.append.mpr ⟨harrive, ?_⟩⟩, hstatus, hsize.trans hrec.stored.size, _,
    hmem⟩
  rw [hr]
  refine ⟨?_, ⟨succ_pos _, by omega, fun _ => ?_⟩, trivial⟩
  · show srv.oack ≠ none
    simp [ho]
  · simp [hphase']

end Late

def plainConfig : Config := ⟨1468, 5, 10, false, fun _ _ => false, 0x40000000, 1024⟩

def eightBytes (file : Bytes) : Server :=
  ⟨file, 8, some (ascii "blksize" ++ [0] ++ ascii "8" ++ [0]), 50000⟩

def blank : State := ⟨.running, .sendRrq, 0, 0, 0, 0, 0, 512, 1, 0, 0, 0, 0, fun _ => 0, 0, []⟩

theorem eightBytes_session {file : Bytes} (hlen : file.length < 2 ^ 32) :
    Session plainConfig (eightBytes file) := by
  refine ⟨succ_pos 7, le_of_ble_eq_true rfl, (fun h => by cases h), ?_, ?_⟩
  · rintro o ho
    cases ho
    show (oackOptions plainConfig (ascii "blksize" ++ [0] ++ ascii "8" ++ [0])
      ⟨512, 1, false⟩).blockSize = 8
    decide +kernel
  · show 0x40000000 + file.length ≤ 2 ^ 64
    omega

def twoBlocks : Server := eightBytes [1, 2, 3, 4, 5, 6, 7, 8, 9, 10, 11, 12]

theorem tftp_stores_file_two_blocks : (run plainConfig (tftpStart plainConfig blank)
      ([Msg.oack, .data 1, .data 2].map (Msg.event plainConfig twoBlocks))).status = .success ∧
    Stored plainConfig twoBlocks 12 (run plainConfig (tftpStart plainConfig blank)
          ([Msg.oack, .data 1, .data 2].map (Msg.event plainConfig twoBlocks))) := by
  have hdone : (run plainConfig (tftpStart plainConfig blank)
      ([Msg.oack, .data 1, .data 2].map (Msg.event plainConfig twoBlocks))).status = .success := by
    decide +kernel
  refine ⟨hdone,
    tftp_stores_file (eightBytes_session (by decide)) ⟨by decide, by decide⟩ rfl ?_ hdone⟩
  refine ⟨Option.some_ne_none _, (fun h => by cases h), ⟨by decide, by decide, fun _ => ?_⟩,
    fun _ => ?_, ⟨by decide, by decide, fun _ => ?_⟩, fun _ => ?_, trivial⟩ <;> decide +kernel

def longFile : Server := eightBytes (List.replicate 524288 0 ++ List.replicate 4 1)

theorem longFile_length : longFile.file.length = 524292 := by
  rw [longFile, eightBytes, length_append, length_replicate, length_replicate]

theorem longFile_blocks : longFile.blocks = 65537 := by
  rw [blocks, longFile_length]
  rfl

theorem longFile_waiting : Waiting longFile
    (step plainConfig (tftpStart plainConfig blank) (event plainConfig longFile .oack)) ∧
      (step plainConfig (tftpStart plainConfig blank) (event plainConfig longFile .oack)).phase =
      .oack := by
  refine ⟨⟨?_, .inr ⟨?_, ?_⟩, fun _ => ?_, ?_, ?_⟩, ?_⟩ <;> decide +kernel

theorem longFile_session : Session plainConfig longFile :=
  eightBytes_session (by rw [length_append, length_replicate, length_replicate]; decide)

theorem longFile_short : Short longFile := by
  refine ⟨fun b _ => ?_, by rw [longFile_length]; decide⟩
  show b % sequenceSize * 8 < 2 ^ 31
  simp only [sequenceSize]
  omega

theorem longFile_last : longFile.block 65537 = replicate 4 1 := by
  have hdrop : longFile.file.drop ((65537 - 1) * longFile.blockSize) = replicate 4 1 :=
    drop_left' (by rw [length_replicate]; rfl)
  rw [block, hdrop]
  rfl

theorem late_oack_overwrites_start :
    ∃ t, run plainConfig (tftpStart plainConfig blank)
        ((lateOack 65535).map (event plainConfig longFile)) = t ∧
      AllArrive plainConfig longFile (tftpStart plainConfig blank) (lateOack 65535) ∧
      t.status = .success ∧ longFile.file.length = 524292 ∧ t.bootFileSize = 524288 ∧
      longFile.file[0]? = some 0 ∧ t.mem plainConfig.loadAddr = 1 := by
  have hblocks := longFile_blocks
  have hlen : (longFile.block (65535 + 2)).length < longFile.blockSize := by
    rw [longFile_last, length_replicate]
    decide
  have hvalid : (oackOptions plainConfig (ascii "blksize" ++ [0] ++ ascii "8" ++ [0]) ⟨512, 1,
      false⟩).invalid = false := by
    decide +kernel
  generalize ht : run plainConfig (tftpStart plainConfig blank)
    ((lateOack 65535).map (event plainConfig longFile)) = t
  obtain ⟨harrive, hstatus, hsize, mem, hmem⟩ := late_oack_run longFile_session longFile_short rfl
    rfl hvalid longFile_waiting.1 longFile_waiting.2 65535 rfl hblocks hlen ht
  refine ⟨t, rfl, harrive, hstatus, longFile_length, hsize, rfl, ?_⟩
  have hload : u64 plainConfig.loadAddr = plainConfig.loadAddr := rfl
  have hin : (replicate 4 (1 : UInt8))[0]? = some (putBytes mem plainConfig.loadAddr (replicate 4 1)
      (plainConfig.loadAddr + 0)) := putBytes_inside (by decide)
  have hlast := longFile_last
  rw [hmem, hload, hlast]
  exact (Option.some.inj hin).symm

end MtkBoot.Tftp
