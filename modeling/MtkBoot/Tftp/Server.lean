import MtkBoot.Tftp.Model

/-! An honest server: the packets that it sends, and what the client reads in them. -/

namespace MtkBoot.Tftp

open Lib List

/-- What a server sends: a file in blocks, and an OACK unless it ignores options. -/
structure Server where
  file : Bytes
  blockSize : Nat
  oack : Option Bytes
  port : Nat

namespace Server

variable (srv : Server)

def blocks : Nat := srv.file.length / srv.blockSize + 1

def block (b : Nat) : Bytes := (srv.file.drop ((b - 1) * srv.blockSize)).take srv.blockSize

def dataPkt (b : Nat) : Bytes := beBytes 2 3 ++ (beBytes 2 (b % sequenceSize) ++ srv.block b)

end Server

def oackPkt (options : Bytes) : Bytes := beBytes 2 6 ++ options

/-- The block size is the one that the OACK names, or 512; the client stores the file in its address
space. -/
structure Session (cfg : Config) (srv : Server) : Prop where
  pos : 0 < srv.blockSize
  le : srv.blockSize ≤ 65464
  plain : srv.oack = none → srv.blockSize = 512
  negotiated :
    ∀ o, srv.oack = some o → (oackOptions cfg o ⟨512, 1, false⟩).blockSize = srv.blockSize
  room : cfg.loadAddr + srv.file.length ≤ 2 ^ 64

/-- What reaches the client: a block, the OACK, or nothing for too long. -/
inductive Msg
  | data (b : Nat)
  | oack
  | timeout

def Msg.event (cfg : Config) (srv : Server) : Msg → Event
  | .data b => .packet cfg.ourPort srv.port (srv.dataPkt b)
  | .oack => .packet cfg.ourPort srv.port (oackPkt (srv.oack.getD []))
  | .timeout => .timeout

/-- What the server can have sent when the client's state is `s`, maybe long ago and more than once.
A server that has sent an OACK waits for its acknowledgement before it sends data. -/
def Arrives (srv : Server) (s : State) : Msg → Prop
  | .data b => 0 < b ∧ b ≤ srv.blocks ∧ (srv.oack ≠ none → s.phase ≠ .sendRrq)
  | .oack => srv.oack ≠ none
  | .timeout => True

variable {cfg : Config} {srv : Server} {k b : Nat}

/-! ## The server's blocks -/

namespace Server

theorem lt_blocks (hpos : 0 < srv.blockSize) :
    k < srv.blocks ↔ k * srv.blockSize ≤ srv.file.length := by
  rw [blocks, Nat.lt_add_one_iff, Nat.le_div_iff_mul_le hpos]

theorem length_block :
    (srv.block (k + 1)).length = min srv.blockSize (srv.file.length - k * srv.blockSize) := by
  rw [block, Nat.add_sub_cancel, length_take, length_drop]

theorem block_getElem? (hi : b < srv.blockSize) :
    (srv.block (k + 1))[b]? = srv.file[k * srv.blockSize + b]? := by
  rw [block, Nat.add_sub_cancel, getElem?_take, if_pos hi, getElem?_drop]

end Server

theorem be16_append {n : Nat} (hn : n < sequenceSize) (l : Bytes) :
    be16 (beBytes 2 n ++ l) = n ∧ (beBytes 2 n ++ l).drop 2 = l := by
  have hlen := length_beBytes 2 n
  constructor
  · rw [be16, take_append_of_le_length (by omega), take_of_length_le (by omega), beNat_beBytes hn]
  · rw [drop_append_of_le_length (by omega), drop_of_length_le (by omega), nil_append]

theorem handler_data (s : State) (b : Nat) (hport : s.phase ≠ .sendRrq → srv.port = s.remotePort) :
    tftpHandler cfg s cfg.ourPort srv.port (srv.dataPkt b) =
      dataPacket cfg s srv.port (b % sequenceSize) (srv.block b) := by
  obtain ⟨h1, h2⟩ :=
    be16_append (by decide : 3 < sequenceSize) (beBytes 2 (b % sequenceSize) ++ srv.block b)
  obtain ⟨h3, h4⟩ := be16_append (Nat.mod_lt b (by decide : 0 < sequenceSize)) (srv.block b)
  rw [tftpHandler, Server.dataPkt, if_neg (fun h => h rfl), if_neg (fun h => h.2 (hport h.1)),
    if_neg (by rw [length_append, length_beBytes]; omega), h1, h2]
  rw [if_neg (by decide), if_pos rfl, if_neg (by rw [length_append, length_beBytes]; omega), h3, h4]

theorem handler_oack (s : State)
    (o : Bytes) (hport : s.phase ≠ .sendRrq → srv.port = s.remotePort) :
    tftpHandler cfg s cfg.ourPort srv.port (oackPkt o) = oackPacket cfg s srv.port o := by
  obtain ⟨h1, h2⟩ := be16_append (by decide : 6 < sequenceSize) o
  rw [tftpHandler, oackPkt, if_neg (fun h => h rfl), if_neg (fun h => h.2 (hport h.1)),
    if_neg (by rw [length_append, length_beBytes]; omega), h1, h2]
  exact if_pos rfl

/-! ## Options -/

theorem oackOptions_blockSize (cfg : Config) (pkt : Bytes) :
    ∃ r : Option Nat, ∀ o, (oackOptions cfg pkt o).blockSize = r.getD o.blockSize := by
  have hat : ∀ i, ∃ r : Option Nat, ∀ o, (oackAt cfg pkt o i).blockSize = r.getD o.blockSize := by
    intro i
    by_cases h : isOption (pkt.drop i) "blksize" = true
    · refine ⟨some (u16 (strtoul 10 (pkt.drop (i + 8))).1), fun o => ?_⟩
      simp only [oackAt, if_pos h]
      split_ifs <;> rfl
    · refine ⟨none, fun o => ?_⟩
      simp only [oackAt, if_neg h]
      split_ifs <;> rfl
  have hfold : ∀ l : List Nat, ∃ r :
      Option Nat, ∀ o, (l.foldl (oackAt cfg pkt) o).blockSize = r.getD o.blockSize := by
    intro l
    induction l with
    | nil => exact ⟨none, fun _ => rfl⟩
    | cons i l ih =>
      obtain ⟨r, hr⟩ := ih
      obtain ⟨r', hr'⟩ := hat i
      refine ⟨r.or r', fun o => ?_⟩
      rw [foldl_cons, hr, hr']
      cases r <;> rfl
  exact hfold _

theorem oackOptions_invalid (cfg : Config) (pkt : Bytes) :
    ∃ r : Bool, ∀ o, (oackOptions cfg pkt o).invalid = (o.invalid || r) := by
  have hat : ∀ i, ∃ r : Bool, ∀ o, (oackAt cfg pkt o i).invalid = (o.invalid || r) := by
    intro i
    refine ⟨(oackAt cfg pkt ⟨0, 0, false⟩ i).invalid, fun o => ?_⟩
    simp only [oackAt]
    split_ifs <;> simp [Bool.or_assoc]
  have hfold : ∀ l : List Nat, ∃ r :
      Bool, ∀ o, (l.foldl (oackAt cfg pkt) o).invalid = (o.invalid || r) := by
    intro l
    induction l with
    | nil => exact ⟨false, fun o => (Bool.or_false _).symm⟩
    | cons i l ih =>
      obtain ⟨r, hr⟩ := ih
      obtain ⟨r', hr'⟩ := hat i
      refine ⟨r' || r, fun o => ?_⟩
      rw [foldl_cons, hr, hr', Bool.or_assoc]
  exact hfold _

theorem Session.oack_blockSize (h : Session cfg srv) {o : Bytes} (ho : srv.oack = some o)
    {opts : Options} (hsize : opts.blockSize = 512 ∨ opts.blockSize = srv.blockSize) :
    (oackOptions cfg o opts).blockSize = srv.blockSize := by
  obtain ⟨r, hr⟩ := oackOptions_blockSize cfg o
  have hfirst := h.negotiated o ho
  rw [hr] at hfirst ⊢
  cases r with
  | none =>
    rcases hsize with hsize | hsize
    · rw [hsize]
      exact hfirst
    · exact hsize
  | some v => exact hfirst

end MtkBoot.Tftp
