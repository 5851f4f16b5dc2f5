import MtkBoot.Uart.Download
import Mathlib.Data.List.TakeDrop

/-! The host and BL2 stay in step over any pattern of corrupted packets, and BL2 ends with the FIP
in its memory. -/

namespace MtkBoot.Uart

open Lib List Option Host Nat StateT

variable {fip rcvd sent : Bytes} {idx n p pktLen : Nat} {s : State}

/-! ### The two checksums are one -/

theorem beNat_pair (d0 d1 : UInt8) : beNat [d0, d1] = d0.toNat <<< 8 ||| d1.toNat := by
  have hor := shiftLeft_add_eq_or_of_lt (show d1.toNat < 2 ^ 8 from d1.toNat_lt) d0.toNat
  rw [← hor, shiftLeft_eq]
  simp only [beNat, leNat, reverse_cons, reverse_nil, nil_append, cons_append]
  omega

theorem csumLoop_spec (fip : Bytes) (fuel p csum : Nat) (hp : p ≤ fip.length)
    (hfuel : fip.length - p ≤ fuel) :
    chksumLoop csum (fip.drop p) = if fip.length ≠ (csumLoop fip fuel p csum).1 then
        u32 ((csumLoop fip fuel p csum).2 + (fip.getLastD 0).toNat <<< 8)
          else (csumLoop fip fuel p csum).2 := by
  induction fuel generalizing p csum with
  | zero =>
    obtain rfl : p = fip.length := by omega
    simp [csumLoop, chksumLoop]
  | succ fuel ih =>
    rw [csumLoop]
    by_cases hmore : fip.length - p > 1
    · rw [if_pos hmore, ← ih _ _ (by omega) (by omega)]
      have hdrop : fip.drop p = fip[p] :: fip[p + 1] :: fip.drop (p + 2) := by
        rw [drop_eq_getElem_cons (show p < fip.length by omega),
          drop_eq_getElem_cons (show p + 1 < fip.length by omega)]
      rw [field, hdrop, chksumLoop, take_succ_cons, take_succ_cons, take_zero, beNat_pair]
    · rw [if_neg hmore]
      by_cases hend : fip.length = p
      · simp [← hend, chksumLoop]
      have hlast : p = fip.length - 1 := by omega
      have hne : fip ≠ [] := by
        rintro rfl
        exact hend (by simp only [length_nil] at hp ⊢; omega)
      have hdrop : fip.drop p = [fip.getLastD 0] := by
        rw [hlast, drop_length_sub_one hne, getLastD_eq_getLast?,
          getLast?_eq_some_getLast hne, getD_some]
      rw [hdrop, if_pos hend, chksumLoop]

theorem fipPacketChecksum_eq (fip : Bytes) : fipPacketChecksum fip = calcChksum fip := by
  have hspec := csumLoop_spec fip fip.length 0 0 (zero_le _) (by omega)
  rw [drop_zero] at hspec
  rw [calcChksum, hspec]
  rfl

theorem calcChksum_lt (data : Bytes) : calcChksum data < 256 ^ 2 := mod_lt _ (by decide)

/-! ### One packet -/

def header (idx : Nat) (fip : Bytes) : Bytes :=
  beBytes 4 idx ++ beBytes 2 fip.length ++ beBytes 2 (calcChksum fip)

theorem receiveBytes_run (data rest out : Bytes) (mem : Mem) (ptr : Nat) :
    run (receiveBytes data.length ptr) ⟨data ++ rest, out, mem⟩ =
    some ((), ⟨rest, out, putBytes mem ptr data⟩) := by
  induction data generalizing mem ptr with
  | nil => rfl
  | cons b data ih =>
    rw [length_cons, receiveBytes, run_bind, cons_append, getc_run]
    exact ih (Function.update mem ptr b) (ptr + 1)

theorem receivePacket_run (hidx : idx < 2 ^ 32) (hlen : sent.length < 2 ^ 16)
    (hrcvd : rcvd.length = sent.length) (addr : Nat) (mem : Mem) :
    run (receivePacket addr idx) ⟨header idx sent ++ rcvd, [], mem⟩ =
      some (if calcChksum rcvd = calcChksum sent then sent.length else 0,
        ⟨[], header idx sent ++ beBytes 4 idx ++ beBytes 2 (calcChksum rcvd),
          putBytes mem addr rcvd⟩) := by
  have hbytes := receiveBytes_run rcvd []
  rw [append_nil, hrcvd] at hbytes
  have hload := bytesAt_putBytes mem addr rcvd
  rw [hrcvd] at hload
  simp only [receivePacket, header, append_assoc, run_bind, Option.bind_eq_bind,
    receiveNat_run (show idx < 256 ^ 4 from hidx),
    receiveNat_run (show sent.length < 256 ^ 2 from hlen), receiveNat_run (calcChksum_lt sent),
    send_run, Option.bind_some, hbytes, not_true_eq_false, ne_eq, if_false, run_get,
    Option.pure_def, hload, nil_append]
  by_cases hsum : calcChksum rcvd = calcChksum sent
  · simp only [hsum, not_true_eq_false, if_false, if_true]
    rfl
  · simp only [hsum, not_false_eq_true, if_false, if_true]
    rfl

section Host

variable {w w' : Port Unit}

theorem receive_inv {l : Bytes} (h : run (receive n) w = some (l, w')) :
    w.input = l ++ w'.input ∧ l.length = n ∧ w'.output = w.output := by
  induction n generalizing w l with
  | zero =>
    cases h
    exact ⟨rfl, rfl, rfl⟩
  | succ n ih =>
    obtain ⟨inp, out, mem⟩ := w
    cases inp with
    | nil => cases h
    | cons b inp =>
      rw [receive, run_bind, getc_run] at h
      simp only [bind_eq_bind, bind_some, run_bind, bind_eq_some_iff] at h
      obtain ⟨⟨l', w''⟩, hrest, hpure⟩ := h
      cases hpure
      obtain ⟨hinp, hlen, hout⟩ := ih hrest
      refine ⟨?_, by rw [length_cons, hlen], hout⟩
      exact congrArg (b :: ·) hinp

theorem receiveNat_inv {k : Nat} (h : run (receiveNat k) w = some (n, w')) :
    ∃ l : Bytes, w.input = l ++ w'.input ∧ l.length = k ∧ w'.output = w.output ∧ n = beNat l := by
  rw [receiveNat, run_bind, bind_eq_bind, bind_eq_some_iff] at h
  obtain ⟨⟨l, w''⟩, hread, hpure⟩ := h
  cases hpure
  obtain ⟨hinp, hlen, hout⟩ := receive_inv hread
  exact ⟨l, hinp, hlen, hout, rfl⟩

theorem echo_inv {buf : Bytes} (h : run (echo buf) w = some ((), w')) :
    w.input = buf ++ w'.input ∧ w'.output = w.output ++ buf := by
  rw [echo, run_bind, bind_eq_bind, bind_eq_some_iff] at h
  obtain ⟨⟨⟨⟩, w1⟩, hsend, h⟩ := h
  cases hsend
  rw [run_bind, bind_eq_bind, bind_eq_some_iff] at h
  obtain ⟨⟨l, w2⟩, hread, h⟩ := h
  obtain ⟨hinp, -, hout⟩ := receive_inv hread
  by_cases heq : buf = l
  · subst heq
    simp only [ne_eq, not_true_eq_false, if_false] at h
    cases h
    exact ⟨hinp, hout⟩
  · simp only [ne_eq, heq, not_false_eq_true, if_true] at h
    cases h

theorem echo_run (buf rest out : Bytes) :
    run (echo buf) ⟨buf ++ rest, out, ()⟩ = some ((), ⟨rest, out ++ buf, ()⟩) := by
  rw [echo, run_bind, send_run, bind_eq_bind, bind_some, run_bind, receive_run, bind_eq_bind,
    bind_some, if_neg (not_not.mpr rfl)]
  rfl

theorem sendFipPacket_inv (hlen : fip.length < 2 ^ 16) {accepted : Bool}
    (h : run (sendFipPacket idx fip) w = some (accepted, w')) :
    ∃ l m : Bytes, l.length = 4 ∧ m.length = 2 ∧ w.input = header idx fip ++ l ++ m ++ w'.input ∧
      w'.output = w.output ++ header idx fip ++ fip ∧
      accepted = decide (beNat l = idx ∧ beNat m = calcChksum fip) := by
  simp only [sendFipPacket, run_bind, bind_eq_bind, bind_eq_some_iff,
    show u16 fip.length = fip.length from mod_eq_of_lt hlen, fipPacketChecksum_eq] at h
  obtain ⟨⟨⟨⟩, w1⟩, h1, ⟨⟨⟩, w2⟩, h2, ⟨⟨⟩, w3⟩, h3, ⟨⟨⟩, w4⟩, h4, ⟨x, w5⟩, h5, ⟨y, w6⟩, h6, h7⟩ := h
  obtain ⟨i1, o1⟩ := echo_inv h1
  obtain ⟨i2, o2⟩ := echo_inv h2
  obtain ⟨i3, o3⟩ := echo_inv h3
  cases h4
  obtain ⟨l, i5, l5, o5, rfl⟩ := receiveNat_inv h5
  obtain ⟨m, i6, l6, o6, rfl⟩ := receiveNat_inv h6
  cases h7
  refine ⟨l, m, l5, l6, ?_, ?_, rfl⟩
  · rw [i1, i2, i3, i5, i6, header]
    simp only [append_assoc]
  · rw [o6, o5]
    simp only [o3, o2, o1, header, append_assoc]

theorem sendFipPacket_run {c : Nat} (hidx : idx < 2 ^ 32) (hlen : fip.length < 2 ^ 16)
    (hc : c < 256 ^ 2) :
    run (sendFipPacket idx fip) ⟨header idx fip ++ beBytes 4 idx ++ beBytes 2 c, [], ()⟩ =
      some (decide (c = calcChksum fip), ⟨[], header idx fip ++ fip, ()⟩) := by
  have hlast := receiveNat_run (σ := Unit) hc []
  rw [append_nil] at hlast
  simp only [sendFipPacket, header, append_assoc, run_bind, bind_eq_bind,
    show u16 fip.length = fip.length from mod_eq_of_lt hlen, fipPacketChecksum_eq, echo_run,
    bind_some, send_run, receiveNat_run (show idx < 256 ^ 4 from hidx), hlast, true_and,
    nil_append]
  rfl

end Host

def PktLen (pktLen : Nat) : Prop :=
  (∃ k ≤ 8, pktLen = 128 * 2 ^ k) ∨ 32768 ≤ pktLen ∧ pktLen < 65536

theorem PktLen.lt (h : PktLen pktLen) : 0 < pktLen ∧ pktLen < 2 ^ 16 := by
  rcases h with ⟨k, hk, rfl⟩ | ⟨hlo, hhi⟩
  · have := Nat.one_le_two_pow (n := k)
    have := Nat.pow_le_pow_right (n := 2) (by decide) hk
    omega
  · omega

theorem PktLen.grow (h : PktLen pktLen) : PktLen (growPktLen pktLen) := by
  unfold growPktLen
  split
  · rename_i hlt
    rcases h with ⟨k, hk, rfl⟩ | ⟨hlo, -⟩
    · have hk : k < 8 := by
        by_contra hge
        obtain rfl : k = 8 := by omega
        exact absurd hlt (by decide)
      exact .inl ⟨k + 1, hk, by rw [pow_succ]; ring⟩
    · omega
  · split
    · exact .inr ⟨by omega, by omega⟩
    · exact h

/-- Both sides agree on the next packet, and what BL2 has accepted is in its memory. -/
structure Sending (fip : Bytes) (s : State) (loadaddr idx pktLen p : Nat) : Prop where
  index : s.bl2.curridx = idx
  offset : s.bl2.rcvdSize = p
  addr : s.bl2.curraddr = loadaddr + p
  pktLen : PktLen pktLen
  inside : p < fip.length
  few : idx ≤ p
  stored : bytesAt s.mem loadaddr p = fip.take p

structure Inv (fip : Bytes) (loadaddr : Nat) (mem : Mem) (s : State) : Prop where
  size : s.bl2.size = fip.length
  toBl2 : s.toBl2 = []
  toHost : s.toHost = []
  sending : ∀ idx pktLen p, s.host = .sending idx pktLen p → Sending fip s loadaddr idx pktLen p
  finished : s.host = .finished → s.bl2.rcvdSize = fip.length ∧
    bytesAt s.mem loadaddr fip.length = fip
  frame : ∀ x, x < loadaddr ∨ loadaddr + fip.length ≤ x → s.mem x = mem x

theorem length_packet (hp : p ≤ fip.length) :
    (packet fip pktLen p).length = min pktLen (fip.length - p) := by
  unfold packet
  split
  · rw [length_field (by omega), min_eq_left (by omega)]
  · rw [length_drop, min_eq_right (by omega)]

theorem take_append_packet (hp : p ≤ fip.length) :
    fip.take p ++ packet fip pktLen p = fip.take (p + (packet fip pktLen p).length) := by
  rw [length_packet hp]
  unfold packet
  split
  · rw [min_eq_left (by omega), take_add]
    rfl
  · rw [min_eq_right (by omega), show p + (fip.length - p) = fip.length by omega, take_length,
      take_append_drop]

section Runs

variable {loadaddr : Nat} {mem : Mem}

theorem Inv.start (hlt : fip.length < 2 ^ 32) (hpos : 1 ≤ fip.length)
    (h : Start fip loadaddr mem s) : Inv fip loadaddr mem s := by
  obtain ⟨returned, toBl2, toHost, written, hecho, hsize, hhost, rfl, rfl⟩ := h
  obtain ⟨hin, hout⟩ := echo_inv hecho
  rw [u32_of_lt hlt] at hin hout
  subst hout
  have hread := receiveNat_run (show fip.length < 256 ^ 4 from hlt) [] [] mem
  rw [append_nil] at hread
  simp only [receiveSize, run_bind, bind_eq_bind, hread, bind_some, send_run,
    nil_append] at hsize
  obtain ⟨host, bl2, mem', toBl2, toHost⟩ := s
  cases hsize
  obtain rfl : toHost = [] := self_eq_append_right.mp hin
  refine ⟨rfl, rfl, rfl, ?_, ?_, fun x _ => rfl⟩
  · intro idx pktLen p hsending
    obtain ⟨rfl, rfl, rfl⟩ := sending.inj (hhost.symm.trans hsending)
    exact ⟨rfl, rfl, rfl, .inl ⟨0, by decide, rfl⟩, hpos, le_refl 0, rfl⟩
  · intro hfinished
    exact Host.noConfusion (hhost.symm.trans hfinished)

def afterPacket (fip : Bytes) (s : State) (idx pktLen p : Nat) (rcvd : Bytes) : State :=
  let sent := packet fip pktLen p
  { host := Host.next fip.length idx pktLen p (calcChksum rcvd = calcChksum sent)
    bl2 := s.bl2.next (if calcChksum rcvd = calcChksum sent then sent.length else 0)
    mem := putBytes s.mem s.bl2.curraddr rcvd
    toBl2 := []
    toHost := [] }

theorem Delivered.length (h : Delivered sent rcvd) : rcvd.length = sent.length := by
  rcases h with rfl | ⟨h, -⟩
  · rfl
  · exact h

section Step

variable {s' : State}

theorem Sending.packet_lt (h : Sending fip s loadaddr idx pktLen p) :
    (packet fip pktLen p).length < 2 ^ 16 := by
  have hlen := h.pktLen.lt
  rw [length_packet h.inside.le]
  omega

section

variable (hlt : fip.length < 2 ^ 32)
include hlt

theorem Inv.exchange (h : Inv fip loadaddr mem s)
    (hhost : s.host = .sending idx pktLen p) (hrcvd : Delivered (packet fip pktLen p) rcvd) :
    Step fip s (afterPacket fip s idx pktLen p rcvd) := by
  obtain ⟨host, bl2, mem', toBl2, toHost⟩ := s
  obtain rfl : host = .sending idx pktLen p := hhost
  have hs := h.sending idx pktLen p rfl
  obtain rfl : toBl2 = [] := h.toBl2
  obtain rfl : toHost = [] := h.toHost
  have hidx : bl2.curridx = idx := hs.index
  have hlt' : idx < 2 ^ 32 := by
    have := hs.few
    have := hs.inside
    omega
  have hleft : bl2.rcvdSize < bl2.size := by
    have hsize : bl2.size = fip.length := h.size
    have hoffset : bl2.rcvdSize = p := hs.offset
    have := hs.inside
    omega
  have hbl2 := receivePacket_run hlt' hs.packet_lt hrcvd.length bl2.curraddr mem'
  rw [← hidx] at hbl2
  refine .packet hleft ?_ hrcvd hbl2
  rw [hidx]
  exact sendFipPacket_run hlt' hs.packet_lt (calcChksum_lt rcvd)

theorem Inv.step_cases (h : Inv fip loadaddr mem s) (hstep : Step fip s s') :
    ∃ idx pktLen p rcvd, s.host = .sending idx pktLen p ∧ Delivered (packet fip pktLen p) rcvd ∧
      s' = afterPacket fip s idx pktLen p rcvd := by
  cases hstep with
  | @packet idx pktLen p bl2 mem mem' toBl2 toBl2' toHost toHost' hdr rcvd returned accepted ret
      hleft hhost hline hbl2 =>
    have hs := h.sending idx pktLen p rfl
    obtain rfl : toBl2 = [] := h.toBl2
    obtain rfl : toHost = [] := h.toHost
    obtain rfl : bl2.curridx = idx := hs.index
    have hidx : bl2.curridx < 2 ^ 32 := by
      have := hs.few
      have := hs.inside
      omega
    obtain ⟨l, m, hl, hm, hin, hout, rfl⟩ := sendFipPacket_inv hs.packet_lt hhost
    obtain rfl : hdr = header bl2.curridx (packet fip pktLen p) := append_cancel_right hout
    have hrun := receivePacket_run hidx hs.packet_lt hline.length bl2.curraddr mem
    rw [nil_append, hrun] at hbl2
    cases hbl2
    refine ⟨bl2.curridx, pktLen, p, rcvd, rfl, hline, ?_⟩
    -- what was returned is what the host has read
    simp only [nil_append, append_assoc] at hin
    obtain ⟨rfl, hsum⟩ := append_inj (append_cancel_left hin) (by rw [length_beBytes, hl])
    rw [← append_nil (beBytes 2 _)] at hsum
    obtain ⟨rfl, rfl⟩ := append_inj hsum (by rw [length_beBytes, hm])
    rw [beNat_beBytes (show bl2.curridx < 256 ^ 4 from hidx), beNat_beBytes (calcChksum_lt rcvd)]
    simp only [true_and, afterPacket]

theorem Inv.step (h : Inv fip loadaddr mem s) (hstep : Step fip s s') :
    Inv fip loadaddr mem s' := by
  obtain ⟨idx, pktLen, p, rcvd, hhost, hrcvd, rfl⟩ := h.step_cases hlt hstep
  have hs := h.sending idx pktLen p hhost
  have hp := hs.inside
  have haddr := hs.addr
  have hlen : (packet fip pktLen p).length = min pktLen (fip.length - p) := length_packet hp.le
  have hpos := hs.pktLen.lt
  have hkeep : bytesAt (putBytes s.mem s.bl2.curraddr rcvd) loadaddr p = fip.take p := by
    rw [← hs.stored]
    exact bytesAt_congr fun i hi => putBytes_outside (.inl (by omega))
  have hframe : ∀ x, x < loadaddr ∨ loadaddr + fip.length ≤ x →
      putBytes s.mem s.bl2.curraddr rcvd x = mem x := by
    intro x hx
    rw [putBytes_outside (by rw [hrcvd.length, hlen]; omega), h.frame x hx]
  by_cases hsum : calcChksum rcvd = calcChksum (packet fip pktLen p)
  · -- only the packet itself has its checksum
    obtain rfl : rcvd = packet fip pktLen p := by
      rcases hrcvd with hrcvd | ⟨-, hne⟩
      · exact hrcvd
      · exact absurd hsum hne
    have hstored : bytesAt (putBytes s.mem s.bl2.curraddr (packet fip pktLen p)) loadaddr
        (p + (packet fip pktLen p).length) = fip.take (p + (packet fip pktLen p).length) := by
      rw [bytesAt_add, hkeep, ← haddr, bytesAt_putBytes, take_append_packet hp.le]
    have hidx := hs.few
    have hbl2 : s.bl2.next (packet fip pktLen p).length = ⟨fip.length, idx + 1,
        p + (packet fip pktLen p).length, loadaddr + (p + (packet fip pktLen p).length)⟩ := by
      rw [Bl2.next, if_neg (by omega), h.size, hs.index, hs.offset, haddr,
        u32_of_lt (by omega), u32_of_lt (by omega), add_assoc]
    by_cases hmore : fip.length - p > pktLen
    · obtain hfull : (packet fip pktLen p).length = pktLen := by omega
      rw [hfull] at hstored hbl2
      have hafter : afterPacket fip s idx pktLen p (packet fip pktLen p) =
          ⟨.sending (idx + 1) (growPktLen pktLen) (p + pktLen),
            ⟨fip.length, idx + 1, p + pktLen, loadaddr + (p + pktLen)⟩,
            putBytes s.mem s.bl2.curraddr (packet fip pktLen p), [], []⟩ := by
        simp only [afterPacket, Host.next, if_true, if_pos hmore, hfull, hbl2, decide_true,
          u32_of_lt (show idx + 1 < 2 ^ 32 by omega)]
      rw [hafter]
      refine ⟨rfl, rfl, rfl, ?_, Host.noConfusion, hframe⟩
      rintro idx' pktLen' p' ⟨⟩
      exact ⟨rfl, rfl, rfl, hs.pktLen.grow, by omega, by omega, hstored⟩
    · obtain hrest : p + (packet fip pktLen p).length = fip.length := by omega
      rw [hrest] at hstored hbl2
      have hafter : afterPacket fip s idx pktLen p (packet fip pktLen p) =
          ⟨.finished, ⟨fip.length, idx + 1, fip.length, loadaddr + fip.length⟩,
            putBytes s.mem s.bl2.curraddr (packet fip pktLen p), [], []⟩ := by
        simp only [afterPacket, Host.next, if_true, if_neg hmore, hbl2, decide_true]
      rw [hafter]
      refine ⟨rfl, rfl, rfl, ?_, ?_, hframe⟩
      · rintro idx' pktLen' p' ⟨⟩
      · intro _
        exact ⟨rfl, hstored.trans take_length⟩
  · have hafter : afterPacket fip s idx pktLen p rcvd =
        ⟨.sending idx pktLen p, s.bl2, putBytes s.mem s.bl2.curraddr rcvd, [], []⟩ := by
      simp only [afterPacket, Host.next, hsum, decide_false, Bool.false_eq_true, if_false, ite_self,
        Bl2.next, if_true]
    rw [hafter]
    refine ⟨h.size, rfl, rfl, ?_, Host.noConfusion, hframe⟩
    rintro idx' pktLen' p' ⟨⟩
    exact ⟨hs.index, hs.offset, haddr, hs.pktLen, hp, hs.few, hkeep⟩

omit hlt in
theorem inv_of_reachable (hpos : 1 ≤ fip.length) (hlt : fip.length < 2 ^ 32)
    (hs : Reachable (Start fip loadaddr mem) (Step fip) s) : Inv fip loadaddr mem s :=
  hs.invariant (fun _ => .start hlt hpos) fun _ _ => .step hlt

theorem Inv.progress (h : Inv fip loadaddr mem s) (hhost : s.host = .sending idx pktLen p) :
    ∃ s', Step fip s s' ∧
      (s'.host = .finished ∨ ∃ idx' pktLen' p', s'.host = .sending idx' pktLen' p' ∧ p < p') := by
  have hpos := (h.sending idx pktLen p hhost).pktLen.lt.1
  refine ⟨_, h.exchange hlt hhost (.inl rfl), ?_⟩
  simp only [afterPacket, Host.next, decide_true, if_true]
  split
  · exact .inr ⟨_, _, _, rfl, by omega⟩
  · exact .inl rfl

theorem Inv.finishes (h : Inv fip loadaddr mem s) :
    ∃ s', Reachable (fun x => x = s) (Step fip) s' ∧ s'.host = .finished := by
  cases hhost : s.host with
  | finished => exact ⟨s, .init rfl, hhost⟩
  | sending idx pktLen p =>
    -- induction on what is left to send
    induction hn : fip.length - p using Nat.strong_induction_on generalizing s idx pktLen p with
    | _ n ih =>
      obtain ⟨s', hstep, hfin | ⟨idx', pktLen', p', hhost', hlt'⟩⟩ := h.progress hlt hhost
      · exact ⟨s', .step (.init rfl) hstep, hfin⟩
      · have hinv := h.step hlt hstep
        have := (hinv.sending idx' pktLen' p' hhost').inside
        obtain ⟨s'', hreach, hfin⟩ :=
          ih (fip.length - p') (by omega) hinv idx' pktLen' p' hhost' rfl
        have hfirst : Reachable (fun x => x = s) (Step fip) s' := .step (.init rfl) hstep
        exact ⟨s'', hfirst.trans hreach, hfin⟩

end

/-- At every packet boundary both sides are at the same packet and get through it whatever becomes
of its payload; the host is done when BL2 is; and then BL2 has the FIP and has touched nothing
else. -/
theorem send_fip_agrees (hpos : 1 ≤ fip.length) (hlt : fip.length < 2 ^ 32)
    (hs : Reachable (Start fip loadaddr mem) (Step fip) s) :
    (∀ idx pktLen p, s.host = .sending idx pktLen p →
      idx = s.bl2.curridx ∧ p = s.bl2.rcvdSize ∧ (packet fip pktLen p).length < 2 ^ 16 ∧
      ∀ rcvd, Delivered (packet fip pktLen p) rcvd →
        Step fip s (afterPacket fip s idx pktLen p rcvd)) ∧
    (s.host = .finished ↔ s.bl2.size ≤ s.bl2.rcvdSize) ∧
    (s.host = .finished → bytesAt s.mem loadaddr fip.length = fip ∧
      ∀ x, x < loadaddr ∨ loadaddr + fip.length ≤ x → s.mem x = mem x) ∧
    ∃ s', Reachable (fun x => x = s) (Step fip) s' ∧ s'.host = .finished := by
  have h := inv_of_reachable hpos hlt hs
  refine ⟨?_, ?_, ?_, ?_⟩
  · intro idx pktLen p hhost
    have hsend := h.sending idx pktLen p hhost
    exact ⟨hsend.index.symm, hsend.offset.symm, hsend.packet_lt, fun rcvd => h.exchange hlt hhost⟩
  · constructor
    · intro hfin
      rw [h.size, (h.finished hfin).1]
    intro hle
    cases hhost : s.host with
    | finished => rfl
    | sending idx pktLen p =>
      have hsend := h.sending idx pktLen p hhost
      have := hsend.inside
      rw [h.size, hsend.offset] at hle
      omega
  · intro hfin
    exact ⟨(h.finished hfin).2, h.frame⟩
  · exact h.finishes hlt

end Step

theorem start_run (fip : Bytes) (loadaddr : Nat) (mem : Mem) :
    Start fip loadaddr mem ⟨.sending 0 128 0, ⟨u32 fip.length, 0, 0, loadaddr⟩, mem, [], []⟩ := by
  have hread := receiveNat_run (show u32 fip.length < 256 ^ 4 from u32_lt _) [] [] mem
  have hecho := echo_run (beBytes 4 (u32 fip.length)) [] []
  rw [append_nil] at hread hecho
  refine ⟨beBytes 4 (u32 fip.length), [], [], beBytes 4 (u32 fip.length), hecho, ?_, rfl, rfl, rfl⟩
  simp only [receiveSize, run_bind, bind_eq_bind, hread, bind_some, send_run]
  rfl

end Runs

theorem send_fip_agrees_three :
    ∃ s, Reachable (Start [1, 2, 3] 0x1000 (fun _ => 0)) (Step [1, 2, 3]) s ∧
    s.host = .sending 0 128 0 ∧ bytesAt s.mem 0x1000 3 = [1, 7, 3] ∧
    ∃ s', Reachable (Start [1, 2, 3] 0x1000 (fun _ => 0)) (Step [1, 2, 3]) s' ∧
    s'.host = .finished ∧ s'.bl2.size ≤ s'.bl2.rcvdSize ∧ bytesAt s'.mem 0x1000 3 = [1, 2, 3] := by
  have hinit : Reachable (Start [1, 2, 3] 0x1000 fun _ => 0) (Step [1, 2, 3]) _ :=
    .init (start_run [1, 2, 3] 0x1000 fun _ => 0)
  have hfirst := (send_fip_agrees (by decide) (by decide) hinit).1 0 128 0 rfl
  have hcorrupted : Delivered (packet [1, 2, 3] 128 0) [1, 7, 3] := .inr ⟨rfl, by decide +kernel⟩
  have hs := hinit.step (hfirst.2.2.2 _ hcorrupted)
  obtain ⟨s', hs', hfin⟩ := (send_fip_agrees (by decide) (by decide) hs).2.2.2
  have hreach := hs.trans hs'
  have hend := send_fip_agrees (by decide) (by decide) hreach
  exact ⟨_,
    hs, by decide +kernel, by decide +kernel, s', hreach, hfin, hend.2.1.mp hfin, (hend.2.2.1
    hfin).1⟩

end MtkBoot.Uart
