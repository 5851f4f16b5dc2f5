import MtkBoot.Ubi.Read

/-! Sequences of calls of the io layer. -/

namespace MtkBoot.Ubi

open Nat State

variable {d : Dev} {out : Bytes} {s s' : State} {scan : Scan}

def volumeAfter (v : Fin volIds) : Call → Fin volIds
  | .open v' => v'
  | _ => v

def positionAfter (pos : Nat) : Call → Outcome → Nat
  | .open _, _ => 0
  | .seek .set offset, .done => (offset % 2 ^ 32).toNat
  | .seek .cur offset, .done => ((pos + offset) % 2 ^ 32).toNat
  | .read _, .bytes out => (pos + out.length) % 2 ^ 32
  | _, _ => pos

def track (v : Fin volIds) (pos : Nat) : List Call → List Outcome → Fin volIds × Nat
  | call :: calls, r :: rs => track (volumeAfter v call) (positionAfter pos call r) calls rs
  | _, _ => (v, pos)

structure Sound (d : Dev) (s : State) : Prop where
  scan : s.initDone = true → Inv d s.scan
  pos : s.readPos < 2 ^ 32

section Calls

theorem Inv.setSizes (hi : Inv d scan) (sizes : Nat → Option Nat) :
    Inv d { scan with sizes := sizes } :=
  { hi with
    mapped := fun v hv l hl p hm => { hi.mapped v hv l hl p hm with }
    cache := fun c hc => { hi.cache c hc with } }

theorem ready_spec (hmax : d.pebCount ≤ maxPebs) (hs : Sound d s) : ∃ scan, s.ready d = some scan ∧
    Inv d scan ∧ (s.initDone ∧ scan = s.scan ∨ scan.lebCacheInfo = none) := by
  unfold ready
  cases hinit : s.initDone with
  | true => exact ⟨s.scan, rfl, hs.scan hinit, .inl ⟨rfl, rfl⟩⟩
  | false =>
    obtain ⟨scan, k, heq, hscan, hcount, hk, hrest⟩ := ubisplInitScan_spec hmax s.scan
    exact ⟨scan, heq, hscan.inv hcount hk hrest, .inr hscan.cache⟩

theorem iplLoad_eq (hi : Inv d scan) (v : Fin volIds) (laddr : Bool) (offset size : Nat) :
    iplLoad d laddr v offset size scan =
      iplLoadFrom d laddr v (d.lebCount v) offset size (d.lebCount v) 0 0 0 [] scan := by
  rw [iplLoad, if_neg (not_le.mpr v.2), hi.last v v.2]

theorem iplLoad_total (hi : Inv d scan) (v : Fin volIds) (laddr : Bool) (offset size : Nat) :
    ∃ ret out scan', iplLoad d laddr v offset size scan = some (ret, out, scan') ∧ Inv d scan' ∧
      (laddr → 0 ≤ ret → ret = out.length ∧ out.length ≤ size) := by
  rw [iplLoad_eq hi]
  apply iplLoadFrom_total v.2 _ hi
  · omega
  · simp

theorem Sound.after (hs : Sound d s) {ret : Int} (hi : Inv d scan) : Sound d (s.after ret scan) :=
  ⟨fun _ => hi, hs.pos⟩

theorem dataSize_spec (hi : Inv d scan) (v : Fin volIds) :
    ∃ ret scan', ubisplGetVolumeDataSize d v scan = some (ret, scan') ∧ Inv d scan' := by
  unfold ubisplGetVolumeDataSize
  cases scan.sizes v with
  | some size => exact ⟨size, scan, rfl, hi⟩
  | none =>
    obtain ⟨ret, out, scan', heq, hi', -⟩ := iplLoad_total hi v false 0 (2 ^ 32 - 1)
    rw [heq]
    dsimp only
    split_ifs
    · exact ⟨ret, scan', rfl, hi'⟩
    · exact ⟨ret, _, rfl, hi'.setSizes _⟩

variable (hmax : d.pebCount ≤ maxPebs)
include hmax

theorem volumeSize_spec (hs : Sound d s) : ∃ r s', ubiVolumeSize d s = some (r, s') ∧ Sound d s' ∧
    s'.volId = s.volId ∧ s'.readPos = s.readPos ∧ ((∃ e, r = .error e) ∨ ∃ n, r = .size n) := by
  obtain ⟨scan, hready, hi, -⟩ := ready_spec hmax hs
  obtain ⟨ret, scan', heq, hi'⟩ := dataSize_spec hi s.volId
  rw [ubiVolumeSize, hready]
  dsimp only
  rw [heq]
  dsimp only
  split_ifs
  · exact ⟨_, _, rfl, hs.after hi', rfl, rfl, .inl ⟨ret, rfl⟩⟩
  · exact ⟨_, _, rfl, hs.after hi', rfl, rfl, .inr ⟨_, rfl⟩⟩

omit hmax in
theorem seekTo_spec (hs : Sound d s) (mode : Mode) (offset : Int) :
    ∃ r s', ubiVolumeSeekTo s mode offset = (r, s') ∧ Sound d s' ∧ s'.volId = s.volId ∧
      s'.readPos = positionAfter s.readPos (.seek mode offset) r := by
  have hwrap : ∀ x : Int, (x % 2 ^ 32).toNat < 2 ^ 32 := by
    intro x
    omega
  cases mode with
  | set => exact ⟨_, _, rfl, ⟨hs.scan, hwrap _⟩, rfl, rfl⟩
  | cur => exact ⟨_, _, rfl, ⟨hs.scan, hwrap _⟩, rfl, rfl⟩
  | other => exact ⟨_, _, rfl, hs, rfl, rfl⟩

variable (hs : Sound d s)
include hs

theorem volumeSeek_spec (mode : Mode) (offset : Int) :
    ∃ r s', ubiVolumeSeek d s mode offset = some (r, s') ∧ Sound d s' ∧ s'.volId = s.volId ∧
      s'.readPos = positionAfter s.readPos (.seek mode offset) r := by
  unfold ubiVolumeSeek
  split
  · obtain ⟨r, s', heq, h⟩ := seekTo_spec hs mode offset
    exact ⟨r, s', congrArg some heq, h⟩
  obtain ⟨r, s1, heq, hs1, hvol, hpos, ⟨e, rfl⟩ | ⟨n, rfl⟩⟩ := volumeSize_spec hmax hs
  · rw [heq]
    refine ⟨_, s1, rfl, hs1, hvol, ?_⟩
    cases mode <;> exact hpos
  rw [heq]
  dsimp only
  have hs2 : Sound d { s1 with volSizeInit := true, volSize := n } := ⟨hs1.scan, hs1.pos⟩
  obtain ⟨r, s', heq', hs', hvol', hpos'⟩ := seekTo_spec hs2 mode offset
  refine ⟨r, s', congrArg some heq', hs', hvol'.trans hvol, ?_⟩
  rw [hpos']
  show positionAfter s1.readPos _ r = _
  rw [hpos]

theorem volumeRead_spec (length : Nat) :
    ∃ r s', ubiVolumeRead d s length = some (r, s') ∧ Sound d s' ∧ s'.volId = s.volId ∧
      s'.readPos = positionAfter s.readPos (.read length) r := by
  obtain ⟨scan, hready, hi, -⟩ := ready_spec hmax hs
  obtain ⟨ret, out, scan', heq, hi', hlen⟩ :=
    iplLoad_total hi s.volId true s.readPos (length % 2 ^ 32)
  rw [ubiVolumeRead, hready]
  dsimp only
  rw [heq]
  dsimp only
  split_ifs with hret
  · exact ⟨_, _, rfl, hs.after hi', rfl, rfl⟩
  · have hout := (hlen rfl (by omega)).1
    refine ⟨_, _, rfl, ⟨fun _ => hi', mod_lt _ (by decide)⟩, rfl, ?_⟩
    show (s.readPos + ret.toNat) % 2 ^ 32 = (s.readPos + out.length) % 2 ^ 32
    rw [hout, Int.toNat_natCast]

theorem Sound.step (call : Call) :
    ∃ r s', step d s call = some (r, s') ∧ Sound d s' ∧ s'.volId = volumeAfter s.volId call ∧
      s'.readPos = positionAfter s.readPos call r := by
  cases call with
  | «open» v => exact ⟨_, _, rfl, ⟨hs.scan, Nat.two_pow_pos 32⟩, rfl, rfl⟩
  | size =>
    obtain ⟨r, s', heq, hs', hvol, hpos, -⟩ := volumeSize_spec hmax hs
    exact ⟨r, s', heq, hs', hvol, hpos⟩
  | seek mode offset => exact volumeSeek_spec hmax hs mode offset
  | read length => exact volumeRead_spec hmax hs length

theorem Sound.run (calls : List Call) : ∃ rs s', run d s calls = some (rs, s') ∧ Sound d s' ∧
      (s'.volId, s'.readPos) = track s.volId s.readPos calls rs := by
  induction calls generalizing s with
  | nil => exact ⟨[], s, rfl, hs, rfl⟩
  | cons call calls ih =>
    obtain ⟨r, s1, heq, hs1, hvol, hpos⟩ := hs.step hmax call
    obtain ⟨rs, s', heq', hs', htrack⟩ := ih hs1
    refine ⟨r :: rs, s', ?_, hs', ?_⟩
    · rw [Ubi.run, heq]
      dsimp only
      rw [heq']
      rfl
    · rw [track, ← hvol, ← hpos]
      exact htrack

end Calls

/-- When a read of `length` bytes in state `s` gives the next bytes of the volume: the headers and
the damaged copies of the volume are no harm, and the cache buffer still holds what its record
says. -/
structure Fine (d : Dev) (s : State) (length : Nat) : Prop where
  length_lt : length < 2 ^ 32
  clear : Clear d s.volId
  reaches : Reaches d s.volId s.readPos length
  cache : s.initDone = true → CacheHolds d s.scan s.volId

theorem NextBytes.pos_add_lt {v pos n : Nat} (h : NextBytes d v pos n out) (hpos : pos < 2 ^ 32) :
    pos + out.length < 2 ^ 32 := by
  obtain ⟨cs, hcs, hle, rfl, -⟩ := h
  have hlebs := Nat.mul_le_mul (hle.trans (Dev.lebCount_le v)) d.lebSize_le
  have hbound : maxVolLebs * maxPebSize < 2 ^ 32 := by decide
  have hflat := hcs.length_flatten_le
  rw [List.length_take, List.length_drop]
  omega

theorem read_bytes (hmax : d.pebCount ≤ maxPebs) (hs : Sound d s) {length : Nat}
    (h : step d s (.read length) = some (.bytes out, s')) : ∃ scan scan', Inv d scan ∧
      (s.initDone ∧ scan = s.scan ∨ scan.lebCacheInfo = none) ∧
      iplLoad d true s.volId s.readPos (length % 2 ^ 32) scan = some ((out.length : Int), out,
        scan') ∧ out.length ≤ length % 2 ^ 32 ∧ s'.readPos = (s.readPos + out.length) % 2 ^ 32 := by
  obtain ⟨scan, hready, hi, hold⟩ := ready_spec hmax hs
  obtain ⟨ret, out', scan', heq, -, hlen⟩ :=
    iplLoad_total hi s.volId true s.readPos (length % 2 ^ 32)
  rw [step, ubiVolumeRead, hready] at h
  dsimp only at h
  rw [heq] at h
  dsimp only at h
  rcases ite_eq_iff.mp h with ⟨-, h⟩ | ⟨hret, h⟩
  · simp at h
  simp only [Option.some.injEq, Prod.mk.injEq, Outcome.bytes.injEq] at h
  obtain ⟨rfl, rfl⟩ := h
  obtain ⟨rfl, hle⟩ := hlen rfl (by omega)
  exact ⟨scan, scan', hi, hold, heq, hle, rfl⟩

theorem Fine.read (hd : d.Distinct) (hmax : d.pebCount ≤ maxPebs) (hs : Sound d s) {length : Nat}
    (hf : Fine d s length)
    {out : Bytes} {s' : State} (h : step d s (.read length) = some (.bytes out, s')) :
    NextBytes d s.volId s.readPos length out ∧ s'.readPos = s.readPos + out.length := by
  obtain ⟨scan, scan', hi, hold, heq, hle, hpos'⟩ := read_bytes hmax hs h
  have hnext : NextBytes d s.volId s.readPos length out := by
    rw [mod_eq_of_lt hf.length_lt] at heq hle
    rcases Nat.eq_zero_or_pos length with hzero | hpos
    · refine ⟨[], .nil, zero_le _, ?_, .inl ?_⟩
      · have : out = [] := List.eq_nil_of_length_eq_zero (by omega)
        simp [this]
      · omega
    have hcache : CacheHolds d scan s.volId := by
      rcases hold with ⟨hinit, rfl⟩ | hnone
      · exact hf.cache hinit
      · intro r hr
        rw [hnone] at hr
        cases hr
    rw [iplLoad_eq hi] at heq
    have hnil : ([] : Bytes) = (([] : List Bytes).flatten.drop s.readPos).take
        length := by simp
    exact iplLoadFrom_next hd hf.clear s.volId.2 hf.reaches _ hi hcache Lebs.nil
      (zero_add _) hnil hpos heq (by omega)
  exact ⟨hnext, hpos'.trans (mod_eq_of_lt (hnext.pos_add_lt hs.pos))⟩

/-- Blocks of volume 0, each with its LEB number, sequence number, data CRC and data. The CRC is
the sum of the bytes, and every header gives two LEBs. -/
def sampleDev (blocks : List (Nat × Nat × Nat × Bytes)) : Dev where
  pebCount := blocks.length
  pebOffset := 0
  lebSize := 4
  isBadPeb := fun _ => false
  readVid := fun p =>
    match blocks[p]? with
    | some (lnum, sqnum, crc, data) =>
      (.ok, ⟨vidHdrMagic, vidStatic, 0, lnum, (data.take 4).length, 2, crc, sqnum, 0, []⟩)
    | none => (.failed, .zero)
  readEc := fun _ => (.failed, ⟨0, [], 0, []⟩)
  readVtbl := fun _ => (.failed, false)
  readData := fun p n =>
    match blocks[p]? with
    | some (_, _, _, data) => (.ok, (data ++ List.replicate n 0).take n)
    | none => (.failed, [])
  vidCrc := fun _ => 0
  ecCrc := fun _ => 0
  dataCrc := fun c => (c.map UInt8.toNat).sum
  length_readData := by
    intro p n h
    cases hb : blocks[p]? with
    | none => simp [hb] at h
    | some b => simp
  dataSize_le := by
    intro p _
    cases hb : blocks[p]? with
    | none => exact Nat.zero_le _
    | some b => simp
  lebSize_le := by decide

def firstVol : Fin volIds := ⟨0, by decide⟩

/-- LEB 0 has a damaged newer copy, in block 2. -/
def twoLebs : Dev := sampleDev [(0, 1, 3, [1, 2]), (1, 2, 3, [3]), (0, 3, 0, [7, 7])]

theorem twoLebs_dataSize_pos {p : Nat} {h : VidHdr} (hp : p < 3) (hv : twoLebs.vid p = some h) :
    0 < h.dataSize ∧ h.volType = vidStatic := by
  have hall : ∀ p < 3, ∀ h ∈ twoLebs.vid p, 0 < h.dataSize ∧ h.volType = vidStatic := by decide
  exact hall p hp h hv

theorem twoLebs_isLeb : twoLebs.IsLeb 0 0 [1, 2] := by
  have hall : ∀ q < 3, ∀ k ∈ twoLebs.vid q, k.lnum = 0 →
      ∀ c ∈ twoLebs.data q k, twoLebs.sqnum q ≤ twoLebs.sqnum 0 := by
    decide
  refine ⟨0, ⟨_, ⟨by decide, rfl, rfl, rfl, rfl, by decide⟩, rfl⟩, fun q c => ?_⟩
  rintro ⟨k, hcopy, hdata⟩
  exact hall q hcopy.1 k hcopy.2.1 hcopy.2.2.2.1 c hdata

/-- LEB 1 has only a damaged copy, in block 1. -/
def lostLeb : Dev := sampleDev [(0, 1, 1, [1]), (1, 2, 0, [2])]

theorem lostLeb_isLeb {c : Bytes} (h : lostLeb.IsLeb 0 0 c) : c = [1] := by
  have hall : ∀ p < 2, ∀ k ∈ lostLeb.vid p, k.lnum = 0 → ∀ c ∈ lostLeb.data p k, c = [1] := by
    decide
  obtain ⟨p, ⟨k, hcopy, hdata⟩, -⟩ := h
  exact hall p hcopy.1 k hcopy.2.1 hcopy.2.2.2.1 c hdata

end MtkBoot.Ubi
