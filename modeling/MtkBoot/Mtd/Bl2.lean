import MtkBoot.Mtd.Update

/-! BL2 reads the FIP partition of a raw NAND: a logical offset is first moved past the bad blocks
before it, and the read from there passes over bad blocks again. -/

namespace MtkBoot.Mtd

open Lib List Nat

variable {a b block fuel len lo n off page q start : Nat} {acc : Bytes} {data : Mem}

/-- `struct nand_device`; a page that is read is its bytes.  `scratchSize` is the size of the
platform's scratch buffer. -/
structure NandDevice where
  size : Nat
  blockSizeShift : Nat
  pageSizeShift : Nat
  mtdBlockIsBad : Nat → Int
  mtdReadPage : Nat → Except Int Mem
  scratchSize : Nat
  page_le_block : pageSizeShift ≤ blockSizeShift
  blocks_lt : size / 2 ^ blockSizeShift < 2 ^ 32

def NandDevice.blockSize (d : NandDevice) : Nat := 2 ^ d.blockSizeShift

def NandDevice.pageSize (d : NandDevice) : Nat := 2 ^ d.pageSizeShift

section

variable (d : NandDevice)

/-- The loop of `nand_adjust_offset`: the address it stops at, and the length that is left. -/
def adjustLoop (endLim : Nat) : Nat → Nat → Nat → Except Int (Nat × Nat)
  | 0, addr, lenLeft => .ok (addr, lenLeft)
  | fuel + 1, addr, lenLeft =>
    if addr < endLim then
      let ret := d.mtdBlockIsBad (addr / d.blockSize)
      if ret > 0 then adjustLoop endLim fuel (addr + d.blockSize) lenLeft
      else if ret < 0 then .error ret
      else if lenLeft = 0 then .ok (addr, lenLeft)
      else adjustLoop endLim fuel (addr + d.blockSize) (lenLeft - d.blockSize)
    else .ok (addr, lenLeft)

/-- `nand_adjust_offset`.  The mask of the block size has 32 bits, and so have the addresses it is
applied to. -/
def nandAdjustOffset (base limit offset : Nat) : Except Int Nat :=
  let endLim := if limit ≠ 0 then limit else d.size
  let addr := base % 2 ^ 32 / d.blockSize * d.blockSize
  let stop := base + offset
  let boffs := stop % d.blockSize
  let stop := stop % 2 ^ 32 / d.blockSize * d.blockSize
  let lenLeft := (2 ^ 64 + stop - addr) % 2 ^ 64
  match adjustLoop d endLim (endLim - addr) addr lenLeft with
  | .error e => .error e
  | .ok (addr, lenLeft) => if lenLeft ≠ 0 then .error (-eio) else .ok (addr + boffs - base)

/-- The pages of one block in `nand_read`, `nbPages - page` of them: the start offset and length
that are left, and the bytes so far. -/
def readPages (block : Nat) :
    Nat → Nat → Nat → Nat → Bytes → Except (Int × Bytes) (Nat × Nat × Bytes)
  | 0, _, startOffset, length, acc => .ok (startOffset, length, acc)
  | fuel + 1, page, startOffset, length, acc =>
    match d.mtdReadPage (block * (d.blockSize / d.pageSize) + page) with
    | .error e => .error (e, acc)
    | .ok bytes =>
      -- part of a page goes through the scratch buffer
      let bytesRead :=
        if startOffset ≠ 0 ∨ length < d.pageSize then min (d.pageSize - startOffset) length
        else d.pageSize
      let acc := acc ++ (List.range' startOffset bytesRead).map bytes
      let length := length - bytesRead
      if length = 0 then .ok (0, length, acc) else readPages block fuel (page + 1) 0 length acc

/-- The loop of `nand_read`: its return value and the bytes read.  `none` stands for a loop that
runs past the blocks of the chip. -/
def nandReadLoop : Nat → Nat → Nat → Nat → Nat → Nat → Bytes → Option (Int × Bytes)
  | 0, _, _, _, _, _, _ => none
  | fuel + 1, block, endBlock, pageStart, startOffset, length, acc =>
    if block ≤ endBlock then
      let isBad := d.mtdBlockIsBad block
      if isBad < 0 then some (isBad, acc)
      else if isBad = 1 then
        let maxBlock := d.size / d.blockSize
        let block := (block + 1) % 2 ^ 32
        let endBlock := (endBlock + 1) % 2 ^ 32
        if block < maxBlock ∧ endBlock < maxBlock then
          nandReadLoop fuel block endBlock pageStart startOffset length acc
        else some (-eio, acc)
      else
        match readPages d block (d.blockSize / d.pageSize - pageStart) pageStart startOffset
            length acc with
        | .error (e, acc) => some (e, acc)
        | .ok (startOffset, length, acc) =>
          nandReadLoop fuel ((block + 1) % 2 ^ 32) endBlock 0 startOffset length acc
    else some (0, acc)

def nandRead (offset length : Nat) : Option (Int × Bytes) :=
  let offset := offset % 2 ^ 32
  let block := offset / d.blockSize
  let endBlock := (2 ^ 64 + offset + length - 1) % 2 ^ 64 / d.blockSize % 2 ^ 32
  let pageStart := offset % d.blockSize / d.pageSize
  let startOffset := offset % d.pageSize
  if (startOffset ≠ 0 ∨ length % d.pageSize ≠ 0) ∧ d.scratchSize < d.pageSize then
    some (-einval, [])
  else nandReadLoop d (d.size / d.blockSize + 2) block endBlock pageStart startOffset length []

/-- `nand_read_range` with the FIP partition `fipLength` bytes from `fipOffset` on: the bytes it
leaves in the buffer. -/
def nandReadRange (fipOffset fipLength lba size : Nat) : Option Bytes :=
  let off := lba * d.pageSize
  if off ≥ fipOffset ∧ off < fipOffset + fipLength then
    match nandAdjustOffset d fipOffset (fipOffset + fipLength) (off - fipOffset) with
    | .error _ => some []
    | .ok off => (nandRead d (off + fipOffset) size).map Prod.snd
  else (nandRead d off size).map Prod.snd

end

/-- BL2's driver shows the NAND that U-Boot has written: they agree on the bad blocks and on the
pages of the good ones. -/
structure Agrees (d : NandDevice) (m : MtdInfo) (base : Nat) (f : Mem) : Prop where
  blockSize : d.blockSize = m.erasesize
  aligned : m.erasesize ∣ base
  below : base + m.size ≤ 2 ^ 32
  inside : base + m.size ≤ d.size
  bad : ∀ b, b * m.erasesize < m.size →
    d.mtdBlockIsBad (base / m.erasesize + b) = if m.bad b then 1 else 0
  page : ∀ a, d.pageSize ∣ a → a < m.size → m.bad (a / m.erasesize) = false →
    ∃ bytes, d.mtdReadPage ((base + a) / d.pageSize) = .ok bytes ∧
      ∀ i < d.pageSize, bytes i = f (a + i)
  scratch : d.pageSize ≤ d.scratchSize

variable {d : NandDevice} {m : MtdInfo} {base : Nat} {f : Mem}

theorem NandDevice.pageSize_pos (d : NandDevice) : 0 < d.pageSize := Nat.two_pow_pos _

theorem NandDevice.pageSize_dvd (d : NandDevice) : d.pageSize ∣ d.blockSize :=
  pow_dvd_pow 2 d.page_le_block

/-! ## The start -/

section

variable (h : Agrees d m base f)
include h

theorem Agrees.good_or_bad (hb : b * m.erasesize < m.size) :
    d.mtdBlockIsBad ((base + b * m.erasesize) / d.blockSize) = if m.bad b then 1 else 0 := by
  rw [h.blockSize, add_mul_div_right _ _ m.erasesize_pos]
  exact h.bad b hb

theorem Agrees.block_lt (hb : b * m.erasesize < m.size) :
    base / m.erasesize + b < d.size / m.erasesize := by
  have hend := m.block_end hb
  have hin := h.inside
  rw [Nat.mul_mod_left, Nat.sub_zero] at hend
  refine (le_div_iff_mul_le m.erasesize_pos).mpr ?_
  rw [Nat.succ_mul, add_mul, Nat.div_mul_cancel h.aligned]
  omega

theorem adjustLoop_spec {g : Nat}
    (hg : NthGood m.bad b q g) (hsize : g * m.erasesize < m.size) (hfuel : g < b + fuel) :
    adjustLoop d (base + m.size) fuel (base + b * m.erasesize) (q * m.erasesize) =
    .ok (base + g * m.erasesize, 0) := by
  have hpos := m.erasesize_pos
  induction hg generalizing fuel with
  | @here b hb =>
    obtain ⟨fuel, rfl⟩ : ∃ k, fuel = k + 1 := ⟨fuel - 1, by omega⟩
    rw [adjustLoop, if_pos (by omega), h.good_or_bad hsize, hb]
    simp
  | @skip b q g hb hg ih =>
    obtain ⟨fuel, rfl⟩ : ∃ k, fuel = k + 1 := ⟨fuel - 1, by have := hg.le; omega⟩
    have hlt : b * m.erasesize < m.size :=
      lt_of_le_of_lt (mul_le_mul_right _ (by have := hg.le; omega)) hsize
    rw [adjustLoop, if_pos (by omega), h.good_or_bad hlt, hb, h.blockSize, add_assoc, ← succ_mul]
    exact ih hsize (by omega)
  | @next b q g hb hg ih =>
    obtain ⟨fuel, rfl⟩ : ∃ k, fuel = k + 1 := ⟨fuel - 1, by have := hg.le; omega⟩
    have hlt : b * m.erasesize < m.size :=
      lt_of_le_of_lt (mul_le_mul_right _ (by have := hg.le; omega)) hsize
    rw [adjustLoop, if_pos (by omega), h.good_or_bad hlt, hb, h.blockSize, add_assoc, ← succ_mul]
    rw [Nat.succ_mul q, Nat.add_sub_cancel]
    simp only [Bool.false_eq_true, if_false, Int.lt_irrefl, gt_iff_lt,
      if_neg (by omega : ¬ q * m.erasesize + m.erasesize = 0)]
    exact ih hsize (by omega)

theorem nandAdjustOffset_spec (hoff : off < m.size) (ha : At m 0 off a) :
    nandAdjustOffset d base (base + m.size) off = .ok a := by
  have hpos := m.erasesize_pos
  have hbelow := h.below
  obtain ⟨k, hk⟩ := h.aligned
  obtain ⟨g, hg, rfl, hlt⟩ := ha
  rw [Nat.zero_mod, Nat.zero_div, zero_add] at hg
  rw [Nat.zero_mod, zero_add] at hlt ⊢
  have hstart : base % 2 ^ 32 / m.erasesize * m.erasesize = base := by
    rw [Nat.mod_eq_of_lt (by omega), Nat.div_mul_cancel h.aligned]
  have hstop : (base + off) % 2 ^ 32 / m.erasesize * m.erasesize =
      base + off / m.erasesize * m.erasesize := by
    rw [mod_eq_of_lt (by omega), hk, mul_add_div hpos, add_mul, mul_comm k]
  have hboffs : (base + off) % m.erasesize = off % m.erasesize := by rw [hk, mul_add_mod]
  have hle := div_mul_le_self off m.erasesize
  have hleft : (2 ^ 64 + (base + off / m.erasesize * m.erasesize) - base) % 2 ^ 64 =
      off / m.erasesize * m.erasesize := by
    omega
  have hfuel : g < 0 + (base + m.size - base) := by
    have := Nat.le_mul_of_pos_right g hpos
    omega
  have hloop := adjustLoop_spec h hg (lt_of_le_of_lt (le_add_right _ _) hlt) hfuel
  rw [zero_mul, add_zero] at hloop
  rw [nandAdjustOffset]
  simp only [h.blockSize, hstart, hstop, hboffs, hleft, if_pos (by omega : base + m.size ≠ 0),
    hloop]
  simp only [ne_eq, not_true_eq_false, if_false, Except.ok.injEq]
  omega

end

/-! ## The read -/

variable {D : Mem}

theorem map_range'_congr {g : Mem} (h : ∀ i < n, g i = D (lo + i)) :
    (range' 0 n).map g = (range' lo n).map D := by
  rw [← add_zero lo, ← map_add_range', map_map]
  refine map_congr_left fun i hi => ?_
  obtain ⟨j, hj, rfl⟩ := mem_range'.mp hi
  exact h _ (by omega)

theorem readPages_spec (h : Agrees d m base f) {b fuel page length lo : Nat} {acc : Bytes}
    (hgood : m.bad b = false)
    (hsize : b * m.erasesize < m.size) (hfuel : page + fuel = m.erasesize / d.pageSize)
    (hlen : 0 < length) (hD : ∀ i < length, page * d.pageSize + i < m.erasesize →
      f (b * m.erasesize + (page * d.pageSize + i)) = D (lo + i)) :
    readPages d (base / m.erasesize + b) fuel page 0 length acc =
    .ok (0, length - min (fuel * d.pageSize) length,
        acc ++ (List.range' lo (min (fuel * d.pageSize) length)).map D) := by
  have hpos := d.pageSize_pos
  have hblock := Nat.div_mul_cancel (h.blockSize ▸ d.pageSize_dvd)
  induction fuel generalizing page length lo acc with
  | zero => simp [readPages]
  | succ fuel ih =>
    have hpage : (page + 1 + fuel) * d.pageSize = m.erasesize := by rw [← hblock, ← hfuel]; ring
    have hin : (page + 1) * d.pageSize ≤ m.erasesize := by
      rw [← hpage]
      exact Nat.mul_le_mul_right _ (Nat.le_add_right _ _)
    rw [Nat.succ_mul] at hin
    have haddr : (base / m.erasesize + b) * (m.erasesize / d.pageSize) + page =
        (base + (b * m.erasesize + page * d.pageSize)) / d.pageSize := by
      rw [show base + (b * m.erasesize + page * d.pageSize) =
          ((base / m.erasesize + b) * (m.erasesize / d.pageSize) + page) * d.pageSize by
        rw [add_mul, mul_assoc, hblock, add_mul, Nat.div_mul_cancel h.aligned, add_assoc],
        Nat.mul_div_cancel _ hpos]
    have hend := m.block_end hsize
    rw [Nat.mul_mod_left, Nat.sub_zero] at hend
    obtain ⟨bytes, hread, hbytes⟩ := h.page (b * m.erasesize + page * d.pageSize)
      (Nat.dvd_add (Nat.dvd_mul_left_of_dvd (h.blockSize ▸ d.pageSize_dvd) b) (dvd_mul_left _ _))
      (by omega) (by rwa [add_comm, Nat.add_mul_div_right _ _ m.erasesize_pos,
      Nat.div_eq_of_lt (by omega), zero_add])
    have hacc :
        ∀ n ≤ d.pageSize, n ≤ length → (List.range' 0 n).map bytes = (List.range' lo n).map D := by
      refine fun n hpage hlen => map_range'_congr fun i hi => ?_
      rw [hbytes i (by omega), add_assoc]
      exact hD i (by omega) (by omega)
    rw [readPages, h.blockSize, haddr, hread]
    simp only [ne_eq, not_true_eq_false, false_or, Nat.sub_zero]
    by_cases hlast : length ≤ d.pageSize
    · have hn : (if length < d.pageSize then min d.pageSize length else d.pageSize) = length := by
        split_ifs <;> omega
      have hmin : min ((fuel + 1) * d.pageSize) length = length := by
        rw [Nat.succ_mul]
        omega
      rw [hn, hmin, Nat.sub_self, if_pos rfl, hacc length hlast le_rfl]
    · have hn :
          (if length < d.pageSize then min d.pageSize length else d.pageSize) = d.pageSize := by
        split_ifs <;> omega
      have hmin : min ((fuel + 1) * d.pageSize) length =
          d.pageSize + min (fuel * d.pageSize) (length - d.pageSize) := by
        rw [Nat.succ_mul]
        omega
      have hD' : ∀ i < length - d.pageSize, (page + 1) * d.pageSize + i < m.erasesize →
          f (b * m.erasesize + ((page + 1) * d.pageSize + i)) = D (lo + d.pageSize + i) := by
        intro i hi hblk
        rw [Nat.succ_mul, add_assoc] at hblk ⊢
        rw [add_assoc lo]
        exact hD (d.pageSize + i) (by omega) hblk
      rw [hn, if_neg (by omega), hacc _ le_rfl (by omega), ih (by omega) (by omega) hD', hmin,
        ← range'_append_1, map_append, append_assoc, Nat.sub_sub]

/-- The loop of `nand_read` from byte `page * pageSize` of block `b` on: the blocks that it reads
are those in which the bytes were stored. -/
theorem nandReadLoop_spec (h : Agrees d m base f) {b q g fuel page length lo : Nat} {acc : Bytes}
    (hg : NthGood m.bad b q g) (hsize : g * m.erasesize < m.size) (hfuel : g + 1 < b + fuel)
    (hpage : page * d.pageSize < m.erasesize) (hlen : 0 < length)
    (hq : q = (page * d.pageSize + length - 1) / m.erasesize)
    (hD : ∀ i < length, ∀ g, NthGood m.bad b ((page * d.pageSize + i) / m.erasesize) g →
      f (g * m.erasesize + (page * d.pageSize + i) % m.erasesize) = D (lo + i)) :
    nandReadLoop d fuel (base / m.erasesize + b) (base / m.erasesize + b + q) page 0 length acc =
      some (0, acc ++ (List.range' lo length).map D) := by
  have hpos := m.erasesize_pos
  have hblock := Nat.div_mul_cancel (h.blockSize ▸ d.pageSize_dvd)
  have hblocks : d.size / m.erasesize < 2 ^ 32 := h.blockSize ▸ d.blocks_lt
  -- the first block that is read, up to its end or to the end of the range
  have hpages : ∀ {b page length lo : Nat} {acc : Bytes}, page * d.pageSize < m.erasesize →
      0 < length → m.bad b = false → b * m.erasesize < m.size →
      (∀ i < length, ∀ g, NthGood m.bad b ((page * d.pageSize + i) / m.erasesize) g →
        f (g * m.erasesize + (page * d.pageSize + i) % m.erasesize) = D (lo + i)) →
      readPages d (base / m.erasesize + b) (m.erasesize / d.pageSize - page) page 0 length acc =
        .ok (0, length - min (m.erasesize - page * d.pageSize) length,
          acc ++ (range' lo (min (m.erasesize - page * d.pageSize) length)).map D) := by
    intro b page length lo acc hpage hlen hb hsize hD
    have hlt := Nat.lt_of_mul_lt_mul_right (Nat.lt_of_lt_of_eq hpage hblock.symm)
    rw [readPages_spec h hb hsize (Nat.add_sub_cancel' hlt.le) hlen, Nat.sub_mul, hblock]
    intro i hi hin
    have hhere : NthGood m.bad b ((page * d.pageSize + i) / m.erasesize) b := by
      rw [div_eq_of_lt hin]
      exact .here hb
    have := hD i hi b hhere
    rwa [mod_eq_of_lt hin] at this
  induction hg generalizing fuel page length lo acc with
  | @here b hb =>
    obtain ⟨fuel, rfl⟩ : ∃ k, fuel = k + 2 := ⟨fuel - 2, by omega⟩
    have hlast : page * d.pageSize + length ≤ m.erasesize := by
      have := (div_eq_zero_iff_lt hpos).mp hq.symm
      omega
    have hblk := h.block_lt hsize
    rw [nandReadLoop, if_pos (le_add_right _ _), h.bad b hsize, hb]
    simp only [Bool.false_eq_true, if_false, h.blockSize]
    rw [if_neg (by decide), if_neg (by decide), hpages hpage hlen hb hsize hD,
      min_eq_right (by omega : length ≤ m.erasesize - page * d.pageSize)]
    simp only []
    rw [mod_eq_of_lt (by omega), nandReadLoop, if_neg (by omega)]
  | @skip b q g hb hg ih =>
    have hle := hg.le
    obtain ⟨fuel, rfl⟩ : ∃ k, fuel = k + 1 := ⟨fuel - 1, by omega⟩
    have hlt : ∀ x ≤ g, x * m.erasesize < m.size := fun x hx =>
      lt_of_le_of_lt (mul_le_mul_right _ hx) hsize
    have hnext := h.block_lt (hlt _ (by omega))
    rw [nandReadLoop, if_pos (le_add_right _ _), h.bad b (hlt b (by omega)), hb]
    simp only [if_true, h.blockSize]
    rw [mod_eq_of_lt (by omega), mod_eq_of_lt (by omega), if_neg (by decide), if_pos (by omega)]
    rw [show base / m.erasesize + b + q + 1 = base / m.erasesize + (b + 1) + q by omega]
    exact ih hsize (by omega) hpage hlen hq fun i hi g hg => hD i hi g (.skip hb hg)
  | @next b q g hb hg ih =>
    have hle := hg.le
    obtain ⟨fuel, rfl⟩ : ∃ k, fuel = k + 1 := ⟨fuel - 1, by omega⟩
    have hlt : b * m.erasesize < m.size := lt_of_le_of_lt (mul_le_mul_right _ (by omega)) hsize
    have hblk := h.block_lt hlt
    have hmore : m.erasesize < page * d.pageSize + length := by
      have := div_mul_le_self (page * d.pageSize + length - 1) m.erasesize
      rw [← hq, succ_mul] at this
      omega
    rw [nandReadLoop, if_pos (le_add_right _ _), h.bad b hlt, hb]
    simp only [Bool.false_eq_true, if_false, h.blockSize]
    rw [if_neg (by decide), if_neg (by decide), hpages hpage hlen hb hlt hD,
      min_eq_left (by omega : m.erasesize - page * d.pageSize ≤ length)]
    simp only []
    rw [mod_eq_of_lt (by omega), show base / m.erasesize + b + (q + 1) =
      base / m.erasesize + (b + 1) + q by omega, add_assoc (base / m.erasesize) b 1]
    have hq' :
        q = (0 * d.pageSize + (length - (m.erasesize - page * d.pageSize)) - 1) / m.erasesize := by
      rw [show page * d.pageSize + length - 1 =
        0 * d.pageSize + (length - (m.erasesize - page * d.pageSize)) - 1 + m.erasesize by omega,
        add_div_right _ hpos] at hq
      omega
    have hD' : ∀ i < length - (m.erasesize - page * d.pageSize), ∀ g,
        NthGood m.bad (b + 1) ((0 * d.pageSize + i) / m.erasesize) g →
        f (g * m.erasesize + (0 * d.pageSize + i) % m.erasesize) =
        D (lo + (m.erasesize - page * d.pageSize) + i) := by
      intro i hi g hg
      rw [zero_mul, zero_add] at hg ⊢
      have hsum : page * d.pageSize + (m.erasesize - page * d.pageSize + i) = i + m.erasesize := by
        omega
      have := hD (m.erasesize - page * d.pageSize + i) (by omega) g (by
        rw [hsum, add_div_right _ hpos]
        exact .next hb hg)
      rwa [hsum, add_mod_right, ← add_assoc] at this
    rw [ih hsize (by omega) (by omega) (by omega) hq' hD', append_assoc, ← map_append,
      range'_append_1, Nat.add_sub_cancel' (by omega)]

theorem readPages_zero {block fuel page start : Nat} {acc : Bytes} :
    (∃ start', readPages d block fuel page start 0 acc = .ok (start', 0, acc)) ∨
      ∃ e, readPages d block fuel page start 0 acc = .error (e, acc) := by
  cases fuel with
  | zero => exact .inl ⟨start, rfl⟩
  | succ fuel =>
    rw [readPages]
    cases d.mtdReadPage (block * (d.blockSize / d.pageSize) + page) with
    | error e => exact .inr ⟨e, rfl⟩
    | ok bytes =>
      refine .inl ⟨0, ?_⟩
      simp [d.pageSize_pos]

/-- A read of no bytes ends with the first block that is not bad. -/
theorem nandReadLoop_zero {endBlock : Nat} (hlt : block < d.size / d.blockSize)
    (hle : endBlock ≤ block) (hfuel : d.size / d.blockSize + 1 < block + fuel) :
    ∃ ret, nandReadLoop d fuel block endBlock page start 0 acc = some (ret, acc) := by
  have hblocks : d.size / d.blockSize < 2 ^ 32 := d.blocks_lt
  induction fuel generalizing block endBlock page start with
  | zero => omega
  | succ fuel ih =>
    rw [nandReadLoop]
    by_cases hloop : block ≤ endBlock
    · rw [if_pos hloop]
      by_cases hneg : d.mtdBlockIsBad block < 0
      · exact ⟨_, if_pos hneg⟩
      have hnext : (block + 1) % 2 ^ 32 = block + 1 := mod_eq_of_lt (by omega)
      have hend : (endBlock + 1) % 2 ^ 32 = endBlock + 1 := mod_eq_of_lt (by omega)
      simp only [if_neg hneg, hnext, hend]
      split_ifs with hbad hmax
      · exact ih hmax.1 (by omega) (by omega)
      · exact ⟨_, rfl⟩
      · obtain ⟨start', h⟩ | ⟨e, h⟩ :=
          @readPages_zero d block (d.blockSize / d.pageSize - page) page start acc
        · obtain ⟨fuel, rfl⟩ : ∃ k, fuel = k + 1 := ⟨fuel - 1, by omega⟩
          rw [h]
          exact ⟨0, if_neg (by omega)⟩
        · rw [h]
          exact ⟨e, rfl⟩
    · exact ⟨0, if_neg hloop⟩

theorem nandRead_zero (hscratch : d.pageSize ≤ d.scratchSize) (hpos : 0 < a) (hlt : a < 2 ^ 32)
    (hin : a / d.blockSize < d.size / d.blockSize) : ∃ ret, nandRead d a 0 = some (ret, []) := by
  have hwrap : (2 ^ 64 + a + 0 - 1) % 2 ^ 64 = a - 1 := by omega
  rw [nandRead, if_neg (by omega), mod_eq_of_lt hlt, hwrap]
  refine nandReadLoop_zero hin ?_ (lt_of_lt_of_le (Nat.lt_succ_self _) (Nat.le_add_left _ _))
  exact (Nat.mod_le _ _).trans (Nat.div_le_div_right (Nat.sub_le _ _))

theorem nandRead_spec (h : Agrees d m base f) (hf : Stored m f data n)
    (hpage : d.pageSize ∣ off) (hlen : 0 < len) (hn : off + len ≤ n) (ha : At m 0 off a) :
    nandRead d (a + base) len = some (0, (List.range' off len).map data) := by
  have hpos := m.erasesize_pos
  have hbelow := h.below
  have hdvd : d.pageSize ∣ m.erasesize := h.blockSize ▸ d.pageSize_dvd
  obtain ⟨aₗ, ⟨gₗ, hgₗ, haₗ, hltₗ⟩, -⟩ := hf (off + len - 1) (by omega)
  obtain ⟨g, hg, rfl, hlt⟩ := ha
  rw [Nat.zero_mod, zero_add, Nat.zero_div] at hg hgₗ
  rw [Nat.zero_mod, zero_add] at hlt haₗ ⊢
  have hmod := Nat.mod_lt off hpos
  have hone : 1 ≤ len := hlen
  have hoff : off % m.erasesize + m.erasesize * (off / m.erasesize) = off := Nat.mod_add_div _ _
  have hpageOff := Nat.div_mul_cancel ((Nat.dvd_mod_iff hdvd).mpr hpage)
  -- the last byte lies as many good blocks after `g` as the read crosses block ends
  have hquot :
      ∀ i, (off + i) / m.erasesize = off / m.erasesize + (off % m.erasesize + i) / m.erasesize := by
    intro i
    rw [show off + i = off % m.erasesize + i + m.erasesize * (off / m.erasesize) by omega,
      Nat.add_mul_div_left _ _ hpos, add_comm]
  have hlast : NthGood m.bad g ((off % m.erasesize + len - 1) / m.erasesize) gₗ := by
    have := hquot (len - 1)
    rw [← Nat.add_sub_assoc hone, ← Nat.add_sub_assoc hone] at this
    rw [this] at hgₗ
    exact hg.split hgₗ
  have hsizeₗ : gₗ * m.erasesize < m.size := by omega
  have hgle := hlast.le
  have hblocks := h.block_lt hsizeₗ
  have hblocks_lt : d.size / m.erasesize < 2 ^ 32 := h.blockSize ▸ d.blocks_lt
  have hdiv : ∀ i, (g * m.erasesize + off % m.erasesize + base + i) / m.erasesize =
      base / m.erasesize + g + (off % m.erasesize + i) / m.erasesize := by
    intro i
    rw [show g * m.erasesize + off % m.erasesize + base + i =
        off % m.erasesize + i + (base / m.erasesize + g) * m.erasesize by
      rw [add_mul, Nat.div_mul_cancel h.aligned]
      omega, Nat.add_mul_div_right _ _ hpos, add_comm]
  have hstart : (g * m.erasesize + off % m.erasesize + base) % 2 ^ 32 =
      g * m.erasesize + off % m.erasesize + base :=
    Nat.mod_eq_of_lt (by omega)
  have hblock :
      (g * m.erasesize + off % m.erasesize + base) / m.erasesize = base / m.erasesize + g := by
    have := hdiv 0
    rwa [add_zero, add_zero, Nat.div_eq_of_lt hmod, add_zero] at this
  have hwithin :
      (g * m.erasesize + off % m.erasesize + base) % m.erasesize = off % m.erasesize := by
    obtain ⟨k, hk⟩ := h.aligned
    rw [hk, Nat.add_mul_mod_self_left, add_comm, Nat.add_mul_mod_self_right, Nat.mod_mod]
  have hzero : (g * m.erasesize + off % m.erasesize + base) % d.pageSize = 0 := by
    refine Nat.mod_eq_zero_of_dvd (Nat.dvd_add (Nat.dvd_add ?_ ?_) (hdvd.trans h.aligned))
    · exact Nat.dvd_mul_left_of_dvd hdvd g
    · exact (Nat.dvd_mod_iff hdvd).mpr hpage
  have hend : (2 ^ 64 + (g * m.erasesize + off % m.erasesize + base) + len - 1) %
      2 ^ 64 / m.erasesize % 2 ^ 32 =
      base / m.erasesize + g + (off % m.erasesize + len - 1) / m.erasesize := by
    have := hdiv (len - 1)
    rw [← Nat.add_sub_assoc hone, ← Nat.add_sub_assoc hone] at this
    have hoffₗ : off + len - 1 < m.size := by
      have hle : off + len - 1 ≤ aₗ := by
        have := (show At m 0 (off + len - 1)
          aₗ from ⟨gₗ, by simpa using hgₗ, by simpa using haₗ, hltₗ⟩).le
        omega
      omega
    rw [show (2 ^ 64 + (g * m.erasesize + off % m.erasesize + base) + len - 1) % 2 ^ 64 = g *
      m.erasesize + off % m.erasesize + base + len - 1 by omega, this, Nat.mod_eq_of_lt (by omega)]
  have hD : ∀ i < len, ∀ x, NthGood m.bad g ((off % m.erasesize + i) / m.erasesize) x →
      f (x * m.erasesize + (off % m.erasesize + i) % m.erasesize) = data (off + i) := by
    intro i hi x hx
    obtain ⟨a, ⟨y, hy, rfl, -⟩, hdata⟩ := hf (off + i) (by omega)
    rw [Nat.zero_mod, zero_add, Nat.zero_div, hquot i] at hy
    rw [(hg.split hy).unique hx] at hdata
    rw [← hdata, Nat.zero_mod, zero_add, show off + i =
      off % m.erasesize + i + m.erasesize * (off / m.erasesize) by omega, Nat.add_mul_mod_self_left]
  rw [nandRead]
  simp only [hstart, hzero, h.blockSize, hblock, hwithin, hend]
  rw [if_neg (by have := h.scratch; omega)]
  rw [← hpageOff] at hD
  have hfuel : gₗ + 1 < g + (d.size / m.erasesize + 2) := by
    have := Nat.zero_le (base / m.erasesize)
    omega
  exact nandReadLoop_spec h hlast hsizeₗ hfuel (by omega) hlen (by rw [hpageOff]) hD

/-- What BL2 reads of the FIP partition at a page-aligned logical offset is that range of the image
that U-Boot has written there. -/
theorem bl2_reads_written_image {io : Io} {data : Mem} {n : Nat} {verify : Bool} {f₀ : Mem}
    {off len : Nat} (h : Agrees d m base f)
    (hupdate : mtdUpdateGeneric m io data n verify f₀ = .ok f)
    (hpage : d.pageSize ∣ off) (hlen : off + len ≤ n) (hread : 0 < len ∨ off < n ∧ 0 < base + off) :
    nandReadRange d base m.size ((base + off) / d.pageSize) len =
      some ((List.range' off len).map data) := by
  have hf := mtdUpdateGeneric_stored hupdate
  have hdvd : d.pageSize ∣ base :=
    (h.blockSize ▸ d.pageSize_dvd : d.pageSize ∣ m.erasesize).trans h.aligned
  obtain ⟨a, ha, -⟩ := hf off (by omega)
  have hle := ha.le
  have hlt : a < m.size := by
    obtain ⟨_, _, _, hlt⟩ := ha
    exact hlt
  rw [nandReadRange, Nat.div_mul_cancel (Nat.dvd_add hdvd hpage), Nat.add_sub_cancel_left,
    if_pos (by omega), nandAdjustOffset_spec h (by omega) ha]
  rcases Nat.eq_zero_or_pos len with rfl | hpos
  · have hbelow := h.below
    have hblock := h.block_lt (lt_of_le_of_lt (div_mul_le_self a m.erasesize) hlt)
    obtain ⟨k, hk⟩ := h.aligned
    obtain ⟨ret, hret⟩ := nandRead_zero (a := a + base) h.scratch (by omega) (by omega) (by
      rw [h.blockSize, hk, Nat.add_mul_div_left _ _ m.erasesize_pos, add_comm]
      rwa [hk, Nat.mul_div_cancel_left _ m.erasesize_pos] at hblock)
    simp [hret]
  · simp [nandRead_spec h hf hpage hpos hlen ha]

/-- The partition begins at `base`.  The driver has no range check. -/
def eightBlocks (base : Nat) (bad : List Nat) (f : Mem) : NandDevice where
  size := 1024
  blockSizeShift := 7
  pageSizeShift := 6
  mtdBlockIsBad b := if b ∈ bad.map (base / 128 + ·) then 1 else 0
  mtdReadPage p := .ok fun i => f (p * 64 + i - base)
  scratchSize := 64
  page_le_block := show 5 < 7 by decide
  blocks_lt := by decide

theorem eightBlocks_agrees {bad : List Nat} (hbase : 128 ∣ base) (hle : base ≤ 512) (f : Mem) :
    Agrees (eightBlocks base bad f) (fourBlocks bad) base f where
  blockSize := rfl
  aligned := hbase
  below := show base + 512 ≤ 2 ^ 32 by omega
  inside := show base + 512 ≤ 1024 by omega
  bad b _ := by simp [eightBlocks, fourBlocks, MtdInfo.bad, MtdInfo.erasesize]
  page a hdvd ha _ := by
    obtain ⟨k, rfl⟩ := hdvd
    refine ⟨_, rfl, fun i hi => ?_⟩
    have hsize : (eightBlocks base bad f).pageSize = 64 := rfl
    rw [hsize]
    exact congrArg f (by omega)
  scratch := show 64 ≤ 64 from le_refl 64

theorem fourBlocks_updates (bad : List Nat)
    (h : (mtdUpdateGeneric (fourBlocks bad) noErrors count 200 true fun _ => 0).toBool = true) :
    ∃ f, mtdUpdateGeneric (fourBlocks bad) noErrors count 200 true (fun _ => 0) = .ok f := by
  cases hf : mtdUpdateGeneric (fourBlocks bad) noErrors count 200 true (fun _ => 0) with
  | error e => rw [hf] at h; cases h
  | ok f => exact ⟨f, rfl⟩

theorem bl2_reads_over_block_end :
    ∃ f, mtdUpdateGeneric (fourBlocks [0]) noErrors count 200 true (fun _ => 0) = .ok f ∧
      nandReadRange (eightBlocks 128 [0] f) 128 512 ((128 + 64) / 64) 100 =
      some ((range' 64 100).map count) := by
  obtain ⟨f, hf⟩ := fourBlocks_updates [0] (by decide +kernel)
  exact ⟨f, hf, bl2_reads_written_image (eightBlocks_agrees (by decide) (by decide) f) hf ⟨1, rfl⟩
    (by decide) (.inl (by decide))⟩

/-- An empty read at chip address 0 counts its blocks up to `UINT_MAX`, and nothing stops it where
no block is bad. -/
theorem nandReadLoop_never_ends (f : Mem) (block page start fuel : Nat) :
    nandReadLoop (eightBlocks 0 [] f) fuel (block % 2 ^ 32) (2 ^ 32 - 1) page start 0 [] =
    none := by
  induction fuel generalizing block page start with
  | zero => rfl
  | succ fuel ih =>
    have hgood : (eightBlocks 0 [] f).mtdBlockIsBad (block % 2 ^ 32) = 0 := by simp [eightBlocks]
    have hpages (k : Nat) :
        ∃ start', readPages (eightBlocks 0 [] f) (block % 2 ^ 32) k page start 0 [] =
        .ok (start', 0, []) := by
      cases k with
      | zero => exact ⟨start, rfl⟩
      | succ k => exact ⟨0, by simp [readPages, eightBlocks, NandDevice.pageSize]⟩
    obtain ⟨start', hread⟩ :=
      hpages ((eightBlocks 0 [] f).blockSize / (eightBlocks 0 [] f).pageSize - page)
    rw [nandReadLoop, if_pos (by omega), hgood, if_neg (by decide), if_neg (by decide), hread]
    exact ih _ _ _

theorem bl2_empty_read_never_ends :
    ∃ f, mtdUpdateGeneric (fourBlocks []) noErrors count 200 true (fun _ => 0) = .ok f ∧
    Agrees (eightBlocks 0 [] f) (fourBlocks []) 0 f ∧
    nandReadRange (eightBlocks 0 [] f) 0 512 0 0 = none ∧
    ∀ fuel, nandReadLoop (eightBlocks 0 [] f) fuel 0 (2 ^ 32 - 1) 0 0 0 [] = none := by
  obtain ⟨f, hf⟩ := fourBlocks_updates [] (by decide +kernel)
  have hloop := nandReadLoop_never_ends f 0 0 0
  have hadjust : nandAdjustOffset (eightBlocks 0 [] f) 0 512 0 = .ok 0 := by
    simp [nandAdjustOffset, eightBlocks, NandDevice.blockSize, adjustLoop]
  refine ⟨f, hf, eightBlocks_agrees (by decide) (by decide) f, ?_, hloop⟩
  rw [nandReadRange]
  simp only [Nat.zero_mul, Nat.zero_add, Nat.sub_zero, hadjust]
  rw [if_pos (by decide)]
  have hend : (2 ^ 64 + 0 % 2 ^ 32 + 0 - 1) % 2 ^ 64 / (eightBlocks 0 [] f).blockSize % 2 ^ 32 =
      2 ^ 32 - 1 := by
    simp [eightBlocks, NandDevice.blockSize]
  rw [nandRead, if_neg (by simp [eightBlocks, NandDevice.pageSize]), hend, Nat.zero_mod,
    Nat.zero_div, Nat.zero_mod, Nat.zero_div, Nat.zero_mod]
  exact congrArg (Option.map Prod.snd) (hloop _)

end MtkBoot.Mtd
