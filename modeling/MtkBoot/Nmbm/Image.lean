import MtkBoot.Nmbm.Table

/-! The image of an info table: it passes the loader's checks, and its tables can be read back. -/

namespace MtkBoot.Nmbm

open MtkBoot.Lib List Nat

section Checksum

variable {data : Bytes}

section

variable (h : 16 ≤ data.length)
include h

theorem length_updateChecksum : (updateChecksum data).length = data.length := by
  unfold updateChecksum
  rw [length_splice (by rw [length_splice (by simpa using h)]; simpa using h),
    length_splice (by simpa using h)]

theorem field_updateChecksum {o len : Nat} (ho : o + len ≤ 12 ∨ 16 ≤ o) :
    field (updateChecksum data) o len = field data o len := by
  unfold updateChecksum
  have h1 : 12 + (leBytes 4 0).length ≤ data.length := by simpa using h
  rw [field_splice_outside (by rw [length_splice h1]; simpa using h) (by simpa using ho),
    field_splice_outside h1 (by simpa using ho)]

theorem le32_updateChecksum {o : Nat} (ho : o + 4 ≤ 12 ∨ 16 ≤ o) :
    le32 (updateChecksum data) o = le32 data o := by
  rw [le32, field_updateChecksum h ho, ← le32]

theorem zeroed_updateChecksum : splice ((updateChecksum data).take 16) 12 (leBytes 4 0) =
      (splice data 12 (leBytes 4 0)).take 16 := by
  have h1 : 12 + (leBytes 4 0).length ≤ data.length := by simpa using h
  have hlen : 16 ≤ (updateChecksum data).length := by rw [length_updateChecksum h]; exact h
  apply ext_getElem?
  intro i
  rw [splice_getElem? (by simp [hlen]), getElem?_take, getElem?_take, splice_getElem? h1]
  by_cases hi : i < 16
  · by_cases hlo : 12 ≤ i
    · simp [hi, hlo]
    · rw [if_pos hi, if_pos hi, if_neg (by omega), if_neg (by omega), updateChecksum,
        splice_getElem? (by rw [length_splice h1]; simpa using h), if_neg (by simp; omega),
        splice_getElem? h1, if_neg (by simp; omega)]
  · simp [hi]

end

theorem checkHeader_updateChecksum {size : Nat} (hlo : 16 ≤ le32 data 8)
    (hlen : le32 data 8 ≤ data.length) (hsize : le32 data 8 ≤ size) :
    checkHeader (updateChecksum data) size := by
  have h : 16 ≤ data.length := by omega
  have h1 : 12 + (leBytes 4 0).length ≤ data.length := by simpa using h
  have hz : 12 + (leBytes 4 0).length ≤ (splice data 12 (leBytes 4 0)).length := by
    rw [length_splice h1]
    exact h1
  have hsz : le32 (splice data 12 (leBytes 4 0)) 8 = le32 data 8 := by
    rw [le32, field_splice_outside h1 (by simp), ← le32]
  have hsum : le32 (updateChecksum data) 12 =
      crc32 0 ((splice data 12 (leBytes 4 0)).take (le32 data 8)) := by
    rw [updateChecksum, le32, field_splice_inside (by simpa using hz) le_rfl (by simp),
      Nat.sub_self, hsz]
    have hself :=
      field_self (leBytes 4 (crc32 0 ((splice data 12 (leBytes 4 0)).take (le32 data 8))))
    rw [length_leBytes] at hself
    rw [hself, leNat_leBytes]
    exact mod_eq_of_lt (crc32_lt (by decide) _)
  have hbody : field (updateChecksum data) 16 (le32 data 8 - 16) =
      field (splice data 12 (leBytes 4 0)) 16 (le32 data 8 - 16) := by
    rw [field_updateChecksum h (.inr le_rfl), field_splice_outside h1 (by simp)]
  rw [checkHeader, le32_updateChecksum h (by omega), zeroed_updateChecksum h, hsum, hbody]
  simp only [decide_eq_true hsize, Bool.true_and, beq_iff_eq]
  split
  · rw [← crc32_append, field, ← take_add]
    congr 2
    omega
  · rw [show le32 data 8 = 16 by omega]

end Checksum

/-- The offsets in a header are those that `nmbm_init_structure` sets. -/
structure Layout (g : Geometry) (h : InfoHeader) : Prop where
  stateTableOff : h.stateTableOff = g.stateTableOff
  mappingTableOff : h.mappingTableOff = g.mappingTableOff

section Image

variable {g : Geometry} {h : InfoHeader} {state : Nat → BlockState} {mapping : Nat → Int}

theorem infoImage_parts (state : Nat → BlockState) (mapping : Nat → Int) (hlayout : Layout g h) :
    ∃ body : Bytes, infoImage g h state mapping = updateChecksum body ∧
      body.length = g.infoTableSize ∧ field body 0 32 = h.encode ∧
      field body g.stateTableOff g.stateTableSize = stateBytes state g.stateTableSize ∧
      field body g.mappingTableOff (4 * g.blockCount) = mappingBytes mapping g.blockCount := by
  have h1 := g.header_le
  have h2 := g.state_le
  have h3 := g.mapping_le
  have h4 := g.mapping_size
  refine ⟨_, rfl, ?_⟩
  rw [hlayout.stateTableOff, hlayout.mappingTableOff]
  generalize hblank : List.replicate g.infoTableSize (0xff : UInt8) = blank
  have hb : blank.length = g.infoTableSize := by rw [← hblank, length_replicate]
  have hfit1 : g.stateTableOff + (stateBytes state g.stateTableSize).length ≤ blank.length := by
    rw [length_stateBytes]
    omega
  generalize hs1 : splice blank g.stateTableOff (stateBytes state g.stateTableSize) = s1
  have hl1 : s1.length = g.infoTableSize := by rw [← hs1, length_splice hfit1, hb]
  have hfit2 : g.mappingTableOff + (mappingBytes mapping g.blockCount).length ≤ s1.length := by
    rw [length_mappingBytes]
    omega
  generalize hs2 : splice s1 g.mappingTableOff (mappingBytes mapping g.blockCount) = s2
  have hl2 : s2.length = g.infoTableSize := by rw [← hs2, length_splice hfit2, hl1]
  have hfit3 : 0 + h.encode.length ≤ s2.length := by rw [length_encode]; omega
  refine ⟨by rw [length_splice hfit3, hl2], ?_, ?_, ?_⟩
  · rw [field_splice_inside hfit3 le_rfl (by simp)]
    have := field_self h.encode
    rwa [length_encode] at this
  · rw [field_splice_outside hfit3 (by rw [length_encode]; omega), ← hs2, field_splice_outside hfit2
      (by omega), ← hs1, field_splice_inside hfit1 le_rfl (by simp), Nat.sub_self]
    have := field_self (stateBytes state g.stateTableSize)
    rwa [length_stateBytes] at this
  · rw [field_splice_outside hfit3 (by rw [length_encode]; omega), ← hs2,
      field_splice_inside hfit2 le_rfl (by simp), Nat.sub_self]
    have := field_self (mappingBytes mapping g.blockCount)
    rwa [length_mappingBytes] at this

section

variable (hlayout : Layout g h)
include hlayout

theorem length_infoImage : (infoImage g h state mapping).length = g.infoTableSize := by
  obtain ⟨body, himg, hlen, -⟩ := infoImage_parts state mapping hlayout
  have := g.header_le
  have := g.state_le
  have := g.mapping_le
  rw [himg, length_updateChecksum (by omega), hlen]

theorem le32_infoImage {i : Nat} (hi : i < 8) (hsum : i ≠ 3) :
    le32 (infoImage g h state mapping) (4 * i) =
      [h.magic, h.version, h.size, h.checksum, h.writeCount, h.stateTableOff, h.mappingTableOff,
        h.padding][i] % 2 ^ 32 := by
  obtain ⟨body, himg, hlen, hhead, -⟩ := infoImage_parts state mapping hlayout
  have := g.header_le
  have := g.state_le
  have := g.mapping_le
  have hfield : field body (4 * i) 4 = field h.encode (4 * i) 4 := by
    rw [← hhead]
    apply ext_getElem?
    intro j
    simp only [field_getElem?]
    split
    · rw [if_pos (by omega), zero_add]
    · rfl
  rw [himg, le32_updateChecksum (by omega) (by omega), le32, hfield, ← le32, InfoHeader.encode]
  exact le32_words hi

theorem checkHeader_infoImage (hsize : h.size = g.infoTableSize) :
    checkHeader (infoImage g h state mapping) g.infoTableSize := by
  obtain ⟨body, himg, hlen, hhead, -⟩ := infoImage_parts state mapping hlayout
  have := g.header_le
  have := g.state_le
  have := g.mapping_le
  have hword := @le32_infoImage g h state mapping hlayout 2 (by decide) (by decide)
  simp only [reduceMul, getElem_cons_succ, getElem_cons_zero, hsize] at hword
  rw [mod_eq_of_lt g.info_lt, himg, le32_updateChecksum (by omega) (by omega)] at hword
  rw [himg]
  exact checkHeader_updateChecksum (by omega) (by omega) (by omega)

theorem checkInfoTableHeader_infoImage (hmagic : h.magic = magicInfoTable)
    (hsize : h.size = g.infoTableSize) : checkInfoTableHeader g (infoImage g h state mapping) := by
  have h2 := g.state_le
  have h3 := g.mapping_le
  have h4 := g.info_lt
  have w (i : Nat) (hi : i < 8) (hsum : i ≠ 3) :=
    @le32_infoImage g h state mapping hlayout _ hi hsum
  have w0 := w 0 (by decide) (by decide)
  have w2 := w 2 (by decide) (by decide)
  have w5 := w 5 (by decide) (by decide)
  have w6 := w 6 (by decide) (by decide)
  simp only [reduceMul, getElem_cons_succ, getElem_cons_zero, hsize, hmagic,
    hlayout.stateTableOff, hlayout.mappingTableOff] at w0 w2 w5 w6
  rw [mod_eq_of_lt (by omega)] at w2 w5 w6
  simp only [checkInfoTableHeader, InfoHeader.decode, w0, w2, w5, w6]
  rw [subU32_of_le (by omega) (by omega), subU32_of_le (by omega) (by omega)]
  simp [magicInfoTable]
  omega

end

theorem infoImage_ne_nil : infoImage g h state mapping ≠ [] := by
  simp [infoImage, updateChecksum, splice, InfoHeader.encode, words, leBytes]

end Image

end MtkBoot.Nmbm
