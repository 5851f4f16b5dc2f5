import MtkBoot.Nmbm.Attach
import MtkBoot.Nmbm.PowerLoss

/-! The tables read back from an image are those it was made of, and a new mapping numbers the good
blocks in order. -/

namespace MtkBoot.Nmbm

open MtkBoot.Lib List

section Image

variable {s t : Sys} {data : Bytes} {state : Nat → BlockState} {off : Nat}

theorem stateAt_of_field {n ba : Nat} (h : field data off n = stateBytes state n)
    (hba : ba < 4 * n) : stateAt data off ba = state ba := by
  obtain ⟨j, r, hr, rfl⟩ : ∃ j r, r < 4 ∧ ba = 4 * j + r :=
    ⟨ba / 4, ba % 4, Nat.mod_lt _ (by decide), by omega⟩
  have hj : j < n := by omega
  have hcode (b : Nat) : (state b).code < 4 := by cases state b <;> decide
  have h0 := hcode (4 * j)
  have h1 := hcode (4 * j + 1)
  have h2 := hcode (4 * j + 2)
  have h3 := hcode (4 * j + 3)
  have hst : BlockState.ofCode (state (4 * j + r)).code = state (4 * j + r) := by
    cases state (4 * j + r) <;> rfl
  have hbyte := congrArg (·[j]?) h
  simp only [field_getElem?, if_pos hj, stateBytes, getElem?_map, getElem?_range hj,
    Option.map_some] at hbyte
  rw [stateAt, show (4 * j + r) / 4 = j by omega, show (4 * j +
    r) % 4 = r by omega, getD_eq_getElem?_getD, hbyte, Option.getD_some, UInt8.toNat_ofNat', ← hst]
  congr 1
  obtain rfl | rfl | rfl | rfl : r = 0 ∨ r = 1 ∨ r = 2 ∨ r = 3 := by omega
  · rw [add_zero]
    omega
  all_goals omega

theorem wordEntry_entryWord {e : Int} (h : -2 ^ 31 ≤ e) (h' : e < 2 ^ 31) :
    wordEntry (entryWord e) = e := by
  unfold wordEntry entryWord
  split <;> omega

theorem mappingAt_of_field {mapping : Nat → Int} {n lb : Nat}
    (h : field data off (4 * n) = mappingBytes mapping n)
    (hlb : lb < n) (hlo : -2 ^ 31 ≤ mapping lb) (hhi : mapping lb < 2 ^ 31) :
    mappingAt data off lb = mapping lb := by
  rw [mappingAt, le32, ← field_field (show 4 * lb + 4 ≤ 4 * n by omega), h, ← le32, mappingBytes,
    le32_words (by simpa using hlb), getElem_map, getElem_range,
    Nat.mod_eq_of_lt (by unfold entryWord; omega), wordEntry_entryWord hlo hhi]

/-- Whatever was in memory, the table that `nmbm_generate_info_table_cache` made of `s` is accepted
and gives back the block states and the mapping of `s`. -/
theorem generated_table_restores (hlayout : Layout s.ni.geo s.ni.infoTable)
    (hgeo : t.ni.geo = s.ni.geo)
    (hentry : ∀ lb < s.ni.geo.blockCount,
      -2 ^ 31 ≤ s.ni.blockMapping lb ∧ s.ni.blockMapping lb < 2 ^ 31)
    (hcache : t.ni.infoTableCache = (generateInfoTableCache s).2.ni.infoTableCache) :
    ValidImage t.ni.geo t.ni.infoTableCache ∧ ∀ b < t.ni.geo.blockCount,
      (takeTables t).ni.blockState b = s.ni.blockState b ∧
      (takeTables t).ni.blockMapping b = s.ni.blockMapping b := by
  refine ⟨hgeo ▸ hcache ▸ validImage_generate hlayout, fun b hb => ?_⟩
  rw [hgeo] at hb
  have h1 := s.ni.geo.header_le
  have h2 := s.ni.geo.state_le
  have h3 := s.ni.geo.mapping_le
  have h4 := s.ni.geo.info_lt
  have h5 := s.ni.geo.state_size
  have hl : Layout s.ni.geo (generateInfoTableCache s).2.ni.infoTable := ⟨hlayout.1, hlayout.2⟩
  obtain ⟨body, himg, hlen, -, hstate, hmapping⟩ :=
    infoImage_parts s.ni.blockState s.ni.blockMapping hl
  have hoff := @le32_infoImage _ _ s.ni.blockState s.ni.blockMapping hl 5 (by decide) (by decide)
  have hoff' := @le32_infoImage _ _ s.ni.blockState s.ni.blockMapping hl 6 (by decide) (by decide)
  simp only [getElem_cons_succ, getElem_cons_zero, hl.stateTableOff,
    hl.mappingTableOff] at hoff hoff'
  rw [Nat.mod_eq_of_lt (by omega)] at hoff hoff'
  rw [← field_updateChecksum (by omega) (.inr (by omega)), ← himg] at hstate hmapping
  have hba : b < 4 * s.ni.geo.stateTableSize := by omega
  obtain ⟨hlo, hhi⟩ := hentry b hb
  simp only [takeTables, hgeo, hcache, InfoHeader.decode, if_pos hb, if_pos hba]
  exact ⟨hoff ▸ stateAt_of_field hstate hba, hoff' ▸ mappingAt_of_field hmapping hb hlo hhi⟩

theorem generated_table_restores_small :
    (takeTables (generateInfoTableCache smallTables).2).ni.blockState 9 = .bad :=
  ((generated_table_restores (s := smallTables) ⟨by rfl, by rfl⟩ (by rfl) (by decide) rfl).2 9
    (by decide)).1

end Image

def goodBlocks (state : Nat → BlockState) (pb n : Nat) : List Int :=
  ((range' pb n).filter (state · ≠ .bad)).map (↑)

theorem mapGood_eq (state : Nat → BlockState) (n : Nat) : ∀ (pb lb : Nat) (mapping : Nat → Int),
    mapGood state n pb lb mapping = (lb + (goodBlocks state pb n).length, fun b =>
      if b < lb then mapping b else (goodBlocks state pb n).getD (b - lb) (mapping b)) := by
  induction n with
  | zero => simp [mapGood, goodBlocks]
  | succ n ih =>
    intro pb lb mapping
    rw [mapGood]
    by_cases hbad : state pb = .bad
    · rw [if_pos hbad, ih]
      simp [goodBlocks, range'_succ, hbad]
    · have hcons : goodBlocks state pb (n + 1) = ↑pb :: goodBlocks state (pb + 1) n := by
        simp [goodBlocks, range'_succ, hbad]
      rw [if_neg hbad, ih, hcons, length_cons, Prod.mk.injEq]
      refine ⟨by omega, funext fun b => ?_⟩
      rcases lt_trichotomy b lb with hlt | rfl | hgt
      · rw [if_pos (by omega), if_pos hlt, if_neg hlt.ne]
      · simp
      · rw [if_neg (by omega), if_neg hgt.ne', if_neg hgt.not_gt,
          show b - lb = b - (lb + 1) + 1 by omega, getD_cons_succ]

/-- A mapping built anew numbers the blocks below the management area that are not bad, in order and
without a gap. -/
theorem buildMappingTable_numbers_good (s : Sys) :
    (buildMappingTable s).ni.dataBlockCount =
      (goodBlocks s.ni.blockState 0 s.ni.mgmtStartBa).length ∧
      ∀ lb < s.ni.geo.blockCount, (buildMappingTable s).ni.blockMapping lb =
        (goodBlocks s.ni.blockState 0 s.ni.mgmtStartBa).getD lb (-1) := by
  simp only [buildMappingTable, mapGood_eq, zero_add, Nat.not_lt_zero, if_false, Nat.sub_zero,
    true_and]
  intro lb hlb
  split
  · rw [getD_eq_default _ _ (by omega)]
  · rw [getD_eq_getElem _ _ (by omega), getD_eq_getElem]

end MtkBoot.Nmbm
