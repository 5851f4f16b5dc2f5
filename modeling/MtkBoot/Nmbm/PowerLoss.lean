import MtkBoot.Nmbm.Cursor

/-! Power loss during an update of the info tables.  Wherever it is cut off, one complete table is
on the flash: the old main table, then the backup table, then the temporary one. -/

namespace MtkBoot.Nmbm

open MtkBoot.Lib

structure ValidImage (g : Geometry) (image : Bytes) : Prop where
  length : image.length = g.infoTableSize
  table : checkInfoTableHeader g image = true
  checksum : checkHeader image g.infoTableSize = true

/-- The flash holds `image` in an ascending row of the blocks from `p` to `e`. -/
def OnFlash (g : Geometry) (flash : Mem) (p e : Nat) (image : Bytes) : Prop :=
  ∃ state, Laid g.erasesize state flash p e image

def Survives (g : Geometry) (old new : Bytes) (flash : Mem) : Prop :=
  ∃ image, (image = old ∨ image = new) ∧ ValidImage g image ∧ ∃ p e, OnFlash g flash p e image

/-- Every erase and program between two states leaves a flash with `P`. -/
def Kept (P : Mem → Prop) (s s' : Sys) : Prop :=
  ∃ new, s'.flashes = new ++ s.flashes ∧ ∀ flash ∈ new, P flash

namespace Kept

variable {P : Mem → Prop} {s s' s'' : Sys}

theorem of_eq (h : s'.flashes = s.flashes) : Kept P s s' := ⟨[], h, by simp⟩

theorem trans (h : Kept P s s') (h' : Kept P s' s'') : Kept P s s'' := by
  obtain ⟨new, hnew, hP⟩ := h
  obtain ⟨new', hnew', hP'⟩ := h'
  refine ⟨new' ++ new, by rw [hnew', hnew, List.append_assoc], fun flash hf => ?_⟩
  rcases List.mem_append.mp hf with hf | hf
  · exact hP' flash hf
  · exact hP flash hf

theorem of_frame {B : Set Nat} {p e : Nat} {image : Bytes} (hframe : Frame B s s')
    (himage : OnFlash s.ni.geo s.chip.data p e image) (hB : ∀ b, p ≤ b → b < e → b ∉ B)
    (hP : ∀ flash, OnFlash s.ni.geo flash p e image → P flash) : Kept P s s' := by
  obtain ⟨new, hnew, hagree⟩ := hframe.touch.flashes
  obtain ⟨state, hlaid⟩ := himage
  refine ⟨new, hnew, fun flash hf => hP flash ⟨state, ?_⟩⟩
  exact hlaid.congr s.ni.geo.erasesize_pos (fun _ _ _ => rfl) fun i h1 h2 => hagree flash hf i
    (hB _ h1 h2)

end Kept

section PowerLoss

variable {s s' : Sys} {ok force : Bool} {P : Mem → Prop}

theorem TableAt.onFlash {st e : Nat} {data : Bytes} (h : TableAt s st e data) :
    OnFlash s.ni.geo s.chip.data st e data := ⟨_, h.laid⟩

/-- Rescuing the main table with an image in the backup table: the image stays on the flash. -/
theorem rescueMainInfoTable_kept {e : Nat} (h : rescueMainInfoTable s = (ok, s'))
    (hne : s.ni.infoTableCache ≠ [])
    (htable : TableAt s s.ni.backupTableBa e s.ni.infoTableCache) (he : e ≤ s.ni.mappingBlocksBa)
    (hP : ∀ flash p e, OnFlash s.ni.geo flash p e s.ni.infoTableCache → P flash) : Kept P s s' := by
  rw [rescueMainInfoTable] at h
  rcases hspare : reserveSpare s.ni s.ni.mappingBlocksBa with _ | ba
  · rw [hspare] at h
    cases h
    exact .of_eq rfl
  rw [hspare] at h
  simp only at h
  -- the temporary table goes to blocks above the backup table
  rcases hw : writeInfoTableDown (ba - s.ni.mappingBlocksBa) ba s with ⟨res, t⟩
  obtain ⟨hframe, hres⟩ :=
    writeInfoTableDown_spec hw (Nat.add_sub_of_le (tryReserveBlocks_le hspare)) hne
  have ht : Kept P s t := .of_frame hframe htable.onFlash
    (fun b _ hb hmem => by have := hmem.1; omega) fun flash => hP flash _ _
  rw [hw] at h
  cases res with
  | none =>
    cases h
    exact ht.trans (.of_eq rfl)
  | some table =>
    obtain ⟨tmpStart, tmpEnd⟩ := table
    obtain ⟨-, -, htmp⟩ := hres tmpStart tmpEnd rfl
    have htmp : TableAt (t.place s.ni.mainTableBa s.ni.backupTableBa tmpEnd) tmpStart tmpEnd
        s.ni.infoTableCache := htmp.place
    have hu : Kept P s (t.place s.ni.mainTableBa s.ni.backupTableBa tmpEnd) := ht.trans (.of_eq rfl)
    have hcache : (t.place s.ni.mainTableBa s.ni.backupTableBa tmpEnd).ni.infoTableCache =
      s.ni.infoTableCache := hframe.infoTableCache
    have hgeo : (t.place s.ni.mainTableBa s.ni.backupTableBa tmpEnd).ni.geo = s.ni.geo := hframe.geo
    simp only at h
    generalize t.place s.ni.mainTableBa s.ni.backupTableBa tmpEnd = u at h hu htmp hcache hgeo
    -- the main table is written below the temporary table
    rcases hw2 : writeInfoTable u u.ni.mgmtStartBa tmpStart with ⟨res2, v⟩
    obtain ⟨hframe2, hres2⟩ := writeInfoTable_spec hw2 (hcache ▸ hne)
    have hv : Kept P s v := hu.trans (.of_frame hframe2 htmp.onFlash
      (fun b hb _ hmem => by have := hmem.2; omega) fun flash hf => hP flash _ _ (hgeo ▸ hf))
    rw [hw2] at h
    cases res2 with
    | none =>
      cases h
      exact hv.trans (.of_eq rfl)
    | some table2 =>
      obtain ⟨mainStart, mainEnd⟩ := table2
      obtain ⟨-, h2, -⟩ := hres2 mainStart mainEnd rfl
      simp only [if_pos h2] at h
      cases h
      exact hv.trans (.of_eq rfl)

theorem writeMainTable_kept {e : Nat} (h : writeMainTable s s.ni.backupTableBa = (ok, s'))
    (hmain : s.ni.mainTableBa ≠ 0)
    (hbackup : s.ni.backupTableBa ≠ 0) (hne : s.ni.infoTableCache ≠ [])
    (htable : TableAt s s.ni.backupTableBa e s.ni.infoTableCache) (he : e ≤ s.ni.mappingBlocksBa)
    (hP : ∀ flash p e, OnFlash s.ni.geo flash p e s.ni.infoTableCache → P flash) : Kept P s s' := by
  rw [writeMainTable, if_neg hmain] at h
  rcases hw : writeInfoTable s s.ni.mainTableBa s.ni.backupTableBa with ⟨res, t⟩
  obtain ⟨hframe, hres⟩ := writeInfoTable_spec hw hne
  have hkeep :
      ∀ b, s.ni.backupTableBa ≤ b → b < e → b ∉ Set.Ico s.ni.mainTableBa s.ni.backupTableBa :=
    fun b hb _ hmem => by have := hmem.2; omega
  have ht : Kept P s t := .of_frame hframe htable.onFlash hkeep fun flash => hP flash _ _
  rw [hw] at h
  cases res with
  | none =>
    simp only [if_neg hbackup] at h
    have htable' := htable.frame hframe hkeep
    rw [← hframe.backupTableBa, ← hframe.infoTableCache] at htable'
    refine ht.trans (rescueMainInfoTable_kept h (hframe.infoTableCache ▸ hne) htable'
      (hframe.mappingBlocksBa ▸ he) ?_)
    rw [hframe.geo, hframe.infoTableCache]
    exact hP
  | some table =>
    cases h
    exact ht.trans (.of_eq rfl)

theorem validImage_generate (hlayout : Layout s.ni.geo s.ni.infoTable) :
    ValidImage s.ni.geo (generateInfoTableCache s).2.ni.infoTableCache := by
  have hlayout' : Layout s.ni.geo (generateInfoTableCache s).2.ni.infoTable :=
    ⟨hlayout.stateTableOff, hlayout.mappingTableOff⟩
  exact ⟨length_infoImage hlayout', checkInfoTableHeader_infoImage hlayout' rfl rfl,
    checkHeader_infoImage hlayout' rfl⟩

/-- **Power-loss safety of `nmbm_update_info_table_once`.**  If a main table and a backup table
above it are recorded and the backup table can be written, the flash always holds the old main table
or the new one. -/
theorem updateInfoTableOnce_survives {old : Bytes} {oldEnd : Nat}
    (hlayout : Layout s.ni.geo s.ni.infoTable) (hmain : s.ni.mainTableBa ≠ 0)
    (hold : OnFlash s.ni.geo s.chip.data s.ni.mainTableBa oldEnd old)
    (hvalid : ValidImage s.ni.geo old) (habove : oldEnd ≤ s.ni.backupTableBa)
    (hbackup : (writeInfoTable (generateInfoTableCache s).2 s.ni.backupTableBa
      s.ni.mappingBlocksTopBa).1 ≠ none) :
    ∃ new, (updateInfoTableOnce s force).2.flashes = new ++ s.flashes ∧
      ∀ flash ∈ s.chip.data :: new,
        Survives s.ni.geo old (generateInfoTableCache s).2.ni.infoTableCache flash := by
  suffices hkept : Kept (Survives s.ni.geo old (generateInfoTableCache s).2.ni.infoTableCache) s
      (updateInfoTableOnce s force).2 by
    obtain ⟨new, hnew, hP⟩ := hkept
    refine ⟨new, hnew, fun flash hf => ?_⟩
    rcases List.mem_cons.mp hf with rfl | hf
    · exact ⟨old, .inl rfl, hvalid, _, _, hold⟩
    · exact hP flash hf
  have himage := validImage_generate hlayout
  have hne : (generateInfoTableCache s).2.ni.infoTableCache ≠ [] := infoImage_ne_nil
  have hs1 : Kept (Survives s.ni.geo old (generateInfoTableCache s).2.ni.infoTableCache) s
    (generateInfoTableCache s).2 := .of_eq rfl
  have hold1 : OnFlash (generateInfoTableCache s).2.ni.geo (generateInfoTableCache s).2.chip.data
    (generateInfoTableCache s).2.ni.mainTableBa oldEnd old := hold
  have hgeo1 : (generateInfoTableCache s).2.ni.geo = s.ni.geo := rfl
  have hm1 : (generateInfoTableCache s).2.ni.mainTableBa = s.ni.mainTableBa := rfl
  have hb1 : (generateInfoTableCache s).2.ni.backupTableBa = s.ni.backupTableBa := rfl
  have ht1 : (generateInfoTableCache s).2.ni.mappingBlocksTopBa = s.ni.mappingBlocksTopBa := rfl
  rw [updateInfoTableOnce]
  generalize generateInfoTableCache s = g at *
  obtain ⟨changed, s1⟩ := g
  simp only at *
  have hlt := hold.choose_spec.lt (fun hnil => by
    have := hvalid.length
    have := s.ni.geo.header_le
    have := s.ni.geo.state_le
    have := s.ni.geo.mapping_le
    simp [hnil] at *
    omega)
  split
  · exact hs1
  split
  · omega
  rw [hb1, ht1]
  rcases hw : writeInfoTable s1 s.ni.backupTableBa s.ni.mappingBlocksTopBa with ⟨res, t⟩
  rw [hw] at hbackup
  obtain ⟨hframe, hres⟩ := writeInfoTable_spec hw hne
  -- while the backup table is written, the old main table is there
  have ht : Kept (Survives s.ni.geo old s1.ni.infoTableCache) s t := hs1.trans
    (.of_frame hframe hold1 (fun b _ hb hmem => by have := hmem.1; omega)
      fun flash hf => ⟨old, .inl rfl, hvalid, _, _, hgeo1 ▸ hf⟩)
  cases res with
  | none => exact absurd rfl hbackup
  | some table =>
    obtain ⟨st, e⟩ := table
    obtain ⟨h1, h2, htable, -⟩ := hres st e rfl
    have htable : TableAt (markTablesClean (t.place s1.ni.mainTableBa st e)) st e
        s1.ni.infoTableCache := ⟨htable.lt, htable.good, htable.laid⟩
    refine (ht.trans (.of_eq rfl)).trans (writeMainTable_kept
      (s := markTablesClean (t.place s1.ni.mainTableBa st e)) rfl (hm1 ▸ hmain) ?_ ?_ ?_
      (Nat.le_refl e) ?_)
    · have := htable.lt
      exact fun hzero : st = 0 => by omega
    · exact fun hnil => hne (hframe.infoTableCache.symm.trans hnil)
    · exact hframe.infoTableCache ▸ htable
    · intro flash p e hf
      have hf : OnFlash t.ni.geo flash p e t.ni.infoTableCache := hf
      rw [hframe.geo, hframe.infoTableCache, hgeo1] at hf
      exact ⟨_, .inr rfl, himage, p, e, hf⟩

end PowerLoss

/-! ### An update of the small chip -/

/-- An info table of the small chip, in block 4 of an otherwise blank flash. -/
def smallImage : Bytes :=
  infoImage smallGeometry ⟨magicInfoTable, nmbmVer, 192, 0, 1, 64, 128, 0⟩ (fun _ => .good)
    fun lb => if lb < 4 then lb else -1

def smallTables : Sys :=
  let s := Sys.start smallLower smallGeometry
    { data := fun i => if i / 256 = 4 then smallImage.getD (i % 256) 0xff else 0xff
      fate := fun _ => succeeding fun b => b == 9
      calls := 0 }
  { s with
    ni := { s.ni with
      infoTable := ⟨magicInfoTable, nmbmVer, 192, 0, 1, 64, 128, 0⟩
      blockState := fun b => if b = 9 then .bad else .good
      blockStateChanged := 1
      blockMapping := fun lb => if lb < 4 then lb else -1
      dataBlockCount := 4
      mgmtStartBa := 4
      mainTableBa := 4
      backupTableBa := 7
      mappingBlocksBa := 8
      mappingBlocksTopBa := 14
      signatureBa := 15 } }

theorem updateInfoTableOnce_survives_small :
    ∃ new, (updateInfoTableOnce smallTables false).2.flashes = new ++ smallTables.flashes ∧
      ∀ flash ∈ smallTables.chip.data :: new, Survives smallTables.ni.geo smallImage
        (generateInfoTableCache smallTables).2.ni.infoTableCache flash :=
  updateInfoTableOnce_survives ⟨by rfl, by rfl⟩ (by decide)
    ⟨fun _ => .good, .block (by decide +kernel) rfl (by decide +kernel) (.nil 5)⟩
    ⟨by decide +kernel, by decide +kernel, by decide +kernel⟩ (by decide) (by decide +kernel)

end MtkBoot.Nmbm
