import MtkBoot.Nmbm.Attach

/-! The bounds that a table found on flash is checked for.  `nmbm_check_info_table_header` compares
32-bit differences of offsets, which are the bounds only if the offsets are in order. -/

namespace MtkBoot.Nmbm

open MtkBoot.Lib List InfoHeader

variable {endBa o startBa : Nat} {ni : Instance}

/-! ### What is read of a table -/

/-- Some bytes of `info_table_cache`: where they start and how many they are. -/
structure Access where
  off : Nat
  len : Nat
  deriving DecidableEq, Repr

/-- What `nmbm_check_info_table` reads at most: the header, the entries of the logic blocks, and
the bitmap units of the table's own blocks. -/
def checkAccesses (ni : Instance) (startBa endBa : Nat) (h : InfoHeader) : List Access :=
  ⟨0, 32⟩ :: ((List.range ni.dataBlockCount).map fun lb => ⟨h.mappingTableOff + 4 * lb, 4⟩) ++
    (List.range' startBa (endBa - startBa)).map fun ba => ⟨h.stateTableOff + 4 * (ba / 16), 4⟩

def copyAccesses (g : Geometry) (h : InfoHeader) : List Access :=
  [⟨0, 32⟩, ⟨h.stateTableOff, g.stateTableSize⟩, ⟨h.mappingTableOff, g.mappingTableSize⟩]

def SameAt (data data' : Bytes) (a : Access) : Prop :=
  field data a.off a.len = field data' a.off a.len

section Reads

variable {data data' : Bytes}

theorem SameAt.field {a : Access} (h : SameAt data data' a) {len : Nat} (ho : o + len ≤ a.len) :
    Lib.field data (a.off + o) len = Lib.field data' (a.off + o) len := by
  rw [← field_field ho, ← field_field ho, h]

theorem SameAt.getD {a : Access} (h : SameAt data data' a) (ho : o < a.len) :
    data.getD (a.off + o) 0 = data'.getD (a.off + o) 0 := by
  have hbyte :=
    congrArg (·[o]?) (show Lib.field data a.off a.len = Lib.field data' a.off a.len from h)
  simp only [field_getElem?, if_pos ho] at hbyte
  rw [getD_eq_getElem?_getD, hbyte, ← getD_eq_getElem?_getD]

theorem SameAt.decode (h : SameAt data data' ⟨0, 32⟩) : decode data = decode data' := by
  have word (o : Nat) (ho : o + 4 ≤ 32) : le32 data o = le32 data' o := by
    have := h.field ho
    rw [le32, le32, ← zero_add o, this]
  unfold InfoHeader.decode
  rw [word 0 (by decide), word 4 (by decide), word 8 (by decide), word 12 (by decide),
    word 16 (by decide), word 20 (by decide), word 24 (by decide), word 28 (by decide)]

theorem checkMapping_congr {entry entry' : Nat → Nat} (dataBlockCount endBa signatureBa : Nat)
    (n : Nat) : ∀ (lb low : Nat), (∀ i, lb ≤ i → i < lb + n → entry i = entry' i) →
      checkMapping entry dataBlockCount endBa signatureBa n lb low =
        checkMapping entry' dataBlockCount endBa signatureBa n lb low := by
  induction n with
  | zero => exact fun _ _ _ => rfl
  | succ n ih =>
    intro lb low h
    simp only [checkMapping]
    rw [h lb le_rfl (by omega)]
    split
    · rfl
    · exact ih _ _ fun i hlo hhi => h i (by omega) (by omega)

/-- The check of a table depends on nothing but the bytes it reads. -/
theorem checkInfoTable_congr
    (h : ∀ a ∈ checkAccesses ni startBa endBa (decode data), SameAt data data' a) :
    checkInfoTable ni startBa endBa data = checkInfoTable ni startBa endBa data' := by
  have hhead := (h ⟨0, 32⟩ (by simp [checkAccesses])).decode
  have hentry (lb : Nat) (hlb : lb < ni.dataBlockCount) :
      le32 data ((decode data).mappingTableOff + 4 * lb) =
        le32 data' ((decode data).mappingTableOff + 4 * lb) := by
    have hsame := h ⟨_, 4⟩ (mem_append_left _ (mem_cons_of_mem _
      (mem_map_of_mem (mem_range.mpr hlb))))
    exact congrArg leNat hsame
  have hstate (ba : Nat) (hba : ba ∈ List.range' startBa (endBa - startBa)) :
      stateAt data (decode data).stateTableOff ba =
        stateAt data' (decode data).stateTableOff ba := by
    have hsame := h ⟨_, 4⟩ (mem_append_right _ (mem_map_of_mem hba))
    have hbyte := hsame.getD (o := ba / 4 % 4) (Nat.mod_lt _ (by decide))
    rw [add_assoc, show 4 * (ba / 16) + ba / 4 % 4 = ba / 4 by omega] at hbyte
    rw [stateAt, stateAt, hbyte]
  simp only [checkInfoTable, ← hhead]
  rw [checkMapping_congr _ _ _ _ 0 _ fun i _ hi => hentry i (by omega)]
  split
  · rfl
  · refine if_congr ?_ rfl rfl
    rw [all_eq_true, all_eq_true]
    exact forall₂_congr fun ba hba => by rw [hstate ba hba]

theorem takeTables_congr (s : Sys)
    (h : ∀ a ∈ copyAccesses s.ni.geo (decode data), SameAt data data' a) :
    takeTables { s with ni.infoTableCache := data } =
      { takeTables { s with ni.infoTableCache := data' } with ni.infoTableCache := data } := by
  simp only [copyAccesses, forall_mem_cons] at h
  obtain ⟨hhead, hstate, hmapping, -⟩ := h
  have hsize := s.ni.geo.mapping_size
  simp only [takeTables, ← hhead.decode]
  congr 3 <;> funext b <;> split
  · rw [stateAt, stateAt, hstate.getD (by simp only; omega)]
  · rfl
  · rw [mappingAt, mappingAt, le32, le32, hmapping.field (by simp only; omega)]
  · rfl

end Reads

/-- The tables lie one after the other in an image. -/
structure TablesInside (g : Geometry) (h : InfoHeader) : Prop where
  state_le : h.stateTableOff + g.stateTableSize ≤ h.mappingTableOff
  mapping_le : h.mappingTableOff + g.mappingTableSize ≤ g.infoTableSize

instance (g : Geometry) (h : InfoHeader) : Decidable (TablesInside g h) :=
  decidable_of_iff (h.stateTableOff + g.stateTableSize ≤ h.mappingTableOff ∧
    h.mappingTableOff + g.mappingTableSize ≤ g.infoTableSize)
    ⟨fun ⟨h1, h2⟩ => ⟨h1, h2⟩, fun h => ⟨h.state_le, h.mapping_le⟩⟩

def Access.Inside (g : Geometry) (a : Access) : Prop := a.off + a.len ≤ g.infoTableSize

instance (g : Geometry) (a : Access) : Decidable (a.Inside g) := inferInstanceAs (Decidable (_ ≤ _))

/-- The sizes are those of the lower device, and the blocks that a table speaks of are blocks of
the device. -/
structure OnDevice (ni : Instance) (endBa : Nat) : Prop where
  geo : ni.lower.geometry = some ni.geo
  data_le : ni.dataBlockCount ≤ ni.geo.blockCount
  end_le : endBa ≤ ni.geo.blockCount

/-- The image has the magic number and the size of an info table and the right checksum. -/
def Genuine (g : Geometry) (data : Bytes) : Prop :=
  le32 data 0 = magicInfoTable ∧ le32 data 8 = g.infoTableSize ∧
    checkHeader data g.infoTableSize = true

/-- An offset lies behind the one it is subtracted from, and the differences modulo `2 ^ 32` are
large enough for the tables all the same. -/
def Wraps (g : Geometry) (h : InfoHeader) : Prop :=
  (h.mappingTableOff < h.stateTableOff ∨ g.infoTableSize < h.mappingTableOff) ∧
    g.stateTableSize ≤ (h.mappingTableOff + 2 ^ 32 - h.stateTableOff) % 2 ^ 32 ∧
    g.mappingTableSize ≤ (g.infoTableSize + 2 ^ 32 - h.mappingTableOff) % 2 ^ 32

instance (g : Geometry) (h : InfoHeader) : Decidable (Wraps g h) :=
  inferInstanceAs (Decidable (_ ∧ _))

theorem subU32_eq_wrap {a b : Nat} (hb : b < 2 ^ 32) : subU32 a b = (a + 2 ^ 32 - b) % 2 ^ 32 := by
  unfold subU32
  omega

section Bounds

variable {data : Bytes}

theorem accepted_iff {g : Geometry} :
    (checkInfoTableHeader g data ∧ checkHeader data g.infoTableSize) ↔
      Genuine g data ∧ (TablesInside g (decode data) ∨ Wraps g (decode data)) := by
  have hstate : (decode data).stateTableOff < 2 ^ 32 := le32_lt data 20
  have hmapping : (decode data).mappingTableOff < 2 ^ 32 := le32_lt data 24
  have hlt := g.info_lt
  have hoffs : (g.stateTableSize ≤
        subU32 (decode data).mappingTableOff (decode data).stateTableOff ∧
      g.mappingTableSize ≤ subU32 g.infoTableSize (decode data).mappingTableOff) ↔
      TablesInside g (decode data) ∨ Wraps g (decode data) := by
    rw [subU32_eq_wrap hstate, subU32_eq_wrap hmapping]
    constructor
    · rintro ⟨h1, h2⟩
      by_cases horder : (decode data).mappingTableOff < (decode data).stateTableOff ∨
          g.infoTableSize < (decode data).mappingTableOff
      · exact .inr ⟨horder, h1, h2⟩
      · exact .inl ⟨by omega, by omega⟩
    · rintro (⟨h1, h2⟩ | ⟨-, h1, h2⟩)
      · constructor <;> omega
      · exact ⟨h1, h2⟩
  rw [← hoffs]
  simp only [checkInfoTableHeader, Bool.and_eq_true, beq_iff_eq, decide_eq_true_eq]
  have hgen : Genuine g data ↔ (decode data).magic = magicInfoTable ∧
      (decode data).size = g.infoTableSize ∧
      checkHeader data g.infoTableSize := Iff.rfl
  rw [hgen]
  tauto

theorem TablesInside.accesses (h : TablesInside ni.geo (decode data)) (hdev : OnDevice ni endBa) :
    ∀ a ∈ checkAccesses ni startBa endBa (decode data) ++ copyAccesses ni.geo (decode data),
    a.Inside ni.geo := by
  have hstate := h.state_le
  have hmapping := h.mapping_le
  have hsize := ni.geo.mapping_size
  have hdata := hdev.data_le
  have hend := hdev.end_le
  have hhead : 32 ≤ ni.geo.infoTableSize := by
    have := ni.geo.header_le
    have := ni.geo.state_le
    have := ni.geo.mapping_le
    omega
  have hcheck : ∀ a ∈ checkAccesses ni startBa endBa (decode data), a.Inside ni.geo := by
    intro a ha
    simp only [checkAccesses, cons_append, mem_cons, mem_append, mem_map,
      mem_range, mem_range'_1] at ha
    rcases ha with rfl | ⟨lb, hlb, rfl⟩ | ⟨ba, hba, rfl⟩ <;> unfold Access.Inside
    · omega
    · simp only
      omega
    · have hlt : ba < ni.geo.blockCount := by omega
      simp only
      omega
  have hcopy : ∀ a ∈ copyAccesses ni.geo (decode data), a.Inside ni.geo := by
    simp only [copyAccesses, forall_mem_cons, Access.Inside]
    exact ⟨by omega, by omega, by omega, by simp⟩
  intro a ha
  exact (mem_append.mp ha).elim (hcheck a) (hcopy a)

/-- An accepted table lies in the cache, and is read inside it, unless its offsets wrap. -/
theorem accepted_inside_iff (startBa : Nat) (data : Bytes) (hdev : OnDevice ni endBa) :
    (checkInfoTableHeader ni.geo data = true → checkHeader data ni.geo.infoTableSize = true →
      TablesInside ni.geo (decode data) ∧
        ∀ a ∈ checkAccesses ni startBa endBa (decode data) ++
          copyAccesses ni.geo (decode data), a.Inside ni.geo) ↔
      ¬ (Genuine ni.geo data ∧ Wraps ni.geo (decode data)) := by
  constructor
  · rintro h ⟨hgen, hwraps⟩
    obtain ⟨h1, h2⟩ := accepted_iff.mpr ⟨hgen, .inr hwraps⟩
    obtain ⟨hin, -⟩ := h h1 h2
    have hstate := hin.state_le
    have hmapping := hin.mapping_le
    have horder := hwraps.1
    omega
  · intro h h1 h2
    obtain ⟨hgen, hin⟩ := accepted_iff.mp ⟨h1, h2⟩
    have hin := hin.resolve_right fun hwraps => h ⟨hgen, hwraps⟩
    exact ⟨hin, hin.accesses hdev⟩

end Bounds

/-! ### Tables of the small chip -/

def imageAt (stateTableOff mappingTableOff : Nat) : Bytes :=
  updateChecksum <| InfoHeader.encode ⟨magicInfoTable, nmbmVer, 192, 0, 1, stateTableOff,
    mappingTableOff, 0⟩ ++ List.replicate 160 0xff

theorem checkInfoTable_congr_small : checkInfoTable smallInstance 4 5 (imageAt 64 128) =
    checkInfoTable smallInstance 4 5 (imageAt 64 128 ++ [0]) :=
  checkInfoTable_congr (by unfold SameAt; decide +kernel)

theorem accepted_inside_iff_small :
    (checkInfoTableHeader smallInstance.geo (imageAt 64 128) = true →
      checkHeader (imageAt 64 128) smallInstance.geo.infoTableSize = true →
      TablesInside smallInstance.geo (decode (imageAt 64 128)) ∧
        ∀ a ∈ checkAccesses smallInstance 4 5 (decode (imageAt 64 128)) ++
          copyAccesses smallInstance.geo (decode (imageAt 64 128)), a.Inside smallInstance.geo) ↔
      ¬ (Genuine smallInstance.geo (imageAt 64 128) ∧
        Wraps smallInstance.geo (decode (imageAt 64 128))) :=
  accepted_inside_iff 4 (imageAt 64 128) ⟨by rfl, by decide, by decide⟩

/-- A mapping table at 196 in a table of 192 bytes: `192 - 196` is large, and the mapping is copied
from behind the cache. -/
theorem mapping_behind_table_accepted :
    checkInfoTableHeader smallInstance.geo (imageAt 64 196) = true ∧
      checkHeader (imageAt 64 196) smallInstance.geo.infoTableSize = true ∧
      ¬ TablesInside smallInstance.geo (decode (imageAt 64 196)) ∧
      ∃ a ∈ copyAccesses smallInstance.geo (decode (imageAt 64 196)),
        smallInstance.geo.infoTableSize < a.off := by
  decide +kernel

end MtkBoot.Nmbm
