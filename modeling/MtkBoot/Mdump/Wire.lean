import MtkBoot.Mdump.Model

/-! The packets of a dump on the wire.  One whose checksum is right is as it was before a byte of it
was cleared. -/

namespace MtkBoot.Mdump

open MtkBoot.Lib List

variable {ss : Session} {index offset sum : Nat} {data body : Bytes}

/-- The byte that is cleared if the data are of odd length. -/
def clearedIn (ss : Session) (index offset : Nat) (data : Bytes) : UInt8 :=
  (rangeBody ss index offset data).getD (data.length + 4) 0

theorem length_rangeBody : (rangeBody ss index offset data).length = 24 + data.length := by
  simp [rangeBody]
  omega

theorem sendMdumpPacket_eq : sendMdumpPacket ss index offset data =
    withSum (crc32Comp 0 (withSum 0 (rangeBody ss index offset data)))
      (if data.length % 2 = 1 then (rangeBody ss index offset data).set (data.length + 4) 0
        else rangeBody ss index offset data) := by
  have hlen (sum : Nat) :
      (withSum sum (rangeBody ss index offset data)).length = 32 + data.length := by
    simp [withSum, length_rangeBody]
    omega
  unfold sendMdumpPacket netSendPacket
  simp only [hlen]
  by_cases hodd : data.length % 2 = 1
  · rw [if_pos (by omega), if_pos hodd, withSum, set_append_right _ _ (by simp; omega),
      set_append_right _ _ (by simp; omega)]
    simp only [length_leBytes, withSum]
    congr 4
    omega
  · rw [if_neg (by omega), if_neg hodd]

theorem checksumOk_withSum (body : Bytes) (h : sum < 2 ^ 32) :
    ChecksumOk (withSum sum body) ↔ sum = crc32Comp 0 (withSum 0 body) := by
  have hfield : le32 (withSum sum body) 4 = sum := by
    have : field (withSum sum body) 4 4 = leBytes 4 sum := field_middle _ (leBytes 4 sum) body
    rw [le32, this, leNat_leBytes]
    exact Nat.mod_eq_of_lt h
  have hsplice : splice (withSum sum body) 4 (leBytes 4 0) = withSum 0 body :=
    splice_middle rfl
  rw [ChecksumOk, hfield, hsplice]

theorem crc_withSum_set {v : UInt8} {i : Nat} : crc32Comp 0 (withSum 0 body) =
    crc32Comp 0 (withSum 0 (body.set i v)) ↔ body.set i v = body := by
  constructor
  · intro h
    simp only [crc32Comp, withSum, crc32_append] at h
    exact crc32_set (crc32_lt (crc32_lt (by decide) _) _) (Nat.xor_left_inj.mp h).symm
  · intro h
    rw [h]

theorem set_rangeBody : (rangeBody ss index offset data).set (data.length + 4) 0 =
    rangeBody ss index offset data ↔ clearedIn ss index offset data = 0 := by
  have hi : data.length + 4 < (rangeBody ss index offset data).length := by
    rw [length_rangeBody]
    omega
  rw [clearedIn, getD_eq_getElem _ _ hi]
  constructor
  · intro h
    rw [← getElem_set_self (a := 0) (by simpa using hi)]
    simp [h]
  · intro h
    exact h ▸ set_getElem_self hi

theorem checksumOk_iff : ChecksumOk (sendMdumpPacket ss index offset data) ↔
    (data.length % 2 = 1 → clearedIn ss index offset data = 0) := by
  rw [sendMdumpPacket_eq, checksumOk_withSum _ (crc32Comp_lt (by decide) _)]
  split
  · rename_i hodd
    rw [crc_withSum_set, set_rangeBody]
    exact ⟨fun h _ => h, fun h => h hodd⟩
  · rename_i heven
    exact iff_of_true rfl fun hodd => absurd hodd heven

theorem ChecksumOk.intact (h : ChecksumOk (sendMdumpPacket ss index offset data)) :
    ∃ sum, sendMdumpPacket ss index offset data = withSum sum (rangeBody ss index offset data) := by
  refine ⟨_, sendMdumpPacket_eq.trans (congrArg _ ?_)⟩
  split
  · rename_i hodd
    exact set_rangeBody.mpr (checksumOk_iff.mp h hodd)
  · rfl

theorem headerOf_withSum (sum : Nat) (hpos : offset < 2 ^ 64) (hsize : data.length < 2 ^ 32) :
    headerOf (withSum sum (rangeBody ss index offset data)) = (offset, data.length) := by
  have hsz : field (withSum sum (rangeBody ss index offset data)) 20 4 = leBytes 4 data.length := by
    rw [withSum, field_append_right (by simp), field_append_right (by simp), rangeBody,
      field_append_left (by simp)]
    exact field_words (i := 3) (by simp)
  have hoff : field (withSum sum (rangeBody ss index offset data)) 24 8 = leBytes 8 offset := by
    rw [withSum, field_append_right (by simp), field_append_right (by simp), rangeBody]
    exact field_middle (words [ss.negoVer, ss.assocId, index, data.length]) (leBytes 8 offset) _
  rw [headerOf, le32, hsz, hoff, leNat_leBytes, leNat_leBytes]
  exact Prod.ext (Nat.mod_eq_of_lt hpos) (Nat.mod_eq_of_lt hsize)

theorem index_withSum (sum : Nat) (hindex : index < 2 ^ 32) :
    le32 (withSum sum (rangeBody ss index offset data)) 16 = index := by
  have hfield : field (withSum sum (rangeBody ss index offset data)) 16 4 = leBytes 4 index := by
    rw [withSum, field_append_right (by simp), field_append_right (by simp), rangeBody,
      field_append_left (by simp)]
    exact field_words (i := 2) (by simp)
  rw [le32, hfield, leNat_leBytes]
  exact Nat.mod_eq_of_lt hindex

end MtkBoot.Mdump
