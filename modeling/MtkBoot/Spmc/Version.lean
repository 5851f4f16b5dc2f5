import MtkBoot.Spmc.Convert

/-! What the conversions between the versions keep.  From v1.0 to v1.1 all of it; back only what the
record pointer, which moves by 16 times the size of a record, happens to meet. -/

namespace MtkBoot.Spmc

open Lib

variable {b d n o orig out : Nat} {m m' : Mem}

variable {i : Nat}

/-- The descriptor at `d'`, of `n'` bytes, has the endpoints and ranges of the one at `d`.  A record
begins with the endpoint, its permissions and its flags. -/
structure Kept (m : Mem) (d v : Nat) (m' : Mem) (d' v' n' : Nat) : Prop where
  count : emadCount m' d' = emadCount m d
  endpoints :
    ∀ i, i < emadCount m d → bytesAt m' (getEmad m' d' i v') 4 = bytesAt m (getEmad m d i v) 4
  ranges : ranges m' (d' + compOffset m' d' v') = ranges m (d + compOffset m d v)
  inside : compOffset m' d' v' + 16 + 16 * addressRangeCount m' (d' + compOffset m' d' v') ≤ n'

/-- A v1.0 object at `orig`, one for its v1.1 form at `out`, and one to convert it back into. -/
structure V10Setup (m : Mem) (orig n out back : Nat) : Prop where
  size : descSize m orig = n
  checked : Checked m (orig + 32) n v10
  layout : orig + 32 + n ≤ out
  room : descSize m out = v11DescriptorSize m (orig + 32)
  small : v11DescriptorSize m (orig + 32) < 2 ^ 32
  behind : out + 32 + v11DescriptorSize m (orig + 32) ≤ back
  large : n ≤ descSize m back

/-- What the way to v1.1 and back leaves of the `i`th record, `i > 0`: it is read from the composite
descriptor. -/
def RecordMet (m : Mem) (d i : Nat) : Prop :=
  let count := emadCount m d
  let mrd := d + compOffset m d v10
  count ≤ 16 * i ∧ 16 * i ≤ count + addressRangeCount m mrd ∧
    bytesAt m (mrd + 16 * (16 * i - count)) 4 = bytesAt m (d + 32 + 16 * i) 4 ∧
    compMrdOffset m (mrd + 16 * (16 * i - count)) = 48 + 16 * count ∧
    bytesAt m (mrd + 16 * (16 * i - count) + 8) 8 = bytesAt m (d + 32 + 16 * i + 8) 8

/-- The composite descriptor follows the records, the reserved bytes are those of the buffer at `b`,
and all records but the first are met by chance. -/
structure ComesBack (m : Mem) (d b : Nat) : Prop where
  gap : compOffset m d v10 = 32 + 16 * emadCount m d
  byte : m (b + 3) = m (d + 3)
  word : bytesAt m (b + 24) 4 = bytesAt m (d + 24) 4
  records : ∀ i, 0 < i → i < emadCount m d → RecordMet m d i

section RoundTrip

variable {back : Nat}

theorem V10Setup.fromV10 (h : V10Setup m orig n out back) : (convertFromV10 m out orig).2 ∧
      FromV10 m (orig + 32) (convertFromV10 m out orig).1 (out + 32) ∧ ∀ x, x < out + 32 ∨
      out + 32 + v11DescriptorSize m (orig + 32) ≤ x → (convertFromV10 m out orig).1 x = m x :=
  convertFromV10_spec h.size h.checked h.layout (le_of_eq h.room.symm) h.small

section

variable (h : FromV10 m d m' o)
include h

theorem FromV10.kept (hc : Checked m d n v10) (hsmall : v11DescriptorSize m d < 2 ^ 32) :
    Kept m d v10 m' o v11 (v11DescriptorSize m d) := by
  have hcount48 : 48 + 16 * emadCount m d < 2 ^ 32 := by
    unfold v11DescriptorSize at hsmall
    omega
  have hcomp : compOffset m' o v11 = 48 + 16 * emadCount m d := h.compMrdOffset_eq hcount48 hc.count
  refine ⟨h.emadCount_eq, fun i hi => ?_, ?_, ?_⟩
  · rw [h.getEmad_eq]
    exact h.endpoint i hi
  · rw [hcomp]
    exact h.ranges_eq.2
  · rw [hcomp, h.ranges_eq.1]
    unfold v11DescriptorSize
    omega

theorem fitsV10_fromV10 {room : Nat}
    (hroom : 48 + 16 * emadCount m d + 16 * addressRangeCount m (d + compOffset m d v10) ≤ room) :
    FitsV10 m' o (v11DescriptorSize m d) room ↔ ∀ i, i < emadCount m d →
      16 * i ≤ emadCount m d + addressRangeCount m (d + compOffset m d v10) := by
  unfold FitsV10 v11DescriptorSize
  simp only [h.emadOffset_eq, h.emadSize_eq, h.emadCount_eq, h.ranges_eq.1]
  constructor
  · rintro ⟨hrec, -, -⟩ i hi
    have := hrec i hi
    omega
  · intro hrec
    refine ⟨fun i hi => ?_, by omega, by omega⟩
    have := hrec i hi
    omega

/-- What stands where the way back looks for the `i`th record is that record. -/
def MetIn (m : Mem) (d : Nat) (m' : Mem) (o i : Nat) : Prop :=
  bytesAt m' (o + 48 + 16 * 16 * i) 4 = bytesAt m (d + 32 + 16 * i) 4 ∧
    compMrdOffset m' (o + 48 + 16 * 16 * i) = 48 + 16 * emadCount m d ∧
    bytesAt m' (o + 48 + 16 * 16 * i + 8) 8 = bytesAt m (d + 32 + 16 * i + 8) 8

theorem FromV10.metIn_zero (hcount : 0 < emadCount m d)
    (hsmall : 48 + 16 * emadCount m d < 2 ^ 32) : MetIn m d m' o 0 := by
  refine ⟨h.endpoint 0 hcount, ?_, h.reserved 0 hcount⟩
  have hcomp := h.compMrdOffset_eq hsmall hcount
  rwa [h.getEmad_eq] at hcomp

theorem FromV10.metIn_iff (hc : Checked m d n v10) (h0 : 0 < i)
    (hreach : 16 * i ≤ emadCount m d + addressRangeCount m (d + compOffset m d v10)) :
    MetIn m d m' o i ↔ RecordMet m d i := by
  have hmrd : ∀ x, emadCount m d ≤ 16 * i → x < 16 → m' (o + 48 + 16 * 16 * i + x) =
      m (d + compOffset m d v10 + 16 * (16 * i - emadCount m d) + x) := by
    intro x hle hx
    have hbyte := bytesAt_apply h.mrd (show 16 * (16 * i - emadCount m d) + x < _ by omega)
    rw [show o + 48 + 16 * 16 * i + x =
      o + 48 + 16 * emadCount m d + (16 * (16 * i - emadCount m d) + x) by
      omega, hbyte, add_assoc (d + compOffset m d v10)]
  have hread :
      ∀ p len, emadCount m d ≤ 16 * i → p + len ≤ 16 → bytesAt m' (o + 48 + 16 * 16 * i + p) len =
        bytesAt m (d + compOffset m d v10 + 16 * (16 * i - emadCount m d) + p) len := by
    intro p len hle hp
    refine bytesAt_congr fun x hx => ?_
    rw [add_assoc, add_assoc _ p, hmrd (p + x) hle (by omega)]
  unfold MetIn RecordMet compMrdOffset rd
  constructor
  · rintro ⟨hend, hcomp, hres⟩
    have hle : emadCount m d ≤ 16 * i := by
      -- otherwise it is another record, and that has another endpoint
      by_contra hlt
      refine hc.distinct i (16 * i) (by omega) (by omega) ?_
      have hother : bytesAt m (d + 32 + 16 * i) 4 = bytesAt m (d + 32 + 16 * (16 * i)) 4 := by
        rw [← hend, mul_assoc]
        exact h.endpoint (16 * i) (by omega)
      exact rd_congr fun x hx => bytesAt_apply hother (by omega)
    refine ⟨hle, hreach, ?_, ?_, ?_⟩
    · rw [← hend]
      exact (hread 0 4 hle (by omega)).symm
    · rw [← hcomp, hread 4 4 hle (by omega)]
    · rw [← hres, hread 8 8 hle (by omega)]
  · rintro ⟨hle, -, hend, hcomp, hres⟩
    refine ⟨?_, ?_, ?_⟩
    · rw [← hend]
      exact hread 0 4 hle (by omega)
    · rw [hread 4 4 hle (by omega), hcomp]
    · rw [hread 8 8 hle (by omega), hres]

end

theorem leBytes_inj {len a : Nat} (ha : a < 256 ^ len) (hb : b < 256 ^ len)
    (h : leBytes len a = leBytes len b) : a = b := by
  rw [← Nat.mod_eq_of_lt ha, ← leNat_leBytes, h, leNat_leBytes, Nat.mod_eq_of_lt hb]

theorem shift_back_iff {y c : Nat} (hy : y < 2 ^ 32) (hc : 48 + 16 * c < 2 ^ 32) :
    leBytes 4 (y + subU64 (32 + 16 * c) (48 + 16 * c)) = leBytes 4 (32 + 16 * c) ↔
    y = 48 + 16 * c := by
  constructor
  · intro h
    rw [← leBytes_mod] at h
    have heq := leBytes_inj (Nat.mod_lt _ (by decide)) (by omega) h
    unfold subU64 at heq
    omega
  · rintro rfl
    exact leBytes_shift _ _

theorem Checked.offset_bytes (hc : Checked m d n v10) (hi : i < emadCount m d) :
    bytesAt m (d + 32 + 16 * i + 4) 4 = leBytes 4 (compOffset m d v10) := by
  rw [← hc.comp i hi]
  exact (leBytes_leNat _).symm

section Bytes

variable {m₁ m2 : Mem}

variable (hf : FromV10 m d m₁ o)
include hf

theorem record_back_iff (hc : Checked m d n v10) (ht : ToV10 m₁ o m2 b)
    (hsmall : 48 + 16 * emadCount m d < 2 ^ 32)
    (hgap : compOffset m d v10 = 32 + 16 * emadCount m d) (hi : i < emadCount m d) :
    bytesAt m2 (b + 32 + 16 * i) 16 = bytesAt m (d + 32 + 16 * i) 16 ↔ MetIn m d m₁ o i := by
  have hi1 : i < emadCount m₁ o := hf.emadCount_eq ▸ hi
  have hend := ht.endpoint i hi1
  have hcomp := ht.comp i hi1
  have hres := ht.reserved i hi1
  simp only [hf.emadOffset_eq, hf.emadSize_eq, hf.emadCount_eq] at hend hcomp hres
  have hy : compMrdOffset m₁ (o + 48 + 16 * 16 * i) < 2 ^ 32 := rd_lt _ _ _
  have hsplit : ∀ p q, bytesAt m2 p (4 + (4 + 8)) = bytesAt m q (4 + (4 + 8)) ↔
      bytesAt m2 p 4 = bytesAt m q 4 ∧ bytesAt m2 (p + 4) 4 = bytesAt m (q + 4) 4 ∧
        bytesAt m2 (p + 8) 8 = bytesAt m (q + 8) 8 := by
    intro p q
    rw [bytesAt_add_eq, bytesAt_add_eq]
  refine (hsplit _ _).trans ?_
  rw [hend, hcomp, hres, hc.offset_bytes hi, hgap, shift_back_iff hy hsmall]
  rfl

theorem header_back_iff (ht : ToV10 m₁ o m2 b) (hbuf : ∀ x < 32, m₁ (b + x) = m (b + x)) :
    bytesAt m2 b 32 = bytesAt m d 32 ↔ m (b + 3) = m (d + 3) ∧
    bytesAt m (b + 24) 4 = bytesAt m (d + 24) 4 := by
  have hattr : bytesAt m2 (b + 2) 1 = bytesAt m (d + 2) 1 := by
    have hvalue : attributes m₁ o = rd m (d + 2) 1 := by
      rw [attributes, rd, hf.attributes, leNat_leBytes]
      exact Nat.mod_eq_of_lt (lt_of_lt_of_le (rd_lt m (d + 2) 1) (by decide))
    have hle := leBytes_leNat (bytesAt m (d + 2) 1)
    rw [length_bytesAt] at hle
    rw [ht.attributes, hvalue]
    exact hle
  have hbyte : bytesAt m2 (b + 3) 1 = bytesAt m (d + 3) 1 ↔ m (b + 3) = m (d + 3) := by
    rw [ht.rest, show bytesAt m₁ (b + 3) 1 = bytesAt m (b + 3) 1 from
      bytesAt_congr fun x hx => by rw [add_assoc, hbuf _ (by omega)]]
    simp [bytesAt]
  have hword : bytesAt m2 (b + 24) 4 = bytesAt m (b + 24) 4 := by
    rw [ht.rest']
    exact bytesAt_congr fun x hx => by rw [add_assoc, hbuf _ (by omega)]
  rw [show (32 : Nat) = 2 + (1 + (1 + (20 + (4 + 4)))) from rfl, bytesAt_add_eq, bytesAt_add_eq,
    bytesAt_add_eq, bytesAt_add_eq, bytesAt_add_eq]
  rw [ht.sender, hf.sender, ht.body, hf.body, ht.count, hf.count, hword, hattr, hbyte]
  simp

theorem roundTrip_bytes (hc : Checked m d n v10) (ht : ToV10 m₁ o m2 b)
    (hbuf : ∀ x < 32, m₁ (b + x) = m (b + x)) (hsmall : 48 + 16 * emadCount m d < 2 ^ 32)
    (hreach : ∀ i < emadCount m d, 16 * i ≤ emadCount m d + addressRangeCount m
      (d + compOffset m d v10)) : bytesAt m2 b n = bytesAt m d n ↔ ComesBack m d b := by
  have hsize := hc.size
  have hbehind : 32 + 16 * emadCount m d ≤ compOffset m d v10 := hc.behind
  have hcomp32 : compOffset m d v10 < 2 ^ 32 := rd_lt _ _ _
  -- the part of the equation that lies between two offsets
  have hpart : bytesAt m2 b n = bytesAt m d n → ∀ p len, p + len ≤ n →
      bytesAt m2 (b + p) len = bytesAt m (d + p) len := by
    intro heq p len hp
    refine bytesAt_congr fun x hx => ?_
    rw [add_assoc, add_assoc]
    exact bytesAt_apply heq (by omega)
  constructor
  · intro heq
    have hgap : compOffset m d v10 = 32 + 16 * emadCount m d := by
      have hfirst := hpart heq 36 4 (by omega)
      have hoffset := ht.comp 0 (hf.emadCount_eq ▸ hc.count)
      simp only [hf.emadOffset_eq, hf.emadSize_eq, hf.emadCount_eq] at hoffset
      rw [(hf.metIn_zero hc.count hsmall).2.1, leBytes_shift] at hoffset
      have hbytes : leBytes 4 (32 + 16 * emadCount m d) = leBytes 4 (compOffset m d v10) := by
        rw [← hoffset, ← hc.offset_bytes hc.count]
        exact hfirst
      exact (leBytes_inj (by omega) (by omega) hbytes).symm
    obtain ⟨hbyte, hword⟩ := (header_back_iff hf ht hbuf).mp (hpart heq 0 32 (by omega))
    refine ⟨hgap, hbyte, hword, fun i h0 hi => ?_⟩
    rw [← hf.metIn_iff hc h0 (hreach i hi), ← record_back_iff hf hc ht hsmall hgap hi, add_assoc,
      add_assoc]
    exact hpart heq (32 + 16 * i) 16 (by omega)
  · rintro ⟨hgap, hbyte, hword, hrecords⟩
    have hheader := (header_back_iff hf ht hbuf).mpr ⟨hbyte, hword⟩
    have hrecord :
        ∀ i < emadCount m d, bytesAt m2 (b + 32 + 16 * i) 16 = bytesAt m (d + 32 + 16 * i) 16 := by
      intro i hi
      rw [record_back_iff hf hc ht hsmall hgap hi]
      by_cases h0 : i = 0
      · exact h0 ▸ hf.metIn_zero hc.count hsmall
      · exact (hf.metIn_iff hc (by omega) (hreach i hi)).mpr (hrecords i (by omega) hi)
    have hmrd := ht.mrd
    simp only [hf.emadOffset_eq, hf.emadSize_eq, hf.emadCount_eq, hf.ranges_eq.1] at hmrd
    rw [← add_assoc o, hf.mrd] at hmrd
    refine bytesAt_congr fun x hx => ?_
    by_cases hx1 : x < 32
    · exact bytesAt_apply hheader hx1
    by_cases hx2 : x < 32 + 16 * emadCount m d
    · have hb :=
        bytesAt_apply (hrecord ((x - 32) / 16) (by omega)) (show (x - 32) % 16 < 16 by omega)
      rwa [show b + 32 + 16 * ((x - 32) / 16) + (x - 32) % 16 = b + x by omega,
        show d + 32 + 16 * ((x - 32) / 16) + (x - 32) % 16 = d + x by omega] at hb
    · have hb := bytesAt_apply hmrd (show x - (32 + 16 * emadCount m d) < _ by omega)
      rwa [hgap, show b + (32 + 16 * emadCount m d) + (x - (32 + 16 * emadCount m d)) =
        b + x by omega, show d + (32 + 16 * emadCount m
        d) + (x - (32 + 16 * emadCount m d)) = d + x by omega] at hb

end Bytes

theorem roundTrip_iff (h : V10Setup m orig n out back) :
    ((convertMtdToV10 (convertFromV10 m out orig).1 back out).2 ∧
      bytesAt (convertMtdToV10 (convertFromV10 m out orig).1 back out).1 (back + 32) n =
        bytesAt m (orig + 32) n) ↔ ComesBack m (orig + 32) (back + 32) := by
  obtain ⟨-, hf, hframe⟩ := h.fromV10
  have hsmall := h.small
  have hbehind := h.behind
  have hgap : 32 + 16 * emadCount m (orig + 32) ≤ compOffset m (orig + 32) v10 := h.checked.behind
  have hsize := h.checked.size
  have hlarge := h.large
  generalize hm1 : (convertFromV10 m out orig).1 = m₁ at hf hframe ⊢
  have hout : descSize m₁ out = v11DescriptorSize m (orig + 32) := by
    rw [← h.room]
    exact rd_congr fun x hx => hframe _ (.inl (by omega))
  have hback : descSize m₁ back = descSize m back := rd_congr fun x hx => hframe _ (.inr (by omega))
  have hcount : 48 + 16 * emadCount m (orig + 32) < 2 ^ 32 := by
    unfold v11DescriptorSize at hsmall
    omega
  obtain ⟨hfits, hto⟩ := convertMtdToV10_spec hout (by unfold v11DescriptorSize; omega) hbehind
    (by rw [hf.emadOffset_eq, hf.emadSize_eq, hf.emadCount_eq]; exact hcount)
  rw [fitsV10_fromV10 hf (by omega)] at hfits
  have hbuf : ∀ x < 32, m₁ (back + 32 + x) = m (back + 32 + x) := fun x _ =>
    hframe _ (.inr (by omega))
  constructor
  · rintro ⟨hok, heq⟩
    exact (roundTrip_bytes hf h.checked (hto hok) hbuf hcount (hfits.mp hok)).mp heq
  intro hcomes
  have hreach : ∀ i, i < emadCount m (orig + 32) → 16 * i ≤ emadCount m (orig + 32) +
      addressRangeCount m (orig + 32 + compOffset m (orig + 32) v10) := by
    intro i hi
    by_cases h0 : i = 0
    · omega
    · exact (hcomes.records i (by omega) hi).2.1
  have hok := hfits.mpr hreach
  exact ⟨hok, (roundTrip_bytes hf h.checked (hto hok) hbuf hcount hreach).mpr hcomes⟩

end RoundTrip

/-- A v1.1 object at `orig` and one of the size that its v1.0 form needs. -/
structure V11Setup (m : Mem) (orig n out : Nat) : Prop where
  size : descSize m orig = n
  checked : Checked m (orig + 32) n v11
  layout : orig + 32 + n ≤ out
  room : descSize m out = v10DescriptorSize m (orig + 32) n

/-- The composite descriptor follows the records, and the record pointer meets the endpoints. -/
def EndpointsMet (m : Mem) (d n : Nat) : Prop :=
  compOffset m d v11 = emadOffset m d + emadSize m d * emadCount m d ∧
    ∀ i, i < emadCount m d → emadOffset m d + 16 * emadSize m d * i + 16 ≤ n ∧
      bytesAt m (d + emadOffset m d + 16 * emadSize m d * i) 4 =
        bytesAt m (d + emadOffset m d + emadSize m d * i) 4

theorem getEmad_v11 (m : Mem) (d i : Nat) :
    getEmad m d i v11 = d + emadOffset m d + emadSize m d * i := by
  have h11 : v11 ≠ v10 := by decide
  simp only [getEmad, emadBase, emadStep, if_neg h11]

theorem v11_layout (hc : Checked m d n v11) :
    48 ≤ emadOffset m d ∧ 16 * emadCount m d ≤ emadSize m d * emadCount m d ∧
      emadOffset m d + emadSize m d * emadCount m d ≤ compOffset m d v11 := by
  obtain ⟨hbase, hstep, hbehind⟩ : _ ∧ _ ∧ _ := ⟨hc.base, hc.step, hc.behind⟩
  exact ⟨hbase, Nat.mul_le_mul_right _ hstep, hbehind⟩

/-- The offset that the first record gets: a gap in front of the composite descriptor stays. -/
theorem ToV10.compOffset_eq (ht : ToV10 m d m' o) (hc : Checked m d n v11) :
    compOffset m' o v10 + (emadOffset m d + emadSize m d * emadCount m d) =
      compOffset m d v11 + (32 + 16 * emadCount m d) := by
  obtain ⟨hbase, hstep, hbehind⟩ := v11_layout hc
  have hcomp32 : compOffset m d v11 < 2 ^ 32 := rd_lt _ _ _
  have hfirst :
      compMrdOffset m (d + emadOffset m d + 16 * emadSize m d * 0) = compOffset m d v11 := by
    rw [compOffset, getEmad_v11]
    rfl
  have hoffset := ht.comp 0 hc.count
  rw [hfirst] at hoffset
  have hread : compOffset m' o v10 = (compOffset m d v11 + subU64 (32 + 16 * emadCount m d)
      (emadOffset m d + emadSize m d * emadCount m d)) % 256 ^ 4 := by
    rw [← leNat_leBytes, ← hoffset]
    rfl
  rw [hread]
  unfold subU64
  generalize emadSize m d * emadCount m d = s at *
  omega

theorem ToV10.kept_iff (ht : ToV10 m d m' o) (hc : Checked m d n v11) : Kept m d v11 m' o v10
    (48 + 16 * emadCount m d + 16 * addressRangeCount m (d + compOffset m d v11)) ↔
      compOffset m d v11 = emadOffset m d + emadSize m d * emadCount m d ∧
      ∀ i < emadCount m d, bytesAt m (d + emadOffset m d + 16 * emadSize m d * i) 4 =
        bytesAt m (d + emadOffset m d + emadSize m d * i) 4 := by
  have hcomp := ht.compOffset_eq hc
  obtain ⟨-, -, hbehind⟩ := v11_layout hc
  constructor
  · intro hk
    refine ⟨?_, fun i hi => ?_⟩
    · have hlen := congrArg List.length hk.ranges
      simp only [ranges, List.length_map, List.length_range] at hlen
      have hinside := hk.inside
      omega
    · have hend := hk.endpoints i hi
      rw [getEmad_v11] at hend
      exact (ht.endpoint i hi).symm.trans hend
  · rintro ⟨hgap, hend⟩
    have hmrd := ht.mrd
    rw [← hgap] at hmrd hcomp
    have hcomp' : compOffset m' o v10 = 32 + 16 * emadCount m d := by omega
    obtain ⟨hcount, hranges⟩ : addressRangeCount m' (o + (32 + 16 * emadCount m d)) = _ ∧ _ = _ :=
      ranges_congr fun _ hi => (bytesAt_apply hmrd hi).symm
    refine ⟨?_, fun i hi => ?_, ?_, ?_⟩
    · rw [emadCount, rd, ht.count, emadCount, rd]
    · rw [getEmad_v11, ← hend i hi]
      exact ht.endpoint i hi
    · rw [hcomp', hranges]
    · rw [hcomp', hcount]
      omega

theorem toV10_kept_iff (h : V11Setup m orig n out) : ((convertMtdToV10 m out orig).2 ∧
      Kept m (orig + 32) v11 (convertMtdToV10 m out orig).1 (out + 32) v10 (descSize m out)) ↔
    EndpointsMet m (orig + 32) n := by
  have hc := h.checked
  obtain ⟨hbase, hstep, hbehind⟩ := v11_layout hc
  have hsize := hc.size
  have hcomp32 : compOffset m (orig + 32) v11 < 2 ^ 32 := rd_lt _ _ _
  have hout : descSize m out = 48 + 16 * emadCount m (orig + 32) +
      16 * addressRangeCount m (orig + 32 + compOffset m (orig + 32) v11) := by
    rw [h.room, v10DescriptorSize, if_neg (by omega)]
    omega
  obtain ⟨hfits, hto⟩ := convertMtdToV10_spec h.size (by omega) h.layout (by omega)
  rw [hout] at hfits ⊢
  constructor
  · rintro ⟨hok, hk⟩
    obtain ⟨hgap, hend⟩ := ((hto hok).kept_iff hc).mp hk
    exact ⟨hgap, fun i hi => ⟨(hfits.mp hok).1 i hi, hend i hi⟩⟩
  · rintro ⟨hgap, hmet⟩
    have hok := hfits.mpr ⟨fun i hi => (hmet i hi).1, by rw [← hgap]; omega, by rw [← hgap]; omega⟩
    exact ⟨hok, ((hto hok).kept_iff hc).mpr ⟨hgap, fun i hi => (hmet i hi).2⟩⟩

theorem version_conversion_iff (m : Mem) (orig n out back : Nat) :
    (V10Setup m orig n out back →
      let m₁ := (convertFromV10 m out orig).1
      (convertFromV10 m out orig).2 = true ∧ senderId m₁ (out + 32) = senderId m (orig + 32) ∧
      handle m₁ (out + 32) = handle m (orig + 32) ∧
      attributes m₁ (out + 32) = rd m (orig + 32 + 2) 1 ∧
      Kept m (orig + 32) v10 m₁ (out + 32) v11 (descSize m out) ∧
      (((convertMtdToV10 m₁ back out).2 = true ∧
          bytesAt (convertMtdToV10 m₁ back out).1 (back + 32) n = bytesAt m (orig + 32) n) ↔
        ComesBack m (orig + 32) (back + 32))) ∧
    (V11Setup m orig n out →
      (((convertMtdToV10 m out orig).2 = true ∧
          Kept m (orig + 32) v11 (convertMtdToV10 m out orig).1 (out + 32) v10 (descSize m out)) ↔
        EndpointsMet m (orig + 32) n)) := by
  refine ⟨fun h => ?_, fun h => toV10_kept_iff h⟩
  obtain ⟨hok, hf, -⟩ := h.fromV10
  refine ⟨hok, ?_, hf.handle_eq, ?_, h.room ▸ hf.kept h.checked h.small, roundTrip_iff h⟩
  · rw [senderId, rd, hf.sender, senderId, rd]
  · rw [attributes, rd, hf.attributes, leNat_leBytes]
    exact Nat.mod_eq_of_lt (lt_of_lt_of_le (rd_lt m _ 1) (by decide))

def v10Desc (ids : List Nat) : Bytes :=
  leBytes 8 0 ++ leBytes 8 0x77 ++ leBytes 8 0 ++ leBytes 4 0 ++ leBytes 4 ids.length ++
    ids.flatMap (fun id => leBytes 4 id ++ leBytes 4 (32 + 16 * ids.length) ++ leBytes 8 0) ++
    (leBytes 4 1 ++ leBytes 4 1 ++ leBytes 8 0) ++ (leBytes 8 4096 ++ leBytes 4 1 ++ leBytes 4 0)

def tripMemory (ids : List Nat) : Mem :=
  let n := 64 + 16 * ids.length
  let m := putBytes (fun _ => 0) 0 (leBytes 8 n ++ leBytes 24 0 ++ v10Desc ids)
  let m := putBytes m (32 + n) (leBytes 8 (n + 16))
  putBytes m (80 + 2 * n) (leBytes 8 n)

theorem version_conversion_one :
    bytesAt (convertMtdToV10 (convertFromV10 (tripMemory [0x8001]) 112 0).1 240 112).1 272 80 =
    v10Desc [0x8001] := by
  have hsetup : V10Setup (tripMemory [0x8001]) 0 80 112 240 := by
    have hcheck : checkObj (tripMemory [0x8001]) 32 80 80 v10 (fun _ => true) = some true := by
      decide +kernel
    exact ⟨by decide +kernel, (checkObj_true hcheck).2, by decide, by decide +kernel,
      by decide +kernel, by decide +kernel, by decide +kernel⟩
  have hcomes : ComesBack (tripMemory [0x8001]) (0 + 32) (240 + 32) := by
    have hcount : emadCount (tripMemory [0x8001]) (0 + 32) = 1 := by decide +kernel
    exact ⟨by decide +kernel, by decide +kernel, by decide +kernel, fun i h0 hi => by omega⟩
  have htrip := ((version_conversion_iff _ _ _ _ _).1 hsetup).2.2.2.2.2.mpr hcomes
  exact htrip.2.trans (by decide +kernel)

/-- With two endpoints the second record is looked for behind the descriptor. -/
theorem version_conversion_fails : ∃ m orig n out back, V10Setup m orig n out back ∧
    checkObj m (orig + 32) n n v10 (fun _ => true) = some true ∧
    (convertMtdToV10 (convertFromV10 m out orig).1 back out).2 = false := by
  have hcheck : checkObj (tripMemory [0x8001, 0x8002]) 32 96 96 v10 (fun _ => true) =
    some true := by decide +kernel
  refine ⟨tripMemory [0x8001, 0x8002], 0, 96, 128, 272, ?_, hcheck, by decide +kernel⟩
  exact ⟨by decide +kernel, (checkObj_true hcheck).2, by decide, by decide +kernel,
    by decide +kernel, by decide +kernel, by decide +kernel⟩

end MtkBoot.Spmc
