import MtkBoot.Nmbm.Frame
import MtkBoot.Nmbm.Ops

/-! The ranges that reading, writing and erasing accept.  One that does not wrap stays below the end
of the data area; but the checks add two 64-bit words. -/

namespace MtkBoot.Nmbm

open List

/-! ### What a page operation leaves alone -/

def Usable (ni : Instance) (lb : Nat) : Prop :=
  0 ≤ ni.blockMapping lb ∧ ni.blockState (ni.blockMapping lb).toNat ≠ .bad

instance (ni : Instance) (lb : Nat) : Decidable (Usable ni lb) :=
  inferInstanceAs (Decidable (_ ∧ _))

section Pages

variable {s s' : Sys} {addr : Nat} {data : Option Mem}

theorem retry_ni {call : Sys → Int × Sys} (hcall : ∀ t, (call t).2.ni = t.ni) (n : Nat) :
    ∀ s, (retry call n s).2.ni = s.ni := by
  induction n with
  | zero => exact fun _ => rfl
  | succ n ih =>
    intro s
    simp only [retry]
    split
    · exact hcall s
    · exact (ih _).trans (hcall s)

theorem writePhysPage_ni (s : Sys) (addr : Nat) (data : Option Mem) :
    (writePhysPage s addr data).2.ni = s.ni := by
  unfold writePhysPage
  split
  · rfl
  · exact retry_ni (fun _ => rfl) tryCount s

theorem writeLogicPage_ok (h : writeLogicPage s addr data = some (0, s')) :
    Usable s.ni (s.ni.geo.addr2ba addr) ∧ s'.ni = s.ni ∧ s'.chip.fate = s.chip.fate := by
  obtain ⟨hentry, h⟩ := of_guard h nofun
  obtain ⟨hbad, h⟩ := of_guard h nofun
  refine ⟨⟨Int.not_lt.mp hentry, hbad⟩, ?_⟩
  have hni := writePhysPage_ni s (s.ni.geo.ba2addr (s.ni.blockMapping (s.ni.geo.addr2ba addr)).toNat
    + addr % s.ni.geo.erasesize) data
  have htouch := writePhysPage_touch s (s.ni.geo.ba2addr
    (s.ni.blockMapping (s.ni.geo.addr2ba addr)).toNat + addr % s.ni.geo.erasesize) data
  generalize writePhysPage s _ data = r at h hni htouch
  obtain ⟨ok, t⟩ := r
  cases ok with
  | true =>
    obtain rfl : t = s' := by simpa using h
    exact ⟨hni, htouch.fate⟩
  | false =>
    simp only at h
    split at h <;> simp [eio] at h

end Pages

section Chunks

variable {ws off left : Nat}

theorem next_aligned (hws : 0 < ws) (hmore : min (ws - off % ws) left < left) :
    (off + min (ws - off % ws) left) % ws = 0 := by
  have hlt := Nat.mod_lt off hws
  have hdiv := Nat.div_add_mod off ws
  rw [show off + min (ws - off % ws) left = ws * (off / ws + 1) by
    rw [mul_add, mul_one]; omega]
  exact Nat.mul_mod_right ws _

end Chunks

theorem readChunks_lt (fuel : Nat) : ∀ (off left : Nat) (acc : ReadAcc) (s : Sys), off + left <
    2 ^ 64 → ∀ a ∈ (readChunks fuel off left acc s).1, a < off + left := by
  induction fuel with
  | zero => intro off left acc s _ a ha; cases ha
  | succ fuel ih =>
    intro off left acc s hword a ha
    simp only [readChunks] at ha
    split at ha
    · cases ha
    have hchunk : min (s.ni.geo.writesize - off % s.ni.geo.writesize) left ≤ left :=
      min_le_right _ _
    rcases mem_cons.mp ha with rfl | ha
    · omega
    · split at ha
      · cases ha
      · rw [u64_of_lt (by omega)] at ha
        have := ih _ _ _ _ (by omega) a ha
        omega

theorem mem_writeChunks {fuel off : Nat} {data : Bytes} {s : Sys} {c : WriteCall}
    (h : c ∈ (writeChunks (fuel + 1) off data s).1) : data ≠ [] ∧
      (c = ⟨off - off % s.ni.geo.writesize, fillPage s off data, stagePage s off data⟩ ∨
        ∃ s', writeLogicPage (stagePage s off data) (off - off % s.ni.geo.writesize)
            (some (fillPage s off data)) = some (0, s') ∧ c ∈ (writeChunks fuel
            (u64 (off + (data.take (s.ni.geo.writesize - off % s.ni.geo.writesize)).length))
            (data.drop (data.take (s.ni.geo.writesize - off % s.ni.geo.writesize)).length)
            s').1) := by
  simp only [writeChunks] at h
  split at h
  · cases h
  rename_i hne
  refine ⟨hne, ?_⟩
  rcases mem_cons.mp h with rfl | h
  · exact .inl rfl
  split at h
  · cases h
  · rename_i ret s' hwrite
    split at h
    · cases h
    · rename_i hret
      obtain rfl : ret = 0 := not_not.mp hret
      exact .inr ⟨s', hwrite, h⟩

theorem writeChunks_lt (fuel : Nat) : ∀ (off : Nat) (data : Bytes) (s : Sys), off + data.length <
    2 ^ 64 → ∀ c ∈ (writeChunks fuel off data s).1, c.addr < off + data.length := by
  induction fuel with
  | zero => intro off data s _ c hc; cases hc
  | succ fuel ih =>
    intro off data s hword c hc
    have hchunk := length_take_le' (s.ni.geo.writesize - off % s.ni.geo.writesize) data
    obtain ⟨hne, rfl | ⟨s', -, hc⟩⟩ := mem_writeChunks hc
    · have hpos := length_pos_iff.mpr hne
      simp only
      omega
    · rw [u64_of_lt (by omega)] at hc
      have := ih _ _ _ (by rw [length_drop]; omega) c hc
      rw [length_drop] at this
      omega

theorem mem_eraseLogicBlocks (n : Nat) : ∀ (lb : Nat) (s : Sys),
    ∀ b ∈ (eraseLogicBlocks n lb s).1, lb ≤ b ∧ b < lb + n := by
  induction n with
  | zero => intro lb s b hb; cases hb
  | succ n ih =>
    intro lb s b hb
    rcases mem_cons.mp hb with rfl | hb
    · omega
    · split at hb
      · cases hb
      · split at hb
        · cases hb
        · have := ih _ _ b hb
          omega

/-! ### The three operations on a range -/

inductive RangeOp where
  | read (size : Nat)
  | write (data : Bytes)
  | erase (size : Nat)

namespace RangeOp

def size : RangeOp → Nat
  | read size => size
  | write data => data.length
  | erase size => size

/-- Protected instances refuse all three, read-only devices the two that change the chip. -/
def refused (ni : Instance) : RangeOp → Bool
  | read _ => ni.isProtected
  | write _ => ni.isProtected || ni.lower.readOnly
  | erase _ => ni.isProtected || ni.lower.readOnly

/-- The sanity checks at `addr`; the sum wraps. -/
def Passes (op : RangeOp) (ni : Instance) (addr : Nat) : Prop :=
  op.refused ni = false ∧ addr < ni.geo.ba2addr ni.dataBlockCount ∧
    u64 (addr + op.size) ≤ ni.geo.ba2addr ni.dataBlockCount

instance (op : RangeOp) (ni : Instance) (addr : Nat) : Decidable (op.Passes ni addr) :=
  inferInstanceAs (Decidable (_ ∧ _))

/-- The entries of the mapping table that the operation looks up. -/
def indices (s : Sys) (addr : Nat) : RangeOp → List Nat
  | read size => (readRange s addr size).1.map s.ni.geo.addr2ba
  | write data => (writeRange s addr data).1.map fun c => s.ni.geo.addr2ba c.addr
  | erase size => (eraseBlockRange s addr size).1

variable {s : Sys} {addr : Nat}

theorem mem_readRange {size a : Nat} (h : a ∈ (readRange s addr size).1) :
    a ∈ (readChunks size addr size { data := [], hasEccErr := false, maxBitflips := 0 } s).1 := by
  unfold readRange at h
  split_ifs at h
  all_goals first | exact h | cases h

theorem refuse_eq_none : refuse s.ni addr = none ↔ (s.ni.isProtected || s.ni.lower.readOnly) =
    false ∧ addr < s.ni.geo.ba2addr s.ni.dataBlockCount := by
  unfold refuse
  split_ifs with hrefused haddr
  · simp [hrefused]
  · simp [haddr]
  · simpa [not_le.mp haddr] using hrefused

theorem mem_writeRange {data : Bytes} {c : WriteCall} : c ∈ (writeRange s addr data).1 ↔
    (write data).Passes s.ni addr ∧ c ∈ (writeChunks data.length addr data s).1 := by
  have hpasses : (write data).Passes s.ni addr ↔ refuse s.ni addr = none ∧
      ¬s.ni.geo.ba2addr s.ni.dataBlockCount < u64 (addr + data.length) := by
    rw [refuse_eq_none, not_lt, and_assoc]
    rfl
  rw [hpasses, writeRange]
  cases refuse s.ni addr with
  | some ret => simp
  | none =>
    simp only [true_and]
    split_ifs with hsum hne
    · simp [hsum]
    · simp [hne, writeChunks]
    · simp only [hsum, not_false_eq_true, true_and]

theorem mem_eraseBlockRange {size lb : Nat} (h : lb ∈ (eraseBlockRange s addr size).1) : size ≠ 0 ∧
    lb ∈ (eraseLogicBlocks (s.ni.geo.addr2ba (subU64 (addr + size) 1) + 1 - s.ni.geo.addr2ba addr)
      (s.ni.geo.addr2ba addr) s).1 := by
  unfold eraseBlockRange at h
  cases hrefuse : refuse s.ni addr with
  | some ret => simp [hrefuse] at h
  | none =>
    simp only [hrefuse] at h
    split_ifs at h with hsum hsize
    · simp at h
    · simp at h
    · exact ⟨hsize, h⟩

/-- Without a wrapped sum the blocks looked up are blocks of the data area. -/
theorem indices_lt (op : RangeOp) (hle : addr + op.size ≤ s.ni.geo.ba2addr s.ni.dataBlockCount)
    (hword : s.ni.geo.ba2addr s.ni.dataBlockCount < 2 ^ 64) :
    ∀ i ∈ op.indices s addr, i < s.ni.dataBlockCount := by
  have hes := s.ni.geo.erasesize_pos
  -- an address below the end of the data area
  have hba {a : Nat} (ha : a < s.ni.geo.ba2addr s.ni.dataBlockCount) :
      s.ni.geo.addr2ba a < s.ni.dataBlockCount :=
    lt_of_le_of_lt (Nat.mod_le _ _) ((Nat.div_lt_iff_lt_mul hes).mpr ha)
  intro i hi
  cases op with
  | read size =>
    obtain ⟨a, ha, rfl⟩ := mem_map.mp hi
    have hle : addr + size ≤ _ := hle
    exact hba (lt_of_lt_of_le (readChunks_lt _ _ _ _ _ (by omega) a (mem_readRange ha)) hle)
  | write data =>
    obtain ⟨c, hc, rfl⟩ := mem_map.mp hi
    have hle : addr + data.length ≤ _ := hle
    exact hba (lt_of_lt_of_le (writeChunks_lt _ _ _ _ (by omega) c (mem_writeRange.mp hc).2) hle)
  | erase size =>
    have hle : addr + size ≤ _ := hle
    obtain ⟨hsize, hi⟩ := mem_eraseBlockRange hi
    have hlast := hba (a := addr + size - 1) (by omega)
    rw [subU64_of_le (by omega) (by omega)] at hi
    have := mem_eraseLogicBlocks _ _ _ i hi
    omega

/-- The checks keep an operation inside the data area unless the sum of address and size wraps in
an operation that nothing else refuses. -/
theorem bounded_iff (op : RangeOp) (hsize : op.size < 2 ^ 64)
    (hword : s.ni.geo.ba2addr s.ni.dataBlockCount < 2 ^ 64) :
    (op.Passes s.ni addr → addr + op.size ≤ s.ni.dataBlockCount * s.ni.geo.erasesize ∧
        ∀ i ∈ op.indices s addr, i < s.ni.dataBlockCount) ↔
      addr + op.size < 2 ^ 64 ∨ s.ni.geo.ba2addr s.ni.dataBlockCount ≤ addr ∨
        op.refused s.ni = true := by
  constructor
  · intro h
    by_contra hnot
    simp only [not_or, not_lt, not_le, Bool.not_eq_true] at hnot
    obtain ⟨hwrap, hlt, hallowed⟩ := hnot
    have hsum : u64 (addr + op.size) ≤ s.ni.geo.ba2addr s.ni.dataBlockCount := by
      unfold u64
      omega
    have hle : addr + op.size ≤ s.ni.geo.ba2addr s.ni.dataBlockCount := (h ⟨hallowed, hlt, hsum⟩).1
    omega
  · rintro h ⟨hallowed, hlt, hsum⟩
    have hnowrap : addr + op.size < 2 ^ 64 := by
      rcases h with h | h | h
      · exact h
      · omega
      · rw [hallowed] at h
        cases h
    rw [u64_of_lt hnowrap] at hsum
    exact ⟨hsum, indices_lt op hsum hword⟩

theorem bounded_iff_two_blocks : ((erase 512).Passes smallSys.ni 256 →
      256 + (erase 512).size ≤ smallSys.ni.dataBlockCount * smallSys.ni.geo.erasesize ∧
        ∀ i ∈ (erase 512).indices smallSys 256, i < smallSys.ni.dataBlockCount) ↔
        256 + (erase 512).size < 2 ^ 64 ∨ smallSys.ni.geo.ba2addr smallSys.ni.dataBlockCount ≤ 256 ∨
        (erase 512).refused smallSys.ni = true :=
  bounded_iff (erase 512) (by decide) (by decide)

/-- Erasing `2 ^ 64 - 256` bytes from the second block on is let through: the sum is zero. -/
theorem wrapped_range_passes : (erase (2 ^ 64 - 256)).Passes smallSys.ni 256 ∧
    ¬256 + (erase (2 ^ 64 - 256)).size ≤
      smallSys.ni.dataBlockCount * smallSys.ni.geo.erasesize := by
  decide

end RangeOp

end MtkBoot.Nmbm
