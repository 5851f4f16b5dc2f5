import MtkBoot.Mtd.Update

/-! Erasing, writing and reading one range with the same arguments: the three loops visit the same
good blocks. -/

namespace MtkBoot.Mtd

variable {m : MtdInfo} {io : Io} {σ τ : Type} {op : σ → Nat → Nat → Nat → Except Int σ}
  {op' : τ → Nat → Nat → Nat → Except Int τ} {f f₁ : Mem} {offset size maxsize : Nat}

/-- Where a walk goes does not depend on what it does there. -/
theorem walk_ok (hop : ∀ t addr pos n, ∃ t', op' t addr pos n = .ok t')
    {limit fuel addr pos len n : Nat} {checkbad : Bool}
    {s s' : σ} (h : walk m op limit fuel checkbad addr pos len s = .ok (n, s')) (t : τ) :
    ∃ t', walk m op' limit fuel checkbad addr pos len t = .ok (n, t') := by
  induction fuel generalizing checkbad addr pos len s t with
  | zero =>
    cases h
    exact ⟨t, rfl⟩
  | succ fuel ih =>
    rw [walk] at h ⊢
    rcases ite_eq_iff.mp h with ⟨hloop, h⟩ | ⟨hloop, h⟩
    · rw [if_pos hloop]
      obtain ⟨hneg, h⟩ := of_guard h (by simp)
      rw [if_neg hneg]
      rcases ite_eq_iff.mp h with ⟨hbad, h⟩ | ⟨hgood, h⟩
      · rw [if_pos hbad]
        exact ih h t
      rw [if_neg hgood]
      dsimp only at h ⊢
      split at h
      · cases h
      · obtain ⟨t', ht⟩ := hop t addr pos _
        rw [ht]
        exact ih h t'
    · rw [if_neg hloop]
      cases h
      exact ⟨t, rfl⟩

theorem skipBad_ok (hop : ∀ t addr pos n, ∃ t', op' t addr pos n = .ok t') {s s' : σ}
    (h : skipBad m op offset size maxsize s = .ok s') (t : τ) :
    ∃ t', skipBad m op' offset size maxsize t = .ok t' := by
  rw [skipBad] at h ⊢
  rcases ite_eq_iff.mp h with ⟨hsize, h⟩ | ⟨hsize, h⟩
  · exact ⟨t, if_pos hsize⟩
  rw [if_neg hsize]
  obtain ⟨hoff, h⟩ := of_guard h (by simp)
  rw [if_neg hoff]
  obtain ⟨hcheck, h⟩ := of_guard h (by simp)
  rw [if_neg hcheck]
  dsimp only at h ⊢
  split at h
  · cases h
  · rename_i len s₁ hw
    rcases ite_eq_iff.mp h with ⟨_, h⟩ | ⟨hlen, h⟩
    · cases h
    · obtain ⟨t', ht⟩ := walk_ok hop hw t
      exact ⟨t', by rw [ht]; exact if_neg hlen⟩

/-- Whatever the flash holds and whatever is written: every byte is written to one that this call
has erased, nothing is erased behind the limit rounded up to a block, and reading the range gives
the bytes back. -/
theorem erase_write_read (hread : ∀ a, io.read a = 0 ∨ io.read a = -euclean)
    (herase : mtdEraseSkipBad m io offset size maxsize true f = .ok f₁) :
    ∃ (E : Set Nat) (place : Nat → Nat), (∀ a ∈ E, a < m.roundUp (m.limitOf offset size maxsize)) ∧
      (∀ i < size, place i ∈ E) ∧
      ∀ g g₁, mtdEraseSkipBad m io offset size maxsize true g = .ok g₁ →
        (∀ a ∈ E, g₁ a = 0xff) ∧ (∀ a ∉ E, g₁ a = g a) ∧
        ∀ data verify g₂, mtdWriteSkipBad m io offset size maxsize data verify g₁ = .ok g₂ →
          (∀ i < size, g₂ (place i) = data i) ∧ (∀ x, (∀ i < size, place i ≠ x) → g₂ x = g₁ x) ∧
          ∀ dst mem, ∃ mem', mtdReadSkipBad m io offset size maxsize g₂ dst mem = .ok mem' ∧
            ∀ i < size, mem' (dst + i) = data i := by
  obtain ⟨hplace, -⟩ := mtdEraseSkipBad_erased herase
  choose! place hat hin using hplace
  refine ⟨{a | ErasedAt m offset size maxsize a}, place, fun a ⟨_, i, _, _, _, _, hlt⟩ => hlt, hin,
    fun g g₁ he => ?_⟩
  obtain ⟨-, hff, hkept⟩ := mtdEraseSkipBad_erased he
  refine ⟨hff, hkept, fun data verify g₂ hw => ?_⟩
  obtain ⟨hwritten, hframe⟩ := (skipBad_run hw).write
  have hdata : ∀ i < size, g₂ (place i) = data i := by
    intro i hi
    obtain ⟨a, ha, hbyte⟩ := hwritten i hi
    obtain rfl := ha.unique (hat i hi)
    rw [hbyte, hff _ (hin i hi), zero_add]
    exact UInt8.neg_one_and
  refine ⟨hdata, fun x hx => hframe x fun i hi ha => hx i hi ((hat i hi).unique ha),
    fun dst mem => ?_⟩
  have hop (mem : Mem) (addr pos n : Nat) :
      ∃ mem', readOob io g₂ dst mem addr pos n = .ok mem' := by
    refine ⟨_, if_neg ?_⟩
    rcases hread addr with h | h <;> simp [h]
  obtain ⟨mem', hr⟩ := skipBad_ok hop hw mem
  refine ⟨mem', hr, fun i hi => ?_⟩
  obtain ⟨a, ha, hbyte⟩ := (skipBad_run hr).read.1 i hi
  rw [← hdata i hi, ← ha.unique (hat i hi), ← hbyte]
  rfl

theorem erase_write_read_across_bad : ∃ (f₁ f₂ mem : Mem) (place : Nat → Nat),
    mtdEraseSkipBad (fourBlocks [1]) noErrors 100 100 300 true (fun _ => 0) = .ok f₁ ∧
    mtdWriteSkipBad (fourBlocks [1]) noErrors 100 100 300 count true f₁ = .ok f₂ ∧
    mtdReadSkipBad (fourBlocks [1]) noErrors 100 100 300 f₂ 0 (fun _ => 0) = .ok mem ∧
    ∀ i < 100, f₁ (place i) = 0xff ∧ f₂ (place i) = count i ∧ mem i = count i := by
  obtain ⟨f₁, f₂, hf₁, hf₂⟩ : ∃ f₁ f₂, mtdEraseSkipBad (fourBlocks [1]) noErrors 100 100 300 true
    (fun _ => 0) = .ok f₁ ∧ mtdWriteSkipBad (fourBlocks [1]) noErrors 100 100 300 count true f₁ =
    .ok f₂ := exists_ok_bind (by decide +kernel)
  obtain ⟨E, place, -, hin, hall⟩ := erase_write_read (fun _ => .inl rfl) hf₁
  obtain ⟨herased, -, hwrite⟩ := hall _ _ hf₁
  obtain ⟨hstored, -, hread⟩ := hwrite _ _ _ hf₂
  obtain ⟨mem, hmem, hback⟩ := hread 0 fun _ => 0
  refine ⟨f₁, f₂, mem, place, hf₁, hf₂, hmem, fun i hi => ⟨herased _ (hin i hi), hstored i hi, ?_⟩⟩
  rw [← hback i hi, Nat.zero_add]

end MtkBoot.Mtd
