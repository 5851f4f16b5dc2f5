import MtkBoot.Lib.GoodBlocks
import MtkBoot.Mtd.Model

/-! Where the bytes of an image lie: what `mtd_update_generic` leaves in the flash, and what a read
that starts at a physical offset finds. -/

namespace MtkBoot.Mtd

open Lib Except MtdInfo Nat

variable {a addr dst i limit maxsize n offset : Nat} {mem mem' : Mem} {verify : Bool}

variable {m : MtdInfo} {io : Io} {σ : Type} {op : σ → Nat → Nat → Nat → Except Int σ}
variable {fuel pos len size : Nat} {s : σ} {f f' : Mem} {data : Mem}

theorem MtdInfo.erasesize_pos (m : MtdInfo) : 0 < m.erasesize := Nat.two_pow_pos _

theorem MtdInfo.block_end (m : MtdInfo) (h : a < m.size) :
    a - a % m.erasesize + m.erasesize ≤ m.size := by
  obtain ⟨n, hn⟩ : m.erasesize ∣ m.size := m.size_aligned
  have hdiv : a / m.erasesize < n :=
    (div_lt_iff_lt_mul m.erasesize_pos).mpr (by rwa [hn, mul_comm] at h)
  calc a - a % m.erasesize + m.erasesize
      = m.erasesize * (a / m.erasesize + 1) := by
        have := mod_add_div a m.erasesize
        rw [mul_add, mul_one]
        omega
    _ ≤ m.erasesize * n := mul_le_mul_left _ hdiv
    _ = m.size := hn.symm

theorem MtdInfo.block_next (m : MtdInfo) (a : Nat) :
    a + (m.erasesize - a % m.erasesize) = (a / m.erasesize + 1) * m.erasesize := by
  have := div_add_mod' a m.erasesize
  have := mod_lt a m.erasesize_pos
  rw [succ_mul]
  omega

theorem MtdInfo.le_roundUp (m : MtdInfo) (a : Nat) : a ≤ m.roundUp a := by
  have := div_add_mod' (a + (m.erasesize - 1)) m.erasesize
  have := mod_lt (a + (m.erasesize - 1)) m.erasesize_pos
  unfold roundUp
  omega

theorem MtdInfo.roundUp_le (m : MtdInfo) (h : a ≤ m.size) : m.roundUp a ≤ m.size := by
  obtain ⟨n, hn⟩ : m.erasesize ∣ m.size := m.size_aligned
  rw [hn, mul_comm, roundUp]
  refine mul_le_mul_right _ (le_of_lt_succ ((div_lt_iff_lt_mul m.erasesize_pos).mpr ?_))
  have := m.erasesize_pos
  rw [succ_mul, mul_comm, ← hn]
  omega

/-- The blocks up to `limit`, as a partition. -/
def MtdInfo.upTo (m : MtdInfo) (limit : Nat) : MtdInfo :=
  { m with size := m.roundUp limit, size_aligned := Nat.dvd_mul_left _ _ }

/-! ## Positions -/

/-- Byte `i` of a walk that starts at `addr` lies at `a`. -/
def At (m : MtdInfo) (addr i a : Nat) : Prop :=
  ∃ g, NthGood m.bad (addr / m.erasesize) ((addr % m.erasesize + i) / m.erasesize) g ∧
    a = g * m.erasesize + (addr % m.erasesize + i) % m.erasesize ∧ a < m.size

namespace At

variable {j a' : Nat}

theorem unique (h : At m addr i a) (h' : At m addr i a') : a = a' := by
  obtain ⟨g, hg, rfl, -⟩ := h
  obtain ⟨g', hg', rfl, -⟩ := h'
  rw [hg.unique hg']

theorem of_upTo (hlimit : limit ≤ m.size) (h : At (m.upTo limit) addr i a) : At m addr i a := by
  obtain ⟨g, hg, ha, hlt⟩ := h
  exact ⟨g, hg, ha, lt_of_lt_of_le hlt (m.roundUp_le hlimit)⟩

theorem of_start : At m (addr / m.erasesize * m.erasesize) (addr % m.erasesize + i) a ↔
    At m addr i a := by
  simp only [At, Nat.mul_mod_left, zero_add, Nat.mul_div_cancel _ m.erasesize_pos]

theorem skip (hbad : m.bad (addr / m.erasesize)) (h : At m (addr + m.erasesize) i a) :
    At m addr i a := by
  obtain ⟨g, hg, ha, hlt⟩ := h
  rw [add_mod_right, add_div_right _ m.erasesize_pos] at hg
  rw [add_mod_right] at ha
  exact ⟨g, .skip hbad hg, ha, hlt⟩

theorem here (hgood : m.bad (addr / m.erasesize) = false) (hsize : addr < m.size)
    (hi : i < m.erasesize - addr % m.erasesize) : At m addr i (addr + i) := by
  have hend := m.block_end hsize
  refine ⟨addr / m.erasesize, ?_, ?_, by omega⟩
  · rw [div_eq_of_lt (by omega : addr % m.erasesize + i < m.erasesize)]
    exact .here hgood
  · rw [mod_eq_of_lt (by omega : addr % m.erasesize + i < m.erasesize), ← add_assoc, div_add_mod']

theorem next (hgood : m.bad (addr / m.erasesize) = false)
    (h : At m (addr + (m.erasesize - addr % m.erasesize)) i a) :
    At m addr (m.erasesize - addr % m.erasesize + i) a := by
  obtain ⟨g, hg, ha, hlt⟩ := h
  have hmod := mod_lt addr m.erasesize_pos
  have hsum : addr % m.erasesize + (m.erasesize - addr % m.erasesize + i) = i + m.erasesize := by
    omega
  rw [m.block_next, mul_mod_left, zero_add] at hg ha
  rw [Nat.mul_div_cancel _ m.erasesize_pos] at hg
  refine ⟨g, ?_, ?_, hlt⟩
  · rw [hsum, add_div_right _ m.erasesize_pos]
    exact .next hgood hg
  · rwa [hsum, add_mod_right]

theorem le (h : At m addr i a) : addr + i ≤ a := by
  obtain ⟨g, hg, rfl, -⟩ := h
  calc addr + i
      = addr / m.erasesize * m.erasesize + (addr % m.erasesize + i) := by
        have := div_add_mod' addr m.erasesize
        omega
    _ = (addr / m.erasesize + (addr % m.erasesize + i) / m.erasesize) * m.erasesize
          + (addr % m.erasesize + i) % m.erasesize := by
        have := div_add_mod' (addr % m.erasesize + i) m.erasesize
        rw [add_mul]
        omega
    _ ≤ g * m.erasesize + (addr % m.erasesize + i) % m.erasesize :=
        Nat.add_le_add_right (Nat.mul_le_mul_right _ hg.le) _

end At

/-- How far a walk that starts at `off` falls behind: the length of the bad blocks before its
block. -/
def lag (m : MtdInfo) (off : Nat) : Nat :=
  (off / m.erasesize - goodCount m.bad 0 (off / m.erasesize)) * m.erasesize

theorem lag_le (m : MtdInfo) (off : Nat) : lag m off ≤ off :=
  le_trans (mul_le_mul_right _ (sub_le _ _)) (div_mul_le_self _ _)

theorem At.from_start {off : Nat} (h : At m off i a) : At m 0 (off - lag m off + i) a := by
  obtain ⟨g, hg, ha, hlt⟩ := h
  have hcount := goodCount_le m.bad 0 (off / m.erasesize)
  have hoff : off - lag m off =
      goodCount m.bad 0 (off / m.erasesize) * m.erasesize + off % m.erasesize := by
    have hle :
        goodCount m.bad 0 (off / m.erasesize) * m.erasesize ≤ off / m.erasesize * m.erasesize :=
      mul_le_mul_right _ hcount
    have := div_add_mod' off m.erasesize
    rw [lag, Nat.sub_mul]
    omega
  have hpos : off - lag m off + i =
      off % m.erasesize + i + goodCount m.bad 0 (off / m.erasesize) * m.erasesize := by omega
  rw [← zero_add (off / m.erasesize)] at hg
  refine ⟨g, ?_, ?_, hlt⟩
  · rw [Nat.zero_mod, Nat.zero_div, zero_add, hpos, Nat.add_mul_div_right _ _ m.erasesize_pos,
      add_comm]
    simpa using hg.of_later
  · rwa [zero_mod, zero_add, hpos, add_mul_mod_self_right]

/-! ## The walk -/

/-- What a walk that comes to its end does, block by block. -/
inductive Run (m : MtdInfo) (op : σ → Nat → Nat → Nat → Except Int σ) :
  Nat → Nat → Nat → σ → σ → Prop
  | done {addr pos : Nat} {s : σ} : Run m op addr pos 0 s s
  | skip {addr pos len : Nat} {s s' : σ} : m.bad (addr / m.erasesize) = true →
      Run m op (addr + m.erasesize) pos len s s' → Run m op addr pos len s s'
  | last {addr pos len : Nat} {s s' : σ} :
      m.bad (addr / m.erasesize) = false → addr < m.size → len ≤ m.erasesize - addr % m.erasesize →
      op s addr pos len = .ok s' → Run m op addr pos len s s'
  | chunk {addr pos len : Nat} {s s₁ s' : σ} : m.bad (addr / m.erasesize) = false → addr < m.size →
      op s addr pos (m.erasesize - addr % m.erasesize) = .ok s₁ →
      Run m op (addr + (m.erasesize - addr % m.erasesize))
        (pos + (m.erasesize - addr % m.erasesize)) len s₁ s' →
      Run m op addr pos (m.erasesize - addr % m.erasesize + len) s s'

variable {checkbad : Bool}

theorem walk_done (h : ¬(len ≠ 0 ∧ addr < limit)) :
    walk m op limit fuel checkbad addr pos len s = .ok (len, s) := by
  cases fuel with
  | zero => rfl
  | succ fuel => rw [walk, if_neg h]

/-- The walk stays below `limit`: a chunk that is cut there leaves a rest. -/
theorem walk_run {s' : σ} (h : walk m op limit fuel checkbad addr pos len s = .ok (0, s'))
    (hcheck : checkbad ∨ addr % m.erasesize = 0) : Run (m.upTo limit) op addr pos len s s' := by
  induction fuel generalizing checkbad addr pos len s with
  | zero =>
    cases h
    exact .done
  | succ fuel ih =>
    rw [walk] at h
    by_cases hloop : len ≠ 0 ∧ addr < limit
    · simp only [if_pos hloop, if_pos hcheck] at h
      obtain ⟨_, h⟩ := of_guard h nofun
      rcases ite_eq_iff.mp h with ⟨hbad, h⟩ | ⟨hgood, h⟩
      · have hbad : m.bad (addr / m.erasesize) := by simpa [bad] using hbad
        exact .skip hbad (ih h (.inl rfl))
      have hgood : m.bad (addr / m.erasesize) = false := by simpa [bad] using hgood
      have hsize := lt_of_lt_of_le hloop.2 (m.le_roundUp limit)
      generalize hchunk : (if m.erasesize - addr % m.erasesize > len then len
        else m.erasesize - addr % m.erasesize) = c at h
      generalize hcut : (if addr + c > limit then limit - addr else c) = c' at h
      cases hop : op s addr pos c' with
      | error e => rw [hop] at h; cases h
      | ok s1 =>
        rw [hop] at h
        have hc : c' = c := by
          split_ifs at hcut with hover
          · have h := (walk_done (by omega)).symm.trans h
            have := (Prod.mk.inj (ok.inj h)).1
            split_ifs at hchunk <;> omega
          · exact hcut.symm
        subst hc
        split_ifs at hchunk with hlen
        · subst hchunk
          rw [Nat.sub_self] at h
          have h := (walk_done (by omega)).symm.trans h
          obtain rfl := (Prod.mk.inj (ok.inj h)).2
          exact .last hgood hsize hlen.le hop
        · subst hchunk
          rw [show len =
            m.erasesize - addr % m.erasesize + (len - (m.erasesize - addr % m.erasesize)) by omega]
          have hnext : (addr + (m.erasesize - addr % m.erasesize)) % m.erasesize = 0 := by
            rw [m.block_next, mul_mod_left]
          exact .chunk hgood hsize hop (ih h (.inr hnext))
    · rw [if_neg hloop] at h
      obtain ⟨rfl, rfl⟩ := Prod.mk.inj (ok.inj h)
      exact .done

/-- The end of the range in which blocks may be used. -/
def MtdInfo.limitOf (m : MtdInfo) (offset size maxsize : Nat) : Nat :=
  offset + min (max size maxsize) (m.size - offset)

theorem limitOf_eq (m : MtdInfo) (offset size maxsize : Nat) :
    offset + (if (if maxsize < size then size else maxsize) > m.size - offset then m.size - offset
      else if maxsize < size then size else maxsize) = m.limitOf offset size maxsize := by
  unfold limitOf
  split_ifs <;> omega

theorem skipBad_walk {s' : σ} (h : skipBad m op offset size maxsize s = .ok s') :
    size = 0 ∧ s = s' ∨ offset < m.size ∧ walk m op (m.limitOf offset size maxsize)
    (m.limitOf offset size maxsize - offset) true offset 0 size s = .ok (0, s') := by
  rw [skipBad] at h
  rcases ite_eq_iff.mp h with ⟨hsize, h⟩ | ⟨_, h⟩
  · cases h
    exact .inl ⟨hsize, rfl⟩
  obtain ⟨hoff, h⟩ := of_guard h nofun
  simp only [limitOf_eq] at h
  obtain ⟨_, h⟩ := of_guard h nofun
  generalize hw : walk m op _ _ true offset 0 size s = w at h
  rcases w with e | ⟨len, s1⟩
  · cases h
  · rcases ite_eq_iff.mp h with ⟨_, h⟩ | ⟨hlen, h⟩
    · cases h
    · obtain rfl := not_not.mp hlen
      cases h
      exact .inr ⟨not_le.mp hoff, rfl⟩

theorem skipBad_limit {s' : σ} (h : skipBad m op offset size maxsize s = .ok s') (hi : i < size) :
    m.limitOf offset size maxsize ≤ m.size := by
  unfold limitOf
  rcases skipBad_walk h with ⟨rfl, -⟩ | ⟨hoff, -⟩ <;> omega

theorem skipBad_run {s' : σ} (h : skipBad m op offset size maxsize s = .ok s') :
    Run (m.upTo (m.limitOf offset size maxsize)) op offset 0 size s s' := by
  rcases skipBad_walk h with ⟨rfl, rfl⟩ | ⟨-, hw⟩
  · exact .done
  · exact walk_run hw (.inl rfl)

/-! ## Reading -/

theorem Run.read {dst : Nat} {mem mem' : Mem} (h : Run m (readOob io f dst) addr pos len mem mem') :
    (∀ i < len, ∃ a, At m addr i a ∧ mem' (dst + pos + i) = f a) ∧
      ∀ x, x < dst + pos ∨ dst + pos + len ≤ x → mem' x = mem x := by
  have hcopy : ∀ {mem mem' addr pos len}, readOob io f dst mem addr pos len = .ok mem' →
      (∀ i < len, mem' (dst + pos + i) = f (addr + i)) ∧ ∀ x, x < dst + pos ∨ dst + pos + len ≤ x →
      mem' x = mem x := by
    intro mem mem' addr pos len h
    rw [readOob] at h
    rcases ite_eq_iff.mp h with ⟨_, h⟩ | ⟨_, h⟩
    · cases h
    · cases h
      refine ⟨fun i hi => ?_, fun x hx => if_neg (by omega)⟩
      rw [copied, if_pos (by omega), Nat.add_sub_cancel_left]
  induction h with
  | done => exact ⟨fun i hi => absurd hi (Nat.not_lt_zero i), fun _ _ => rfl⟩
  | skip hbad _ ih =>
    refine ⟨fun i hi => ?_, ih.2⟩
    obtain ⟨a, ha, hread⟩ := ih.1 i hi
    exact ⟨a, ha.skip hbad, hread⟩
  | last hgood hsize hlen hop =>
    obtain ⟨hin, hout⟩ := hcopy hop
    exact ⟨fun i hi => ⟨_, .here hgood hsize (by omega), hin i hi⟩, hout⟩
  | @chunk addr pos len _ _ _ hgood hsize hop _ ih =>
    obtain ⟨hin, hout⟩ := hcopy hop
    refine ⟨fun i hi => ?_, fun x hx => (ih.2 x (by omega)).trans (hout x (by omega))⟩
    by_cases hlt : i < m.erasesize - addr % m.erasesize
    · exact ⟨_, .here hgood hsize hlt, (ih.2 _ (by omega)).trans (hin i hlt)⟩
    · obtain ⟨j, rfl⟩ := Nat.exists_eq_add_of_le (not_lt.mp hlt)
      obtain ⟨a, ha, hread⟩ := ih.1 j (by omega)
      refine ⟨a, ha.next hgood, ?_⟩
      rw [← hread]
      congr 1
      omega

/-! ## Writing -/

theorem Run.write {m' : MtdInfo} (h : Run m (writeOob m' io data verify) addr pos len f f') :
    (∀ i < len, ∃ a, At m addr i a ∧ f' a = f a &&& data (pos + i)) ∧
      ∀ x, (∀ i < len, ¬At m addr i x) → f' x = f x := by
  have hprogram : ∀ {f f' addr pos len}, writeOob m' io data verify f addr pos len = .ok f' →
      f' = programmed f addr len fun i => data (pos + i) := by
    intro f f' addr pos len h
    rw [writeOob] at h
    obtain ⟨_, h⟩ := of_guard h nofun
    rcases ite_eq_iff.mp h with ⟨_, h⟩ | ⟨_, h⟩
    · generalize mtdValidateBlock m' io _ _ _ _ _ = v at h
      cases v with
      | error e => cases h
      | ok u => exact (Except.ok.inj h).symm
    · exact (Except.ok.inj h).symm
  have hin : ∀ {f addr pos len i}, i < len →
      programmed f addr len (fun i => data (pos + i)) (addr + i) =
      f (addr + i) &&& data (pos + i) := by
    intro f addr pos len i hi
    rw [programmed, if_pos (by omega), Nat.add_sub_cancel_left]
  have hout : ∀ {f addr pos len x}, (∀ i < len, addr + i ≠ x) →
      programmed f addr len (fun i => data (pos + i)) x = f x := by
    refine fun hx => if_neg fun hin => hx (_ - _) (by omega) (Nat.add_sub_cancel' hin.1)
  induction h with
  | done => exact ⟨fun i hi => absurd hi (Nat.not_lt_zero i), fun _ _ => rfl⟩
  | skip hbad _ ih =>
    refine ⟨fun i hi => ?_, fun x hx => ih.2 x fun i hi ha => hx i hi (ha.skip hbad)⟩
    obtain ⟨a, ha, hwrite⟩ := ih.1 i hi
    exact ⟨a, ha.skip hbad, hwrite⟩
  | last hgood hsize hlen hop =>
    rw [hprogram hop]
    refine ⟨fun i hi => ⟨_, .here hgood hsize (by omega), hin hi⟩,
      fun x hx => hout fun i hi heq => hx i hi ?_⟩
    exact heq ▸ .here hgood hsize (by omega)
  | @chunk addr pos len f f1 f' hgood hsize hop _ ih =>
    obtain rfl := hprogram hop
    constructor
    · intro i hi
      by_cases hlt : i < m.erasesize - addr % m.erasesize
      · refine ⟨_, .here hgood hsize hlt, (ih.2 _ fun j _ ha => ?_).trans (hin hlt)⟩
        have := ha.le
        omega
      · obtain ⟨j, rfl⟩ := Nat.exists_eq_add_of_le (not_lt.mp hlt)
        obtain ⟨a, ha, hwrite⟩ := ih.1 j (by omega)
        have hle := ha.le
        rw [hout fun i hi => by omega, add_assoc] at hwrite
        exact ⟨a, ha.next hgood, hwrite⟩
    · intro x hx
      refine (ih.2 x fun j hj ha => hx _ (by omega) (ha.next hgood)).trans
        (hout fun i hi heq => hx i (by omega) ?_)
      exact heq ▸ .here hgood hsize hi

theorem eraseLoop_erased {b : Nat} (h : eraseLoop m io
      (m.upTo limit).size fuel (b * m.erasesize) (n * m.erasesize) f = .ok (0, f')) :
    (∀ i < n * m.erasesize, ∃ a, At (m.upTo limit) (b * m.erasesize) i a ∧ f' a = 0xff) ∧
      ∀ x, (∀ i < n * m.erasesize, ¬At (m.upTo limit) (b * m.erasesize) i x) → f' x = f x := by
  have hpos := m.erasesize_pos
  induction fuel generalizing b n f with
  | zero =>
    obtain ⟨hlen, rfl⟩ := Prod.mk.inj (Except.ok.inj h)
    exact ⟨fun i hi => absurd hi (by omega), fun _ _ => rfl⟩
  | succ fuel ih =>
    rw [eraseLoop] at h
    rcases ite_eq_iff.mp h with ⟨⟨hlen, hstart⟩, h⟩ | ⟨_, h⟩
    · rw [Nat.mul_div_cancel _ hpos, ← Nat.succ_mul] at h
      obtain ⟨_, h⟩ := of_guard h nofun
      rcases ite_eq_iff.mp h with ⟨hbad, h⟩ | ⟨hgood, h⟩
      · obtain ⟨hin, hout⟩ := ih h
        rw [Nat.succ_mul] at hin hout
        have hbad : m.bad (b * m.erasesize / m.erasesize) := by
          rw [Nat.mul_div_cancel _ hpos]
          simpa [MtdInfo.bad] using hbad
        refine ⟨fun i hi => ?_, fun x hx => hout x fun i hi ha => hx i hi (ha.skip hbad)⟩
        obtain ⟨a, ha, hread⟩ := hin i hi
        exact ⟨a, ha.skip hbad, hread⟩
      obtain ⟨_, h⟩ := of_guard h nofun
      obtain ⟨n, rfl⟩ : ∃ k, n = k + 1 :=
        Nat.exists_eq_succ_of_ne_zero (by rintro rfl; simp at hlen)
      rw [show (n + 1) * m.erasesize - m.erasesize =
        n * m.erasesize by rw [Nat.succ_mul]; omega] at h
      obtain ⟨hin, hout⟩ := ih h
      have hmod : b * m.erasesize % m.erasesize = 0 := Nat.mul_mod_left _ _
      have hgood : m.bad (b * m.erasesize / m.erasesize) = false := by
        rw [Nat.mul_div_cancel _ hpos]
        simpa [MtdInfo.bad] using hgood
      rw [Nat.succ_mul] at hin hout ⊢
      have hhere {i : Nat} (hi : i < m.erasesize) :
          At (m.upTo limit) (b * m.erasesize) i (b * m.erasesize + i) :=
        .here hgood hstart (show i < m.erasesize - b * m.erasesize % m.erasesize by omega)
      have hnext {j a : Nat} (ha : At (m.upTo limit) (b * m.erasesize + m.erasesize) j a) :
          At (m.upTo limit) (b * m.erasesize) (m.erasesize + j) a := by
        have ha : At (m.upTo limit)
            (b * m.erasesize + (m.erasesize - b * m.erasesize % m.erasesize)) j a := by
          rwa [hmod, Nat.sub_zero]
        have hnext : At (m.upTo limit) _ (m.erasesize - b * m.erasesize % m.erasesize + j) a :=
          .next hgood ha
        rwa [hmod, Nat.sub_zero] at hnext
      constructor
      · intro i hi
        by_cases hlt : i < m.erasesize
        · refine ⟨_, hhere hlt, (hout _ fun j _ ha => ?_).trans (if_pos (by omega))⟩
          have := ha.le
          omega
        · obtain ⟨j, rfl⟩ := Nat.exists_eq_add_of_le (not_lt.mp hlt)
          obtain ⟨a, ha, hread⟩ := hin j (by omega)
          exact ⟨a, hnext ha, hread⟩
      · refine fun x hx => (hout x fun j hj ha => hx _ (by omega) (hnext ha)).trans
          (if_neg fun hin => ?_)
        refine hx (x - b * m.erasesize) (by omega) ?_
        have := hhere (i := x - b * m.erasesize) (by omega)
        rwa [Nat.add_sub_cancel' hin.1] at this
    · obtain ⟨hlen, rfl⟩ := Prod.mk.inj (Except.ok.inj h)
      exact ⟨fun i hi => absurd hi (by omega), fun _ _ => rfl⟩

def Stored (m : MtdInfo) (f : Mem) (data : Mem) (n : Nat) : Prop :=
  ∀ i < n, ∃ a, At m 0 i a ∧ f a = data i

/-- The bytes that `mtd_erase_skip_bad` erases: those of so many good blocks from the block of
`offset` on. -/
def ErasedAt (m : MtdInfo) (offset size maxsize a : Nat) : Prop :=
  size ≠ 0 ∧ ∃ i < m.roundUp (offset + size) - offset / m.erasesize * m.erasesize,
    At (m.upTo (m.limitOf offset size maxsize)) (offset / m.erasesize * m.erasesize) i a

theorem mtdEraseSkipBad_erased (h : mtdEraseSkipBad m io offset size maxsize true f = .ok f') :
    (∀ i < size, ∃ a, At (m.upTo (m.limitOf offset size maxsize)) offset i a ∧
      ErasedAt m offset size maxsize a) ∧ (∀ a, ErasedAt m offset size maxsize a → f' a = 0xff) ∧
      ∀ a, ¬ErasedAt m offset size maxsize a → f' a = f a := by
  rw [mtdEraseSkipBad] at h
  obtain ⟨hoff, h⟩ := of_guard h nofun
  obtain ⟨_, h⟩ := of_guard h nofun
  simp only [limitOf_eq] at h
  rcases ite_eq_iff.mp h with ⟨rfl, h⟩ | ⟨hsize, h⟩
  · cases h
    exact ⟨fun i hi => absurd hi (not_lt_zero i), fun a ha => absurd rfl ha.1, fun _ _ => rfl⟩
  generalize hloop : eraseLoop m io _ _ _ _ f = r at h
  rcases r with e | ⟨len, f1⟩
  · cases h
  obtain ⟨hlen, h⟩ := of_guard h nofun
  obtain rfl : len = 0 := by simpa using hlen
  obtain rfl := ok.inj h
  -- what is erased is whole blocks
  have hwhole : m.roundUp (offset + size) - offset / m.erasesize * m.erasesize =
      ((offset + size + (m.erasesize - 1)) / m.erasesize - offset / m.erasesize) * m.erasesize :=
    (Nat.sub_mul _ _ _).symm
  rw [hwhole] at hloop
  obtain ⟨hin, hout⟩ := eraseLoop_erased hloop
  rw [← hwhole] at hin hout
  refine ⟨fun i hi => ?_, fun a ⟨_, i, hi, ha⟩ => ?_,
    fun a ha => hout a fun i hi hat => ha ⟨hsize, i, hi, hat⟩⟩
  · have hle := m.le_roundUp (offset + size)
    have hoff := div_add_mod' offset m.erasesize
    obtain ⟨a, ha, -⟩ := hin (offset % m.erasesize + i) (by omega)
    exact ⟨a, At.of_start.mp ha, hsize, _, by omega, ha⟩
  · obtain ⟨a', ha', hff⟩ := hin i hi
    rwa [ha.unique ha']

theorem mtdUpdateGeneric_stored (h : mtdUpdateGeneric m io data size verify f = .ok f') :
    Stored m f' data size := by
  rw [mtdUpdateGeneric] at h
  cases he : mtdEraseSkipBad m io 0 size m.size true f with
  | error e => rw [he] at h; cases h
  | ok f1 =>
    rw [he] at h
    obtain ⟨hplace, herased, -⟩ := mtdEraseSkipBad_erased he
    have hwritten := (skipBad_run h).write.1
    intro i hi
    obtain ⟨a, ha, hff⟩ := hplace i hi
    obtain ⟨a', ha', hdata⟩ := hwritten i hi
    obtain rfl := ha.unique ha'
    refine ⟨a, ha.of_upTo (by unfold limitOf; omega), ?_⟩
    rw [hdata, herased a hff, zero_add]
    exact UInt8.neg_one_and

/-- What a read from a physical offset finds of a stored image: it lags behind by the bad blocks
before it. -/
theorem mtdReadSkipBad_stored (hf : Stored m f data n)
    (h : mtdReadSkipBad m io offset size maxsize f dst mem = .ok mem') :
    (∀ i < size, offset + i < n → mem' (dst + i) = data (offset + i - lag m offset)) ∧
      ∀ x, x < dst ∨ dst + size ≤ x → mem' x = mem x := by
  obtain ⟨hin, hout⟩ := (skipBad_run h).read
  refine ⟨fun i hi hn => ?_, hout⟩
  obtain ⟨a, ha, hread⟩ := hin i hi
  have ha := ha.of_upTo (skipBad_limit h hi)
  have hle := lag_le m offset
  have heq : offset + i - lag m offset = offset - lag m offset + i := by omega
  obtain ⟨a', ha', hdata⟩ := hf (offset + i - lag m offset) (by omega)
  rw [heq] at ha'
  obtain rfl := ha.from_start.unique ha'
  exact hread.trans hdata

def fourBlocks (bad : List Nat) : MtdInfo where
  size := 512
  erasesizeShift := 7
  writesizeShift := 6
  isBad b := if b ∈ bad then 1 else 0
  writesize_le := by decide
  size_aligned := ⟨4, rfl⟩

def noErrors : Io := ⟨fun _ => 0, fun _ => 0, fun _ => 0⟩

def count : Mem := fun i => UInt8.ofNat i

theorem exists_ok_bind {α β : Type} {x : Except Int α} {g : α → Except Int β}
    (h : (x.bind g).toBool = true) : ∃ a b, x = .ok a ∧ g a = .ok b := by
  cases x with
  | error e => cases h
  | ok a =>
    refine ⟨a, ?_⟩
    cases hg : g a with
    | error e =>
      rw [Except.bind, hg] at h
      cases h
    | ok b => exact ⟨b, rfl, rfl⟩

end MtkBoot.Mtd
