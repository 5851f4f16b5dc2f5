import MtkBoot.Mtd.Update

/-! When the pieces that `boot_from_mtd` reads join up to the image that was written: each is read
from a physical offset, so it lags behind by the bad blocks before it. -/

namespace MtkBoot.Mtd

def Loaded (mem data : Mem) (k : Nat) : Prop := ∀ i < k, mem i = data i

theorem Loaded.mono {mem data : Mem} {k l : Nat} (h : Loaded mem data l) (hle : k ≤ l) :
    Loaded mem data k :=
  fun i hi => h i (lt_of_lt_of_le hi hle)

/-- The images that U-Boot boots; a FIT is `size` bytes of device tree and the external data after
it. -/
inductive Kind
  | legacy
  | fit (size : Nat)

/-- An image of `n` bytes of which the image functions report the true sizes. -/
def WellFormed (ops : ImageOps) (data : Mem) (n : Nat) : Kind → Prop
  | .legacy =>
    legacyHdrsize ≤ n ∧ ∀ mem, Loaded mem data legacyHdrsize → ops.genimgGetFormat mem = .legacy ∧
      ops.imageGetImageSize mem = n
  | .fit size =>
    fitHdrsize ≤ size ∧ size ≤ n ∧ (∀ mem, Loaded mem data fitHdrsize →
      ops.genimgGetFormat mem = .fit ∧ ops.fitGetSize mem = size) ∧
      -- without external data the reported size is 0
      ∀ mem, Loaded mem data size → max size (ops.itbImageSize mem) = n

/-- The bytes of `data` from `lo` to `hi` are found again where the walk from `lo` looks for
them. -/
def Joins (m : MtdInfo) (data : Mem) (lo hi : Nat) : Prop :=
  ∀ i, lo ≤ i → i < hi → data i = data (i - lag m lo)

/-- When the pieces join up: `mem` is the memory at the load address before. -/
def Rejoins (m : MtdInfo) (mem data : Mem) (n : Nat) : Kind → Prop
  | .legacy => Joins m data (hdrsize m) n
  | .fit size =>
    if size < hdrsize m then ∀ i, hdrsize m ≤ i → i < n → mem i = data i
    else Joins m data (hdrsize m) size ∧ Joins m data size n

variable {m : MtdInfo} {io : Io} {data f mem mem' : Mem} {n lo hi : Nat}

theorem Joins.of_no_lag (h : lag m lo = 0) : Joins m data lo hi := by
  intro i _ _
  rw [h, Nat.sub_zero]

theorem lag_zero (m : MtdInfo) : lag m 0 = 0 := Nat.le_zero.mp (lag_le m 0)

theorem Loaded.read (hf : Stored m f data n) (hlo : lo ≤ hi) (hn : hi ≤ n) (h : Loaded mem data lo)
    (hread : mtdReadSkipBad m io lo (hi - lo) (m.size - lo) f lo mem = .ok mem') :
    Loaded mem' data hi ↔ Joins m data lo hi := by
  obtain ⟨hin, hout⟩ := mtdReadSkipBad_stored hf hread
  have hpiece : ∀ i, lo ≤ i → i < hi → mem' i = data (i - lag m lo) := by
    intro i hge hlt
    have := hin (i - lo) (by omega) (by omega)
    rwa [Nat.add_sub_cancel' hge] at this
  constructor
  · intro hall i hge hlt
    rw [← hpiece i hge hlt, hall i hlt]
  · intro hjoin i hlt
    by_cases hge : lo ≤ i
    · rw [hpiece i hge hlt, ← hjoin i hge hlt]
    · rw [hout i (.inl (by omega))]
      exact h i (by omega)

theorem Loaded.header (hf : Stored m f data n)
    (hread : mtdReadSkipBad m io 0 (hdrsize m) m.size f 0 mem = .ok mem') :
    Loaded mem' data (min (hdrsize m) n) ∧ ∀ x, hdrsize m ≤ x → mem' x = mem x := by
  obtain ⟨hin, hout⟩ := mtdReadSkipBad_stored hf hread
  refine ⟨fun i hi => ?_, fun x hx => hout x (.inr (by omega))⟩
  have := hin i (by omega) (by omega)
  rwa [lag_zero, zero_add, Nat.sub_zero] at this

theorem bind_ok {α β : Type} {x : Except Int α} {k : α → Except Int β} {b : β}
    (h : x >>= k = .ok b) : ∃ a, x = .ok a ∧ k a = .ok b := by
  cases x with
  | error e => cases h
  | ok a => exact ⟨a, rfl, h⟩

/-- When `boot_from_mtd` succeeds on a stored image, what it loaded is the image exactly if the
pieces join up. -/
theorem bootFromMtd_loaded {ops : ImageOps} {fdtargs : Int} {kind : Kind} (hf : Stored m f data n)
    (hwf : WellFormed ops data n kind) (h : bootFromMtd m io ops fdtargs 0 f mem = .ok mem') :
    Loaded mem' data n ↔ Rejoins m mem data n kind := by
  have hhdr : 64 ≤ hdrsize m := le_trans (le_max_right 40 64) (le_max_left _ _)
  obtain ⟨mem1, hread, hboot⟩ := bind_ok h
  obtain ⟨hstart, hrest⟩ := Loaded.header hf hread
  clear h
  obtain ⟨mem2, h, hargs⟩ := bind_ok hboot
  obtain rfl : mem2 = mem' := by
    rcases ite_eq_iff.mp hargs with ⟨_, h⟩ | ⟨_, h⟩
    · cases h
    · exact Except.ok.inj h
  simp only [loadImage, zero_add] at h
  cases kind with
  | legacy =>
    obtain ⟨hn, hops⟩ := hwf
    obtain ⟨hformat, hsize⟩ := hops mem1 (hstart.mono (Nat.le_min.mpr ⟨hhdr, hn⟩))
    rw [hformat] at h
    simp only [hsize] at h
    rcases ite_eq_iff.mp h with ⟨hlt, h⟩ | ⟨hge, h⟩
    · -- the whole image is in the header read
      cases h
      rw [min_eq_right hlt.le] at hstart
      exact ⟨fun _ i hi hin => absurd hi (by omega), fun _ => hstart⟩
    · rw [min_eq_left (by omega)] at hstart
      exact hstart.read hf (by omega) (Nat.le_refl n) h
  | fit size =>
    obtain ⟨hmin, hsn, hops, hitb⟩ := hwf
    have h40 : fitHdrsize = 40 := rfl
    obtain ⟨hformat, hsize⟩ := hops mem1 (hstart.mono (by omega))
    rw [hformat] at h
    simp only [hsize] at h
    rw [Rejoins]
    rcases ite_eq_iff.mp h with ⟨hlt, h⟩ | ⟨hge, h⟩
    · cases h
      rw [if_pos hlt]
      constructor
      · intro hall i hi hin
        rw [← hrest i hi, hall i hin]
      · intro hmem i hi
        by_cases hhi : i < hdrsize m
        · exact hstart i (by omega)
        · rw [hrest i (by omega), hmem i (by omega) hi]
    · rw [if_neg hge]
      rw [min_eq_left (by omega)] at hstart
      obtain ⟨mem3, htree, h⟩ := bind_ok h
      have htree := hstart.read hf (by omega) hsn htree
      by_cases hloaded : Loaded mem3 data size
      · have htotal := hitb mem3 hloaded
        rcases ite_eq_iff.mp h with ⟨hext, h⟩ | ⟨hext, h⟩
        · rw [max_eq_right (by omega)] at htotal
          rw [htotal] at h
          rw [hloaded.read hf hsn (Nat.le_refl n) h]
          exact ⟨fun hjoin => ⟨htree.mp hloaded, hjoin⟩, And.right⟩
        · cases h
          rw [max_eq_left (by omega)] at htotal
          subst htotal
          exact htree.trans ⟨fun hjoin => ⟨hjoin, fun i hi hlt => absurd hi (by omega)⟩, And.left⟩
      · -- the third read stays above the part that is already wrong
        have hkept : ∀ x < size, mem2 x = mem3 x := by
          rcases ite_eq_iff.mp h with ⟨_, h⟩ | ⟨_, h⟩
          · exact fun x hx => (mtdReadSkipBad_stored hf h).2 x (.inl hx)
          · cases h
            exact fun _ _ => rfl
        refine iff_of_false (fun hall => hloaded fun i hi => ?_)
          (fun hjoin => hloaded (htree.mpr hjoin.1))
        rw [← hkept i hi]
        exact hall i (by omega)

/-- An image that was written successfully and loaded without an error is in memory exactly if its
pieces join up, whatever the bad blocks. -/
theorem boot_loads_written_image {io' : Io} {ops : ImageOps} {fdtargs : Int} {verify : Bool}
    {f₀ : Mem} {kind : Kind}
    (hwf : WellFormed ops data n kind) (hupdate : mtdUpdateGeneric m io data n verify f₀ = .ok f)
    (hboot : bootFromMtd m io' ops fdtargs 0 f mem = .ok mem') :
    Loaded mem' data n ↔ Rejoins m mem data n kind :=
  bootFromMtd_loaded (mtdUpdateGeneric_stored hupdate) hwf hboot

def fitOps : ImageOps where
  genimgGetFormat _ := .fit
  imageGetImageSize _ := 0
  fitGetSize _ := 128
  itbImageSize _ := 256

theorem fitOps_wellFormed : WellFormed fitOps count 256 (.fit 128) :=
  ⟨by decide, by decide, fun _ _ => ⟨rfl, rfl⟩, fun _ _ => rfl⟩

theorem fourBlocks_boots :
    ∃ f mem', mtdUpdateGeneric (fourBlocks [3]) noErrors count 256 true (fun _ => 0) = .ok f ∧
      bootFromMtd (fourBlocks [3]) noErrors fitOps 0 0 f (fun _ => 0) = .ok mem' :=
  exists_ok_bind (by decide +kernel)

theorem fit_loaded_before_bad :
    ∃ f mem', mtdUpdateGeneric (fourBlocks [3]) noErrors count 256 true (fun _ => 0) = .ok f ∧
      bootFromMtd (fourBlocks [3]) noErrors fitOps 0 0 f (fun _ => 0) = .ok mem' ∧
      Loaded mem' count 256 := by
  obtain ⟨f, mem', hupdate, hboot⟩ := fourBlocks_boots
  refine ⟨f, mem', hupdate, hboot,
    (boot_loads_written_image fitOps_wellFormed hupdate hboot).mpr ?_⟩
  exact ⟨.of_no_lag (by decide), .of_no_lag (by decide)⟩

/-- With the first block bad the external data is read from one block too early. -/
theorem external_data_misplaced : WellFormed fitOps count 256 (.fit 128) ∧
    ∃ f mem', mtdUpdateGeneric (fourBlocks [0]) noErrors count 256 true (fun _ => 0) = .ok f ∧
      bootFromMtd (fourBlocks [0]) noErrors fitOps 0 0 f (fun _ => 0) = .ok mem' ∧ mem' 128 = 0 ∧
      count 128 = 128 := by
  have hbyte :
    ((mtdUpdateGeneric (fourBlocks [0]) noErrors count 256 true (fun _ => 0)).bind fun f =>
      (bootFromMtd (fourBlocks [0]) noErrors fitOps 0 0 f (fun _ => 0)).map (· 128)) =
        .ok 0 := by decide +kernel
  obtain ⟨f, mem', hf, hboot⟩ : ∃ f mem', mtdUpdateGeneric (fourBlocks [0]) noErrors count 256 true
    (fun _ => 0) = .ok f ∧ bootFromMtd (fourBlocks [0]) noErrors fitOps 0 0 f (fun _ => 0) =
    .ok mem' := exists_ok_bind (by decide +kernel)
  rw [hf, Except.bind, hboot] at hbyte
  exact ⟨fitOps_wellFormed, f, mem', hf, hboot, Except.ok.inj hbyte, by decide⟩

end MtkBoot.Mtd
