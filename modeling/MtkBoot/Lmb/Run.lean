import MtkBoot.Lib.System
import MtkBoot.Lmb.Add
import MtkBoot.Lmb.Cut
import MtkBoot.Lmb.Query

/-! Over whole runs every call keeps both region lists sorted and disjoint, except an allocation
below an address that is smaller than its size. -/

namespace MtkBoot.Lmb

open MtkBoot.Lib Region

variable {addr align b base flags size : Nat} {l left right : List Region} {lmb : Map} {lst : Alist}
  {op : Op} {r : Region}

section Added

variable {expand : Bool} {res : Int × Alist}

theorem AddCase.wf (h : AddCase base size flags lst expand res) (hwf : Wf lst.rgn)
    (hsize : 0 < size) (htop : base + size < 2 ^ 64) : Wf res.2.rgn := by
  cases h with
  | broken => exact hwf
  | full => exact hwf
  | added alloc hkept hsealed =>
    obtain ⟨left, mid, right, m, hl, rfl, hm, -⟩ := hsealed
    exact hm.wf hsize htop (hl ▸ hwf)
  | wrapped => exact .nil
  | @displaced left right r s hlost hrgn hflags hadj =>
    rw [hrgn] at hwf
    have hpos := hwf.size_pos (r := s) (by simp)
    have hstop : (⟨r.base, r.size + s.size, r.flags⟩ : Region).stop = s.stop := by
      simp only [Region.stop] at hadj ⊢
      omega
    have hwf' : Wf (left ++ [r, s] ++ right) := by simpa using hwf
    have hsplit : Ordered Region.base Region.stop ((left ++ [r]) ++ s :: right) := by
      simpa using hwf.ordered
    refine hwf'.replace (Nat.add_pos_right _ hpos) (hstop ▸ hwf.bounded s (by simp))
      hwf.ordered.sides.1 ?_
    rw [hstop]
    exact hsplit.sides.2

theorem AddCase.err (h : AddCase base size flags lst true res) (herr : lst.err = false) :
    res.2.err = false := by
  cases h with
  | broken h => rw [h] at herr; cases herr
  | full h => cases h
  | added => exact herr
  | wrapped => exact herr
  | displaced => exact herr

theorem AddCase.none (h : AddCase base size lmbNone lst expand res)
    (hnone : ∀ r ∈ lst.rgn, r.flags = lmbNone) : ∀ r ∈ res.2.rgn, r.flags = lmbNone := by
  cases h with
  | broken => exact hnone
  | full => exact hnone
  | added alloc hkept hsealed =>
    obtain ⟨left, mid, right, m, hl, rfl, hm, -⟩ := hsealed
    simp only [hl, List.mem_append] at hnone
    intro r hr
    rcases mem_append_cons.mp hr with hr | rfl | hr
    · exact hnone r (by simp [hr])
    · exact hm.flags_eq
    · exact hnone r (by simp [hr])
  | wrapped => simp
  | @displaced left right r s hlost hrgn hflags hadj =>
    simp only [hrgn, List.mem_append, List.mem_cons] at hnone
    intro x hx
    rcases mem_append_cons.mp hx with hx | rfl | hx
    · exact hnone x (by simp [hx])
    · exact hnone r (by simp)
    · exact hnone x (by simp [hx])

end Added

/-! ### The overlap test -/

section Overlap

variable (hsize : 0 < size) (htop : base + size < 2 ^ 64)
include hsize htop

theorem overlapChecks_reserve (flags : Nat) (h : ∀ r ∈ l, r.Sane) (i : Nat) :
    overlapChecks base size flags false l i = none ↔ Compatible base size flags l := by
  induction l generalizing i with
  | nil => simp [overlapChecks, Compatible]
  | cons r l ih =>
    have hr := (h r (by simp)).overlap_iff hsize htop
    have ih := ih (fun x hx => h x (by simp [hx])) (i + 1)
    unfold overlapChecks
    split
    · next hc =>
      simp only [Bool.and_eq_true, Bool.false_or, Bool.or_eq_true, decide_eq_true_eq, hr] at hc
      simp only [reduceCtorEq, false_iff]
      intro hcompat
      obtain ⟨hr0, h0⟩ := hcompat r (by simp) hc.1.1 hc.1.2
      rcases hc.2 with hne | hne
      · exact hne h0
      · exact hne (h0.trans hr0.symm)
    · next hc =>
      simp only [Bool.and_eq_true, Bool.false_or, Bool.or_eq_true, decide_eq_true_eq, hr] at hc
      rw [ih]
      constructor
      · intro hcompat x hx hlo hhi
        rcases List.mem_cons.mp hx with rfl | hx
        · by_contra hne
          apply hc
          refine ⟨⟨hlo, hhi⟩, ?_⟩
          by_contra hor
          push Not at hor
          exact hne ⟨hor.2 ▸ hor.1, hor.1⟩
        · exact hcompat x hx hlo hhi
      · exact fun hcompat x hx => hcompat x (by simp [hx])

end Overlap

theorem Wf.shrink {r' : Region} (h : Wf (left ++ r :: right)) (hsize : 0 < r'.size)
    (hbase : r.base ≤ r'.base) (hstop : r'.stop ≤ r.stop) : Wf (left ++ r' :: right) := by
  have h' : Wf (left ++ [r] ++ right) := by simpa using h
  obtain ⟨hleft, hright⟩ := h.ordered.sides
  exact h'.replace hsize (hstop.trans_lt (h.bounded r (by simp)))
    (fun x hx => (hleft x hx).trans hbase) fun x hx => hstop.trans (hright x hx)

theorem tail_apart (h : Rep (left ++ r :: right)) (hsize : 0 < size) (hbase : r.base < base)
    (hstop : base + size < r.stop) : Apart (left ++ ⟨r.base, base - r.base, r.flags⟩ :: right)
    (base + size) (r.stop - (base + size)) := by
  obtain ⟨hleft, hright⟩ := h.ordered.sides
  rintro x hx ⟨h1, h2⟩
  rcases mem_append_cons.mp hx with hx | rfl | hx
  · have := hleft x hx
    omega
  · simp only [stop] at h1 hstop
    omega
  · have := hright x hx
    omega

theorem compatible_of_apart (h : Apart l base size) (flags : Nat) : Compatible base size flags l :=
  fun r hr hlo hhi => absurd ⟨hlo, hhi⟩ (h r hr)

theorem lmbFree_wf (h : Wf lst.rgn) (hsize : 0 < size)
    (htop : base + size < 2 ^ 64) (expand : Bool) : Wf (lmbFree lst base size expand).2.rgn ∧
      (expand → lst.err = false → (lmbFree lst base size expand).2.err = false) := by
  have hcases := lmbFree_cases expand h.rep hsize htop.le
  generalize lmbFree lst base size expand = res at hcases
  cases hcases with
  | missing => exact ⟨h, fun _ herr => herr⟩
  | whole heq =>
    rw [heq] at h
    exact ⟨h.sublist (by simp), fun _ herr => herr⟩
  | front heq hbase hstop =>
    rw [heq] at h
    refine ⟨h.shrink ?_ ?_ ?_, fun _ herr => herr⟩
    all_goals simp only [stop] at hstop ⊢; omega
  | back heq hbase hstop =>
    rw [heq] at h
    refine ⟨h.shrink ?_ ?_ ?_, fun _ herr => herr⟩
    all_goals simp only [stop] at hstop ⊢; omega
  | @split left right r heq hbase hstop =>
    rw [heq] at h
    have hbound := h.bounded r (by simp)
    have hcut : Wf (left ++ ⟨r.base, base - r.base, r.flags⟩ :: right) := by
      refine h.shrink ?_ ?_ ?_
      all_goals simp only [stop] at hstop ⊢; omega
    have hadded := addRegionFlags_cases
      { lst with rgn := left ++ ⟨r.base, base - r.base, r.flags⟩ :: right } expand hcut
      (by omega) (by omega) (compatible_of_apart (tail_apart h.rep hsize hbase hstop) r.flags)
    refine ⟨hadded.wf hcut (by omega) (by omega), ?_⟩
    rintro rfl herr
    exact hadded.err herr

section Alloc

variable {used : List Region}

/-- What the inner loop takes lies below the top of the address space and is not reserved, when its
first candidate lies below the top. -/
theorem allocTry_spec (hused : ∀ r ∈ used, r.Sane) (hsize : 0 < size) {lmbbase : Nat}
    (hbase : base + size < 2 ^ 64) (h : allocTry used size align lmbbase base = some b) :
    b + size < 2 ^ 64 ∧ Apart used b size := by
  induction base using Nat.strong_induction_on with
  | _ base ih =>
    unfold allocTry at h
    split at h
    · next hcond =>
      split at h
      · next hnone =>
        obtain rfl : base = b := by simpa using h
        refine ⟨hbase, fun r hr => ?_⟩
        rw [← (hused r hr).overlap_iff hsize hbase, Bool.not_eq_true]
        exact overlapChecks_eq_none.mp hnone r hr
      next rgn hsome =>
      simp only at h
      split at h
      · cases h
      next hres =>
      obtain ⟨left, r, right, heq, hrgn, -, -⟩ := overlapChecks_some hsome
      have hentry : entry used rgn = r := by rw [heq, show rgn = left.length by omega, entry_append]
      obtain ⟨hpos, htop⟩ := hused r (by simp [heq])
      have hlt := below_overlapping align hcond.1 hsome (not_lt.mp hres)
      unfold stop at htop
      rw [hentry] at hres hlt h
      rw [subU64_of_le (not_lt.mp hres) (by omega)] at hlt h
      exact ih _ hlt (by omega) h
    · cases h

/-- The banks hold no region into which an allocation of this size below `addr` would look although
`addr` is smaller than the size. -/
def Fits (banks : List Region) (size addr : Nat) : Prop :=
  addr = lmbAllocAnywhere ∨ size ≤ addr ∨ ∀ r ∈ banks, ¬(size ≤ r.size ∧ r.base < addr)

instance (banks : List Region) (size addr : Nat) : Decidable (Fits banks size addr) :=
  inferInstanceAs (Decidable (_ ∨ _ ∨ ∀ r ∈ banks, _))

theorem allocCandidate_spec {r : Region} (htop : r.stop < 2 ^ 64) (hfit : Fits [r] size addr)
    {base : Nat} (h : allocCandidate r size align addr = some base) : base + size < 2 ^ 64 := by
  unfold stop at htop
  unfold allocCandidate at h
  split at h
  · cases h
  next hsz =>
  split at h
  · have hle := alignDown_le (subU64 (r.base + r.size) size) align
    obtain rfl : alignDown (subU64 (r.base + r.size) size) align = base := by simpa using h
    rw [subU64_of_le (by omega) htop] at hle ⊢
    omega
  next haddr =>
  split at h
  · next hlt =>
    have hsa : size ≤ addr := by
      rcases hfit with hc | hc | hc
      · exact absurd hc haddr
      · exact hc
      · exact absurd ⟨not_lt.mp hsz, hlt⟩ (hc r (by simp))
    simp only [u64_of_lt htop,
      show ¬r.base + r.size < r.base by omega, if_false, Option.some.injEq] at h
    have hle := alignDown_le (subU64 (min (r.base + r.size) addr) size) align
    rw [subU64_of_le (by omega) (by omega)] at hle h
    omega
  · cases h

theorem allocBanks_spec (hused : ∀ r ∈ used, r.Sane) (hsize : 0 < size) {banks : List Region}
    (hbanks : ∀ r ∈ banks, r.stop < 2 ^ 64) (hfit : Fits banks size addr)
    (h : allocBanks used size align addr banks = some b) :
    b + size < 2 ^ 64 ∧ Apart used b size := by
  induction banks with
  | nil => simp [allocBanks] at h
  | cons r banks ih =>
    have hhead : Fits [r] size addr :=
      hfit.imp_right (Or.imp_right fun hc x hx => hc x (by simp_all))
    have htail : Fits banks size addr :=
      hfit.imp_right (Or.imp_right fun hc x hx => hc x (by simp [hx]))
    have ih := ih (fun x hx => hbanks x (by simp [hx])) htail
    unfold allocBanks at h
    split at h
    · exact ih h
    · next base hcand =>
      split at h
      · next base' htry =>
        obtain rfl : base' = b := by simpa using h
        exact allocTry_spec hused hsize (allocCandidate_spec (hbanks r (by simp)) hhead hcand) htry
      · exact ih h

end Alloc

/-- Both lists are well formed, and memory is added without flags. -/
structure Inv (lmb : Map) : Prop where
  available : Wf lmb.availableMem.rgn
  none : ∀ r ∈ lmb.availableMem.rgn, r.flags = lmbNone
  used : Wf lmb.usedMem.rgn

instance (lmb : Map) : Decidable (Inv lmb) := decidable_of_iff (((_ ∧ _) ∧ _) ∧ _ ∧ (_ ∧ _) ∧ _)
    ⟨fun h => ⟨⟨⟨h.1.1.1, h.1.1.2⟩, h.1.2⟩, h.2.1, ⟨⟨h.2.2.1.1, h.2.2.1.2⟩, h.2.2.2⟩⟩,
      fun h => ⟨⟨⟨h.1.1.1, h.1.1.2⟩, h.1.2⟩, h.2, ⟨h.3.1.1, h.3.1.2⟩, h.3.2⟩⟩

def Intact (lmb : Map) : Prop := lmb.availableMem.err = false ∧ lmb.usedMem.err = false

/-- A call with a non-empty region that ends below the top of the address space, where it passes a
region. -/
def Op.Valid : Op → Prop
  | .add base size => 0 < size ∧ base + size < 2 ^ 64
  | .reserve base size _ => 0 < size ∧ base + size < 2 ^ 64
  | .alloc type _ addr size _ => type = .allocAddr → addr + size < 2 ^ 64
  | .free base size _ => 0 < size ∧ base + size < 2 ^ 64

instance : DecidablePred Op.Valid
  | .add .. | .reserve .. | .free .. => inferInstanceAs (Decidable (_ ∧ _))
  | .alloc .. => inferInstanceAs (Decidable (_ → _))

/-- An allocation below a given address asks for no more than that address, or finds no bank that
begins below it and is large enough. -/
def Op.Fits (lmb : Map) : Op → Prop
  | .alloc .allocMax _ addr size _ => Lmb.Fits lmb.availableMem.rgn size addr
  | _ => True

/-- What a valid call does to the map: nothing, or one change of one list.  A range is reserved for
the caller, or it was found apart from all reserved regions. -/
inductive Change (env : Env) (lmb : Map) (op : Op) : Map → Prop
  | same : Change env lmb op lmb
  | add {base size : Nat} (hop : op = .add base size) (hsize : 0 < size)
      (htop : base + size < 2 ^ 64) :
      Change env lmb op { lmb with
        availableMem := (addRegionFlags lmb.availableMem base size lmbNone env.expand).2 }
  | use {base size flags : Nat} (hsize : 0 < size) (htop : base + size < 2 ^ 64)
      (hcompat : Compatible base size flags lmb.usedMem.rgn) (hwhy : op = .reserve base size flags ∨
        (∃ align, op = .alloc .allocAddr align base size flags ∧
          (InOneBank lmb base size ∨ FromHole lmb base size)) ∨ Apart lmb.usedMem.rgn base size) :
      Change env lmb op
        { lmb with usedMem := (addRegionFlags lmb.usedMem base size flags env.expand).2 }
  | free {base size : Nat} (hsize : 0 < size) (htop : base + size < 2 ^ 64) : Change env lmb op
      { lmb with usedMem := (lmbFree lmb.usedMem base size env.expand).2 }

theorem reserve_map (env : Env) (h : ∀ r ∈ lmb.usedMem.rgn, r.Sane) (hsize : 0 < size)
    (htop : base + size < 2 ^ 64) : (reserve env lmb base size flags).2 = lmb ∨
      Compatible base size flags lmb.usedMem.rgn ∧ (reserve env lmb base size flags).2 =
        { lmb with usedMem := (addRegionFlags lmb.usedMem base size flags env.expand).2 } := by
  unfold reserve
  split
  · exact .inl rfl
  · next hcheck =>
    refine .inr ⟨(overlapChecks_reserve hsize htop _ h 0).mp hcheck, ?_⟩
    simp only
    split <;> rfl

theorem Inv.allocBase (h : Inv lmb) (env : Env) (op : Op) (hsize : 0 < size)
    (hfit : Fits lmb.availableMem.rgn size addr) :
    Change env lmb op (allocBase env lmb size align addr flags).2.2 := by
  unfold Lmb.allocBase
  split
  · exact .same
  next base hbanks =>
  obtain ⟨htop, hapart⟩ :=
    allocBanks_spec h.used.sane hsize (fun r hr => h.available.bounded r (by simpa using hr))
      (hfit.imp_right (Or.imp_right fun hc r hr => hc r (by simpa using hr))) hbanks
  have hchange : Change env lmb op
      { lmb with usedMem := (addRegionFlags lmb.usedMem base size flags env.expand).2 } :=
    .use hsize htop (compatible_of_apart hapart flags) (.inr (.inr hapart))
  simp only
  split
  · exact hchange
  · split <;> exact hchange

theorem Inv.change (h : Inv lmb) (env : Env) (hvalid : op.Valid) (hfit : op.Fits lmb) :
    Change env lmb op (op.run env lmb) := by
  cases op with
  | add base size =>
    have heq : (Op.add base size).run env lmb = { lmb with availableMem :=
        (addRegionFlags lmb.availableMem base size lmbNone env.expand).2 } := by
      unfold Op.run Lmb.add
      simp only
      split <;> rfl
    rw [heq]
    exact .add rfl hvalid.1 hvalid.2
  | reserve base size flags =>
    rw [Op.run]
    rcases reserve_map env h.used.sane hvalid.1 hvalid.2 with heq | ⟨hcompat, heq⟩ <;> rw [heq]
    · exact .same
    · exact .use hvalid.1 hvalid.2 hcompat (.inl rfl)
  | free base size flags =>
    have heq : (Op.free base size flags).run env lmb =
        { lmb with usedMem := (lmbFree lmb.usedMem base size env.expand).2 } := by
      unfold Op.run Lmb.free
      simp only
      split <;> rfl
    rw [heq]
    exact .free hvalid.1 hvalid.2
  | alloc type align addr size flags =>
    unfold Op.run allocMem
    simp only
    split
    · exact .same
    next hsize =>
    have hpos : 0 < size := Nat.pos_of_ne_zero hsize
    cases type with
    | allocAny => exact h.allocBase env _ hpos (.inl rfl)
    | allocMax => exact h.allocBase env _ hpos hfit
    | allocAddr =>
      have htop := hvalid rfl
      rcases allocAddr_spec h.available.rep hpos htop.le env flags with ⟨hbank, heq⟩ | ⟨-, heq⟩
      · simp only [heq]
        rcases reserve_map env h.used.sane hpos htop with heq | ⟨hcompat, heq⟩ <;> rw [heq]
        · exact .same
        · exact .use hpos htop hcompat (.inr (.inl ⟨align, rfl, hbank⟩))
      · simp only [heq]
        exact .same
    | invalid => exact .same

theorem Inv.run (h : Inv lmb) (env : Env) (hvalid : op.Valid) (hfit : op.Fits lmb) :
    Inv (op.run env lmb) ∧ (env.expand → Intact lmb → Intact (op.run env lmb)) := by
  have hchange := h.change env hvalid hfit
  generalize op.run env lmb = lmb' at hchange
  cases hchange with
  | same => exact ⟨h, fun _ hi => hi⟩
  | add hop hsize htop =>
    have hadded :=
      addRegionFlags_cases _ env.expand h.available hsize htop (fun r hr _ _ => ⟨h.none r hr, rfl⟩)
    refine ⟨⟨hadded.wf h.available hsize htop, hadded.none h.none, h.used⟩, fun he hi => ?_⟩
    rw [he] at hadded ⊢
    exact ⟨hadded.err hi.1, hi.2⟩
  | use hsize htop hcompat =>
    have hadded := addRegionFlags_cases _ env.expand h.used hsize htop hcompat
    refine ⟨⟨h.available, h.none, hadded.wf h.used hsize htop⟩, fun he hi => ?_⟩
    rw [he] at hadded ⊢
    exact ⟨hi.1, hadded.err hi.2⟩
  | free hsize htop =>
    obtain ⟨hwf, herr⟩ := lmbFree_wf h.used hsize htop env.expand
    exact ⟨⟨h.available, h.none, hwf⟩, fun he hi => ⟨hi.1, herr he hi.2⟩⟩

def Init (lmb : Map) : Prop := ∃ test, lmb = setup test

def Step (ok : Env → Map → Op → Prop) (lmb lmb' : Map) : Prop :=
  ∃ env op, op.Valid ∧ ok env lmb op ∧ lmb' = op.run env lmb

theorem Init.inv (h : Init lmb) : Inv lmb ∧ Intact lmb := by
  obtain ⟨test, rfl⟩ := h
  exact ⟨⟨.nil, by simp [setup], .nil⟩, rfl, rfl⟩

theorem inv_of_reachable {ok : Env → Map → Op → Prop}
    (hok : ∀ env lmb op, ok env lmb op → op.Fits lmb) (h : Reachable Init (Step ok) lmb) :
    Inv lmb := by
  refine h.invariant (fun _ hs => hs.inv.1) ?_
  rintro s s' hs ⟨env, op, hvalid, hop, rfl⟩
  exact (hs.run env hvalid (hok env s op hop)).1

/-- In every run whose allocations below an address do not ask for more than that address, both
region lists stay sorted and disjoint. -/
theorem lists_sortedDisjoint {lmb : Map}
    (h : Reachable Init (Step fun _ lmb op => op.Fits lmb) lmb) :
    SortedDisjoint lmb.availableMem.rgn ∧ SortedDisjoint lmb.usedMem.rgn := by
  have hinv := inv_of_reachable (fun _ _ _ hop => hop) h
  exact ⟨hinv.available.rep.sorted, hinv.used.rep.sorted⟩

theorem reachable_calls {ok : Env → Map → Op → Prop}
    (env : Env) (ops : List Op) (hvalid : ∀ op ∈ ops, op.Valid) (hok : ∀ lmb, ∀ op, ok env lmb op) :
    Reachable Init (Step ok) (ops.foldl (fun lmb op => op.run env lmb) (setup false)) := by
  have hrun : ∀ lmb, Reachable Init (Step ok) lmb →
      Reachable Init (Step ok) (ops.foldl (fun lmb op => op.run env lmb) lmb) := by
    induction ops with
    | nil => exact fun _ h => h
    | cons op ops ih =>
      intro lmb h
      exact ih (fun op hop => hvalid op (by simp [hop])) _
        (.step h ⟨env, op, hvalid op (by simp), hok lmb op, rfl⟩)
  exact hrun _ (.init ⟨false, rfl⟩)

theorem lists_sortedDisjoint_four_calls :
    let env : Env := ⟨true, 0, true⟩
    let lmb := (Op.free 0x2000 0x100 0).run env ((Op.alloc .allocMax 16 0x8000 0x400 4).run env
      ((Op.reserve 0x1f00 0x300 0).run env ((Op.add 0x1000 0x10000).run env (setup false))))
    SortedDisjoint lmb.availableMem.rgn ∧ SortedDisjoint lmb.usedMem.rgn := by
  exact lists_sortedDisjoint
    (.step (.step (.step (.step (.init ⟨false, rfl⟩) ⟨_, _, by decide, by trivial, rfl⟩)
    ⟨_, _, by decide, by trivial, rfl⟩) ⟨_,
    _, by decide, by exact Or.inr (Or.inl (by decide)), rfl⟩) ⟨_, _, by decide, by trivial, rfl⟩)

/-- Three reservations, and a fourth over the second and between the others. -/
def touchingCalls : List Op :=
  [.reserve 100 10 0, .reserve 115 5 0, .reserve 130 10 0, .reserve 110 20 0]

/-- An allocation of `0x2000` bytes below `0x1800` wraps around below zero, and a reservation then
overlaps what it took. -/
theorem alloc_below_size_overlaps :
    ∃ lmb, Reachable Init (Step fun _ _ _ => True) lmb ∧ ¬SortedDisjoint lmb.usedMem.rgn := by
  refine ⟨_,
    reachable_calls ⟨false, 0, true⟩ [.add 0x1000 0x10000, .alloc .allocMax 1 0x1800 0x2000 0,
    .reserve (2 ^ 64 - 0x400) 0x100 0] (by decide) (fun _ _ => trivial), ?_⟩
  decide +kernel

end MtkBoot.Lmb
