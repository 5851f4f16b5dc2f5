import MtkBoot.Lmb.Run

/-! The normal form of the region lists: neighbours of the same flags do not touch.  Every call
keeps it, except one that adds a range between two regions of its flags and over a third. -/

namespace MtkBoot.Lmb

open MtkBoot.Lib List

variable {l' : List Region} {lmb : Map} {lst : Alist}

/-- No two neighbours of the list have the same flags and touch. -/
def Normal (l : List Region) : Prop :=
  ∀ i, i + 1 < l.length → (entry l i).flags = (entry l (i + 1)).flags →
    (entry l i).base + (entry l i).size ≠ (entry l (i + 1)).base

/-- No region of the list starts where another of the same flags ends. -/
def Separate (l : List Region) : Prop := ∀ r ∈ l, ∀ s ∈ l, s.base = r.stop → s.flags ≠ r.flags

section

variable {l left right : List Region} {r : Region} {base size flags : Nat}

theorem Separate.normal (h : Separate l) : Normal l := by
  intro i hi hflags hadj
  have hmem : ∀ j < l.length, entry l j ∈ l := fun j hj => by simp [entry, hj]
  exact h _ (hmem i (by omega)) _ (hmem (i + 1) hi) hadj.symm hflags.symm

theorem Separate.subset (h : Separate l) (hsub : ∀ r ∈ l', r ∈ l) : Separate l' :=
  fun r hr s hs => h r (hsub r hr) s (hsub s hs)

/-- A region replaced by one of its flags between the same sides, when neither end of the new one
touches a region of these flags. -/
theorem Separate.replace {m : Region} (hsides : Separate (left ++ right)) (hm : m.base < m.stop)
    (hleft : ∀ x ∈ left, x.stop ≤ m.base) (hright : ∀ x ∈ right, m.stop ≤ x.base)
    (hnonempty : ∀ x ∈ left ++ right, x.base < x.stop)
    (hlow : ∀ x ∈ left, x.stop = m.base → x.flags ≠ m.flags)
    (hhigh : ∀ x ∈ right, x.base = m.stop → x.flags ≠ m.flags) : Separate (left ++ m :: right) := by
  have hsplit : ∀ x ∈ left ++ m :: right, x = m ∨ x ∈ left ∨ x ∈ right := by
    intro x hx
    simp only [mem_append, mem_cons] at hx
    tauto
  intro r hr s hs hadj
  rcases hsplit r hr with rfl | hr' <;> rcases hsplit s hs with rfl | hs'
  · omega
  · rcases hs' with hs' | hs'
    · have := hleft s hs'
      have := hnonempty s (by simp [hs'])
      omega
    · exact hhigh s hs' hadj
  · rcases hr' with hr' | hr'
    · exact (hlow r hr' hadj.symm).symm
    · have := hright r hr'
      have := hnonempty r (by simp [hr'])
      omega
  · exact hsides r (by simpa using hr') s (by simpa using hs') hadj

theorem Separate.cut {p : Region} (h : Separate (left ++ r :: right))
    (hord : Ordered Region.base Region.stop (left ++ r :: right)) (hp : p.base < p.stop)
    (hbase : r.base ≤ p.base) (hstop : p.stop ≤ r.stop) (hflags : p.flags = r.flags) :
    Separate (left ++ p :: right) := by
  obtain ⟨hleft, hright⟩ := hord.sides
  have hsub : ∀ x ∈ left ++ right, x ∈ left ++ r :: right := by
    intro x hx
    simp only [mem_append, mem_cons] at hx ⊢
    tauto
  refine (h.subset hsub).replace hp (fun x hx => (hleft x hx).trans hbase)
    (fun x hx => hstop.trans (hright x hx)) (fun x hx => hord.nonempty x (hsub x hx))
    (fun x hx hadj => ?_) fun x hx hadj => ?_
  · have := hleft x hx
    rw [hflags]
    exact (h x (by simp [hx]) r (by simp) (by omega)).symm
  · have := hright x hx
    rw [hflags]
    exact h r (by simp) x (by simp [hx]) (by omega)

/-- A range that is joined with a run of neighbours keeps the normal form unless it is bridging. -/
theorem Sealed.separate (h : Sealed base size flags l l')
    (hsep : Separate l) (hord : Ordered Region.base Region.stop l)
    (hsize : 0 < size) (hbridge : ¬Bridging base size flags l) : Separate l' := by
  obtain ⟨left, mid, right, m, rfl, rfl, hm, hlow, hhigh⟩ := h
  have hhigh := hhigh.resolve_left hbridge
  have hlower := hm.lower
  have hupper := hm.upper
  have hsub : ∀ x ∈ left ++ right, x ∈ left ++ mid ++ right := by
    intro x hx
    simp only [mem_append] at hx ⊢
    tauto
  refine (hsep.subset hsub).replace (by omega) hm.left_le hm.le_right
    (fun x hx => hord.nonempty x (hsub x hx)) (fun x hx hadj => ?_) fun x hx hadj => ?_
  · -- the first byte of the new region is in the range or in one of the run
    rw [hm.flags_eq]
    rcases (hm.covers m.base).mp ⟨le_rfl, by omega⟩ with hin | ⟨q, hq, hqlo, hqhi⟩
    · exact hlow x hx (by omega)
    · have hq_ne := hord.nonempty q (by simp [hq])
      have hqm := (hm.covers q.base).mpr (Or.inr ⟨q, hq, le_rfl, hq_ne⟩)
      rw [← hm.flags_mid q hq]
      exact (hsep x (by simp [hx]) q (by simp [hq]) (by have := hqm.1; omega)).symm
  · rw [hm.flags_eq]
    rcases (hm.covers (m.stop - 1)).mp ⟨by omega, by omega⟩ with hin | ⟨q, hq, hqlo, hqhi⟩
    · exact hhigh x hx (by omega)
    · have hqm := (hm.covers (q.stop - 1)).mpr (Or.inr ⟨q, hq, by omega, by omega⟩)
      rw [← hm.flags_mid q hq]
      exact hsep q (by simp [hq]) x (by simp [hx]) (by have := hqm.2; omega)

/-- `lmb_add_region_flags` would join the range with the region below it and with one it overlaps,
and leave the one above. -/
def AddBridges (lst : Alist) (base size flags : Nat) : Prop :=
  lst.err = false ∧ Compatible base size flags lst.rgn ∧ Bridging base size flags lst.rgn

instance (lst : Alist) (base size flags : Nat) : Decidable (AddBridges lst base size flags) :=
  inferInstanceAs (Decidable (_ ∧ _ ∧ _))

theorem Apart.not_addBridges (h : Apart lst.rgn base size) : ¬AddBridges lst base size flags := by
  rintro ⟨-, -, -, ⟨x, hx, hshare⟩, -⟩
  exact h x hx hshare

theorem addRegionFlags_separate (expand : Bool) (h : Wf lst.rgn) (hsep : Separate lst.rgn)
    (hsize : 0 < size) (htop : base + size < 2 ^ 64) (hcompat : Compatible base size flags lst.rgn)
    (hbridge : ¬AddBridges lst base size flags) :
    Separate (addRegionFlags lst base size flags expand).2.rgn := by
  by_cases herr : lst.err
  · simpa [addRegionFlags, herr] using hsep
  have hno : ¬Bridging base size flags lst.rgn :=
    fun hb => hbridge ⟨by simpa using herr, hcompat, hb⟩
  have hcase := addRegionFlags_cases lst expand h hsize htop hcompat
  generalize addRegionFlags lst base size flags expand = res at hcase
  cases hcase with
  | broken => exact hsep
  | full => exact hsep
  | added alloc hkept hsealed => exact hsealed.separate hsep h.ordered hsize hno
  | wrapped => exact fun r hr => by simp at hr
  | @displaced left right r s hlost hrgn hflags hadj =>
    -- the two regions that are merged instead would already touch
    exact absurd hflags (hsep r (by simp [hrgn]) s (by simp [hrgn]) hadj.symm)

theorem lmbFree_separate (expand : Bool)
    (h : Wf lst.rgn) (hsep : Separate lst.rgn) (hsize : 0 < size) (htop : base + size < 2 ^ 64) :
    Separate (lmbFree lst base size expand).2.rgn := by
  have hcase := lmbFree_cases expand h.rep hsize htop.le
  generalize lmbFree lst base size expand = res at hcase
  cases hcase with
  | missing => exact hsep
  | @whole left right r heq hbase hstop =>
    refine hsep.subset fun x hx => ?_
    rw [heq]
    simp only [mem_append, mem_cons] at hx ⊢
    tauto
  | front heq hbase hstop =>
    rw [heq] at h hsep
    refine hsep.cut h.ordered ?_ ?_ ?_ rfl
    all_goals simp only [Region.stop] at hstop ⊢; omega
  | back heq hbase hstop =>
    rw [heq] at h hsep
    refine hsep.cut h.ordered ?_ ?_ ?_ rfl
    all_goals simp only [Region.stop] at hstop ⊢; omega
  | @split left right r heq hbase hstop =>
    rw [heq] at h hsep
    have hcut : Separate (left ++ ⟨r.base, base - r.base, r.flags⟩ :: right) := by
      refine hsep.cut h.ordered ?_ ?_ ?_ rfl
      all_goals simp only [Region.stop] at hstop ⊢; omega
    have hwf : Wf (left ++ ⟨r.base, base - r.base, r.flags⟩ :: right) := by
      refine h.shrink ?_ ?_ ?_
      all_goals simp only [Region.stop] at hstop ⊢; omega
    have hbound := h.bounded r (by simp)
    have hapart := tail_apart h.rep hsize hbase hstop
    exact addRegionFlags_separate expand hwf hcut (by omega) (by omega)
      (compatible_of_apart hapart r.flags) hapart.not_addBridges

end

def Op.Bridges (lmb : Map) : Op → Prop
  | .add base size => AddBridges lmb.availableMem base size lmbNone
  | .reserve base size flags => AddBridges lmb.usedMem base size flags
  | .alloc .allocAddr _ addr size flags => 0 < size ∧
      (InOneBank lmb addr size ∨ FromHole lmb addr size) ∧ AddBridges lmb.usedMem addr size flags
  | _ => False

structure NormalInv (lmb : Map) : Prop where
  inv : Inv lmb
  available : Separate lmb.availableMem.rgn
  used : Separate lmb.usedMem.rgn

theorem NormalInv.run (h : NormalInv lmb) (env : Env) {op : Op} (hvalid : op.Valid)
    (hfit : op.Fits lmb) (hbridge : ¬op.Bridges lmb) : NormalInv (op.run env lmb) := by
  suffices hsep : Separate (op.run env lmb).availableMem.rgn ∧
    Separate (op.run env lmb).usedMem.rgn from ⟨(h.inv.run env hvalid hfit).1, hsep.1, hsep.2⟩
  have hchange := h.inv.change env hvalid hfit
  generalize op.run env lmb = lmb' at hchange
  cases hchange with
  | same => exact ⟨h.available, h.used⟩
  | add hop hsize htop =>
    subst hop
    exact ⟨addRegionFlags_separate env.expand h.inv.available h.available hsize htop
      (fun r hr _ _ => ⟨h.inv.none r hr, rfl⟩) hbridge, h.used⟩
  | @use base size flags hsize htop hcompat hwhy =>
    have hno : ¬AddBridges lmb.usedMem base size flags := by
      rcases hwhy with rfl | ⟨align, rfl, hbank⟩ | hapart
      · exact hbridge
      · exact fun hb => hbridge ⟨hsize, hbank, hb⟩
      · exact hapart.not_addBridges
    exact ⟨h.available, addRegionFlags_separate env.expand h.inv.used h.used hsize htop hcompat hno⟩
  | free hsize htop =>
    exact ⟨h.available, lmbFree_separate env.expand h.inv.used h.used hsize htop⟩

/-- In every run whose allocations below an address do not ask for more than that address, and
whose calls add no bridging range, neighbours of the same flags do not touch. -/
theorem lists_normal {lmb : Map}
    (h : Reachable Init (Step fun _ lmb op => op.Fits lmb ∧ ¬op.Bridges lmb) lmb) :
    Normal lmb.availableMem.rgn ∧ Normal lmb.usedMem.rgn := by
  have hinv : NormalInv lmb := by
    refine h.invariant (fun s hs => ⟨hs.inv.1, ?_, ?_⟩) ?_
    · obtain ⟨test, rfl⟩ := hs
      exact fun r hr => by simp [setup] at hr
    · obtain ⟨test, rfl⟩ := hs
      exact fun r hr => by simp [setup] at hr
    · rintro s s' hs ⟨env, op, hvalid, ⟨hfit, hbridge⟩, rfl⟩
      exact hs.run env hvalid hfit hbridge
  exact ⟨hinv.available.normal, hinv.used.normal⟩

theorem lists_normal_four_calls :
    let env : Env := ⟨false, 0, true⟩
    let lmb := (Op.free 104 4 0).run env ((Op.reserve 110 5 0).run env
      ((Op.reserve 115 5 0).run env ((Op.reserve 100 10 0).run env (setup false))))
    Normal lmb.availableMem.rgn ∧ Normal lmb.usedMem.rgn := by
  have hreserve : ∀ (lmb : Map) (base size : Nat), ¬AddBridges lmb.usedMem base size 0 →
      (Op.reserve base size 0).Fits lmb ∧ ¬(Op.reserve base size 0).Bridges lmb :=
    fun _ _ _ hb => ⟨trivial, hb⟩
  exact lists_normal (.step (.step (.step (.step (.init ⟨false, rfl⟩)
    ⟨_, _, by decide, hreserve _ _ _ (by decide), rfl⟩)
    ⟨_, _, by decide, hreserve _ _ _ (by decide), rfl⟩) ⟨_,
    _, by decide, hreserve _ _ _ (by decide), rfl⟩) ⟨_, _, by decide, by exact ⟨trivial, id⟩, rfl⟩)

/-- A reservation between two regions and over a third leaves two neighbours of the same flags that
touch. -/
theorem bridging_leaves_neighbours : ∃ lmb, Reachable Init (Step fun _ _ _ => True) lmb ∧
    ¬Normal lmb.usedMem.rgn := by
  refine ⟨_, reachable_calls ⟨false, 0, true⟩ touchingCalls (by decide) (fun _ _ => trivial),
    fun hnormal => ?_⟩
  exact hnormal 0 (by decide) (by decide) (by decide)

end MtkBoot.Lmb
