import MtkBoot.Env.Search
import Mathlib.Data.Finmap

/-! The hash table is a finite map: any sequence of searches, entries and deletions is answered as
the map answers it, whatever is rejected on the way. -/

namespace MtkBoot.Env

open Finset

variable {d data k key : Str} {fd i idx u x : Nat} {slot : Slot} {t : Htab}

abbrev Map := Finmap fun _ : Str => Str

variable {m : Map}

/-- The table holds the entries of the map, every entry where a search for its key finds it. -/
structure Holds (t : Htab) (m : Map) : Prop where
  size : SizeOk t.size
  inside : ∀ i, t.table i ≠ .free → 1 ≤ i ∧ i ≤ t.size
  placed : ∀ i u e, t.table i = .live u e → u = firstHash t.size e.key ∧
    ∃ j < t.size, t.slotAt e.key j = i ∧ ∀ j' < j, t.table (t.slotAt e.key j') ≠ .free
  unique : ∀ i i' u u' e e', t.table i = .live u e → t.table i' = .live u' e' → e.key = e'.key →
    i = i'
  lookup : ∀ k d, m.lookup k = some d ↔ ∃ i u, t.table i = .live u ⟨k, d⟩
  filled : t.filled = m.keys.card

theorem holds_empty {size : Nat} (h : SizeOk size) : Holds ⟨size, 0, fun _ => .free⟩ (∅ : Map) := by
  refine ⟨h, fun i hi => absurd rfl hi, fun i u e hlive => ?_, fun i i' u u' e e' hlive => ?_,
    fun k d => ?_, rfl⟩
  · cases hlive
  · cases hlive
  · simp

section Slots

theorem set_same (i : Nat) (slot : Slot) : (t.set i slot).table i = slot := if_pos rfl

theorem set_other (slot : Slot) (h : x ≠ i) : (t.set i slot).table x = t.table x :=
  if_neg h

theorem delete_set (i : Nat) (slot : Slot) :
    Htab.delete { t.set i slot with filled := t.filled + 1 } i = t.set i .deleted := by
  simp only [Htab.delete, Htab.set, Nat.add_sub_cancel, Htab.mk.injEq, true_and]
  funext x
  by_cases hx : x = i
  · rw [if_pos hx, if_pos hx]
  · rw [if_neg hx, if_neg hx, if_neg hx]

theorem set_busy (hslot : slot ≠ .free) (h : t.table x ≠ .free) :
    (t.set i slot).table x ≠ .free := by
  by_cases hx : x = i
  · rw [hx, set_same]
    exact hslot
  · rwa [set_other slot hx]

variable (h : Holds t m)
include h

theorem Holds.lookup_of_missed (hmiss : Missed t key idx fd) : m.lookup key = none := by
  by_contra hne
  obtain ⟨d, hd⟩ := Option.ne_none_iff_exists'.mp hne
  obtain ⟨i, u, hlive⟩ := (h.lookup key d).mp hd
  obtain ⟨rfl, j, hj, hji, hbusy⟩ := h.placed i u _ hlive
  obtain ⟨n, hn, hpassed, hfree⟩ := hmiss.passed
  rw [← hji] at hlive
  rcases lt_or_ge j n with hlt | hge
  · have := hpassed.other j hlt
    rw [hlive] at this
    simp [Slot.holds] at this
  · obtain ⟨rfl, hidx⟩ := hfree (by omega)
    rcases lt_or_eq_of_le hge with hlt | rfl
    · exact hbusy n hlt hidx
    · rw [hidx] at hlive
      cases hlive

theorem Holds.size_le_card (hlive : ∀ i, 1 ≤ i → i ≤ t.size → ∃ u e, t.table i = .live u e) :
    t.size ≤ m.keys.card := by
  let key : Nat → Str := fun i => (t.table i).casesOn [] [] fun _ e => e.key
  have hcard := card_le_card_of_injOn (s := Finset.Icc 1 t.size) (t := m.keys) key ?_ ?_
  · rwa [Nat.card_Icc, Nat.add_sub_cancel] at hcard
  · intro i hi
    obtain ⟨hlo, hhi⟩ := mem_Icc.mp hi
    obtain ⟨u, ⟨k, d⟩, hslot⟩ := hlive i hlo hhi
    have hmem : m.lookup k = some d := (h.lookup k d).mpr ⟨i, u, hslot⟩
    simp only [key, hslot]
    exact Finmap.mem_keys.mpr (Finmap.lookup_isSome.mp (by rw [hmem]; rfl))
  · intro i hi i' hi' heq
    obtain ⟨hlo, hhi⟩ := mem_Icc.mp hi
    obtain ⟨hlo', hhi'⟩ := mem_Icc.mp hi'
    obtain ⟨u, e, hslot⟩ := hlive i hlo hhi
    obtain ⟨u', e', hslot'⟩ := hlive i' hlo' hhi'
    simp only [key, hslot, hslot'] at heq
    exact h.unique i i' u u' e e' hslot hslot' heq

theorem Holds.card_le_size : m.keys.card ≤ t.size := by
  have hslot : ∀ k ∈ m.keys, ∃ i, (1 ≤ i ∧ i ≤ t.size) ∧ ∃ u d, t.table i = .live u ⟨k, d⟩ := by
    intro k hk
    obtain ⟨d, hd⟩ := Option.isSome_iff_exists.mp (Finmap.lookup_isSome.mpr (Finmap.mem_keys.mp hk))
    obtain ⟨i, u, hlive⟩ := (h.lookup k d).mp hd
    exact ⟨i, h.inside i (by rw [hlive]; exact Slot.noConfusion), u, d, hlive⟩
  choose! slot hrange hlive using hslot
  have hcard := card_le_card_of_injOn (s := m.keys) (t := Finset.Icc 1 t.size) slot ?_ ?_
  · rwa [Nat.card_Icc, Nat.add_sub_cancel] at hcard
  · intro k hk
    exact mem_Icc.mpr (hrange k hk)
  · intro k hk k' hk' heq
    obtain ⟨u, d, h1⟩ := hlive k hk
    obtain ⟨u', d', h2⟩ := hlive k' hk'
    rw [heq, h2] at h1
    cases h1
    rfl

end Slots

/-! ### One slot at a time -/

section Steps

variable {m' : Map} {filled : Nat}

theorem Holds.set (h : Holds t m) (hi : 1 ≤ i ∧ i ≤ t.size) (hslot : slot ≠ .free)
    (hplaced : ∀ u e, slot = .live u e → u = firstHash t.size e.key ∧
      ∃ j < t.size, t.slotAt e.key j = i ∧ ∀ j' < j, t.table (t.slotAt e.key j') ≠ .free)
    (hunique : ∀ u e, slot = .live u e →
      ∀ i' u' e', t.table i' = .live u' e' → e.key = e'.key → i' = i)
    (hlookup : ∀ k d, m'.lookup k = some d ↔ ∃ i' u, (t.set i slot).table i' = .live u ⟨k, d⟩)
    (hfilled : filled = m'.keys.card) : Holds { t.set i slot with filled } m' := by
  refine ⟨h.size, fun x hx => ?_, fun x u e hlive => ?_, fun x x' u u' e e' hlive hlive' heq => ?_,
    hlookup, hfilled⟩
  · by_cases hxi : x = i
    · exact hxi ▸ hi
    · exact h.inside x fun hfree => hx ((set_other slot hxi).trans hfree)
  · by_cases hxi : x = i
    · subst hxi
      obtain ⟨hu, j, hj, hji, hbusy⟩ := hplaced u e ((set_same x slot).symm.trans hlive)
      exact ⟨hu, j, hj, hji, fun j' hj' => set_busy hslot (hbusy j' hj')⟩
    · obtain ⟨hu, j, hj, hji, hbusy⟩ := h.placed x u e ((set_other slot hxi).symm.trans hlive)
      exact ⟨hu, j, hj, hji, fun j' hj' => set_busy hslot (hbusy j' hj')⟩
  · by_cases hxi : x = i <;> by_cases hxi' : x' = i
    · rw [hxi, hxi']
    · subst hxi
      exact (hunique u e ((set_same x slot).symm.trans hlive) x' u' e'
        ((set_other slot hxi').symm.trans hlive') heq).symm
    · subst hxi'
      exact hunique u' e' ((set_same x' slot).symm.trans hlive') x u e
        ((set_other slot hxi).symm.trans hlive) heq.symm
    · exact h.unique x x' u u' e e' ((set_other slot hxi).symm.trans hlive)
        ((set_other slot hxi').symm.trans hlive') heq

theorem live_set {e : Entry} : (t.set i slot).table x = .live u e ↔
    x = i ∧ slot = .live u e ∨ x ≠ i ∧ t.table x = .live u e := by
  by_cases hx : x = i
  · subst hx
    rw [set_same]
    simp
  · rw [set_other slot hx]
    simp [hx]

theorem card_insert_of_lookup (h : m.lookup key = none) :
    (m.insert key data).keys.card = m.keys.card + 1 := by
  have hnot : key ∉ m.keys := fun hk => Finmap.lookup_eq_none.mp h (Finmap.mem_keys.mp hk)
  have hkeys : (m.insert key data).keys = insert key m.keys := by
    ext k
    rw [Finmap.mem_keys, Finmap.mem_insert, mem_insert, Finmap.mem_keys]
  rw [hkeys, card_insert_of_notMem hnot]

theorem keys_insert_of_lookup (h : m.lookup key = some d) : (m.insert key data).keys = m.keys := by
  have hmem : key ∈ m := Finmap.lookup_isSome.mp (by rw [h]; rfl)
  ext k
  rw [Finmap.mem_keys, Finmap.mem_insert, Finmap.mem_keys]
  constructor
  · rintro (rfl | hk)
    · exact hmem
    · exact hk
  · exact .inr

theorem Holds.lookup_set (h : Holds t m) (hold : ∀ u, t.table i ≠ .live u ⟨k, d⟩)
    (hnew : ∀ u, slot ≠ .live u ⟨k, d⟩) :
    m.lookup k = some d ↔ ∃ x u, (t.set i slot).table x = .live u ⟨k, d⟩ := by
  rw [h.lookup k d]
  constructor
  · rintro ⟨x, u, hx⟩
    refine ⟨x, u, live_set.mpr (.inr ⟨?_, hx⟩)⟩
    rintro rfl
    exact hold u hx
  · rintro ⟨x, u, hx⟩
    rcases live_set.mp hx with ⟨-, hslot⟩ | ⟨-, hx⟩
    · exact absurd hslot (hnew u)
    · exact ⟨x, u, hx⟩

theorem lookup_put {u0 : Nat} (hother : ∀ x u d, x ≠ i → t.table x ≠ .live u ⟨key, d⟩) :
    (m.insert key data).lookup key = some d ↔
    ∃ x u, (t.set i (.live u0 ⟨key, data⟩)).table x = .live u ⟨key, d⟩ := by
  rw [Finmap.lookup_insert]
  constructor
  · rintro ⟨⟩
    exact ⟨i, _, set_same i _⟩
  · rintro ⟨x, u, hx⟩
    rcases live_set.mp hx with ⟨-, hnew⟩ | ⟨hne, hold⟩
    · cases hnew
      rfl
    · exact absurd hold (hother x u d hne)

theorem Holds.insert (h : Holds t m) {j : Nat} (hj : j < t.size) (hslot : t.slotAt key j = i)
    (hbusy : ∀ j' < j, t.table (t.slotAt key j') ≠ .free)
    (hdead : ∀ u e, t.table i ≠ .live u e) (hnone : m.lookup key = none) :
    Holds { t.set i (.live (firstHash t.size key) ⟨key, data⟩) with filled := t.filled + 1 }
    (m.insert key data) := by
  have hother : ∀ x u d, t.table x ≠ .live u ⟨key, d⟩ := by
    intro x u d hx
    rw [(h.lookup key d).mpr ⟨x, u, hx⟩] at hnone
    cases hnone
  refine h.set (hslot ▸ h.size.slotAt key hj) Slot.noConfusion ?_ ?_ ?_ ?_
  · rintro u e ⟨⟩
    exact ⟨rfl, j, hj, hslot, hbusy⟩
  · rintro u e ⟨⟩ i' u' ⟨k, d⟩ hlive rfl
    exact absurd hlive (hother i' u' d)
  · intro k d
    by_cases hk : k = key
    · subst hk
      exact lookup_put fun x u d _ => hother x u d
    · rw [Finmap.lookup_insert_of_ne _ hk]
      refine h.lookup_set (fun u => hdead u _) ?_
      rintro u ⟨⟩
      exact hk rfl
  · rw [card_insert_of_lookup hnone, h.filled]

theorem not_live {d' : Str} (hlive : t.table i = .live u ⟨key, d⟩) (hk : k ≠ key) (u' : Nat) :
    t.table i ≠ .live u' ⟨k, d'⟩ := by
  rw [hlive]
  rintro ⟨⟩
  exact hk rfl

theorem Holds.overwrite (h : Holds t m)
    (hlive : t.table i = .live (firstHash t.size key) ⟨key, d⟩) :
    Holds (t.set i (.live (firstHash t.size key) ⟨key, data⟩)) (m.insert key data) := by
  have hlook := (h.lookup key d).mpr ⟨i, _, hlive⟩
  refine h.set (h.inside i (by rw [hlive]; exact Slot.noConfusion)) Slot.noConfusion ?_ ?_ ?_ ?_
  · rintro u e ⟨⟩
    have hplaced := h.placed i _ _ hlive
    exact hplaced
  · rintro u e ⟨⟩ i' u' e' hlive' heq
    exact h.unique i' i u' _ e' _ hlive' hlive heq.symm
  · intro k d'
    by_cases hk : k = key
    · subst hk
      exact lookup_put fun x u d hne hx => hne (h.unique x i _ _ _ _ hx hlive rfl)
    · rw [Finmap.lookup_insert_of_ne _ hk]
      refine h.lookup_set (not_live hlive hk) ?_
      rintro u ⟨⟩
      exact hk rfl
  · rw [keys_insert_of_lookup hlook]
    exact h.filled

theorem Holds.delete (h : Holds t m) (hlive : t.table i = .live u ⟨key, d⟩) :
    Holds (t.delete i) (m.erase key) := by
  have hlook := (h.lookup key d).mpr ⟨i, _, hlive⟩
  have hmem : key ∈ m.keys := Finmap.mem_keys.mpr (Finmap.lookup_isSome.mp (by rw [hlook]; rfl))
  refine h.set (h.inside i (by rw [hlive]; exact Slot.noConfusion)) Slot.noConfusion ?_ ?_ ?_ ?_
  · rintro u e ⟨⟩
  · rintro u e ⟨⟩
  · intro k d'
    by_cases hk : k = key
    · subst hk
      rw [Finmap.lookup_erase]
      constructor
      · rintro ⟨⟩
      · rintro ⟨x, u', hx⟩
        rcases live_set.mp hx with ⟨-, hnew⟩ | ⟨hne, hold⟩
        · cases hnew
        · exact absurd (h.unique x i _ _ _ _ hold hlive rfl) hne
    · rw [Finmap.lookup_erase_ne hk]
      exact h.lookup_set (not_live hlive hk) fun _ => Slot.noConfusion
  · rw [Finmap.keys_erase, card_erase_of_mem hmem, h.filled]

theorem Holds.bury (h : Holds t m) (hi : 1 ≤ i ∧ i ≤ t.size)
    (hdead : ∀ u e, t.table i ≠ .live u e) : Holds (t.set i .deleted) m := by
  refine h.set hi Slot.noConfusion ?_ ?_ ?_ h.filled
  · rintro u e ⟨⟩
  · rintro u e ⟨⟩
  · exact fun k d => h.lookup_set (fun u => hdead u _) fun _ => Slot.noConfusion

end Steps

inductive Call where
  | enter (key data : Str) (v : Verdict)
  | find (key : Str)
  | delete (key : Str) (v : Verdict)

open Call

inductive Reply where
  | entry (data : Str)
  | done
  | failed (e : Errno)
  deriving DecidableEq, Repr

def Call.onTable (t : Htab) : Call → Reply × Htab
  | .enter key data v =>
    match hsearchR key (.enter data) v t with
    | (.ok (_, e), t) => (.entry e.data, t)
    | (.error e, t) => (.failed e, t)
  | .find key =>
    match hsearchR key .find ⟨false, false⟩ t with
    | (.ok (_, e), t) => (.entry e.data, t)
    | (.error e, t) => (.failed e, t)
  | .delete key v =>
    match hdeleteR key v t with
    | (.ok (), t) => (.done, t)
    | (.error e, t) => (.failed e, t)

def Call.onMap (size : Nat) (m : Map) : Call → Reply × Map
  | .enter key data v =>
    if key ∉ m ∧ m.keys.card = size then (.failed .enomem, m)
    else
      match v.error with
      | some e => (.failed e, m)
      | none => (.entry data, m.insert key data)
  | .find key =>
    match m.lookup key with
    | some data => (.entry data, m)
    | none => (.failed .esrch, m)
  | .delete key v =>
    match m.lookup key, v.error with
    | none, _ => (.failed .esrch, m)
    | some _, some e => (.failed e, m)
    | some _, none => (.done, m.erase key)

section Calls

variable (h : Holds t m)
include h

theorem Holds.search_cases (key : Str) : (∃ i d, search t key = .at i ∧
      t.table i = .live (firstHash t.size key) ⟨key, d⟩ ∧ m.lookup key = some d) ∨
    ∃ idx fd, search t key = .absent idx fd ∧ Missed t key idx fd ∧ m.lookup key = none := by
  cases hs : search t key with
  | «at» i =>
    obtain ⟨d, hlive⟩ := search_at hs
    exact .inl ⟨i, d, rfl, hlive, (h.lookup key d).mpr ⟨i, _, hlive⟩⟩
  | absent idx fd =>
    have hzero : t.table 0 = .free := by_contra fun hne => absurd (h.inside 0 hne).1 (by decide)
    have hmiss := search_absent h.size hzero hs
    exact .inr ⟨idx, fd, rfl, hmiss, h.lookup_of_missed hmiss⟩

/-- Unless all slots are live, a search that misses a key leads to a slot for it. -/
theorem Holds.room (hmiss : Missed t key idx fd) (hfilled : t.filled ≠ t.size) : ∃ j < t.size,
      t.slotAt key j = (if fd ≠ 0 then fd else idx) ∧
      (∀ j' < j, t.table (t.slotAt key j') ≠ .free) ∧
      ∀ u e, t.table (if fd ≠ 0 then fd else idx) ≠ .live u e := by
  obtain ⟨n, hn, hpassed, hfree⟩ := hmiss.passed
  by_cases hfd : fd = 0
  · have hlt : n < t.size := by
      by_contra hge
      obtain rfl : n = t.size := by omega
      -- every slot has been passed and none was deleted, so all are live
      have hle := h.size_le_card fun i hlo hhi => by
        obtain ⟨j, hj, rfl⟩ := h.size.exists_slotAt key hlo hhi
        have hbusy := hpassed.busy j hj
        have hkept := hpassed.noneDeleted hfd j hj
        cases hslot : t.table (t.slotAt key j) with
        | free => exact absurd hslot hbusy
        | deleted => exact absurd hslot hkept
        | live u e => exact ⟨u, e, rfl⟩
      have := h.card_le_size
      have := h.filled
      omega
    obtain ⟨rfl, hidx⟩ := hfree hlt
    rw [if_neg (not_not.mpr hfd)]
    exact ⟨n, hlt, rfl, hpassed.busy, fun u e hlive => by rw [hidx] at hlive; cases hlive⟩
  · obtain ⟨j, hj, heq, hdel⟩ := hpassed.deleted hfd
    rw [if_pos hfd]
    exact ⟨j, by omega, heq.symm, fun j' hj' => hpassed.busy j' (by omega),
      fun u e hlive => by rw [hdel] at hlive; cases hlive⟩

theorem Holds.enter (key data : Str) (v : Verdict) :
    ((enter key data v).onTable t).1 = ((enter key data v).onMap t.size m).1 ∧
      ((enter key data v).onTable t).2.size = t.size ∧
      Holds ((enter key data v).onTable t).2 ((enter key data v).onMap t.size m).2 := by
  unfold onTable onMap
  rcases h.search_cases key with ⟨i, d, hs, hlive, hlook⟩ | ⟨idx, fd, hs, hmiss, hlook⟩
  · have hmem : key ∈ m := Finmap.lookup_isSome.mp (by rw [hlook]; rfl)
    have hroom : ¬(key ∉ m ∧ m.keys.card = t.size) := fun hc => hc.1 hmem
    simp only [hsearchR, hs, if_neg hroom]
    cases v.error with
    | some e => exact ⟨rfl, rfl, h⟩
    | none => exact ⟨rfl, rfl, h.overwrite hlive⟩
  · have hnot : key ∉ m := Finmap.lookup_eq_none.mp hlook
    simp only [hsearchR, hs]
    by_cases hfull : t.filled = t.size
    · rw [if_pos hfull, if_pos ⟨hnot, h.filled ▸ hfull⟩]
      exact ⟨rfl, rfl, h⟩
    have hroom : ¬(key ∉ m ∧ m.keys.card = t.size) := fun hc => hfull (h.filled.trans hc.2)
    obtain ⟨j, hj, hslot, hbusy, hdead⟩ := h.room hmiss hfull
    simp only [if_neg hfull, if_neg hroom]
    generalize (if fd ≠ 0 then fd else idx) = x at hslot hdead ⊢
    cases v.error with
    | some e =>
      refine ⟨rfl, rfl, ?_⟩
      rw [delete_set]
      exact h.bury (hslot ▸ h.size.slotAt key hj) hdead
    | none => exact ⟨rfl, rfl, h.insert hj hslot hbusy hdead hlook⟩

theorem Holds.find (key : Str) : ((find key).onTable t).1 = ((find key).onMap t.size m).1 ∧
      ((find key).onTable t).2 = t ∧ ((find key).onMap t.size m).2 = m := by
  unfold onTable onMap
  rcases h.search_cases key with ⟨i, d, hs, hlive, hlook⟩ | ⟨idx, fd, hs, -, hlook⟩
  · simp [hsearchR, hs, hlive, hlook]
  · simp [hsearchR, hs, hlook]

theorem Holds.deleteCall (key : Str) (v : Verdict) :
    ((Call.delete key v).onTable t).1 = ((Call.delete key v).onMap t.size m).1 ∧
      ((Call.delete key v).onTable t).2.size = t.size ∧
      Holds ((Call.delete key v).onTable t).2 ((Call.delete key v).onMap t.size m).2 := by
  unfold Call.onTable Call.onMap
  rcases h.search_cases key with ⟨i, d, hs, hlive, hlook⟩ | ⟨idx, fd, hs, -, hlook⟩
  · simp only [hdeleteR, hsearchR, hs, hlive, hlook]
    cases v.error with
    | some e => exact ⟨rfl, rfl, h⟩
    | none => exact ⟨rfl, rfl, h.delete hlive⟩
  · simp only [hdeleteR, hsearchR, hs, hlook]
    exact ⟨trivial, trivial, h⟩

theorem Holds.call (c : Call) : (c.onTable t).1 = (c.onMap t.size m).1 ∧
    (c.onTable t).2.size = t.size ∧ Holds (c.onTable t).2 (c.onMap t.size m).2 := by
  cases c with
  | enter key data v => exact h.enter key data v
  | find key =>
    obtain ⟨hreply, htable, hmap⟩ := h.find key
    refine ⟨hreply, by rw [htable], ?_⟩
    rw [htable, hmap]
    exact h
  | delete key v => exact h.deleteCall key v

end Calls

def replies {σ : Type} (step : σ → Call → Reply × σ) : σ → List Call → List Reply × σ
  | s, [] => ([], s)
  | s, c :: cs =>
    let (r, s) := step s c
    let (rs, s) := replies step s cs
    (r :: rs, s)

theorem replies_eq (h : Holds t m) (cs : List Call) : (replies (fun t c => c.onTable t) t cs).1 =
    (replies (fun m c => c.onMap t.size m) m cs).1 ∧ Holds (replies (fun t c => c.onTable t) t cs).2
      (replies (fun m c => c.onMap t.size m) m cs).2 := by
  induction cs generalizing t m with
  | nil => exact ⟨rfl, h⟩
  | cons c cs ih =>
    obtain ⟨hreply, hsize, hholds⟩ := h.call c
    have htail := ih hholds
    rw [hsize] at htail
    simp only [replies]
    exact ⟨by rw [hreply, htail.1], htail.2⟩

/-- Every sequence of calls on a new table is answered as the finite map answers it: a search gives
the data of the last accepted entry, and a new key is refused only when there are as many keys as
slots. -/
theorem hsearch_refines_map (nel : Nat) (cs : List Call) : ∃ t, hcreateR nel = some t ∧
    (replies (fun t c => c.onTable t) t cs).1 =
    (replies (fun m c => c.onMap t.size m) (∅ : Map) cs).1 ∧
    (replies (fun t c => c.onTable t) t cs).2.filled =
      (replies (fun m c => c.onMap t.size m) (∅ : Map) cs).2.keys.card := by
  obtain ⟨size, hcreate, hlt, hprime⟩ := hcreateR_spec nel
  have hempty := holds_empty ⟨hlt, hprime⟩
  obtain ⟨hreplies, hholds⟩ := replies_eq hempty cs
  exact ⟨_, hcreate, hreplies, hholds.filled⟩

end MtkBoot.Env
