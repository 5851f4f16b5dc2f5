import MtkBoot.Spmc.Fragment

/-! The effect of every call on the list of objects (`call_effect`), given that a new transaction
does not get the handle of a stored one. -/

namespace MtkBoot.Spmc

open Lib List Obj Option

variable {bufSize len spId v : Nat} {err : Option Int} {hook : Int} {known : Nat → Bool}
  {mbox : Mailbox} {objs : List Obj} {r : Result} {s s' : Store}

variable {c : Call} {secure : Bool}

structure Inv (s : Store) (objs : List Obj) : Prop where
  holds : Holds s objs
  stored : ∀ o ∈ objs, o.Stored
  distinct : (objs.map Obj.handle).Nodup

theorem Inv.length (h : Inv s objs) : ∀ o ∈ objs, 16 ≤ o.desc.length :=
  fun o ho => le_trans (by omega) ((h.stored o ho).le_length (h.holds.wf o ho))

/-- A call that begins a transaction finds the next handle free. -/
def Fresh (s : Store) : Call → Prop
  | .send .. => s.lookup s.nextHandle = none
  | _ => True

instance (s : Store) : (c : Call) → Decidable (Fresh s c)
  | .send .. => inferInstanceAs (Decidable (_ = _))
  | .fragTx .. | .retrieve .. | .relinquish .. | .reclaim .. => instDecidableTrue

/-- The handle of the transaction that a call is about, if it does not begin a new one. -/
def Call.target : Call → Option Nat
  | .send .. => none
  | .fragTx _ h .. => some h
  | .retrieve _ _ _ _ _ _ mbox _ => some (handle mbox.tx 0)
  | .relinquish _ mbox _ => some (rd mbox.tx 0 8)
  | .reclaim _ h .. => some h

def Call.version : Call → Nat
  | .send _ _ v .. => v
  | .fragTx v .. => v
  | _ => v11

def incoming (s : Store) : Call → Bytes
  | .send _ _ _ _ len _ _ mbox _ => bytesAt mbox.tx 0 len
  | .fragTx _ h len _ mbox _ =>
    match s.lookup h with
    | some p => bytesAt s.data (p + 32) (descFilled s.data p) ++ bytesAt mbox.tx 0 len
    | none => []
  | _ => []

def completes (s : Store) : Call → Bool
  | .send _ _ _ total len .. => len = total
  | .fragTx _ h len .. =>
    match s.lookup h with
    | some p => descFilled s.data p + len = descSize s.data p
    | none => false
  | _ => false

def Given (s : Store) (c : Call) (given : List Range) : Prop :=
  completes s c ∧ given = rangesOf c.version (incoming s c)

def Call.retriever : Call → Option Nat
  | .retrieve _ _ _ _ _ _ mbox spId => if emadCount mbox.tx 0 = 0 then none else some spId
  | _ => none

def Call.relinquisher : Call → Option Nat
  | .relinquish _ _ spId => some spId
  | _ => none

inductive Effect (s : Store) (objs : List Obj) (c : Call) : Result → List Obj → Prop
  | refused (code : Int) : Effect s objs c (.error code) objs
  | begun {r : Result} {l : List Obj} (htarget : c.target = none)
      (hfilled : Filled objs [] s.nextHandle (Given s c) r l) : Effect s objs c r l
  | continued {pre post l : List Obj} {o : Obj} {r : Result} (hobjs : objs = pre ++ o :: post)
      (htarget : c.target = some o.handle) (hcall : c.retriever = none ∧ c.relinquisher = none)
      (hopen : ¬o.Complete)
      (hfilled : Filled pre post o.handle (Given s c) r l) : Effect s objs c r l
  | retrieved
      {pre post : List Obj} {o o' : Obj} (err : Option Int) (hobjs : objs = pre ++ o :: post)
      (htarget : c.target = some o.handle) (hcall : c.relinquisher = none) (hcomplete : o.Complete)
      (hdesc : o'.desc = o.desc) (hfilled : o'.filled = o.filled)
      (huse : o'.inUse = if c.retriever = none then o.inUse else u64 (o.inUse + 1)) :
      Effect s objs c (err.elim .retrieveResp .error) (pre ++ o' :: post)
  | relinquished {pre post : List Obj} {o : Obj} {spId : Nat} (hobjs : objs = pre ++ o :: post)
      (htarget : c.target = some o.handle) (hcall : c.retriever = none ∧ c.relinquisher = some spId)
      (huse : o.inUse ≠ 0) :
      Effect s objs c .success (pre ++ { o with inUse := o.inUse - 1 } :: post)
  | reclaimed {pre post : List Obj} {o : Obj} (hobjs : objs = pre ++ o :: post)
      (htarget : c.target = some o.handle) (hcall : c.retriever = none ∧ c.relinquisher = none)
      (hcomplete : o.Complete) (huse : o.inUse = 0) : Effect s objs c .success (pre ++ post)

/-- The calls that bring a descriptor, with what follows when they are turned down and when the
fragment is accepted. -/
def callWith {α : Type} (s : Store) (refuse : Store → Int → α)
    (finish : Store → Nat → Nat → Int → α) (other : α) : Call → α
  | .send fnum secure v total len address pages mbox hook =>
    if address ≠ 0 ∨ pages ≠ 0 then refuse s invalidParameter
    else if secure then refuse s invalidParameter
    else
      match minDescSize v, typeFlag fnum with
      | some size, some mtdFlag =>
        if len < size then refuse s invalidParameter
        else
          match s.alloc total with
          | none => refuse s noMemory
          | some (s, p) =>
            fillWith mbox s p len mtdFlag v (fun s => refuse (s.free p)) fun s => finish s p v hook
      | _, _ => refuse s invalidParameter
  | .fragTx v h len sender mbox hook =>
    match s.lookup h with
    | none => refuse s invalidParameter
    | some p =>
      if sender ≠ senderId s.data (p + 32) * 2 ^ 16 then refuse s invalidParameter
      else if descFilled s.data p = descSize s.data p then refuse s invalidParameter
      else fillWith mbox s p len 0 v (fun s => refuse (s.free p)) fun s => finish s p v hook
  | _ => other

section Calls

variable {pre post : List Obj} {o : Obj}

theorem Inv.others (h : Inv s (pre ++ o :: post)) : ∀ a ∈ pre ++ post, a.handle ≠ o.handle := by
  have hnodup := h.distinct
  rw [map_append, map_cons, perm_middle.nodup_iff, nodup_cons] at hnodup
  intro a ha heq
  exact hnodup.1 (by rw [← map_append, ← heq]; exact mem_map_of_mem ha)

theorem refused_effect {code : Int} (h : Inv s objs) (heq : (s, .error code) = (s', r)) :
    ∃ l, Holds s' l ∧ Effect s objs c r l := by
  cases heq
  exact ⟨objs, h.holds, .refused code⟩

theorem minDescSize_le {size : Nat} (h : minDescSize v = some size) : 32 ≤ size := by
  unfold minDescSize at h
  split at h
  · exact le_of_eq (some.inj h)
  · split at h
    · have := some.inj h
      omega
    · cases h

/-- The fragment of a call goes to object `o` of `s1`: a new one behind the others, or that of its
transaction. -/
structure Brought (s : Store) (objs : List Obj) (c : Call) (s1 : Store) (pre : List Obj) (o : Obj)
  (post : List Obj) (fragment : Bytes) : Prop where
  holds : Holds s1 (pre ++ o :: post)
  next : s1.nextHandle = s.nextHandle
  place : (objs = pre ∧ post = [] ∧ c.target = none ∧ o.filled = 0) ∨
    (objs = pre ++ o :: post ∧ c.target = some o.handle ∧ ¬o.Complete ∧ 32 ≤ o.filled)
  header : 32 ≤ o.filled + fragment.length
  idle : o.inUse = 0
  completes : o.filled + fragment.length = o.desc.length → completes s c
  incoming : o.desc.take o.filled ++ fragment = incoming s c

theorem Brought.others {s1 : Store} {fragment : Bytes} (hinv : Inv s objs)
    (hb : Brought s objs c s1 pre o post fragment) :
    ∀ a ∈ pre ++ post, a ∈ objs ∧ c.target ≠ some a.handle := by
  intro a ha
  rcases hb.place with ⟨rfl, rfl, htarget, -⟩ | ⟨rfl, htarget, -⟩
  · exact ⟨by simpa using ha, by simp [htarget]⟩
  · exact ⟨perm_middle.mem_iff.mpr (mem_cons_of_mem _ ha), by
      simpa [htarget] using (hinv.others a ha).symm⟩

theorem callWith_cases {α : Type} {refuse : Store → Int → α} {finish : Store → Nat → Nat → Int → α}
    {other x : α} (hinv : Inv s objs) (hx : callWith s refuse finish other c = x) :
    x = other ∨ (∃ code, x = refuse s code) ∨ ∃ s1 pre o post mbox len mtdFlag hook,
      fillWith mbox s1 (extent enc pre) len mtdFlag c.version (fun s =>
        refuse (s.free (extent enc pre))) (fun s => finish s (extent enc pre) c.version hook) = x ∧
      Brought s objs c s1 pre o post (bytesAt mbox.tx 0 len) := by
  cases c with
  | send fnum secure v total len address pages mbox hook =>
    right
    iterate 2
      rcases ite_eq_iff.mp hx with ⟨-, hx⟩ | ⟨-, hx⟩
      · exact .inl ⟨_, hx.symm⟩
    split at hx
    · rename_i size mtdFlag hsize hflag
      rcases ite_eq_iff.mp hx with ⟨-, hx⟩ | ⟨hlen, hx⟩
      · exact .inl ⟨_, hx.symm⟩
      split at hx
      · exact .inl ⟨_, hx.symm⟩
      rename_i s1 p halloc
      obtain ⟨f, hf, rfl, htotal, hzero, huse, -, hnext, -, -⟩ := hinv.holds.alloc halloc
      have hsize32 := minDescSize_le hsize
      refine .inr ⟨_, _, f, [], mbox, len, mtdFlag, hook, hx, hf, hnext,
        .inl ⟨rfl, rfl, rfl, hzero⟩, ?_, huse, ?_, ?_⟩
      · rw [length_bytesAt]
        omega
      · rw [length_bytesAt]
        exact fun hall => decide_eq_true (by omega)
      · rw [hzero, take_zero, nil_append, Spmc.incoming]
    · exact .inl ⟨_, hx.symm⟩
  | fragTx v h len sender mbox hook =>
    right
    simp only [callWith] at hx
    split at hx
    · exact .inl ⟨_, hx.symm⟩
    rename_i p hl
    obtain ⟨pre, o, post, rfl, rfl, rfl⟩ := hinv.holds.lookup_some hinv.length hl
    have hwf := hinv.holds.wf_of_split
    have hstored := hinv.stored o (by simp)
    have hheader := hstored.header
    rcases ite_eq_iff.mp hx with ⟨-, hx⟩ | ⟨-, hx⟩
    · exact .inl ⟨_, hx.symm⟩
    rcases ite_eq_iff.mp hx with ⟨-, hx⟩ | ⟨hopen, hx⟩
    · exact .inl ⟨_, hx.symm⟩
    rw [descFilled_at hinv.holds.laid hwf, descSize_at hinv.holds.laid hwf] at hopen
    have hbytes : bytesAt s.data (extent enc pre + 32) o.filled = o.desc.take o.filled := by
      have hfield := hinv.holds.laid.field_at (o := 32) (show 32 + o.filled ≤ o.enc.length by
        rw [length_enc]
        have := hwf.filled
        omega)
      rw [hfield]
      unfold field enc
      rw [drop_left' (by simp)]
    refine .inr ⟨_, pre, o, post, mbox, len, 0, hook, hx, hinv.holds, rfl,
      .inr ⟨rfl, rfl, hopen, hheader⟩, by omega, hstored.idle hopen, ?_, ?_⟩
    · rw [length_bytesAt]
      simp only [Spmc.completes, hl, descFilled_at hinv.holds.laid hwf,
        descSize_at hinv.holds.laid hwf, decide_eq_true_eq, imp_self]
    · simp [Spmc.incoming, hl, descFilled_at hinv.holds.laid hwf, hbytes]
  | _ => exact .inl hx.symm

theorem Inv.next_free (hinv : Inv s objs) (hfresh : Fresh s c) (hc : c.target = none) :
    ∀ a ∈ objs, a.handle ≠ s.nextHandle := by
  cases c with
  | send => exact hinv.holds.lookup_none hinv.length hfresh
  | _ => cases hc

theorem fragment_effect (hinv : Inv s objs) (hfresh : Fresh s c)
    (hcall : c.retriever = none ∧ c.relinquisher = none) (hres : callWith s
      (fun s code => some (s, .error code)) (finishDesc known) none c = some (s', r)) :
    ∃ l, Holds s' l ∧ Effect s objs c r l := by
  rcases callWith_cases hinv hres with hnone | ⟨code, heq⟩ | ⟨s1, pre, o, post, mbox, len, flag,
    hook, hfill, hb⟩
  · cases hnone
  · exact refused_effect hinv (some.inj heq).symm
  have hheader := hb.header
  rw [length_bytesAt] at hheader
  have hgiven : ∀ g, (o.filled + len = o.desc.length ∧
      g = rangesOf c.version (o.desc.take o.filled ++ bytesAt mbox.tx 0 len)) → Given s c g := by
    rintro g ⟨hall, rfl⟩
    exact ⟨hb.completes (by rwa [length_bytesAt]), by rw [hb.incoming]⟩
  have hstored : ∀ a ∈ pre ++ post, a.Stored := fun a ha => hinv.stored a (hb.others hinv a ha).1
  rw [← fillDesc_eq] at hfill
  rcases hb.place with ⟨rfl, rfl, htarget, hzero⟩ | ⟨rfl, htarget, hopen, h32⟩
  · have hhandle : transactionHandle s1 o = s.nextHandle := by
      rw [transactionHandle, if_pos hzero, hb.next]
    obtain ⟨l, hl, hfilled⟩ := fillDesc_filled hb.holds hstored hheader (fun hn => absurd hzero hn)
      hb.idle (by rw [hhandle, append_nil]; exact hinv.next_free hfresh htarget) hfill
    rw [hhandle] at hfilled
    exact ⟨l, hl, .begun htarget (hfilled.imp hgiven)⟩
  · have hhandle : transactionHandle s1 o = o.handle := by rw [transactionHandle, if_neg (by omega)]
    obtain ⟨l, hl, hfilled⟩ := fillDesc_filled hb.holds hstored hheader (fun _ => h32) hb.idle
      (by rw [hhandle]; exact hinv.others) hfill
    rw [hhandle] at hfilled
    exact ⟨l, hl, .continued rfl htarget hcall hopen (hfilled.imp hgiven)⟩

theorem populateV10Descriptor_holds (h : Holds s (pre ++ o :: post))
    (hheader : 32 ≤ o.desc.length) :
    Holds (populateV10Descriptor s (extent enc pre)).1 (pre ++ o :: post) := by
  unfold populateV10Descriptor
  dsimp only
  split
  · exact h
  rename_i hsize
  cases halloc : s.alloc _ with
  | none => exact h
  | some res =>
    obtain ⟨s1, q⟩ := res
    dsimp only
    obtain ⟨f, hf, rfl, hlength, -⟩ := h.alloc halloc
    have hcount :
        emadCount s1.data (extent enc pre + 32) = emadCount s.data (extent enc pre + 32) := by
      have hlaid : Laid enc s1.data (pre ++ o :: (post ++ [f])) := by
        simpa [append_assoc] using hf.laid
      exact (rd_at hlaid (x := 28) (by omega)).trans (rd_at h.laid (by omega)).symm
    have hsize1 := descSize_at hf.laid hf.wf_of_split
    have hbehind : extent enc pre + 64 ≤ extent enc (pre ++ o :: post) := by
      rw [extent_append, extent_cons, length_enc]
      omega
    have hroom : 32 + 16 * emadCount s1.data (extent enc pre + 32) ≤
        descSize s1.data (extent enc (pre ++ o :: post)) := by
      rw [hsize1, hlength, hcount]
      unfold v10DescriptorSize at hsize ⊢
      dsimp only at hsize ⊢
      split at hsize
      · omega
      · rw [if_neg ‹_›]
        omega
    have hwritten := hf.writeDesc (m := (convertMtdToV10 s1.data (extent enc (pre ++ o :: post))
      (extent enc pre)).1) fun x hx => convertMtdToV10_frame hbehind hroom (by rwa [hsize1])
    have hfreed := hwritten.free
    rwa [append_nil] at hfreed

theorem populateHypDescriptor_holds (h : Holds s (pre ++ o :: post))
    (hpop : populateHypDescriptor s (extent enc pre) bufSize v = some (s', err)) :
    ∃ shift, Holds s' (pre ++ { o with hypShift := shift } :: post) := by
  unfold populateHypDescriptor at hpop
  dsimp only at hpop
  generalize (if v = v10 then 48 else 64) = hypOffset at hpop
  split at hpop
  · cases hpop
    exact ⟨o.hypShift, h⟩
  · obtain ⟨mrd, -, heq⟩ := map_eq_some_iff.mp hpop
    cases heq
    have hwf := h.wf_of_split
    exact ⟨_, h.put (by simp) (o.enc_setHypShift _)
      ⟨hwf.size, hwf.filled, hwf.inUse, Nat.mod_lt _ (by decide)⟩⟩

variable (h : Inv s objs)
include h

theorem memRetrieveReq_effect {total address pages : Nat}
    (hres : memRetrieveReq s secure v total len address pages mbox spId = some (s', r)) :
    ∃ l, Holds s' l ∧ Effect s objs (.retrieve secure v total len address pages mbox spId) r l := by
  unfold memRetrieveReq at hres
  dsimp only at hres
  generalize (if v = v10 then 32 else 48) = header at hres
  iterate 6
    rcases ite_eq_iff.mp hres with ⟨-, hres⟩ | ⟨-, hres⟩
    · exact refused_effect h (some.inj hres)
  split at hres
  · exact refused_effect h (some.inj hres)
  rename_i p hl
  obtain ⟨pre, o, post, rfl, rfl, hhandle⟩ := h.holds.lookup_some h.length hl
  have hwf := h.holds.wf_of_split
  rcases ite_eq_iff.mp hres with ⟨-, hres⟩ | ⟨hmatch, hres⟩
  · exact refused_effect h (some.inj hres)
  have hcomplete : o.Complete := by
    simp only [retrieveMatches, Bool.not_eq_false, Bool.and_eq_true, decide_eq_true_eq] at hmatch
    rw [descFilled_at h.holds.laid hwf, descSize_at h.holds.laid hwf] at hmatch
    exact hmatch.1.1.1.1.1.1
  have hheader := (h.stored o (by simp)).le_length hwf
  by_cases hcount : emadCount mbox.tx 0 = 0
  · -- the hypervisor: only the shift is stored
    rw [if_pos hcount, if_neg (not_not_intro hcount)] at hres
    obtain ⟨⟨s1, err⟩, hpop, heq⟩ := map_eq_some_iff.mp hres
    cases heq
    obtain ⟨shift, hshift⟩ := populateHypDescriptor_holds h.holds hpop
    exact ⟨_, hshift, .retrieved err rfl (by rw [hhandle]; rfl) rfl hcomplete rfl rfl
      (by rw [Call.retriever, if_pos hcount, if_pos rfl])⟩
  · -- a partition: the count goes up before the response is made
    rw [if_pos hcount, if_neg hcount, inUse_at h.holds.laid hwf] at hres
    have hput := h.holds.putInUse (u64_lt (o.inUse + 1))
    generalize s.put (extent enc pre + 16) 8 (u64 (o.inUse + 1)) = s1 at hres hput
    have heffect : ∀ err : Option Int, Effect s (pre ++ o :: post)
        (.retrieve secure v total len address pages mbox spId) (err.elim .retrieveResp .error)
        (pre ++ { o with inUse := u64 (o.inUse + 1) } :: post) := fun err =>
      .retrieved err rfl (by rw [hhandle]; rfl) rfl hcomplete rfl rfl
        (by rw [Call.retriever, if_neg hcount, if_neg (by simp)])
    split at hres
    · have hpop := populateV10Descriptor_holds hput hheader
      generalize populateV10Descriptor s1 (extent enc pre) = res at hres hpop
      cases hres
      exact ⟨_, hpop, heffect _⟩
    · cases hres
      exact ⟨_, hput, heffect none⟩

theorem memRelinquish_effect (hres : memRelinquish s secure mbox spId = (s', r)) :
    ∃ l, Holds s' l ∧ Effect s objs (.relinquish secure mbox spId) r l := by
  iterate 4
    rcases ite_eq_iff.mp hres with ⟨-, hres⟩ | ⟨-, hres⟩
    · exact refused_effect h hres
  split at hres
  · exact refused_effect h hres
  rename_i p hl
  obtain ⟨pre, o, post, rfl, rfl, hhandle⟩ := h.holds.lookup_some h.length hl
  have hwf := h.holds.wf_of_split
  iterate 3
    rcases ite_eq_iff.mp hres with ⟨-, hres⟩ | ⟨-, hres⟩
    · exact refused_effect h hres
  rcases ite_eq_iff.mp hres with ⟨-, hres⟩ | ⟨huse, hres⟩
  · exact refused_effect h hres
  rw [inUse_at h.holds.laid hwf] at hres huse
  obtain ⟨rfl, rfl⟩ := Prod.mk.inj hres
  exact ⟨_, h.holds.putInUse (lt_of_le_of_lt (Nat.sub_le _ 1) hwf.inUse),
    .relinquished rfl (by rw [hhandle]; rfl) ⟨rfl, rfl⟩ huse⟩

theorem memReclaim_effect {handle memFlags : Nat}
    (hres : memReclaim s secure handle memFlags hook = (s', r)) :
    ∃ l, Holds s' l ∧ Effect s objs (.reclaim secure handle memFlags hook) r l := by
  iterate 2
    rcases ite_eq_iff.mp hres with ⟨-, hres⟩ | ⟨-, hres⟩
    · exact refused_effect h hres
  split at hres
  · exact refused_effect h hres
  rename_i p hl
  obtain ⟨pre, o, post, rfl, rfl, hhandle⟩ := h.holds.lookup_some h.length hl
  have hwf := h.holds.wf_of_split
  rcases ite_eq_iff.mp hres with ⟨-, hres⟩ | ⟨huse, hres⟩
  · exact refused_effect h hres
  rcases ite_eq_iff.mp hres with ⟨-, hres⟩ | ⟨hcomplete, hres⟩
  · exact refused_effect h hres
  rcases ite_eq_iff.mp hres with ⟨-, hres⟩ | ⟨-, hres⟩
  · exact refused_effect h hres
  rw [inUse_at h.holds.laid hwf, not_not] at huse
  rw [descFilled_at h.holds.laid hwf, descSize_at h.holds.laid hwf, not_not] at hcomplete
  obtain ⟨rfl, rfl⟩ := Prod.mk.inj hres
  exact ⟨_, h.holds.free, .reclaimed rfl (by rw [hhandle]; rfl) ⟨rfl, rfl⟩ hcomplete huse⟩

theorem call_effect (hfresh : Fresh s c) (hres : call known s c = some (s', r)) :
    ∃ l, Holds s' l ∧ Effect s objs c r l := by
  cases c with
  | send => exact fragment_effect h hfresh ⟨rfl, rfl⟩ hres
  | fragTx => exact fragment_effect h hfresh ⟨rfl, rfl⟩ hres
  | retrieve => exact memRetrieveReq_effect h hres
  | relinquish => exact memRelinquish_effect h (some.inj hres)
  | reclaim => exact memReclaim_effect h (some.inj hres)

end Calls

/-! ### The room for objects -/

section DataSize

variable {p mtdFlag : Nat}

attribute [grind =] Store.free_dataSize Store.put_dataSize Store.write_dataSize
attribute [grind →] Store.alloc_dataSize

@[grind =] theorem beginShare_dataSize (s : Store) (p h : Nat) (hook : Int) :
    (beginShare s p h hook).1.dataSize = s.dataSize := by
  grind [beginShare]

@[grind =] theorem convertStored_dataSize (s : Store) (p : Nat) (hook : Int) :
    (convertStored s p hook).1.dataSize = s.dataSize := by
  grind [convertStored]

@[grind →] theorem finishDesc_dataSize (h : finishDesc known s p v hook = some (s', r)) :
    s'.dataSize = s.dataSize := by
  grind [finishDesc]

@[grind →] theorem fillDesc_dataSize
    (h : fillDesc known mbox s p len mtdFlag v hook = some (s', r)) : s'.dataSize = s.dataSize := by
  grind [fillDesc, checkFragment, acceptFragment, advance, assignHandle, Store.setNext]

@[grind =] theorem populateV10Descriptor_dataSize (s : Store) (p : Nat) :
    (populateV10Descriptor s p).1.dataSize = s.dataSize := by
  grind [populateV10Descriptor]

@[grind →] theorem populateHypDescriptor_dataSize
    (h : populateHypDescriptor s p bufSize v = some (s', err)) : s'.dataSize = s.dataSize := by
  grind [populateHypDescriptor, map_eq_some_iff]

theorem call_dataSize (h : call known s c = some (s', r)) : s'.dataSize = s.dataSize := by
  cases c with
  | send => grind [call, memSend]
  | fragTx => grind [call, memFragTx]
  | retrieve =>
    rw [call, memRetrieveReq] at h
    iterate 6
      replace h := ite_eq_iff.mp h
      rcases h with ⟨-, h⟩ | ⟨-, h⟩
      · grind
    grind [map_eq_some_iff]
  | relinquish => grind [call, memRelinquish]
  | reclaim => grind [call, memReclaim]

end DataSize

end MtkBoot.Spmc
