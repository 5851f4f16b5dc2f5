import MtkBoot.Spmc.Effect

/-! The reception of a fragment, as a function of the object and the bytes that come in.
`fillWith_taken` tells when `spmc_ffa_fill_desc` takes it; `fillDesc_filled` adds what follows. -/

namespace MtkBoot.Spmc

open Lib List Obj

variable {b : Bytes} {i len mtdFlag n next v : Nat} {m : Mem} {o : Obj}

namespace Obj

def setDesc (o : Obj) (x : Nat) (b : Bytes) : Obj := { o with desc := splice o.desc x b }

variable {x : Nat}

section

variable (h : x + b.length ≤ o.desc.length)
include h

theorem length_setDesc : (o.setDesc x b).desc.length = o.desc.length := length_splice h

theorem mem_setDesc_outside (hi : i < x ∨ x + b.length ≤ i) : (o.setDesc x b).mem i = o.mem i := by
  rw [mem, mem, setDesc, getD_eq_getElem?_getD, splice_getElem? h, if_neg (by omega),
    getD_eq_getElem?_getD]

theorem rd_setDesc_outside {p : Nat} (hp : p + len ≤ x ∨ x + b.length ≤ p) :
    rd (o.setDesc x b).mem p len = rd o.mem p len :=
  rd_congr fun _ _ => mem_setDesc_outside h (by omega)

end

theorem rd_setDesc_self (h : x + len ≤ o.desc.length) :
    rd (o.setDesc x (leBytes len v)).mem x len = v % 256 ^ len := by
  rw [rd, ← leNat_leBytes]
  congr 1
  apply ext_getElem?
  intro i
  rw [bytesAt_getElem?]
  split
  · rename_i hi
    have hsplice := splice_getElem? (l := o.desc) (b := leBytes len v) (by simpa using h) (x + i)
    rw [length_leBytes, if_pos (by omega), Nat.add_sub_cancel_left] at hsplice
    rw [mem, setDesc, getD_eq_getElem?_getD, hsplice,
      getElem?_eq_getElem (by simpa using hi), Option.getD_some]
  · rw [getElem?_eq_none (by simp; omega)]

theorem length_setNumber (h : x + len ≤ o.desc.length) :
    (o.setDesc x (leBytes len n)).desc.length = o.desc.length := length_setDesc (by simpa using h)

def receive (o : Obj) (fragment : Bytes) : Obj := o.setDesc o.filled fragment

def markNs (o : Obj) : Obj := o.setDesc 2 (leBytes 2 (attributes o.mem 0 ||| 2 ^ 6))

def assign (o : Obj) (h mtdFlag : Nat) : Obj :=
  let o := o.setDesc 8 (leBytes 8 h)
  o.setDesc 4 (leBytes 4 (flags o.mem 0 ||| mtdFlag))

theorem length_markNs (h : 32 ≤ o.desc.length) : o.markNs.desc.length = o.desc.length :=
  length_setNumber (by omega)

theorem length_assign (h : 32 ≤ o.desc.length) (n mtdFlag : Nat) :
    (o.assign n mtdFlag).desc.length = o.desc.length := by
  have hlen : (o.setDesc 8 (leBytes 8 n)).desc.length = o.desc.length := length_setNumber (by omega)
  rw [assign, length_setNumber (by omega), hlen]

/-- A received object after the fragment was accepted; `next` is the next handle. -/
def accept (o : Obj) (len next mtdFlag : Nat) : Obj :=
  let o₁ := if o.filled = 0 then o.markNs.assign next mtdFlag else o.markNs
  { o₁ with filled := o.filled + len }

section AcceptFields

variable (h : 32 ≤ o.desc.length)
include h

theorem length_accept : (o.accept len next mtdFlag).desc.length = o.desc.length := by
  have hmark := o.length_markNs h
  unfold accept
  split
  · rw [length_assign (by omega), hmark]
  · exact hmark

omit h in
theorem inUse_accept : (o.accept len next mtdFlag).inUse = o.inUse := by
  unfold accept
  split <;> rfl

theorem mem_accept (hi : 16 ≤ i) : (o.accept len next mtdFlag).mem i = o.mem i := by
  have hmark := o.length_markNs h
  have hlen : (o.markNs.setDesc 8 (leBytes 8 next)).desc.length = o.desc.length := by
    rw [length_setNumber (by omega), hmark]
  have hmem : o.markNs.mem i = o.mem i := mem_setDesc_outside (by simp; omega) (by simp; omega)
  rw [← hmem]
  unfold accept
  split
  · show (o.markNs.assign next mtdFlag).mem i = _
    rw [assign, mem_setDesc_outside (by simp; omega) (by simp; omega),
      mem_setDesc_outside (by simp; omega) (by simp; omega)]
  · rfl

theorem handle_accept_first (hfirst : o.filled = 0) (hnext : next < 2 ^ 64) :
    (o.accept len next mtdFlag).handle = next := by
  have hmark := o.length_markNs h
  have hlen : (o.markNs.setDesc 8 (leBytes 8 next)).desc.length = o.desc.length := by
    rw [length_setNumber (by omega), hmark]
  have hself : rd (o.markNs.setDesc 8 (leBytes 8 next)).mem 8 8 = next % 256 ^ 8 :=
    rd_setDesc_self (by omega)
  unfold accept
  rw [if_pos hfirst]
  show rd (o.markNs.assign next mtdFlag).mem (0 + 8) 8 = next
  rw [assign, rd_setDesc_outside (by simp; omega) (by simp), zero_add, hself]
  exact Nat.mod_eq_of_lt hnext

theorem handle_accept_later (hlater : o.filled ≠ 0) :
    (o.accept len next mtdFlag).handle = o.handle := by
  unfold accept
  rw [if_neg hlater]
  exact rd_setDesc_outside (by simp; omega) (by simp)

end AcceptFields

end Obj

/-- Whether `spmc_ffa_fill_desc` accepts the fragment that `o` has just received. -/
def accepts (o : Obj) (len mtdFlag v : Nat) : Prop := isSecureWorldId (senderId o.mem 0) = false ∧
  ¬(o.filled = 0 ∧ attributes o.mem 0 / 2 ^ 6 % 2 = 1) ∧
  ¬(flags o.mem 0 ≠ 0 ∧ mtdFlag ≠ 0 ∧ flags o.mem 0 ≠ mtdFlag) ∧
  (o.filled = 0 → validateMtdStart o.mem 0 v len o.desc.length = true)

section Accept

variable {s : Store} {pre post : List Obj} {hook : Int} {known : Nat → Bool} {mbox : Mailbox}

theorem validateMtdStart_congr {m' : Mem} {d d' total : Nat}
    (h : ∀ i, 16 ≤ i → i < n → m (d + i) = m' (d' + i)) (hmin : 32 ≤ n) (hlen : len ≤ n) :
    validateMtdStart m d v len total = validateMtdStart m' d' v len total := by
  have hcount : emadCount m d = emadCount m' d' := rd_congr_from h (by omega) (by omega)
  unfold validateMtdStart
  rw [hcount]
  by_cases hv : v = v10
  · simp [hv]
  by_cases h48 : 48 ≤ len
  · have hoffset : emadOffset m d = emadOffset m' d' := rd_congr_from h (by omega) (by omega)
    have hsize : emadSize m d = emadSize m' d' := rd_congr_from h (by omega) (by omega)
    rw [hoffset, hsize]
  · simp [hv, h48]

theorem senderId_at (h : Laid enc m (pre ++ o :: post)) (hmin : 32 ≤ o.desc.length) :
    senderId m (extent enc pre + 32) = senderId o.mem 0 :=
  rd_congr fun _ _ => desc_at h (by omega)

theorem attributes_at (h : Laid enc m (pre ++ o :: post)) (hmin : 32 ≤ o.desc.length) :
    attributes m (extent enc pre + 32) = attributes o.mem 0 :=
  rd_at h (by omega)

theorem flags_at (h : Laid enc m (pre ++ o :: post)) (hmin : 32 ≤ o.desc.length) :
    flags m (extent enc pre + 32) = flags o.mem 0 := rd_at h (by omega)

section

variable (h : Holds s (pre ++ o :: post))
include h

theorem Holds.setDesc {x : Nat} (hx : x + b.length ≤ o.desc.length) :
    Holds (s.write (extent enc pre + 32 + x) b) (pre ++ o.setDesc x b :: post) := h.putDesc hx

theorem Holds.setNumber {x : Nat} (hx : x + len ≤ o.desc.length) :
    Holds (s.put (extent enc pre + 32 + x) len n) (pre ++ o.setDesc x (leBytes len n) :: post) :=
  h.setDesc (by simpa using hx)

theorem assignHandle_holds (hmin : 32 ≤ o.desc.length) : Holds
    (assignHandle s (extent enc pre) mtdFlag) (pre ++ o.assign s.nextHandle mtdFlag :: post) := by
  have h1 : Holds _ (pre ++ o.setDesc 8 (leBytes 8 s.nextHandle) :: post) :=
    (h.setNumber (by omega)).setNext (u64_lt (s.nextHandle + 1))
  have hlen : (o.setDesc 8 (leBytes 8 s.nextHandle)).desc.length = o.desc.length :=
    length_setNumber (by omega)
  unfold assignHandle assign
  dsimp only
  rw [flags_at h1.laid (by omega)]
  exact h1.setNumber (by omega)

omit h in
theorem assignHandle_nextHandle (s : Store) (p mtdFlag : Nat) :
    (assignHandle s p mtdFlag).nextHandle = u64 (s.nextHandle + 1) := by
  simp [assignHandle, Store.put, Store.write_nextHandle, Store.setNext]

omit h in
theorem advance_nextHandle (s : Store) (p len : Nat) :
    (advance s p len).nextHandle = s.nextHandle := by
  simp [advance, Store.put, Store.write_nextHandle]

theorem advance_holds (hlen : o.filled + len ≤ o.desc.length) :
    Holds (advance s (extent enc pre) len)
      (pre ++ { o with filled := o.filled + len } :: post) := by
  unfold advance
  rw [descFilled_at h.laid h.wf_of_split]
  exact h.putFilled hlen

end

/-- `spmc_ffa_fill_desc` behind the copy of the fragment, with what follows when it is turned down
and when it is accepted. -/
def checkWith {α : Type} (s : Store) (p len mtdFlag v : Nat) (refuse : Store → Int → α)
    (finish : Store → α) : α :=
  let d := p + 32
  if isSecureWorldId (senderId s.data d) then refuse s deniedError
  else if descFilled s.data p = 0 ∧ attributes s.data d / 2 ^ 6 % 2 = 1 then
    refuse s invalidParameter
  else
    let s := s.put (d + 2) 2 (attributes s.data d ||| 2 ^ 6)
    if flags s.data d ≠ 0 ∧ mtdFlag ≠ 0 ∧ flags s.data d ≠ mtdFlag then refuse s invalidParameter
    else if descFilled s.data p = 0 then
      if validateMtdStart s.data d v len (descSize s.data p) = false then refuse s invalidParameter
      else finish (advance (assignHandle s p mtdFlag) p len)
    else finish (advance s p len)

def fillWith {α : Type} (mbox : Mailbox) (s : Store) (p len mtdFlag v : Nat)
    (refuse : Store → Int → α) (finish : Store → α) : α :=
  if mbox.pageCount = 0 then refuse s invalidParameter
  else if mbox.pageCount * 4096 < len then refuse s invalidParameter
  else if descSize s.data p - descFilled s.data p < len then refuse s invalidParameter
  else
    checkWith (s.write (p + 32 + descFilled s.data p) (bytesAt mbox.tx 0 len))
      p len mtdFlag v refuse finish

theorem fillDesc_eq (p : Nat) : fillDesc known mbox s p len mtdFlag v hook =
    fillWith mbox s p len mtdFlag v (fun s code => some (s.free p, .error code))
      fun s => finishDesc known s p v hook := rfl

/-- What can come of a fragment: it is turned down, or the object becomes `o'` and the end of the
transfer is looked for. -/
inductive Taken {α : Type} (pre post : List Obj) (o' : Obj) (refuse : Store → Int → α)
  (finish : Store → α) (next : Nat) (x : α) (ok : Prop) : Prop
  | refused {s' : Store} {code : Int} (hno : ¬ok) (hx : x = refuse s' code)
      (hs' : Holds (s'.free (extent Obj.enc pre)) (pre ++ post))
  | accepted {s' : Store} (hok : ok) (hx : x = finish s') (hs' : Holds s' (pre ++ o' :: post))
      (hnext : s'.nextHandle = next)

section

variable {α : Type} {refuse : Store → Int → α} {finish : Store → α}

theorem checkWith_taken (h : Holds s (pre ++ o :: post)) (hmin : 32 ≤ o.desc.length)
    (hlen : o.filled + len ≤ o.desc.length)
    (hnext : next = if o.filled = 0 then u64 (s.nextHandle + 1) else s.nextHandle) :
    Taken pre post (o.accept len s.nextHandle mtdFlag) refuse finish next
      (checkWith s (extent enc pre) len mtdFlag v refuse finish) (accepts o len mtdFlag v) := by
  have hwf := h.wf_of_split
  unfold checkWith
  dsimp only
  rw [senderId_at h.laid hmin, attributes_at h.laid hmin, descFilled_at h.laid hwf]
  split
  · rename_i hsecure
    exact .refused (fun hok => by simp [hok.1] at hsecure) rfl h.free
  rename_i hsecure
  split
  · rename_i hns
    exact .refused (fun hok => hok.2.1 hns) rfl h.free
  rename_i hns
  -- The bit that is set lies in front of all that is looked at from now on.
  have h2 : Holds _ (pre ++ o.markNs :: post) := h.setNumber (by omega)
  have hout : 2 + (leBytes 2 (attributes o.mem 0 ||| 2 ^ 6)).length ≤ o.desc.length := by
    simp; omega
  have hlen2 := o.length_markNs hmin
  have hflags : flags o.markNs.mem 0 = flags o.mem 0 := rd_setDesc_outside hout (by simp)
  have hnext2 : (s.put (extent enc pre + 32 + 2) 2 (attributes o.mem 0 ||| 2 ^ 6)).nextHandle =
    s.nextHandle := s.write_nextHandle _ _
  generalize s.put _ _ _ = s2 at h2 hnext2 ⊢
  have hwf2 := h2.wf_of_split
  have hstart : validateMtdStart s2.data (extent enc pre + 32) v len o.desc.length =
      validateMtdStart o.mem 0 v len o.desc.length :=
    validateMtdStart_congr (n := o.desc.length) (fun i _ hi => by
      rw [desc_at h2.laid (by omega)]
      exact mem_setDesc_outside hout (by simp; omega)) hmin (by omega)
  rw [flags_at h2.laid (by omega), hflags, descFilled_at h2.laid hwf2, descSize_at h2.laid hwf2,
    hlen2, hstart]
  split
  · rename_i hbad
    exact .refused (fun hok => hok.2.2.1 hbad) rfl h2.free
  rename_i hgood
  split
  · rename_i hfirst
    have hfirst' : o.filled = 0 := hfirst
    split
    · rename_i hbad
      exact .refused (fun hok => by simp [hok.2.2.2 hfirst'] at hbad) rfl h2.free
    rename_i hvalid
    have h3 : Holds _ (pre ++ o.markNs.assign s2.nextHandle mtdFlag :: post) :=
      assignHandle_holds h2 (by omega)
    rw [hnext2] at h3
    have hroom : o.filled + len ≤ (o.markNs.assign s.nextHandle mtdFlag).desc.length := by
      rw [length_assign (by omega), hlen2]
      exact hlen
    have h4 := advance_holds h3 hroom
    refine .accepted ⟨by simpa using hsecure, hns, hgood, fun _ => by simpa using hvalid⟩ rfl ?_ ?_
    · unfold accept
      rw [if_pos hfirst']
      exact h4
    · rw [hnext, if_pos hfirst', advance_nextHandle, assignHandle_nextHandle, hnext2]
  · rename_i hlater
    have hlater' : o.filled ≠ 0 := hlater
    have hroom : o.filled + len ≤ o.markNs.desc.length := by
      rw [hlen2]
      exact hlen
    have h4 := advance_holds h2 hroom
    refine .accepted ⟨by simpa using hsecure, hns, hgood, fun hn => absurd hn hlater'⟩ rfl ?_ ?_
    · unfold accept
      rw [if_neg hlater']
      exact h4
    · rw [hnext, if_neg hlater', advance_nextHandle, hnext2]

theorem fillWith_taken {x : α} (h : Holds s (pre ++ o :: post)) (hmin : 32 ≤ o.filled + len)
    (hres : fillWith mbox s (extent enc pre) len mtdFlag v refuse finish = x) : Taken pre post
      ((o.receive (bytesAt mbox.tx 0 len)).accept len s.nextHandle mtdFlag) refuse finish
      (if o.filled = 0 then u64 (s.nextHandle + 1) else s.nextHandle) x
      (mbox.pageCount ≠ 0 ∧ len ≤ mbox.pageCount * 4096 ∧ len ≤ o.desc.length - o.filled ∧
        accepts (o.receive (bytesAt mbox.tx 0 len)) len mtdFlag v) := by
  subst hres
  generalize hnext : (if o.filled = 0 then u64 (s.nextHandle + 1) else s.nextHandle) = next
  have hwf := h.wf_of_split
  have hfilled := hwf.filled
  unfold fillWith
  rw [descSize_at h.laid hwf, descFilled_at h.laid hwf]
  split
  · rename_i hpages
    exact .refused (fun hok => hok.1 hpages) rfl h.free
  rename_i hpages
  split
  · exact .refused (fun hok => by omega) rfl h.free
  split
  · exact .refused (fun hok => by omega) rfl h.free
  have hlen : (bytesAt mbox.tx 0 len).length = len := length_bytesAt _ _ _
  have h1 : Holds _ (pre ++ o.receive (bytesAt mbox.tx 0 len) :: post) := h.setDesc (by omega)
  have hlen1 : (o.receive (bytesAt mbox.tx 0 len)).desc.length = o.desc.length :=
    length_setDesc (by omega)
  have hfilled1 : (o.receive (bytesAt mbox.tx 0 len)).filled = o.filled := rfl
  have hnext1 := s.write_nextHandle (extent enc pre + 32 + o.filled) (bytesAt mbox.tx 0 len)
  generalize s.write _ _ = s1 at h1 hnext1 ⊢
  generalize o.receive _ = o1 at h1 hlen1 hfilled1 ⊢
  have htaken : Taken pre post (o1.accept len s1.nextHandle mtdFlag) refuse finish next
      (checkWith s1 (extent enc pre) len mtdFlag v refuse finish)
      (accepts o1 len mtdFlag v) :=
    checkWith_taken h1 (by omega) (by omega) (by rw [← hnext, hnext1, hfilled1])
  rw [← hnext1]
  cases htaken with
  | refused hno hx hs' => exact .refused (fun hok => hno hok.2.2.2) hx hs'
  | accepted hok hx hs' hn => exact .accepted ⟨hpages, by omega, by omega, hok⟩ hx hs' hn

end

theorem complete_received {tx : Mem} (hwf : o.Wf) (hmin : 32 ≤ o.filled + len)
    (hlen : len ≤ o.desc.length - o.filled)
    (hc : ((o.receive (bytesAt tx 0 len)).accept len next mtdFlag).Complete) :
    o.filled + len = o.desc.length := by
  have hfilled := hwf.filled
  have hreceive : (o.receive (bytesAt tx 0 len)).desc.length = o.desc.length :=
    length_setDesc (by rw [length_bytesAt]; omega)
  have hall : o.filled + len = _ := hc
  rw [hall, length_accept (by omega), hreceive]

def transactionHandle (s : Store) (o : Obj) : Nat := if o.filled = 0 then s.nextHandle else o.handle

theorem fillDesc_filled (h : Holds s (pre ++ o :: post)) (hstored : ∀ a ∈ pre ++ post, a.Stored)
    (hmin : 32 ≤ o.filled + len) (hlater : o.filled ≠ 0 → 32 ≤ o.filled) (huse : o.inUse = 0)
    (honly : ∀ a ∈ pre ++ post, a.handle ≠ transactionHandle s o) {s' : Store} {r : Result}
    (hres : fillDesc known mbox s (extent enc pre) len mtdFlag v hook = some (s', r)) :
    ∃ l, Holds s' l ∧
    Filled pre post (transactionHandle s o) (fun given => o.filled + len = o.desc.length ∧
        given = rangesOf v (o.desc.take o.filled ++ bytesAt mbox.tx 0 len)) r l := by
  have hwf := h.wf_of_split
  have hfilled := hwf.filled
  have hlen : (bytesAt mbox.tx 0 len).length = len := length_bytesAt _ _ _
  rw [fillDesc_eq] at hres
  cases fillWith_taken h hmin hres with
  | refused hno hx hs' =>
    obtain ⟨rfl, rfl⟩ := Prod.mk.inj (Option.some.inj hx)
    exact ⟨_, hs', .dropped _⟩
  | accepted hok hx hs' hn =>
    obtain ⟨-, -, hroom, -⟩ := hok
    set o1 := o.receive (bytesAt mbox.tx 0 len) with ho1
    have hlen1 : o1.desc.length = o.desc.length := length_setDesc (by omega)
    have h32 : 32 ≤ o1.desc.length := by omega
    have hhandle : (o1.accept len s.nextHandle mtdFlag).handle = transactionHandle s o := by
      unfold transactionHandle
      split
      · rename_i hfirst
        exact handle_accept_first h32 hfirst h.next
      · rename_i hnot
        rw [handle_accept_later h32 hnot]
        exact rd_setDesc_outside (by omega) (.inl (by omega))
    have hheader : 32 ≤ (o1.accept len s.nextHandle mtdFlag).filled := hmin
    rw [← hhandle]
    refine finishDesc_filled hs' hstored hheader (by rw [inUse_accept]; exact huse)
      (by rw [hhandle]; exact honly) (fun hcomplete hchecked => ?_) hx.symm
    -- With the last fragment the descriptor is what was sent, apart from its header.
    have hall : o.filled + len = o.desc.length := complete_received hwf hmin hroom hcomplete
    have hdesc : o1.desc = o.desc.take o.filled ++ bytesAt mbox.tx 0 len := by
      rw [ho1]
      simp only [Obj.receive, setDesc, splice]
      rw [drop_eq_nil_of_le (by omega), append_nil]
    have hsame : ∀ i, 16 ≤ i → i < (o1.accept len s.nextHandle mtdFlag).desc.length →
        (o1.accept len s.nextHandle mtdFlag).mem (0 + i) = o1.mem (0 + i) := fun i hi _ => by
      rw [zero_add]
      exact mem_accept h32 hi
    obtain ⟨-, hcomp, hranges⟩ := hchecked.congr hsame
    rw [zero_add] at hranges
    refine ⟨hall, ?_⟩
    rw [← hranges, ← hcomp, rangesOf, ← hdesc]
    rfl

end Accept

end MtkBoot.Spmc
