import MtkBoot.Spmc.Convert

/-! The memory management calls that go through the object store.  The store lock makes each of them
one step.  What a call finds outside the store is part of the call. -/

namespace MtkBoot.Spmc

open Lib

/-- `FFA_ERROR_INVALID_PARAMETER`, `FFA_ERROR_NO_MEMORY` and `FFA_ERROR_DENIED`. -/
def invalidParameter : Int := -2
def noMemory : Int := -3
def deniedError : Int := -6

inductive Result
  | error (code : Int)
  /-- `FFA_MEM_FRAG_RX`. -/
  | fragRx (handle filled : Nat)
  /-- `FFA_SUCCESS` with the handle of the transaction. -/
  | sent (handle : Nat)
  /-- `FFA_MEM_RETRIEVE_RESP`. -/
  | retrieveResp
  /-- `FFA_SUCCESS`. -/
  | success
  deriving DecidableEq, Repr

structure Mailbox where
  pageCount : Nat
  tx : Mem
  full : Bool

/-- `spmc_shmem_check_state_obj`.  What it takes for the test of a partially received object is a
test of the new one. -/
def checkStateObj (s : Store) (p v : Nat) : Bool :=
  match getCompMrd s.data (p + 32) v with
  | none => false
  | some requested => s.objects.all fun q =>
    if handle s.data (p + 32) ≠ handle s.data (q + 32) ∧
      descSize s.data p = descFilled s.data p then
      match getCompMrd s.data (q + 32) versionCompiled with
      | none => false
      | some other => !overlappingMemoryRegions s.data requested other
    else true

/-- The end of `spmc_ffa_fill_desc`, from `plat_spmc_shmem_begin` on. -/
def beginShare (s : Store) (p h : Nat) (hook : Int) : Store × Result :=
  if hook ≠ 0 then (s.free p, .error hook) else (s, .sent h)

/-- The part of `spmc_ffa_fill_desc` that replaces a v1.0 descriptor. -/
def convertStored (s : Store) (p : Nat) (hook : Int) : Store × Result :=
  let size := v11DescriptorSize s.data (p + 32)
  if 0xffffffff < size then (s.free p, .error noMemory)
  else
    match s.alloc size with
    | none => (s.free p, .error noMemory)
    | some (s, q) =>
      let s := (s.put q 8 size).put (q + 8) 8 size
      let converted := convertFromV10 s.data q p
      let s := { s with data := converted.1 }
      if converted.2 = false then ((s.free q).free p, .error 0)
      else
        let h := handle s.data (p + 32)
        let s := s.free p
        match s.lookup h with
        | none => (s, .error invalidParameter)
        | some p => beginShare s p h hook

/-- The part of `spmc_ffa_fill_desc` behind the copy of the fragment; `none` is a panic. -/
def finishDesc (known : Nat → Bool) (s : Store) (p v : Nat) (hook : Int) :
    Option (Store × Result) :=
  let h := handle s.data (p + 32)
  if descFilled s.data p ≠ descSize s.data p then some (s, .fragRx h (descFilled s.data p))
  else
    match checkObj s.data (p + 32) (descFilled s.data p) (descSize s.data p) v known with
    | none => none
    | some false => some (s.free p, .error invalidParameter)
    | some true =>
      if checkStateObj s p v = false then some (s.free p, .error invalidParameter)
      else if v = v10 then some (convertStored s p hook)
      else some (beginShare s p h hook)

def assignHandle (s : Store) (p mtdFlag : Nat) : Store :=
  let s := (s.put (p + 32 + 8) 8 s.nextHandle).setNext (u64 (s.nextHandle + 1))
  s.put (p + 32 + 4) 4 (flags s.data (p + 32) ||| mtdFlag)

def advance (s : Store) (p fragmentLength : Nat) : Store :=
  s.put (p + 8) 8 (descFilled s.data p + fragmentLength)

/-- The part of `spmc_ffa_fill_desc` from the check of the flags on. -/
def acceptFragment (known : Nat → Bool) (s : Store) (p fragmentLength mtdFlag v : Nat)
    (hook : Int) : Option (Store × Result) :=
  let d := p + 32
  if flags s.data d ≠ 0 ∧ mtdFlag ≠ 0 ∧ flags s.data d ≠ mtdFlag then
    some (s.free p, .error invalidParameter)
  else if descFilled s.data p = 0 then
    if validateMtdStart s.data d v fragmentLength (descSize s.data p) = false then
      some (s.free p, .error invalidParameter)
    else finishDesc known (advance (assignHandle s p mtdFlag) p fragmentLength) p v hook
  else finishDesc known (advance s p fragmentLength) p v hook

/-- The part of `spmc_ffa_fill_desc` from the check of the sender on.  The bit that marks memory of
the normal world must not be set yet, and then it is. -/
def checkFragment (known : Nat → Bool) (s : Store) (p fragmentLength mtdFlag v : Nat) (hook : Int) :
    Option (Store × Result) :=
  let d := p + 32
  if isSecureWorldId (senderId s.data d) then some (s.free p, .error deniedError)
  else if descFilled s.data p = 0 ∧ attributes s.data d / 2 ^ 6 % 2 = 1 then
    some (s.free p, .error invalidParameter)
  else
    acceptFragment known (s.put (d + 2) 2 (attributes s.data d ||| 2 ^ 6))
      p fragmentLength mtdFlag v hook

def fillDesc (known : Nat → Bool) (mbox : Mailbox) (s : Store) (p fragmentLength mtdFlag v : Nat)
    (hook : Int) : Option (Store × Result) :=
  if mbox.pageCount = 0 then some (s.free p, .error invalidParameter)
  else if mbox.pageCount * 4096 < fragmentLength then some (s.free p, .error invalidParameter)
  else if descSize s.data p - descFilled s.data p < fragmentLength then
    some (s.free p, .error invalidParameter)
  else
    checkFragment known (s.write (p + 32 + descFilled s.data p) (bytesAt mbox.tx 0 fragmentLength))
      p fragmentLength mtdFlag v hook

def minDescSize (v : Nat) : Option Nat :=
  if v = v10 then some 32 else if compatibleVersion v 1 1 then some 48 else none

def typeFlag (fnum : Nat) : Option Nat :=
  if fnum = 0x73 then some (2 ^ 3) else if fnum = 0x72 then some (2 ^ 4) else none

def memSend (known : Nat → Bool) (s : Store) (fnum : Nat) (secureOrigin : Bool)
    (v total fragmentLength address pageCount : Nat) (mbox : Mailbox) (hook : Int) :
    Option (Store × Result) :=
  if address ≠ 0 ∨ pageCount ≠ 0 then some (s, .error invalidParameter)
  else if secureOrigin then some (s, .error invalidParameter)
  else
    match minDescSize v, typeFlag fnum with
    | some size, some mtdFlag =>
      if fragmentLength < size then some (s, .error invalidParameter)
      else
        match s.alloc total with
        | none => some (s, .error noMemory)
        | some (s, p) => fillDesc known mbox s p fragmentLength mtdFlag v hook
    | _, _ => some (s, .error invalidParameter)

def memFragTx (known : Nat → Bool) (s : Store) (v h fragmentLength sender : Nat) (mbox : Mailbox)
    (hook : Int) : Option (Store × Result) :=
  match s.lookup h with
  | none => some (s, .error invalidParameter)
  | some p =>
    if sender ≠ senderId s.data (p + 32) * 2 ^ 16 then some (s, .error invalidParameter)
    else if descFilled s.data p = descSize s.data p then some (s, .error invalidParameter)
    else fillDesc known mbox s p fragmentLength 0 v hook

/-- `spmc_populate_ffa_v1_0_descriptor`, with the error it returns. -/
def populateV10Descriptor (s : Store) (p : Nat) : Store × Option Int :=
  let size := v10DescriptorSize s.data (p + 32) (descSize s.data p)
  if size = 0 then (s, some invalidParameter)
  else
    match s.alloc size with
    | none => (s, some noMemory)
    | some (s, q) =>
      let converted := convertMtdToV10 s.data q p
      let s := { s with data := converted.1 }
      (s.free q, if converted.2 then none else some invalidParameter)

/-- `spmc_populate_ffa_hyp_descriptor`; `none` is the access through a null pointer for a composite
descriptor that is not aligned. -/
def populateHypDescriptor (s : Store) (p bufSize v : Nat) : Option (Store × Option Int) :=
  let hypOffset := if v = v10 then 48 else 64
  if bufSize < hypOffset then some (s, some invalidParameter)
  else
    (getCompMrd s.data (p + 32) versionCompiled).map fun mrd =>
      (s.put (p + 24) 8 (subU64 (mrd - (p + 32)) hypOffset), none)

def endpointFound (m tx : Mem) (d e : Nat) : Bool :=
  (List.range (emadCount m d)).any fun j => endpointId tx e = endpointId m (getEmad m d j v11)

/-- The checks of `spmc_ffa_mem_retrieve_req` that compare the request in `tx` with the object. -/
def retrieveMatches (m tx : Mem) (p spId v total : Nat) : Bool :=
  let d := p + 32
  let count := emadCount tx 0
  descFilled m p = descSize m p &&
  (count = 0 || (senderId tx 0 = senderId m d && tag tx 0 = tag m d && count = emadCount m d)) &&
  attributes tx 0 / 2 ^ 6 % 2 = 0 &&
  (flags tx 0 = 0 || (flags tx 0 / 2 ^ 3 % 4 = flags m d / 2 ^ 3 % 4 &&
    (flags tx 0 = 2 ^ 3 || flags tx 0 = 2 ^ 4))) &&
  (count = 0 || validateId m d (descSize m p) spId) &&
  (List.range count).all (fun i => getEmad tx 0 i v < total) &&
  (List.range count).all fun i => endpointFound m tx d (getEmad tx 0 i v)

def memRetrieveReq (s : Store) (secureOrigin : Bool)
    (v total fragmentLength address pageCount : Nat) (mbox : Mailbox) (spId : Nat) :
    Option (Store × Result) :=
  let count := emadCount mbox.tx 0
  if address ≠ 0 ∨ pageCount ≠ 0 then some (s, .error invalidParameter)
  else if mbox.pageCount = 0 then some (s, .error invalidParameter)
  else if mbox.full then some (s, .error deniedError)
  else if fragmentLength ≠ total then some (s, .error invalidParameter)
  else if (secureOrigin ∧ count = 0) ∨ (¬secureOrigin ∧ count ≠ 0) then
    some (s, .error invalidParameter)
  else if total < (if v = v10 then 32 else 48) then some (s, .error invalidParameter)
  else
    match s.lookup (handle mbox.tx 0) with
    | none => some (s, .error invalidParameter)
    | some p =>
      if retrieveMatches s.data mbox.tx p spId v total = false then
        some (s, .error invalidParameter)
      else
        let s := if count ≠ 0 then s.put (p + 16) 8 (u64 (inUse s.data p + 1)) else s
        let populated :=
          if count = 0 then populateHypDescriptor s p (u32 (mbox.pageCount * 4096)) v
          else if v = v10 then some (populateV10Descriptor s p)
          else some (s, none)
        populated.map fun (s, err) => (s, err.elim .retrieveResp .error)

/-- `spmc_ffa_mem_relinquish`; the request has its handle, flags, endpoint count and first endpoint
at 0, 8, 12 and 16. -/
def memRelinquish (s : Store) (secureOrigin : Bool) (mbox : Mailbox) (spId : Nat) :
    Store × Result :=
  if secureOrigin = false then (s, .error invalidParameter)
  else if mbox.pageCount = 0 then (s, .error invalidParameter)
  else if rd mbox.tx 8 4 ≠ 0 then (s, .error invalidParameter)
  else if rd mbox.tx 12 4 = 0 then (s, .error invalidParameter)
  else
    match s.lookup (rd mbox.tx 0 8) with
    | none => (s, .error invalidParameter)
    | some p =>
      if rd mbox.tx 12 4 ≠ 1 then (s, .error invalidParameter)
      else if rd mbox.tx 16 2 ≠ spId then (s, .error invalidParameter)
      else if validateId s.data (p + 32) (descSize s.data p) spId = false then
        (s, .error invalidParameter)
      else if inUse s.data p = 0 then (s, .error invalidParameter)
      else (s.put (p + 16) 8 (inUse s.data p - 1), .success)

def memReclaim (s : Store) (secureOrigin : Bool) (h memFlags : Nat) (hook : Int) : Store × Result :=
  if secureOrigin then (s, .error invalidParameter)
  else if memFlags ≠ 0 then (s, .error invalidParameter)
  else
    match s.lookup h with
    | none => (s, .error invalidParameter)
    | some p =>
      if inUse s.data p ≠ 0 then (s, .error deniedError)
      else if descFilled s.data p ≠ descSize s.data p then (s, .error invalidParameter)
      else if hook ≠ 0 then (s, .error hook)
      else (s.free p, .success)

inductive Call
  | send (fnum : Nat) (secureOrigin : Bool) (v total fragmentLength address pageCount : Nat)
      (mbox : Mailbox) (hook : Int)
  | fragTx (v h fragmentLength sender : Nat) (mbox : Mailbox) (hook : Int)
  | retrieve (secureOrigin : Bool) (v total fragmentLength address pageCount : Nat) (mbox : Mailbox)
      (spId : Nat)
  | relinquish (secureOrigin : Bool) (mbox : Mailbox) (spId : Nat)
  | reclaim (secureOrigin : Bool) (h memFlags : Nat) (hook : Int)

/-- The effect of a call; `none` if the firmware does not come back from it. -/
def call (known : Nat → Bool) (s : Store) : Call → Option (Store × Result)
  | .send fnum secure v total len address pages mbox hook =>
    memSend known s fnum secure v total len address pages mbox hook
  | .fragTx v h len sender mbox hook => memFragTx known s v h len sender mbox hook
  | .retrieve secure v total len address pages mbox spId =>
    memRetrieveReq s secure v total len address pages mbox spId
  | .relinquish secure mbox spId => some (memRelinquish s secure mbox spId)
  | .reclaim secure h memFlags hook => some (memReclaim s secure h memFlags hook)

def Store.Init (s : Store) : Prop :=
  s.allocated = 0 ∧ s.dataSize < 2 ^ 64 ∧ s.nextHandle = 0xffffffc0

end MtkBoot.Spmc
