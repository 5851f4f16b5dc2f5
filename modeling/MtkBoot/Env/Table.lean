import MtkBoot.Base

/-! The hash table of the environment: open addressing with double hashing.  A string is the list of
its bytes without the terminating zero; allocation succeeds. -/

namespace MtkBoot.Env

abbrev Str := List UInt8

/-- `struct env_entry`, without the flags and the callback that other code attaches to it. -/
structure Entry where
  key : Str
  data : Str
  deriving DecidableEq, Repr

/-- `struct env_entry_node`.  `used` is zero for a free slot, -1 for a deleted one, and otherwise
the first hash value, which is neither. -/
inductive Slot where
  | free
  | deleted
  | live (used : Nat) (entry : Entry)
  deriving DecidableEq, Repr

/-- `struct hsearch_data`; the slots 1 to `size` are used. -/
structure Htab where
  size : Nat
  filled : Nat
  table : Nat → Slot

inductive Errno where
  | eperm
  | enomem
  | einval
  | esrch
  deriving DecidableEq, Repr

def isprimeLoop (number : Nat) : Nat → Nat → Nat
  | 0, div => div
  | fuel + 1, div =>
    if u32 (div * div) < number ∧ number % div ≠ 0 then isprimeLoop number fuel (u32 (div + 2))
    else div

def isprime (number : Nat) : Bool := number % isprimeLoop number number 3 != 0

/-- The loop of `hcreate_r`, which looks at the low 32 bits of the size. -/
def primeFrom : Nat → Nat → Option Nat
  | 0, _ => none
  | fuel + 1, nel => if isprime (u32 nel) then some nel else primeFrom fuel (u64 (nel + 2))

/-- `hcreate_r`.  The size never takes more than every second 32-bit value. -/
def hcreateR (nel : Nat) : Option Htab := (primeFrom (2 ^ 31 + 1) (nel ||| 1)).map fun nel =>
    { size := u32 nel, filled := 0, table := fun _ => .free }

def hashKey (key : Str) : Nat :=
  key.foldr (fun c hval => u32 (hval * 16 + c.toNat)) (u32 key.length)

def firstHash (size : Nat) (key : Str) : Nat :=
  let hval := hashKey key % size
  if hval = 0 then 1 else hval

def secondHash (size hval : Nat) : Nat := 1 + hval % subU32 size 2

def nextIdx (size hval2 idx : Nat) : Nat :=
  if idx ≤ hval2 then subU32 (size + idx) hval2 else idx - hval2

def Slot.holds (slot : Slot) (hval : Nat) (key : Str) : Bool :=
  match slot with
  | .live used entry => used == hval && key == entry.key
  | _ => false

/-- Where a search ends: at the key, or at a slot `idx` and with the first deleted slot that was
passed (zero if there was none). -/
inductive Found where
  | at (idx : Nat)
  | absent (idx firstDeleted : Nat)
  deriving DecidableEq, Repr

def searchLoop (t : Htab) (key : Str) (hval hval2 : Nat) : Nat → Nat → Nat → Found
  | 0, idx, firstDeleted => .absent idx firstDeleted
  | fuel + 1, idx, firstDeleted =>
    let idx := nextIdx t.size hval2 idx
    if idx = hval then .absent idx firstDeleted
    else
      let firstDeleted := if t.table idx = .deleted ∧ firstDeleted = 0 then idx else firstDeleted
      if (t.table idx).holds hval key then .at idx
      else if t.table idx = .free then .absent idx firstDeleted
      else searchLoop t key hval hval2 fuel idx firstDeleted

def search (t : Htab) (key : Str) : Found :=
  let hval := firstHash t.size key
  if t.table hval = .free then .absent hval 0
  else
    let firstDeleted := if t.table hval = .deleted then hval else 0
    if (t.table hval).holds hval key then .at hval
    else searchLoop t key hval (secondHash t.size hval) t.size hval firstDeleted

/-- What the table's `change_ok` and the entry's callback say to a change: `true` rejects it. -/
structure Verdict where
  changeOk : Bool
  callback : Bool
  deriving DecidableEq, Repr

def Verdict.error (v : Verdict) : Option Errno :=
  if v.changeOk then some .eperm else if v.callback then some .einval else none

def Htab.set (t : Htab) (idx : Nat) (slot : Slot) : Htab :=
  { t with table := fun i => if i = idx then slot else t.table i }

def Htab.delete (t : Htab) (idx : Nat) : Htab :=
  { t.set idx .deleted with filled := t.filled - 1 }

/-- What is asked of `hsearch_r`; an entry is entered with its data. -/
inductive Action where
  | find
  | enter (data : Str)
  deriving DecidableEq, Repr

/-- `hsearch_r`: the slot and the entry, or the error.  A new entry is put into the table first, and
deleted again if it is rejected; its slot is reported as 1. -/
def hsearchR (key : Str) (action : Action) (v : Verdict) (t : Htab) :
    Except Errno (Nat × Entry) × Htab :=
  let hval := firstHash t.size key
  match search t key, action with
  | .at idx, .find =>
    match t.table idx with
    | .live _ entry => (.ok (idx, entry), t)
    | _ => (.error .esrch, t)
  | .at idx, .enter data =>
    match v.error with
    | some e => (.error e, t)
    | none => (.ok (idx, ⟨key, data⟩), t.set idx (.live hval ⟨key, data⟩))
  | .absent _ _, .find => (.error .esrch, t)
  | .absent idx firstDeleted, .enter data =>
    if t.filled = t.size then (.error .enomem, t)
    else
      let idx := if firstDeleted ≠ 0 then firstDeleted else idx
      let t := { t.set idx (.live hval ⟨key, data⟩) with filled := t.filled + 1 }
      match v.error with
      | some e => (.error e, t.delete idx)
      | none => (.ok (1, ⟨key, data⟩), t)

/-- `hdelete_r`; a key that is not there is reported with `ENOENT`, which stands for `ESRCH`. -/
def hdeleteR (key : Str) (v : Verdict) (t : Htab) : Except Errno Unit × Htab :=
  match hsearchR key .find ⟨false, false⟩ t with
  | (.error _, t) => (.error .esrch, t)
  | (.ok (idx, _), t) =>
    match v.error with
    | some e => (.error e, t)
    | none => (.ok (), t.delete idx)

end MtkBoot.Env
