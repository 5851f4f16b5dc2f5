import Mathlib.Data.List.Lex
import Mathlib.Data.List.Sort
import MtkBoot.Env.Table

/-! The environment as text: exporting all entries of a table, and importing a text into a new one.
The byte after the end of a text is zero. -/

namespace MtkBoot.Env

def equalSign : UInt8 := 0x3d

def backslash : UInt8 := 0x5c

def strLe (a b : Str) : Bool := decide (a.map UInt8.toNat ≤ b.map UInt8.toNat)

/-- The entries of a table in the order of the slots.  `used` is a signed number there. -/
def Htab.entries (t : Htab) : List Entry := (List.range' 1 t.size).filterMap fun i =>
    match t.table i with
    | .live used entry => if 0 < used ∧ used < 2 ^ 31 then some entry else none
    | _ => none

/-- The entries that `hexport_r` writes, in its order. -/
def exportList (t : Htab) (hideDot : Bool) : List Entry :=
  (t.entries.filter fun e => !(hideDot && e.key.head? == some 0x2e)).insertionSort fun e e' =>
    strLe e.key e'.key

def escape (sep : UInt8) (data : Str) : Str :=
  data.flatMap fun c => if c = sep ∨ c = backslash then [backslash, c] else [c]

def exportEntry (sep : UInt8) (e : Entry) : Str :=
  e.key ++ equalSign :: (escape sep e.data ++ [sep])

/-- The length that the first pass computes; for separator zero it leaves out the escapes. -/
def exportLen (sep : UInt8) (list : List Entry) : Nat := (list.map fun e =>
    e.key.length + (if sep = 0 then e.data.length else (escape sep e.data).length) + 2).sum

/-- `hexport_r` without patterns: the size of the buffer, and the bytes written from its start on,
which may be more. -/
def hexportR (t : Htab) (sep : UInt8) (hideDot : Bool) (size : Nat) : Except Errno (Nat × Bytes) :=
  let list := exportList t hideDot
  let totlen := exportLen sep list
  if size ≠ 0 ∧ size < totlen + 1 then .error .enomem
  else
    let size := if size ≠ 0 then size else totlen + 1
    let text := list.flatMap (exportEntry sep)
    .ok (size, text ++ 0 :: List.replicate (size - (text.length + 1)) 0)

def isblank (c : UInt8) : Bool := c == 0x20 || c == 0x09

def parseValue (sep : UInt8) : Bytes → Str × Bytes
  | [] => ([], [])
  | [c] => if c = 0 ∨ c = sep then ([], []) else ([c], [])
  | c :: d :: rest =>
    if c = 0 ∨ c = sep then ([], d :: rest)
    else if c = backslash ∧ d ≠ 0 then
      match parseValue sep rest with
      | (value, rest) => (d :: value, rest)
    else
      match parseValue sep (d :: rest) with
      | (value, rest) => (c :: value, rest)

inductive Item where
  | comment
  | delete (name : Str)
  | enter (name value : Str)
  deriving DecidableEq, Repr

def Item.nameless : Item → Bool
  | .enter [] _ => true
  | _ => false

def inName (sep c : UInt8) : Bool := decide (c ≠ equalSign ∧ c ≠ 0 ∧ c ≠ sep)

def parseItem (sep : UInt8) (text : Bytes) : Item × Bytes :=
  let text := text.dropWhile isblank
  if text.headD 0 = 0x23 then
    (.comment, (text.dropWhile fun c => c ≠ 0 ∧ c ≠ sep).drop 1)
  else
    let name := text.takeWhile (inName sep)
    let rest := text.dropWhile (inName sep)
    let c := rest.headD 0
    let d := (rest.drop 1).headD 0
    if c = 0 ∨ d = 0 ∨ c = sep ∨ d = sep then
      (.delete name, if c = equalSign then rest.drop 2 else rest.drop 1)
    else
      match parseValue sep (rest.drop 1) with
      | (value, rest) => (.enter name value, rest)

/-- The loop of `himport_r` over a text; `accept` is what is said to the changes.  A name that is
empty ends it. -/
def importLoop (sep : UInt8) (accept : Item → Verdict) :
    Nat → Bytes → Htab → Except Errno Unit × Htab
  | 0, _, t => (.ok (), t)
  | fuel + 1, text, t =>
    let item := (parseItem sep text).1
    let rest := (parseItem sep text).2
    if item.nameless then (.error .einval, t)
    else
      let t :=
        match item with
        | .comment => t
        | .delete name => (hdeleteR name (accept item) t).2
        | .enter name value => (hsearchR name (.enter value) (accept item) t).2
      if rest.headD 0 = 0 then (.ok (), t) else importLoop sep accept fuel rest t

/-- `CONFIG_ENV_MIN_ENTRIES` and `CONFIG_ENV_MAX_ENTRIES`. -/
structure Limits where
  minEntries : Nat
  maxEntries : Nat

def Limits.entries (c : Limits) (size : Nat) : Nat := min (c.minEntries + size / 8) c.maxEntries

/-- `himport_r` without `vars`, `H_NOCLEAR` and `crlf_is_lf`, on any old table. -/
def himportR (c : Limits) (env : Bytes) (sep : UInt8) (accept : Item → Verdict) :
    Option (Except Errno Unit × Htab) :=
  match hcreateR (c.entries env.length) with
  | none => none
  | some t => some (if env = [] then (.ok (), t) else importLoop sep accept (env.length + 1) env t)

end MtkBoot.Env
