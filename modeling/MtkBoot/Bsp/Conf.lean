import MtkBoot.Base
import MtkBoot.Lib.Bytes

/-! The BSP configuration: its checks, the choice between the stored copies, and saving.  The record
is kept as its bytes, since an older copy may end anywhere after its length. -/

namespace MtkBoot.Bsp

open MtkBoot.Lib

def confSize : Nat := 88

/-- `struct mtk_bsp_conf_data`: `crc`, `len`, `ver` and `upd_cnt`, then the FIP and image slots. -/
structure Conf where
  bytes : Bytes
  length_eq : bytes.length = confSize

namespace Conf

@[ext] theorem ext {c d : Conf} (h : c.bytes = d.bytes) : c = d := by
  cases c
  cases d
  cases h
  rfl

instance : DecidableEq Conf := fun c d => decidable_of_iff (c.bytes = d.bytes) ⟨ext, congrArg _⟩

def crc (c : Conf) : Nat := le32 c.bytes 0

def len (c : Conf) : Nat := le32 c.bytes 4

def ver (c : Conf) : Nat := le32 c.bytes 8

def updCnt (c : Conf) : Nat := le32 c.bytes 12

def zero : Conf := ⟨List.replicate confSize 0, by decide⟩

def setWord (c : Conf) (off v : Nat) (h : off + 4 ≤ confSize) : Conf :=
  ⟨splice c.bytes off (leBytes 4 v), by
    rw [length_splice (by rw [c.length_eq, length_leBytes]; exact h), c.length_eq]⟩

def crcOver (c : Conf) (n : Nat) : Nat := crc32Comp 0 (field c.bytes 4 n)

def clearFrom (c : Conf) (n : Nat) : Conf := ⟨c.bytes.take n ++ List.replicate (confSize - n) 0, by
    have := c.length_eq
    simp only [List.length_append, List.length_take, List.length_replicate]
    omega⟩

end Conf

def confVer : Nat := 1

def updateBspConf (c : Conf) : Conf :=
  let c := c.setWord 8 confVer (by decide)
  let c := c.setWord 4 confSize (by decide)
  c.setWord 0 (c.crcOver (c.len - 4)) (by decide)

def checkBspConf (c : Conf) : Int :=
  if c.len < 8 then -ebadmsg
  else if confSize < c.len then -ebadmsg
  else if c.crcOver (c.len - 4) ≠ c.crc then -ebadmsg
  else if confVer < c.ver then -ebadmsg
  else if c.ver = confVer ∧ c.len < confSize then -ebadmsg
  else 0

def uint32Max : Nat := 2 ^ 32 - 1

def usable (c : Option Conf) : Option Conf := c.filter (checkBspConf · = 0)

/-- The copy that `import_bsp_conf` settles on, with its number. -/
def selectCopy (bspconf1 bspconf2 : Option Conf) : Option (Nat × Conf) :=
  match usable bspconf1, usable bspconf2 with
  | none, none => none
  | some c1, none => some (1, c1)
  | none, some c2 => some (2, c2)
  | some c1, some c2 =>
    if c1.updCnt = uint32Max ∧ c2.updCnt = 0 then some (2, c2)
    else if c2.updCnt = uint32Max ∧ c1.updCnt = 0 then some (1, c1)
    else if c2.updCnt < c1.updCnt then some (1, c1)
    else if c1.updCnt < c2.updCnt then some (2, c2)
    else some (1, c1)

structure Ram where
  curr : Conf
  orig : Conf
  index : Nat
  persistAvailable : Bool

def Ram.zero : Ram := ⟨.zero, .zero, 0, false⟩

def importBspConf (bspconf1 bspconf2 : Option Conf) (r : Ram) : Ram :=
  match selectCopy bspconf1 bspconf2 with
  | none => { r with persistAvailable := false }
  | some (index, c) =>
    let curr := if c.len < confSize then c.clearFrom c.len else c
    { curr, orig := curr, index, persistAvailable := true }

/-- What `board_save_bsp_conf` does: the copy is stored, it is left as it was, or a loss of power
leaves `junk` and nothing is returned. -/
inductive Write where
  | saved
  | failed (ret : Int)
  | cut (junk : Conf) (ret : Int)

def Write.run : Write → Conf → Conf → Int × Conf
  | .saved, conf, _ => (0, conf)
  | .failed ret, _, old => (ret, old)
  | .cut junk ret, _, _ => (ret, junk)

def Write.Honest : Write → Prop
  | .saved => True
  | .failed ret => ret ≠ 0
  | .cut junk ret => ret ≠ 0 ∧ checkBspConf junk ≠ 0

/-- The two stored copies and the variables; `last` remembers the last successful save. -/
structure State where
  copy1 : Conf
  copy2 : Conf
  ram : Ram
  last : Option (Nat × Conf)

namespace State

def copy (s : State) (index : Nat) : Conf := if index = 1 then s.copy1 else s.copy2

def setCopy (s : State) (index : Nat) (c : Conf) : State :=
  if index = 1 then { s with copy1 := c } else { s with copy2 := c }

def boot (s : State) : State :=
  { s with ram := importBspConf (some s.copy1) (some s.copy2) .zero }

def edit (s : State) (c : Conf) : State := { s with ram.curr := c }

def nextIndex (s : State) : Nat := if s.ram.index = 1 then 2 else 1

def nextConf (s : State) : Conf :=
  let c := updateBspConf s.ram.curr
  updateBspConf (c.setWord 12 (u32 (c.updCnt + 1)) (by decide))

def saveBspConf (s : State) (forced : Bool) (w : Write) : Int × State :=
  if s.ram.index ≠ 0 ∧ forced = false ∧ updateBspConf s.ram.curr = s.ram.orig then
    (0, { s with ram.curr := updateBspConf s.ram.curr })
  else
    let conf := s.nextConf
    let (ret, target) := w.run conf (s.copy s.nextIndex)
    let t := s.setCopy s.nextIndex target
    if ret ≠ 0 then (ret, { t with ram.curr := conf })
    else
      (0, { t with
        ram := { t.ram with curr := conf, orig := conf, index := s.nextIndex }
        last := some (s.nextIndex, conf) })

end State

end MtkBoot.Bsp
