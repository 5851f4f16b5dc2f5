import Mathlib.Data.Finset.Lattice.Fold
import Mathlib.Order.Lattice.Nat
import MtkBoot.Ubi.Model

/-! What the erase blocks of a device hold, told from the flash alone: the headers that count, the
number of LEBs of a volume and the content of each LEB. -/

namespace MtkBoot.Ubi

open List Option

variable {c : Bytes} {h : VidHdr} {l pnum v : Nat}

namespace Dev

variable (d : Dev)

/-- The VID header of a block that is not bad, can be read and passes its CRC. -/
def vid (pnum : Nat) : Option VidHdr :=
  let r := d.readVid (pnum + d.pebOffset)
  if d.isBadPeb (pnum + d.pebOffset) = false ∧ r.1 = .ok ∧ r.2.magic = vidHdrMagic ∧
      d.vidCrc r.2 = r.2.hdrCrc then some r.2
  else none

def endMark (pnum : Nat) : Bool :=
  let r := d.readVid (pnum + d.pebOffset)
  decide (d.isBadPeb (pnum + d.pebOffset) = false ∧ r.1 = .ok ∧ r.2.magic = 0xffffffff ∧
    ubiCheckEcHdr d pnum = .eof)

/-- The number of blocks before the first end mark. -/
def area : Nat := ((List.range d.pebCount).find? d.endMark).getD d.pebCount

def sqnum (pnum : Nat) : Nat := ((d.vid pnum).map VidHdr.sqnum).getD 0

/-- The header of the block names LEB `l` of volume `v` as a static volume. -/
def isStatic (v l pnum : Nat) : Bool :=
  (d.vid pnum).any fun h => h.volId = v && h.lnum = l && h.volType = vidStatic

/-- The LEB number a block gives to volume `v`; zero if it has no say. -/
def lebNum (v pnum : Nat) : Nat :=
  match d.vid pnum with
  | some h => if h.volId = v ∧ h.volType = vidStatic ∧ h.lnum < maxVolLebs then h.lnum else 0
  | none => 0

def lebCount (v : Nat) : Nat := (Finset.range d.area).sup (d.lebNum v) + 1

/-- The data of a block, if it can be read and passes the CRC of the header. -/
def data (pnum : Nat) (h : VidHdr) : Option Bytes :=
  let r := d.readData (pnum + d.pebOffset) h.dataSize
  if r.1 ≠ .failed ∧ d.dataCrc r.2 = h.dataCrc then some r.2 else none

/-- The block is a copy of LEB `l` of the static volume `v`, by its header. -/
def Copy (v l pnum : Nat) (h : VidHdr) : Prop :=
  pnum < d.pebCount ∧ d.vid pnum = some h ∧ h.volId = v ∧ h.lnum = l ∧ h.volType = vidStatic ∧
    h.usedEbs = d.lebCount v

def Good (v l pnum : Nat) (c : Bytes) : Prop := ∃ h, d.Copy v l pnum h ∧ d.data pnum h = some c

/-- The content of LEB `l` of volume `v`: the data of the good copy with the highest sequence
number. -/
def IsLeb (v l : Nat) (c : Bytes) : Prop :=
  ∃ pnum, d.Good v l pnum c ∧ ∀ q c', d.Good v l q c' → d.sqnum q ≤ d.sqnum pnum

/-- Blocks with a valid header have different sequence numbers. -/
def Distinct : Prop := ∀ p q, p < d.pebCount → q < d.pebCount → d.vid p ≠ none → d.vid q ≠ none →
    d.sqnum p = d.sqnum q → p = q

variable {d}

theorem length_data (hc : d.data pnum h = some c) : c.length = h.dataSize := by
  rcases ite_eq_iff.mp hc with ⟨⟨hok, -⟩, hc⟩ | ⟨-, hc⟩
  · rw [← some.inj hc]
    exact d.length_readData _ _ hok
  · cases hc

theorem vid_dataSize_le (hv : d.vid pnum = some h) : h.dataSize ≤ d.lebSize := by
  rcases ite_eq_iff.mp hv with ⟨⟨-, -, -, hcrc⟩, hv⟩ | ⟨-, hv⟩
  · rw [← some.inj hv]
    exact d.dataSize_le _ hcrc
  · cases hv

theorem isStatic_iff : d.isStatic v l pnum ↔
      ∃ h, d.vid pnum = some h ∧ h.volId = v ∧ h.lnum = l ∧ h.volType = vidStatic := by
  simp [isStatic, Option.any_eq_true, and_assoc]

theorem area_le : d.area ≤ d.pebCount := by
  unfold area
  cases h : (range d.pebCount).find? d.endMark with
  | none => simp
  | some p => simpa using (mem_range.mp (mem_of_find?_eq_some h)).le

theorem area_eq_of_endMark {k : Nat} (hk : k < d.pebCount) (hend : d.endMark k)
    (hno : ∀ p < k, d.endMark p = false) : d.area = k := by
  have hfind : (range d.pebCount).find? d.endMark = some k := by
    rw [find?_range_eq_some]
    exact ⟨hend, mem_range.mpr hk, fun p hp => by simp [hno p hp]⟩
  simp [area, hfind]

theorem area_eq_pebCount (hno : ∀ p < d.pebCount, d.endMark p = false) : d.area = d.pebCount := by
  have hfind : (range d.pebCount).find? d.endMark = none := by simpa [find?_eq_none] using hno
  simp [area, hfind]

theorem lebCount_le (v : Nat) : d.lebCount v ≤ maxVolLebs := by
  have hsup : (Finset.range d.area).sup (d.lebNum v) ≤ maxVolLebs - 1 := by
    apply Finset.sup_le
    intro p _
    unfold lebNum
    cases d.vid p with
    | none => exact Nat.zero_le _
    | some h =>
      dsimp only
      split
      · omega
      · exact Nat.zero_le _
  have : 0 < maxVolLebs := by decide
  unfold lebCount
  omega

theorem vid_eq_none_of_endMark (h : d.endMark pnum) : d.vid pnum = none := by
  simp only [endMark, decide_eq_true_eq] at h
  simp [vid, h.2.2.1, vidHdrMagic]

end Dev

end MtkBoot.Ubi
