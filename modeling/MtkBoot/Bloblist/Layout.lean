import MtkBoot.Bloblist.Model

/-! Records behind one another in memory, each padded to eight bytes, and the walk over them. -/

namespace MtkBoot.Bloblist

open Lib List

/-- A blob, or a record that fills a gap, whose tag is 0. -/
structure Blob where
  tag : Nat
  data : Bytes
  deriving DecidableEq, Repr

def Blob.extent (r : Blob) : Nat := recSizeof + alignUp r.data.length 8

def extent (rs : List Blob) : Nat := (rs.map Blob.extent).sum

@[simp] theorem extent_nil : extent [] = 0 := rfl

@[simp] theorem extent_cons (r : Blob) (rs : List Blob) :
    extent (r :: rs) = r.extent + extent rs := by
  simp [extent]

@[simp] theorem extent_append (rs rs' : List Blob) :
    extent (rs ++ rs') = extent rs + extent rs' := by
  simp [extent]

variable {mem mem' : Mem} {o o' tag : Nat} {r : Blob} {rs rs' pre post : List Blob}

theorem Blob.extent_eq (r : Blob) : r.extent = 8 + (r.data.length + 7) / 8 * 8 := rfl

theorem Blob.extent_mod (r : Blob) : r.extent % 8 = 0 := by
  rw [Blob.extent_eq]
  omega

theorem Blob.length_le (r : Blob) : r.data.length + 8 ≤ r.extent := by
  rw [Blob.extent_eq]
  omega

theorem extent_mod (rs : List Blob) : extent rs % 8 = 0 := by
  induction rs with
  | nil => rfl
  | cons r rs ih =>
    have := r.extent_mod
    rw [extent_cons]
    omega

/-! ## Memory -/

structure Has (mem : Mem) (o : Nat) (r : Blob) : Prop where
  head : getU32 mem o = r.tag + recSizeof * 2 ^ 24
  size : getU32 mem (o + 4) = r.data.length
  data : bytesAt mem (o + recSizeof) r.data.length = r.data

def Layout (mem : Mem) : Nat → List Blob → Prop
  | _, [] => True
  | o, r :: rs => Has mem o r ∧ Layout mem (o + r.extent) rs

theorem getU32_congr (h : ∀ i < 4, mem' (o' + i) = mem (o + i)) : getU32 mem' o' = getU32 mem o :=
  congrArg leNat (bytesAt_congr h)

theorem Has.moved (h : Has mem o r) (hsame : ∀ i < r.extent, mem' (o' + i) = mem (o + i)) :
    Has mem' o' r := by
  have hlen := r.length_le
  refine ⟨?_, ?_, ?_⟩
  · rw [← h.head]
    exact getU32_congr fun i hi => hsame i (by omega)
  · rw [← h.size]
    exact getU32_congr fun i hi => by rw [add_assoc, add_assoc, hsame (4 + i) (by omega)]
  · rw [← h.data, length_bytesAt]
    refine bytesAt_congr fun i hi => ?_
    rw [add_assoc, add_assoc, hsame (recSizeof + i) (by simp only [recSizeof]; omega)]

theorem Layout.moved (h : Layout mem o rs) (hsame : ∀ i < extent rs, mem' (o' + i) = mem (o + i)) :
    Layout mem' o' rs := by
  induction rs generalizing o o' with
  | nil => trivial
  | cons r rs ih =>
    rw [extent_cons] at hsame
    refine ⟨h.1.moved fun i hi => hsame i (by omega), ih h.2 fun i hi => ?_⟩
    rw [add_assoc, add_assoc, hsame (r.extent + i) (by omega)]

theorem Layout.congr (h : Layout mem o rs)
    (hsame : ∀ a, o ≤ a → a < o + extent rs → mem' a = mem a) : Layout mem' o rs :=
  h.moved fun i hi => hsame (o + i) (by omega) (by omega)

theorem Layout.append : Layout mem o (rs ++ rs') ↔ Layout mem o rs ∧
    Layout mem (o + extent rs) rs' := by
  induction rs generalizing o with
  | nil => simp [Layout]
  | cons r rs ih => rw [cons_append, Layout, Layout, ih, extent_cons, add_assoc, and_assoc]

theorem Layout.at (h : Layout mem o (pre ++ r :: post)) : Has mem (o + extent pre) r :=
  (Layout.append.mp h).2.1

/-! ## The walk -/

/-- The records of a list: its header aligns to eight bytes. -/
structure Holds (b : State) (rs : List Blob) : Prop where
  addr : b.addr % 8 = 0
  align : b.alignLog2 = 3
  used : b.used = hdrSize + extent rs
  layout : Layout b.mem hdrSize rs
  tags : ∀ r ∈ rs, r.tag < 2 ^ 24
  fits : b.used ≤ b.total
  small : b.total + 8 < 2 ^ 31

def blobAt (b : State) (rec : Nat) : Blob :=
  ⟨recTag b rec, bytesAt b.mem (rec + recHdrSize b rec) (recSize b rec)⟩

def offsets : Nat → List Blob → List Nat
  | _, [] => []
  | o, r :: rs => o :: offsets (o + r.extent) rs

section

variable {b : State}

theorem Has.fields (h : Has b.mem o r) (htag : r.tag < 2 ^ 24) :
    recTag b o = r.tag ∧ recHdrSize b o = recSizeof ∧ recSize b o = r.data.length := by
  have hhead := h.head
  simp only [recSizeof] at hhead
  refine ⟨?_, ?_, h.size⟩
  · rw [recTag]
    omega
  · rw [recHdrSize, recSizeof]
    omega

theorem Has.blobAt (h : Has b.mem o r) (htag : r.tag < 2 ^ 24) : blobAt b o = r := by
  obtain ⟨h1, h2, h3⟩ := h.fields htag
  rw [Bloblist.blobAt, h1, h2, h3, h.data]

theorem Holds.endOfs (h : Holds b (pre ++ r :: post)) :
    blobEndOfs b (hdrSize + extent pre) = hdrSize + extent pre + r.extent := by
  obtain ⟨-, h2, h3⟩ := h.layout.at.fields (h.tags r (by simp))
  have hused := h.used
  have hfits := h.fits
  have hsmall := h.small
  have hmod := extent_mod pre
  rw [extent_append, extent_cons, Blob.extent_eq] at hused
  rw [blobEndOfs, h2, h3, h.align, Blob.extent_eq]
  simp only [recSizeof, alignUp, hdrSize, u32, Nat.reduceMod, Nat.reducePow]
  omega

theorem Holds.next (h : Holds b (pre ++ r :: post)) : nextBlob b (hdrSize + extent pre) =
    if post = [] then none else some (hdrSize + extent (pre ++ [r])) := by
  have hused := h.used
  rw [nextBlob, h.endOfs]
  cases post with
  | nil =>
    rw [if_pos rfl, if_pos]
    simp at hused
    omega
  | cons r' post =>
    have := r'.length_le
    simp only [extent_append, extent_cons] at hused
    rw [if_neg (by omega), if_neg (by simp)]
    simp [add_assoc]

def cursor (pre rs : List Blob) : Option Nat :=
  if rs = [] then none else some (hdrSize + extent pre)

theorem Holds.next_cursor (h : Holds b (pre ++ r :: post)) :
    nextBlob b (hdrSize + extent pre) = cursor (pre ++ [r]) post := h.next

theorem Holds.first (h : Holds b rs) : firstBlob b = cursor [] rs := by
  have hused := h.used
  rw [firstBlob, cursor]
  cases rs with
  | nil => exact if_pos (le_of_eq hused)
  | cons r rs =>
    have := r.length_le
    rw [extent_cons] at hused
    rw [if_neg (by omega), if_neg (cons_ne_nil _ _)]
    rfl

theorem Holds.length_le (h : Holds b rs) : rs.length ≤ b.used := by
  have hlen : rs.length ≤ extent rs := by
    clear h
    induction rs with
    | nil => exact le_rfl
    | cons r rs ih =>
      have := r.length_le
      rw [length_cons, extent_cons]
      omega
  have := h.used
  omega

theorem Holds.walk_cursor {fuel : Nat}
    (pre : List Blob) (h : Holds b (pre ++ rs)) (hfuel : rs.length ≤ fuel) :
    walk b fuel (cursor pre rs) = some (offsets (hdrSize + extent pre) rs) := by
  induction rs generalizing pre fuel with
  | nil => cases fuel <;> rfl
  | cons r rs ih =>
    obtain ⟨fuel, rfl⟩ : ∃ k, fuel = k + 1 := ⟨fuel - 1, by rw [length_cons] at hfuel; omega⟩
    have hrest : Holds b ((pre ++ [r]) ++ rs) := by rwa [append_assoc]
    rw [cursor, if_neg (cons_ne_nil _ _), walk, h.next_cursor, ih _ hrest (by simpa using hfuel)]
    simp [offsets, add_assoc]

theorem Holds.records (h : Holds b rs) : records b = some (offsets hdrSize rs) := by
  have hlen := h.length_le
  rw [Bloblist.records, h.first]
  exact Holds.walk_cursor [] h (by omega)

theorem Holds.map_blobAt (pre : List Blob) (h : Holds b (pre ++ rs)) :
    (offsets (hdrSize + extent pre) rs).map (blobAt b) = rs := by
  induction rs generalizing pre with
  | nil => rfl
  | cons r rs ih =>
    have hrest : Holds b ((pre ++ [r]) ++ rs) := by rwa [append_assoc]
    have := ih _ hrest
    rw [extent_append, extent_cons, extent_nil, add_zero, ← add_assoc] at this
    rw [offsets, map_cons, this, h.layout.at.blobAt (h.tags r (by simp))]

theorem Holds.find_cursor (pre rs : List Blob)
    {fuel : Nat} (h : Holds b (pre ++ (rs ++ rs'))) (hfuel : rs.length ≤ fuel)
    (hne : ∀ r ∈ rs, r.tag ≠ tag) : findFrom b tag fuel (cursor pre (rs ++ rs')) =
    findFrom b tag (fuel - rs.length) (cursor (pre ++ rs) rs') := by
  induction rs generalizing pre fuel with
  | nil => simp
  | cons r rs ih =>
    obtain ⟨fuel, rfl⟩ : ∃ k, fuel = k + 1 := ⟨fuel - 1, by rw [length_cons] at hfuel; omega⟩
    have hrest : Holds b ((pre ++ [r]) ++ (rs ++ rs')) := by simpa using h
    have htag := (h.layout.at.fields (h.tags r (by simp))).1
    have hnext : nextBlob b (hdrSize + extent pre) = cursor (pre ++ [r]) (rs ++ rs') :=
      h.next_cursor
    rw [cons_append, cursor, if_neg (cons_ne_nil _ _), findFrom, htag, if_neg (hne r mem_cons_self),
      hnext, ih _ hrest (by simpa using hfuel) fun x hx => hne x (mem_cons_of_mem r hx)]
    simp

theorem Holds.findrec_none (h : Holds b rs) (hne : ∀ r ∈ rs, r.tag ≠ tag) :
    findrec b tag = some none := by
  have hlen := h.length_le
  have happ : Holds b ([] ++ (rs ++ [])) := by simpa using h
  rw [findrec, h.first, ← append_nil rs, Holds.find_cursor [] rs happ (by omega) hne]
  cases b.used + 1 - rs.length <;> rfl

theorem Holds.findrec_some (h : Holds b (pre ++ r :: post)) (hne : ∀ x ∈ pre, x.tag ≠ tag)
    (hr : r.tag = tag) : findrec b tag = some (some (hdrSize + extent pre)) := by
  have hlen := h.length_le
  rw [length_append, length_cons] at hlen
  have htag := (h.layout.at.fields (h.tags r (by simp))).1
  obtain ⟨k, hk⟩ : ∃ k, b.used + 1 - pre.length = k + 1 := ⟨b.used - pre.length, by omega⟩
  rw [findrec, h.first, Holds.find_cursor [] pre h (by omega) hne, hk, nil_append, cursor,
    if_neg (cons_ne_nil _ _), findFrom, if_pos (htag.trans hr)]

end

end MtkBoot.Bloblist
