import MtkBoot.Bloblist.Layout

/-! The calls refine operations on a list of blobs, for those sizes and alignments for which the
three computations of a record's end agree. -/

namespace MtkBoot.Bloblist

open Lib List Layout Nat Option

variable {a o total v : Nat} {cs : List Call} {data : Bytes} {f : Bytes → Bytes} {l' : List Blob}
  {mem : Mem}

variable {b b' : State} {rs pre post : List Blob} {r : Blob} {tag size alignLog2 rec : Nat}
variable {l : List Blob}

/-! ## Adding -/

/-- Rounding the size up to the blob's alignment gives no more than rounding it up to eight. -/
def Snug (size alignLog2 : Nat) : Prop :=
  alignUp size (2 ^ if alignLog2 = 0 then 3 else alignLog2) = alignUp size 8

theorem getU32_putBytes (mem : Mem) (o : Nat) (hv : v < 2 ^ 32) :
    getU32 (putBytes mem o (leBytes 4 v)) o = v := by
  have := bytesAt_putBytes mem o (leBytes 4 v)
  rw [length_leBytes] at this
  rw [getU32, this, leNat_leBytes]
  exact mod_eq_of_lt hv

theorem tag_or (htag : tag < 2 ^ 24) : tag ||| recSizeof <<< 24 = tag + recSizeof * 2 ^ 24 := by
  rw [Nat.or_comm, recSizeof, Nat.shiftLeft_eq, mul_comm 8, ← Nat.two_pow_add_eq_or_of_lt htag]
  omega

theorem getU32_header (mem : Mem) (o : Nat) {w : Nat} (hv : v < 2 ^ 32) (hw : w < 2 ^ 32) :
    getU32 (putBytes mem o (leBytes 4 v ++ leBytes 4 w)) o = v ∧
      getU32 (putBytes mem o (leBytes 4 v ++ leBytes 4 w)) (o + 4) = w := by
  have hbytes := bytesAt_putBytes mem o (leBytes 4 v ++ leBytes 4 w)
  rw [length_append, length_leBytes, length_leBytes, bytesAt_add] at hbytes
  obtain ⟨h1, h2⟩ := append_inj hbytes (by simp)
  rw [getU32, getU32, h1, h2, leNat_leBytes, leNat_leBytes]
  exact ⟨mod_eq_of_lt hv, mod_eq_of_lt hw⟩

theorem Holds.place (h : Holds b rs) (htag : tag < 2 ^ 24) (hsize : size < 2 ^ 31)
    (hsnug : alignUp size (2 ^ alignLog2) = alignUp size 8)
    (hplace : place b tag size alignLog2 = (b', some rec)) :
    Holds b' (rs ++ [⟨tag, replicate size 0⟩]) := by
  have hsmall := h.small
  have hfits := h.fits
  have hround : alignUp size 8 = (size + 7) / 8 * 8 := rfl
  have halloc :
      u32 (b.used + recSizeof + alignUp size (2 ^ alignLog2)) = b.used + 8 + alignUp size 8 := by
    rw [hsnug]
    exact u32_of_lt (by simp only [recSizeof]; omega)
  simp only [Bloblist.place, halloc] at hplace
  rcases ite_eq_iff.mp hplace with ⟨-, hp⟩ | ⟨hspace, hp⟩
  · cases hp
  cases hp
  have hhead := getU32_header b.mem b.used (v := tag ||| recSizeof <<< 24) (w := size)
    (by rw [tag_or htag, recSizeof]; omega) (by omega)
  rw [tag_or htag] at hhead ⊢
  generalize hm1 :
    putBytes b.mem b.used (leBytes 4 (tag + recSizeof * 2 ^ 24) ++ leBytes 4 size) = mem1 at hhead ⊢
  have hhdr : recHdrSize { b with mem := mem1 } b.used = recSizeof := by
    rw [recHdrSize, hhead.1, recSizeof]
    omega
  rw [hhdr]
  have hkeep :
      ∀ a < b.used + recSizeof, putBytes mem1 (b.used + recSizeof) (replicate size 0) a = mem1 a :=
    fun a ha => putBytes_outside (.inl ha)
  refine ⟨h.addr, h.align, ?_, append.mpr ⟨h.layout.congr fun a _ ha => ?_, ⟨?_, ?_, ?_⟩, trivial⟩,
    ?_, ?_, h.small⟩
  · show b.used + 8 + alignUp size 8 = _
    rw [h.used, extent_append, extent_cons, extent_nil, Blob.extent_eq, length_replicate]
    omega
  · rw [← h.used] at ha
    refine (hkeep a (by omega)).trans ?_
    rw [← hm1, putBytes_outside (.inl ha)]
  · rw [← h.used, ← hhead.1]
    exact getU32_congr fun i hi => hkeep _ (by simp only [recSizeof]; omega)
  · rw [← h.used, length_replicate]
    refine Eq.trans ?_ hhead.2
    exact getU32_congr fun i hi => hkeep _ (by simp only [recSizeof]; omega)
  · rw [← h.used]
    exact bytesAt_putBytes _ _ _
  · intro x hx
    rcases mem_append.mp hx with hx | hx
    · exact h.tags x hx
    · obtain rfl := mem_singleton.mp hx
      exact htag
  · exact not_lt.mp hspace

theorem alignUp_lt (x : Nat) (ha : 0 < a) : alignUp x a < x + a := by
  have := div_mul_le_self (x + a - 1) a
  rw [alignUp]
  omega

theorem Holds.addrec_void (h : Holds b rs) (fuel : Nat) :
    addrecFrom (fuel + 1) b 0 size 0 = some (Bloblist.place b 0 size 3) := by
  have haddr := h.addr
  have hmod := extent_mod rs
  have hused := h.used
  have hstart :
      alignUp (b.addr + b.used + recSizeof) (2 ^ 3) - (b.addr + b.used + recSizeof) = 0 := by
    simp only [alignUp, recSizeof, hdrSize] at *
    omega
  simp only [addrecFrom, if_true]
  rw [if_pos hstart]

theorem Holds.addrec (h : Holds b rs)
    (htag : tag < 2 ^ 24) (hsize : size < 2 ^ 31) (halign : alignLog2 < 32)
    (hsnug : Snug size alignLog2) (hadd : addrec b tag size alignLog2 = some (b', some rec)) :
    ∃ gap, (∀ r ∈ gap, r.tag = 0) ∧ Holds b' (rs ++ gap ++ [⟨tag, List.replicate size 0⟩]) := by
  rw [Bloblist.addrec, addrecFrom] at hadd
  simp only [Snug] at hsnug
  generalize hk : (if alignLog2 = 0 then 3 else alignLog2) = k at hadd hsnug
  have hkpos : 0 < k ∧ k < 32 := by
    split_ifs at hk <;> omega
  have hlt := alignUp_lt (b.addr + b.used + recSizeof) (Nat.two_pow_pos k)
  have hpow : 2 ^ k ≤ 2 ^ 31 := Nat.pow_le_pow_right (by decide) (by omega)
  have hsub : alignUp (b.addr + b.used + recSizeof) (2 ^ k) - (b.addr + b.used + recSizeof) <
    2 ^ 31 := by omega
  generalize alignUp (b.addr + b.used + recSizeof) (2 ^ k) - (b.addr + b.used + recSizeof) =
    g at hadd hsub
  rcases ite_eq_iff.mp hadd with ⟨-, hp⟩ | ⟨hg, hp⟩
  · exact ⟨[], by simp, by simpa using h.place htag hsize hsnug (Option.some.inj hp)⟩
  rw [h.addrec_void] at hp
  rcases hvoid : Bloblist.place b 0 (g - recSizeof) 3 with ⟨b1, _ | v⟩
  · rw [hvoid] at hp
    cases hp
  · rw [hvoid] at hp
    have hfill : alignUp (g - recSizeof) (2 ^ 3) = alignUp (g - recSizeof) 8 := rfl
    have h1 := h.place (by decide) (by omega) hfill hvoid
    refine ⟨[⟨0,
      List.replicate (g - recSizeof) 0⟩], by simp, h1.place htag hsize hsnug (Option.some.inj hp)⟩

/-! ## Resizing -/

def padding (size : Nat) : Nat := alignUp size 8 - size

def resized (data : Bytes) (size : Nat) : Bytes :=
  data.take size ++ List.replicate (size - data.length) 0

theorem length_resized (data : Bytes) (size : Nat) : (resized data size).length = size := by
  rw [resized, length_append, length_take, length_replicate]
  omega

theorem resized_getElem? (data : Bytes) (size i : Nat) (hi : i < size) :
    (resized data size)[i]? = if i < data.length then data[i]? else some 0 := by
  rw [resized, getElem?_append, length_take]
  split_ifs with h1 h2 h2
  · rw [getElem?_take, if_pos hi]
  · omega
  · omega
  · rw [getElem?_replicate, if_pos (by omega)]

theorem expandBy_eq {old new used : Nat} (hold : alignUp old 8 ≤ used) (hmod : used % 8 = 0)
    (hused : used ≤ total)
    (htotal : total + 8 < 2 ^ 31) (hnew : new < 2 ^ 31) (hpad : padding old ≤ padding new)
    (hspace : ¬ total < (((used + expandBy old new + 7) / 8 * 8) % 2 ^ 32).toNat) :
    expandBy old new = (alignUp new 8 : Int) - alignUp old 8 ∧
      (((used + expandBy old new + 7) / 8 * 8) % 2 ^ 32).toNat + alignUp old 8 =
      used + alignUp new 8 := by
  simp only [padding, alignUp] at *
  have hround : ((new : Int) - old + 7) / 8 * 8 =
    ((new + 7) / 8 * 8 : Nat) - ((old + 7) / 8 * 8 : Nat) := by omega
  rw [expandBy, hround] at hspace ⊢
  by_cases hwrap : (new + 7) / 8 * 8 < (old + 7) / 8 * 8 + 2 ^ 31
  · rw [Int.bmod_eq_of_le (by omega) (by omega)] at hspace ⊢
    omega
  -- the sum would be 2 ^ 31, which is negative as an `int` and too large as an unsigned number
  have hbmod : Int.bmod (((new + 7) / 8 * 8 : Nat) - ((old + 7) / 8 * 8 : Nat) : Int) (2 ^ 32) = -
      2 ^ 31 := by
    have : (((new + 7) / 8 * 8 : Nat) - ((old + 7) / 8 * 8 : Nat) : Int) = 2 ^ 31 := by omega
    rw [this]
    decide
  rw [hbmod] at hspace
  omega

theorem Has.resized {mem' : Mem} {new : Nat} (h : Has mem o r)
    (hhead : ∀ i < 4, mem' (o + i) = mem (o + i)) (hsize : getU32 mem' (o + 4) = new)
    (hkeep : ∀ i < new, i < r.data.length → mem' (o + recSizeof + i) = mem (o + recSizeof + i))
    (hzero : ∀ i < new, r.data.length ≤ i → mem' (o + recSizeof + i) = 0) :
    Has mem' o ⟨r.tag, resized r.data new⟩ := by
  refine ⟨?_, hsize.trans (length_resized _ _).symm, ?_⟩
  · rw [← h.head]
    exact getU32_congr hhead
  · refine bytesAt_eq fun i hi => ?_
    rw [length_resized] at hi
    rw [resized_getElem? _ _ _ hi]
    split_ifs with hlt
    · rw [hkeep i hi hlt, ← h.data, bytesAt_getElem?, if_pos hlt]
    · rw [hzero i hi (by omega)]

theorem putBytes_bytesAt (mem : Mem) (dst src : Nat) {len i : Nat} (hi : i < len) :
    putBytes mem dst (bytesAt mem src len) (dst + i) = mem (src + i) := by
  have hin : (bytesAt mem src len)[i]? = some (putBytes mem dst (bytesAt mem src len) (dst + i)) :=
    putBytes_inside (by simpa using hi)
  rw [bytesAt_getElem?, if_pos hi] at hin
  exact (some.inj hin).symm

theorem putBytes_zeros (mem : Mem) {n : Nat} (ho : o ≤ a) (ha : a < o + n) :
    putBytes mem o (List.replicate n 0) a = 0 := by
  obtain ⟨i, rfl⟩ := Nat.exists_eq_add_of_le ho
  have hin : (replicate n 0)[i]? = some (putBytes mem o (replicate n 0) (o + i)) :=
    putBytes_inside (by rw [length_replicate]; omega)
  rw [getElem?_replicate, if_pos (by omega)] at hin
  exact (some.inj hin).symm

theorem Holds.tags_replaced (h : Holds b (pre ++ r :: post)) (data : Bytes) :
    ∀ x ∈ pre ++ ⟨r.tag, data⟩ :: post, x.tag < 2 ^ 24 := by
  intro x hx
  rcases mem_append.mp hx with hx | hx
  · exact h.tags x (by simp [hx])
  · rcases mem_cons.mp hx with rfl | hx
    · exact h.tags r (by simp)
    · exact h.tags x (by simp [hx])

theorem Holds.resizeRec {new : Nat} (h : Holds b (pre ++ r :: post)) (hnew : new < 2 ^ 31)
    (hpad : padding r.data.length ≤ padding new)
    (hmove : alignUp r.data.length 8 ≤ alignUp new 8 ∨ post = [])
    (hres : resizeRec b (hdrSize + extent pre) new = some (b', true)) :
    Holds b' (pre ++ ⟨r.tag, resized r.data new⟩ :: post) := by
  have hhas := h.layout.at
  have htag := h.tags r (by simp)
  have hpreMod := extent_mod pre
  obtain ⟨-, hhdr, hsize⟩ := hhas.fields htag
  have hend := h.endOfs
  have hused := h.used
  have hmodAll := extent_mod (pre ++ r :: post)
  have hext := r.extent_eq
  rw [extent_append, extent_cons] at hused hmodAll
  have hround : alignUp r.data.length 8 = (r.data.length + 7) / 8 * 8 := rfl
  have hround' : alignUp new 8 = (new + 7) / 8 * 8 := rfl
  simp only [Bloblist.resizeRec, hsize, hend, hhdr] at hres
  rcases ite_eq_iff.mp hres with ⟨-, hp⟩ | ⟨-, hp⟩
  · cases hp
  obtain ⟨hspace, hp⟩ := of_guard hp (by simp)
  obtain ⟨hexpand, halloc⟩ :=
    expandBy_eq (by omega) (by simp only [hdrSize] at *; omega) h.fits h.small hnew hpad hspace
  obtain ⟨-, hp⟩ := of_guard hp (by simp)
  generalize (((b.used + expandBy r.data.length new + 7) / 8 * 8) % 2 ^ 32).toNat =
    alloc at halloc hspace hp
  rw [hexpand] at hp
  have hpad' : (new + 7) / 8 * 8 ≤ (r.data.length + 7) / 8 * 8 → new ≤ r.data.length := by
    simp only [padding] at hpad
    omega
  cases hp
  clear hp hres
  -- the records behind are moved, and nothing before them
  generalize hm1 : (if hdrSize + extent pre + r.extent ≠ b.used then _ else b.mem) = mem1
  have hdst : post ≠ [] → ((hdrSize + extent pre + r.extent : Nat) +
    ((alignUp new 8 : Int) - alignUp r.data.length 8)).toNat =
      hdrSize + extent pre + (8 + alignUp new 8) := fun _ => by omega
  have hnext : hdrSize + extent pre + r.extent ≠ b.used ↔ post ≠ [] := by
    cases post with
    | nil => simp [hused, add_assoc]
    | cons r' post =>
      have := r'.length_le
      rw [extent_cons] at hused
      simp only [ne_eq, cons_ne_nil, not_false_eq_true, iff_true]
      omega
  have hbefore : ∀ a < hdrSize + extent pre + r.extent, mem1 a = b.mem a := by
    intro a ha
    rw [← hm1]
    split_ifs with hne
    · have := hmove.resolve_right (hnext.mp hne)
      exact putBytes_outside (.inl (by rw [hdst (hnext.mp hne)]; omega))
    · rfl
  have hbehind : ∀ i < extent post, mem1 (hdrSize + extent pre + (8 + alignUp new 8) + i) =
      b.mem (hdrSize + extent pre + r.extent + i) := by
    intro i hi
    have hne : post ≠ [] := by
      rintro rfl
      exact absurd hi (not_lt_zero i)
    have hgrow := hmove.resolve_right hne
    rw [← hm1, if_pos (hnext.mpr hne), hdst hne]
    exact putBytes_bytesAt _ _ _ (by omega)
  clear hm1
  -- then what the blob has gained is zeroed, and its size written
  generalize hm2 :
    (if (0 : Int) < (alignUp new 8 : Int) - alignUp r.data.length 8 then _ else mem1) = mem2
  have hzero : ∀ i < new, r.data.length ≤ i → mem2 (hdrSize + extent pre + recSizeof + i) = 0 := by
    intro i hi hle
    rw [← hm2, if_pos (by omega)]
    exact putBytes_zeros _ (by omega) (by omega)
  have hrest : ∀ a, a < hdrSize + extent pre + recSizeof + r.data.length ∨
      hdrSize + extent pre + recSizeof + new ≤ a → mem2 a = mem1 a := by
    intro a ha
    rw [← hm2]
    split_ifs
    · exact putBytes_outside (by rw [length_replicate]; omega)
    · rfl
  have hout : ∀ a, a < hdrSize + extent pre + 4 ∨ hdrSize + extent pre + 4 + 4 ≤ a → putBytes mem2
    (hdrSize + extent pre + 4) (leBytes 4 (new : Int).toNat) a = mem2 a := fun a ha =>
    putBytes_outside (by rw [length_leBytes]; omega)
  have hsizeAt :=
    getU32_putBytes mem2 (hdrSize + extent pre + 4) (by omega : (new : Int).toNat < 2 ^ 32)
  generalize putBytes mem2 (hdrSize + extent pre + 4) (leBytes 4 (new : Int).toNat) =
    mem3 at hout hsizeAt ⊢
  obtain ⟨hpre, -, hpost⟩ := append.mp h.layout
  have hext' : Blob.extent ⟨r.tag, Bloblist.resized r.data new⟩ = 8 + alignUp new 8 := by
    rw [Blob.extent_eq, length_resized]
    rfl
  simp only [recSizeof] at hzero hrest
  refine ⟨h.addr, h.align, ?_, append.mpr ⟨hpre.congr fun a _ ha => ?_, ?_, ?_⟩, ?_,
    not_lt.mp hspace, h.small⟩
  · rw [extent_append, extent_cons, hext']
    show alloc = _
    omega
  · show mem3 a = _
    rw [hout a (by omega), hrest a (by omega), hbefore a (by omega)]
  · refine hhas.resized (fun i hi => ?_) hsizeAt (fun i hi hlt => ?_) fun i hi hle => ?_
    · show mem3 _ = _
      rw [hout _ (by omega), hrest _ (by omega), hbefore _ (by omega)]
    · simp only [recSizeof]
      rw [hout _ (by omega), hrest _ (by omega), hbefore _ (by omega)]
    · simp only [recSizeof]
      rw [hout _ (by omega), hzero i hi hle]
  · refine hpost.moved fun i hi => ?_
    show mem3 _ = _
    rw [hext', hout _ (by omega), hrest _ (by omega), hbehind i hi]
  · exact h.tags_replaced _

/-! ## The list of blobs -/

def modifyFirst (tag : Nat) (f : Bytes → Bytes) : List Blob → List Blob
  | [] => []
  | r :: l => if r.tag = tag then ⟨r.tag, f r.data⟩ :: l else r :: modifyFirst tag f l

def ensured (l : List Blob) (tag size : Nat) : List Blob :=
  if ∃ r ∈ l, r.tag = tag then l else l ++ [⟨tag, List.replicate size 0⟩]

def apply (l : List Blob) : Call → List Blob
  | .add tag size _ => l ++ [⟨tag, List.replicate size 0⟩]
  | .ensure tag size => ensured l tag size
  | .ensureSize tag size _ => ensured l tag size
  | .resize tag newSize => modifyFirst tag (resized · newSize.toNat) l
  | .fill tag data => modifyFirst tag (fun _ => data) l

/-- A new blob: its tag has 24 bits, and its alignment does not make it longer. -/
def FineNew (tag size alignLog2 : Nat) : Prop :=
  0 < tag ∧ tag < 2 ^ 24 ∧ size < 2 ^ 31 ∧ alignLog2 < 32 ∧ Snug size alignLog2

/-- A resized blob has no less padding, and it gets shorter by eight bytes or more only if it is the
last one. -/
def Fine (l : List Blob) : Call → Prop
  | .add tag size alignLog2 => FineNew tag size alignLog2
  | .ensure tag size => FineNew tag size 0
  | .ensureSize tag size alignLog2 => FineNew tag size alignLog2
  | .resize tag newSize =>
    0 < tag ∧ newSize < 2 ^ 31 ∧
      match l.dropWhile (·.tag ≠ tag) with
      | [] => True
      | r :: behind =>
        padding r.data.length ≤ padding newSize.toNat ∧
          (alignUp r.data.length 8 ≤ alignUp newSize.toNat 8 ∨ behind = [])
  | .fill tag _ => 0 < tag

def blobs (rs : List Blob) : List Blob := rs.filter (·.tag ≠ 0)

/-- The memory holds the blobs, with records between them that fill gaps. -/
structure Refines (b : State) (l : List Blob) (rs : List Blob) : Prop where
  holds : Holds b rs
  filtered : blobs rs = l
  last : ∀ r ∈ rs.getLast?, r.tag ≠ 0

theorem blobs_append (rs rs' : List Blob) : blobs (rs ++ rs') = blobs rs ++ blobs rs' :=
  filter_append _ _

theorem blobs_cons (h : r.tag ≠ 0) : blobs (r :: rs) = r :: blobs rs := by simp [blobs, h]

theorem mem_blobs {x : Blob} : x ∈ blobs rs ↔ x ∈ rs ∧ x.tag ≠ 0 := by simp [blobs]

theorem split_tag (rs : List Blob) (tag : Nat) : (∀ r ∈ rs, r.tag ≠ tag) ∨
    ∃ pre r post, rs = pre ++ r :: post ∧ r.tag = tag ∧ ∀ x ∈ pre, x.tag ≠ tag := by
  cases hfind : rs.find? (·.tag = tag) with
  | none => exact .inl (by simpa using hfind)
  | some r =>
    obtain ⟨hr, pre, post, heq, hpre⟩ := find?_eq_some_iff_append.mp hfind
    exact .inr ⟨pre, r, post, heq, by simpa using hr, by simpa using hpre⟩

theorem modifyFirst_append (hne : ∀ x ∈ l, x.tag ≠ tag) (hr : r.tag = tag) :
    modifyFirst tag f (l ++ r :: l') = l ++ ⟨r.tag, f r.data⟩ :: l' := by
  induction l with
  | nil => simp [modifyFirst, hr]
  | cons x l ih =>
    rw [cons_append, modifyFirst, if_neg (hne x mem_cons_self),
      ih fun y hy => hne y (mem_cons_of_mem x hy)]
    rfl

section

variable (h : Refines b l rs)
include h

theorem Refines.added {gap : List Blob} (hgap : ∀ r ∈ gap, r.tag = 0) (hr : r.tag ≠ 0)
    (hholds : Holds b' (rs ++ gap ++ [r])) : Refines b' (l ++ [r]) (rs ++ gap ++ [r]) := by
  have hnone : blobs gap = [] := filter_eq_nil_iff.mpr fun x hx => by simp [hgap x hx]
  refine ⟨hholds, ?_, by simpa using hr⟩
  rw [blobs_append, blobs_append, hnone, h.filtered, blobs_cons hr, append_nil]
  rfl

theorem Refines.addrec (hfine : FineNew tag size alignLog2)
    (hadd : addrec b tag size alignLog2 = some (b', some rec)) :
    ∃ rs', Refines b' (l ++ [⟨tag, replicate size 0⟩]) rs' := by
  obtain ⟨hpos, htag, hsize, halign, hsnug⟩ := hfine
  obtain ⟨gap, hgap, hholds⟩ := h.holds.addrec htag hsize halign hsnug hadd
  exact ⟨_, h.added hgap (ne_of_gt hpos) hholds⟩

theorem Refines.ensurerec (hfine : FineNew tag size alignLog2)
    (hens : ensurerec b tag size alignLog2 = some (b', some rec)) :
    ∃ rs', Refines b' (ensured l tag size) rs' := by
  have hpos := hfine.1
  rw [Bloblist.ensurerec] at hens
  rw [ensured]
  rcases split_tag rs tag with hnone | ⟨pre, r, post, rfl, hr, hpre⟩
  · rw [h.holds.findrec_none hnone] at hens
    have hno : ¬ ∃ r ∈ l, r.tag = tag := by
      rintro ⟨r, hrl, hr⟩
      rw [← h.filtered] at hrl
      exact hnone r (mem_blobs.mp hrl).1 hr
    rw [if_neg hno]
    exact h.addrec hfine hens
  · rw [h.holds.findrec_some hpre hr] at hens
    have hyes : ∃ r ∈ l, r.tag = tag := by
      refine ⟨r, ?_, hr⟩
      rw [← h.filtered]
      exact mem_blobs.mpr ⟨by simp, by omega⟩
    rw [if_pos hyes]
    rcases ite_eq_iff.mp hens with ⟨-, hp⟩ | ⟨-, hp⟩
    · cases hp
    · cases hp
      exact ⟨_, h⟩

omit h in
theorem Refines.replaced (h : Refines b l (pre ++ r :: post)) (hpre : ∀ x ∈ pre, x.tag ≠ tag)
    (hr : r.tag = tag) (htag : 0 < tag) (hholds : Holds b' (pre ++ ⟨r.tag, f r.data⟩ :: post)) :
    Refines b' (modifyFirst tag f l) (pre ++ ⟨r.tag, f r.data⟩ :: post) := by
  have hne : r.tag ≠ 0 := by omega
  refine ⟨hholds, ?_, ?_⟩
  · rw [← h.filtered, blobs_append, blobs_append, blobs_cons hne, blobs_cons
      (r := ⟨r.tag, f r.data⟩) hne, modifyFirst_append (fun x hx => hpre x (mem_blobs.mp hx).1) hr]
  · have hlast := h.last
    cases post with
    | nil => simpa using hne
    | cons x post => simpa using hlast

omit h in
theorem Refines.behind_nil (h : Refines b l (pre ++ r :: post)) (hnil : blobs post = []) :
    post = [] := by
  rcases post.eq_nil_or_concat' with rfl | ⟨post, x, rfl⟩
  · rfl
  · have hlast : (pre ++ r :: (post ++ [x])).getLast? = some x := by
      rw [← cons_append, ← append_assoc, getLast?_concat]
    have hx : x.tag ≠ 0 := h.last x hlast
    have : x ∈ blobs (post ++ [x]) := mem_blobs.mpr ⟨by simp, hx⟩
    rw [hnil] at this
    cases this

theorem Refines.resize {newSize : Int} (hfine : Fine l (.resize tag newSize))
    (hres : resize b tag newSize = some (b', true)) :
    ∃ rs', Refines b' (modifyFirst tag (resized · newSize.toNat) l) rs' := by
  obtain ⟨htag, hnew, hbehind⟩ := hfine
  rw [Bloblist.resize] at hres
  rcases split_tag rs tag with hnone | ⟨pre, r, post, rfl, hr, hpre⟩
  · rw [h.holds.findrec_none hnone] at hres
    cases hres
  rw [h.holds.findrec_some hpre hr] at hres
  simp only at hres
  have hnn : 0 ≤ newSize := by
    by_contra hneg
    rw [resizeRec, if_pos (by omega)] at hres
    cases hres
  obtain ⟨new, rfl⟩ := Int.eq_ofNat_of_zero_le hnn
  rw [← h.filtered, blobs_append, blobs_cons (by omega : r.tag ≠ 0),
    dropWhile_append_of_pos fun x hx => by simpa using hpre x (mem_blobs.mp hx).1,
    dropWhile_cons_of_neg (by simpa using hr)] at hbehind
  obtain ⟨hpad, hmove⟩ := hbehind
  exact ⟨_,
    h.replaced hpre hr htag (h.holds.resizeRec (by omega) hpad (hmove.imp_right h.behind_nil) hres)⟩

omit h in
theorem Holds.fill (h : Holds b (pre ++ r :: post)) (hlen : data.length = r.data.length) :
    Holds { b with mem := putBytes b.mem (hdrSize + extent pre + recSizeof) data }
    (pre ++ ⟨r.tag, data⟩ :: post) := by
  obtain ⟨hpre, hhas, hpost⟩ := append.mp h.layout
  have hext : Blob.extent ⟨r.tag, data⟩ = r.extent := by rw [Blob.extent_eq, Blob.extent_eq, hlen]
  have hle := r.length_le
  have hout : ∀ a, a < hdrSize + extent pre + recSizeof ∨ hdrSize + extent pre + r.extent ≤ a →
      putBytes b.mem (hdrSize + extent pre + recSizeof) data a = b.mem a := fun a ha =>
    putBytes_outside (by simp only [recSizeof] at *; omega)
  refine ⟨h.addr, h.align, ?_, append.mpr
    ⟨hpre.congr fun a _ ha => hout a (.inl (by omega)), ⟨?_, ?_, ?_⟩, ?_⟩, ?_, h.fits, h.small⟩
  · rw [extent_append, extent_cons, hext]
    simpa using h.used
  · rw [← hhas.head]
    exact getU32_congr fun i hi => hout _ (.inl (by simp only [recSizeof]; omega))
  · rw [hlen, ← hhas.size]
    exact getU32_congr fun i hi => hout _ (.inl (by simp only [recSizeof]; omega))
  · exact bytesAt_putBytes _ _ _
  · rw [hext]
    exact hpost.congr fun a ha _ => hout a (.inr ha)
  · exact h.tags_replaced data

theorem Refines.fill (htag : 0 < tag) (hstep : step b (.fill tag data) = some b') :
    ∃ rs', Refines b' (modifyFirst tag (fun _ => data) l) rs' := by
  rw [step, getBlob] at hstep
  rcases split_tag rs tag with hnone | ⟨pre, r, post, rfl, hr, hpre⟩
  · rw [h.holds.findrec_none hnone] at hstep
    cases hstep
  rw [h.holds.findrec_some hpre hr] at hstep
  obtain ⟨-, hhdr, hsize⟩ := h.holds.layout.at.fields (h.holds.tags r (by simp))
  simp only [map_some, hhdr, hsize] at hstep
  rcases ite_eq_iff.mp hstep with ⟨hlen, hp⟩ | ⟨-, hp⟩
  · cases hp
    exact ⟨_, h.replaced hpre hr htag (h.holds.fill hlen)⟩
  · cases hp

theorem Refines.step {c : Call} (hfine : Fine l c) (hstep : step b c = some b') :
    ∃ rs', Refines b' (apply l c) rs' := by
  cases c with
  | add tag size alignLog2 =>
    rw [Bloblist.step] at hstep
    split at hstep
    · rename_i hadd
      cases hstep
      exact h.addrec hfine hadd
    · cases hstep
  | ensure tag size =>
    rw [Bloblist.step] at hstep
    split at hstep
    · rename_i hens
      cases hstep
      exact h.ensurerec hfine hens
    · cases hstep
  | ensureSize tag size alignLog2 =>
    rw [Bloblist.step] at hstep
    split at hstep
    · rename_i hens
      cases hstep
      exact h.ensurerec hfine hens
    · cases hstep
  | resize tag newSize =>
    rw [Bloblist.step] at hstep
    split at hstep
    · rename_i hres
      cases hstep
      exact h.resize hfine hres
    · cases hstep
  | fill tag data => exact h.fill hfine hstep

def FineRun : List Blob → List Call → Prop
  | _, [] => True
  | l, c :: cs => Fine l c ∧ FineRun (apply l c) cs

theorem Refines.run (hfine : FineRun l cs) (hrun : run b cs = some b') :
    ∃ rs', Refines b' (cs.foldl apply l) rs' := by
  induction cs generalizing b l rs with
  | nil =>
    cases hrun
    exact ⟨rs, h⟩
  | cons c cs ih =>
    obtain ⟨b1, hstep, hrest⟩ := bind_eq_some_iff.mp hrun
    obtain ⟨rs1, h1⟩ := h.step hfine.1 hstep
    exact ih h1 hfine.2 hrest

end

theorem new_refines {addr : Nat} (halign : alignLog2 = 0 ∨ alignLog2 = 3)
    (htotal : total + 8 < 2 ^ 31) (hnew : new addr total alignLog2 mem = some b) :
    Refines b [] [] := by
  rcases ite_eq_iff.mp hnew with ⟨-, hp⟩ | ⟨hsize, hp⟩
  · cases hp
  obtain ⟨haddr, hp⟩ := of_guard hp nofun
  cases hp
  refine ⟨⟨by simpa using haddr, ?_, rfl, trivial, by simp, not_lt.mp hsize, htotal⟩, rfl, by simp⟩
  rcases halign with rfl | rfl <;> rfl

/-- The walk visits the blobs in order, and what is found is the first one with the tag. -/
theorem bloblist_refines (addr total alignLog2 : Nat) {mem : Mem} {b₀ : State} {cs : List Call}
    (halign : alignLog2 = 0 ∨ alignLog2 = 3) (htotal : total + 8 < 2 ^ 31)
    (hnew : new addr total alignLog2 mem = some b₀) (hfine : FineRun [] cs)
    (hrun : run b₀ cs = some b) :
    (∃ recs, records b = some recs ∧ blobs (recs.map (blobAt b)) = cs.foldl apply []) ∧
      ∀ tag, 0 < tag →
        match (cs.foldl apply []).find? (·.tag = tag) with
        | none => ∀ size, find b tag size = some none
        | some r =>
          ∃ ofs, bytesAt b.mem ofs r.data.length = r.data ∧ ∀ size,
            find b tag size =
              some (if size = 0 ∨ size = r.data.length then some ofs else none) := by
  obtain ⟨rs, h⟩ := (new_refines halign htotal hnew).run hfine hrun
  refine ⟨⟨_, h.holds.records, ?_⟩, fun tag htag => ?_⟩
  · rw [← h.filtered]
    exact congrArg blobs (Holds.map_blobAt [] h.holds)
  rw [← h.filtered]
  rcases split_tag rs tag with hnone | ⟨pre, r, post, rfl, hr, hpre⟩
  · have hfind : (blobs rs).find? (·.tag = tag) = none :=
      find?_eq_none.mpr fun x hx => by simpa using hnone x (mem_blobs.mp hx).1
    rw [hfind]
    intro size
    rw [find, getBlob, h.holds.findrec_none hnone]
    rfl
  · have hfind : (blobs (pre ++ r :: post)).find? (·.tag = tag) = some r := by
      rw [blobs_append, blobs_cons (by omega : r.tag ≠ 0)]
      exact find?_eq_some_iff_append.mpr ⟨by simpa using hr, _, _, rfl, fun x hx => by
        simpa using hpre x (mem_blobs.mp hx).1⟩
    have hhas := h.holds.layout.at
    obtain ⟨-, hhdr, hsize⟩ := hhas.fields (h.holds.tags r (by simp))
    rw [hfind]
    refine ⟨_, hhas.data, fun size => ?_⟩
    rw [find, getBlob, h.holds.findrec_some hpre hr]
    simp only [map_some, hhdr, hsize, bind_some]
    by_cases h0 : size = 0 <;> by_cases h1 : size = r.data.length <;> simp [h0, h1]

def fresh : State := ⟨4096, 3, hdrSize, 1024, fun _ => 0⟩

/-- Two blobs, one of them aligned to 16 bytes; the first one is filled and then grows. -/
def sample : List Call := [.add 1 5 0, .fill 1 [1, 2, 3, 4, 5], .add 2 16 4, .resize 1 13]

theorem sample_runs : ∃ b, run fresh sample = some b := ⟨_, rfl⟩

theorem bloblist_refines_sample : ∃ b, run fresh sample = some b ∧
    (∃ recs, records b = some recs ∧ blobs (recs.map (blobAt b)) = sample.foldl apply []) ∧
    ∀ tag, 0 < tag →
      match (sample.foldl apply []).find? (·.tag = tag) with
      | none => ∀ size, find b tag size = some none
      | some r =>
        ∃ ofs, bytesAt b.mem ofs r.data.length = r.data ∧ ∀ size,
          find b tag size = some (if size = 0 ∨ size = r.data.length then some ofs else none) := by
  obtain ⟨b, hrun⟩ := sample_runs
  refine ⟨b, hrun, bloblist_refines 4096 1024 0 (.inl rfl) (by decide) rfl ?_ hrun⟩
  refine ⟨⟨by decide, by decide, by decide, by decide, rfl⟩, (by decide : 0 < 1),
    ⟨by decide, by decide, by decide, by decide, rfl⟩,
    ⟨by decide, by decide, by decide, .inl (by decide)⟩, trivial⟩

/-- A blob of four bytes aligned to 16: the walk takes its padding for a record of no size and stays
there. -/
theorem walk_stays_in_padding : ∃ b, run fresh [.add 1 4 4] = some b ∧ firstBlob b = some 24 ∧
    nextBlob b 24 = some 40 ∧ nextBlob b 40 = some 40 ∧ records b = none :=
  ⟨_, rfl, rfl, rfl, rfl, rfl⟩

end MtkBoot.Bloblist
