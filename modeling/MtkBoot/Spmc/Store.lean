import MtkBoot.Lib.Records
import MtkBoot.Spmc.Desc

/-! The store of shared memory objects.  A new object goes to the end, and freeing one moves all
later ones down. `Holds s objs` says that the store holds exactly these objects. -/

namespace MtkBoot.Spmc

open Lib List

variable {m : Mem} {q size : Nat}

variable {p x v : Nat} {b : Bytes}

/-! ### The store of the source -/

/-- `struct spmc_shmem_obj_state`.  `data` is the memory from the backing store on. -/
structure Store where
  data : Mem
  dataSize : Nat
  allocated : Nat
  nextHandle : Nat

variable {s s' : Store}

/-- The fields of `struct spmc_shmem_obj`; the descriptor follows after 32 bytes. -/
def descSize (m : Mem) (p : Nat) : Nat := rd m p 8
def descFilled (m : Mem) (p : Nat) : Nat := rd m (p + 8) 8
def inUse (m : Mem) (p : Nat) : Nat := rd m (p + 16) 8

def objSize (size : Nat) : Nat := u64 (size + 32)

/-- `spmc_shmem_obj_alloc`.  The header of the descriptor is cleared whatever its size is. -/
def Store.alloc (s : Store) (size : Nat) : Option (Store × Nat) :=
  if size % 16 ≠ 0 then none
  else if objSize size < size then none
  else if s.dataSize - s.allocated < objSize size then none
  else
    let p := s.allocated
    let m := putBytes s.data (p + 32) (List.replicate 48 0)
    let m := putBytes m p (leBytes 8 size ++ leBytes 8 0 ++ leBytes 8 0 ++ leBytes 8 0)
    some ({ s with data := m, allocated := s.allocated + objSize size }, p)

def Store.free (s : Store) (p : Nat) : Store :=
  let freeSize := objSize (descSize s.data p)
  let shiftSize := s.allocated - (p + freeSize)
  { s with
    data := putBytes s.data p (bytesAt s.data (p + freeSize) shiftSize)
    allocated := s.allocated - freeSize }

/-- Where the objects start, as `spmc_shmem_obj_get_next` goes through them from `p` on. -/
def objectsFrom (m : Mem) (allocated : Nat) : Nat → Nat → List Nat
  | 0, _ => []
  | fuel + 1, p =>
    if p < allocated then p :: objectsFrom m allocated fuel (p + objSize (descSize m p)) else []

/-- Every object takes 32 bytes at least, so `allocated` steps are enough. -/
def Store.objects (s : Store) : List Nat := objectsFrom s.data s.allocated s.allocated 0

def Store.lookup (s : Store) (h : Nat) : Option Nat :=
  s.objects.find? fun p => handle s.data (p + 32) = h

def Store.write (s : Store) (p : Nat) (b : Bytes) : Store := { s with data := putBytes s.data p b }

def Store.put (s : Store) (p len v : Nat) : Store := s.write p (leBytes len v)

def Store.setNext (s : Store) (n : Nat) : Store := { s with nextHandle := n }

@[simp] theorem Store.free_nextHandle (s : Store) (p : Nat) :
    (s.free p).nextHandle = s.nextHandle := by
  simp [Store.free]

@[simp] theorem Store.write_nextHandle (s : Store) (p : Nat) (b : Bytes) :
    (s.write p b).nextHandle = s.nextHandle := by simp only [Store.write]

@[simp] theorem Store.free_dataSize (s : Store) (p : Nat) : (s.free p).dataSize = s.dataSize := by
  simp [Store.free]

@[simp] theorem Store.write_dataSize (s : Store) (p : Nat) (b : Bytes) :
    (s.write p b).dataSize = s.dataSize := by simp only [Store.write]

@[simp] theorem Store.put_dataSize (s : Store) (p len v : Nat) :
    (s.put p len v).dataSize = s.dataSize := by
  simp [Store.put, Store.write_dataSize]

theorem Store.alloc_dataSize (h : s.alloc size = some (s', p)) : s'.dataSize = s.dataSize := by
  iterate 3
    rcases ite_eq_iff.mp h with ⟨-, h⟩ | ⟨-, h⟩
    · cases h
  cases h
  rfl

structure Obj where
  filled : Nat
  inUse : Nat
  hypShift : Nat
  desc : Bytes
  deriving DecidableEq, Repr

variable {l post pre : List Obj}

open Obj

namespace Obj

def enc (o : Obj) : Bytes :=
  (leBytes 8 o.desc.length ++ leBytes 8 o.filled ++ leBytes 8 o.inUse ++ leBytes 8 o.hypShift) ++
    o.desc

section

variable (o : Obj)
include o

@[simp] theorem length_enc : o.enc.length = 32 + o.desc.length := by
  simp [enc]
  omega

structure Wf (o : Obj) : Prop where
  size : o.desc.length + 32 < 2 ^ 64
  filled : o.filled ≤ o.desc.length
  inUse : o.inUse < 2 ^ 64
  hypShift : o.hypShift < 2 ^ 64

def mem (o : Obj) (i : Nat) : UInt8 := o.desc.getD i 0

def handle (o : Obj) : Nat := Spmc.handle o.mem 0

def Complete (o : Obj) : Prop := o.filled = o.desc.length

omit o in
instance (o : Obj) : Decidable o.Complete := inferInstanceAs (Decidable (_ = _))

theorem enc_size : o.enc = [] ++ (leBytes 8 o.desc.length ++
    (leBytes 8 o.filled ++ leBytes 8 o.inUse ++ leBytes 8 o.hypShift ++ o.desc)) := by simp [enc]

theorem enc_filled : o.enc = leBytes 8 o.desc.length ++
    (leBytes 8 o.filled ++ (leBytes 8 o.inUse ++ leBytes 8 o.hypShift ++ o.desc)) := by simp [enc]

theorem enc_inUse : o.enc = (leBytes 8 o.desc.length ++ leBytes 8 o.filled) ++
    (leBytes 8 o.inUse ++ (leBytes 8 o.hypShift ++ o.desc)) := by simp [enc]

theorem enc_hypShift :
    o.enc = (leBytes 8 o.desc.length ++ leBytes 8 o.filled ++ leBytes 8 o.inUse) ++
      (leBytes 8 o.hypShift ++ o.desc) := by
  simp [enc]

theorem enc_setFilled (v : Nat) : { o with filled := v }.enc = splice o.enc 8 (leBytes 8 v) := by
  rw [enc_filled, enc_filled o]
  exact (splice_middle (a := leBytes 8 o.desc.length) (by simp)).symm

theorem enc_setInUse (v : Nat) : { o with inUse := v }.enc = splice o.enc 16 (leBytes 8 v) := by
  rw [enc_inUse, enc_inUse o]
  exact (splice_middle (a := leBytes 8 o.desc.length ++ leBytes 8 o.filled) (by simp)).symm

theorem enc_setHypShift (v : Nat) :
    { o with hypShift := v }.enc = splice o.enc 24 (leBytes 8 v) := by
  rw [enc_hypShift, enc_hypShift o]
  exact (splice_middle (a := leBytes 8 o.desc.length ++ leBytes 8 o.filled ++ leBytes 8 o.inUse)
    (by simp)).symm

theorem enc_setDesc (h : x + b.length ≤ o.desc.length) :
    { o with desc := splice o.desc x b }.enc = splice o.enc (32 + x) b := by
  have hlen := length_splice h
  unfold enc
  rw [hlen]
  generalize hhead : leBytes 8 o.desc.length ++ leBytes 8 o.filled ++ leBytes 8 o.inUse ++ leBytes 8
    o.hypShift = head
  have h32 : head.length = 32 := by rw [← hhead]; simp
  simp [splice, take_append, drop_append, h32, append_assoc,
    show 32 + x + b.length - 32 = x + b.length by omega,
    drop_eq_nil_of_le (show head.length ≤ 32 + x + b.length by omega),
    take_of_length_le (show head.length ≤ 32 + x by omega)]

end

end Obj

/-! ### What a store holds -/

structure Holds (s : Store) (objs : List Obj) : Prop where
  laid : Laid Obj.enc s.data objs
  allocated : s.allocated = extent Obj.enc objs
  room : s.allocated ≤ s.dataSize
  bound : s.dataSize < 2 ^ 64
  next : s.nextHandle < 2 ^ 64
  wf : ∀ o ∈ objs, o.Wf

section Read

variable {o : Obj}

variable (h : Laid Obj.enc m (pre ++ o :: post))
include h

theorem rd_head {a c : Bytes} (henc : o.enc = a ++ (b ++ c)) (ha : a.length = x)
    (hb : b = leBytes 8 v) (hv : v < 2 ^ 64) : rd m (extent enc pre + x) 8 = v := by
  have hlen : b.length = 8 := by rw [hb, length_leBytes]
  have hfield := h.field_at (o := x) (show x + b.length ≤ o.enc.length by
    rw [henc, ← ha]
    simp)
  rw [henc, ← ha, field_middle, ha, hlen] at hfield
  rw [rd, hfield, hb, leNat_leBytes]
  exact Nat.mod_eq_of_lt (by omega)

theorem descSize_at (ho : o.Wf) : descSize m (extent enc pre) = o.desc.length := by
  have hsize := ho.size
  have hrd := rd_head h o.enc_size rfl rfl (by omega)
  rwa [length_nil, add_zero] at hrd

theorem descFilled_at (ho : o.Wf) : descFilled m (extent enc pre) = o.filled := by
  have hsize := ho.size
  have hfilled := ho.filled
  exact rd_head h o.enc_filled (by simp) rfl (by omega)

theorem inUse_at (ho : o.Wf) : inUse m (extent enc pre) = o.inUse :=
  rd_head h o.enc_inUse (by simp) rfl ho.inUse

theorem desc_at {i : Nat} (hi : i < o.desc.length) :
    m (extent enc pre + 32 + i) = o.mem (0 + i) := by
  have hbyte : (bytesAt m (extent enc pre) o.enc.length)[32 + i]? = o.enc[32 + i]? := by rw [h.at]
  rw [bytesAt_getElem?, if_pos (by simp; omega)] at hbyte
  have henc : o.enc[32 + i]? = o.desc[i]? := by
    unfold enc
    rw [getElem?_append_right (by simp)]
    congr 1
    simp
  rw [henc, ← add_assoc] at hbyte
  rw [mem, zero_add, getD_eq_getElem?_getD, ← hbyte]
  rfl

theorem rd_at {len : Nat} (hx : x + len ≤ o.desc.length) :
    rd m (extent enc pre + 32 + x) len = rd o.mem (0 + x) len :=
  rd_congr_at (n := o.desc.length) (fun _ hi => desc_at h hi) hx

theorem handle_at (ho : 16 ≤ o.desc.length) : handle m (extent enc pre + 32) = o.handle :=
  rd_at h ho

end Read

namespace Holds

variable {objs : List Obj} {o : Obj}

section

variable (h : Holds s (pre ++ o :: post))
include h

theorem wf_of_split : o.Wf := h.wf o (by simp)

theorem put {o' : Obj} (hx : x + b.length ≤ o.enc.length) (henc : o'.enc = splice o.enc x b)
    (hwf : o'.Wf) : Holds (s.write (extent enc pre + x) b) (pre ++ o' :: post) where
  laid := h.laid.put hx henc
  allocated := by
    have hlen : o'.enc.length = o.enc.length := by rw [henc, length_splice hx]
    rw [show (s.write _ _).allocated = s.allocated from rfl, h.allocated, extent_append,
      extent_append, extent_cons, extent_cons, hlen]
  room := h.room
  bound := h.bound
  next := h.next
  wf := by
    intro a ha
    rw [mem_append, mem_cons] at ha
    rcases ha with ha | rfl | ha
    · exact h.wf a (by simp [ha])
    · exact hwf
    · exact h.wf a (by simp [ha])

theorem putDesc (hx : x + b.length ≤ o.desc.length) : Holds (s.write (extent enc pre + 32 + x) b)
      (pre ++ { o with desc := splice o.desc x b } :: post) := by
  have hlen := length_splice hx
  have hwf := h.wf_of_split
  rw [add_assoc]
  exact h.put (by simp; omega) (o.enc_setDesc hx)
    ⟨by simpa [hlen] using hwf.size, by simpa [hlen] using hwf.filled, hwf.inUse, hwf.hypShift⟩

theorem putFilled (hv : v ≤ o.desc.length) :
    Holds (s.put (extent enc pre + 8) 8 v) (pre ++ { o with filled := v } :: post) :=
  h.put (by simp; omega) (o.enc_setFilled v)
    ⟨h.wf_of_split.size, hv, h.wf_of_split.inUse, h.wf_of_split.hypShift⟩

theorem putInUse (hv : v < 2 ^ 64) :
    Holds (s.put (extent enc pre + 16) 8 v) (pre ++ { o with inUse := v } :: post) :=
  h.put (by simp; omega) (o.enc_setInUse v)
    ⟨h.wf_of_split.size, h.wf_of_split.filled, hv, h.wf_of_split.hypShift⟩

omit h in
theorem setNext {n : Nat} (h : Holds s objs) (hn : n < 2 ^ 64) : Holds (s.setNext n) objs :=
  ⟨h.laid, h.allocated, h.room, h.bound, hn, h.wf⟩

theorem free : Holds (s.free (extent enc pre)) (pre ++ post) := by
  have hwf := h.wf_of_split
  have hsize : objSize (descSize s.data (extent enc pre)) = o.enc.length := by
    rw [descSize_at h.laid hwf, objSize, u64_of_lt hwf.size, length_enc, add_comm]
  have halloc := h.allocated
  rw [extent_append, extent_cons] at halloc
  have hroom := h.room
  have hfree : s.free (extent enc pre) = { s with
      data := putBytes s.data (extent enc pre)
        (bytesAt s.data (extent enc pre + o.enc.length) (extent enc post))
      allocated := extent enc (pre ++ post) } := by
    have hshift : s.allocated - (extent enc pre + o.enc.length) = extent enc post := by omega
    have hrest : s.allocated - o.enc.length = extent enc pre + extent enc post := by omega
    rw [Store.free, hsize, extent_append, hshift, hrest]
  rw [hfree]
  refine ⟨h.laid.erase, rfl, ?_, h.bound, h.next, fun a ha => h.wf a ?_⟩
  · show extent enc (pre ++ post) ≤ s.dataSize
    rw [extent_append]
    omega
  · rw [mem_append] at ha
    simp [or_left_comm, ha]

end

theorem bytesAt_alloc (m : Mem) (p size : Nat) :
    let m' := putBytes (putBytes m (p + 32) (List.replicate 48 0)) p
      (leBytes 8 size ++ leBytes 8 0 ++ leBytes 8 0 ++ leBytes 8 0)
    let o : Obj := ⟨0, 0, 0, bytesAt m' (p + 32) size⟩
    bytesAt m' p o.enc.length = o.enc ∧ ∀ i < 48, i < size → o.desc[i]? = some 0 := by
  intro m' o
  have hlen : (leBytes 8 size ++ leBytes 8 0 ++ leBytes 8 0 ++ leBytes 8 0).length = 32 := by simp
  constructor
  · have hhead := bytesAt_putBytes (putBytes m (p + 32) (List.replicate 48 0)) p
      (leBytes 8 size ++ leBytes 8 0 ++ leBytes 8 0 ++ leBytes 8 0)
    rw [hlen] at hhead
    rw [length_enc, bytesAt_add, length_bytesAt, hhead]
    simp [enc, o]
  · intro i hi hin
    have hzero : (List.replicate 48 (0 : UInt8))[i]? =
        some (putBytes m (p + 32) (List.replicate 48 0) (p + 32 + i)) := putBytes_inside (by simpa)
    have hm : m' (p + 32 + i) = putBytes m (p + 32) (List.replicate 48 0) (p + 32 + i) :=
      putBytes_outside (by omega)
    rw [bytesAt_getElem?, if_pos hin, hm, ← hzero, getElem?_replicate, if_pos hi]

/-- A new object goes to the end; as much of its header as it has room for is zero. -/
theorem alloc (h : Holds s objs) (ha : s.alloc size = some (s', p)) :
    ∃ o : Obj, Holds s' (objs ++ [o]) ∧ p = extent enc objs ∧ o.desc.length = size ∧
      o.filled = 0 ∧ o.inUse = 0 ∧ o.hypShift = 0 ∧ s'.nextHandle = s.nextHandle ∧
      s'.dataSize = s.dataSize ∧ ∀ i < 48, i < size → o.desc[i]? = some 0 := by
  unfold Store.alloc at ha
  split at ha
  · cases ha
  obtain ⟨hover, ha⟩ := of_guard ha nofun
  obtain ⟨hfree, ha⟩ := of_guard ha nofun
  have hbound := h.bound
  have halloc := h.allocated
  -- The size did not wrap around, as the object would be smaller than its descriptor.
  have hsize : size + 32 < 2 ^ 64 := by
    by_contra hbig
    unfold objSize u64 at hover hfree
    omega
  have hobj : objSize size = 32 + size := by rw [objSize, u64_of_lt hsize, add_comm]
  rw [hobj] at ha hfree
  cases ha
  obtain ⟨hin, hzero⟩ := bytesAt_alloc s.data s.allocated size
  refine ⟨_, ⟨laid_split.mpr ⟨h.laid.congr fun x hx => ?_, by rw [← halloc]; exact hin, rfl⟩, ?_,
    ?_, hbound, h.next, ?_⟩, halloc, length_bytesAt _ _ _, rfl, rfl, rfl, rfl, rfl, hzero⟩
  · show putBytes _ _ _ x = _
    rw [putBytes_outside (by omega), putBytes_outside (by omega)]
  · simp only [extent_append, extent_cons, extent_nil, length_enc, length_bytesAt, ← halloc]
    rfl
  · show s.allocated + (32 + size) ≤ s.dataSize
    omega
  · intro a hmem
    rw [mem_append, mem_singleton] at hmem
    rcases hmem with hmem | rfl
    · exact h.wf a hmem
    · exact ⟨by simpa using hsize, Nat.zero_le _, Nat.two_pow_pos 64, Nat.two_pow_pos 64⟩

def starts (p : Nat) : List Obj → List Nat
  | [] => []
  | o :: l => p :: starts (p + o.enc.length) l

theorem objectsFrom_eq {fuel : Nat}
    (h : Laid enc m (pre ++ l)) (hwf : ∀ o ∈ l, o.Wf) (hfuel : l.length ≤ fuel) :
    objectsFrom m (extent enc (pre ++ l)) fuel (extent enc pre) = starts (extent enc pre) l := by
  induction l generalizing pre fuel with
  | nil =>
    cases fuel with
    | zero => rfl
    | succ fuel => simp [objectsFrom, starts]
  | cons o l ih =>
    cases fuel with
    | zero => simp at hfuel
    | succ fuel =>
      have hsize : objSize (descSize m (extent enc pre)) = o.enc.length := by
        have ho := hwf o (by simp)
        rw [descSize_at h ho, objSize, u64_of_lt ho.size, length_enc, add_comm]
      have hsnoc : Laid enc m ((pre ++ [o]) ++ l) := by simpa using h
      have htail := ih hsnoc (fun a ha => hwf a (by simp [ha])) (Nat.le_of_succ_le_succ hfuel)
      rw [objectsFrom, if_pos (by simp), hsize, starts]
      simpa using htail

theorem length_le_extent (l : List Obj) : l.length ≤ extent enc l := by
  induction l with
  | nil => exact Nat.le_refl 0
  | cons o l ih =>
    rw [extent_cons, length_enc, length_cons]
    omega

theorem objects_eq (h : Holds s objs) : s.objects = starts 0 objs := by
  have hlen := h.allocated ▸ length_le_extent objs
  have hall := objectsFrom_eq (nil_append objs ▸ h.laid) h.wf hlen
  rw [nil_append, ← h.allocated] at hall
  exact hall

theorem of_mem_starts (hq : q ∈ starts p l) :
    ∃ l1 o l2, l = l1 ++ o :: l2 ∧ q = p + extent enc l1 := by
  induction l generalizing p with
  | nil => cases hq
  | cons o l ih =>
    rcases mem_cons.mp hq with rfl | hq
    · exact ⟨[], o, l, rfl, rfl⟩
    · obtain ⟨l1, o', l2, rfl, rfl⟩ := ih hq
      exact ⟨o :: l1, o', l2, rfl, by rw [extent_cons, add_assoc]⟩

theorem mem_starts {l1 l2 : List Obj} {o : Obj} : p + extent enc l1 ∈ starts p (l1 ++ o :: l2) := by
  induction l1 generalizing p with
  | nil => simp [starts]
  | cons a l1 ih =>
    rw [cons_append, starts, extent_cons, ← add_assoc]
    exact mem_cons_of_mem _ ih

theorem mem_objects (h : Holds s (pre ++ o :: post)) : extent enc pre ∈ s.objects := by
  rw [h.objects_eq, ← zero_add (extent enc pre)]
  exact mem_starts

theorem of_mem_objects (h : Holds s objs) (hq : q ∈ s.objects) :
    ∃ pre o post, objs = pre ++ o :: post ∧ q = extent enc pre := by
  rw [h.objects_eq] at hq
  simpa using of_mem_starts hq

theorem lookup_some {h : Nat} (hs : Holds s objs) (hmin : ∀ o ∈ objs, 16 ≤ o.desc.length)
    (hl : s.lookup h = some q) : ∃ pre o post, objs = pre ++ o :: post ∧ q = extent enc pre ∧
    o.handle = h := by
  obtain ⟨pre, o, post, rfl, rfl⟩ := hs.of_mem_objects (mem_of_find?_eq_some hl)
  have hf := find?_some hl
  rw [handle_at hs.laid (hmin o (by simp)), decide_eq_true_eq] at hf
  exact ⟨pre, o, post, rfl, rfl, hf⟩

theorem lookup_none {h : Nat} (hs : Holds s objs) (hmin : ∀ o ∈ objs, 16 ≤ o.desc.length)
    (hl : s.lookup h = none) : ∀ o ∈ objs, o.handle ≠ h := by
  intro o ho
  obtain ⟨pre, post, rfl⟩ := append_of_mem ho
  have hne := find?_eq_none.mp hl _ hs.mem_objects
  rwa [handle_at hs.laid (hmin o ho), decide_eq_true_eq] at hne

theorem lookup_eq (hs : Holds s (pre ++ o :: post))
    (hmin : ∀ a ∈ pre ++ o :: post, 16 ≤ a.desc.length)
    (honly : ∀ a ∈ pre ++ post, a.handle ≠ o.handle) :
    s.lookup o.handle = some (extent enc pre) := by
  have hhandle := handle_at hs.laid (hmin o (by simp))
  cases hl : s.lookup o.handle with
  | none =>
    have := find?_eq_none.mp hl _ hs.mem_objects
    simp [hhandle] at this
  | some q =>
    obtain ⟨pre', o', post', heq, rfl, ho'⟩ := hs.lookup_some hmin hl
    rcases append_eq_append_iff.mp heq with ⟨l, rfl, hcons⟩ | ⟨l, rfl, hcons⟩
    all_goals
      cases l with
      | nil => simp
      | cons b l =>
        obtain ⟨rfl, rfl⟩ := hcons
        exact absurd ho' (honly o' (by simp))

end Holds

end MtkBoot.Spmc
