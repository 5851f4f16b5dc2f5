import MtkBoot.Lib.Bytes

/-! Records of varying length laid out one behind the other: where each lies, and what overwriting,
appending and taking out a record does to the sequence. -/

namespace MtkBoot.Lib

variable {α : Type*} {enc : α → List UInt8} {mem mem' : Nat → UInt8} {pre post l : List α}
  {a a' : α}

def extent (enc : α → List UInt8) (l : List α) : Nat := (l.flatMap enc).length

@[simp] theorem extent_nil : extent enc [] = 0 := rfl

@[simp] theorem extent_append (l l' : List α) :
    extent enc (l ++ l') = extent enc l + extent enc l' := by
  simp [extent]

@[simp] theorem extent_cons (a : α) (l : List α) :
    extent enc (a :: l) = (enc a).length + extent enc l := by simp [extent]

def Laid (enc : α → List UInt8) (mem : Nat → UInt8) (l : List α) : Prop :=
  bytesAt mem 0 (extent enc l) = l.flatMap enc

theorem Laid.congr (h : Laid enc mem l) (hsame : ∀ x < extent enc l, mem' x = mem x) :
    Laid enc mem' l := by
  rw [Laid, ← h]
  exact bytesAt_congr fun i hi => by simpa using hsame i hi

theorem laid_append : Laid enc mem (l ++ post) ↔
    Laid enc mem l ∧ bytesAt mem (extent enc l) (extent enc post) = post.flatMap enc := by
  unfold Laid
  rw [extent_append, bytesAt_add, List.flatMap_append, zero_add]
  constructor
  · intro h
    exact List.append_inj h (by simp [extent])
  · rintro ⟨h, h'⟩
    rw [h, h']

theorem laid_split : Laid enc mem (pre ++ a :: post) ↔
    Laid enc mem pre ∧ bytesAt mem (extent enc pre) (enc a).length = enc a ∧
      bytesAt mem (extent enc pre + (enc a).length) (extent enc post) = post.flatMap enc := by
  rw [laid_append, extent_cons, bytesAt_add, List.flatMap_cons]
  constructor
  · rintro ⟨hpre, h⟩
    obtain ⟨ha, hpost⟩ := List.append_inj h (by simp)
    exact ⟨hpre, ha, hpost⟩
  · rintro ⟨hpre, ha, hpost⟩
    exact ⟨hpre, by rw [ha, hpost]⟩

section

variable (h : Laid enc mem (pre ++ a :: post))
include h

theorem Laid.at : bytesAt mem (extent enc pre) (enc a).length = enc a := (laid_split.mp h).2.1

theorem Laid.field_at {o len : Nat} (hlen : o + len ≤ (enc a).length) :
    bytesAt mem (extent enc pre + o) len = field (enc a) o len := by
  apply List.ext_getElem?
  intro i
  rw [bytesAt_getElem?, field_getElem?, ← h.at, bytesAt_getElem?]
  split
  · rw [if_pos (by omega), add_assoc]
  · rfl

theorem Laid.replace (hlen : (enc a').length = (enc a).length)
    (hin : bytesAt mem' (extent enc pre) (enc a).length = enc a')
    (hout : ∀ x, x < extent enc pre ∨ extent enc pre + (enc a).length ≤ x → mem' x = mem x) :
    Laid enc mem' (pre ++ a' :: post) := by
  obtain ⟨hpre, -, hpost⟩ := laid_split.mp h
  refine laid_split.mpr ⟨hpre.congr fun x hx => hout x (.inl hx), by rw [hlen, hin], ?_⟩
  rw [← hpost, hlen]
  exact bytesAt_congr fun i _ => hout _ (.inr (by omega))

theorem Laid.put {o : Nat}
    {b : List UInt8} (hb : o + b.length ≤ (enc a).length) (henc : enc a' = splice (enc a) o b) :
    Laid enc (putBytes mem (extent enc pre + o) b) (pre ++ a' :: post) := by
  have hlen : (enc a').length = (enc a).length := by rw [henc, length_splice hb]
  refine h.replace hlen ?_ fun x hx => putBytes_outside (by omega)
  rw [bytesAt_putBytes_within hb, h.at, henc]

theorem Laid.erase : Laid enc (putBytes mem (extent enc pre)
      (bytesAt mem (extent enc pre + (enc a).length) (extent enc post))) (pre ++ post) := by
  obtain ⟨hpre, -, hpost⟩ := laid_split.mp h
  refine laid_append.mpr ⟨hpre.congr fun x hx => putBytes_outside (.inl hx), ?_⟩
  rw [hpost]
  exact bytesAt_putBytes mem (extent enc pre) (post.flatMap enc)

end

end MtkBoot.Lib
