import MtkBoot.Base
import MtkBoot.Lib.Bytes
import MtkBoot.Lib.System

/-! The firmware update calls of BL1 with assertions compiled out.  `ImageDesc` is the part of an
image descriptor that never changes, `ImageInfo` the rest. -/

namespace MtkBoot.Fwu

inductive World
  | secure | nonSecure
  deriving DecidableEq, Repr

inductive ImageState
  | reset | copied | copying | authenticated | executed | interrupted
  deriving DecidableEq, Repr

def invalidImageId : Nat := 0xffffffff

structure ImageDesc where
  imageBase : Nat
  imageMaxSize : Nat
  world : World
  executable : Bool
  max_lt : imageMaxSize < 2 ^ 32

structure ImageInfo where
  imageSize : Nat
  copiedSize : Nat
  state : ImageState
  deriving DecidableEq, Repr

/-- `bl1_plat_get_image_desc`, `bl1_plat_mem_check` and `auth_mod_verify_img`. -/
structure Platform where
  imageDesc : Nat → Option ImageDesc
  memCheck : Nat → Nat → World → Bool
  verify : Nat → Bytes → Bool
  invalid_none : imageDesc invalidImageId = none

/-- `loaded` is `bl1_fwu_loaded_ids`; `world` is the one that runs. -/
structure State where
  mem : Mem
  info : Nat → ImageInfo
  loaded : List Nat
  secExec : Nat
  world : World

inductive Event
  /-- `auth_mod_verify_img` accepts the bytes for the image. -/
  | accepted (id : Nat) (bytes : Bytes)
  /-- The secure image gets control. -/
  | entered (id : Nat)
  deriving DecidableEq, Repr

structure Response where
  ret : Int
  state : State
  event : Option Event

def State.setInfo (s : State) (id : Nat) (f : ImageInfo → ImageInfo) : State :=
  { s with info := Function.update s.info id (f (s.info id)) }

def memcpy (mem : Mem) (dst src : Nat) : Nat → Nat → UInt8
  | 0 => mem
  | len + 1 =>
    memcpy (Function.update mem dst (mem src)) ((dst + 1) % 2 ^ 64) ((src + 1) % 2 ^ 64) len

def zeroNormalmem (mem : Mem) (base : Nat) : Nat → Nat → UInt8
  | 0 => mem
  | len + 1 => zeroNormalmem (Function.update mem base 0) ((base + 1) % 2 ^ 64) len

def readMem (mem : Mem) (base len : Nat) : Bytes :=
  (List.range len).map fun i => mem ((base + i) % 2 ^ 64)

def uptrOverflow (ptr inc : Nat) : Bool := decide (2 ^ 64 - 1 - inc < ptr)

def addLoadedId (ids : List Nat) (id : Nat) : Option (List Nat) :=
  if id ∈ ids then some ids
  else (ids.idxOf? invalidImageId).map fun i => ids.set i id

def removeLoadedId (ids : List Nat) (id : Nat) : Option (List Nat) :=
  (ids.idxOf? id).map fun i => ids.set i invalidImageId

def imageEnd (base size : Nat) : Nat := (base + size + (2 ^ 64 - 1)) % 2 ^ 64

/-- One round of `bl1_fwu_image_check_overlaps`; an id on the list always has a descriptor. -/
def apart (p : Platform) (s : State) (id : Nat) (checked : ImageDesc) (other : Nat) : Bool :=
  if other = invalidImageId ∨ other = id then true
  else match p.imageDesc other with
    | none => true
    | some desc =>
      (s.info other).imageSize = 0 || imageEnd desc.imageBase (s.info other).imageSize <
        checked.imageBase || imageEnd checked.imageBase (s.info id).imageSize < desc.imageBase

/-- `bl1_fwu_image_check_overlaps`: whether there are none. -/
def imageCheckOverlaps (p : Platform) (s : State) (id : Nat) (checked : ImageDesc) : Bool :=
  s.loaded.all (apart p s id checked)

/-- The second half of `bl1_fwu_image_copy`; `pre` is whether `bl1_plat_handle_pre_image_load`
succeeds. -/
def copyBlock (p : Platform) (s : State) (id : Nat) (desc : ImageDesc) (src blockSize : Nat)
    (pre : Bool) : Response :=
  let info := s.info id
  let remaining := (info.imageSize + 2 ^ 32 - info.copiedSize) % 2 ^ 32
  let blockSize := if remaining < blockSize then remaining else blockSize
  if p.memCheck src blockSize s.world = false then ⟨-enomem, s, none⟩
  else match addLoadedId s.loaded id with
    | none => ⟨-enomem, s, none⟩
    | some loaded =>
      if info.state = .reset ∧ pre = false then ⟨-eperm, { s with loaded }, none⟩
      else
        let mem := memcpy s.mem ((desc.imageBase + info.copiedSize) % 2 ^ 64) src blockSize
        ⟨0, { s with mem, loaded }.setInfo id fun i =>
          { i with
            copiedSize := (i.copiedSize + blockSize) % 2 ^ 32
            state := if blockSize = remaining then .copied else .copying }, none⟩

def imageCopy (p : Platform) (s : State) (id src blockSize imageSize : Nat) (pre : Bool) :
    Response :=
  match p.imageDesc id with
  | none => ⟨-eperm, s, none⟩
  | some desc =>
    if s.world = .secure then ⟨-eperm, s, none⟩
    else if desc.world = .nonSecure then ⟨-eperm, s, none⟩
    else if (s.info id).state ≠ .reset ∧ (s.info id).state ≠ .copying then ⟨-eperm, s, none⟩
    else if src = 0 ∨ blockSize = 0 ∨ uptrOverflow src (blockSize - 1) then ⟨-enomem, s, none⟩
    else if (s.info id).state = .copying then copyBlock p s id desc src blockSize pre
    else if imageSize = 0 then ⟨-enomem, s, none⟩
    else if desc.imageMaxSize < imageSize then ⟨-enomem, s, none⟩
    else if imageCheckOverlaps p (s.setInfo id fun i => { i with imageSize }) id desc = false then
      ⟨-eperm, s.setInfo id fun i => { i with imageSize := 0 }, none⟩
    else copyBlock p (s.setInfo id fun i => { i with imageSize, copiedSize := 0 })
      id desc src blockSize pre

/-- The end of `bl1_fwu_image_auth`; `post` is whether `bl1_plat_handle_post_image_load` succeeds,
and `none` is `plat_error_handler`. -/
def verifyImage (p : Platform) (s : State) (id base size : Nat) (post : Bool) : Option Response :=
  if p.verify id (readMem s.mem base size) then
    if post then
      some ⟨0, s.setInfo id fun i => { i with state := .authenticated },
        some (.accepted id (readMem s.mem base size))⟩
    else none
  else
    let s := if (s.info id).state = .copied then
        { s with mem := zeroNormalmem s.mem base size }.setInfo id fun i =>
          { i with state := .reset }
      else s
    some ⟨-eauth, { s with loaded := (removeLoadedId s.loaded id).getD s.loaded }, none⟩

def authState : World → World → ImageState
  | .nonSecure, .secure => .copied
  | _, _ => .reset

def imageAuth (p : Platform) (s : State) (id src imageSize : Nat) (post : Bool) : Option Response :=
  match p.imageDesc id with
  | none => some ⟨-eperm, s, none⟩
  | some desc =>
    if (s.info id).state ≠ authState s.world desc.world then some ⟨-eperm, s, none⟩
    else if (s.info id).state = .copied then
      verifyImage p s id desc.imageBase (s.info id).imageSize post
    else if src = 0 ∨ imageSize = 0 ∨ uptrOverflow src (imageSize - 1) then some ⟨-enomem, s, none⟩
    else if p.memCheck src imageSize desc.world = false then some ⟨-enomem, s, none⟩
    else match addLoadedId s.loaded id with
      | none => some ⟨-enomem, s, none⟩
      | some loaded =>
        verifyImage p ({ s with loaded }.setInfo id fun i => { i with imageSize })
          id src imageSize post

/-- `bl1_fwu_image_execute` with `bl1_prepare_next_image`. -/
def imageExecute (p : Platform) (s : State) (id : Nat) : Response :=
  match p.imageDesc id with
  | none => ⟨-eperm, s, none⟩
  | some desc =>
    if s.world = .secure ∨ desc.world = .nonSecure ∨ desc.executable = false ∨
        (s.info id).state ≠ .authenticated then ⟨-eperm, s, none⟩
    else
      ⟨0, { s.setInfo id fun i => { i with state := .executed } with
        secExec := id, world := .secure }, some (.entered id)⟩

/-- `bl1_fwu_image_resume`; `none` is a null pointer. -/
def imageResume (p : Platform) (s : State) (param : Int) : Option Response :=
  match p.imageDesc s.secExec, s.world with
  | none, .nonSecure => some ⟨-eperm, s, none⟩
  | none, .secure => none
  | some _, .secure =>
    some ⟨param, { s.setInfo s.secExec fun i => { i with state := .interrupted } with
      world := .nonSecure }, none⟩
  | some _, .nonSecure =>
    some ⟨param, { s.setInfo s.secExec fun i => { i with state := .executed } with
      world := .secure }, some (.entered s.secExec)⟩

def secImageDone (p : Platform) (s : State) : Option Response :=
  if s.world = .nonSecure then some ⟨-eperm, s, none⟩
  else match p.imageDesc s.secExec with
    | none => none
    | some _ =>
      some ⟨0, { s.setInfo s.secExec fun i => { i with state := .reset } with
        loaded := (removeLoadedId s.loaded s.secExec).getD s.loaded
        secExec := invalidImageId
        world := .nonSecure }, none⟩

def imageReset (p : Platform) (s : State) (id : Nat) : Response :=
  match p.imageDesc id with
  | none => ⟨-eperm, s, none⟩
  | some desc =>
    if s.world = .secure then ⟨-eperm, s, none⟩
    else if (s.info id).state = .reset ∨ (s.info id).state = .executed then ⟨0, s, none⟩
    else match removeLoadedId s.loaded id with
      | none => ⟨-eperm, s, none⟩
      | some loaded =>
        let mem := if (s.info id).copiedSize ≠ 0 then
            zeroNormalmem s.mem desc.imageBase (s.info id).copiedSize
          else s.mem
        ⟨0, { s with mem, loaded }.setInfo id fun _ => ⟨0, 0, .reset⟩, none⟩

/-- The calls, with the registers that hold their arguments and the outcomes of the platform's
hooks. -/
inductive Smc
  | imageCopy (x1 x2 x3 x4 : UInt64) (pre : Bool)
  | imageAuth (x1 x2 x3 : UInt64) (post : Bool)
  | imageExecute (x1 : UInt64)
  | imageResume (x1 : UInt64)
  | secImageDone
  | imageReset (x1 : UInt64)
  | updateDone

/-- `bl1_fwu_smc_handler`; `FWU_SMC_UPDATE_DONE` does not return. -/
def smcHandler (p : Platform) (s : State) : Smc → Option Response
  | .imageCopy x1 x2 x3 x4 pre =>
    some (imageCopy p s (u32 x1.toNat) x2.toNat (u32 x3.toNat) (u32 x4.toNat) pre)
  | .imageAuth x1 x2 x3 post => imageAuth p s (u32 x1.toNat) x2.toNat (u32 x3.toNat) post
  | .imageExecute x1 => some (imageExecute p s (u32 x1.toNat))
  | .imageResume x1 => imageResume p s x1.toInt64.toInt
  | .secImageDone => secImageDone p s
  | .imageReset x1 => some (imageReset p s (u32 x1.toNat))
  | .updateDone => none

structure Run where
  state : State
  accepted : Nat → Option Bytes

def note (accepted : Nat → Option Bytes) : Option Event → Nat → Option Bytes
  | some (.accepted id bytes) => Function.update accepted id (some bytes)
  | _ => accepted

def Platform.Secures (p : Platform) (a : Nat) : Prop :=
  ∃ id desc, p.imageDesc id = some desc ∧ desc.world = .secure ∧ desc.imageBase ≤ a ∧
    a < desc.imageBase + desc.imageMaxSize

inductive Step (p : Platform) (met : State → Smc → Prop) : Run → Run → Prop
  | smc {r : Run} {c : Smc} {resp : Response} (hmet : met r.state c)
      (hcall : smcHandler p r.state c = some resp) :
      Step p met r ⟨resp.state, note r.accepted resp.event⟩
  | write {r : Run} {mem : Mem} (hworld : r.state.world = .nonSecure)
      (hsame : ∀ a, p.Secures a → mem a = r.state.mem a) :
      Step p met r ⟨{ r.state with mem }, r.accepted⟩

structure Init (p : Platform) (slots : Nat) (r : Run) : Prop where
  loaded : r.state.loaded = List.replicate slots invalidImageId
  secExec : r.state.secExec = invalidImageId
  world : r.state.world = .nonSecure
  copied : ∀ id, (r.state.info id).copiedSize = 0
  reset : ∀ id desc, p.imageDesc id = some desc → desc.world = .secure →
    (r.state.info id).state = .reset

end MtkBoot.Fwu
