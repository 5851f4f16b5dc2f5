import MtkBoot.Lib.Bytes
import MtkBoot.Lib.Strings

/-! The TAR reader of the upgrade code.  The size of a file is an octal number in its header, and
the next header is searched behind the size rounded up to whole blocks. -/

namespace MtkBoot.Untar

open Lib

/-- The memory from the start of an image on.  The image is its first `size` bytes. -/
structure Image where
  mem : Bytes
  size : Nat
  size_lt : size < 2 ^ 64

structure Ctx where
  offset : Nat
  eof : Bool

variable {ctx : Ctx}

inductive FileType where
  | regular
  | link
  | char
  | block
  | directory
  | fifo
  | unknown
  deriving DecidableEq

/-- A file: its header, which starts with its name and has the data behind it. -/
structure Record where
  header : Nat
  size : Nat
  type : FileType

def fileType (typeflag : UInt8) : FileType :=
  match typeflag.toNat with
  | 0x30 | 0 => .regular
  | 0x31 | 0x32 => .link
  | 0x33 => .char
  | 0x34 => .block
  | 0x35 => .directory
  | 0x36 => .fifo
  | _ => .unknown

variable (img : Image)

def headerIsBlank (offset : Nat) : Bool := (field img.mem offset 512).all (· = 0)

def headerChecksum (offset : Nat) : Bool :=
  let hdr := field img.mem offset 512
  (strtoul 8 (hdr.drop 148)).1 =
    ((hdr.take 148 ++ List.replicate 8 0x20 ++ hdr.drop 156).map UInt8.toNat).sum

/-- The size that a header names.  The digits may go on behind its field. -/
def sizeField (offset : Nat) : Nat := (strtoul 8 (img.mem.drop (offset + 124))).1

def align512 (n : Nat) : Nat := u64 (n + 511) / 512 * 512

/-- `tar_ctx_next_file`; it fails with `-ENODATA` or `-EINVAL`. -/
def nextFile (ctx : Ctx) : Except Int Record × Ctx :=
  if ctx.eof then (.error (-61), ctx)
  else if subU64 img.size ctx.offset < 512 then (.error (-61), { ctx with eof := true })
  else if headerIsBlank img ctx.offset then (.error (-61), ⟨u64 (ctx.offset + 512), true⟩)
  else if ¬headerChecksum img ctx.offset then (.error (-einval), ctx)
  else
    let size := sizeField img ctx.offset
    if u64 (ctx.offset + size + 512) > img.size then (.error (-einval), ctx)
    else
      (.ok ⟨ctx.offset, size, fileType (img.mem.getD (ctx.offset + 156) 0)⟩,
        { ctx with offset := u64 (ctx.offset + 512 + align512 size) })

/-- The kernel and the root file system: where their data starts, and its size. -/
structure Found where
  kernel : Option (Nat × Nat)
  rootfs : Option (Nat × Nat)

def Found.note (f : Found) (file : Record) : Found :=
  let name := cstr (img.mem.drop file.header)
  if file.type = .regular ∧ ascii "sysupgrade" <+: name then
    match findSub [0x2f] name with
    | none => f
    | some i =>
      let data := some (file.header + 512, file.size)
      if name.drop (i + 1) = ascii "kernel" then { f with kernel := data }
      else if name.drop (i + 1) = ascii "root" then { f with rootfs := data }
      else f
  else f

/-- The loop of `parse_tar_image`. -/
def parseFiles : Nat → Ctx → Found → Option (Int × Found)
  | 0, _, _ => none
  | fuel + 1, ctx, f =>
    match nextFile img ctx with
    | (.error _, _) => some (-1, f)
    | (.ok file, ctx') =>
      let f' := f.note img file
      if f'.kernel.isSome ∧ f'.rootfs.isSome then some (0, f') else parseFiles fuel ctx' f'

def parseTarImage (fuel : Nat) : Option (Int × Found) := parseFiles img fuel ⟨0, false⟩ ⟨none, none⟩

/-- The context after `n` calls. -/
def after (n : Nat) : Ctx := (fun ctx => (nextFile img ctx).2)^[n] ⟨0, false⟩

def Examines (ctx : Ctx) : Prop := ctx.eof = false ∧ 512 ≤ subU64 img.size ctx.offset

structure Accepts (ctx : Ctx) : Prop where
  examines : Examines img ctx
  named : headerIsBlank img ctx.offset = false
  checked : headerChecksum img ctx.offset = true
  size_le : u64 (ctx.offset + sizeField img ctx.offset + 512) ≤ img.size

variable {img}

theorem Accepts.nextFile (h : Accepts img ctx) : nextFile img ctx =
    (.ok ⟨ctx.offset, sizeField img ctx.offset, fileType (img.mem.getD (ctx.offset + 156) 0)⟩,
      { ctx with offset := u64 (ctx.offset + 512 + align512 (sizeField img ctx.offset)) }) := by
  obtain ⟨⟨heof, hroom⟩, hname, hsum, hsize⟩ := h
  rw [Untar.nextFile, if_neg (by simp [heof]), if_neg (by omega), if_neg (by simp [hname]),
    if_neg (by simp [hsum]), if_neg (by omega)]

theorem nextFile_refused (h : ¬Accepts img ctx) : ∃ e, (nextFile img ctx).1 = .error e ∧
    ((nextFile img ctx).2.eof ∨ (nextFile img ctx).2 = ctx) := by
  unfold nextFile
  by_cases heof : ctx.eof
  · rw [if_pos heof]
    exact ⟨_, rfl, .inr rfl⟩
  rw [if_neg heof]
  by_cases hroom : subU64 img.size ctx.offset < 512
  · rw [if_pos hroom]
    exact ⟨_, rfl, .inl rfl⟩
  rw [if_neg hroom]
  by_cases hname : headerIsBlank img ctx.offset
  · rw [if_pos hname]
    exact ⟨_, rfl, .inl rfl⟩
  rw [if_neg hname]
  by_cases hsum : headerChecksum img ctx.offset
  · have hsize : u64 (ctx.offset + sizeField img ctx.offset + 512) > img.size :=
      not_le.mp fun hsize =>
        h ⟨⟨by simpa using heof, not_lt.mp hroom⟩, by simpa using hname, hsum, hsize⟩
    rw [if_neg (not_not.mpr hsum), if_pos hsize]
    exact ⟨_, rfl, .inr rfl⟩
  · rw [if_pos hsum]
    exact ⟨_, rfl, .inr rfl⟩

theorem accepts_of_ok {file : Record} (h : (nextFile img ctx).1 = .ok file) : Accepts img ctx := by
  by_contra hno
  obtain ⟨e, he, -⟩ := nextFile_refused hno
  rw [he] at h
  cases h

theorem after_succ (n : Nat) : after img (n + 1) = (nextFile img (after img n)).2 :=
  Function.iterate_succ_apply' _ _ _

/-! ### Inside the image -/

variable (img)

def InImage (ctx : Ctx) : Prop := (Examines img ctx → ctx.offset + 512 ≤ img.size) ∧
    ∀ file, (nextFile img ctx).1 = .ok file → file.header + 512 + file.size ≤ img.size

/-- The end of an accepted file does not wrap around, and the padding behind it ends in the
image. -/
def Fits (ctx : Ctx) : Prop :=
  Accepts img ctx → ctx.offset + 512 + sizeField img ctx.offset < 2 ^ 64 ∧
    u64 (ctx.offset + 512 + align512 (sizeField img ctx.offset)) ≤ img.size

variable {img}

theorem after_le (h : ∀ n, Fits img (after img n)) (n : Nat) :
    (after img n).eof ∨ (after img n).offset ≤ img.size := by
  induction n with
  | zero => exact .inr (Nat.zero_le _)
  | succ n ih =>
    rw [after_succ]
    by_cases hacc : Accepts img (after img n)
    · rw [hacc.nextFile]
      exact .inr (h n hacc).2
    · obtain ⟨-, -, heof | hsame⟩ := nextFile_refused hacc
      · exact .inl heof
      · rwa [hsame]

theorem files_in_image_iff (img : Image) :
    (∀ n, InImage img (after img n)) ↔ ∀ n, Fits img (after img n) := by
  constructor
  · intro h n hacc
    have hfile := (h n).2 _ (congrArg Prod.fst hacc.nextFile)
    refine ⟨hfile.trans_lt img.size_lt, not_lt.mp fun hout => ?_⟩
    have hnext := (h (n + 1)).1
    rw [after_succ, hacc.nextFile] at hnext
    have hend : u64 ((after img n).offset + 512 + align512 (sizeField img (after img n).offset)) <
        img.size + 512 := by
      dsimp only at hfile
      unfold u64 align512 u64
      omega
    have hin := hnext ⟨hacc.examines.1, by dsimp only; unfold subU64; omega⟩
    dsimp only at hin
    omega
  · intro h n
    constructor
    · intro hex
      have hroom := hex.2
      have hle := (after_le h n).resolve_left (by simp [hex.1])
      rw [subU64_of_le hle img.size_lt] at hroom
      omega
    · intro file hfile
      have hacc := accepts_of_ok hfile
      rw [hacc.nextFile] at hfile
      obtain rfl := Except.ok.inj hfile
      have hsize := hacc.size_le
      rwa [Nat.add_right_comm, u64_of_lt (h n hacc).1] at hsize

/-- An image without padding: one file of one byte. -/
def unpadded : Image where
  mem := List.replicate 124 0 ++ ascii "1" ++ List.replicate 23 0 ++ ascii "461" ++
    List.replicate 362 0
  size := 513
  size_lt := by decide

/-- The second header is examined 511 bytes behind the end of the image. -/
theorem header_behind_image : ¬InImage unpadded (after unpadded 1) := by
  intro h
  have hin := h.1 ⟨by decide +kernel, by decide +kernel⟩
  revert hin
  decide +kernel

/-! ### Progress -/

/-- The next header is below `2 ^ 64`, without reduction. -/
def Forward (img : Image) (ctx : Ctx) : Prop :=
  Accepts img ctx → ctx.offset + 512 + align512 (sizeField img ctx.offset) < 2 ^ 64

theorem forward_iff : Forward img ctx ↔
    ∀ file, (nextFile img ctx).1 = .ok file → ctx.offset < (nextFile img ctx).2.offset := by
  constructor
  · intro h file hfile
    have hlt := h (accepts_of_ok hfile)
    rw [(accepts_of_ok hfile).nextFile]
    dsimp only
    rw [u64_of_lt hlt]
    omega
  · intro h hacc
    have hmore := h _ (congrArg Prod.fst hacc.nextFile)
    rw [hacc.nextFile] at hmore
    dsimp only at hmore
    have hstep : 512 + align512 (sizeField img ctx.offset) ≤ 2 ^ 64 := by
      unfold align512 u64
      omega
    unfold u64 at hmore
    omega

theorem isSome_parseFiles (h : ∀ n, Forward img (after img n)) (fuel n : Nat) (f : Found)
    (hfuel : 2 ^ 64 - (after img n).offset < fuel) :
    (parseFiles img fuel (after img n) f).isSome := by
  induction fuel generalizing n f with
  | zero => exact absurd hfuel (Nat.not_lt_zero _)
  | succ fuel ih =>
    rw [parseFiles]
    by_cases hacc : Accepts img (after img n)
    · have hlt := h n hacc
      have hnext : after img (n + 1) = { after img n with
          offset := (after img n).offset + 512 +
            align512 (sizeField img (after img n).offset) } := by
        rw [after_succ, hacc.nextFile, u64_of_lt hlt]
      rw [hacc.nextFile, u64_of_lt hlt, ← hnext]
      dsimp only
      split
      · rfl
      · refine ih (n + 1) _ ?_
        rw [hnext]
        dsimp only
        omega
    · obtain ⟨e, he, -⟩ := nextFile_refused hacc
      rw [← Prod.mk.eta (p := nextFile img (after img n)), he]
      rfl

theorem scan_ends_iff (img : Image) : ((∀ n file, (nextFile img (after img n)).1 = .ok file →
        (after img n).offset < (after img (n + 1)).offset) ∧
        ∃ fuel, (parseTarImage img fuel).isSome) ↔ ∀ n, Forward img (after img n) := by
  constructor
  · intro h n
    refine forward_iff.mpr ?_
    rw [← after_succ]
    exact h.1 n
  · intro h
    refine ⟨fun n => ?_, 2 ^ 64 + 1, isSome_parseFiles h _ 0 _ (by omega)⟩
    rw [after_succ]
    exact forward_iff.mp (h n)

/-- A file whose size is `2 ^ 64 - 512`, with ten of its digits in the next field. -/
def endless : Image where
  mem := List.replicate 124 0 ++ ascii "1777777777777777777000" ++ [0, 0] ++
    ascii "2637" ++ List.replicate 360 0
  size := 512
  size_lt := by decide

theorem nextFile_endless :
    nextFile endless ⟨0, false⟩ = (.ok ⟨0, 2 ^ 64 - 512, .regular⟩, ⟨0, false⟩) := by
  have hacc : Accepts endless ⟨0, false⟩ :=
    ⟨⟨rfl, by decide⟩, by decide +kernel, by decide +kernel, by decide +kernel⟩
  have hsize : sizeField endless 0 = 2 ^ 64 - 512 := by decide +kernel
  rw [hacc.nextFile, hsize]
  rfl

/-- The call leaves the offset as it is, and the loop returns the file again and again. -/
theorem scan_stays : (∃ file, (nextFile endless (after endless 0)).1 = .ok file ∧
      ¬(after endless 0).offset < (after endless 1).offset) ∧
      ∀ fuel, parseTarImage endless fuel = none := by
  refine ⟨⟨_, congrArg Prod.fst nextFile_endless, ?_⟩, fun fuel => ?_⟩
  · rw [after_succ, show after endless 0 = ⟨0, false⟩ from rfl, nextFile_endless]
    exact lt_irrefl 0
  · induction fuel with
    | zero => rfl
    | succ fuel ih =>
      rw [parseTarImage, parseFiles, nextFile_endless]
      exact ih

end MtkBoot.Untar
