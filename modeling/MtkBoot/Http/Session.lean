import MtkBoot.Lib.Bytes
import MtkBoot.Lib.Strings

/-! The receiving side of the HTTP server: one session, the segments that TCP delivers to it, and
what it shares with the other sessions. -/

namespace MtkBoot.Http

open Lib

def crlf : Str := [0x0d, 0x0a]

def crlfcrlf : Str := [0x0d, 0x0a, 0x0d, 0x0a]

inductive Method where
  | get
  | post
  deriving DecidableEq, Repr

def simpleStrtoul (s : Str) : Nat := (strtoul 10 s).1

/-- The method, the URI without its query, and the fields of a header. -/
def requestLine (h : Str) : Except Nat (Method × Str × Str) :=
  match findSub crlf h with
  | none => .error 400
  | some i =>
    let line := h.take i
    let fields := h.drop (i + 2)
    match findSub [0x20] line with
    | none => .error 400
    | some j =>
      let rest := line.drop (j + 1)
      let parsed : Option Method :=
        if line.take j = ascii "GET" then some .get
        else if line.take j = ascii "POST" then some .post
        else none
      match parsed with
      | none => .error 405
      | some method =>
        match findSub [0x20] rest with
        | none => .error 400
        | some k => .ok (method, (rest.take k).takeWhile (· ≠ 0x3f), fields)

def contentLength (fields : Str) : Option Str :=
  (findSub (ascii "Content-Length:") fields).map fun i =>
    (fields.drop (i + 15)).dropWhile (· = 0x20)

theorem payloadSize_lt (fields : Str) {n : Nat} (h : n < 2 ^ 32) :
    ((contentLength fields).map fun c => u32 (simpleStrtoul c)).getD n < 2 ^ 32 := by
  cases contentLength fields with
  | none => exact h
  | some c => exact u32_lt _

/-- The boundary in the `Content-Type` field; the field must have one. -/
def contentType (fields : Str) : Except Nat (Option Str) :=
  match findSub (ascii "Content-Type:") fields with
  | none => .ok none
  | some i =>
    let ct := fields.drop i
    let ct := ct.take ((findSub crlf ct).getD ct.length)
    match findSub (ascii "boundary=") ct with
    | none => .error 400
    | some k =>
      let b := ct.drop (k + 9)
      .ok (some (if b.head? = some 0x22 then (b.drop 1).takeWhile (· ≠ 0x22)
        else b.takeWhile (· ≠ 0x0d)))

inductive Status where
  | new
  | headerRecving
  | payloadRecving
  | fullRcvd
  | responding
  | closing
  deriving DecidableEq, Repr

/-- Where a payload goes: into the buffer of the session, from an offset on, or into the RAM region
that all sessions share. -/
inductive Ptr where
  | buf (off : Nat)
  | ram
  deriving DecidableEq, Repr

def bufSize : Nat := 4096

/-- `struct httpd_mtk_tcp_pdata`; a new session is zeroed. -/
structure Session where
  status : Status := .new
  buf : Mem := fun _ => 0
  bufsize : Nat := 0
  method : Method := .get
  uri : Str := []
  boundary : Option Str := none
  isUploading : Bool := false
  uploadPtr : Option Ptr := none
  payloadSize : Nat := 0
  uploadSize : Nat := 0
  respCode : Nat := 0

/-- The flag `is_uploading` and the RAM region from `httpd_get_upload_buffer_ptr` on. -/
structure Shared where
  isUploading : Bool
  ram : Mem

def stdErrResponse (code : Nat) (s : Session) : Session :=
  { s with status := .responding, respCode := code }

/-- Copying to `upload_ptr + off`; outside of the buffer there is no telling what happens. -/
def store (off : Nat) (bytes : Bytes) (g : Shared) (s : Session) : Option (Shared × Session) :=
  match s.uploadPtr with
  | none => none
  | some (.buf base) =>
    if base + off + bytes.length ≤ bufSize then
      some (g, { s with buf := putBytes s.buf (base + off) bytes })
    else none
  | some .ram => some ({ g with ram := putBytes g.ram off bytes }, s)

theorem store_eq {off : Nat} {bytes : Bytes} {g g' : Shared} {s s' : Session}
    (h : store off bytes g s = some (g', s')) :
    s' = { s with buf := s'.buf } ∧ g' = { g with ram := g'.ram } := by
  unfold store at h
  split at h
  · cases h
  · split at h
    · cases h
      exact ⟨rfl, rfl⟩
    · cases h
  · cases h
    exact ⟨rfl, rfl⟩

/-- The end of `httpd_recv_hdr` for a POST request.  The flag says that there is nothing to do until
the next segment. -/
def finishHdr (g : Shared) (s : Session) : Option (Bool × Shared × Session) :=
  if s.uploadSize = s.payloadSize then
    match store s.payloadSize [0] g s with
    | none => none
    | some (g, s) => some (false, g, { s with status := .fullRcvd, method := .post })
  else
    some (true, { g with isUploading := true },
      { s with status := .payloadRecving, isUploading := true, method := .post })

/-- Where the payload goes, and the part of it that has arrived with the header. -/
def startUpload (hdrSize : Nat) (data : Bytes) (g : Shared) (s : Session) :
    Option (Bool × Shared × Session) :=
  if u32 (hdrSize + s.payloadSize) < bufSize then
    finishHdr g { s with uploadPtr := some (.buf hdrSize), uploadSize := subU32 s.bufsize hdrSize }
  else if g.isUploading then some (true, g, s)
  else
    let uploadSize := subU32 data.length hdrSize
    -- the copy reads from the segment
    if data.length < hdrSize + uploadSize then none
    else
      finishHdr { g with ram := putBytes g.ram 0 ((data.drop hdrSize).take uploadSize) }
        { s with uploadPtr := some .ram, uploadSize }

/-- The part of `httpd_recv_hdr` after the end of the header was found. -/
def parseHdr (h : Str) (data : Bytes) (g : Shared) (s : Session) :
    Option (Bool × Shared × Session) :=
  match requestLine h with
  | .error code => some (true, g, stdErrResponse code s)
  | .ok (.get, uri, _) => some (false, g, { s with uri, status := .fullRcvd, method := .get })
  | .ok (.post, uri, fields) =>
    let payloadSize :=
      ((contentLength fields).map fun c => u32 (simpleStrtoul c)).getD s.payloadSize
    let s := { s with uri, payloadSize }
    match contentType fields with
    | .error code => some (true, g, stdErrResponse code s)
    | .ok boundary =>
      startUpload (h.length + 4) data g { s with boundary := boundary.or s.boundary }

/-- The bytes of the segment go into the buffer, as far as there is room, and a zero after them. -/
def Session.cache (s : Session) (data : Bytes) : Session :=
  let sizeRcvd := min data.length (bufSize - s.bufsize - 1)
  { s with
    buf := Function.update (putBytes s.buf s.bufsize (data.take sizeRcvd)) (s.bufsize + sizeRcvd) 0
    bufsize := s.bufsize + sizeRcvd }

def recvHdr (data : Bytes) (g : Shared) (s : Session) : Option (Bool × Shared × Session) :=
  let t := s.cache data
  let text := cstr (bytesAt t.buf 0 t.bufsize)
  match findSub crlfcrlf text with
  | some i => parseHdr (text.take i) data g t
  | none =>
    if t.bufsize = s.bufsize + data.length then some (true, g, t)
    else some (true, g, stdErrResponse 413 t)

def Session.advance (s : Session) (n : Nat) : Session :=
  { s with uploadSize := u32 (s.uploadSize + n) }

def finishPayload (g : Shared) (s : Session) : Option (Bool × Shared × Session) :=
  if s.uploadSize = s.payloadSize then
    match store s.payloadSize [0] g s with
    | none => none
    | some (g, s) =>
      some (false, { g with isUploading := false },
        { s with status := .fullRcvd, isUploading := false })
  else some (true, g, s)

def recvPayload (data : Bytes) (g : Shared) (s : Session) : Option (Bool × Shared × Session) :=
  let sizeRecv := min (subU32 s.payloadSize s.uploadSize) data.length
  match store s.uploadSize (data.take sizeRecv) g s with
  | none => none
  | some (g, s) => finishPayload g (s.advance sizeRecv)

def Session.begin (s : Session) : Session :=
  if s.status = .new then { s with status := .headerRecving } else s

def continueRx (data : Bytes) : Bool × Shared × Session → Option (Shared × Session)
  | (true, g, s) => some (g, s)
  | (false, g, s) =>
    if s.status = .payloadRecving then (recvPayload data g s).map (·.2) else some (g, s)

/-- `httpd_rx` up to the point where the request is complete; what it then does is left to
`httpd_handle_request`. -/
def rx (data : Bytes) (g : Shared) (s : Session) : Option (Shared × Session) :=
  let s := s.begin
  (if s.status = .headerRecving then recvHdr data g s else some (false, g, s)).bind
    (continueRx data)

def uploaded (g : Shared) (s : Session) (n : Nat) : Bytes :=
  match s.uploadPtr with
  | none => []
  | some (.buf off) => bytesAt s.buf off n
  | some .ram => bytesAt g.ram 0 n

end MtkBoot.Http
