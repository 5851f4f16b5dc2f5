import MtkBoot.Http.Session

/-! Requests, the ways to cut them into segments, and how a session collects the header. -/

namespace MtkBoot.Http

open Lib List

variable {cs : List Str} {n : Nat}

/-! ### Requests and their segments -/

def lower (c : UInt8) : UInt8 := if 0x41 ≤ c ∧ c ≤ 0x5a then c + 0x20 else c

/-- What is behind the name of the first `Content-Length` field; a name may be in upper or lower
case. -/
def lengthField : Str → Option Str
  | [] => none
  | c :: s =>
    if crlf <+: c :: s ∧ ascii "content-length:" <+: (s.drop 1).map lower then some (s.drop 16)
    else lengthField s

/-- The length of the body that belongs to a header. -/
def bodyLength (hdr : Str) : Nat :=
  let digits := (((lengthField hdr).getD []).dropWhile fun c => c = 0x20 ∨ c = 0x09).takeWhile
    fun c => 0x30 ≤ c ∧ c ≤ 0x39
  if ascii "POST " <+: hdr then digits.foldl (fun n c => n * 10 + (c.toNat - 0x30)) 0 else 0

/-- What the server takes from a header. -/
structure Head where
  method : Method
  uri : Str
  boundary : Option Str
  length : Nat
  deriving DecidableEq, Repr

def headOf (hdr : Str) : Option Head :=
  if 0 ∈ hdr then none
  else
    match requestLine (hdr.take (hdr.length - 4)) with
    | .error _ => none
    | .ok (.get, uri, _) => some ⟨.get, uri, none, 0⟩
    | .ok (.post, uri, fields) =>
      match contentType fields with
      | .error _ => none
      | .ok boundary =>
        some ⟨.post, uri, boundary, ((contentLength fields).map simpleStrtoul).getD 0⟩

/-- A complete request: the first empty line ends the header, and the body has the length that the
header announces. -/
structure Request (hdr body : Str) : Prop where
  short : hdr.length ≤ 4095
  ends : findSub crlfcrlf hdr = some (hdr.length - 4)
  body : body.length = bodyLength hdr

/-- A way to cut a byte string into segments; the length of a segment is a 32-bit number. -/
structure Cut (cs : List Str) (r : Str) : Prop where
  flatten : cs.flatten = r
  segments : ∀ d ∈ cs, d ≠ [] ∧ d.length < 2 ^ 32

def deliver : List Str → Shared → Session → Option (Shared × Session)
  | [], g, s => some (g, s)
  | d :: cs, g, s =>
    match rx d g s with
    | none => none
    | some (g, s) => deliver cs g s

structure Outcome where
  method : Method
  uri : Str
  boundary : Option Str
  payloadSize : Nat
  payload : Str
  deriving DecidableEq, Repr

/-- The request that a new session has received after the segments, when no other session
uploads. -/
def outcome (ram : Mem) (cs : List Str) : Option Outcome :=
  match deliver cs ⟨false, ram⟩ {} with
  | none => none
  | some (g, s) =>
    if s.status = .fullRcvd then
      some ⟨s.method, s.uri, s.boundary, s.payloadSize, uploaded g s s.payloadSize⟩
    else none

/-- The requests and segments that are put together right.  The number behind the first
`Content-Length:`, spelled so and found anywhere in the fields, is the length of the body.  And
there is no payload, or the session's buffer has room for it, or the whole header comes in the first
segment. -/
def Fits (hdr body : Str) (cs : List Str) : Prop :=
  ∃ h, headOf hdr = some h ∧ u32 h.length = bodyLength hdr ∧
    (h.method = .get ∨ hdr.length + body.length < bufSize ∨
      hdr.length ≤ (cs.headD []).length ∧ hdr.length + body.length < 2 ^ 32)

theorem deliver_append (cs cs' : List Str) (g : Shared) (s : Session) :
    deliver (cs ++ cs') g s = (deliver cs g s).bind fun p => deliver cs' p.1 p.2 := by
  induction cs generalizing g s with
  | nil => rfl
  | cons d cs ih =>
    rw [cons_append, deliver, deliver]
    cases rx d g s with
    | none => rfl
    | some p => exact ih p.1 p.2

theorem exists_split (hn : 0 < n) (h : n ≤ cs.flatten.length) : ∃ pre d post, cs =
    pre ++ d :: post ∧ pre.flatten.length < n ∧ n ≤ pre.flatten.length + d.length := by
  induction cs generalizing n with
  | nil =>
    simp only [flatten_nil, length_nil] at h
    omega
  | cons c cs ih =>
    rw [flatten_cons, length_append] at h
    by_cases hc : n ≤ c.length
    · exact ⟨[], c, cs, rfl, by simpa using hn, by simpa using hc⟩
    · obtain ⟨pre, d, post, rfl, hlt, hle⟩ := ih (show 0 < n - c.length by omega) (by omega)
      refine ⟨c :: pre, d, post, rfl, ?_, ?_⟩ <;> simp only [flatten_cons, length_append] <;> omega

/-! ### Receiving the header -/

/-- The session has the bytes `pre` of a header that is not complete. -/
structure Collecting (pre : Str) (g : Shared) (s : Session) : Prop where
  status : s.status = .new ∨ s.status = .headerRecving
  size : s.bufsize = pre.length
  bytes : bytesAt s.buf 0 pre.length = pre
  idle : g.isUploading = false
  payloadSize : s.payloadSize = 0
  boundary : s.boundary = none
  ptr : s.uploadPtr = none

section Header

variable {pre d : Str} {g : Shared} {s : Session}

theorem cache_size (h : s.bufsize = pre.length) (hpre : pre.length ≤ 4095) :
    (s.cache d).bufsize = min (pre.length + d.length) 4095 := by
  simp only [Session.cache, bufSize, h]
  omega

theorem cache_bytes (h : s.bufsize = pre.length) (hpre : pre.length ≤ 4095)
    (hbytes : bytesAt s.buf 0 pre.length = pre) :
    bytesAt (s.cache d).buf 0 (s.cache d).bufsize = (pre ++ d).take 4095 := by
  generalize hn : min d.length (4095 - pre.length) = n
  have hlen : (d.take n).length = n := by
    rw [length_take]
    omega
  have htake : (pre ++ d).take 4095 = pre ++ d.take n := by
    rw [take_append, take_of_length_le (show pre.length ≤ 4095 by omega), ← hn,
      min_comm, ← take_take, take_length]
  have hcache : s.cache d = { s with
      buf := Function.update (putBytes s.buf pre.length (d.take n)) (pre.length + n) 0
      bufsize := pre.length + n } := by
    simp only [Session.cache, bufSize, h,
      show 4096 - pre.length - 1 = 4095 - pre.length by omega, hn]
  have hkeep :
      ∀ x < pre.length + n, (s.cache d).buf x = putBytes s.buf pre.length (d.take n) x := by
    intro x hx
    rw [hcache]
    exact Function.update_of_ne (ne_of_lt hx) _ _
  have hold : bytesAt (s.cache d).buf 0 pre.length = pre := by
    refine (bytesAt_congr fun i hi => ?_).trans hbytes
    rw [hkeep _ (by omega), putBytes_outside (.inl (by omega))]
  have hnew : bytesAt (s.cache d).buf (0 + pre.length) n = d.take n := by
    have hput := bytesAt_putBytes s.buf pre.length (d.take n)
    rw [hlen] at hput
    refine (bytesAt_congr fun i hi => ?_).trans hput
    rw [zero_add, hkeep _ (by omega)]
  have hsize : (s.cache d).bufsize = pre.length + n := by rw [hcache]
  rw [hsize, bytesAt_add, hold, hnew, htake]

section

variable (h : Collecting pre g s)
include h

theorem Collecting.begin : s.begin.status = .headerRecving ∧ Collecting pre g s.begin := by
  rcases h.status with hs | hs
  · rw [Session.begin, if_pos hs]
    exact ⟨rfl, .inr rfl, h.size, h.bytes, h.idle, h.payloadSize, h.boundary, h.ptr⟩
  · rw [Session.begin, if_neg (by rw [hs]; decide)]
    exact ⟨hs, h⟩

theorem Collecting.rx_eq (d : Str) : rx d g s = (recvHdr d g s.begin).bind (continueRx d) := by
  simp only [rx, h.begin.1, if_true]

theorem Collecting.recvHdr_none (hpre : pre.length ≤ 4095)
    (hfind : findSub crlfcrlf (cstr ((pre ++ d).take 4095)) = none) : recvHdr d g s = some (true, g,
      if pre.length + d.length ≤ 4095 then s.cache d else stdErrResponse 413 (s.cache d)) := by
  have hcond : ((s.cache d).bufsize = s.bufsize + d.length) = (pre.length + d.length ≤ 4095) := by
    rw [cache_size h.size hpre, h.size]
    apply propext
    omega
  simp only [recvHdr, cache_bytes h.size hpre h.bytes, hfind, hcond]
  split <;> rfl

end

theorem cstr_eq_take (l : Str) : cstr l = l.take (cstr l).length :=
  (prefix_iff_eq_take.mp (List.takeWhile_prefix _))

variable {hdr : Str}

theorem Collecting.cache (h : Collecting pre g s) (hstatus : s.status = .headerRecving)
    (hlen : pre.length + d.length ≤ 4095) : Collecting (pre ++ d) g (s.cache d) := by
  have hsize : (s.cache d).bufsize = (pre ++ d).length := by
    rw [cache_size h.size (by omega), length_append]
    omega
  refine ⟨.inr hstatus, hsize, ?_, h.idle, h.payloadSize, h.boundary, h.ptr⟩
  have hbytes : bytesAt (s.cache d).buf 0 (s.cache d).bufsize = _ :=
    cache_bytes h.size (show pre.length ≤ 4095 by omega) h.bytes
  rwa [hsize, take_of_length_le (by rw [length_append]; omega)] at hbytes

theorem Collecting.more (h : Collecting pre g s)
    (hends : findSub crlfcrlf hdr = some (hdr.length - 4))
    (hshort : hdr.length ≤ 4095) (hpre : pre ++ d = hdr.take (pre.length + d.length))
    (hlt : pre.length + d.length < hdr.length) :
    ∃ s', rx d g s = some (g, s') ∧ Collecting (pre ++ d) g s' := by
  have hnone : findSub crlfcrlf (cstr ((pre ++ d).take 4095)) = none := by
    rw [take_of_length_le (by rw [length_append]; omega), hpre, cstr_eq_take, take_take]
    refine findSub_take hends ?_
    simp only [crlfcrlf, length_cons, length_nil]
    omega
  obtain ⟨hstatus, hbegin⟩ := h.begin
  refine ⟨s.begin.cache d, ?_, hbegin.cache hstatus (by omega)⟩
  rw [h.rx_eq, hbegin.recvHdr_none (by omega) hnone, if_pos (by omega)]
  rfl

theorem Collecting.deliver (hends : findSub crlfcrlf hdr = some (hdr.length - 4))
    (hshort : hdr.length ≤ 4095) : ∀ {pre : Str} {s : Session}, Collecting pre g s →
      pre ++ cs.flatten <+: hdr → (pre ++ cs.flatten).length < hdr.length →
      ∃ s', Http.deliver cs g s = some (g, s') ∧ Collecting (pre ++ cs.flatten) g s' := by
  induction cs with
  | nil =>
    intro pre s h _ _
    exact ⟨s, rfl, by simpa using h⟩
  | cons d cs ih =>
    intro pre s h hpre hlt
    rw [flatten_cons, ← append_assoc] at hpre hlt
    have hd : pre ++ d = hdr.take (pre.length + d.length) := by
      rw [← length_append]
      exact prefix_iff_eq_take.mp ((prefix_append _ _).trans hpre)
    have hlen : pre.length + d.length < hdr.length := by
      simp only [length_append] at hlt
      omega
    obtain ⟨s', hrx, h'⟩ := h.more hends hshort hd hlen
    obtain ⟨s'', hdeliver, h''⟩ := ih h' hpre hlt
    refine ⟨s'', ?_, by rwa [flatten_cons, ← append_assoc]⟩
    simp only [Http.deliver, hrx, hdeliver]

theorem collecting_new (ram : Mem) : Collecting [] ⟨false, ram⟩ {} :=
  ⟨.inl rfl, rfl, rfl, rfl, rfl, rfl, rfl⟩

theorem Collecting.last (h : Collecting pre g s)
    (hends : findSub crlfcrlf hdr = some (hdr.length - 4))
    (hshort : hdr.length ≤ 4095) (hzero : 0 ∉ hdr) {body : Str} (hpre : pre.length ≤ 4095)
    (hd : pre ++ d = hdr ++ body) : rx d g s =
    (parseHdr (hdr.take (hdr.length - 4)) d g (s.begin.cache d)).bind (continueRx d) := by
  have htext : cstr ((pre ++ d).take 4095) = hdr ++ cstr (body.take (4095 - hdr.length)) := by
    rw [hd, take_append, take_of_length_le hshort, cstr_append hzero]
  rw [h.rx_eq]
  simp only [recvHdr, cache_bytes h.begin.2.size hpre h.begin.2.bytes, htext, findSub_append hends,
    take_append_of_le_length (Nat.sub_le _ _)]

end Header

end MtkBoot.Http
