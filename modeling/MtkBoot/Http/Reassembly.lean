import MtkBoot.Http.Header
import Mathlib.Data.List.TakeWhile

/-! How the payload of a request is put together, and for which requests and which segments the
result is the request. -/

namespace MtkBoot.Http

open Lib List Option

variable {body d hdr pre rest : Str} {cs : List Str} {g g' : Shared} {h : Head} {n : Nat}
  {s s' : Session}

/-! ### Storing the payload -/

/-- `upload_ptr` leads to room for `n` bytes and a zero. -/
def Room (s : Session) (n : Nat) : Prop :=
  s.uploadPtr = some .ram ∨ ∃ base, s.uploadPtr = some (.buf base) ∧ base + n < bufSize

structure Kept (s s' : Session) : Prop where
  method : s'.method = s.method
  uri : s'.uri = s.uri
  boundary : s'.boundary = s.boundary
  payloadSize : s'.payloadSize = s.payloadSize
  ptr : s'.uploadPtr = s.uploadPtr

theorem Kept.trans {s'' : Session} (h : Kept s s') (h' : Kept s' s'') : Kept s s'' :=
  ⟨h'.method.trans h.method, h'.uri.trans h.uri, h'.boundary.trans h.boundary,
    h'.payloadSize.trans h.payloadSize, h'.ptr.trans h.ptr⟩

section Store

variable {off : Nat} {bytes : Bytes}

theorem store_cases (h : store off bytes g s = some (g', s')) : Kept s s' ∧ s'.uploadSize =
    s.uploadSize ∧ s'.status = s.status ∧ (∀ m ≤ off, uploaded g' s' m = uploaded g s m) ∧
      uploaded g' s' (off + bytes.length) = uploaded g s off ++ bytes ∧
      ∀ base, s.uploadPtr = some (.buf base) → base + off + bytes.length ≤ bufSize := by
  unfold store at h
  split at h
  · cases h
  · rename_i base hptr
    split at h
    · rename_i hle
      cases h
      refine ⟨⟨rfl, rfl, rfl, rfl, rfl⟩, rfl, rfl, ?_, ?_, ?_⟩
      · intro m hm
        simp only [uploaded, hptr]
        exact bytesAt_congr fun i hi => putBytes_outside (.inl (by omega))
      · simp only [uploaded, hptr, bytesAt_add, bytesAt_putBytes]
        congr 1
        exact bytesAt_congr fun i hi => putBytes_outside (.inl (by omega))
      · intro base' hbase
        cases hptr.symm.trans hbase
        exact hle
    · cases h
  · rename_i hptr
    cases h
    refine ⟨⟨rfl, rfl, rfl, rfl, rfl⟩, rfl, rfl, ?_, ?_, ?_⟩
    · intro m hm
      simp only [uploaded, hptr]
      exact bytesAt_congr fun i hi => putBytes_outside (.inl (by omega))
    · simp only [uploaded, hptr, bytesAt_add, zero_add, bytesAt_putBytes]
      congr 1
      exact bytesAt_congr fun i hi => putBytes_outside (.inl (by omega))
    · intro base hbase
      cases hptr.symm.trans hbase

theorem exists_store (h : Room s n) (hle : off + bytes.length ≤ n + 1) :
    ∃ g' s', store off bytes g s = some (g', s') := by
  rcases h with hptr | ⟨base, hptr, hlt⟩
  · exact ⟨{ g with ram := putBytes g.ram off bytes }, s, by simp only [store, hptr]⟩
  · refine ⟨g, { s with buf := putBytes s.buf (base + off) bytes }, ?_⟩
    simp only [store, hptr]
    exact if_pos (by omega)

theorem Room.kept (h : Room s n) (hkept : Kept s s') : Room s' n := by
  rcases h with hptr | ⟨base, hptr, hlt⟩
  · exact .inl (hkept.ptr.trans hptr)
  · exact .inr ⟨base, hkept.ptr.trans hptr, hlt⟩

end Store

/-! ### Receiving the payload -/

/-- The session has the first `uploadSize` bytes of a body and waits for the others. -/
structure Uploading (body : Str) (g : Shared) (s : Session) : Prop where
  status : s.status = .payloadRecving
  room : Room s body.length
  payloadSize : s.payloadSize = body.length
  small : body.length < 2 ^ 32
  more : s.uploadSize < body.length
  bytes : uploaded g s s.uploadSize = body.take s.uploadSize

structure Full (body : Str) (g : Shared) (s : Session) : Prop where
  status : s.status = .fullRcvd
  payloadSize : s.payloadSize = body.length
  bytes : uploaded g s body.length = body

theorem rx_payload (hs : s.status = .payloadRecving) (d : Str) :
    rx d g s = (recvPayload d g s).map (·.2) := by
  have hbegin : s.begin = s := if_neg (by rw [hs]; decide)
  simp only [rx, hbegin, hs, reduceCtorEq, if_false, bind_some, continueRx, if_true]

theorem rx_settled (hs : s.status = .fullRcvd ∨ s.status = .responding) (d : Str) :
    rx d g s = some (g, s) := by
  rcases hs with hs | hs <;>
  · have hbegin : s.begin = s := if_neg (by rw [hs]; decide)
    simp only [rx, hbegin, hs, reduceCtorEq, if_false, bind_some, continueRx]

theorem flatten_eq_nil (hne : ∀ d ∈ cs, d ≠ []) (h : cs.flatten = []) : cs = [] := by
  cases cs with
  | nil => rfl
  | cons d cs =>
    rw [flatten_cons, append_eq_nil_iff] at h
    exact absurd h.1 (hne d (by simp))

theorem finishPayload_full (hroom : Room s body.length) (hsize : s.payloadSize = body.length)
    (hupl : s.uploadSize = body.length) (hbytes : uploaded g s body.length = body) :
    ∃ g' s', finishPayload g s = some (false, g', s') ∧ Kept s s' ∧ Full body g' s' := by
  obtain ⟨g1, s1, hstore⟩ := exists_store (g := g) hroom
    (show body.length + [(0 : UInt8)].length ≤ body.length + 1 from le_rfl)
  obtain ⟨hkept, -, -, hbefore, -, -⟩ := store_cases hstore
  refine ⟨{ g1 with isUploading := false },
    { s1 with status := .fullRcvd, isUploading := false }, ?_, ?_, ?_⟩
  · simp only [finishPayload, hupl, hsize, if_true, hstore]
  · exact { hkept with }
  · exact ⟨rfl, hkept.payloadSize.trans hsize, (hbefore _ le_rfl).trans hbytes⟩

theorem Uploading.step (h : Uploading body g s) (hd : body.drop s.uploadSize = d ++ rest) :
    ∃ g' s', rx d g s = some (g', s') ∧ Kept s s' ∧
      (Uploading body g' s' ∧ body.drop s'.uploadSize = rest ∨ rest = [] ∧ Full body g' s') := by
  have hmore := h.more
  have hsmall := h.small
  have hlen : s.uploadSize + d.length + rest.length = body.length := by
    have := congrArg length hd
    rw [length_drop, length_append] at this
    omega
  have hsize : min (subU32 s.payloadSize s.uploadSize) d.length = d.length := by
    rw [h.payloadSize, subU32_of_le hmore.le hsmall]
    omega
  obtain ⟨g1, s1, hstore⟩ :=
    exists_store (g := g) h.room (show s.uploadSize + d.length ≤ _ by omega)
  obtain ⟨hkept, hupl, hst, -, hafter, -⟩ := store_cases hstore
  have hkept' : Kept s (s1.advance d.length) := { hkept with }
  have hnext : (s1.advance d.length).uploadSize = s.uploadSize + d.length := by
    rw [Session.advance, hupl, u32_of_lt (by omega)]
  have hbytes : uploaded g1 (s1.advance d.length) (s.uploadSize + d.length) =
      body.take (s.uploadSize + d.length) := by
    refine Eq.trans hafter ?_
    rw [h.bytes, take_add, hd, take_left]
  have hpayload : (s1.advance d.length).payloadSize = body.length :=
    hkept'.payloadSize.trans h.payloadSize
  rw [rx_payload h.status, recvPayload, hsize, take_length, hstore]
  by_cases hall : s.uploadSize + d.length = body.length
  · rw [hall, take_length] at hbytes
    obtain ⟨g2, s2, hfinish, hkept2, hfull⟩ :=
      finishPayload_full (h.room.kept hkept') hpayload (hnext.trans hall) hbytes
    refine ⟨g2, s2, by simp only [hfinish, map_some], hkept'.trans hkept2, .inr ⟨?_, hfull⟩⟩
    exact length_eq_zero_iff.mp (by omega)
  · refine
      ⟨g1, s1.advance d.length, ?_, hkept', .inl ⟨⟨hst.trans h.status, h.room.kept hkept', hpayload,
      hsmall, by omega, by rw [hnext, hbytes]⟩, ?_⟩⟩
    · simp only [finishPayload, hnext, hpayload, if_neg hall, map_some]
    · rw [hnext, ← drop_drop, hd, drop_left]

theorem Uploading.deliver (h : Uploading body g s) (hcs : cs.flatten = body.drop s.uploadSize)
    (hne : ∀ d ∈ cs, d ≠ []) : ∃ g' s', Http.deliver cs g s = some (g', s') ∧ Kept s s' ∧
    Full body g' s' := by
  induction cs generalizing g s with
  | nil =>
    have hmore := h.more
    have := congrArg length hcs
    rw [flatten_nil, length_nil, length_drop] at this
    omega
  | cons d cs ih =>
    have hne' : ∀ d ∈ cs, d ≠ [] := fun d hd => hne d (by simp [hd])
    obtain ⟨g1, s1, hrx, hkept, ⟨hup, hrest⟩ | ⟨hrest, hfull⟩⟩ := h.step hcs.symm
    · obtain ⟨g2, s2, hdeliver, hkept', hfull⟩ := ih hup hrest.symm hne'
      exact ⟨g2, s2, by simp only [Http.deliver, hrx, hdeliver], hkept.trans hkept', hfull⟩
    · -- nothing is left to deliver
      obtain rfl := flatten_eq_nil hne' hrest
      exact ⟨g1, s1, by simp only [Http.deliver, hrx], hkept, hfull⟩

theorem finishHdr_ready (hroom : Room s body.length) (hsize : s.payloadSize = body.length)
    (hsmall : body.length < 2 ^ 32) (hle : s.uploadSize ≤ body.length)
    (hbytes : uploaded g s s.uploadSize = body.take s.uploadSize) :
    ∃ g' s', (finishHdr g s).bind (continueRx d) = some (g', s') ∧ s'.method = .post ∧ s'.uri =
      s.uri ∧ s'.boundary = s.boundary ∧ (Uploading body g' s' ∧ s'.uploadSize = s.uploadSize ∨
        s.uploadSize = body.length ∧ Full body g' s') := by
  by_cases hall : s.uploadSize = body.length
  · rw [hall, take_length] at hbytes
    obtain ⟨g1, s1, hstore⟩ := exists_store (g := g) hroom
      (show body.length + [(0 : UInt8)].length ≤ body.length + 1 from le_rfl)
    obtain ⟨hkept, -, -, hbefore, -, -⟩ := store_cases hstore
    refine ⟨g1, { s1 with status := .fullRcvd, method := .post }, ?_,
      rfl, hkept.uri, hkept.boundary,
      .inr ⟨hall, ⟨rfl, hkept.payloadSize.trans hsize, (hbefore _ le_rfl).trans hbytes⟩⟩⟩
    simp only [finishHdr, hall, hsize, if_true, hstore, bind_some, continueRx, reduceCtorEq,
      if_false]
  · refine ⟨{ g with isUploading := true },
      { s with status := .payloadRecving, isUploading := true, method := .post }, ?_, rfl, rfl, rfl,
      .inl ⟨⟨rfl, hroom, hsize, hsmall, ?_, hbytes⟩, rfl⟩⟩
    · simp only [finishHdr, hsize, if_neg hall, bind_some, continueRx]
    · show s.uploadSize < body.length
      omega

/-! ### The header that has been received -/

def Session.withHead (s : Session) (h : Head) : Session :=
  { s with uri := h.uri, payloadSize := u32 h.length, boundary := h.boundary }

theorem length_head (hends : findSub crlfcrlf hdr = some (hdr.length - 4)) :
    (hdr.take (hdr.length - 4)).length + 4 = hdr.length ∧ 4 ≤ hdr.length := by
  have hle := (findSub_eq_some.mp hends).2.1.length_le
  simp only [crlfcrlf, length_cons, length_nil, length_drop] at hle
  rw [length_take]
  omega

theorem parseHdr_get (hhead : headOf hdr = some h) (hget : h.method = .get) (d : Str) :
    parseHdr (hdr.take (hdr.length - 4)) d g s =
      some (false, g, { s with uri := h.uri, status := .fullRcvd, method := .get }) ∧
      h.boundary = none ∧ h.length = 0 := by
  unfold headOf at hhead
  split at hhead
  · cases hhead
  split at hhead
  · cases hhead
  · rename_i uri fields hline
    cases hhead
    exact ⟨by simp only [parseHdr, hline], rfl, rfl⟩
  · split at hhead
    · cases hhead
    · cases hhead
      cases hget

theorem parseHdr_post (hends : findSub crlfcrlf hdr = some (hdr.length - 4))
    (hhead : headOf hdr = some h)
    (hpost : h.method = .post) (hsize : s.payloadSize = 0) (hbound : s.boundary = none) (d : Str) :
    parseHdr (hdr.take (hdr.length - 4)) d g s = startUpload hdr.length d g (s.withHead h) := by
  unfold headOf at hhead
  split at hhead
  · cases hhead
  split at hhead
  · cases hhead
  · cases hhead
    cases hpost
  rename_i uri fields hline
  split at hhead
  · cases hhead
  rename_i boundary htype
  cases hhead
  have hlen : ((contentLength fields).map fun c => u32 (simpleStrtoul c)).getD 0 =
      u32 (((contentLength fields).map simpleStrtoul).getD 0) := by
    cases contentLength fields <;> rfl
  simp only [parseHdr, hline, htype, (length_head hends).1, hsize, hbound, or_none, hlen,
    Session.withHead]

theorem parseHdr_rejected (hzero : 0 ∉ hdr) (hhead : headOf hdr = none) (d : Str) : ∃ s',
    parseHdr (hdr.take (hdr.length - 4)) d g s = some (true, g, s') ∧ s'.status = .responding := by
  unfold headOf at hhead
  rw [if_neg hzero] at hhead
  split at hhead
  · rename_i code hline
    exact ⟨stdErrResponse code s, by simp only [parseHdr, hline], rfl⟩
  · cases hhead
  · rename_i uri fields hline
    split at hhead
    · rename_i code htype
      simp only [parseHdr, hline, htype]
      exact ⟨_, rfl, rfl⟩
    · cases hhead

/-! ### Requests that are put together right -/

section Arrival

theorem exists_arrival (hreq : Request hdr body) (hcut : Cut cs (hdr ++ body)) (ram : Mem) :
    ∃ pre d post b s, cs = pre ++ d :: post ∧ Collecting pre.flatten ⟨false, ram⟩ s ∧
      pre.flatten.length < hdr.length ∧ pre.flatten ++ d = hdr ++ b ∧ body = b ++ post.flatten ∧
      deliver cs ⟨false, ram⟩ {} = (rx d ⟨false, ram⟩ s).bind fun p => deliver post p.1 p.2 := by
  have hpos := (length_head hreq.ends).2
  have hflat := hcut.flatten
  obtain ⟨pre, d, post, rfl, hlt, hle⟩ :=
    exists_split (show 0 < hdr.length by omega)
      (show hdr.length ≤ cs.flatten.length by simp [hflat])
  rw [flatten_append, flatten_cons] at hflat
  have hcollected : pre.flatten <+: hdr :=
    prefix_of_prefix_length_le ⟨_, hflat⟩ (prefix_append _ _) hlt.le
  have hhdr : hdr <+: pre.flatten ++ d := by
    rw [← append_assoc] at hflat
    exact prefix_of_prefix_length_le (prefix_append _ _) ⟨_, hflat⟩ (by rw [length_append]; omega)
  obtain ⟨b, hb⟩ := hhdr
  obtain ⟨s, hdeliver, hcoll⟩ := (collecting_new ram).deliver hreq.ends hreq.short hcollected hlt
  refine ⟨pre, d, post, b, s, rfl, hcoll, hlt, hb.symm, ?_, ?_⟩
  · rw [← append_assoc, ← hb, append_assoc] at hflat
    exact (append_cancel_left hflat).symm
  · rw [deliver_append, hdeliver, bind_some, deliver]
    cases rx d ⟨false, ram⟩ s <;> rfl

theorem cache_fields (s : Session) (d : Str) : (s.cache d).payloadSize = s.payloadSize ∧
    (s.cache d).boundary = s.boundary ∧ (s.cache d).uploadPtr = s.uploadPtr := ⟨rfl, rfl, rfl⟩

section Start

variable {b : Str}

theorem startUpload_small (hcoll : Collecting pre g s) (hd : pre ++ d = hdr ++ b)
    (hlt : pre.length < hdr.length) (hshort : hdr.length ≤ 4095) (hbody : body = b ++ rest)
    (hsmall : hdr.length + body.length < bufSize) (hsize : u32 h.length = body.length) : ∃ g' s',
    (startUpload hdr.length d g ((s.cache d).withHead h)).bind (continueRx d) = some (g', s') ∧
      s'.method = .post ∧ s'.uri = h.uri ∧ s'.boundary = h.boundary ∧ (Uploading body g' s' ∧
        s'.uploadSize = b.length ∨ b.length = body.length ∧ Full body g' s') := by
  have hle : b.length ≤ body.length := by rw [hbody, length_append]; omega
  have hlen := congrArg length hd
  simp only [length_append, bufSize] at hlen hsmall
  have hbufsize : (s.cache d).bufsize = hdr.length + b.length := by
    rw [cache_size hcoll.size (by omega)]
    omega
  have hbytes : bytesAt (s.cache d).buf hdr.length b.length = b := by
    have hall : bytesAt (s.cache d).buf 0 (s.cache d).bufsize = (pre ++ d).take 4095 :=
      cache_bytes hcoll.size (by omega) hcoll.bytes
    rw [hbufsize, hd, take_of_length_le (by rw [length_append]; omega), bytesAt_add,
      zero_add] at hall
    exact (append_inj hall (length_bytesAt _ _ _)).2
  let t : Session := { (s.cache d).withHead h with
    uploadPtr := some (.buf hdr.length), uploadSize := b.length }
  have hstart : startUpload hdr.length d g ((s.cache d).withHead h) = finishHdr g t := by
    have hsub : subU32 ((s.cache d).withHead h).bufsize hdr.length = b.length := by
      rw [show ((s.cache d).withHead h).bufsize = hdr.length + b.length from hbufsize,
        subU32_of_le (by omega) (by omega)]
      omega
    have hcond : u32 (hdr.length + ((s.cache d).withHead h).payloadSize) < bufSize := by
      rw [show ((s.cache d).withHead h).payloadSize = body.length from hsize, u32_of_lt (by omega)]
      simpa [bufSize] using hsmall
    simp only [startUpload, if_pos hcond, hsub, t]
  rw [hstart]
  refine finishHdr_ready (s := t) (.inr ⟨hdr.length, rfl, by simpa [bufSize] using hsmall⟩) hsize
    (by omega) hle ?_
  show bytesAt (s.cache d).buf hdr.length b.length = body.take b.length
  rw [hbytes, hbody, take_left]

theorem startUpload_large (hidle : g.isUploading = false)
    (hd : d = hdr ++ b) (hbody : body = b ++ rest) (hlarge : bufSize ≤ hdr.length + body.length)
    (hlt : hdr.length + body.length < 2 ^ 32) (hsize : u32 h.length = body.length) :
    ∃ g' s', (startUpload hdr.length d g (s.withHead h)).bind (continueRx d) = some (g', s') ∧
      s'.method = .post ∧ s'.uri = h.uri ∧ s'.boundary = h.boundary ∧ (Uploading body g' s' ∧
        s'.uploadSize = b.length ∨ b.length = body.length ∧ Full body g' s') := by
  have hle : b.length ≤ body.length := by rw [hbody, length_append]; omega
  have hlen : d.length = hdr.length + b.length := by rw [hd, length_append]
  let g1 : Shared := { g with ram := putBytes g.ram 0 b }
  let t : Session := { s.withHead h with uploadPtr := some .ram, uploadSize := b.length }
  have hstart : startUpload hdr.length d g (s.withHead h) = finishHdr g1 t := by
    have hsub : subU32 d.length hdr.length = b.length := by
      rw [subU32_of_le (by omega) (by omega)]
      omega
    have hcond : ¬u32 (hdr.length + (s.withHead h).payloadSize) < bufSize := by
      rw [show (s.withHead h).payloadSize = body.length from hsize, u32_of_lt hlt]
      omega
    have hcopy : (d.drop hdr.length).take b.length = b := by rw [hd, drop_left, take_length]
    have hinside : ¬d.length < hdr.length + b.length := by omega
    simp only [startUpload, if_neg hcond, hidle, Bool.false_eq_true, if_false, hsub, if_neg hinside,
      hcopy, g1, t]
  rw [hstart]
  refine finishHdr_ready (s := t) (.inl rfl) hsize (by omega) hle ?_
  show bytesAt (putBytes g.ram 0 b) 0 b.length = body.take b.length
  rw [bytesAt_putBytes, hbody, take_left]

end Start

theorem outcome_of_fits (hreq : Request hdr body) (hcut : Cut cs (hdr ++ body)) (ram : Mem)
    {h : Head} (hhead : headOf hdr = some h) (hlength : u32 h.length = bodyLength hdr)
    (hfits : h.method = .get ∨ hdr.length + body.length < bufSize ∨
      hdr.length ≤ (cs.headD []).length ∧ hdr.length + body.length < 2 ^ 32) :
    outcome ram cs = some ⟨h.method, h.uri, h.boundary, body.length, body⟩ := by
  obtain ⟨pre, d, post, b, s, rfl, hcoll, hlt, hd, hbody, hdeliver⟩ := exists_arrival hreq hcut ram
  have hzero : 0 ∉ hdr := by
    intro hmem
    rw [headOf, if_pos hmem] at hhead
    cases hhead
  have hshort := hreq.short
  have hlast := hcoll.last hreq.ends hshort hzero (by omega) hd
  have hne : ∀ d ∈ post, d ≠ [] := fun d hd => (hcut.segments d (by simp [hd])).1
  have hbegin := hcoll.begin.2
  have hlen : u32 h.length = body.length := hlength.trans hreq.body.symm
  cases hmethod : h.method with
  | get =>
    obtain ⟨hparse, hbound, hzero⟩ :=
      parseHdr_get (g := ⟨false, ram⟩) (s := s.begin.cache d) hhead hmethod d
    have hbody' : b ++ post.flatten = [] := by
      rw [← hbody, ← length_eq_zero_iff, ← hlen, hzero]
      rfl
    obtain rfl := flatten_eq_nil hne (append_eq_nil_iff.mp hbody').2
    rw [hparse] at hlast
    simp only [bind_some, continueRx, reduceCtorEq, if_false] at hlast
    have hptr := hbegin.ptr
    have hnil : body = [] := hbody.trans hbody'
    simp only [outcome, hdeliver, hlast, bind_some, deliver, if_true, uploaded,
      (cache_fields s.begin d).1, (cache_fields s.begin d).2, hbegin.payloadSize, hbegin.boundary,
      hptr, hnil, length_nil, hbound]
  | post =>
    have hready : ∃ g' s', rx d ⟨false, ram⟩ s = some (g', s') ∧ s'.method = .post ∧ s'.uri =
        h.uri ∧ s'.boundary = h.boundary ∧ (Uploading body g' s' ∧ s'.uploadSize = b.length ∨
          b.length = body.length ∧ Full body g' s') := by
      have hsize : (s.begin.cache d).payloadSize = 0 := hbegin.payloadSize
      have hbound : (s.begin.cache d).boundary = none := hbegin.boundary
      rw [hlast, parseHdr_post hreq.ends hhead hmethod hsize hbound]
      by_cases hsmall : hdr.length + body.length < bufSize
      · exact startUpload_small hbegin hd hlt hshort hbody hsmall hlen
      obtain ⟨hfirst, h32⟩ : hdr.length ≤ ((pre ++ d :: post).headD []).length ∧
          hdr.length + body.length < 2 ^ 32 := by
        rcases hfits with hget | hsmall' | hfirst
        · rw [hget] at hmethod
          cases hmethod
        · exact absurd hsmall' hsmall
        · exact hfirst
      -- the header ends in the first segment, so nothing has been collected before
      have hpre : pre = [] := by
        cases pre with
        | nil => rfl
        | cons c pre =>
          simp only [cons_append, headD_cons, flatten_cons, length_append] at hfirst hlt
          omega
      subst hpre
      exact startUpload_large rfl hd hbody (by omega) h32 hlen
    obtain ⟨g1, s1, hrx, hpost, huri, hbound, hstate⟩ := hready
    have hfull : ∃ g2 s2, deliver post g1 s1 = some (g2, s2) ∧ Kept s1 s2 ∧ Full body g2 s2 := by
      rcases hstate with ⟨hup, hsize⟩ | ⟨hall, hfull⟩
      · refine hup.deliver ?_ hne
        rw [hsize, hbody, drop_left]
      · have hlen := congrArg length hbody
        rw [length_append] at hlen
        obtain rfl := flatten_eq_nil hne (length_eq_zero_iff.mp (by omega))
        exact ⟨g1, s1, rfl, ⟨rfl, rfl, rfl, rfl, rfl⟩, hfull⟩
    obtain ⟨g2, s2, hpost2, hkept, hfull⟩ := hfull
    simp only [outcome, hdeliver, hrx, bind_some, hpost2, hfull.status, if_true,
      hkept.method, hpost, hkept.uri, huri, hkept.boundary, hbound, hfull.payloadSize, hfull.bytes]

end Arrival

/-! ### Requests that are not -/

theorem deliver_invariant {P : List Str → Shared → Session → Prop}
    (hstep : ∀ d cs g s g' s', P (d :: cs) g s → rx d g s = some (g', s') → P cs g' s')
    (h : P cs g s) (hdeliver : deliver cs g s = some (g', s')) : P [] g' s' := by
  induction cs generalizing g s with
  | nil =>
    cases hdeliver
    exact h
  | cons d cs ih =>
    rw [deliver] at hdeliver
    cases hrx : rx d g s with
    | none => simp [hrx] at hdeliver
    | some p =>
      rw [hrx] at hdeliver
      exact ih (hstep d cs g s p.1 p.2 h hrx) hdeliver

theorem rx_payload_cases (hs : s.status = .payloadRecving) (h : rx d g s = some (g', s')) :
    Kept s s' ∧ s'.uploadSize =
        u32 (s.uploadSize + min (subU32 s.payloadSize s.uploadSize) d.length) ∧
      (s'.status = .payloadRecving ∨ s'.status = .fullRcvd ∧ s'.uploadSize = s.payloadSize ∧
        ∀ base, s.uploadPtr = some (.buf base) → base + s.payloadSize < bufSize) := by
  rw [rx_payload hs, recvPayload] at h
  generalize hn : min (subU32 s.payloadSize s.uploadSize) d.length = n at h ⊢
  cases hstore : store s.uploadSize (d.take n) g s with
  | none => simp [hstore] at h
  | some p =>
    obtain ⟨g1, s1⟩ := p
    obtain ⟨hkept, hupl, hst, -, -, -⟩ := store_cases hstore
    simp only [hstore] at h
    have hkept' : Kept s (s1.advance n) := { hkept with }
    have hnext : (s1.advance n).uploadSize = u32 (s.uploadSize + n) := by rw [Session.advance, hupl]
    unfold finishPayload at h
    by_cases hall : (s1.advance n).uploadSize = (s1.advance n).payloadSize
    · rw [if_pos hall] at h
      cases hzero : store (s1.advance n).payloadSize [0] g1 (s1.advance n) with
      | none => simp [hzero] at h
      | some p =>
        obtain ⟨hkept2, hupl2, -, -, -, hbound⟩ := store_cases hzero
        simp only [hzero, map_some, Option.some.injEq, Prod.mk.injEq] at h
        obtain ⟨-, rfl⟩ := h
        have hsize := hkept'.payloadSize
        refine ⟨{ hkept'.trans hkept2 with }, hupl2.trans hnext,
          .inr ⟨rfl, hupl2.trans (hall.trans hsize), ?_⟩⟩
        intro base hbase
        have := hbound base (hkept'.ptr.trans hbase)
        simp only [length_cons, length_nil] at this
        omega
    · rw [if_neg hall] at h
      obtain ⟨-, rfl⟩ := h
      exact ⟨hkept', hnext, .inl (hst.trans hs)⟩

theorem finishHdr_cases (h : (finishHdr g s).bind (continueRx d) = some (g', s')) :
    s'.payloadSize = s.payloadSize ∧ s'.uploadPtr = s.uploadPtr ∧ s'.uploadSize = s.uploadSize ∧
      (s'.status = .payloadRecving ∨ s'.status = .fullRcvd ∧ s.uploadSize = s.payloadSize ∧
        ∀ base, s.uploadPtr = some (.buf base) → base + s.payloadSize < bufSize) := by
  unfold finishHdr at h
  by_cases hall : s.uploadSize = s.payloadSize
  · rw [if_pos hall] at h
    cases hstore : store s.payloadSize [0] g s with
    | none => simp [hstore] at h
    | some p =>
      obtain ⟨hkept, hupl, -, -, -, hbound⟩ := store_cases hstore
      simp only [hstore, bind_some, continueRx, reduceCtorEq, if_false, Option.some.injEq,
        Prod.mk.injEq] at h
      obtain ⟨-, rfl⟩ := h
      refine ⟨hkept.payloadSize, hkept.ptr, hupl, .inr ⟨rfl, hall, ?_⟩⟩
      intro base hbase
      have := hbound base hbase
      simp only [length_cons, length_nil] at this
      omega
  · rw [if_neg hall] at h
    obtain ⟨-, rfl⟩ := h
    exact ⟨rfl, rfl, rfl, .inl rfl⟩

theorem startUpload_cases (hidle : g.isUploading = false) (hn : n < 2 ^ 32) (hd : d.length < 2 ^ 32)
    (h : (startUpload n d g s).bind (continueRx d) = some (g', s')) : s'.payloadSize =
    s.payloadSize ∧ (u32 (n + s.payloadSize) < bufSize ∧ s'.uploadPtr = some (.buf n) ∨
        bufSize ≤ u32 (n + s.payloadSize) ∧ n + s'.uploadSize = d.length) ∧
      (s'.status = .payloadRecving ∨ s'.status = .fullRcvd ∧ s'.uploadSize = s.payloadSize ∧
        ∀ base, s'.uploadPtr = some (.buf base) → base + s.payloadSize < bufSize) := by
  unfold startUpload at h
  by_cases hsmall : u32 (n + s.payloadSize) < bufSize
  · rw [if_pos hsmall] at h
    obtain ⟨hsize, hptr, hupl, hstatus⟩ := finishHdr_cases h
    refine ⟨hsize, .inl ⟨hsmall, hptr⟩, ?_⟩
    rw [hptr, hupl]
    exact hstatus
  · rw [if_neg hsmall, if_neg (by rw [hidle]; decide)] at h
    by_cases hinside : d.length < n + subU32 d.length n
    · simp [hinside] at h
    simp only [if_neg hinside] at h
    obtain ⟨hsize, hptr, hupl, hstatus⟩ := finishHdr_cases h
    refine ⟨hsize, .inr ⟨by omega, ?_⟩, ?_⟩
    · rw [hupl]
      simp only [subU32] at hinside ⊢
      omega
    · rw [hptr, hupl]
      exact hstatus

/-- A header with a zero in it is never found to end. -/
theorem not_full_of_zero (hends : findSub crlfcrlf hdr = some (hdr.length - 4)) (hzero : 0 ∈ hdr)
    (hcoll : Collecting pre g s) (hpre : pre.length ≤ 4095)
    (hflat : pre ++ cs.flatten = hdr ++ body) (hdeliver : deliver cs g s = some (g', s')) :
    s'.status ≠ .fullRcvd := by
  have hnone : ∀ n, findSub crlfcrlf (cstr ((hdr ++ body).take n)) = none := by
    intro n
    rw [cstr_eq_take, take_take]
    generalize hk : min (cstr ((hdr ++ body).take n)).length n = k
    have hlt : k < hdr.length := by
      by_contra hge
      -- otherwise the string would contain the zero of the header
      have hall : hdr <+: cstr ((hdr ++ body).take n) := by
        refine prefix_of_prefix_length_le (prefix_append hdr body)
          (( takeWhile_prefix _).trans ( take_prefix _ _)) ?_
        omega
      have hmem := mem_takeWhile_imp (hall.subset hzero)
      simp at hmem
    rw [take_append_of_le_length hlt.le]
    have := (length_head hends).2
    exact findSub_take hends (by simp only [crlfcrlf, length_cons, length_nil]; omega)
  have hend : (s'.status = .responding ∨ ∃ pre, Collecting pre g' s' ∧ pre.length ≤ 4095 ∧
      pre ++ ([] : List Str).flatten = hdr ++ body) := by
    refine deliver_invariant (P := fun cs g s => s.status = .responding ∨
      ∃ pre, Collecting pre g s ∧ pre.length ≤ 4095 ∧ pre ++ cs.flatten = hdr ++ body) ?_
      (.inr ⟨pre, hcoll, hpre, hflat⟩) hdeliver
    rintro d cs g s g' s' (hresp | ⟨pre, hcoll, hpre, hflat⟩) hrx
    · rw [rx_settled (.inr hresp)] at hrx
      cases hrx
      exact .inl hresp
    rw [flatten_cons, ← append_assoc] at hflat
    have htake : (pre ++ d).take 4095 = (hdr ++ body).take (min 4095 (pre ++ d).length) := by
      rw [← hflat, ← take_take, take_left]
    rw [hcoll.rx_eq, hcoll.begin.2.recvHdr_none hpre (by rw [htake]; exact hnone _)] at hrx
    obtain ⟨rfl, rfl⟩ := hrx
    split
    · rename_i hle
      exact .inr ⟨pre ++ d, hcoll.begin.2.cache hcoll.begin.1 hle, by rwa [length_append], hflat⟩
    · exact .inl rfl
  rcases hend with hresp | ⟨pre, hcoll, -, -⟩
  · rw [hresp]
    decide
  · rcases hcoll.status with hst | hst <;> rw [hst] <;> decide

/-- A payload that must lose bytes or leave the buffer is not completed. -/
theorem not_full_of_payload {c : Nat} (hc : c < 2 ^ 32) (hs : s.status = .payloadRecving)
    (hsize : s.payloadSize = c)
    (hnot : (∃ base, s.uploadPtr = some (.buf base) ∧ bufSize ≤ base + c) ∨
      s.uploadSize + cs.flatten.length < c) (hdeliver : deliver cs g s = some (g', s')) :
    s'.status ≠ .fullRcvd := by
  have hend := deliver_invariant (P := fun cs _ s => s.status = .payloadRecving ∧
    s.payloadSize = c ∧ ((∃ base, s.uploadPtr = some (.buf base) ∧ bufSize ≤ base + c) ∨
      s.uploadSize + cs.flatten.length < c)) ?_ ⟨hs, hsize, hnot⟩ hdeliver
  · rw [hend.1]
    decide
  rintro d cs g s g' s' ⟨hs, hsize, hnot⟩ hrx
  obtain ⟨hkept, hupl, hstatus⟩ := rx_payload_cases hs hrx
  rcases hnot with ⟨base, hptr, hle⟩ | hlost
  · refine ⟨?_, hkept.payloadSize.trans hsize, .inl ⟨base, hkept.ptr.trans hptr, hle⟩⟩
    rcases hstatus with hst | ⟨-, -, hbound⟩
    · exact hst
    · have := hbound base hptr
      omega
  · rw [flatten_cons, length_append] at hlost
    rw [hsize, subU32_of_le (by omega) hc, Nat.min_eq_right (by omega),
      u32_of_lt (by omega)] at hupl
    refine ⟨?_, hkept.payloadSize.trans hsize, .inr (by omega)⟩
    rcases hstatus with hst | ⟨-, hfull, -⟩
    · exact hst
    · omega

theorem payloadSize_kept (hs : s.status = .payloadRecving ∨ s.status = .fullRcvd)
    (hdeliver : deliver cs g s = some (g', s')) : s'.payloadSize = s.payloadSize := by
  have hend := deliver_invariant (P := fun _ _ t => (t.status = .payloadRecving ∨
    t.status = .fullRcvd) ∧ t.payloadSize = s.payloadSize) ?_ ⟨hs, rfl⟩ hdeliver
  · exact hend.2
  · rintro d cs g t g' t' ⟨hs | hs, hsize⟩ hrx
    · obtain ⟨hkept, -, hstatus⟩ := rx_payload_cases hs hrx
      exact ⟨hstatus.imp_right And.left, hkept.payloadSize.trans hsize⟩
    · rw [rx_settled (.inl hs)] at hrx
      cases hrx
      exact ⟨.inr hs, hsize⟩

/-! ### Which requests and segments -/

section Segments

variable {cs' : List Str}

theorem fits_of_outcome (hreq : Request hdr body) (hcut : Cut cs (hdr ++ body)) {ram : Mem}
    {o : Outcome} (ho : outcome ram cs = some o) (hsize : o.payloadSize = body.length) :
    Fits hdr body cs := by
  obtain ⟨g', s', hs', hfull, hpayload⟩ : ∃ g' s', deliver cs ⟨false, ram⟩ {} = some (g', s') ∧
      s'.status = .fullRcvd ∧ s'.payloadSize = body.length := by
    unfold outcome at ho
    split at ho
    · cases ho
    · rename_i g' s' hs'
      split at ho
      · rename_i hfull
        cases ho
        exact ⟨g', s', hs', hfull, hsize⟩
      · cases ho
  by_cases hzero : 0 ∈ hdr
  · exact absurd hfull
      (not_full_of_zero hreq.ends hzero (collecting_new ram) (by simp) hcut.flatten hs')
  obtain ⟨pre, d, post, b, s, rfl, hcoll, hlt, hd, hbody, hdeliver⟩ := exists_arrival hreq hcut ram
  have hshort := hreq.short
  have hlast := hcoll.last hreq.ends hshort hzero (by omega) hd
  have hbegin := hcoll.begin.2
  rw [hdeliver, hlast] at hs'
  cases hhead : headOf hdr with
  | none =>
    -- an error response, and nothing after it
    obtain ⟨s1, hparse, hresp⟩ :=
      parseHdr_rejected (g := ⟨false, ram⟩) (s := s.begin.cache d) hzero hhead d
    rw [hparse] at hs'
    have hend := deliver_invariant (P := fun _ _ t => t.status = .responding) ?_ hresp hs'
    · rw [hend] at hfull
      cases hfull
    · intro d cs g t g' t' ht hrx
      rw [rx_settled (.inr ht)] at hrx
      cases hrx
      exact ht
  | some h =>
    by_cases hget : h.method = .get
    · obtain ⟨hparse, -, hnone⟩ :=
        parseHdr_get (g := ⟨false, ram⟩) (s := s.begin.cache d) hhead hget d
      rw [hparse] at hs'
      have hkept := payloadSize_kept (.inr rfl) hs'
      refine ⟨h, hhead, ?_, .inl hget⟩
      rw [hnone, ← hreq.body, ← hpayload, hkept]
      exact hbegin.payloadSize.symm
    have hpost : h.method = .post := by
      cases hmethod : h.method with
      | get => exact absurd hmethod hget
      | post => rfl
    have hparse := parseHdr_post (g := ⟨false, ram⟩) (s := s.begin.cache d) hreq.ends hhead hpost
      hbegin.payloadSize hbegin.boundary d
    rw [hparse] at hs'
    obtain ⟨⟨g1, s1⟩, hstart, hrest⟩ := bind_eq_some_iff.mp hs'
    have hdlen := (hcut.segments d (by simp)).2
    obtain ⟨hsize1, hwhere, hstatus⟩ := startUpload_cases rfl (by omega) hdlen hstart
    have hkept := payloadSize_kept (hstatus.imp_right And.left) hrest
    -- the size that the session expects is the size of the body
    have hsize2 : ((s.begin.cache d).withHead h).payloadSize = body.length :=
      (hpayload.symm.trans (hkept.trans hsize1)).symm
    have hsmall : body.length < 2 ^ 32 := by rw [← hsize2]; exact u32_lt _
    refine ⟨h, hhead, hsize2.trans hreq.body, ?_⟩
    by_contra hnot
    simp only [not_or, not_and] at hnot
    obtain ⟨-, hlarge, hfirst⟩ := hnot
    rw [hsize2] at hsize1 hwhere hstatus
    have hlens := congrArg length hd
    have hlens' := congrArg length hbody
    rw [length_append, length_append] at hlens
    rw [length_append] at hlens'
    have hlost : (∃ base, s1.uploadPtr = some (.buf base) ∧ bufSize ≤ base + body.length) ∨
        s1.uploadSize + post.flatten.length < body.length := by
      rcases hwhere with ⟨-, hptr⟩ | ⟨hram, hupl⟩
      · exact .inl ⟨hdr.length, hptr, by omega⟩
      have h32 : hdr.length + body.length < 2 ^ 32 := by
        by_contra hge
        have : u32 (hdr.length + body.length) = hdr.length + body.length - 2 ^ 32 := by
          rw [u32]
          omega
        rw [this, bufSize] at hram
        omega
      have hpos : 0 < pre.flatten.length := by
        cases pre with
        | nil => exact absurd h32 (hfirst (by simp only [nil_append, headD_cons]; omega))
        | cons c pre =>
          have := length_pos_iff.mpr (hcut.segments c (by simp)).1
          rw [flatten_cons, length_append]
          omega
      exact .inr (by omega)
    rcases hstatus with hst | ⟨-, hupl, hbound⟩
    · exact not_full_of_payload hsmall hst hsize1 hlost hrest hfull
    · rcases hlost with ⟨base, hptr, hle⟩ | hlt
      · have := hbound base hptr
        omega
      · omega

/-- Two ways to cut a request into segments give a session the same request exactly when the request
and both ways are of the good kind; then the payload is the body. -/
theorem segmentation_iff (hreq : Request hdr body) (hcut : Cut cs (hdr ++ body))
    (hcut' : Cut cs' (hdr ++ body)) (ram ram' : Mem) :
    ((∃ o, outcome ram cs = some o ∧ outcome ram' cs' = some o ∧ o.payloadSize = body.length) ↔
      Fits hdr body cs ∧ Fits hdr body cs') ∧
    ∀ o, outcome ram cs = some o → o.payloadSize = body.length → o.payload = body := by
  refine ⟨⟨?_, ?_⟩, ?_⟩
  · rintro ⟨o, ho, ho', hsize⟩
    exact ⟨fits_of_outcome hreq hcut ho hsize, fits_of_outcome hreq hcut' ho' hsize⟩
  · rintro ⟨⟨h, hhead, hlength, hfits⟩, ⟨h', hhead', -, hfits'⟩⟩
    cases hhead.symm.trans hhead'
    exact ⟨_, outcome_of_fits hreq hcut ram hhead hlength hfits,
      outcome_of_fits hreq hcut' ram' hhead hlength hfits', rfl⟩
  · intro o ho hsize
    obtain ⟨h, hhead, hlength, hfits⟩ := fits_of_outcome hreq hcut ho hsize
    rw [outcome_of_fits hreq hcut ram hhead hlength hfits] at ho
    cases ho
    rfl

end Segments

def smallHdr : Str := ascii "POST / HTTP/1.1\r\nContent-Length: 4\r\n\r\n"

theorem smallHdr_request : Request smallHdr [1, 2, 3, 4] :=
  ⟨by decide +kernel, by decide +kernel, by decide +kernel⟩

theorem segmentation_small : ∃ o, outcome (fun _ => 0) [smallHdr ++ [1, 2, 3, 4]] = some o ∧
      outcome (fun _ => 0) [smallHdr.take 7, smallHdr.drop 7 ++ [1], [2, 3, 4]] = some o ∧
      o.payloadSize = 4 ∧ o.payload = [1, 2, 3, 4] := by
  have hcut : Cut [smallHdr ++ [1, 2, 3, 4]] (smallHdr ++ [1, 2, 3, 4]) :=
    ⟨by decide +kernel, by decide +kernel⟩
  have hcut' :
      Cut [smallHdr.take 7, smallHdr.drop 7 ++ [1], [2, 3, 4]] (smallHdr ++ [1, 2, 3, 4]) :=
    ⟨by decide +kernel, by decide +kernel⟩
  have hiff := segmentation_iff smallHdr_request hcut hcut' (fun _ => 0) fun _ => 0
  have hfits (cs : List Str) : Fits smallHdr [1, 2, 3, 4] cs :=
    ⟨⟨.post, ascii "/", none,
      4⟩, by decide +kernel, by decide +kernel, .inr (.inl (by decide +kernel))⟩
  obtain ⟨o, ho, ho', hsize⟩ := hiff.1.mpr ⟨hfits _, hfits _⟩
  exact ⟨o, ho, ho', hsize, hiff.2 o ho hsize⟩

def largeHdr : Str := ascii "POST / HTTP/1.1\r\nContent-Length: 4096\r\n\r\n"

theorem largeHdr_request : Request largeHdr (replicate 4096 7) :=
  ⟨by decide +kernel, by decide +kernel, by rw [length_replicate]; decide +kernel⟩

def lowerHdr : Str := ascii "POST / HTTP/1.1\r\ncontent-length: 4\r\n\r\n"

/-- In two segments the request is received.  When the first byte of the header comes in a segment
of its own, one byte of the payload is lost, and the session waits for it.  A field that is spelled
in another way is not found. -/
theorem segmentation_large : (∃ o, outcome (fun _ => 0) [largeHdr, replicate 4096 7] = some o ∧
      o.payload = replicate 4096 7) ∧
    outcome (fun _ => 0) [largeHdr.take 1, largeHdr.drop 1 ++ [7, 7, 7], replicate 4093 7] = none ∧
    (deliver [largeHdr.take 1, largeHdr.drop 1 ++ [7, 7, 7], replicate 4093 7]
      ⟨false, fun _ => 0⟩ {}).map (fun p => (p.2.status, p.2.payloadSize, p.2.uploadSize)) =
        some (.payloadRecving, 4096, 4095) ∧
    Request lowerHdr [1, 2, 3, 4] ∧ outcome (fun _ => 0) [lowerHdr ++ [1, 2, 3, 4]] = none := by
  have hcut : Cut [largeHdr, replicate 4096 7] (largeHdr ++ replicate 4096 7) :=
    ⟨by rw [flatten_cons, flatten_cons, flatten_nil, append_nil], by decide +kernel⟩
  refine ⟨⟨⟨.post, ascii "/", none, _, _⟩, outcome_of_fits largeHdr_request hcut _
      (h := ⟨.post, ascii "/", none, 4096⟩) (by decide +kernel) (by decide +kernel)
    (.inr (.inr ⟨?_, ?_⟩)), rfl⟩, ?_, ?_, ⟨?_, ?_, ?_⟩, ?_⟩
  · decide +kernel
  · rw [length_replicate]
    decide +kernel
  all_goals decide +kernel

end MtkBoot.Http
