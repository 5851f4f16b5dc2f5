import MtkBoot.Http.Session

/-! The HTTP client.  TCP delivers a prefix of the response in segments and then reports an end, or
the user stops the network loop. -/

namespace MtkBoot.Http

open Lib List

variable {buf : Str}

inductive WgetState
  | reqSent | dataReceiving
  deriving DecidableEq, Repr

/-- `struct mtk_wget_pdata`: what the transfer changes.  `mem` is the memory from `data_ptr` on,
`closing` says that the client closes the connection. -/
structure Pdata where
  result : Int := 0
  state : WgetState := .reqSent
  respHdr : Str := []
  dataLen : Nat := 0
  dataRcvdLen : Nat := 0
  dataLenUnspec : Bool := false
  closing : Bool := false
  mem : Mem

/-- `wget_recv_data`, and whether all was received. -/
def wgetRecvData (p : Pdata) (data : Str) : Pdata × Bool :=
  let chksz := min (p.dataLen - p.dataRcvdLen) data.length
  let rcvd := p.dataRcvdLen
  let p := { p with
    mem := fun i => if rcvd ≤ i ∧ i < rcvd + chksz then data.getD (i - rcvd) 0 else p.mem i
    dataRcvdLen := rcvd + chksz }
  (p, p.dataRcvdLen = p.dataLen)

def setLength (space : Nat) (p : Pdata) (fields : Str) : Pdata :=
  match contentLength fields with
  | some c => { p with dataLen := simpleStrtoul c }
  | none => { p with dataLen := space, dataLenUnspec := true }

/-- `wget_parse_response` of a header that ends at `i`; `none` is a response that is refused. -/
def wgetParseResponse (space : Nat) (p : Pdata) (i : Nat) : Pdata × Option Bool :=
  let text := p.respHdr.take i
  let payload := p.respHdr.drop (i + 4)
  let p := { p with respHdr := p.respHdr.set i 0 }
  match findSub crlf text with
  | none => (p, none)
  | some j =>
    let line := text.take j
    let fields := text.drop (j + 2)
    let p := { p with respHdr := p.respHdr.set j 0 }
    match findSub [0x20] line with
    | none => (p, none)
    | some k =>
      if simpleStrtoul (line.drop (k + 1)) ≠ 200 then ({ p with result := -1 }, none)
      else
        let p := setLength space p fields
        if payload = [] then (p, some false)
        else
          let r := wgetRecvData p payload
          (r.1, some r.2)

def wgetRx (space : Nat) (p : Pdata) (data : Str) : Pdata :=
  match p.state with
  | .reqSent =>
    let p := { p with respHdr := p.respHdr ++ data }
    match findSub crlfcrlf (cstr p.respHdr) with
    | none => p
    | some i =>
      match wgetParseResponse space p i with
      | (p, none) => p
      | (p, some true) => { p with closing := true }
      | (p, some false) => { p with state := .dataReceiving }
  | .dataReceiving =>
    match wgetRecvData p data with
    | (p, true) => { p with closing := true }
    | (p, false) => p

inductive Ev
  | dataRcvd (data : Str)
  | dataSent

variable {evs : List Ev}

/-- How it ends; when the user stops the network loop there is no callback. -/
inductive End
  | closed
  | remoteClosed (timedout : Bool)
  | aborted
  deriving DecidableEq, Repr

def wgetCallback (space : Nat) (p : Pdata) : Ev → Pdata
  | .dataRcvd data => if data.length ≠ 0 then wgetRx space p data else p
  | .dataSent => p

def wgetEnd (p : Pdata) : End → Pdata
  | .remoteClosed true => { p with result := -etimedout }
  | .remoteClosed false =>
    if p.dataLen ≠ p.dataRcvdLen then { p with result := -econnreset }
    else if p.dataLen = 0 then { p with result := -econnreset }
    else p
  | .closed => p
  | .aborted => p

/-- `start_wget` from the connection on: the length that it returns, and memory. -/
def startWget (space : Nat) (mem : Mem) (evs : List Ev) (fin : End) : Except Int (Nat × Mem) :=
  let p := wgetEnd (evs.foldl (wgetCallback space) { mem := mem }) fin
  if p.result ≠ 0 then .error p.result else .ok (p.dataLen, p.mem)

/-! ## Responses -/

def headLines (hdr : Str) : Option (Str × Str) :=
  (findSub crlf (hdr.take (hdr.length - 4))).map fun j =>
    ((hdr.take (hdr.length - 4)).take j, (hdr.take (hdr.length - 4)).drop (j + 2))

structure Response (hdr body : Str) : Prop where
  ends : findSub crlfcrlf hdr = some (hdr.length - 4)
  text : 0 ∉ hdr
  status : ∀ line fields, headLines hdr = some (line, fields) →
    ∃ k, findSub [0x20] line = some k ∧ simpleStrtoul (line.drop (k + 1)) = 200
  body : body ≠ []

/-- The length that the client goes by: what follows the first `Content-Length:`, spelt so, or the
room at the load address.  A header without fields is refused. -/
def taken (space : Nat) (hdr : Str) : Nat :=
  match headLines hdr with
  | none => 0
  | some (_, fields) => ((contentLength fields).map simpleStrtoul).getD space

def Ev.data : Ev → Str
  | .dataRcvd data => data
  | .dataSent => []

def delivered (evs : List Ev) : Str := evs.flatMap Ev.data

/-- The result is right: success exactly if the whole body arrived, with the body in memory and its
length. -/
def Right (hdr body : Str) (evs : List Ev) (r : Except Int (Nat × Mem)) : Prop :=
  ((∃ x, r = .ok x) ↔ delivered evs = hdr ++ body) ∧
    ∀ len mem, r = .ok (len, mem) → len = body.length ∧ ∀ i < body.length, mem i = body.getD i 0

def Settled (space : Nat) (hdr body : Str) (evs : List Ev) (fin : End) : Prop :=
  if taken space hdr = body.length then
    -- the right length: no abort before all has arrived, and no timeout after it
    (delivered evs = hdr ++ body ∧ fin ≠ .remoteClosed true) ∨
      (delivered evs ≠ hdr ++ body ∧ ∃ t, fin = .remoteClosed t)
  else
    -- a wrong length: only a transfer that fails before that length is right
    delivered evs ≠ hdr ++ body ∧ ∃ t, fin = .remoteClosed t ∧
      ¬ (t = false ∧ 0 < taken space hdr ∧ hdr.length + taken space hdr ≤ (delivered evs).length)

/-! ## The transfer -/

/-- A buffer in which a zero comes before the end of the header. -/
def Dead (buf : Str) : Prop :=
  ∃ pre rest, buf = pre ++ 0 :: rest ∧ 0 ∉ pre ∧ findSub crlfcrlf pre = none

theorem Dead.append (h : Dead buf) (more : Str) : Dead (buf ++ more) := by
  obtain ⟨pre, rest, rfl, hpre, hnone⟩ := h
  exact ⟨pre, rest ++ more, by simp, hpre, hnone⟩

theorem Dead.not_found (h : Dead buf) : findSub crlfcrlf (cstr buf) = none := by
  obtain ⟨pre, rest, rfl, hpre, hnone⟩ := h
  rw [cstr_append hpre]
  simpa [cstr] using hnone

theorem Dead.set {buf : Str} {j : Nat} (hj : j < buf.length) (htext : 0 ∉ buf.take j)
    (hnone : findSub crlfcrlf (buf.take j) = none) : Dead (buf.set j 0) := by
  refine ⟨buf.take j, buf.drop (j + 1), ?_, htext, hnone⟩
  rw [set_eq_take_append_cons_drop, if_pos hj]

structure Known (space : Nat) (hdr body : Str) (n : Nat) (p : Pdata) : Prop where
  result : p.result = 0
  early : n < hdr.length → p.state = .reqSent ∧ p.respHdr = hdr.take n ∧ p.dataLen = 0 ∧
    p.dataRcvdLen = 0
  late : hdr.length ≤ n →
    p.dataLen = taken space hdr ∧ p.dataRcvdLen = min (n - hdr.length) (taken space hdr) ∧
    (∀ i < p.dataRcvdLen, p.mem i = body.getD i 0) ∧ (p.state = .dataReceiving ∨
      p.state = .reqSent ∧ Dead p.respHdr ∧ p.dataRcvdLen = taken space hdr)

variable {space : Nat} {hdr body data : Str} {n : Nat} {p : Pdata}

theorem wgetRecvData_known (hdata : data = (body.drop (n - hdr.length)).take data.length)
    (hlen : p.dataLen = taken space hdr)
    (hrcvd : p.dataRcvdLen = min (n - hdr.length) (taken space hdr))
    (hmem : ∀ i < p.dataRcvdLen, p.mem i = body.getD i 0) :
    (wgetRecvData p data).1.dataLen = taken space hdr ∧
      (wgetRecvData p data).1.dataRcvdLen = min (n - hdr.length + data.length) (taken space hdr) ∧
      (∀ i < (wgetRecvData p data).1.dataRcvdLen, (wgetRecvData p data).1.mem i = body.getD i 0) ∧
      ((wgetRecvData p data).2 ↔ (wgetRecvData p data).1.dataRcvdLen = taken space hdr) := by
  have hget : ∀ j < data.length, data.getD j 0 = body.getD (n - hdr.length + j) 0 := by
    intro j hj
    rw [getD_eq_getElem?_getD, getD_eq_getElem?_getD]
    conv_lhs => rw [hdata]
    rw [getElem?_take_of_lt hj, getElem?_drop]
  simp only [wgetRecvData, hlen, decide_eq_true_iff, true_and]
  refine ⟨by omega, fun i hi => ?_, trivial⟩
  by_cases hold : i < p.dataRcvdLen
  · rw [if_neg (by omega)]
    exact hmem i hold
  · rw [if_pos (by omega), hget _ (by omega)]
    congr 1
    omega

theorem Known.start (mem : Mem) (hne : 0 < hdr.length) : Known space hdr body 0 { mem := mem } :=
  ⟨rfl, fun _ => ⟨rfl, rfl, rfl, rfl⟩, fun h => absurd h (by omega)⟩

theorem Known.of_late (hn : hdr.length ≤ n)
    (hresult : p.result = 0) (hlen : p.dataLen = taken space hdr)
    (hrcvd : p.dataRcvdLen = min (n - hdr.length) (taken space hdr))
    (hmem : ∀ i < p.dataRcvdLen, p.mem i = body.getD i 0) (hstate : p.state = .dataReceiving ∨
      p.state = .reqSent ∧ Dead p.respHdr ∧ p.dataRcvdLen = taken space hdr) :
    Known space hdr body n p :=
  ⟨hresult, fun hlt => absurd hlt (by omega), fun _ => ⟨hlen, hrcvd, hmem, hstate⟩⟩

theorem Response.text_split (h : Response hdr body) : ∃ text, hdr = text ++ crlfcrlf ∧
    hdr.length = text.length + 4 ∧ hdr.take (hdr.length - 4) = text ∧ 0 ∉ text := by
  obtain ⟨hle, hpre, -⟩ := findSub_eq_some.mp h.ends
  have hlen := hpre.length_le
  rw [length_drop] at hlen
  have hfour : crlfcrlf.length = 4 := rfl
  have heq := hpre.eq_of_length (by rw [length_drop]; omega)
  refine ⟨hdr.take (hdr.length - 4),
    ?_, by rw [length_take]; omega, rfl, fun h0 => h.text (mem_of_mem_take h0)⟩
  rw [heq, take_append_drop]

theorem setLength_fields (space : Nat) (p : Pdata) (fields : Str) :
    (setLength space p fields).dataLen = ((contentLength fields).map simpleStrtoul).getD space ∧
      (setLength space p fields).dataRcvdLen = p.dataRcvdLen ∧
      (setLength space p fields).result = p.result ∧ (setLength space p fields).state = p.state ∧
      (setLength space p fields).respHdr = p.respHdr := by
  rw [setLength]
  cases contentLength fields with
  | none => exact ⟨rfl, rfl, rfl, rfl, rfl⟩
  | some c => exact ⟨rfl, rfl, rfl, rfl, rfl⟩

theorem wgetParseResponse_known (space : Nat) (h : Response hdr body)
    (hstate : p.state = .reqSent) (hresult : p.result = 0) (hrcvd : p.dataRcvdLen = 0)
    (hzero : p.dataLen = 0) {k : Nat} (hbuf : p.respHdr = hdr ++ body.take k)
    (hk : k ≤ body.length) : ∃ q r, wgetParseResponse space p (hdr.length - 4) = (q, r) ∧
      if r = some false then Known space hdr body (hdr.length + k)
      { q with state := .dataReceiving } else Known space hdr body (hdr.length + k) q := by
  obtain ⟨text, hhdr, hlen, htake, htext⟩ := h.text_split
  -- nothing before the empty line is an end of the header
  have hnone : ∀ j ≤ text.length, findSub crlfcrlf (text.take j) = none := by
    intro j hj
    have := findSub_take h.ends (n := j)
      (lt_of_le_of_lt hj (by rw [hlen]; exact Nat.lt_add_of_pos_right (by decide)))
    rwa [hhdr, take_append_of_le_length hj] at this
  have hbufLen : text.length < p.respHdr.length := by
    rw [hbuf, length_append]
    omega
  have hbufText : ∀ j ≤ text.length, p.respHdr.take j = text.take j := by
    intro j hj
    rw [hbuf, hhdr, append_assoc, take_append_of_le_length hj]
  have hpayload : p.respHdr.drop (text.length + 4) = body.take k := by rw [hbuf, ← hlen, drop_left]
  have hhead :
      headLines hdr = (findSub crlf text).map fun j => (text.take j, text.drop (j + 2)) := by
    rw [headLines, htake]
  rw [wgetParseResponse, hlen, Nat.add_sub_cancel, hbufText text.length le_rfl, hpayload,
    take_length]
  cases hcr : findSub crlf text with
  | none =>
    -- a header without fields is refused
    have htaken : taken space hdr = 0 := by rw [taken, hhead, hcr]; rfl
    refine ⟨_, none, rfl,
      .of_late (by omega) hresult (hzero.trans htaken.symm) ?_ ?_ (.inr ⟨hstate, ?_, ?_⟩)⟩
    · simp [hrcvd, htaken]
    · exact fun i hi => absurd hi (by simp [hrcvd])
    · refine .set hbufLen ?_ ?_
      · rwa [hbufText _ le_rfl, take_length]
      · rw [hbufText _ le_rfl]
        exact hnone _ le_rfl
    · exact hrcvd.trans htaken.symm
  | some j =>
    have hj : j < text.length := by
      obtain ⟨hle, hpre, -⟩ := findSub_eq_some.mp hcr
      have := hpre.length_le
      rw [length_drop] at this
      have : crlf.length = 2 := rfl
      omega
    obtain ⟨sp, hsp, hok⟩ := h.status (text.take j) (text.drop (j + 2)) (by rw [hhead, hcr]; rfl)
    have htaken :
        taken space hdr = ((contentLength (text.drop (j + 2))).map simpleStrtoul).getD space := by
      rw [taken, hhead, hcr]
      rfl
    have hdead : Dead ((p.respHdr.set text.length 0).set j 0) := by
      have htake : (p.respHdr.set text.length 0).take j = text.take j := by
        rw [take_set_of_le hj.le, hbufText j hj.le]
      refine .set (by rw [length_set]; omega) ?_ ?_
      · rw [htake]
        exact fun h0 => htext (mem_of_mem_take h0)
      · rw [htake]
        exact hnone j hj.le
    simp only [hsp, hok, ne_eq, not_true_eq_false, if_false]
    obtain ⟨hqlen, hqrcvd, hqresult, hqstate, hqbuf⟩ :=
      setLength_fields space { p with respHdr := (p.respHdr.set text.length 0).set j 0 }
        (text.drop (j + 2))
    generalize setLength space { p with respHdr := (p.respHdr.set text.length 0).set j 0 }
      (text.drop (j + 2)) = q at *
    rw [← htaken] at hqlen
    rcases Nat.eq_zero_or_pos k with rfl | hpos
    · refine ⟨q, some false, by rw [take_zero, if_pos rfl], ?_⟩
      rw [if_pos rfl]
      refine .of_late (by omega) (hqresult.trans hresult) hqlen ?_ ?_ (.inl rfl)
      · simp [hqrcvd, hrcvd, hlen]
      · exact fun i hi => absurd hi (by simp [hqrcvd, hrcvd])
    · have hlenk : (body.take k).length = k := by rw [length_take]; omega
      have hne : body.take k ≠ [] := by
        intro hnil
        rw [hnil, length_nil] at hlenk
        omega
      have hdata :
          body.take k = (body.drop (hdr.length - hdr.length)).take (body.take k).length := by
        rw [Nat.sub_self, drop_zero, hlenk]
      obtain ⟨hrlen, hrrcvd, hrmem, hrdone⟩ := wgetRecvData_known hdata hqlen (by rw [hqrcvd, hrcvd,
        Nat.sub_self, Nat.zero_min]) (fun i hi => absurd hi (by rw [hqrcvd, hrcvd]; omega))
      rw [Nat.sub_self, zero_add, hlenk] at hrrcvd
      have hsub : text.length + 4 + k - hdr.length = k := by omega
      refine ⟨_, _, by rw [if_neg hne], ?_⟩
      cases hdone : (wgetRecvData q (body.take k)).2 with
      | true =>
        rw [if_neg (by simp)]
        refine .of_late (by omega) (hqresult.trans hresult) hrlen (by rw [hsub]; exact hrrcvd) hrmem
          (.inr ⟨?_, ?_, ?_⟩)
        · exact hqstate.trans hstate
        · exact (show (wgetRecvData q (body.take k)).1.respHdr = q.respHdr from rfl) ▸ hqbuf ▸ hdead
        · exact hrdone.mp hdone
      | false =>
        rw [if_pos rfl]
        exact .of_late (by omega) (hqresult.trans hresult) hrlen (by rw [hsub]; exact hrrcvd) hrmem
          (.inl rfl)

theorem Known.rx (h : Response hdr body) (hk : Known space hdr body n p)
    (hdata : data = ((hdr ++ body).drop n).take data.length) :
    Known space hdr body (n + data.length) (wgetRx space p data) := by
  by_cases hn : n < hdr.length
  · obtain ⟨hstate, hbuf, hzero, hrcvd⟩ := hk.early hn
    have hbuf' : p.respHdr ++ data = (hdr ++ body).take (n + data.length) := by
      rw [take_add, ← hdata, take_append_of_le_length hn.le, hbuf]
    rw [wgetRx, hstate]
    by_cases hmore : n + data.length < hdr.length
    · -- the header is not complete yet
      rw [take_append_of_le_length hmore.le] at hbuf'
      have hcstr : cstr (hdr.take (n + data.length)) = hdr.take (n + data.length) := by
        have := cstr_append (l := hdr.take (n + data.length)) (fun h0 =>
          h.text (mem_of_mem_take h0)) []
        simpa [cstr] using this
      have hnone : findSub crlfcrlf (cstr (p.respHdr ++ data)) = none := by
        rw [hbuf', hcstr]
        refine findSub_take h.ends ?_
        have : crlfcrlf.length = 4 := rfl
        omega
      simp only [hnone]
      exact ⟨hk.result, fun _ => ⟨rfl, hbuf', hzero, hrcvd⟩, fun hle => absurd hle (by omega)⟩
    · have hall : data.length ≤ (hdr ++ body).length - n := by
        rw [hdata, length_take, length_drop]
        exact min_le_right _ _
      rw [length_append] at hall
      have hsplit : n + data.length = hdr.length + (n + data.length - hdr.length) := by omega
      rw [hsplit, take_length_add_append] at hbuf'
      have hfind : findSub crlfcrlf (cstr (p.respHdr ++ data)) = some (hdr.length - 4) := by
        rw [hbuf', cstr_append h.text]
        exact findSub_append h.ends _
      obtain ⟨q, r, hparse, hknown⟩ := wgetParseResponse_known space
        (p := { p with respHdr := p.respHdr ++ data }) h
        hstate hk.result hrcvd hzero hbuf' (by omega)
      rw [← hsplit] at hknown
      simp only [hfind]
      rw [hstate] at hparse
      rw [hparse]
      rcases r with _ | (_ | _)
      · exact hknown
      · exact hknown
      · exact ⟨hknown.result, hknown.early, hknown.late⟩
  · obtain ⟨hlenp, hrcvd, hmem, hstate⟩ := hk.late (by omega)
    have hsub : n + data.length - hdr.length = n - hdr.length + data.length := by omega
    rcases hstate with hstate | ⟨hstate, hdead, hfull⟩
    · rw [drop_append, drop_eq_nil_of_le (not_lt.mp hn), nil_append] at hdata
      obtain ⟨hrlen, hrrcvd, hrmem, hrdone⟩ := wgetRecvData_known hdata hlenp hrcvd hmem
      rw [wgetRx, hstate]
      rcases hr : wgetRecvData p data with ⟨q, done⟩
      rw [hr] at hrlen hrrcvd hrmem
      have hq : q.state = .dataReceiving ∧ q.result = 0 := by
        obtain rfl : (wgetRecvData p data).1 = q := by rw [hr]
        exact ⟨hstate, hk.result⟩
      cases done with
      | true => exact .of_late (by omega) hq.2 hrlen (by rw [hsub]; exact hrrcvd) hrmem (.inl hq.1)
      | false => exact .of_late (by omega) hq.2 hrlen (by rw [hsub]; exact hrrcvd) hrmem (.inl hq.1)
    · -- all has been received, and the buffer with the header is of no use any more
      rw [wgetRx, hstate]
      simp only [(hdead.append data).not_found]
      exact .of_late (by omega) hk.result hlenp (show p.dataRcvdLen = _ by rw [hsub]; omega) hmem
        (.inr ⟨rfl, hdead.append data, hfull⟩)

theorem Known.run (h : Response hdr body) (hk : Known space hdr body n p)
    (hdata : delivered evs <+: (hdr ++ body).drop n) :
    Known space hdr body (n + (delivered evs).length) (evs.foldl (wgetCallback space) p) := by
  induction evs generalizing n p with
  | nil => exact hk
  | cons ev evs ih =>
    have hsplit : delivered (ev :: evs) = ev.data ++ delivered evs := rfl
    rw [hsplit] at hdata
    rw [hsplit, length_append, ← add_assoc, foldl_cons]
    have hfirst := (prefix_append _ _).trans hdata
    refine ih ?_ ?_
    · have hev := prefix_iff_eq_take.mp hfirst
      cases ev with
      | dataSent => exact hk
      | dataRcvd data =>
        rw [wgetCallback]
        split
        · exact hk.rx h hev
        · rename_i hlen
          obtain rfl : data = [] := eq_nil_of_length_eq_zero (not_not.mp hlen)
          exact hk
    · obtain ⟨rest, hrest⟩ := hdata
      refine ⟨rest, ?_⟩
      rw [← drop_drop, ← hrest, append_assoc, drop_left]

theorem right_ok {len : Nat} {mem : Mem} : Right hdr body evs (.ok (len, mem)) ↔ delivered evs =
      hdr ++ body ∧ len = body.length ∧ ∀ i < body.length, mem i = body.getD i 0 := by
  constructor
  · rintro ⟨hwhole, hdata⟩
    exact ⟨hwhole.mp ⟨_, rfl⟩, hdata len mem rfl⟩
  · rintro ⟨hwhole, hdata⟩
    refine ⟨⟨fun _ => hwhole, fun _ => ⟨_, rfl⟩⟩, fun len' mem' heq => ?_⟩
    obtain ⟨rfl, rfl⟩ := Prod.mk.inj (Except.ok.inj heq)
    exact hdata

theorem right_error {e : Int} : Right hdr body evs (.error e) ↔ delivered evs ≠ hdr ++ body := by
  constructor
  · rintro ⟨hwhole, -⟩ hall
    obtain ⟨x, hx⟩ := hwhole.mpr hall
    cases hx
  · intro hne
    refine ⟨iff_of_false ?_ hne, fun _ _ h => by cases h⟩
    rintro ⟨x, hx⟩
    cases hx

/-- For every response of status 200, every way to deliver a prefix of it and every end: the result
is right exactly if the transfer settles. -/
theorem wget_result_iff (h : Response hdr body) (mem : Mem) {evs : List Ev}
    (hdata : delivered evs <+: hdr ++ body) (fin : End) :
    Right hdr body evs (startWget space mem evs fin) ↔ Settled space hdr body evs fin := by
  obtain ⟨text, -, hlen, -, -⟩ := h.text_split
  have hknown := Known.run h (.start mem (by omega) : Known space hdr body 0 { mem := mem })
    (by simpa using hdata)
  rw [zero_add] at hknown
  have hle := hdata.length_le
  have hwhole :
      delivered evs = hdr ++ body ↔ (delivered evs).length = hdr.length + body.length := by
    rw [← length_append]
    exact ⟨congrArg List.length, hdata.eq_of_length⟩
  rw [length_append] at hle
  have hbody : 0 < body.length := length_pos_iff.mpr h.body
  rw [startWget]
  generalize evs.foldl (wgetCallback space) { mem := mem } = q at hknown
  have hfull : delivered evs = hdr ++ body → q.dataLen = taken space hdr ∧ (taken space hdr =
        body.length → q.dataRcvdLen = q.dataLen ∧ ∀ i < body.length, q.mem i = body.getD i 0) := by
    intro hall
    obtain ⟨hdl, hrcvd, hmem, -⟩ := hknown.late (by rw [hwhole.mp hall]; omega)
    have hn := hwhole.mp hall
    exact ⟨hdl, fun ht => ⟨by omega, fun i hi => hmem i (by omega)⟩⟩
  -- without a callback that sets an error the client takes all for received
  have hquiet : (∀ t, fin ≠ .remoteClosed t) →
      (Right hdr body evs (.ok (q.dataLen, q.mem)) ↔ Settled space hdr body evs fin) := by
    intro hfin
    rw [right_ok, Settled]
    split_ifs with ht
    · constructor
      · exact fun ⟨hall, _⟩ => .inl ⟨hall, hfin true⟩
      · rintro (⟨hall, -⟩ | ⟨-, t, ht'⟩)
        · exact ⟨hall, (hfull hall).1.trans ht, ((hfull hall).2 ht).2⟩
        · exact absurd ht' (hfin t)
    · constructor
      · exact fun ⟨hall, hl, _⟩ => absurd ((hfull hall).1.symm.trans hl) ht
      · exact fun ⟨_, t, ht', _⟩ => absurd ht' (hfin t)
  cases fin with
  | closed =>
    rw [wgetEnd, if_neg (by simp [hknown.result])]
    exact hquiet (fun t => by simp)
  | aborted =>
    rw [wgetEnd, if_neg (by simp [hknown.result])]
    exact hquiet (fun t => by simp)
  | remoteClosed t =>
    cases t with
    | true =>
      rw [wgetEnd, if_pos (show -etimedout ≠ 0 by decide), right_error, Settled]
      split_ifs with ht
      · simp
      · simp
    | false =>
      -- the client counts, and its count is right or wrong
      have hok : q.dataLen = q.dataRcvdLen ∧ q.dataLen ≠ 0 ↔
          0 < taken space hdr ∧ hdr.length + taken space hdr ≤ (delivered evs).length := by
        by_cases hn : (delivered evs).length < hdr.length
        · obtain ⟨-, -, hdl, -⟩ := hknown.early hn
          exact iff_of_false (by omega) (by omega)
        · obtain ⟨hdl, hrcvd, -, -⟩ := hknown.late (not_lt.mp hn)
          omega
      have hend : (if (wgetEnd q (.remoteClosed false)).result ≠ 0 then
            Except.error (wgetEnd q (.remoteClosed false)).result
          else .ok
            ((wgetEnd q (.remoteClosed false)).dataLen, (wgetEnd q (.remoteClosed false)).mem)) =
          if q.dataLen = q.dataRcvdLen ∧ q.dataLen ≠ 0 then .ok (q.dataLen, q.mem)
          else .error (-econnreset) := by
        rw [wgetEnd]
        by_cases heq : q.dataLen = q.dataRcvdLen
        · by_cases hz : q.dataLen = 0
          · rw [if_neg (not_not.mpr heq), if_pos hz, if_pos (show -econnreset ≠ 0 by decide),
              if_neg (fun h => h.2 hz)]
          · rw [if_neg (not_not.mpr heq), if_neg hz, if_neg (not_not.mpr hknown.result),
              if_pos ⟨heq, hz⟩]
        · rw [if_pos heq, if_pos (show -econnreset ≠ 0 by decide), if_neg (fun h => heq h.1)]
      rw [hend, Settled]
      split_ifs with hrec ht ht
      · rw [right_ok]
        have hall := hwhole.mpr (by have := hok.mp hrec; omega)
        refine iff_of_true ⟨hall, (hfull hall).1.trans ht, ((hfull hall).2 ht).2⟩
          (.inl ⟨hall, by simp⟩)
      · rw [right_ok]
        refine iff_of_false ?_ ?_
        · exact fun ⟨hall, hl, _⟩ => ht ((hfull hall).1.symm.trans hl)
        · rintro ⟨-, t, heq, hnot⟩
          obtain rfl : false = t := End.remoteClosed.inj heq
          exact hnot ⟨rfl, hok.mp hrec⟩
      · rw [right_error]
        have hne : delivered evs ≠ hdr ++ body :=
          fun hall => hrec (hok.mpr (by have := hwhole.mp hall; omega))
        exact iff_of_true hne (.inr ⟨hne, false, rfl⟩)
      · rw [right_error]
        constructor
        · exact fun hne => ⟨hne, false, rfl, fun ⟨_, hrec'⟩ => hrec (hok.mpr hrec')⟩
        · exact And.left

def lengthHeader : Str := ascii "HTTP/1.0 200 OK\r\nContent-Length: 3\r\n\r\n"

def lowerHeader : Str := ascii "HTTP/1.0 200 OK\r\ncontent-length: 3\r\n\r\n"

theorem lengthHeader_response : Response lengthHeader [1, 2, 3] where
  ends := by decide +kernel
  text := by decide +kernel
  status line fields h := by
    cases h
    exact ⟨8, by decide +kernel, by decide +kernel⟩
  body := by decide

theorem lowerHeader_response : Response lowerHeader [1, 2, 3] where
  ends := by decide +kernel
  text := by decide +kernel
  status line fields h := by
    cases h
    exact ⟨8, by decide +kernel, by decide +kernel⟩
  body := by decide

def twoSegments (hdr : Str) : List Ev := [.dataRcvd (hdr ++ [1]), .dataSent, .dataRcvd [2, 3]]

theorem wget_right_in_two_segments : Right lengthHeader [1, 2, 3] (twoSegments lengthHeader)
      (startWget 1000 (fun _ => 0) (twoSegments lengthHeader) .closed) := by
  refine (wget_result_iff lengthHeader_response (fun _ => 0) (by decide +kernel) .closed).mpr ?_
  rw [Settled, if_pos (by decide +kernel)]
  exact .inl ⟨by decide +kernel, by decide⟩

/-- With the field spelt otherwise the whole response ends in an error, and a transfer that the user
stops at its start is a success. -/
theorem wget_wrong_results : (Response lowerHeader [1, 2, 3] ∧
      delivered (twoSegments lowerHeader) = lowerHeader ++ [1, 2, 3] ∧
      startWget 1000 (fun _ => 0) (twoSegments lowerHeader) (.remoteClosed false) =
        .error (-econnreset)) ∧
    Response lengthHeader [1, 2, 3] ∧ delivered [] ≠ lengthHeader ++ [1, 2, 3] ∧
    startWget 1000 (fun _ => 0) [] .aborted = .ok (0, fun _ => 0) := by
  refine ⟨⟨lowerHeader_response, by decide +kernel, ?_⟩,
    lengthHeader_response, by decide +kernel, rfl⟩
  have hresult :
    (wgetEnd ((twoSegments lowerHeader).foldl (wgetCallback 1000) { mem := fun _ => 0 })
      (.remoteClosed false)).result = -econnreset := by decide +kernel
  rw [startWget, hresult, if_pos (by decide)]

end MtkBoot.Http
