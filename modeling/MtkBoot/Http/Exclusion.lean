import MtkBoot.Http.Session
import MtkBoot.Lib.System

/-! All sessions of the server: segments and closures in any order, and when no two uploads go to
the shared RAM region at a time. -/

namespace MtkBoot.Http

open Lib Option

variable {d : Bytes} {g : Shared} {handled : Bool} {i : Nat}

structure World where
  shared : Shared
  sessions : Nat → Option Session

variable {w w' : World}

/-- What TCP reports to the server, with what `httpd_handle_request` and `httpd_tx` make of it. -/
inductive Event where
  | connect (i : Nat) (data : Bytes) (handled : Bool)
  | segment (i : Nat) (data : Bytes) (handled : Bool)
  | sent (i : Nat) (last : Bool)
  | closed (i : Nat)
  deriving DecidableEq, Repr

variable {es : List Event}

def World.put (w : World) (i : Nat) (g : Shared) (s : Option Session) : World :=
  ⟨g, Function.update w.sessions i s⟩

/-- A complete request is answered, or its connection is only closed. -/
def Session.handle (s : Session) (handled : Bool) : Session :=
  if s.status = .fullRcvd ∧ handled then { s with status := .responding } else s

def World.rx (w : World) (i : Nat) (data : Bytes) (handled : Bool) (s : Session) : Option World :=
  if data = [] then some (w.put i w.shared s)
  else (Http.rx data w.shared s).map fun p => w.put i p.1 (p.2.handle handled)

def World.cleanup (w : World) (i : Nat) (s : Session) : World :=
  w.put i { w.shared with isUploading := w.shared.isUploading && !s.isUploading } none

/-- `httpd_mtk_tcp_callback`. -/
def step (e : Event) (w : World) : Option World :=
  match e with
  | .connect i data handled =>
    match w.sessions i with
    | none => w.rx i data handled {}
    | some _ => none
  | .segment i data handled => (w.sessions i).bind fun s => w.rx i data handled s
  | .sent i last => (w.sessions i).map fun s =>
      w.put i w.shared (some (if last then { s with status := .closing } else s))
  | .closed i => (w.sessions i).map fun s => w.cleanup i s

def Init (w : World) : Prop := w.shared.isUploading = false ∧ ∀ i, w.sessions i = none

def AnyStep (w w' : World) : Prop := ∃ e, step e w = some w'

/-- The session writes to the shared RAM region and its payload is not complete. -/
def Session.RamUpload (s : Session) : Prop := s.uploadPtr = some .ram ∧ s.uploadSize ≠ s.payloadSize

instance (s : Session) : Decidable s.RamUpload := inferInstanceAs (Decidable (_ ∧ _))

/-- The session has a part of a payload in its own buffer. -/
def Session.BufUpload (s : Session) : Prop :=
  s.isUploading = true ∧ ∃ off, s.uploadPtr = some (.buf off)

def World.OtherRam (w : World) (i : Nat) : Prop :=
  ∃ j s, j ≠ i ∧ w.sessions j = some s ∧ s.RamUpload

/-- The event does not end an upload to a session's own buffer, by its last segment or by a closure,
while another session uploads to the RAM region. -/
def Event.Quiet (w : World) : Event → Prop
  | .segment i data _ => ∀ s, w.sessions i = some s → s.BufUpload →
      subU32 s.payloadSize s.uploadSize ≤ data.length → ¬w.OtherRam i
  | .closed i => ∀ s, w.sessions i = some s → s.BufUpload → ¬w.OtherRam i
  | _ => True

def QuietStep (w w' : World) : Prop := ∃ e, e.Quiet w ∧ step e w = some w'

/-- The own flag of a session says that its payload is incomplete. -/
structure SessionOk (s : Session) : Prop where
  early : s.status = .new ∨ s.status = .headerRecving → s.uploadPtr = none
  flag : s.isUploading = true ↔ s.uploadPtr ≠ none ∧ s.uploadSize ≠ s.payloadSize
  recving : s.status = .payloadRecving → s.isUploading = true
  size : s.payloadSize < 2 ^ 32

/-- What a segment does to the shared flag: nothing, or it raises it for an upload that begins, or
clears it for one that ends. -/
inductive Effect (d : Bytes) (g : Shared) (s : Session) (g' : Shared) (s' : Session) : Prop
  | kept (hflag : g'.isUploading = g.isUploading) (hram : s'.RamUpload → s.RamUpload)
  | raised (hflag : g'.isUploading = true) (hram : s'.RamUpload → g.isUploading = false)
  | cleared (hown : s.isUploading = true) (hlen : subU32 s.payloadSize s.uploadSize ≤ d.length)
      (hram : ¬s'.RamUpload)

section Segment

variable {g' : Shared} {s s' : Session} {b : Bool}

theorem SessionOk.settled (hflag : s.isUploading ↔
      s.uploadPtr ≠ none ∧ s.uploadSize ≠ s.payloadSize) (hsize : s.payloadSize < 2 ^ 32)
    (hstatus : s.status = .fullRcvd ∨ s.status = .responding ∨ s.status = .closing) :
    SessionOk s := by
  rcases hstatus with h | h | h <;> exact ⟨by simp [h], hflag, by simp [h], hsize⟩

theorem Effect.congr {s₁ : Session} (h : Effect d g s₁ g' s') (hptr : s₁.uploadPtr = s.uploadPtr)
    (hown : s₁.isUploading = s.isUploading) (hupl : s₁.uploadSize = s.uploadSize)
    (hsize : s₁.payloadSize = s.payloadSize) : Effect d g s g' s' := by
  cases h with
  | kept hflag hram =>
    refine .kept hflag fun h => ?_
    obtain ⟨h1, h2⟩ := hram h
    exact ⟨hptr.symm.trans h1, by rwa [← hsize, ← hupl]⟩
  | raised hflag hram => exact .raised hflag hram
  | cleared hown' hlen hram =>
    rw [hsize, hupl] at hlen
    exact .cleared (hown.symm.trans hown') hlen hram

theorem finishHdr_effect (h : finishHdr g s = some (b, g', s')) (hown : s.isUploading = false)
    (hptr : s.uploadPtr ≠ none) (hsize : s.payloadSize < 2 ^ 32) :
    SessionOk s' ∧ s'.uploadPtr = s.uploadPtr ∧ (g'.isUploading = g.isUploading ∧ ¬s'.RamUpload ∧
        s'.status = .fullRcvd ∨ g'.isUploading ∧ b) := by
  unfold finishHdr at h
  by_cases hall : s.uploadSize = s.payloadSize
  · rw [if_pos hall] at h
    cases hstore : store s.payloadSize [0] g s with
    | none => simp [hstore] at h
    | some p =>
      obtain ⟨hs1, hg1⟩ := store_eq hstore
      simp only [hstore, Option.some.injEq, Prod.mk.injEq] at h
      obtain ⟨-, rfl, rfl⟩ := h
      rw [hs1, hg1]
      refine ⟨.settled ?_ hsize (by simp), rfl, .inl ⟨rfl, fun hram => hram.2 hall, rfl⟩⟩
      rw [hown]
      exact ⟨fun h => absurd h Bool.false_ne_true, fun h => absurd hall h.2⟩
  · rw [if_neg hall] at h
    cases h
    refine ⟨⟨?_, ?_, fun _ => rfl, hsize⟩, rfl, .inr ⟨rfl, rfl⟩⟩
    · rintro (h | h) <;> cases h
    · exact ⟨fun _ => ⟨hptr, hall⟩, fun _ => rfl⟩

theorem startUpload_effect {n : Nat} (h : startUpload n d g s = some (b, g', s'))
    (hstatus : s.status = .headerRecving) (hown : s.isUploading = false)
    (hnone : s.uploadPtr = none) (hsize : s.payloadSize < 2 ^ 32) :
    SessionOk s' ∧ Effect d g s g' s' ∧ (b = false → s'.status = .fullRcvd) := by
  unfold startUpload at h
  by_cases hsmall : u32 (n + s.payloadSize) < bufSize
  · rw [if_pos hsmall] at h
    obtain ⟨hok, hptr, hflag⟩ := finishHdr_effect h hown (by simp) hsize
    have hram : ¬s'.RamUpload := by
      rintro ⟨hram, -⟩
      cases hptr.symm.trans hram
    rcases hflag with ⟨hflag, -, hfull⟩ | ⟨hflag, rfl⟩
    · exact ⟨hok, .kept hflag fun h => absurd h hram, fun _ => hfull⟩
    · exact ⟨hok, .raised hflag fun h => absurd h hram, Bool.noConfusion⟩
  · rw [if_neg hsmall] at h
    cases hbusy : g.isUploading with
    | true =>
      rw [if_pos hbusy] at h
      cases h
      refine ⟨⟨fun _ => hnone, ?_, ?_, hsize⟩, .kept rfl id, Bool.noConfusion⟩
      · rw [hown, hnone]
        simp
      · rw [hstatus]
        exact Status.noConfusion
    | false =>
      rw [if_neg (by rw [hbusy]; decide)] at h
      simp only at h
      split at h
      · cases h
      · obtain ⟨hok, hptr, hflag⟩ := finishHdr_effect h hown (by simp) hsize
        rcases hflag with ⟨hflag, hram, hfull⟩ | ⟨hflag, rfl⟩
        · exact ⟨hok, .kept hflag fun h => absurd h hram, fun _ => hfull⟩
        · exact ⟨hok, .raised hflag fun _ => hbusy, Bool.noConfusion⟩

theorem parseHdr_effect {hdr : Str} (hstatus : s.status = .headerRecving) (hok : SessionOk s)
    (h : parseHdr hdr d g s = some (b, g', s')) :
    SessionOk s' ∧ Effect d g s g' s' ∧ (b = false → s'.status = .fullRcvd) := by
  have hnone := hok.early (.inr hstatus)
  have hown : s.isUploading = false := by
    rw [← Bool.not_eq_true, hok.flag, hnone]
    simp
  unfold parseHdr at h
  split at h
  · cases h
    exact ⟨.settled hok.flag hok.size (by simp [stdErrResponse]), .kept rfl id, Bool.noConfusion⟩
  · cases h
    exact ⟨.settled hok.flag hok.size (by simp), .kept rfl id, fun _ => rfl⟩
  rename_i uri fields hline
  have hsize := payloadSize_lt fields hok.size
  split at h
  · cases h
    refine ⟨.settled ?_ hsize (by simp [stdErrResponse]), .kept rfl ?_, Bool.noConfusion⟩
    · show s.isUploading ↔ s.uploadPtr ≠ none ∧ _
      rw [hown, hnone]
      simp
    · rintro ⟨hram, -⟩
      cases hnone.symm.trans hram
  · obtain ⟨hok', heffect, hfull⟩ := startUpload_effect h hstatus hown hnone hsize
    refine ⟨hok', ?_, hfull⟩
    cases heffect with
    | kept hflag hram =>
      refine .kept hflag fun h => ?_
      cases hnone.symm.trans (hram h).1
    | raised hflag hram => exact .raised hflag hram
    | cleared hown' hlen hram => cases hown.symm.trans hown'

theorem recvHdr_effect (hstatus : s.status = .headerRecving) (hok : SessionOk s)
    (h : recvHdr d g s = some (b, g', s')) :
    SessionOk s' ∧ Effect d g s g' s' ∧ (b = false → s'.status = .fullRcvd) := by
  unfold recvHdr at h
  simp only at h
  split at h
  · obtain ⟨hok', heffect, hfull⟩ :=
      parseHdr_effect (s := s.cache d) hstatus ⟨hok.early, hok.flag, hok.recving, hok.size⟩ h
    exact ⟨hok', heffect.congr rfl rfl rfl rfl, hfull⟩
  · split at h
    · cases h
      exact ⟨⟨hok.early, hok.flag, hok.recving, hok.size⟩, .kept rfl id, Bool.noConfusion⟩
    · cases h
      exact ⟨.settled hok.flag hok.size (by simp [stdErrResponse]), .kept rfl id, Bool.noConfusion⟩

theorem recvPayload_effect (hstatus : s.status = .payloadRecving) (hok : SessionOk s)
    (h : recvPayload d g s = some (b, g', s')) : SessionOk s' ∧ Effect d g s g' s' := by
  have hown := hok.recving hstatus
  have hptr := (hok.flag.mp hown).1
  have hsize := hok.size
  unfold recvPayload at h
  generalize hn : min (subU32 s.payloadSize s.uploadSize) d.length = n at h
  cases hstore : store s.uploadSize (d.take n) g s with
  | none => simp [hstore] at h
  | some p =>
    obtain ⟨hs1, hg1⟩ := store_eq hstore
    simp only [hstore] at h
    rw [hs1, hg1] at h
    unfold finishPayload at h
    split at h
    · rename_i hall
      replace hall : u32 (s.uploadSize + n) = s.payloadSize := hall
      split at h
      · cases h
      rename_i g2 s2 hzero
      obtain ⟨hs2, -⟩ := store_eq hzero
      cases h
      rw [hs2]
      have hlen : subU32 s.payloadSize s.uploadSize ≤ d.length := by
        simp only [u32, subU32] at hall hn ⊢
        omega
      refine ⟨.settled ?_ hsize (by simp), .cleared hown hlen fun hram => hram.2 hall⟩
      exact ⟨fun h => absurd h Bool.false_ne_true, fun h => absurd hall h.2⟩
    · rename_i hall
      cases h
      refine ⟨⟨?_, ?_, fun _ => hown, hsize⟩, .kept rfl ?_⟩
      · intro h
        exact hok.early h
      · exact ⟨fun _ => ⟨hptr, hall⟩, fun _ => hown⟩
      · rintro ⟨hram, -⟩
        exact ⟨hram, (hok.flag.mp hown).2⟩

theorem rx_effect (hok : SessionOk s) (h : rx d g s = some (g', s')) :
    SessionOk s' ∧ Effect d g s g' s' := by
  have hbegin : SessionOk s.begin ∧ s.begin.payloadSize = s.payloadSize ∧
      s.begin.uploadSize = s.uploadSize ∧ s.begin.isUploading = s.isUploading ∧
      s.begin.uploadPtr = s.uploadPtr := by
    unfold Session.begin
    split
    · rename_i hnew
      exact ⟨⟨fun _ => hok.early (.inl hnew), hok.flag, Status.noConfusion, hok.size⟩, rfl, rfl,
        rfl, rfl⟩
    · exact ⟨hok, rfl, rfl, rfl, rfl⟩
  obtain ⟨hok1, hsize, hupl, hown, hptr⟩ := hbegin
  have hback : ∀ {g' s'}, Effect d g s.begin g' s' → Effect d g s g' s' :=
    fun heffect => heffect.congr hptr hown hupl hsize
  unfold rx at h
  generalize s.begin = s1 at *
  by_cases hhdr : s1.status = .headerRecving
  · simp only [hhdr, if_true] at h
    obtain ⟨⟨b, g2, s2⟩, hrecv, h⟩ := bind_eq_some_iff.mp h
    obtain ⟨hok2, heffect, hfull⟩ := recvHdr_effect hhdr hok1 hrecv
    cases b with
    | true =>
      cases h
      exact ⟨hok2, hback heffect⟩
    | false =>
      simp only [continueRx, hfull rfl, reduceCtorEq, if_false] at h
      cases h
      exact ⟨hok2, hback heffect⟩
  · simp only [if_neg hhdr, bind_some, continueRx] at h
    split at h
    · rename_i hpay
      obtain ⟨⟨b, g2, s2⟩, hrecv, heq⟩ := map_eq_some_iff.mp h
      cases heq
      obtain ⟨hok2, heffect⟩ := recvPayload_effect hpay hok1 hrecv
      exact ⟨hok2, hback heffect⟩
    · cases h
      exact ⟨hok1, hback (.kept rfl id)⟩

end Segment

/-- The shared flag stands for the one upload that goes to the RAM region. -/
structure Inv (w : World) : Prop where
  ok : ∀ i s, w.sessions i = some s → SessionOk s
  flag : ∀ i s, w.sessions i = some s → s.RamUpload → w.shared.isUploading = true
  single : ∀ i j s t, w.sessions i = some s → w.sessions j = some t → s.RamUpload → t.RamUpload →
    i = j

theorem inv_init (h : Init w) : Inv w := by
  refine ⟨fun i s hs => ?_, fun i s hs => ?_, fun i j s t hs => ?_⟩ <;>
  · rw [h.2 i] at hs
    cases hs

theorem Inv.put (h : Inv w) {s : Option Session} (hok : ∀ t, s = some t → SessionOk t)
    (hother : w.OtherRam i → g.isUploading)
    (hram : ∀ t, s = some t → t.RamUpload → g.isUploading ∧ ¬w.OtherRam i) : Inv (w.put i g s) := by
  have hsame : (w.put i g s).sessions i = s := by simp [World.put]
  have helse : ∀ j ≠ i, (w.put i g s).sessions j = w.sessions j := by
    intro j hj
    simp [World.put, hj]
  refine ⟨?_, ?_, ?_⟩
  · intro j t ht
    by_cases hj : j = i
    · subst hj
      exact hok t (hsame.symm.trans ht)
    · exact h.ok j t ((helse j hj).symm.trans ht)
  · intro j t ht hup
    by_cases hj : j = i
    · subst hj
      exact (hram t (hsame.symm.trans ht) hup).1
    · exact hother ⟨j, t, hj, (helse j hj).symm.trans ht, hup⟩
  · intro j k t u ht hu hup hup'
    by_cases hj : j = i <;> by_cases hk : k = i
    · rw [hj, hk]
    · subst hj
      exact absurd ⟨k, u, hk, (helse k hk).symm.trans hu, hup'⟩ (hram t (hsame.symm.trans ht) hup).2
    · subst hk
      exact absurd ⟨j, t, hj, (helse j hj).symm.trans ht, hup⟩ (hram u (hsame.symm.trans hu) hup').2
    · exact h.single j k t u ((helse j hj).symm.trans ht) ((helse k hk).symm.trans hu) hup hup'

theorem Inv.not_other (h : Inv w) {s : Session} (hs : w.sessions i = some s) (hup : s.RamUpload) :
    ¬w.OtherRam i := by
  rintro ⟨j, t, hj, ht, hup'⟩
  exact hj (h.single j i t s ht hs hup' hup)

theorem Inv.other_flag (h : Inv w) (hother : w.OtherRam i) : w.shared.isUploading := by
  obtain ⟨j, t, -, ht, hup⟩ := hother
  exact h.flag j t ht hup

theorem Inv.not_other_of_own (h : Inv w) {s : Session} (hs : w.sessions i = some s)
    (hown : s.isUploading) (hquiet : s.BufUpload → ¬w.OtherRam i) : ¬w.OtherRam i := by
  obtain ⟨hptr, hne⟩ := (h.ok i s hs).flag.mp hown
  cases hp : s.uploadPtr with
  | none => exact absurd hp hptr
  | some p =>
    cases p with
    | buf off => exact hquiet ⟨hown, off, hp⟩
    | ram => exact h.not_other hs ⟨hp, hne⟩

theorem handle_ok {s : Session} (hok : SessionOk s) (handled : Bool) :
    SessionOk (s.handle handled) := by
  unfold Session.handle
  split
  · exact .settled hok.flag hok.size (by simp)
  · exact hok

theorem handle_ram {s : Session} (h : (s.handle handled).RamUpload) : s.RamUpload := by
  unfold Session.handle at h
  split at h
  · exact h
  · exact h

theorem Inv.rx (h : Inv w) {s : Session} (hs : w.sessions i = some s ∨ s = {})
    (hquiet : w.sessions i = some s → s.BufUpload → subU32 s.payloadSize s.uploadSize ≤ d.length →
      ¬w.OtherRam i) (hrx : w.rx i d handled s = some w') : Inv w' := by
  have hok : SessionOk s := by
    rcases hs with hs | rfl
    · exact h.ok i s hs
    · exact ⟨fun _ => rfl, by simp, fun h => (by cases h), by decide⟩
  -- an upload that the session has is the one in the table
  have hram : s.RamUpload → w.shared.isUploading ∧ ¬w.OtherRam i := by
    intro hup
    rcases hs with hs | rfl
    · exact ⟨h.flag i s hs hup, h.not_other hs hup⟩
    · exact absurd rfl hup.2
  unfold World.rx at hrx
  split at hrx
  · cases hrx
    refine h.put ?_ h.other_flag ?_
    · rintro t ⟨⟩
      exact hok
    · rintro t ⟨⟩ hup
      exact hram hup
  · obtain ⟨⟨g', s'⟩, hseg, rfl⟩ := map_eq_some_iff.mp hrx
    obtain ⟨hok', heffect⟩ := rx_effect hok hseg
    have hsession : ∀ t, some (s'.handle handled) = some t → SessionOk t := by
      rintro t ⟨⟩
      exact handle_ok hok' handled
    cases heffect with
    | kept hflag hback =>
      refine h.put hsession (fun hother => hflag.trans (h.other_flag hother)) ?_
      rintro t ⟨⟩ hup
      obtain ⟨hset, hno⟩ := hram (hback (handle_ram hup))
      exact ⟨hflag.trans hset, hno⟩
    | raised hflag hidle =>
      refine h.put hsession (fun _ => hflag) ?_
      rintro t ⟨⟩ hup
      refine ⟨hflag, fun hother => ?_⟩
      cases (hidle (handle_ram hup)).symm.trans (h.other_flag hother)
    | cleared hown hlen hdone =>
      have hno : ¬w.OtherRam i := by
        rcases hs with hs | rfl
        · exact h.not_other_of_own hs hown fun hbuf => hquiet hs hbuf hlen
        · cases hown
      refine h.put hsession (fun hother => absurd hother hno) ?_
      rintro t ⟨⟩ hup
      exact absurd (handle_ram hup) hdone

theorem Inv.step (h : Inv w) (hstep : QuietStep w w') : Inv w' := by
  obtain ⟨e, hquiet, hstep⟩ := hstep
  unfold Http.step at hstep
  cases e with
  | connect i d handled =>
    simp only at hstep
    split at hstep
    · rename_i hnone
      refine h.rx (.inr rfl) (fun hs => ?_) hstep
      rw [hnone] at hs
      cases hs
    · cases hstep
  | segment i d handled =>
    obtain ⟨s, hs, hrx⟩ := bind_eq_some_iff.mp hstep
    exact h.rx (.inl hs) (hquiet s) hrx
  | sent i last =>
    obtain ⟨s, hs, rfl⟩ := map_eq_some_iff.mp hstep
    have hok := h.ok i s hs
    refine h.put ?_ h.other_flag ?_
    · rintro t ⟨⟩
      split
      · exact .settled hok.flag hok.size (by simp)
      · exact hok
    · rintro t ⟨⟩ hup
      have hup' : s.RamUpload := by
        split at hup <;> exact hup
      exact ⟨h.flag i s hs hup', h.not_other hs hup'⟩
  | closed i =>
    obtain ⟨s, hs, rfl⟩ := map_eq_some_iff.mp hstep
    refine h.put ?_ ?_ ?_
    · rintro t ⟨⟩
    · intro hother
      have hown : s.isUploading = false := by
        by_contra hown
        exact h.not_other_of_own hs (Bool.not_eq_false _ ▸ hown) (hquiet s hs) hother
      rw [h.other_flag hother, hown]
      rfl
    · rintro t ⟨⟩

/-- In every run of such events no two sessions upload to the RAM region. -/
theorem ram_upload_unique {w : World} (hw : Reachable Init QuietStep w) {i j : Nat} {s t : Session}
    (hi : w.sessions i = some s) (hj : w.sessions j = some t) (hs : s.RamUpload)
    (ht : t.RamUpload) : i = j :=
  (hw.invariant (fun _ => inv_init) fun _ _ => Inv.step).single i j s t hi hj hs ht

/-! ### Runs on given events -/

def run : List Event → World → Option World
  | [], w => some w
  | e :: es, w => (step e w).bind (run es)

theorem reachable_of_run {R : World → World → Prop}
    (hR : ∀ e ∈ es, ∀ w w', step e w = some w' → R w w')
    (hw : Reachable Init R w) (h : run es w = some w') : Reachable Init R w' := by
  induction es generalizing w with
  | nil =>
    cases h
    exact hw
  | cons e es ih =>
    obtain ⟨w1, hstep, hrest⟩ := bind_eq_some_iff.mp h
    exact ih (fun e he => hR e (by simp [he])) (hw.step (hR e (by simp) w w1 hstep)) hrest

def idleWorld : World := ⟨⟨false, fun _ => 0⟩, fun _ => none⟩

def firmwareHdr : Str := ascii "POST / HTTP/1.1\r\nContent-Length: 9000\r\n\r\n"

def formHdr : Str := ascii "POST / HTTP/1.1\r\nContent-Length: 4\r\n\r\n"

theorem reachable_idle (R : World → World → Prop) : Reachable Init R idleWorld :=
  .init ⟨rfl, fun _ => rfl⟩

theorem ramUpload_of_run (i : Nat) (hrun : run es idleWorld = some w)
    (h : ((run es idleWorld).bind fun w => w.sessions i).map (fun s => decide s.RamUpload) =
      some true) : ∃ s, w.sessions i = some s ∧ s.RamUpload := by
  rw [hrun, bind_some] at h
  obtain ⟨s, hs, hup⟩ := map_eq_some_iff.mp h
  exact ⟨s, hs, of_decide_eq_true hup⟩

theorem ram_upload_unique_two : ∃ w s, Reachable Init QuietStep w ∧ w.sessions 0 = some s ∧
    s.RamUpload ∧ ∀ j t, w.sessions j = some t → t.RamUpload → 0 = j := by
  let es : List Event := [.connect 0 firmwareHdr true, .connect 1 firmwareHdr true]
  obtain ⟨w, hrun⟩ := isSome_iff_exists.mp (show (run es idleWorld).isSome by decide +kernel)
  have hreach : Reachable Init QuietStep w := by
    refine reachable_of_run (fun e he w w' hstep => ⟨e, ?_, hstep⟩) (reachable_idle _) hrun
    simp only [es, List.mem_cons, List.not_mem_nil, or_false] at he
    rcases he with rfl | rfl <;> trivial
  obtain ⟨s, hs, hup⟩ := ramUpload_of_run 0 hrun (by decide +kernel)
  exact ⟨w, s, hreach, hs, hup, fun j t ht hup' => ram_upload_unique hreach hs ht hup hup'⟩

/-- A large upload begins, then a small one, which also sets the flag and clears it at its end;
another large upload begins while the first one goes on. -/
theorem ram_upload_twice : ∃ w s t, Reachable Init AnyStep w ∧ w.sessions 0 = some s ∧ s.RamUpload ∧
    w.sessions 2 = some t ∧ t.RamUpload := by
  let es : List Event := [.connect 0 firmwareHdr true, .connect 1 formHdr true,
    .segment 1 [1, 2, 3, 4] true, .connect 2 firmwareHdr true]
  obtain ⟨w, hrun⟩ := isSome_iff_exists.mp (show (run es idleWorld).isSome by decide +kernel)
  obtain ⟨s, hs, hup⟩ := ramUpload_of_run 0 hrun (by decide +kernel)
  obtain ⟨t, ht, hup'⟩ := ramUpload_of_run 2 hrun (by decide +kernel)
  exact ⟨w, s, t, reachable_of_run (fun e _ w w' hstep => ⟨e, hstep⟩) (reachable_idle _) hrun, hs,
    hup, ht, hup'⟩

end MtkBoot.Http
