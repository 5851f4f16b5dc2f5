import MtkBoot.Fwu.Model

/-! BL1 runs the bytes that were authenticated.  The loaded secure images are disjoint, each call
writes to one of them only, and an accepted image does not change until it is reset. -/

namespace MtkBoot.Fwu

open Lib List Function Option State

variable {base len slots v x : Nat} {c : Smc} {mem : Mem} {p : Platform} {r : Run} {resp : Response}
  {ret : Int}

variable {size : Nat} {r' : Run} {post : Bool}

section Memory

variable {mem' : Mem}

theorem memcpy_outside {dst : Nat} (src : Nat) (hfit : dst + len ≤ 2 ^ 64)
    (hx : x < dst ∨ dst + len ≤ x) : memcpy mem dst src len x = mem x := by
  induction len generalizing mem dst src with
  | zero => rfl
  | succ len ih =>
    have hstep : ∀ v, update mem dst v x = mem x := fun v =>
      update_of_ne (by omega) v mem
    by_cases hlast : len = 0
    · subst hlast
      exact hstep _
    · rw [memcpy, Nat.mod_eq_of_lt (by omega : dst + 1 < 2 ^ 64), ih _ (by omega) (by omega), hstep]

theorem zeroNormalmem_outside (hfit : base + len ≤ 2 ^ 64) (hx : x < base ∨ base + len ≤ x) :
    zeroNormalmem mem base len x = mem x := by
  induction len generalizing mem base with
  | zero => rfl
  | succ len ih =>
    have hstep : update mem base 0 x = mem x := update_of_ne (by omega) 0 mem
    by_cases hlast : len = 0
    · subst hlast
      exact hstep
    · rw [zeroNormalmem, Nat.mod_eq_of_lt (by omega : base + 1 < 2 ^ 64), ih (by omega) (by omega),
        hstep]

theorem readMem_congr (hfit : base + len ≤ 2 ^ 64)
    (hsame : ∀ a, base ≤ a → a < base + len → mem' a = mem a) :
    readMem mem' base len = readMem mem base len := by
  apply map_congr_left
  intro i hi
  have hlt := mem_range.mp hi
  rw [Nat.mod_eq_of_lt (by omega)]
  exact hsame _ (by omega) (by omega)

end Memory

section Loaded

variable {ids ids' : List Nat} {id : Nat}

theorem mem_set_of_mem {i : Nat} (hx : x ∈ ids) (hne : ids[i]? ≠ some x) : x ∈ ids.set i v := by
  obtain ⟨j, hj, rfl⟩ := getElem_of_mem hx
  have hij : i ≠ j := by
    rintro rfl
    exact hne (getElem?_eq_getElem hj)
  rw [← getElem_set_ne hij (by simpa using hj)]
  exact getElem_mem _

theorem getElem?_of_idxOf? {i : Nat} (h : ids.idxOf? v = some i) : ids[i]? = some v := by
  obtain ⟨hi, heq, -⟩ := findIdx?_eq_some_iff_getElem.mp h
  rw [getElem?_eq_getElem hi]
  exact congrArg some (eq_of_beq heq)

theorem mem_addLoadedId (h : addLoadedId ids id = some ids') :
    id ∈ ids' ∧ ∀ x ∈ ids, x ≠ invalidImageId → x ∈ ids' := by
  rcases ite_eq_iff.mp h with ⟨hmem, heq⟩ | ⟨-, heq⟩
  · cases heq
    exact ⟨hmem, fun x hx _ => hx⟩
  · obtain ⟨i, hi, rfl⟩ := map_eq_some_iff.mp heq
    have hat := getElem?_of_idxOf? hi
    refine ⟨List.mem_set (List.getElem?_eq_some_iff.mp hat).1 id,
      fun x hx hne => mem_set_of_mem hx ?_⟩
    rw [hat]
    exact fun heq => hne (some.inj heq).symm

theorem mem_removeLoadedId (h : removeLoadedId ids id = some ids') (hx : x ∈ ids) (hne : x ≠ id) :
    x ∈ ids' := by
  obtain ⟨i, hi, rfl⟩ := map_eq_some_iff.mp h
  apply mem_set_of_mem hx
  rw [getElem?_of_idxOf? hi]
  exact fun heq => hne (some.inj heq).symm

theorem mem_removeLoadedId_getD (hx : x ∈ ids) (hne : x ≠ id) :
    x ∈ (removeLoadedId ids id).getD ids := by
  cases hres : removeLoadedId ids id with
  | none => exact hx
  | some ids' => exact mem_removeLoadedId hres hx hne

end Loaded

@[simp] theorem State.setInfo_self (s : State) (id : Nat) (f : ImageInfo → ImageInfo) :
    (s.setInfo id f).info id = f (s.info id) := by
  simp [setInfo]

theorem State.setInfo_other (s : State) {id : Nat} (f : ImageInfo → ImageInfo) (h : x ≠ id) :
    (s.setInfo id f).info x = s.info x := by
  simp [setInfo, h]

theorem World.secure_of_ne {w : World} (h : w ≠ .nonSecure) : w = .secure := by
  cases w
  · rfl
  · exact absurd rfl h

/-! ### The invariant -/

/-- A secure image that has been copied, or authenticated in place. -/
structure Active (p : Platform) (s : State) (id : Nat) (desc : ImageDesc) : Prop where
  found : p.imageDesc id = some desc
  secure : desc.world = .secure
  state : (s.info id).state ≠ .reset

structure Image (p : Platform) (r : Run) (id : Nat) (desc : ImageDesc) : Prop where
  loaded : id ∈ r.state.loaded
  pos : 0 < (r.state.info id).imageSize
  size_le : (r.state.info id).imageSize ≤ desc.imageMaxSize
  copied_le : (r.state.info id).copiedSize ≤ (r.state.info id).imageSize
  copying :
    (r.state.info id).state = .copying → (r.state.info id).copiedSize < (r.state.info id).imageSize
  accepted : (r.state.info id).state ≠ .copying → (r.state.info id).state ≠ .copied →
    r.accepted id = some (readMem r.state.mem desc.imageBase (r.state.info id).imageSize)
  disjoint : ∀ id' desc', Active p r.state id' desc' → id' ≠ id →
    desc.imageBase + (r.state.info id).imageSize ≤ desc'.imageBase ∨
    desc'.imageBase + (r.state.info id').imageSize ≤ desc.imageBase

structure Authentic (p : Platform) (r : Run) : Prop where
  image : ∀ id desc, Active p r.state id desc → Image p r id desc
  normal : ∀ id desc, p.imageDesc id = some desc → desc.world = .nonSecure →
    (r.state.info id).copiedSize = 0
  secExec : ∀ desc, p.imageDesc r.state.secExec = some desc → desc.world = .secure
  running : r.state.world = .secure → (∃ desc, p.imageDesc r.state.secExec = some desc) ∧
    (r.state.info r.state.secExec).state = .executed

/-- No secure image reaches beyond the address space. -/
def Fits (p : Platform) : Prop := ∀ id desc, p.imageDesc id = some desc → desc.world = .secure →
    desc.imageBase + desc.imageMaxSize ≤ 2 ^ 64

section Steps

variable {s s' : State} {acc acc' : Nat → Option Bytes} {id : Nat} {desc : ImageDesc}
  {i : ImageInfo}

theorem Authentic.fits (h : Authentic p r) (hfits : Fits p) (hact : Active p r.state id desc) :
    desc.imageBase + (r.state.info id).imageSize ≤ 2 ^ 64 := by
  have hmax := hfits id desc hact.found hact.secure
  have hle := (h.image id desc hact).size_le
  omega

/-- What a call does that works on image `id`: the other images stay. -/
structure OnlyTouches (p : Platform) (r r' : Run) (id : Nat) : Prop where
  info : ∀ x, x ≠ id → r'.state.info x = r.state.info x
  accepted : ∀ x, x ≠ id → r'.accepted x = r.accepted x
  loaded : ∀ x ∈ r.state.loaded, x ≠ id → x ≠ invalidImageId → x ∈ r'.state.loaded
  mem : ∀ x desc, Active p r.state x desc → x ≠ id → ∀ a, desc.imageBase ≤ a →
    a < desc.imageBase + (r.state.info x).imageSize → r'.state.mem a = r.state.mem a

theorem OnlyTouches.of_info (hinfo : s'.info = update s.info id i) (hmem : s'.mem = s.mem)
    (hacc : ∀ x ≠ id, acc' x = acc x)
    (hloaded : ∀ x ∈ s.loaded, x ≠ id → x ≠ invalidImageId → x ∈ s'.loaded) :
    OnlyTouches p ⟨s, acc⟩ ⟨s', acc'⟩ id := by
  refine ⟨fun x hne => ?_, hacc, hloaded, fun _ _ _ _ a _ _ => congrFun hmem a⟩
  exact (congrFun hinfo x).trans (update_of_ne hne i s.info)

theorem Platform.ne_invalid (hdesc : p.imageDesc id = some desc) : id ≠ invalidImageId := by
  rintro rfl
  rw [p.invalid_none] at hdesc
  cases hdesc

theorem Active.of_info (hact : Active p s' x desc) (hinfo : s'.info x = s.info x) :
    Active p s x desc :=
  ⟨hact.found, hact.secure, hinfo ▸ hact.state⟩

theorem Image.touched (h : Authentic p r) (hfits : Fits p) (htouch : OnlyTouches p r r' id)
    (hne : x ≠ id) (hact : Active p r'.state x desc) (hself : ∀ d, Active p r'.state id d →
      desc.imageBase + (r.state.info x).imageSize ≤ d.imageBase ∨
      d.imageBase + (r'.state.info id).imageSize ≤ desc.imageBase) : Image p r' x desc := by
  have hinfo := htouch.info x hne
  have hact0 := hact.of_info hinfo
  have himage := h.image x desc hact0
  have hsame := readMem_congr (h.fits hfits hact0) (htouch.mem x desc hact0 hne)
  refine ⟨htouch.loaded x himage.loaded hne (p.ne_invalid hact.found), ?_, ?_, ?_, ?_, ?_, ?_⟩
  · rw [hinfo]
    exact himage.pos
  · rw [hinfo]
    exact himage.size_le
  · rw [hinfo]
    exact himage.copied_le
  · rw [hinfo]
    exact himage.copying
  · rw [hinfo, htouch.accepted x hne, hsame]
    exact himage.accepted
  · intro y d hy hyx
    rw [hinfo]
    by_cases heq : y = id
    · subst heq
      exact hself d hy
    · have hyinfo := htouch.info y heq
      rw [hyinfo]
      exact himage.disjoint y d (hy.of_info hyinfo) hyx

section Touched

variable (h : Authentic p r) (hfits : Fits p)
  (hdesc : p.imageDesc id = some desc) (htouch : OnlyTouches p r r' id)
  (hexec : ∀ d, p.imageDesc r'.state.secExec = some d → d.world = .secure)
  (hrun : r'.state.world = .secure → (∃ d, p.imageDesc r'.state.secExec = some d) ∧
  (r'.state.info r'.state.secExec).state = .executed)
include h hfits hdesc htouch hexec hrun

theorem Authentic.touched (hself : Active p r'.state id desc → Image p r' id desc)
    (hnormal : desc.world = .nonSecure → (r'.state.info id).copiedSize = 0) : Authentic p r' := by
  have hdesc_eq : ∀ d, p.imageDesc id = some d → desc = d :=
    fun d hd => some.inj (hdesc.symm.trans hd)
  refine ⟨fun x d hact => ?_, fun x d hx hd => ?_, hexec, hrun⟩
  · by_cases hne : x = id
    · subst hne
      obtain rfl := hdesc_eq d hact.found
      exact hself hact
    · refine .touched h hfits htouch hne hact fun d' hd' => ?_
      obtain rfl := hdesc_eq d' hd'.found
      have hdis := (hself hd').disjoint x d hact hne
      rw [htouch.info x hne] at hdis
      exact hdis.symm
  · by_cases hne : x = id
    · subst hne
      obtain rfl := hdesc_eq d hx
      exact hnormal hd
    · rw [htouch.info x hne]
      exact h.normal x d hx hd

theorem Authentic.secured (hsec : desc.world = .secure) (hself : Image p r' id desc) :
    Authentic p r' := by
  refine h.touched hfits hdesc htouch hexec hrun (fun _ => hself) fun hw => ?_
  rw [hsec] at hw
  cases hw

theorem Authentic.inactive (hreset : desc.world = .secure → (r'.state.info id).state = .reset)
    (hcopied : desc.world = .nonSecure → (r'.state.info id).copiedSize = 0) : Authentic p r' :=
  h.touched hfits hdesc htouch hexec hrun (fun hact => absurd (hreset hact.secure) hact.state)
    hcopied

end Touched

theorem Authentic.still_running (h : Authentic p ⟨s, acc⟩) (hsec : s'.secExec = s.secExec)
    (hworld : s'.world = s.world) (hinfo : s'.info = update s.info id i)
    (hid : (s.info id).state ≠ .executed) : s'.world = .secure →
      (∃ d, p.imageDesc s'.secExec = some d) ∧ (s'.info s'.secExec).state = .executed := by
  intro hw
  obtain ⟨hdesc, hexec⟩ := h.running (hworld ▸ hw)
  rw [hsec, hinfo, update_of_ne]
  · exact ⟨hdesc, hexec⟩
  · rintro heq
    exact hid (heq ▸ hexec)

theorem Authentic.setReset (h : Authentic p ⟨s, acc⟩)
    (hfits : Fits p) (hdesc : p.imageDesc id = some desc) (hstate : (s.info id).state = .reset)
    (f : ImageInfo → ImageInfo) (hf : (f (s.info id)).state = .reset)
    (hcopied : desc.world = .nonSecure → (f (s.info id)).copiedSize = (s.info id).copiedSize) :
    Authentic p ⟨s.setInfo id f, acc⟩ := by
  refine h.inactive hfits hdesc (.of_info rfl rfl (fun _ _ => rfl) fun x hx _ _ => hx) h.secExec
    (h.still_running rfl rfl rfl (by simp [hstate])) (fun _ => by simpa using hf) fun hw => ?_
  rw [setInfo_self, hcopied hw]
  exact h.normal id desc hdesc hw

theorem Authentic.setLoaded (h : Authentic p ⟨s, acc⟩) {loaded : List Nat}
    (hmem : ∀ x ∈ s.loaded, x ≠ invalidImageId → x ∈ loaded) :
    Authentic p ⟨{ s with loaded }, acc⟩ := by
  refine ⟨fun x d hact => ?_, h.normal, h.secExec, h.running⟩
  have himage := h.image x d ⟨hact.found, hact.secure, hact.state⟩
  exact ⟨hmem x himage.loaded (p.ne_invalid hact.found), himage.pos, himage.size_le,
    himage.copied_le, himage.copying, himage.accepted,
    fun y d' hy => himage.disjoint y d' ⟨hy.found, hy.secure, hy.state⟩⟩

/-! ### The calls -/

def Apart (p : Platform) (s : State) (id : Nat) (desc : ImageDesc) (size : Nat) : Prop :=
  ∀ x d, Active p s x d → x ≠ id →
    desc.imageBase + size ≤ d.imageBase ∨ d.imageBase + (s.info x).imageSize ≤ desc.imageBase

theorem Image.of_info (s : State) (hinfo : s'.info = update s.info id i)
    (hloaded : id ∈ s'.loaded) (hpos : 0 < i.imageSize) (hle : i.imageSize ≤ desc.imageMaxSize)
    (hcopied : i.copiedSize ≤ i.imageSize)
    (hcopying : i.state = .copying → i.copiedSize < i.imageSize) (hacc : i.state ≠ .copying →
      i.state ≠ .copied → acc id = some (readMem s'.mem desc.imageBase i.imageSize))
    (hapart : Apart p s id desc i.imageSize) : Image p ⟨s', acc⟩ id desc := by
  obtain rfl : s'.info id = i := by rw [hinfo, update_self]
  refine ⟨hloaded, hpos, hle, hcopied, hcopying, hacc, fun x d hact hne => ?_⟩
  have hother := (congrFun hinfo x).trans (update_of_ne hne _ s.info)
  rw [hother]
  exact hapart x d (hact.of_info hother) hne

theorem imageEnd_eq (hpos : 0 < size) (hfit : base + size ≤ 2 ^ 64) :
    imageEnd base size = base + size - 1 := by
  rw [imageEnd]
  omega

theorem remaining_eq {copied : Nat} (hle : copied ≤ size) (hlt : size < 2 ^ 32) :
    (size + 2 ^ 32 - copied) % 2 ^ 32 = size - copied := by
  omega

/-- What the secure world may ask to be authenticated, and when the normal world may resume. -/
def Met (p : Platform) (s : State) : Smc → Prop
  | .imageAuth x1 x2 x3 _ =>
    s.world = .secure → ∀ desc, p.imageDesc (u32 x1.toNat) = some desc →
      desc.world = .secure → x2.toNat = desc.imageBase ∧ u32 x3.toNat ≤ desc.imageMaxSize ∧
      (s.info (u32 x1.toNat)).copiedSize ≤ u32 x3.toNat ∧ imageCheckOverlaps p (s.setInfo
      (u32 x1.toNat) fun i => { i with imageSize := u32 x3.toNat }) (u32 x1.toNat) desc = true
  | .imageResume _ => s.world = .nonSecure → ∀ desc, p.imageDesc s.secExec = some desc →
    (s.info s.secExec).state = .interrupted
  | _ => True

theorem verifyImage_cases (hres : verifyImage p s id base size post = some resp) :
    resp = ⟨0, s.setInfo id fun i => { i with state := .authenticated },
      some (.accepted id (readMem s.mem base size))⟩ ∨
    (s.info id).state = .copied ∧ resp = ⟨-eauth, setInfo { s with
      mem := zeroNormalmem s.mem base size
      loaded := (removeLoadedId s.loaded id).getD s.loaded } id fun i => { i with state := .reset },
        none⟩ ∨
    (s.info id).state ≠ .copied ∧
      resp = ⟨-eauth, { s with loaded := (removeLoadedId s.loaded id).getD s.loaded }, none⟩ := by
  rcases ite_eq_iff.mp hres with ⟨-, hres⟩ | ⟨-, hres⟩
  · rcases ite_eq_iff.mp hres with ⟨-, hres⟩ | ⟨-, hres⟩
    · exact .inl (some.inj hres).symm
    · cases hres
  · cases hres
    by_cases hcopied : (s.info id).state = .copied
    · simp only [if_pos hcopied]
      exact .inr (.inl ⟨hcopied, rfl⟩)
    · exact .inr (.inr ⟨hcopied, by rw [if_neg hcopied]⟩)

/-- After a call the invariant holds, and an image that has got control is the one that runs. -/
structure Sound (p : Platform) (acc : Nat → Option Bytes) (resp : Response) : Prop where
  authentic : Authentic p ⟨resp.state, note acc resp.event⟩
  entered : ∀ x, resp.event = some (.entered x) → resp.state.secExec = x ∧
    resp.state.world = .secure

theorem Sound.quiet (h : Authentic p ⟨s, acc⟩) : Sound p acc ⟨ret, s, none⟩ := ⟨h, nofun⟩

theorem Sound.refused (h : Authentic p ⟨s, acc⟩) (hres : some ⟨ret, s, none⟩ = some resp) :
    Sound p acc resp :=
  some.inj hres ▸ .quiet h

section Calls

variable (h : Authentic p ⟨s, acc⟩) (hfits : Fits p)
include h hfits

section

variable (hdesc : p.imageDesc id = some desc)
include hdesc

theorem imageCheckOverlaps_apart (hsec : desc.world = .secure) (size : Nat) (hpos : 0 < size)
    (hle : size ≤ desc.imageMaxSize)
    (hcheck : imageCheckOverlaps p (s.setInfo id fun i => { i with imageSize := size }) id desc) :
    Apart p s id desc size := by
  intro x d hact hne
  have himage := h.image x d hact
  have hx := h.fits hfits hact
  have hid := hfits id desc hdesc hsec
  have hround := all_eq_true.mp hcheck x himage.loaded
  have hpos' : 0 < (s.info x).imageSize := himage.pos
  rw [apart, if_neg (by simp [p.ne_invalid hact.found, hne]), hact.found] at hround
  simp only [setInfo_self, setInfo_other s _ hne, Bool.or_eq_true, decide_eq_true_eq] at hround
  rw [imageEnd_eq hpos (by omega), imageEnd_eq hpos' hx] at hround
  omega

theorem copyBlock_sound (hsec : desc.world = .secure) (hworld : s.world = .nonSecure)
    (hpos : 0 < (s.info id).imageSize) (hle : (s.info id).imageSize ≤ desc.imageMaxSize)
    (hcopied : (s.info id).copiedSize < (s.info id).imageSize)
    (hapart : Apart p s id desc (s.info id).imageSize) (src blockSize : Nat) (pre : Bool) :
    Sound p acc (copyBlock p s id desc src blockSize pre) := by
  have hlt := desc.max_lt
  have hfit := hfits id desc hdesc hsec
  rw [copyBlock]
  rw [remaining_eq hcopied.le (by omega)]
  generalize hblock : (if (s.info id).imageSize - (s.info id).copiedSize < blockSize then
    (s.info id).imageSize - (s.info id).copiedSize else blockSize) = block
  have hblock_le : block ≤ (s.info id).imageSize - (s.info id).copiedSize := by
    rw [← hblock]
    split <;> omega
  split
  · exact .quiet h
  split
  · exact .quiet h
  rename_i loaded hadd
  obtain ⟨hself, hothers⟩ := mem_addLoadedId hadd
  split
  · exact .quiet (h.setLoaded hothers)
  rw [Nat.mod_eq_of_lt (by omega : desc.imageBase + (s.info id).copiedSize < 2 ^ 64)]
  refine .quiet <| h.secured hfits hdesc ⟨fun x hne => by simp [setInfo_other, hne],
    fun _ _ => rfl, fun x hx _ hinv => hothers x hx hinv, ?_⟩ h.secExec ?_ hsec ?_
  · intro x d hact hne a hlo hhi
    apply memcpy_outside
    · omega
    · have hdis := hapart x d hact hne
      dsimp only at hhi
      omega
  · intro hw
    rw [show s.world = .secure from hw] at hworld
    cases hworld
  · refine .of_info s rfl hself hpos hle ?_ ?_ ?_ hapart
    · dsimp only
      rw [Nat.mod_eq_of_lt (by omega)]
      omega
    · dsimp only
      rw [Nat.mod_eq_of_lt (by omega)]
      split
      · simp
      · intro _
        omega
    · split <;> simp

omit hdesc in
theorem imageCopy_sound (src blockSize imageSize : Nat)
    (pre : Bool) : Sound p acc (imageCopy p s id src blockSize imageSize pre) := by
  rw [imageCopy]
  cases hdesc : p.imageDesc id with
  | none => exact .quiet h
  | some desc =>
    dsimp only
    cases hworld : s.world with
    | secure => exact .quiet h
    | nonSecure =>
    rw [if_neg nofun]
    split
    · exact .quiet h
    rename_i hne
    have hsec := World.secure_of_ne hne
    split
    · exact .quiet h
    rename_i hstate
    split
    · exact .quiet h
    split
    · rename_i hcopying
      have hact : Active p s id desc := ⟨hdesc, hsec, by simp [hcopying]⟩
      have himage := h.image id desc hact
      exact copyBlock_sound h hfits hdesc hsec hworld himage.pos himage.size_le
        (himage.copying hcopying) himage.disjoint src blockSize pre
    rename_i hnot
    have hreset : (s.info id).state = .reset := by
      by_contra hne
      exact hstate ⟨hne, hnot⟩
    split
    · exact .quiet h
    split
    · exact .quiet h
    split
    · exact .quiet
        (h.setReset hfits hdesc hreset (fun i => { i with imageSize := 0 }) hreset fun _ => rfl)
    rename_i hcheck
    have hapart := imageCheckOverlaps_apart h hfits hdesc hsec imageSize (by omega) (by omega)
      (by simpa using hcheck)
    have hset := h.setReset hfits hdesc hreset (fun i => { i with imageSize, copiedSize := 0 })
      hreset fun hw => by rw [hsec] at hw; cases hw
    refine copyBlock_sound hset hfits hdesc hsec hworld ?_ ?_ ?_ ?_ src blockSize pre
    · simp only [setInfo_self]
      omega
    · simp only [setInfo_self]
      omega
    · simp only [setInfo_self]
      omega
    · intro x d hact hne
      simp only [setInfo_self, setInfo_other _ _ hne]
      exact hapart x d (hact.of_info (setInfo_other _ _ hne)) hne

theorem Authentic.accept (hsec : desc.world = .secure) (hloaded : id ∈ s.loaded)
    (hpos : 0 < (s.info id).imageSize) (hle : (s.info id).imageSize ≤ desc.imageMaxSize)
    (hcopied : (s.info id).copiedSize ≤ (s.info id).imageSize)
    (hapart : Apart p s id desc (s.info id).imageSize) (hidle : (s.info id).state ≠ .executed) :
    Authentic p ⟨s.setInfo id fun i => { i with state := .authenticated },
      update acc id (some (readMem s.mem desc.imageBase (s.info id).imageSize))⟩ := by
  refine h.secured hfits hdesc (.of_info rfl rfl (fun x hne => update_of_ne hne _ _)
    fun x hx _ _ => hx) h.secExec (h.still_running rfl rfl rfl hidle) hsec ?_
  exact .of_info s rfl hloaded hpos hle hcopied nofun (fun _ _ => update_self ..) hapart

theorem Authentic.acceptNormal (hnormal : desc.world = .nonSecure)
    (hidle : (s.info id).state ≠ .executed) (bytes : Bytes) : Authentic p ⟨s.setInfo id fun i =>
      { i with state := .authenticated }, update acc id (some bytes)⟩ := by
  refine h.inactive hfits hdesc (.of_info rfl rfl (fun x hne => update_of_ne hne _ _)
    fun x hx _ _ => hx) h.secExec (h.still_running rfl rfl rfl hidle) (fun hw => ?_) fun _ => ?_
  · rw [hnormal] at hw
    cases hw
  · simpa using h.normal id desc hdesc hnormal

theorem Authentic.unload (hstate : (s.info id).state = .reset) :
    Authentic p ⟨{ s with loaded := (removeLoadedId s.loaded id).getD s.loaded }, acc⟩ :=
  h.inactive hfits hdesc
    ⟨fun _ _ => rfl, fun _ _ => rfl, fun _ hx hne _ => mem_removeLoadedId_getD hx hne,
    fun _ _ _ _ _ _ _ => rfl⟩ h.secExec h.running (fun _ => hstate) (h.normal id desc hdesc)

omit hdesc in
theorem Authentic.clear (hact : Active p s id desc) (hidle : (s.info id).state ≠ .executed)
    (hlen : len ≤ (s.info id).imageSize)
    (loaded : List Nat) (hloaded : ∀ x ∈ s.loaded, x ≠ id → x ∈ loaded)
    (f : ImageInfo → ImageInfo) (hf : (f (s.info id)).state = .reset) : Authentic p
    ⟨{ s with mem := zeroNormalmem s.mem desc.imageBase len, loaded }.setInfo id f, acc⟩ := by
  have himage := h.image id desc hact
  have hfit : desc.imageBase + (s.info id).imageSize ≤ 2 ^ 64 := h.fits hfits hact
  refine h.inactive hfits hact.found ⟨fun x hne => s.setInfo_other f hne, fun _ _ => rfl,
    fun x hx hne _ => hloaded x hx hne, fun x d hactx hne a hlo hhi => ?_⟩ h.secExec
    (h.still_running rfl rfl rfl hidle) (fun _ => by simpa using hf) fun hw => ?_
  · apply zeroNormalmem_outside
    · omega
    · have hdis := himage.disjoint x d hactx hne
      dsimp only at hdis hhi
      omega
  · rw [hact.secure] at hw
    cases hw

omit hdesc in
theorem verifyImage_copied (hact : Active p s id desc) (hstate : (s.info id).state = .copied)
    (hres : verifyImage p s id desc.imageBase (s.info id).imageSize post = some resp) :
    Sound p acc resp := by
  have himage := h.image id desc hact
  have hidle : (s.info id).state ≠ .executed := by rw [hstate]; simp
  rcases verifyImage_cases hres with rfl | ⟨-, rfl⟩ | ⟨hne, -⟩
  · exact ⟨h.accept hfits hact.found hact.secure himage.loaded himage.pos himage.size_le
      himage.copied_le himage.disjoint hidle, nofun⟩
  · exact .quiet <| h.clear hfits hact hidle le_rfl _ (fun _ => mem_removeLoadedId_getD) _ rfl
  · exact absurd hstate hne

theorem verifyImage_in_place (hstate : (s.info id).state = .reset)
    (hsecure : desc.world = .secure → base = desc.imageBase ∧ size = (s.info id).imageSize ∧
      id ∈ s.loaded ∧ 0 < size ∧ size ≤ desc.imageMaxSize ∧ (s.info id).copiedSize ≤ size ∧
      Apart p s id desc size) (hres : verifyImage p s id base size post = some resp) :
    Sound p acc resp := by
  have hidle : (s.info id).state ≠ .executed := by rw [hstate]; simp
  rcases verifyImage_cases hres with rfl | ⟨hcopied, -⟩ | ⟨-, rfl⟩
  · refine ⟨?_, nofun⟩
    cases hw : desc.world with
    | secure =>
      obtain ⟨rfl, rfl, hloaded, hpos, hle, hcopied, hapart⟩ := hsecure hw
      exact h.accept hfits hdesc hw hloaded hpos hle hcopied hapart hidle
    | nonSecure => exact h.acceptNormal hfits hdesc hw hidle _
  · rw [hstate] at hcopied
    cases hcopied
  · exact .quiet (h.unload hfits hdesc hstate)

end

theorem imageAuth_sound {src imageSize : Nat}
    (hmet : s.world = .secure → ∀ desc, p.imageDesc id = some desc → desc.world = .secure →
      src = desc.imageBase ∧ imageSize ≤ desc.imageMaxSize ∧ (s.info id).copiedSize ≤ imageSize ∧
      imageCheckOverlaps p (s.setInfo id fun i => { i with imageSize }) id desc)
    (hres : imageAuth p s id src imageSize post = some resp) : Sound p acc resp := by
  rw [imageAuth] at hres
  cases hdesc : p.imageDesc id with
  | none =>
    rw [hdesc] at hres
    exact .refused h hres
  | some desc =>
    rw [hdesc] at hres
    rcases ite_eq_iff.mp hres with ⟨-, hres⟩ | ⟨hstate, hres⟩
    · exact .refused h hres
    replace hstate := not_not.mp hstate
    rcases ite_eq_iff.mp hres with ⟨hcopied, hres⟩ | ⟨hnot, hres⟩
    · have hsec : desc.world = .secure := by
        cases hw : s.world <;> cases hd : desc.world <;> simp_all [authState]
      exact verifyImage_copied h hfits ⟨hdesc, hsec, by simp [hcopied]⟩ hcopied hres
    have hreset : (s.info id).state = .reset := by
      cases hw : s.world <;> cases hd : desc.world <;> simp_all [authState]
    rcases ite_eq_iff.mp hres with ⟨-, hres⟩ | ⟨hargs, hres⟩
    · exact .refused h hres
    rcases ite_eq_iff.mp hres with ⟨-, hres⟩ | ⟨-, hres⟩
    · exact .refused h hres
    cases hadd : addLoadedId s.loaded id with
    | none =>
      rw [hadd] at hres
      exact .refused h hres
    | some loaded =>
      rw [hadd] at hres
      obtain ⟨hself, hothers⟩ := mem_addLoadedId hadd
      have hpos : 0 < imageSize := by
        by_contra hzero
        exact hargs (.inr (.inl (by omega)))
      have hset := (h.setLoaded hothers).setReset hfits hdesc hreset (fun i => { i with imageSize })
        hreset fun _ => rfl
      refine verifyImage_in_place hset hfits hdesc (by simpa using hreset) (fun hsec => ?_) hres
      have hworld : s.world = .secure := by
        cases hw : s.world with
        | secure => rfl
        | nonSecure =>
          rw [hw, hsec, authState] at hstate
          exact absurd hstate hnot
      obtain ⟨hsrc, hle, hcopied, hcheck⟩ := hmet hworld desc hdesc hsec
      have hapart := imageCheckOverlaps_apart h hfits hdesc hsec imageSize hpos hle hcheck
      refine ⟨hsrc, ?_, hself, hpos, hle, ?_, fun x d hact hne => ?_⟩
      · simp
      · simpa using hcopied
      · rw [setInfo_other _ _ hne]
        exact hapart x d (hact.of_info (setInfo_other _ _ hne)) hne

/-- Control passes between the worlds, and the image between two states in which its bytes have been
accepted. -/
theorem Authentic.switch (hact : Active p s id desc) {state state' : ImageState}
    (hstate : (s.info id).state = state) (hfrom : state ≠ .copying ∧ state ≠ .copied)
    (hto : state' ≠ .copying ∧ state' ≠ .copied) (world : World)
    (hworld : world = .secure → state' = .executed) : Authentic p
    ⟨{ s.setInfo id fun i => { i with state := state' } with secExec := id, world }, acc⟩ := by
  have himage := h.image id desc hact
  refine h.secured hfits hact.found (.of_info rfl rfl (fun _ _ => rfl) fun x hx _ _ => hx)
    (fun d hd => ?_) (fun hw => ⟨⟨desc, hact.found⟩, ?_⟩) hact.secure ?_
  · obtain rfl : desc = d := some.inj (hact.found.symm.trans hd)
    exact hact.secure
  · simpa using hworld hw
  · exact .of_info s rfl himage.loaded himage.pos himage.size_le himage.copied_le
      (fun heq => absurd heq hto.1)
      (fun _ _ => himage.accepted (hstate ▸ hfrom.1) (hstate ▸ hfrom.2)) himage.disjoint

theorem imageExecute_sound : Sound p acc (imageExecute p s id) := by
  rw [imageExecute]
  cases hdesc : p.imageDesc id with
  | none => exact .quiet h
  | some desc =>
    dsimp only
    split
    · exact .quiet h
    rename_i hallowed
    simp only [not_or, not_not] at hallowed
    obtain ⟨-, hsec, -, hstate⟩ := hallowed
    have hact : Active p s id desc := ⟨hdesc, World.secure_of_ne hsec, by simp [hstate]⟩
    exact ⟨h.switch hfits hact hstate (by simp) (by simp) .secure fun _ => rfl, fun x hx =>
      ⟨Event.entered.inj (some.inj hx), rfl⟩⟩

theorem imageResume_sound {param : Int}
    (hmet : s.world = .nonSecure → ∀ desc, p.imageDesc s.secExec = some desc →
      (s.info s.secExec).state = .interrupted) (hres : imageResume p s param = some resp) :
    Sound p acc resp := by
  rw [imageResume] at hres
  cases hdesc : p.imageDesc s.secExec with
  | none =>
    cases hw : s.world with
    | secure => simp [hdesc, hw] at hres
    | nonSecure =>
      simp only [hdesc, hw, some.injEq] at hres
      subst hres
      exact .quiet h
  | some desc =>
    have hsec := h.secExec desc hdesc
    cases hw : s.world with
    | secure =>
      simp only [hdesc, hw, some.injEq] at hres
      subst hres
      have hexec : (s.info s.secExec).state = .executed := (h.running hw).2
      exact .quiet <| h.switch hfits ⟨hdesc, hsec, by simp [hexec]⟩ hexec (by simp) (by simp)
        .nonSecure nofun
    | nonSecure =>
      simp only [hdesc, hw, some.injEq] at hres
      subst hres
      have hint := hmet hw desc hdesc
      exact ⟨h.switch hfits ⟨hdesc, hsec, by simp [hint]⟩ hint (by simp) (by simp) .secure fun _ =>
        rfl, fun x hx => ⟨Event.entered.inj (some.inj hx), rfl⟩⟩

theorem secImageDone_sound (hres : secImageDone p s = some resp) : Sound p acc resp := by
  rcases ite_eq_iff.mp hres with ⟨-, hres⟩ | ⟨hw, hres⟩
  · exact .refused h hres
  cases hdesc : p.imageDesc s.secExec with
  | none => simp [hdesc] at hres
  | some desc =>
    simp only [hdesc, some.injEq] at hres
    subst hres
    refine .quiet <| h.inactive hfits hdesc (.of_info rfl rfl (fun _ _ => rfl) fun _ hx hne _ =>
      mem_removeLoadedId_getD hx hne) (fun d hd => ?_) nofun (fun _ => by simp) fun hn => ?_
    · rw [p.invalid_none] at hd
      cases hd
    · rw [h.secExec desc hdesc] at hn
      cases hn

theorem imageReset_sound : Sound p acc (imageReset p s id) := by
  rw [imageReset]
  cases hdesc : p.imageDesc id with
  | none => exact .quiet h
  | some desc =>
    dsimp only
    split
    · exact .quiet h
    split
    · exact .quiet h
    rename_i hstate
    rw [not_or] at hstate
    cases hremove : removeLoadedId s.loaded id with
    | none => exact .quiet h
    | some loaded =>
      cases hw : desc.world with
      | secure =>
        have hact : Active p s id desc := ⟨hdesc, hw, hstate.1⟩
        have hmem : (if (s.info id).copiedSize ≠ 0 then
            zeroNormalmem s.mem desc.imageBase (s.info id).copiedSize else s.mem) =
              zeroNormalmem s.mem desc.imageBase (s.info id).copiedSize := by
          split
          · rfl
          · rename_i hzero
            rw [not_not.mp hzero]
            rfl
        rw [hmem]
        exact .quiet <| h.clear hfits hact hstate.2 (h.image id desc hact).copied_le _
          (fun _ => mem_removeLoadedId hremove) _ rfl
      | nonSecure =>
        have hzero := h.normal id desc hdesc hw
        rw [if_neg (not_not.mpr hzero)]
        exact .quiet <| h.inactive hfits hdesc (.of_info rfl rfl (fun _ _ => rfl)
          fun _ hx hne _ => mem_removeLoadedId hremove hx hne) h.secExec
          (h.still_running rfl rfl rfl hstate.2) (fun _ => by simp) fun _ => by simp

end Calls

theorem smcHandler_sound (h : Authentic p ⟨s, acc⟩) (hfits : Fits p) (hmet : Met p s c)
    (hres : smcHandler p s c = some resp) : Sound p acc resp := by
  cases c with
  | imageCopy x1 x2 x3 x4 pre =>
    cases hres
    exact imageCopy_sound h hfits _ _ _ _
  | imageAuth x1 x2 x3 post => exact imageAuth_sound h hfits hmet hres
  | imageExecute x1 =>
    cases hres
    exact imageExecute_sound h hfits
  | imageResume x1 => exact imageResume_sound h hfits hmet hres
  | secImageDone => exact secImageDone_sound h hfits hres
  | imageReset x1 =>
    cases hres
    exact imageReset_sound h hfits
  | updateDone => cases hres

theorem Init.authentic (h : Init p slots r) : Authentic p r := by
  refine ⟨fun id desc hact => absurd (h.reset id desc hact.found hact.secure) hact.state,
    fun id _ _ _ => h.copied id, fun desc hdesc => ?_, fun hw => ?_⟩
  · rw [h.secExec, p.invalid_none] at hdesc
    cases hdesc
  · rw [h.world] at hw
    cases hw

theorem Authentic.write (h : Authentic p r)
    (hfits : Fits p) (hsame : ∀ a, p.Secures a → mem a = r.state.mem a) :
    Authentic p ⟨{ r.state with mem }, r.accepted⟩ := by
  refine ⟨fun x d hact => ?_, h.normal, h.secExec, h.running⟩
  have hact0 : Active p r.state x d := ⟨hact.found, hact.secure, hact.state⟩
  have himage := h.image x d hact0
  have hread : readMem mem d.imageBase (r.state.info x).imageSize =
      readMem r.state.mem d.imageBase (r.state.info x).imageSize := by
    refine readMem_congr (h.fits hfits hact0) fun a hlo hhi => hsame a ?_
    have hle := himage.size_le
    exact ⟨x, d, hact.found, hact.secure, hlo, by omega⟩
  refine ⟨himage.loaded, himage.pos, himage.size_le, himage.copied_le, himage.copying,
    fun h1 h2 => ?_, fun y d' hy => himage.disjoint y d' ⟨hy.found, hy.secure, hy.state⟩⟩
  rw [hread]
  exact himage.accepted h1 h2

end Steps

theorem reachable_authentic (hfits : Fits p) (hr : Reachable (Init p slots) (Step p (Met p)) r) :
    Authentic p r := by
  refine hr.invariant (fun r h => h.authentic) ?_
  rintro r r' h (⟨hmet, hcall⟩ | ⟨-, hsame⟩)
  · exact (smcHandler_sound h hfits hmet hcall).authentic
  · exact h.write hfits hsame

theorem runs_accepted_bytes {p : Platform} (hfits : Fits p) {slots : Nat} {r : Run}
    (hr : Reachable (Init p slots) (Step p (Met p)) r) {c : Smc}
    (hmet : Met p r.state c) {resp : Response} (hcall : smcHandler p r.state c = some resp)
    {id : Nat} (hentered : resp.event = some (.entered id)) :
    ∃ desc, p.imageDesc id = some desc ∧ desc.world = .secure ∧ r.accepted id =
      some (readMem resp.state.mem desc.imageBase (resp.state.info id).imageSize) := by
  obtain ⟨h, hrunning⟩ := smcHandler_sound (reachable_authentic hfits hr) hfits hmet hcall
  obtain ⟨rfl, hworld⟩ := hrunning id hentered
  obtain ⟨⟨desc, hdesc⟩, hstate⟩ := h.running hworld
  have hsec := h.secExec desc hdesc
  have himage := h.image _ desc ⟨hdesc, hsec, by rw [hstate]; simp⟩
  have hacc := himage.accepted (by rw [hstate]; simp) (by rw [hstate]; simp)
  rw [hentered] at hacc
  exact ⟨desc, hdesc, hsec, hacc⟩

/-- The space for the second image begins in that for the first one. -/
def smallPlatform : Platform where
  imageDesc := fun id => if id = 1 then some ⟨256, 4, .secure, true, by decide⟩
    else if id = 2 then some ⟨258, 4, .secure, true, by decide⟩ else none
  memCheck := fun _ _ _ => true
  verify := fun _ bytes => bytes = [1]
  invalid_none := by decide

def oneRun : Run where
  state :=
    { mem := fun a => if a = 16 then 1 else if a = 17 then 2 else 0
      info := fun _ => ⟨0, 0, .reset⟩
      loaded := List.replicate 10 invalidImageId
      secExec := invalidImageId
      world := .nonSecure }
  accepted := fun _ => none

def smcs (p : Platform) (r : Run) (cs : List Smc) : Option Run :=
  cs.foldlM (fun r c => (smcHandler p r.state c).map fun resp =>
    ⟨resp.state, note r.accepted resp.event⟩) r

theorem smcs_reachable {init : Run → Prop}
    (cs : List Smc) (hr : Reachable init (Step p fun _ _ => True) r) (h : smcs p r cs = some r') :
    Reachable init (Step p fun _ _ => True) r' := by
  induction cs generalizing r with
  | nil =>
    cases h
    exact hr
  | cons c cs ih =>
    obtain ⟨r1, h1, hrest⟩ := bind_eq_some_iff.mp h
    obtain ⟨resp, hcall, rfl⟩ := map_eq_some_iff.mp h1
    exact ih (.step hr (.smc trivial hcall)) hrest

theorem oneRun_init : Init smallPlatform 10 oneRun :=
  ⟨rfl, rfl, rfl, fun _ => rfl, fun _ _ _ _ => rfl⟩

theorem smallPlatform_fits : Fits smallPlatform := by
  intro id desc hdesc _
  simp only [smallPlatform] at hdesc
  split_ifs at hdesc <;> cases hdesc <;> decide

theorem runs_accepted_bytes_one : ∃ r resp, smcs smallPlatform oneRun
      [.imageCopy 1 16 1 1 true, .imageAuth 1 0 0 true] = some r ∧
    smcHandler smallPlatform r.state (.imageExecute 1) = some resp ∧
    resp.event = some (.entered 1) ∧
    ∃ desc, smallPlatform.imageDesc 1 = some desc ∧ desc.world = .secure ∧ r.accepted 1 =
      some (readMem resp.state.mem desc.imageBase (resp.state.info 1).imageSize) := by
  obtain ⟨r₁, h₁, hworld, r₂, h₂, resp, hexec, hev⟩ : ∃ r₁, smcHandler smallPlatform oneRun.state
        (.imageCopy 1 16 1 1 true) = some r₁ ∧ r₁.state.world = .nonSecure ∧
      ∃ r₂, smcHandler smallPlatform r₁.state (.imageAuth 1 0 0 true) = some r₂ ∧
        ∃ resp, smcHandler smallPlatform r₂.state (.imageExecute 1) = some resp ∧
        resp.event = some (.entered 1) :=
    ⟨_, rfl, rfl, _, rfl, _, rfl, rfl⟩
  have hcopied : Reachable (Init smallPlatform 10) (Step smallPlatform (Met smallPlatform))
      ⟨r₁.state, note oneRun.accepted r₁.event⟩ := .step (.init oneRun_init) (.smc (by trivial) h₁)
  have hauth : Met smallPlatform r₁.state (.imageAuth 1 0 0 true) :=
    fun hw => by rw [hworld] at hw; cases hw
  refine ⟨⟨r₂.state, note (note oneRun.accepted r₁.event) r₂.event⟩, resp, ?_, hexec, hev, ?_⟩
  · simp [smcs, List.foldlM, h₁, h₂]
  · exact runs_accepted_bytes smallPlatform_fits (.step hcopied (.smc hauth h₂)) (by trivial)
      hexec hev

/-- The image is interrupted and reset, and a bad one copied to its place.  The normal world
resumes. -/
theorem resumes_unaccepted_bytes :
    ∃ r resp, Reachable (Init smallPlatform 10) (Step smallPlatform fun _ _ => True) r ∧
    smcHandler smallPlatform r.state (.imageResume 0) = some resp ∧ resp.event = some (.entered 1) ∧
    smallPlatform.imageDesc 1 = some ⟨256, 4, .secure, true, by decide⟩ ∧
    r.accepted 1 = some [1] ∧ readMem resp.state.mem 256 (resp.state.info 1).imageSize = [2] := by
  obtain ⟨r, hrun, resp, hcall, hev, hacc, hread⟩ : ∃ r, smcs smallPlatform oneRun
        [.imageCopy 1 16 1 1 true, .imageAuth 1 0 0 true,
          .imageExecute 1, .imageResume 0, .imageReset 1, .imageCopy 1 17 1 1 true] = some r ∧
      ∃ resp, smcHandler smallPlatform r.state (.imageResume 0) = some resp ∧
      resp.event = some (.entered 1) ∧
        r.accepted 1 = some [1] ∧ readMem resp.state.mem 256 (resp.state.info 1).imageSize = [2] :=
    ⟨_, rfl, _, rfl, rfl, by decide +kernel, by decide +kernel⟩
  exact ⟨r, resp, smcs_reachable _ (.init oneRun_init) hrun, hcall, hev, rfl, hacc, hread⟩

end MtkBoot.Fwu
