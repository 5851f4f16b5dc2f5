import MtkBoot.Nmbm.Frame
import Mathlib.Order.Interval.Set.Basic

/-! What reading and writing management data achieves: a read that succeeds returns what the flash
holds, and a write that succeeds leaves its data in the good blocks of a range. -/

namespace MtkBoot.Nmbm

open MtkBoot.Lib List Nmbm.Frame Nat Set

variable {ba e es n off : Nat} {ok : Bool} {s s' : Sys}

section Data

variable {fuel remain : Nat} {data : Bytes}

theorem page_div_start (ws off : Nat) : (off - off % ws) / ws = off / ws := by
  rcases Nat.eq_zero_or_pos ws with rfl | hpos
  · simp
  · rw [← Nat.div_mul_self_eq_mod_sub_self, Nat.mul_div_cancel _ hpos]

theorem page_start_add (ws off : Nat) : (off - off % ws) / ws * ws + off % ws = off := by
  rw [page_div_start]
  exact div_add_mod' off ws

theorem bytesAt_page (flash : Mem) (ws off len : Nat) :
    bytesAt (fun i => flash ((off - off % ws) / ws * ws + i)) (off % ws) len =
    bytesAt flash off len := by
  apply bytesAt_congr
  intro i _
  rw [← add_assoc, page_start_add]

theorem writeVerify_nil (fuel off : Nat) (s : Sys) : writeVerify fuel off [] s = (true, s) := by
  cases fuel <;> simp [writeVerify]

theorem Geometry.page_in_block (g : Geometry) (hlo : g.ba2addr ba ≤ off)
    (hhi : off < g.ba2addr ba + g.erasesize) : g.pageBytes (off - off % g.writesize) ⊆
    g.bytes {ba} ∩ { i | off / g.writesize ≤ i / g.writesize } := by
  intro i hi
  have hpage : i / g.writesize = off / g.writesize := by
    rw [← page_div_start g.writesize off]
    exact hi
  refine ⟨?_, hpage.ge⟩
  rw [Geometry.bytes, mem_ofPred_eq, g.div_erasesize_of_page hpage, mem_singleton_iff]
  rw [ba2addr] at hlo hhi
  exact Nat.div_eq_of_lt_le hlo (by rw [Nat.succ_mul]; exact hhi)

theorem writeVerify_spec (h : writeVerify fuel off data s = (ok, s'))
    (hlo : s.ni.geo.ba2addr ba ≤ off)
    (hhi : off + data.length ≤ s.ni.geo.ba2addr ba + s.ni.geo.erasesize) :
    Touch (s.ni.geo.bytes {ba} ∩ { i | off / s.ni.geo.writesize ≤ i / s.ni.geo.writesize }) s s' ∧
      (ok → data.length ≤ fuel → bytesAt s'.chip.data off data.length = data) := by
  induction fuel generalizing off data s with
  | zero =>
    cases h
    refine ⟨.refl _ _, fun _ hle => ?_⟩
    rw [length_eq_zero_iff.mp (by omega : data.length = 0)]
    rfl
  | succ fuel ih =>
    rw [writeVerify] at h
    split at h
    · rename_i hnil
      cases h
      exact ⟨.refl _ _, fun _ _ => by rw [hnil]; rfl⟩
    rename_i hne
    have hlen : 0 < data.length := length_pos_iff.mpr hne
    have hmod := Nat.mod_lt off s.ni.geo.writesize_pos
    simp only at h
    generalize hchunk : data.take (s.ni.geo.writesize - off % s.ni.geo.writesize) = chunk at h
    have hclen :
        chunk.length = min (s.ni.geo.writesize - off % s.ni.geo.writesize) data.length := by
      rw [← hchunk, length_take]
    generalize hpage : (fun i => if off % s.ni.geo.writesize ≤ i ∧ i < off % s.ni.geo.writesize +
      chunk.length then chunk.getD (i - off % s.ni.geo.writesize) 0 else 0xff : Mem) = page at h
    have hsub := s.ni.geo.page_in_block hlo (by omega)
    rcases hwrite :
      writePhysPage (s.cachePage page) (off - off % s.ni.geo.writesize) (some page) with ⟨okw, t⟩
    have ht := writePhysPage_touch (s.cachePage page) (off - off % s.ni.geo.writesize) (some page)
    rw [hwrite] at h ht
    have ht := (Touch.cachePage s page).trans (ht.mono hsub)
    cases okw with
    | false =>
      cases h
      exact ⟨ht, fun hok => by cases hok⟩
    | true =>
      simp only at h
      rcases hread : readPhysPage t (off - off % s.ni.geo.writesize) with ⟨r, u⟩
      obtain ⟨hu, hdata⟩ := readPhysPage_spec hread
      rw [hread] at h
      simp only at h
      have hu' := (ht.trans (hu.mono (Set.empty_subset _))).trans (.cachePage u r.data)
      split at h
      · cases h
        exact ⟨hu', fun hok => by cases hok⟩
      split at h
      · cases h
        exact ⟨hu', fun hok => by cases hok⟩
      rename_i hret hcmp
      -- the chunk has been read back from the flash
      have hback : bytesAt u.chip.data off chunk.length = chunk := by
        have hd := hdata (by omega)
        rw [not_not, hd, ht.geo, bytesAt_page] at hcmp
        exact (bytesAt_congr fun i _ => hu.data _ (Set.notMem_empty _)).trans hcmp
      obtain ⟨htail, hrest⟩ := ih h (by rw [hu'.geo]; omega) (by rw [hu'.geo, length_drop]; omega)
      rw [hu'.geo] at htail
      have hmono : s.ni.geo.bytes {ba} ∩
          { i | (off + chunk.length) / s.ni.geo.writesize ≤ i / s.ni.geo.writesize } ⊆
          s.ni.geo.bytes {ba} ∩ { i | off / s.ni.geo.writesize ≤ i / s.ni.geo.writesize } :=
        fun i hi => ⟨hi.1, (Nat.div_le_div_right (Nat.le_add_right off _)).trans hi.2⟩
      refine ⟨hu'.trans (htail.mono hmono), fun hok hle => ?_⟩
      have hsplit : data = chunk ++ data.drop chunk.length := by
        conv_lhs => rw [← take_append_drop chunk.length data]
        rw [hclen, ← hchunk, ← take_eq_take_min]
      have hkeep : bytesAt s'.chip.data off chunk.length = chunk := by
        refine Eq.trans ?_ hback
        by_cases hnil : data.drop chunk.length = []
        · rw [hnil, writeVerify_nil] at h
          cases h
          rfl
        -- the rest starts on the next page
        have hfull : off + chunk.length = s.ni.geo.writesize * (off / s.ni.geo.writesize + 1) := by
          have := drop_eq_nil_iff.not.mp hnil
          have := Nat.div_add_mod off s.ni.geo.writesize
          rw [Nat.mul_succ]
          omega
        refine bytesAt_congr fun i hi => htail.data _ fun hmem => ?_
        have hge : (off + chunk.length) / s.ni.geo.writesize ≤ (off + i) / s.ni.geo.writesize :=
          hmem.2
        rw [hfull, Nat.mul_div_cancel_left _ s.ni.geo.writesize_pos] at hge
        have hlt : (off + i) / s.ni.geo.writesize < off / s.ni.geo.writesize + 1 :=
          Nat.div_lt_of_lt_mul (by omega)
        omega
      conv_rhs => rw [hsplit]
      rw [show data.length = chunk.length + (data.drop chunk.length).length by
        rw [length_drop]; omega, bytesAt_add, hkeep,
        hrest hok (by rw [length_drop]; omega)]

end Data

theorem tryBlock_spec {write : Sys → Bool × Sys}
    (hwrite : ∀ t, t.ni.geo = s.ni.geo → Touch (t.ni.geo.bytes {ba}) t (write t).2)
    (h : tryBlock write s ba = (ok, s')) : Frame {ba} s s' ∧
      (ok → s.ni.blockState ba = .good ∧ Touch (s.ni.geo.bytes {ba}) s s' ∧
        ∃ t, t.ni.geo = s.ni.geo ∧ write t = (true, s')) ∧
        (ok = false → s'.ni.blockState ba ≠ .good) := by
  unfold tryBlock at h
  split at h
  · rename_i hstate
    cases h
    exact ⟨refl _ s, fun hok => (Bool.noConfusion hok), fun _ => hstate⟩
  rename_i hstate
  have hgood := not_not.mp hstate
  rcases hcheck : checkBadPhysBlock s ba with ⟨bad, t⟩
  have ht := checkBadPhysBlock_touch s ba
  rw [hcheck] at h ht
  have ht := ht.mono (empty_subset (s.ni.geo.bytes {ba}))
  have hgood_t : t.ni.blockState ba = .good := by rw [ht.blockState, hgood]
  cases bad with
  | true =>
    cases h
    exact ⟨(of_touch ht).trans (setBad t rfl hgood_t),
      fun hok => (Bool.noConfusion hok), fun _ => by simp [setBlockState]⟩
  | false =>
    simp only at h
    rcases herase : eraseBlockAndCheck t ba with ⟨erased, u⟩
    have hu := eraseBlockAndCheck_touch t ba
    rw [herase] at h hu
    have hu := ht.transBlocks hu
    have hgood_u : u.ni.blockState ba = .good := by rw [hu.blockState, hgood]
    cases erased with
    | false =>
      cases h
      exact ⟨(of_touch hu).trans (retireBlock_frame hgood_u),
        fun hok => (Bool.noConfusion hok), fun _ => by simp [retireBlock, setBlockState]⟩
    | true =>
      simp only at h
      rcases hw : write u with ⟨written, v⟩
      have hv := hwrite u hu.geo
      rw [hw] at h hv
      have hv := hu.transBlocks hv
      cases written with
      | false =>
        cases h
        exact ⟨(of_touch hv).trans (retireBlock_frame (by rw [hv.blockState, hgood])),
          fun hok => (Bool.noConfusion hok), fun _ => by simp [retireBlock, setBlockState]⟩
      | true =>
        cases h
        exact ⟨of_touch hv, fun _ => ⟨hgood, hv, u, hu.geo, hw⟩, fun hok => (Bool.noConfusion hok)⟩

/-! ### Data laid out over blocks -/

theorem byte_div {b i : Nat} (hpos : 0 < es) (hi : i < es) : (b * es + i) / es = b := by
  rw [add_comm, add_mul_div_right _ _ hpos, div_eq_of_lt hi, zero_add]

/-- `data` lies in the good blocks from `p` up to `e`, block after block, and ends in the last. -/
inductive Laid (es : Nat) (state : Nat → BlockState) (flash : Mem) : Nat → Nat → Bytes → Prop
  | nil (p : Nat) : Laid es state flash p p []
  | skip {p e : Nat} {data : Bytes} (hne : data ≠ []) (hstate : state p ≠ .good)
      (h : Laid es state flash (p + 1) e data) : Laid es state flash p e data
  | block {p e : Nat} {data : Bytes} (hne : data ≠ []) (hstate : state p = .good)
      (hdata : bytesAt flash (p * es) (data.take es).length = data.take es)
      (h : Laid es state flash (p + 1) e (data.drop es)) : Laid es state flash p e data

namespace Laid

variable {p : Nat} {state state' : Nat → BlockState} {flash flash' : Mem} {data : Bytes}

section

variable (h : Laid es state flash p e data)
include h

theorem le : p ≤ e := by
  induction h with
  | nil p => exact le_refl p
  | skip _ _ _ ih => omega
  | block _ _ _ _ ih => omega

theorem lt (hne : data ≠ []) : p < e := by
  cases h with
  | nil => exact absurd rfl hne
  | skip _ _ h => exact h.le
  | block _ _ _ h => exact h.le

theorem congr (hpos : 0 < es) (hstate : ∀ b, p ≤ b → b < e → state' b = state b)
    (hflash : ∀ i, p ≤ i / es → i / es < e → flash' i = flash i) :
    Laid es state' flash' p e data := by
  induction h with
  | nil p => exact .nil p
  | skip hne hst htail ih =>
    have hlt := htail.lt hne
    refine .skip hne (by rwa [hstate _ le_rfl (by omega)]) (ih ?_ ?_)
    · exact fun b h1 h2 => hstate b (by omega) h2
    · exact fun i h1 h2 => hflash i (by omega) h2
  | @block p e data hne hst hdata htail ih =>
    have hlt := htail.le
    refine .block hne (by rwa [hstate _ le_rfl (by omega)]) ?_ (ih ?_ ?_)
    · refine Eq.trans (bytesAt_congr fun i hi => ?_) hdata
      have hdiv : (p * es + i) / es = p := byte_div hpos (by simp at hi; omega)
      exact hflash _ (by omega) (by omega)
    · exact fun b h1 h2 => hstate b (by omega) h2
    · exact fun i h1 h2 => hflash i (by omega) h2

theorem start {q : Nat} (hpq : p ≤ q)
    (hbad : ∀ b, p ≤ b → b < q → state b ≠ .good) (hgood : state q = .good) (hqe : q < e) :
    Laid es state flash q e data := by
  induction h with
  | nil p => omega
  | @skip p e data hne hst htail ih =>
    rcases eq_or_lt_of_le hpq with rfl | hlt
    · exact absurd hgood hst
    · exact ih hlt (fun b h1 h2 => hbad b (by omega) h2) hqe
  | @block p e data hne hst hdata htail ih =>
    rcases eq_or_lt_of_le hpq with rfl | hlt
    · exact .block hne hst hdata htail
    · exact absurd hst (hbad p (le_refl p) hlt)

end

end Laid

section Mgmt

variable {limit : Nat} {data : Bytes} {start : Option Nat} {res : Option (Nat × Nat)}

theorem drop_take_length (data : Bytes) (k : Nat) :
    data.drop (data.take k).length = data.drop k := by
  rw [length_take]
  rcases le_total k data.length with h | h
  · rw [min_eq_left h]
  · rw [min_eq_right h, drop_length, drop_eq_nil_of_le h]

theorem writeMgmtFrom_spec (h : writeMgmtFrom n ba data start s = (res, s')) :
    Frame (Ico ba (ba + n)) s s' ∧ ∀ st e, res = some (st, e) → e ≤ ba + n ∧
      Laid s'.ni.geo.erasesize s'.ni.blockState s'.chip.data ba e data ∧
      (∀ x, start = some x → st = x) ∧
      (start = none → data ≠ [] → ba ≤ st ∧ st < e ∧ s'.ni.blockState st = .good ∧
        ∀ b, ba ≤ b → b < st → s'.ni.blockState b ≠ .good) := by
  induction n generalizing ba data start s with
  | zero =>
    rw [writeMgmtFrom] at h
    obtain ⟨rfl, rfl⟩ := Prod.mk.inj h
    refine ⟨refl _ s, fun st e hres => ?_⟩
    split at hres
    · rename_i hnil
      cases hres
      refine ⟨le_rfl, hnil ▸ .nil ba, fun x hx => by rw [hx]; rfl, fun _ hne => ?_⟩
      exact absurd hnil hne
    · cases hres
  | succ n ih =>
    rw [writeMgmtFrom] at h
    split at h
    · rename_i hnil
      obtain ⟨rfl, rfl⟩ := Prod.mk.inj h
      refine ⟨refl _ s, fun st e hres => ?_⟩
      cases hres
      refine ⟨by omega, hnil ▸ .nil ba, fun x hx => by rw [hx]; rfl, fun _ hne => ?_⟩
      exact absurd hnil hne
    rename_i hne
    simp only at h
    have hlen : (data.take s.ni.geo.erasesize).length ≤ s.ni.geo.erasesize := by
      rw [length_take]
      exact min_le_left _ _
    have hsub : ({ba} : Set Nat) ⊆ Ico ba (ba + (n + 1)) := by
      rintro b rfl
      exact ⟨le_rfl, by omega⟩
    have hsub' : Set.Ico (ba + 1) (ba + 1 + n) ⊆ Set.Ico ba (ba + (n + 1)) :=
      fun b hb => ⟨by have := hb.1; omega, by have := hb.2; omega⟩
    rcases htry : tryBlock (writeVerify (data.take s.ni.geo.erasesize).length
      (s.ni.geo.ba2addr ba) (data.take s.ni.geo.erasesize)) s ba with ⟨ok, t⟩
    obtain ⟨hframe, hok, hbad⟩ := tryBlock_spec (fun t ht =>
      (writeVerify_spec rfl (by rw [ht]) (by rw [ht]; omega)).1.mono inter_subset_left) htry
    rw [htry] at h
    cases ok with
    | true =>
      obtain ⟨hgood, htouch, u, hu, hw⟩ := hok rfl
      have hchunk := (writeVerify_spec hw (congrArg (Geometry.ba2addr · ba) hu).le
        (by rw [hu]; omega)).2 rfl le_rfl
      obtain ⟨htail, hres⟩ := ih h
      refine ⟨(hframe.mono hsub).trans (htail.mono hsub'), fun st e heq => ?_⟩
      obtain ⟨he, hlaid, hst, -⟩ := hres st e heq
      have hgood' : s'.ni.blockState ba = .good := by
        rw [htail.state_of_notMem (by simp), htouch.blockState, hgood]
      rw [drop_take_length, ← hframe.geo, ← htail.geo] at hlaid
      refine ⟨by omega, .block hne hgood' ?_ hlaid, fun x hx => ?_, fun hnone _ => ?_⟩
      · rw [htail.geo, hframe.geo]
        refine Eq.trans (bytesAt_congr fun i hi => htail.data ?_) hchunk
        rw [hframe.geo, byte_div s.ni.geo.erasesize_pos (by omega)]
        simp
      · exact hst x (by rw [hx]; rfl)
      · have hstart := hst ba (by rw [hnone]; rfl)
        have hlt := hlaid.le
        refine ⟨hstart.ge, by omega, by rw [hstart]; exact hgood', fun b h1 h2 => ?_⟩
        omega
    | false =>
      obtain ⟨htail, hres⟩ := ih h
      have hbad' : s'.ni.blockState ba ≠ .good := by
        rw [htail.state_of_notMem (by simp)]
        exact hbad rfl
      refine ⟨(hframe.mono hsub).trans (htail.mono hsub'), fun st e heq => ?_⟩
      obtain ⟨he, hlaid, hst, hnone⟩ := hres st e heq
      refine ⟨by omega, .skip hne hbad' hlaid, hst, fun hstart hdata => ?_⟩
      obtain ⟨h1, h2, h3, h4⟩ := hnone hstart hdata
      refine ⟨by omega, h2, h3, fun b hb hlt => ?_⟩
      rcases eq_or_lt_of_le hb with rfl | hb
      · exact hbad'
      · exact h4 b hb hlt

/-- A table lies in the blocks from `st` to `e`, the first of which is good. -/
structure TableAt (s : Sys) (st e : Nat) (data : Bytes) : Prop where
  lt : st < e
  good : s.ni.blockState st = .good
  laid : Laid s.ni.geo.erasesize s.ni.blockState s.chip.data st e data

theorem TableAt.frame {B : Set Nat} {st : Nat} (h : TableAt s st e data) (hframe : Frame B s s')
    (hB : ∀ b, st ≤ b → b < e → b ∉ B) : TableAt s' st e data := by
  refine ⟨h.lt, ?_, ?_⟩
  · rw [hframe.state_of_notMem (hB st le_rfl h.lt), h.good]
  · rw [hframe.geo]
    exact h.laid.congr s.ni.geo.erasesize_pos (fun b h1 h2 => hframe.state_of_notMem (hB b h1 h2))
      (fun i h1 h2 => hframe.data (hB _ h1 h2))

/-- Writing an info table touches the blocks of the range, and a table that has been written lies
in the first good blocks of the range. -/
theorem writeInfoTable_spec (h : writeInfoTable s ba limit = (res, s'))
    (hne : s.ni.infoTableCache ≠ []) : Frame (Ico ba limit) s s' ∧
    ∀ st e, res = some (st, e) → ba ≤ st ∧ e ≤ limit ∧ TableAt s' st e s.ni.infoTableCache ∧
        ∀ b, ba ≤ b → b < st → s'.ni.blockState b ≠ .good := by
  obtain ⟨hframe, hres⟩ := writeMgmtFrom_spec h
  refine ⟨hframe.mono fun b hb => ⟨hb.1, by have := hb.1; have := hb.2; omega⟩, fun st e heq => ?_⟩
  obtain ⟨he, hlaid, -, hstart⟩ := hres st e heq
  obtain ⟨h1, h2, h3, h4⟩ := hstart rfl hne
  exact ⟨h1, by omega, ⟨h2, h3, hlaid.start h1 h4 h3 h2⟩, h4⟩

end Mgmt

end MtkBoot.Nmbm
