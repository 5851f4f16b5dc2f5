import MtkBoot.Net.Fill

/-! The fragments of one datagram, in any order and with duplicates: which arrivals keep the list of
holes right, and what is returned then. -/

namespace MtkBoot.Net

open Lib List Function Cut Nat

variable {arrived : Nat → Bool} {buf D : Mem} {first i j a b maxUdp id : Nat}
  {hs pre post : List (Nat × Nat)} {js : List Nat} {s : State} {cut : Cut maxUdp}

/-! ## One fragment -/

section

theorem Cut.frag_length (cut : Cut maxUdp) (D : Mem) (id j : Nat) :
    (cut.frag D id j).data.length = cut.c (j + 1) - cut.c j := by
  rw [Cut.frag, length_map, length_range']

theorem Cut.frag_getD (cut : Cut maxUdp) (D : Mem) (id j : Nat) (ha : cut.c j ≤ a)
    (ha' : a < cut.c (j + 1)) : (cut.frag D id j).data.getD (a - cut.c j) 0 = D a := by
  have hlt : a - cut.c j < (cut.frag D id j).data.length := by
    rw [cut.frag_length]
    omega
  rw [getD_eq_getElem _ _ hlt]
  simp only [frag, getElem_map, getElem_range', one_mul]
  rw [Nat.add_sub_cancel' ha]

theorem netDefragment_frag (s : State) (hj : j < cut.m) : netDefragment maxUdp s (cut.frag D id j) =
      let s := if s.totalLen = 0 ∨ s.ipId ≠ id then s.reset id else s
      match findHole s.buf (cut.c j) (maxUdp / 8 + 1) s.firstHole with
      | none => some (s, none)
      | some h =>
        if cut.block j + (cut.c (j + 1) - cut.c j + 7) / 8 ≤ h then some (s, none)
        else takeFrag maxUdp s (cut.frag D id j) h := by
  have hlt := cut.mono j hj
  have hmul := cut.block_mul hj
  have hmax := cut.le_max (by omega : j + 1 ≤ cut.m)
  have hstart : (cut.frag D id j).offset8 * 8 = cut.c j := by
    rw [mul_comm]
    exact hmul
  have hmore : ¬ ((cut.c (j + 1) - cut.c j) % 8 ≠ 0 ∧ (cut.frag D id j).more) := by
    rintro ⟨hmod, hmore⟩
    have hne : j + 1 ≠ cut.m := of_decide_eq_true hmore
    have h8 := cut.block_mul (by omega : j + 1 < cut.m)
    omega
  rw [netDefragment, cut.frag_length, hstart]
  simp only [Nat.add_sub_cancel, if_neg hmore]
  rw [if_neg (by omega), if_neg (by omega)]
  rfl

variable (h : Inv cut D id arrived hs s)
include h

theorem netDefragment_eq (hj : j < cut.m) : netDefragment maxUdp s (cut.frag D id j) =
      match hs.find? fun x => cut.c j ≤ cut.holeEnd x.2 with
      | none => some (s, none)
      | some x =>
        if cut.block j + (cut.c (j + 1) - cut.c j + 7) / 8 ≤ cut.block x.1 then some (s, none)
        else takeFrag maxUdp s (cut.frag D id j) (cut.block x.1) := by
  have hm0 : 0 < cut.c cut.m := by
    have := cut.lt (by omega : 0 < cut.m) le_rfl
    omega
  have htotal : ¬ (s.totalLen = 0 ∨ s.ipId ≠ id) := by
    have hid := h.ipId
    have := h.total
    split_ifs at this <;> omega
  have hfind := findHole_eq (cut.c j) h.nonempty h.linked h.last
    (fun x hx => cut.block_pos (h.runs.pos_of_tail x hx) (h.runs.start_lt x (mem_of_mem_tail hx)))
    (le_trans h.runs.length_le cut.count_le)
  rw [netDefragment_frag s hj]
  simp only [if_neg htotal, h.first, hfind]
  cases hs.find? fun x => cut.c j ≤ cut.holeEnd x.2 <;> rfl

def Cut.seen (cut : Cut maxUdp) (s : State) (j i : Nat) : State :=
  if j + 1 = cut.m then { s with totalLen := cut.c (j + 1), buf := setLast s.buf i (cut.c (j + 1)) }
  else s

omit h in
theorem takeFrag_eq {i len first : Nat} {buf : Mem} {done : Bool} (hj : j < cut.m)
    (hlen : len = if (getHole (cut.seen s j i).buf i).lastByte < cut.c (j + 1) then
      (getHole (cut.seen s j i).buf i).lastByte - cut.c j else cut.c (j + 1) - cut.c j)
    (hfill : fillHole maxUdp (cut.seen s j i).buf s.firstHole i (cut.block j) len = some
      (buf, first, done)) :
    takeFrag maxUdp s (cut.frag D id j) i = some ({ cut.seen s j i with
          buf := copyIn buf (cut.c j) len (cut.frag D id j).data
          firstHole := first },
        if done then
          some
            ⟨(cut.seen s j i).totalLen + ipHdrSize, copyIn buf (cut.c j) len (cut.frag D id j).data⟩
        else none) := by
  have hlt := cut.mono j hj
  have hsum : cut.c j + (cut.c (j + 1) - cut.c j) = cut.c (j + 1) := by omega
  have hstart : (cut.frag D id j).offset8 * 8 = cut.c j := by
    rw [mul_comm]
    exact cut.block_mul hj
  have hseen : (if (cut.frag D id j).more then s
      else { s with totalLen := cut.c (j + 1), buf := setLast s.buf i (cut.c (j + 1)) }) =
      cut.seen s j i := by
    rw [seen, frag]
    by_cases hm : j + 1 = cut.m <;> simp [hm]
  have hfirst : (cut.seen s j i).firstHole = s.firstHole := by
    rw [seen]
    split_ifs <;> rfl
  rw [takeFrag, hstart, cut.frag_length, hsum]
  simp only [hseen, ← hlen, hfirst]
  rw [show (cut.frag D id j).offset8 = cut.block j from rfl, hfill]

theorem takeFrag_dup (hj : j < cut.m) (hdup : arrived j) (hx : (a, j) ∈ hs) :
    takeFrag maxUdp s (cut.frag D id j) (cut.block a) = some (s, none) := by
  have haj : a < j := (h.runs.run _ hx).1
  have hlt := cut.mono j hj
  have hmul := cut.block_mul hj
  have hblock := cut.block_lt haj hj
  have hlast : (getHole s.buf (cut.block a)).lastByte = cut.c j :=
    (h.last _ hx).trans (if_neg (by omega))
  by_cases hm : j + 1 = cut.m
  · have hu16 : cut.c (j + 1) < 2 ^ 16 := cut.c_u16 (by omega)
    have hseen : cut.seen s j (cut.block a) =
        { s with totalLen := cut.c (j + 1), buf := setLast s.buf (cut.block a) (cut.c (j + 1)) } :=
      if_pos hm
    have hget :
        (getHole (cut.seen s j (cut.block a)).buf (cut.block a)).lastByte = cut.c (j + 1) := by
      rw [hseen, getHole_setLast hu16, if_pos rfl]
    have hfill :
        fillHole maxUdp (cut.seen s j (cut.block a)).buf s.firstHole (cut.block a) (cut.block j)
        (cut.c (j + 1) - cut.c j) = some (s.buf, s.firstHole, false) := by
      simp only [fillHole, hget, hmul]
      rw [if_neg (by omega), if_pos (by omega), hseen, setLast_setLast hu16, setLast_self hlast]
    have hcopy :
        copyIn s.buf (cut.c j) (cut.c (j + 1) - cut.c j) (cut.frag D id j).data = s.buf := by
      funext p
      rw [copyIn]
      split_ifs with hp
      · rw [cut.frag_getD D id j hp.1 (by omega), h.data j hj hdup p hp.1 (by omega)]
      · rfl
    have htotal : s.totalLen = cut.c (j + 1) := by
      rw [h.total, ← hm, Nat.add_sub_cancel, if_pos hdup]
    rw [takeFrag_eq hj (by rw [hget, if_neg (by omega)]) hfill, hcopy, hseen, ← htotal]
    rfl
  · have hseen : cut.seen s j (cut.block a) = s := if_neg hm
    have hfill :
        fillHole maxUdp (cut.seen s j (cut.block a)).buf s.firstHole (cut.block a) (cut.block j) 0 =
        some (s.buf, s.firstHole, false) := by
      simp only [fillHole, hseen, hlast, hmul]
      rw [if_neg (by omega), if_pos (by omega), setLast_self hlast]
    have hcopy : copyIn s.buf (cut.c j) 0 (cut.frag D id j).data = s.buf :=
      funext fun p => if_neg (by omega)
    rw [takeFrag_eq hj (by rw [hseen, hlast, if_pos hlt, Nat.sub_self]) hfill, hseen, hcopy]
    rfl

theorem netDefragment_dup (hj : j < cut.m) (hdup : arrived j) :
    netDefragment maxUdp s (cut.frag D id j) = some (s, none) := by
  rw [netDefragment_eq h hj]
  cases hfind : hs.find? fun x => cut.c j ≤ cut.holeEnd x.2 with
  | none => rfl
  | some x =>
    have hx := mem_of_find?_eq_some hfind
    have hend : cut.c j ≤ cut.holeEnd x.2 := by simpa using find?_some hfind
    obtain ⟨hx12, hxm⟩ := h.runs.run x hx
    have hnot : ¬ (x.1 ≤ j ∧ j < x.2) := fun hin => by
      have := (h.runs.missing j hj).mpr ⟨x, hx, hin⟩
      simp [hdup] at this
    have hmul := cut.block_mul hj
    have hmulx := cut.block_mul (by omega : x.1 < cut.m)
    have hlt := cut.mono j hj
    by_cases hafter : j < x.1
    · -- the hole comes after the fragment
      have := cut.le (by omega : j + 1 ≤ x.1) (by omega)
      exact if_pos (by omega)
    -- the hole ends where the fragment starts
    have hxend : cut.holeEnd x.2 = cut.c x.2 := if_neg (by omega)
    have hxj : x.2 = j := by
      by_contra hne
      have := cut.lt (by omega : x.2 < j) (by omega)
      omega
    have hblock := cut.block_lt (by omega : x.1 < j) hj
    refine (if_neg (by omega)).trans (takeFrag_dup h hj hdup ?_)
    rw [← hxj]
    exact hx

end

/-- Link 0 stands for no hole, so the second hole must not start at fragment `j` while the first
starts at 0; and the descriptor of what is missing after it must fit. -/
def Safe (cut : Cut maxUdp) (arrived : Nat → Bool) (j : Nat) : Prop := arrived j = true ∨
    (¬ ∃ k < j, 0 < k ∧ (∀ i < k, arrived i = false) ∧ ∀ i < j, k ≤ i → arrived i = true) ∧
    (j + 2 = cut.m → arrived (j + 1) = false → cut.c (j + 1) + 8 ≤ maxUdp)

def Whole (cut : Cut maxUdp) (D : Mem) (p : Packet) : Prop :=
  p.len = cut.c cut.m + ipHdrSize ∧ ∀ a < cut.c cut.m, p.payload a = D a

theorem Cut.exists_frag (cut : Cut maxUdp) (ha : a < cut.c cut.m) :
    ∃ j < cut.m, cut.c j ≤ a ∧ a < cut.c (j + 1) := by
  have hfind : ∀ n, a < cut.c n → ∃ j < n, cut.c j ≤ a ∧ a < cut.c (j + 1) := by
    intro n hn
    induction n with
    | zero =>
      have := cut.zero
      omega
    | succ n ih =>
      by_cases h : a < cut.c n
      · obtain ⟨j, hj, hj'⟩ := ih h
        exact ⟨j, by omega, hj'⟩
      · exact ⟨n, lt_add_one n, by omega, hn⟩
  exact hfind cut.m ha

theorem Inv.hit (h : Inv cut D id arrived (pre ++ (a, b) :: post) s) (ha : a ≤ j) (hb : j < b) :
    Hit cut arrived j a b pre post (cut.seen s j (cut.block a)).buf s.firstHole := by
  have hbm : b ≤ cut.m := (h.runs.run (a, b) (by simp)).2
  have hothers : ∀ x ∈ pre ++ post, x ∈ pre ++ (a, b) :: post := fun x hx => by
    rcases mem_append.mp hx with hx | hx
    · exact Hit.mem_pre hx
    · exact Hit.mem_post hx
  by_cases hm : j + 1 = cut.m
  · have hu16 : cut.c (j + 1) < 2 ^ 16 := cut.c_u16 (by omega)
    rw [seen, if_pos hm]
    refine ⟨h.runs, ?_, h.first, ?_, ?_, ha, hb⟩
    · exact h.linked.congr (fun y _ => (setLast_fields hu16).2.1) fun y _ =>
        (setLast_fields hu16).2.2
    · intro x hx
      rw [(setLast_fields hu16).1, if_neg (h.runs.block_ne (le_refl a) (by omega) hx)]
      exact h.last x (hothers x hx)
    · rw [(setLast_fields hu16).1, if_pos rfl, if_pos (by omega)]
  · rw [seen, if_neg hm]
    refine ⟨h.runs, h.linked, h.first, fun x hx => h.last x (hothers x hx), ?_, ha, hb⟩
    rw [h.last (a, b) (by simp)]
    split_ifs with hbj
    · rw [hbj]
      exact if_neg hm
    · rfl

theorem Safe.before_ne (hsafe : Safe cut arrived j) (hnew : arrived j = false)
    (hruns : Runs cut.m arrived (pre ++ (j, b) :: post)) (hpre : pre ≠ []) :
    Hit.before cut pre ≠ 0 := by
  obtain ⟨hgap, -⟩ : _ ∧ _ := hsafe.resolve_left (by simp [hnew])
  obtain ⟨pre, l, rfl⟩ := pre.eq_nil_or_concat'.resolve_left hpre
  rw [Hit.before_concat]
  intro h0
  have hl : l ∈ (pre ++ [l]) ++ (j, b) :: post := by simp
  have hlm := hruns.start_lt l hl
  have hl0 : l.1 = 0 := by
    by_contra hne
    have := cut.block_pos (pos_of_ne_zero hne) hlm
    omega
  obtain ⟨hsorted, hpost, hbefore⟩ := pairwise_append.mp hruns.sorted
  have hlj : l.2 < j := hbefore l (by simp) _ mem_cons_self
  have hlrun := hruns.run l hl
  have hjm : j < cut.m := hruns.start_lt (j, b) (by simp)
  refine hgap ⟨l.2, hlj, by omega, fun i hi => ?_, fun i hij hle => ?_⟩
  · exact (hruns.missing i (by omega)).mpr ⟨l, hl, by omega, hi⟩
  -- a run with `i` would lie between the two
  by_contra hmiss
  obtain ⟨x, hx, hxi⟩ := (hruns.missing i (by omega)).mp (by simpa using hmiss)
  rcases mem_append.mp hx with hx | hx
  · rcases mem_append.mp hx with hx | hx
    · have : x.2 < l.1 := (pairwise_append.mp hsorted).2.2 x hx l mem_cons_self
      omega
    · obtain rfl := mem_singleton.mp hx
      omega
  · rcases mem_cons.mp hx with rfl | hx
    · omega
    · have : b < x.1 := (pairwise_cons.mp hpost).1 x hx
      have : j < b := (hruns.run (j, b) (by simp)).1
      omega

theorem Runs.all_arrived {m : Nat} (h : Runs m arrived hs) : (∀ i < m, arrived i) ↔ hs = [] := by
  constructor
  · intro hall
    refine eq_nil_iff_forall_not_mem.mpr fun x hx => ?_
    have := h.start_missing hx
    simp [hall x.1 (h.start_lt x hx)] at this
  · rintro rfl i hi
    by_contra hmiss
    obtain ⟨x, hx, -⟩ := (h.missing i hi).mp (by simpa using hmiss)
    cases hx

theorem Inv.find (h : Inv cut D id arrived (pre ++ (a, b) :: post) s) (ha : a ≤ j) (hb : j < b) :
    ((pre ++ (a, b) :: post).find? fun x => cut.c j ≤ cut.holeEnd x.2) = some (a, b) := by
  have hbm : b ≤ cut.m := (h.runs.run (a, b) (by simp)).2
  have hpre : (pre.find? fun x => cut.c j ≤ cut.holeEnd x.2) = none := by
    refine find?_eq_none.mpr fun x hx => ?_
    have hxa : x.2 < a := (pairwise_append.mp h.runs.sorted).2.2 x hx _ mem_cons_self
    have hxend : cut.holeEnd x.2 = cut.c x.2 := if_neg (by omega)
    have := cut.lt (by omega : x.2 < j) (by omega)
    rw [hxend, decide_eq_true_iff]
    omega
  have hhere : cut.c j ≤ cut.holeEnd b := by
    have := cut.c_u16 (by omega : j ≤ cut.m)
    rw [holeEnd]
    split_ifs
    · omega
    · exact le_of_lt (cut.lt hb hbm)
  rw [find?_append, hpre, Option.none_or, find?_cons_of_pos (by simpa using hhere)]

theorem Hit.end_le (h : Hit cut arrived j a b pre post buf first) :
    cut.c (j + 1) ≤ (getHole buf (cut.block a)).lastByte := by
  have hbm := h.lt_m
  have hjb := h.lt_end
  have hu16 := cut.c_u16 (by omega : j + 1 ≤ cut.m)
  rw [h.here, holeEnd]
  split_ifs
  · exact le_rfl
  · omega
  · exact cut.le (by omega) hbm

theorem Cut.seen_total (cut : Cut maxUdp) (h : Inv cut D id arrived hs s) (hj : j < cut.m)
    (i : Nat) : (cut.seen s j i).totalLen = if update arrived j true (cut.m - 1) then cut.c cut.m
    else 0xffff := by
  rw [seen]
  by_cases hm : j + 1 = cut.m
  · have hupd : update arrived j true (cut.m - 1) := by rw [← hm, Nat.add_sub_cancel, update_self]
    rw [if_pos hm, if_pos hupd, hm]
  · rw [if_neg hm, update_of_ne (by omega)]
    exact h.total

theorem Cut.seen_ipId (cut : Cut maxUdp) (s : State) (j i : Nat) :
    (cut.seen s j i).ipId = s.ipId := by
  rw [seen]
  split_ifs <;> rfl

theorem apart_of_arrived (cut : Cut maxUdp) {p : Nat} (hi : i < cut.m) (harr : arrived i)
    (hp : cut.c i ≤ p) (hp' : p < cut.c (i + 1)) : Hit.Apart cut arrived p := by
  intro x hx hmiss
  rcases lt_trichotomy i x with hlt | rfl | hlt
  · have := cut.le (by omega : i + 1 ≤ x) (by omega)
    exact .inl (by omega)
  · simp [harr] at hmiss
  · have := cut.add_eight_le hlt hi
    exact .inr (by omega)

theorem copied_data {buf' : Mem} {first' : Nat} {hs' : List (Nat × Nat)}
    (h : Inv cut D id arrived (pre ++ (a, b) :: post) s)
    (hfilled : Filled cut arrived hs' (cut.seen s j (cut.block a)).buf buf' first') :
    ∀ i < cut.m, update arrived j true i → ∀ p, cut.c i ≤ p → p < cut.c (i + 1) →
      copyIn buf' (cut.c j) (cut.c (j + 1) - cut.c j) (cut.frag D id j).data p = D p := by
  intro i hi harr p hp hp'
  rw [copyIn]
  by_cases hin : cut.c j ≤ p ∧ p < cut.c (j + 1)
  · rw [if_pos (by omega), cut.frag_getD D id j hin.1 hin.2]
  have hij : i ≠ j := by
    rintro rfl
    exact hin ⟨hp, hp'⟩
  rw [update_of_ne hij] at harr
  have hapart := apart_of_arrived cut hi harr hp hp'
  have ha := h.runs.start_lt (a, b) (by simp)
  have hmiss : arrived a = false := h.runs.start_missing (x := (a, b)) (by simp)
  have hseen : (cut.seen s j (cut.block a)).buf p = s.buf p := by
    rw [seen]
    split_ifs
    · exact setHole_out (hapart.block ha hmiss)
    · rfl
  rw [if_neg (by omega), hfilled.frame p hapart, hseen, h.data i hi harr p hp hp']

theorem netDefragment_new (h : Inv cut D id arrived hs s)
    (hj : j < cut.m) (hnew : arrived j = false)
    (hsafe : Safe cut arrived j) : ∃ s' r, netDefragment maxUdp s (cut.frag D id j) = some (s', r) ∧
      if ∀ i < cut.m, update arrived j true i then ∃ p, r = some p ∧ Whole cut D p
      else r = none ∧ ∃ hs', Inv cut D id (update arrived j true) hs' s' := by
  obtain ⟨x, hx, haj, hjb⟩ := (h.runs.missing j hj).mp hnew
  obtain ⟨pre, post, rfl⟩ := append_of_mem hx
  obtain ⟨a, b⟩ := x
  have hhit := h.hit haj hjb
  obtain ⟨buf', first', done, hfill, hfilled, hdone⟩ := hhit.fill
    (fun heq => by subst heq; exact hsafe.before_ne hnew h.runs)
    (hsafe.resolve_left (by simp [hnew])).2
  have hruns := h.runs.fill haj hjb
  have hdata := copied_data h hfilled
  have hlt := cut.mono j hj
  have hblock : cut.block a ≤ cut.block j := by
    rcases eq_or_lt_of_le haj with rfl | hlt
    · exact le_rfl
    · exact le_of_lt (cut.block_lt hlt hj)
  have hget : ∀ x ∈ pre ++ (pieces a b j ++ post), getHole
      (copyIn buf' (cut.c j) (cut.c (j + 1) - cut.c j) (cut.frag D id j).data) (cut.block x.1) =
        getHole buf' (cut.block x.1) := by
    intro x hx
    have hxm := hruns.start_lt x hx
    have hmul := cut.block_mul hxm
    have hmiss := hruns.start_missing hx
    refine getHole_congr fun p hp hp' => if_neg ?_
    rcases lt_trichotomy x.1 j with hlt | rfl | hlt
    · have := cut.add_eight_le hlt hj
      omega
    · simp at hmiss
    · have := cut.le (by omega : j + 1 ≤ x.1) (by omega)
      omega
  have htake : netDefragment maxUdp s (cut.frag D id j) =
      takeFrag maxUdp s (cut.frag D id j) (cut.block a) := by
    have hover : ¬ cut.block j + (cut.c (j + 1) - cut.c j + 7) / 8 ≤ cut.block a := by omega
    rw [netDefragment_eq h hj, h.find haj hjb]
    exact if_neg hover
  rw [htake, takeFrag_eq hj (if_neg (not_lt.mpr hhit.end_le)).symm hfill]
  refine ⟨_, _, rfl, ?_⟩
  split_ifs with hall hd hd
  · refine ⟨_, rfl, ?_, ?_⟩
    · rw [cut.seen_total h hj, if_pos (hall _ (by omega))]
    · intro p hp
      obtain ⟨i, hi, hp, hp'⟩ := cut.exists_frag hp
      exact hdata i hi (hall i hi) p hp hp'
  · exact absurd (hdone.mpr (hruns.all_arrived.mp hall)) hd
  · exact absurd (hruns.all_arrived.mpr (hdone.mp hd)) hall
  · have hne : pre ++ (pieces a b j ++ post) ≠ [] := fun hnil => hd (hdone.mpr hnil)
    refine ⟨rfl, pre ++ (pieces a b j ++ post), hruns, hne, ?_, hfilled.first hne, ?_, hdata,
      cut.seen_total h hj _, (cut.seen_ipId s j _).trans h.ipId⟩
    · refine hfilled.linked.congr (fun y hy => ?_) fun y hy => ?_
      all_goals
        obtain ⟨x, hx, rfl⟩ := mem_map.mp hy
        simp [hget x hx]
    · intro x hx
      rw [hget x hx]
      exact hfilled.last x hx

/-! ## Runs -/

def Fresh (s : State) (id : Nat) : Prop := s.totalLen = 0 ∨ s.ipId ≠ id

theorem reset_inv (hm : 0 < cut.m) (s : State) :
    Inv cut D id (fun _ => false) [(0, cut.m)] (s.reset id) := by
  have hblock : cut.block 0 = 0 := by rw [Cut.block, cut.zero]
  have hids : ids cut [(0, cut.m)] = [0] := congrArg (fun i => [i]) hblock
  have hget : getHole (s.reset id).buf 0 =
      { getHole s.buf 0 with lastByte := 0xffff, nextHole := 0, prevHole := 0 } :=
    getHole_setHole_same
      ⟨Nat.lt_add_one _, Nat.two_pow_pos 16, Nat.two_pow_pos 16, (getHole_fits s.buf 0).2.2.2⟩
  refine ⟨⟨pairwise_singleton _ _, ?_, ?_⟩, by simp, ?_, ?_, ?_, ?_, rfl, rfl⟩
  · simpa using hm
  · intro i hi
    simpa using hi
  · rw [hids]
    exact ⟨congrArg Hole.nextHole hget, congrArg Hole.prevHole hget, trivial⟩
  · rw [hids]
    rfl
  · intro x hx
    obtain rfl := mem_singleton.mp hx
    rw [hblock, hget]
    exact (if_pos rfl).symm
  · intro i _ harr
    cases harr

theorem netDefragment_fresh (hfresh : Fresh s id) (hj : j < cut.m) :
    netDefragment maxUdp s (cut.frag D id j) =
    netDefragment maxUdp (s.reset id) (cut.frag D id j) := by
  have hreset : ¬ ((s.reset id).totalLen = 0 ∨ (s.reset id).ipId ≠ id) := by simp [State.reset]
  rw [netDefragment_frag s hj, netDefragment_frag (s.reset id) hj]
  have hs : s.totalLen = 0 ∨ s.ipId ≠ id := hfresh
  simp only [if_neg hreset, if_pos hs]

def among (js : List Nat) (i : Nat) : Bool := decide (i ∈ js)

theorem update_among (js : List Nat) (j : Nat) : update (among js) j true = among (j :: js) := by
  funext i
  by_cases hij : i = j
  · subst hij
    simp [among]
  · rw [update_of_ne hij]
    simp [among, hij]

/-- The state after arrivals `js` of an incomplete datagram. -/
def Going (cut : Cut maxUdp) (D : Mem) (id : Nat) (js : List Nat) (s : State) : Prop :=
  (js = [] ∧ Fresh s id) ∨ ∃ hs, Inv cut D id (among js) hs s

theorem Inv.step (h : Inv cut D id (among js) hs s) (hj : j < cut.m)
    (hsafe : Safe cut (among js) j) : ∃ s' r, netDefragment maxUdp s (cut.frag D id j) =
    some (s', r) ∧ if ∀ i < cut.m, among (j :: js) i then ∃ p, r = some p ∧ Whole cut D p
      else r = none ∧ Going cut D id (j :: js) s' := by
  by_cases hdup : among js j
  · have hsame : among (j :: js) = among js := by
      rw [← update_among, update_eq_self_iff.mpr hdup.symm]
    refine ⟨s, none, netDefragment_dup h hj hdup, ?_⟩
    rw [hsame, if_neg fun hall => h.nonempty (h.runs.all_arrived.mp hall)]
    exact ⟨rfl, .inr ⟨hs, hsame ▸ h⟩⟩
  · obtain ⟨s', r, hstep, hres⟩ := netDefragment_new h hj (by simpa using hdup) hsafe
    rw [update_among] at hres
    refine ⟨s', r, hstep, ?_⟩
    split_ifs at hres ⊢
    · exact hres
    · exact ⟨hres.1, .inr hres.2⟩

theorem Going.step (h : Going cut D id js s) (hj : j < cut.m) (hsafe : Safe cut (among js) j) :
    ∃ s' r, netDefragment maxUdp s (cut.frag D id j) = some (s', r) ∧
      if ∀ i < cut.m, among (j :: js) i then ∃ p, r = some p ∧ Whole cut D p
      else r = none ∧ Going cut D id (j :: js) s' := by
  rcases h with ⟨rfl, hfresh⟩ | ⟨hs, hinv⟩
  · rw [netDefragment_fresh hfresh hj]
    have hinv : Inv cut D id (among []) [(0, cut.m)] (s.reset id) := reset_inv (zero_lt_of_lt hj) s
    exact hinv.step hj hsafe
  · exact hinv.step hj hsafe

def receive (maxUdp : Nat) : State → List Frag → Option (State × List Packet)
  | s, [] => some (s, [])
  | s, f :: fs =>
    match netDefragment maxUdp s f with
    | none => none
    | some (s, r) => (receive maxUdp s fs).map fun (s, ps) => (s, r.toList ++ ps)

def SafeRun (cut : Cut maxUdp) : List Nat → List Nat → Prop
  | _, [] => True
  | js, j :: rest => j < cut.m ∧ Safe cut (among js) j ∧ SafeRun cut (j :: js) rest

theorem Going.run {rest : List Nat} (h : Going cut D id js s) (hsafe : SafeRun cut js (rest ++ [j]))
    (hmissing : ∃ i < cut.m, i ∉ js ∧ i ∉ rest) : ∃ t, receive maxUdp s (rest.map (cut.frag D id)) =
    some (t, []) ∧ Going cut D id (rest.reverse ++ js) t ∧
      j < cut.m ∧ Safe cut (among (rest.reverse ++ js)) j := by
  induction rest generalizing js s with
  | nil => exact ⟨s, rfl, h, hsafe.1, hsafe.2.1⟩
  | cons k rest ih =>
    obtain ⟨hk, hsafeK, hsafe⟩ := hsafe
    obtain ⟨s', r, hstep, hres⟩ := h.step hk hsafeK
    obtain ⟨i, hi, hjs, hrest⟩ := hmissing
    rw [mem_cons, not_or] at hrest
    have hall : ¬ ∀ i < cut.m, among (k :: js) i := fun hall => by
      have := hall i hi
      simp [among, hjs, hrest.1] at this
    rw [if_neg hall] at hres
    obtain ⟨rfl, hgoing⟩ := hres
    obtain ⟨t, hrun, ht⟩ := ih hgoing hsafe ⟨i, hi, by simp [hjs, hrest.1], hrest.2⟩
    refine ⟨t, ?_, by simpa using ht⟩
    rw [map_cons, receive, hstep]
    simp only [hrun]
    rfl

/-- While a fragment is missing nothing is returned; the arrival that completes the datagram returns
it. -/
theorem datagram_reassembled (cut : Cut maxUdp) (D : Mem) {js : List Nat} (hfresh : Fresh s id)
    (hsafe : SafeRun cut [] (js ++ [j])) (hmissing : ∃ i < cut.m, i ∉ js) :
    ∃ t t' r, receive maxUdp s (js.map (cut.frag D id)) = some (t, []) ∧
      netDefragment maxUdp t (cut.frag D id j) = some (t', r) ∧
      if ∀ i < cut.m, i ∈ js ++ [j] then ∃ p, r = some p ∧ Whole cut D p else r = none := by
  obtain ⟨i, hi, hjs⟩ := hmissing
  have hgoing : Going cut D id [] s := .inl ⟨rfl, hfresh⟩
  obtain ⟨t, hrun, ht, hj, hsafeJ⟩ := hgoing.run hsafe ⟨i, hi, by simp, hjs⟩
  obtain ⟨t', r, hstep, hres⟩ := ht.step hj hsafeJ
  have hall : (∀ i < cut.m, among (j :: (js.reverse ++ [])) i) ↔ ∀ i < cut.m, i ∈ js ++ [j] := by
    simp [among, or_comm]
  refine ⟨t, t', r, hrun, hstep, ?_⟩
  simp only [hall] at hres
  split_ifs at hres ⊢
  · exact hres
  · exact hres.1

def threeBlocks : Cut 16364 where
  m := 3
  c := fun i => 8 * i
  zero := rfl
  mono := by decide
  aligned := by decide
  fits := by decide
  large := by decide
  small := by decide

def counting (a : Nat) : UInt8 := UInt8.ofNat (a + 1)

def boot : State := ⟨fun _ => 0, 0, 0, 0⟩

theorem datagram_reassembled_three_blocks :
    ∃ t t' r, receive 16364 boot ([0, 2].map (threeBlocks.frag counting 7)) = some (t, []) ∧
      netDefragment 16364 t (threeBlocks.frag counting 7 1) = some (t', r) ∧
      if ∀ i < threeBlocks.m, i ∈ [0, 2] ++ [1] then ∃ p, r = some p ∧ Whole threeBlocks counting p
      else r = none :=
  datagram_reassembled threeBlocks counting (j := 1) (.inl rfl)
    ⟨by decide, .inr ⟨by decide, by decide⟩, by decide, .inr ⟨by decide, by decide⟩, by decide,
      .inr ⟨by decide, by decide⟩, trivial⟩
    ⟨1, by decide, by decide⟩

/-- The second and the third block arrive: what is left is hole 0, which the list of holes has
lost. -/
theorem packet_without_first_fragment :
    ∃ t t' p, receive 16364 boot ([1].map (threeBlocks.frag counting 7)) = some (t, []) ∧
      netDefragment 16364 t (threeBlocks.frag counting 7 2) = some (t', some p) ∧ p.len = 44 ∧
      p.payload 0 ≠ counting 0 :=
  ⟨_, _, _, rfl, rfl, rfl, by decide⟩

end MtkBoot.Net
