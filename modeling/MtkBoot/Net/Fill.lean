import MtkBoot.Net.Fragments

/-! A missing fragment is filled in: its hole is removed, shortened, moved or split. -/

namespace MtkBoot.Net

open Lib List Nat

variable {hs : List (Nat × Nat)} {i l p r : Nat}

variable {maxUdp : Nat} {cut : Cut maxUdp}

/-- The holes when fragment `j` of hole `a`, `b` is about to be filled in; the end of the datagram
is known if `j` is its last fragment. -/
structure Hit (cut : Cut maxUdp) (arrived : Nat → Bool) (j a b : Nat) (pre post : List (Nat × Nat))
  (buf : Mem) (first : Nat) : Prop where
  runs : Runs cut.m arrived (pre ++ (a, b) :: post)
  linked : Linked (fun i => (getHole buf i).nextHole) (fun i => (getHole buf i).prevHole) 0
    (ids cut (pre ++ (a, b) :: post)) 0
  first : first = (ids cut (pre ++ (a, b) :: post)).headD 0
  last : ∀ h ∈ pre ++ post, (getHole buf (cut.block h.1)).lastByte = cut.holeEnd h.2
  here : (getHole buf (cut.block a)).lastByte = if b = j + 1 then cut.c (j + 1) else cut.holeEnd b
  start_le : a ≤ j
  lt_end : j < b

/-- Holes `hs` after a fragment was filled in; nothing but the first eight bytes of missing
fragments was written. -/
structure Filled (cut : Cut maxUdp) (arrived : Nat → Bool) (hs : List (Nat × Nat)) (buf buf' : Mem)
  (first : Nat) : Prop where
  linked : Linked (fun i => (getHole buf' i).nextHole) (fun i => (getHole buf' i).prevHole) 0
    (ids cut hs) 0
  first : hs ≠ [] → first = (ids cut hs).headD 0
  last : ∀ h ∈ hs, (getHole buf' (cut.block h.1)).lastByte = cut.holeEnd h.2
  frame : ∀ p, (∀ x < cut.m, arrived x = false → p < cut.c x ∨ cut.c x + 8 ≤ p) → buf' p = buf p

theorem ids_append (cut : Cut maxUdp) (hs hs' : List (Nat × Nat)) :
    ids cut (hs ++ hs') = ids cut hs ++ ids cut hs' :=
  map_append

theorem ids_cons (cut : Cut maxUdp) (h : Nat × Nat) (hs : List (Nat × Nat)) :
    ids cut (h :: hs) = cut.block h.1 :: ids cut hs := rfl

namespace Hit

variable {arrived : Nat → Bool} {j a b first : Nat} {pre post : List (Nat × Nat)} {buf : Mem}

def before (cut : Cut maxUdp) (pre : List (Nat × Nat)) : Nat := (ids cut pre).getLastD 0
def after (cut : Cut maxUdp) (post : List (Nat × Nat)) : Nat := (ids cut post).headD 0

theorem before_concat (cut : Cut maxUdp) (pre : List (Nat × Nat)) (l : Nat × Nat) :
    before cut (pre ++ [l]) = cut.block l.1 := by
  rw [before, ids_append]
  exact getLastD_concat

/-- The link leads to one of the holes, or there is none. -/
def Leads (cut : Cut maxUdp) (hs : List (Nat × Nat)) (i : Nat) : Prop :=
  i = 0 ∨ ∃ x ∈ hs, i = cut.block x.1

theorem before_leads (cut : Cut maxUdp) (pre : List (Nat × Nat)) :
    Leads cut pre (before cut pre) := by
  rcases pre.eq_nil_or_concat' with rfl | ⟨pre, l, rfl⟩
  · exact .inl rfl
  · exact .inr ⟨l, by simp, before_concat cut pre l⟩

theorem after_leads (cut : Cut maxUdp) (post : List (Nat × Nat)) :
    Leads cut post (after cut post) := by
  cases post with
  | nil => exact .inl rfl
  | cons r post => exact .inr ⟨r, mem_cons_self, rfl⟩

theorem Leads.ne {y : Nat} (h : Leads cut hs i) (hne : ∀ x ∈ hs, cut.block x.1 ≠ y) :
    ¬ (i ≠ 0 ∧ y = i) := by
  rintro ⟨h0, rfl⟩
  rcases h with h | ⟨x, hx, rfl⟩
  · exact h0 h
  · exact hne x hx rfl

theorem mem_pre {x : Nat × Nat} (hx : x ∈ pre) : x ∈ pre ++ (a, b) :: post := mem_append_left _ hx

theorem mem_post {x : Nat × Nat} (hx : x ∈ post) : x ∈ pre ++ (a, b) :: post :=
  mem_append_right _ (mem_cons_of_mem _ hx)

theorem mem_ids {x : Nat × Nat} (hx : x ∈ hs) : cut.block x.1 ∈ ids cut hs :=
  mem_map.mpr ⟨x, hx, rfl⟩

theorem mem_cases {x y : Nat × Nat} (hx : x ∈ pre ++ y :: post) : x ∈ pre ++ post ∨ x = y := by
  simp only [mem_append, mem_cons] at hx ⊢
  tauto

def Apart (cut : Cut maxUdp) (arrived : Nat → Bool) (p : Nat) : Prop :=
  ∀ x < cut.m, arrived x = false → p < cut.c x ∨ cut.c x + 8 ≤ p

theorem Apart.block {p x : Nat} (hp : Apart cut arrived p) (hx : x < cut.m)
    (hmiss : arrived x = false) : p < 8 * cut.block x ∨ 8 * cut.block x + 8 ≤ p := by
  rw [cut.block_mul hx]
  exact hp x hx hmiss

abbrev Chain (buf : Mem) : Nat → List Nat → Nat → Prop :=
  Linked (fun i => (getHole buf i).nextHole) fun i => (getHole buf i).prevHole

section

variable (h : Hit cut arrived j a b pre post buf first)
include h

theorem lt_m : b ≤ cut.m := (h.runs.run (a, b) (by simp)).2

theorem linked' : Chain buf 0 (ids cut pre ++ cut.block a :: ids cut post) 0 := by
  have := h.linked
  rwa [ids_append, ids_cons] at this

theorem next_eq : (getHole buf (cut.block a)).nextHole = after cut post := h.linked'.next_eq

theorem prev_eq : (getHole buf (cut.block a)).prevHole = before cut pre := h.linked'.prev_eq

theorem sorted : (ids cut pre ++ cut.block a :: ids cut post).Pairwise (· < ·) := by
  have hrun := h.runs.start_lt
  have : (ids cut (pre ++ (a, b) :: post)).Pairwise (· < ·) := by
    rw [ids, pairwise_map]
    refine h.runs.sorted.imp_of_mem fun {x y} hx hy hxy => ?_
    have := (h.runs.run x hx).1
    exact cut.block_lt (by omega) (hrun y hy)
  rwa [ids_append, ids_cons] at this

theorem nodup : (ids cut pre ++ cut.block a :: ids cut post).Nodup := h.sorted.imp ne_of_lt

theorem missing {x : Nat × Nat} (hx : x ∈ pre ++ (a, b) :: post) :
    x.1 < cut.m ∧ arrived x.1 = false := by
  exact ⟨h.runs.start_lt x hx, h.runs.start_missing hx⟩

theorem after_eq_zero : after cut post = 0 ↔ post = [] := by
  cases post with
  | nil => exact ⟨fun _ => rfl, fun _ => rfl⟩
  | cons r post =>
    have hlt := (pairwise_cons.mp (pairwise_append.mp h.sorted).2.1).1 _ mem_cons_self
    exact ⟨fun h0 => absurd h0 (ne_of_gt (zero_lt_of_lt hlt)), nofun⟩

theorem leads_missing (hi : Leads cut pre i ∨ Leads cut post i) :
    i = 0 ∨ ∃ x < cut.m, arrived x = false ∧ i = cut.block x := by
  rcases hi with (h0 | ⟨x, hx, rfl⟩) | h0 | ⟨x, hx, rfl⟩
  · exact .inl h0
  · exact .inr ⟨x.1, (h.missing (mem_pre hx)).1, (h.missing (mem_pre hx)).2, rfl⟩
  · exact .inl h0
  · exact .inr ⟨x.1, (h.missing (mem_post hx)).1, (h.missing (mem_post hx)).2, rfl⟩

theorem leads_u16 (hi : Leads cut pre i ∨ Leads cut post i) : i < 2 ^ 16 := by
  rcases h.leads_missing hi with rfl | ⟨x, hx, -, rfl⟩
  · exact Nat.two_pow_pos 16
  · exact cut.block_u16 hx

theorem leads_out (hi : Leads cut pre i ∨ Leads cut post i) (hp : Apart cut arrived p) :
    i = 0 ∨ p < 8 * i ∨ 8 * i + 8 ≤ p := by
  rcases h.leads_missing hi with h0 | ⟨x, hx, hmiss, rfl⟩
  · exact .inl h0
  · exact .inr (hp.block hx hmiss)

theorem before_u16 : before cut pre < 2 ^ 16 := h.leads_u16 (.inl (before_leads cut pre))

theorem after_u16 : after cut post < 2 ^ 16 := h.leads_u16 (.inr (after_leads cut post))

theorem relinked_out {buf1 : Mem} (hp : Apart cut arrived p) :
    linkNext (linkPrev buf1 (after cut post) r) (before cut pre) l p = buf1 p := by
  rw [linkNext_out (h.leads_out (.inl (before_leads cut pre)) hp),
    linkPrev_out (h.leads_out (.inr (after_leads cut post)) hp)]

theorem pre_lt_post {y z : Nat} (hy : y ∈ ids cut pre) (hz : z ∈ ids cut post) : y < z :=
  (pairwise_append.mp h.sorted).2.2 y hy z (mem_cons_of_mem _ hz)

theorem relink (buf1 : Mem) (mid : List Nat) {l r : Nat} (hsafe : pre ≠ [] → before cut pre ≠ 0)
    (hsame : ∀ y ∈ ids cut pre ++ ids cut post, getHole buf1 y = getHole buf y)
    (hl : (mid ++ ids cut post).headD 0 = l)
    (hr : mid.getLastD (before cut pre) = r) (hl16 : l < 2 ^ 16) (hr16 : r < 2 ^ 16) (hmid : Chain
      (linkNext (linkPrev buf1 (after cut post) r) (before cut pre) l) (before cut pre) mid
      (after cut post)) : Chain (linkNext (linkPrev buf1 (after cut post) r) (before cut pre) l) 0
      (ids cut pre ++ (mid ++ ids cut post)) 0 := by
  refine h.linked'.replace mid h.nodup hmid ?_ ?_ ?_ ?_
  · intro y hy
    have hne : before cut pre ≠ 0 := hsafe (by rintro rfl; simp [ids] at hy)
    simp only [linkNext_fields hl16, linkPrev_fields hr16, hsame y (mem_append_left _ hy), hne,
      ne_eq, not_false_eq_true, true_and, hl]
    rfl
  · intro y hy
    have hne := (after_leads cut post).ne (y := y) fun x hx heq =>
      absurd (h.pre_lt_post hy (heq ▸ mem_ids hx)) (lt_irrefl _)
    simp only [linkNext_fields hl16, linkPrev_fields hr16, hsame y (mem_append_left _ hy),
      if_neg hne]
  · intro y hy
    have hne := (before_leads cut pre).ne (y := y) fun x hx heq =>
      absurd (h.pre_lt_post (heq ▸ mem_ids hx) hy) (lt_irrefl _)
    simp only [linkNext_fields hl16, linkPrev_fields hr16, hsame y (mem_append_right _ hy),
      if_neg hne]
  · intro y hy
    have hne : after cut post ≠ 0 := fun h0 => by
      rw [h.after_eq_zero.mp h0] at hy
      simp [ids] at hy
    have hr' : mid.getLastD ((ids cut pre).getLastD 0) = r := hr
    simp only [linkNext_fields hl16, linkPrev_fields hr16, hsame y (mem_append_right _ hy), hne,
      ne_eq, not_false_eq_true, true_and, hr']
    rfl

theorem fits_after (hb : j + 1 < b) (hroom : j + 2 = cut.m → cut.c (j + 1) + 8 ≤ maxUdp) :
    j + 1 < cut.m ∧ arrived (j + 1) = false ∧ cut.block j + (cut.c (j + 1) - cut.c j) / 8 =
    cut.block (j + 1) ∧ 8 * cut.block (j + 1) + 8 ≤ maxUdp ∧
      8 * cut.block j + (cut.c (j + 1) - cut.c j) < (getHole buf (cut.block a)).lastByte := by
  have hbm := h.lt_m
  have haj := h.start_le
  have hj1 : j + 1 < cut.m := by omega
  have hmul := cut.block_mul (by omega : j < cut.m)
  have hmul' := cut.block_mul hj1
  have hlt := cut.mono j (by omega)
  have hmiss := (h.runs.missing _ hj1).mpr ⟨(a, b), by simp, by omega, hb⟩
  have hmax : cut.c (j + 1) + 8 ≤ maxUdp := by
    by_cases hlast : j + 2 = cut.m
    · exact hroom hlast
    · have := cut.add_eight_le (by omega : j + 1 < j + 2) (by omega)
      have := cut.le_max (by omega : j + 2 ≤ cut.m)
      omega
  have hend : cut.c (j + 1) < cut.holeEnd b := by
    rw [Cut.holeEnd]
    split_ifs with hbm'
    · have := cut.small
      omega
    · exact cut.lt hb hbm
  have hhere := h.here
  rw [if_neg (by omega)] at hhere
  exact ⟨hj1, hmiss, by omega, by omega, by omega⟩

end

theorem remove (h : Hit cut arrived j j (j + 1) pre post buf first)
    (hsafe : pre ≠ [] → before cut pre ≠ 0) : ∃ buf' first' done,
      fillHole maxUdp buf first (cut.block j) (cut.block j) (cut.c (j + 1) - cut.c j) =
      some (buf', first', done) ∧ Filled cut arrived (pre ++ post) buf buf' first' ∧
      (done ↔ pre ++ post = []) := by
  have hj : j < cut.m := lt_of_succ_le h.lt_m
  have hmul := cut.block_mul hj
  have hhere := h.here
  rw [if_pos rfl] at hhere
  have hL := h.before_u16
  have hR := h.after_u16
  have hzero : before cut pre = 0 ↔ pre = [] := by
    refine ⟨fun h0 => by_contra fun hne => hsafe hne h0, ?_⟩
    rintro rfl
    rfl
  refine ⟨linkNext (linkPrev buf (after cut post) (before cut pre)) (before cut pre)
    (after cut post), if before cut pre = 0 ∧ after cut post ≠ 0 then after cut post else first,
    decide (before cut pre = 0 ∧ after cut post = 0), ?_, ⟨?_, ?_, ?_, ?_⟩, ?_⟩
  · simp only [fillHole]
    rw [if_pos ⟨le_rfl, by omega⟩, h.next_eq, h.prev_eq]
    by_cases hp : before cut pre = 0 <;> by_cases hn : after cut post = 0 <;>
      simp [hp, hn, linkNext, linkPrev]
  · rw [ids_append]
    exact h.relink buf [] hsafe (fun _ _ => rfl) rfl rfl hR hL trivial
  · intro hne
    by_cases hpre : pre = []
    · subst hpre
      exact if_pos ⟨rfl, fun h0 => hne (h.after_eq_zero.mp h0)⟩
    · rw [if_neg (fun h0 => hpre (hzero.mp h0.1)), h.first]
      obtain ⟨x, pre, rfl⟩ := exists_cons_of_ne_nil hpre
      rfl
  · intro x hx
    rw [(linkNext_fields hR).1, (linkPrev_fields hL).1]
    exact h.last x hx
  · exact fun p => h.relinked_out
  · rw [decide_eq_true_iff, hzero, h.after_eq_zero, append_eq_nil_iff]

theorem shorten (h : Hit cut arrived j a (j + 1) pre post buf first) (ha : a < j) :
    fillHole maxUdp buf first (cut.block a) (cut.block j) (cut.c (j + 1) - cut.c j) =
        some (setLast buf (cut.block a) (cut.c j), first, false) ∧ Filled cut arrived
      (pre ++ (a, j) :: post) buf (setLast buf (cut.block a) (cut.c j)) first := by
  have hj : j < cut.m := lt_of_succ_le h.lt_m
  have hmul := cut.block_mul hj
  have hhere := h.here
  rw [if_pos rfl] at hhere
  have hu16 := cut.c_u16 hj.le
  have hids : ids cut (pre ++ (a, j) :: post) = ids cut (pre ++ (a, j + 1) :: post) := by
    simp only [ids_append, ids_cons]
  refine ⟨?_, ⟨?_, ?_, ?_, ?_⟩⟩
  · simp only [fillHole]
    rw [if_neg fun hge => (cut.block_lt ha hj).not_ge hge.1, if_pos (by omega), hmul]
  · rw [hids]
    exact h.linked.congr (fun y _ => (setLast_fields hu16).2.1) fun y _ => (setLast_fields hu16).2.2
  · intro _
    rw [hids]
    exact h.first
  · intro x hx
    rw [(setLast_fields hu16).1]
    rcases mem_cases hx with hx | rfl
    · rw [if_neg (h.runs.block_ne (le_refl a) (by omega) hx), h.last x hx]
    · rw [if_pos rfl]
      exact (if_neg (by omega)).symm
  · intro p hp
    obtain ⟨hm, hmiss⟩ := h.missing (x := (a, j + 1)) (by simp)
    exact setHole_out (Apart.block hp hm hmiss)

theorem move (h : Hit cut arrived j j b pre post buf first) (hb : j + 1 < b)
    (hsafe : pre ≠ [] → before cut pre ≠ 0) (hroom : j + 2 = cut.m → cut.c (j + 1) + 8 ≤ maxUdp) :
    ∃ buf' first', fillHole maxUdp buf first (cut.block j) (cut.block j) (cut.c (j + 1) - cut.c j) =
      some (buf', first', false) ∧
      Filled cut arrived (pre ++ (j + 1, b) :: post) buf buf' first' := by
  obtain ⟨hj1, hmiss, hnew, hfits, hend⟩ := h.fits_after hb hroom
  have hN := cut.block_u16 hj1
  have hne : ∀ x ∈ pre ++ post, cut.block x.1 ≠ cut.block (j + 1) :=
    fun x hx => h.runs.block_ne (by omega) hb hx
  have hget : ∀ k, getHole (setHole buf (cut.block (j + 1)) (getHole buf (cut.block j))) k =
      if k = cut.block (j + 1) then getHole buf (cut.block j) else getHole buf k := fun k =>
    getHole_setHole (getHole_fits buf _)
  have hbefore := (before_leads cut pre).ne fun x hx => hne x (mem_append_left _ hx)
  have hafter := (after_leads cut post).ne fun x hx => hne x (mem_append_right _ hx)
  refine ⟨linkNext (linkPrev (setHole buf (cut.block (j + 1)) (getHole buf (cut.block j)))
    (after cut post) (cut.block (j + 1))) (before cut pre) (cut.block (j + 1)),
    if before cut pre = 0 then cut.block (j + 1) else first, ?_, ⟨?_, ?_, ?_, ?_⟩⟩
  · simp only [fillHole, hnew]
    rw [if_neg (by omega), if_neg (by omega), if_neg (by omega), if_pos le_rfl, h.next_eq,
      h.prev_eq]
    by_cases hp : before cut pre = 0 <;> by_cases hn : after cut post = 0 <;>
      simp [hp, hn, linkNext, linkPrev]
  · rw [ids_append, ids_cons]
    refine h.relink _ [cut.block (j + 1)] hsafe ?_ rfl rfl hN hN ⟨?_, ?_, trivial⟩
    · intro y hy
      rw [← ids_append] at hy
      obtain ⟨x, hx, rfl⟩ := mem_map.mp hy
      rw [hget, if_neg (hne x hx)]
    · simp only [linkNext_fields hN, linkPrev_fields hN, if_neg hbefore, hget, if_true, h.next_eq]
      rfl
    · simp only [linkNext_fields hN, linkPrev_fields hN, if_neg hafter, hget, if_true, h.prev_eq]
  · intro _
    by_cases hpre : pre = []
    · subst hpre
      exact if_pos rfl
    · rw [if_neg (hsafe hpre), h.first]
      obtain ⟨x, pre, rfl⟩ := exists_cons_of_ne_nil hpre
      rfl
  · intro x hx
    rw [(linkNext_fields hN).1, (linkPrev_fields hN).1, hget]
    rcases mem_cases hx with hx | rfl
    · rw [if_neg (hne x hx), h.last x hx]
    · rw [if_pos rfl, h.here, if_neg (by omega)]
  · intro p hp
    rw [h.relinked_out hp, setHole_out (Apart.block hp hj1 hmiss)]

theorem split (h : Hit cut arrived j a b pre post buf first) (ha : a < j) (hb : j + 1 < b)
    (hroom : j + 2 = cut.m → cut.c (j + 1) + 8 ≤ maxUdp) : ∃ buf',
      fillHole maxUdp buf first (cut.block a) (cut.block j) (cut.c (j + 1) - cut.c j) =
      some (buf', first, false) ∧
      Filled cut arrived (pre ++ (a, j) :: (j + 1, b) :: post) buf buf' first := by
  obtain ⟨hj1, hmiss, hnew, hfits, hend⟩ := h.fits_after hb hroom
  have hj : j < cut.m := by omega
  have hmul := cut.block_mul hj
  have haj := cut.block_lt ha hj
  have haN := cut.block_lt (by omega : a < j + 1) hj1
  have hA := cut.block_u16 (by omega : a < cut.m)
  have hN := cut.block_u16 hj1
  have hS := cut.c_u16 hj.le
  obtain ⟨hm, hmissA⟩ := h.missing (x := (a, b)) (by simp)
  have hne : ∀ x ∈ pre ++ post, cut.block x.1 ≠ cut.block (j + 1) :=
    fun x hx => h.runs.block_ne (by omega) hb hx
  have hneA : ∀ x ∈ pre ++ post, cut.block x.1 ≠ cut.block a := fun x hx =>
    h.runs.block_ne (le_refl a) (by omega) hx
  have hget : ∀ k, getHole (setHole buf (cut.block (j + 1)) (getHole buf (cut.block a))) k =
      if k = cut.block (j + 1) then getHole buf (cut.block a) else getHole buf k := fun k =>
    getHole_setHole (getHole_fits buf _)
  have hafter : ∀ y, y ∈ ids cut pre ∨ y = cut.block a ∨ y = cut.block (j + 1) →
      ¬ (after cut post ≠ 0 ∧ y = after cut post) := by
    refine fun y hy => (after_leads cut post).ne fun x hx heq => ?_
    rw [← heq] at hy
    rcases hy with hy | hy | hy
    · exact absurd (h.pre_lt_post hy (mem_ids hx)) (lt_irrefl _)
    · exact hneA x (mem_append_right _ hx) hy
    · exact hne x (mem_append_right _ hx) hy
  refine ⟨linkPrev (setPrev
    (setNext (setLast (setHole buf (cut.block (j + 1)) (getHole buf (cut.block a))) (cut.block a)
    (cut.c j)) (cut.block a) (cut.block (j + 1))) (cut.block (j + 1)) (cut.block a))
    (after cut post) (cut.block (j + 1)), ?_, ⟨?_, ?_, ?_, ?_⟩⟩
  · rw [fillHole_split haj hend (by rw [hnew]; exact hfits) (by omega) (by omega), hnew, h.next_eq,
      hmul]
  · rw [ids_append, ids_cons, ids_cons]
    have hmid : ∀ y, y ∈ ids cut pre ∨ y ∈ ids cut post → y ≠ cut.block a ∧
        y ≠ cut.block (j + 1) := by
      intro y hy
      rw [← mem_append, ← ids_append] at hy
      obtain ⟨x, hx, rfl⟩ := mem_map.mp hy
      exact ⟨hneA x hx, hne x hx⟩
    have hNA := ne_of_gt haN
    have hbefore :
        ∀ y ∈ ids cut pre, y = before cut pre → (getHole buf y).nextHole = cut.block a := by
      rintro y hy rfl
      have hpre := (Linked.append.mp h.linked').1
      rcases pre.eq_nil_or_concat' with rfl | ⟨pre, l, rfl⟩
      · simp [ids] at hy
      · rw [ids_append] at hpre
        rw [before_concat]
        exact (Linked.append.mp hpre).2.1
    apply h.linked'.replace [cut.block a, cut.block (j + 1)] h.nodup
    all_goals simp only [linkPrev_fields hN, setPrev_fields hA, setNext_fields hN,
      setLast_fields hS, hget]
    · refine ⟨if_pos rfl, ?_, ?_, ?_, trivial⟩
      · beta_reduce
        rw [if_neg (hafter _ (.inr (.inl rfl))), if_neg hNA.symm, if_neg hNA.symm, h.prev_eq]
        rfl
      · beta_reduce
        rw [if_neg hNA, if_pos rfl, h.next_eq]
        rfl
      · beta_reduce
        rw [if_neg (hafter _ (.inr (.inr rfl))), if_pos rfl]
    · intro y hy
      obtain ⟨hyA, hyN⟩ := hmid y (.inl hy)
      rw [if_neg hyA, if_neg hyN]
      split_ifs with hyL
      · exact hbefore y hy hyL
      · rfl
    · intro y hy
      obtain ⟨hyA, hyN⟩ := hmid y (.inl hy)
      rw [if_neg (hafter y (.inl hy)), if_neg hyN, if_neg hyN]
    · intro y hy
      obtain ⟨hyA, hyN⟩ := hmid y (.inr hy)
      rw [if_neg hyA, if_neg hyN]
    · intro y hy
      obtain ⟨hyA, hyN⟩ := hmid y (.inr hy)
      have h0 : after cut post ≠ 0 := fun h0 => by
        rw [h.after_eq_zero.mp h0] at hy
        simp [ids] at hy
      simp only [h0, ne_eq, not_false_eq_true, true_and, if_neg hyN]
      rfl
  · intro _
    rw [h.first]
    cases pre <;> rfl
  · intro x hx
    rw [(linkPrev_fields hN).1, (setPrev_fields hA).1, (setNext_fields hN).1, (setLast_fields hS).1,
      hget]
    rcases mem_cases hx with hx | rfl
    · rcases mem_cases hx with hx | rfl
      · rw [if_neg (hneA x hx), if_neg (hne x hx), h.last x hx]
      · rw [if_neg (ne_of_gt haN), if_pos rfl, h.here, if_neg (by omega)]
    · rw [if_pos rfl]
      exact (if_neg (by omega)).symm
  · intro p hp
    have hpA := Apart.block hp hm hmissA
    have hpN := Apart.block hp hj1 hmiss
    rw [linkPrev_out (h.leads_out (.inr (after_leads cut post)) hp), setPrev, setHole_out hpN,
      setNext, setHole_out hpA, setLast, setHole_out hpA, setHole_out hpN]

theorem fill (h : Hit cut arrived j a b pre post buf first)
    (hsafe : a = j → pre ≠ [] → before cut pre ≠ 0)
    (hroom : j + 2 = cut.m → arrived (j + 1) = false → cut.c (j + 1) + 8 ≤ maxUdp) :
    ∃ buf' first' done,
      fillHole maxUdp buf first (cut.block a) (cut.block j) (cut.c (j + 1) - cut.c j) = some (buf',
        first', done) ∧ Filled cut arrived (pre ++ (pieces a b j ++ post)) buf buf' first' ∧
      (done ↔ pre ++ (pieces a b j ++ post) = []) := by
  have haj := h.start_le
  have hjb := h.lt_end
  have hroom' : j + 1 < b → j + 2 = cut.m → cut.c (j + 1) + 8 ≤ maxUdp := fun hlt hm =>
    hroom hm ((h.runs.missing _ (by omega)).mpr ⟨(a, b), by simp, by omega, hlt⟩)
  rcases Nat.eq_or_lt_of_le haj with rfl | ha <;> rcases Nat.eq_or_lt_of_le hjb with hb | hb
  · obtain rfl : b = a + 1 := hb.symm
    rw [pieces, if_neg (lt_irrefl _), if_neg (lt_irrefl _)]
    exact h.remove (hsafe rfl)
  · rw [pieces, if_neg (lt_irrefl _), if_pos hb]
    obtain ⟨buf', first', hfill, hfilled⟩ := h.move hb (hsafe rfl) (hroom' hb)
    exact ⟨buf', first', false, hfill, hfilled, by simp⟩
  · obtain rfl : b = j + 1 := hb.symm
    rw [pieces, if_pos ha, if_neg (lt_irrefl _)]
    obtain ⟨hfill, hfilled⟩ := h.shorten ha
    exact ⟨_, first, false, hfill, hfilled, by simp⟩
  · rw [pieces, if_pos ha, if_pos hb]
    obtain ⟨buf', hfill, hfilled⟩ := h.split ha hb (hroom' hb)
    exact ⟨buf', first, false, hfill, hfilled, by simp⟩

end Hit

end MtkBoot.Net
