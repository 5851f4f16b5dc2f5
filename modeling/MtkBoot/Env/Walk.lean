import MtkBoot.Env.RoundTrip

/-! Walking over a table: which entries a walk with `hmatch_r` meets, and whether the text of
`hexport_r` fits into its buffer. -/

namespace MtkBoot.Env

open List

/-! ### Matching a prefix -/

def Htab.matchAt (t : Htab) (match_ : Str) (idx : Nat) : Option (Nat × Entry) :=
  match t.table idx with
  | .live used entry =>
    if (0 < used ∧ used < 2 ^ 31) ∧ match_ <+: entry.key then some (idx, entry) else none
  | _ => none

/-- `hmatch_r`: the next slot after `lastIdx` whose key starts with `match_`, and its entry.  The
error stands for the result 0. -/
def hmatchR (match_ : Str) (lastIdx : Nat) (t : Htab) : Except Errno (Nat × Entry) :=
  match (List.range' (lastIdx + 1) (t.size - (lastIdx + 1))).findSome? (t.matchAt match_) with
  | some found => .ok found
  | none => .error .esrch

/-- What `while ((idx = hmatch_r(match, idx, ...)))` visits, `fuel` slots at most. -/
def matchWalk (match_ : Str) (t : Htab) : Nat → Nat → List (Nat × Entry)
  | 0, _ => []
  | fuel + 1, idx =>
    match hmatchR match_ idx t with
    | .ok (idx, entry) => (idx, entry) :: matchWalk match_ t fuel idx
    | .error _ => []

theorem matchAt_eq_some {t : Htab} {match_ : Str} {idx i : Nat} {e : Entry} :
    t.matchAt match_ idx = some (i, e) ↔
      idx = i ∧ ∃ u, t.table i = .live u e ∧ (0 < u ∧ u < 2 ^ 31) ∧ match_ <+: e.key := by
  unfold Htab.matchAt
  constructor
  · intro h
    split at h
    · next u e' hlive =>
      obtain ⟨hm, heq⟩ := Option.ite_none_right_eq_some.mp h
      cases heq
      exact ⟨rfl, u, hlive, hm⟩
    · cases h
  · rintro ⟨rfl, u, hlive, hm⟩
    rw [hlive]
    exact if_pos hm

/-- A walk that starts behind slot `idx` takes the matching slots before the last one in order, and
ends. -/
theorem matchWalk_eq (match_ : Str) (t : Htab) : ∀ n fuel idx, t.size - (idx + 1) = n → n ≤ fuel →
    matchWalk match_ t fuel idx = (List.range' (idx + 1) n).filterMap (t.matchAt match_) := by
  intro n
  induction n with
  | zero =>
    intro fuel idx hn _
    cases fuel with
    | zero => rfl
    | succ fuel => simp [matchWalk, hmatchR, hn]
  | succ n ih =>
    intro fuel idx hn hfuel
    obtain ⟨fuel, rfl⟩ : ∃ f, fuel = f + 1 := ⟨fuel - 1, by omega⟩
    have hnext : t.size - (idx + 1 + 1) = n := by omega
    rw [range'_succ, filterMap_cons]
    cases hm : t.matchAt match_ (idx + 1) with
    | some found =>
      obtain ⟨i, e⟩ := found
      obtain ⟨rfl, -⟩ := matchAt_eq_some.mp hm
      have hfound : hmatchR match_ idx t = .ok (idx + 1, e) := by
        rw [hmatchR, hn, range'_succ, findSome?_cons_of_isSome (by rw [hm]; rfl), hm]
      simp only [matchWalk, hfound]
      rw [ih fuel (idx + 1) hnext (by omega)]
    | none =>
      have hskip : hmatchR match_ idx t = hmatchR match_ (idx + 1) t := by
        rw [hmatchR, hn, range'_succ, findSome?_cons_of_isNone (by rw [hm]; rfl), hmatchR, hnext]
      have hwalk : matchWalk match_ t (fuel + 1) idx = matchWalk match_ t (fuel + 1) (idx + 1) := by
        simp [matchWalk, hskip]
      rw [hwalk, ih (fuel + 1) (idx + 1) hnext (by omega)]

/-- The walk visits the live entries whose key starts with `match_` and no others, each once. -/
def Htab.Visited (t : Htab) (match_ : Str) (visits : List (Nat × Entry)) : Prop := visits.Nodup ∧
    ∀ i e, (i, e) ∈ visits ↔ (∃ u, t.table i = .live u e) ∧ match_ <+: e.key

theorem Holds.mem_walk {t : Htab} {m : Map} (h : Holds t m) (match_ : Str) {fuel : Nat}
    (hfuel : t.size ≤ fuel) (i : Nat) (e : Entry) : (i, e) ∈ matchWalk match_ t fuel 0 ↔
      i ≠ t.size ∧ ∃ u, t.table i = .live u e ∧ u < 2 ^ 31 ∧ match_ <+: e.key := by
  rw [matchWalk_eq match_ t (t.size - 1) fuel 0 rfl (by omega), mem_filterMap]
  constructor
  · rintro ⟨j, hj, hm⟩
    obtain ⟨rfl, u, hlive, hu, hkey⟩ := matchAt_eq_some.mp hm
    have := mem_range'_1.mp hj
    exact ⟨by omega, u, hlive, hu.2, hkey⟩
  · rintro ⟨hi, u, hlive, hu, hkey⟩
    have hin := h.inside i (by rw [hlive]; exact Slot.noConfusion)
    obtain ⟨rfl, -⟩ := h.placed i u e hlive
    have hpos := h.size.firstHash e.key
    exact ⟨i, mem_range'_1.mpr (by omega), matchAt_eq_some.mpr ⟨rfl, _, hlive, by omega, hkey⟩⟩

/-- A walk comes to its end after at most `size` steps, and it is complete exactly when the last
slot holds no entry with the prefix and no such entry has a hash value that is negative as an
`int`. -/
theorem hmatch_walk_complete_iff (nel : Nat) (cs : List Call) (match_ : Str) :
    ∃ t, hcreateR nel = some t ∧ ∀ t', t' = (replies (fun t c => c.onTable t) t cs).2 →
      ∀ fuel, t'.size ≤ fuel → (t'.Visited match_ (matchWalk match_ t' fuel 0) ↔
        ∀ i u e, t'.table i = .live u e → match_ <+: e.key → i ≠ t'.size ∧ u < 2 ^ 31) := by
  obtain ⟨size, hcreate, hlt, hprime⟩ := hcreateR_spec nel
  refine ⟨_, hcreate, ?_⟩
  rintro t' rfl fuel hfuel
  obtain ⟨-, h⟩ := replies_eq (holds_empty ⟨hlt, hprime⟩) cs
  generalize (replies (fun t c => c.onTable t) _ cs).2 = t at h hfuel ⊢
  constructor
  · rintro ⟨-, hvisits⟩ i u e hlive hkey
    obtain ⟨hi, u', hlive', hu, -⟩ :=
      (h.mem_walk match_ hfuel i e).mp ((hvisits i e).mpr ⟨⟨u, hlive⟩, hkey⟩)
    rw [hlive] at hlive'
    cases hlive'
    exact ⟨hi, hu⟩
  · intro hlast
    refine ⟨?_, fun i e => ?_⟩
    · rw [matchWalk_eq match_ t (t.size - 1) fuel 0 rfl (by omega)]
      refine List.Nodup.filterMap ?_ nodup_range'
      rintro j j' ⟨i, e⟩ hj hj'
      exact (matchAt_eq_some.mp hj).1.trans (matchAt_eq_some.mp hj').1.symm
    rw [h.mem_walk match_ hfuel i e]
    constructor
    · rintro ⟨-, u, hlive, -, hkey⟩
      exact ⟨⟨u, hlive⟩, hkey⟩
    · rintro ⟨⟨u, hlive⟩, hkey⟩
      obtain ⟨hne, hu⟩ := hlast i u e hlive hkey
      exact ⟨hne, u, hlive, hu, hkey⟩

/-- Three keys with the same hash value in a table of five slots: the third one goes to slot 5. -/
def collided : List Call :=
  [.enter [0x62] [0x31] ⟨false, false⟩, .enter [0x67] [0x32] ⟨false, false⟩,
    .enter [0x6c] [0x33] ⟨false, false⟩]

theorem hmatch_walk_collided : ∃ t, hcreateR 3 = some t ∧
    ∀ t', t' = (replies (fun t c => c.onTable t) t collided).2 →
      t'.Visited [0x67] (matchWalk [0x67] t' 5 0) ∧
      (2, ⟨[0x67], [0x32]⟩) ∈ matchWalk [0x67] t' 5 0 := by
  obtain ⟨t, hcreate, h⟩ := hmatch_walk_complete_iff 3 collided [0x67]
  obtain rfl : t = ⟨5, 0, fun _ => .free⟩ := Option.some.inj (hcreate.symm.trans hcreateR_three.1)
  refine ⟨_, hcreate, ?_⟩
  rintro t' rfl
  have hvisited := (h _ rfl 5 (by decide +kernel)).mpr fun i u e hlive hkey => ?_
  · exact ⟨hvisited, (hvisited.2 2 ⟨[0x67], [0x32]⟩).mpr ⟨⟨4, by decide +kernel⟩, by decide⟩⟩
  change (if i = 5 then Slot.live 4 ⟨[0x6c], [0x33]⟩ else if i = 2 then .live 4 ⟨[0x67], [0x32]⟩
    else if i = 4 then .live 4 ⟨[0x62], [0x31]⟩ else .free) = .live u e at hlive
  split_ifs at hlive with h5 h2 h4
  · cases hlive
    exact absurd hkey (by decide)
  · cases hlive
    exact ⟨by rw [h2]; decide +kernel, by decide⟩
  · cases hlive
    exact absurd hkey (by decide)

theorem hmatch_walk_misses_last : ∃ t t' : Htab, hcreateR 3 = some t ∧
    t' = (replies (fun t c => c.onTable t) t collided).2 ∧
    t'.table 5 = .live 4 ⟨[0x6c], [0x33]⟩ ∧ ∀ fuel, matchWalk [0x6c] t' fuel 0 = [] := by
  refine ⟨_, _, hcreateR_three.1, rfl, by decide +kernel, fun fuel => ?_⟩
  cases fuel with
  | zero => rfl
  | succ fuel =>
    have hnone : hmatchR [0x6c] 0
        (replies (fun t c => c.onTable t) ⟨5, 0, fun _ => .free⟩ collided).2 = .error .esrch := by
      rfl
    simp [matchWalk, hnone]

/-! ### The text in its buffer -/

def plainLen (es : List Entry) : Nat := (es.map fun e => e.key.length + e.data.length + 2).sum + 1

/-- `hexport_r` stays in its buffer exactly when the separator is not zero, or there is nothing to
escape, or the size that it is given either has room for the escapes or is refused. -/
theorem hexport_in_buffer_iff (t : Htab) (sep : UInt8) (hideDot : Bool) (size : Nat) :
    (∀ cap bytes, hexportR t sep hideDot size = .ok (cap, bytes) → bytes.length ≤ cap) ↔
      (sep = 0 → escapes (exportList t hideDot) = 0 ∨
        size ≠ 0 ∧ (size < plainLen (exportList t hideDot) ∨
          plainLen (exportList t hideDot) + escapes (exportList t hideDot) ≤ size)) := by
  have hlen := length_flatMap_exportEntry sep (exportList t hideDot)
  simp only [hexportR]
  generalize exportList t hideDot = es at hlen ⊢
  have hplain : sep = 0 → exportLen sep es + 1 = plainLen es := by
    rintro rfl
    rfl
  by_cases hsmall : size ≠ 0 ∧ size < exportLen sep es + 1
  · rw [if_pos hsmall]
    refine iff_of_true (fun cap bytes h => by cases h) fun hsep => .inr ⟨hsmall.1, .inl ?_⟩
    exact hplain hsep ▸ hsmall.2
  rw [if_neg hsmall]
  have hok : (∀ cap bytes, (Except.ok (if size ≠ 0 then size else exportLen sep es + 1,
      es.flatMap (exportEntry sep) ++ 0 :: List.replicate ((if size ≠ 0 then size else
        exportLen sep es + 1) - ((es.flatMap (exportEntry sep)).length + 1)) 0) :
      Except Errno (Nat × Bytes)) = .ok (cap, bytes) → bytes.length ≤ cap) ↔
      (es.flatMap (exportEntry sep)).length + 1 ≤
        if size ≠ 0 then size else exportLen sep es + 1 := by
    simp only [Except.ok.injEq, Prod.mk.injEq, and_imp, forall_eq', forall_apply_eq_imp_iff,
      length_append, length_cons, length_replicate]
    omega
  rw [hok, hlen]
  by_cases hsep : sep = 0
  · subst hsep
    have := hplain rfl
    rw [if_pos rfl]
    by_cases hsize : size = 0
    · simp only [hsize, ne_eq, not_true_eq_false, if_false, forall_true_left, false_and, or_false]
      omega
    · simp only [ne_eq, hsize, not_false_eq_true, if_true, forall_true_left, true_and]
      omega
  · rw [if_neg hsep]
    refine iff_of_true ?_ fun h => absurd h hsep
    split <;> omega

def backslashTable : Htab :=
  (hsearchR [0x61] (.enter [backslash]) ⟨false, false⟩ ⟨5, 0, fun _ => .free⟩).2

theorem hexport_writes_past_buffer :
    hexportR backslashTable 0 false 0 = .ok (5, [0x61, equalSign, backslash, backslash, 0, 0]) := by
  rfl

end MtkBoot.Env
