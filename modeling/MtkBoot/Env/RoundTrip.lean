import MtkBoot.Env.Text
import MtkBoot.Env.Refine

/-! What is exported is imported again: the text of a table, read into a new one that has room for
its entries, gives the same map. -/

namespace MtkBoot.Env

open List Option

variable {accept : Item → Verdict} {data : Str} {e : Entry} {es : List Entry} {m : Map}
  {sep : UInt8} {t : Htab}

/-- An entry that a text can carry: a name that does not look like a blank or a comment, and a value
that is not empty. -/
structure Exportable (sep : UInt8) (e : Entry) : Prop where
  key_ne : e.key ≠ []
  key_mem : ∀ c ∈ e.key, c ≠ equalSign ∧ c ≠ 0 ∧ c ≠ sep
  key_head : ∀ c ∈ e.key.head?, isblank c = false ∧ c ≠ 0x23
  data_ne : e.data ≠ []
  data_mem : ∀ c ∈ e.data, c ≠ 0

def Separator (sep : UInt8) : Prop := sep = 0 ∨ sep = 0x0a

theorem Separator.ne_backslash (h : Separator sep) : sep ≠ backslash := by
  rcases h with rfl | rfl <;> decide

theorem Separator.ne_equalSign (h : Separator sep) : sep ≠ equalSign := by
  rcases h with rfl | rfl <;> decide

theorem parseValue_stop (rest : Bytes) : parseValue sep (sep :: rest) = ([], rest) := by
  cases rest with
  | nil => rw [parseValue, if_pos (.inr rfl)]
  | cons d rest => rw [parseValue, if_pos (.inr rfl)]

theorem parseValue_escape (hsep : sep ≠ backslash) (rest : Bytes) (hdata : ∀ c ∈ data, c ≠ 0) :
    parseValue sep (escape sep data ++ sep :: rest) = (data, rest) := by
  induction data with
  | nil => exact parseValue_stop rest
  | cons c data ih =>
    have hc : c ≠ 0 := hdata c (by simp)
    have ih := ih fun d hd => hdata d (by simp [hd])
    by_cases hesc : c = sep ∨ c = backslash
    · have hsplit : escape sep (c :: data) ++ sep :: rest =
          backslash :: c :: (escape sep data ++ sep :: rest) := by
        simp [escape, hesc]
      have hstart : ¬(backslash = 0 ∨ backslash = sep) := by
        rintro (h | h)
        · exact absurd h (by decide)
        · exact hsep h.symm
      rw [hsplit, parseValue, if_neg hstart, if_pos ⟨rfl, hc⟩, ih]
    · have hsplit :
          escape sep (c :: data) ++ sep :: rest = c :: (escape sep data ++ sep :: rest) := by
        simp [escape, hesc]
      have hstart : ¬(c = 0 ∨ c = sep) := by
        rintro (h | h)
        · exact hc h
        · exact hesc (.inl h)
      obtain ⟨d, tail, htail⟩ : ∃ d tail, escape sep data ++ sep :: rest = d :: tail :=
        exists_cons_of_ne_nil (by simp)
      rw [htail] at ih hsplit
      rw [hsplit, parseValue, if_neg hstart, if_neg fun h => hesc (.inr h.1), ih]

theorem escape_head (hsep : sep ≠ backslash)
    (hne : data ≠ []) (hdata : ∀ c ∈ data, c ≠ 0) (rest : Bytes) :
    (escape sep data ++ rest).headD 0 ≠ 0 ∧ (escape sep data ++ rest).headD 0 ≠ sep := by
  obtain ⟨c, data, rfl⟩ := exists_cons_of_ne_nil hne
  have hc : c ≠ 0 := hdata c (by simp)
  by_cases hesc : c = sep ∨ c = backslash
  · have hhead : (escape sep (c :: data) ++ rest).headD 0 = backslash := by simp [escape, hesc]
    rw [hhead]
    exact ⟨by decide, hsep.symm⟩
  · have hhead : (escape sep (c :: data) ++ rest).headD 0 = c := by simp [escape, hesc]
    rw [hhead]
    exact ⟨hc, fun h => hesc (.inl h)⟩

theorem parseItem_exportEntry (hsep : Separator sep) (he : Exportable sep e) (rest : Bytes) :
    parseItem sep (exportEntry sep e ++ rest) = (.enter e.key e.data, rest) := by
  obtain ⟨key, data⟩ := e
  have htext : exportEntry sep ⟨key, data⟩ ++ rest =
      key ++ equalSign :: (escape sep data ++ sep :: rest) := by
    simp [exportEntry]
  obtain ⟨c, key', hkey⟩ := exists_cons_of_ne_nil he.key_ne
  simp only at hkey
  obtain ⟨hblank, hhash⟩ := he.key_head c (by simp [hkey])
  have hdrop : (key ++ equalSign :: (escape sep data ++ sep :: rest)).dropWhile isblank =
      key ++ equalSign :: (escape sep data ++ sep :: rest) := by
    rw [hkey, cons_append, dropWhile_cons_of_neg (by simp [hblank])]
  have hhead : (key ++ equalSign :: (escape sep data ++ sep :: rest)).headD 0 = c := by
    rw [hkey]
    rfl
  have hname : ∀ d ∈ key, inName sep d := fun d hd => decide_eq_true (he.key_mem d hd)
  have hstop : ¬inName sep equalSign := by simp [inName]
  have htake : (key ++ equalSign :: (escape sep data ++ sep :: rest)).takeWhile (inName sep) =
      key := by
    rw [takeWhile_append_of_pos hname, takeWhile_cons_of_neg hstop, append_nil]
  have hrest : (key ++ equalSign :: (escape sep data ++ sep :: rest)).dropWhile (inName sep) =
      equalSign :: (escape sep data ++ sep :: rest) := by
    rw [dropWhile_append_of_pos hname, dropWhile_cons_of_neg hstop]
  obtain ⟨hzero, hsep'⟩ := escape_head hsep.ne_backslash he.data_ne he.data_mem (sep :: rest)
  have hvalue := parseValue_escape hsep.ne_backslash rest he.data_mem
  -- the name ends at the first `=`, and the byte after it belongs to the value
  have hdel : ¬(equalSign = 0 ∨ (escape sep data ++ sep :: rest).headD 0 = 0 ∨ equalSign = sep ∨
      (escape sep data ++ sep :: rest).headD 0 = sep) := by
    rintro (h | h | h | h)
    · exact absurd h (by decide)
    · exact hzero h
    · exact hsep.ne_equalSign h.symm
    · exact hsep' h
  rw [htext, parseItem]
  simp only [hdrop, hhead, if_neg hhash, htake, hrest, headD_cons, drop_one,
    tail_cons, if_neg hdel, hvalue]

def insertAll (m : Map) (es : List Entry) : Map := es.foldl (fun m e => m.insert e.key e.data) m

theorem lookup_insertAll (hnodup : (es.map Entry.key).Nodup) (hnew : ∀ e ∈ es, e.key ∉ m)
    (k d : Str) : (insertAll m es).lookup k = some d ↔ ⟨k, d⟩ ∈ es ∨ m.lookup k = some d := by
  induction es generalizing m with
  | nil => simp [insertAll]
  | cons e es ih =>
    obtain ⟨key, data⟩ := e
    rw [map_cons, nodup_cons] at hnodup
    have hkey : key ∉ m := hnew ⟨key, data⟩ (by simp)
    have htail : ∀ e ∈ es, e.key ∉ m.insert key data := by
      intro e he hmem
      rcases Finmap.mem_insert.mp hmem with heq | hmem
      · exact hnodup.1 (mem_map.mpr ⟨e, he, heq⟩)
      · exact hnew e (by simp [he]) hmem
    have ih := ih hnodup.2 htail
    simp only [insertAll, foldl_cons] at ih ⊢
    rw [ih, mem_cons]
    by_cases hk : k = key
    · subst hk
      rw [Finmap.lookup_insert, Finmap.lookup_eq_none.mpr hkey]
      constructor
      · rintro (h | h)
        · exact .inl (.inr h)
        · cases h
          exact .inl (.inl rfl)
      · rintro ((h | h) | h)
        · cases h
          exact .inr rfl
        · exact .inl h
        · cases h
    · rw [Finmap.lookup_insert_of_ne _ hk]
      constructor
      · rintro (h | h)
        · exact .inl (.inr h)
        · exact .inr h
      · rintro ((h | h) | h)
        · cases h
          exact absurd rfl hk
        · exact .inl h
        · exact .inr h

theorem importLoop_entries (hsep : Separator sep) (haccept : ∀ i, (accept i).error = none)
    (pad : Bytes) : ∀ {fuel : Nat} {t : Htab} {m : Map}, es ≠ [] → es.length ≤ fuel → Holds t m →
      (∀ e ∈ es, Exportable sep e) → (es.map Entry.key).Nodup → (∀ e ∈ es, e.key ∉ m) →
      m.keys.card + es.length ≤ t.size →
      ∃ t', importLoop sep accept fuel (es.flatMap (exportEntry sep) ++ 0 :: pad) t = (.ok (), t') ∧
        Holds t' (insertAll m es) := by
  induction es with
  | nil =>
    intro fuel t m hne
    exact absurd rfl hne
  | cons e es ih =>
    intro fuel t m _ hfuel hholds hes hnodup hnew hroom
    obtain ⟨fuel, rfl⟩ :=
      Nat.exists_eq_succ_of_ne_zero (show fuel ≠ 0 by rw [length_cons] at hfuel; omega)
    rw [length_cons] at hfuel hroom
    rw [map_cons, nodup_cons] at hnodup
    have he := hes e (by simp)
    have hkey : e.key ∉ m := hnew e (by simp)
    have hitem := parseItem_exportEntry hsep he (es.flatMap (exportEntry sep) ++ 0 :: pad)
    rw [← append_assoc, ← flatMap_cons] at hitem
    -- the entry is new and there is room for it
    have hcall := hholds.enter e.key e.data (accept (.enter e.key e.data))
    have hfull : ¬(e.key ∉ m ∧ m.keys.card = t.size) := fun h => by omega
    simp only [Call.onMap, if_neg hfull, haccept] at hcall
    have htable : ((Call.enter e.key e.data (accept (.enter e.key e.data))).onTable t).2 =
        (hsearchR e.key (.enter e.data) (accept (.enter e.key e.data)) t).2 := by
      unfold Call.onTable
      simp only
      split <;> rename_i h <;> rw [h]
    obtain ⟨-, hsize, hholds'⟩ := hcall
    rw [htable] at hsize hholds'
    have hname : (Item.enter e.key e.data).nameless = false := by
      obtain ⟨c, key, hc⟩ := exists_cons_of_ne_nil he.key_ne
      rw [hc]
      rfl
    rw [importLoop]
    simp only [hitem, hname, Bool.false_eq_true, if_false]
    cases es with
    | nil => exact ⟨_, if_pos rfl, hholds'⟩
    | cons e' es =>
      have hhead : ((e' :: es).flatMap (exportEntry sep) ++ 0 :: pad).headD 0 ≠ 0 := by
        have he' := hes e' (by simp)
        obtain ⟨c, key, hc⟩ := exists_cons_of_ne_nil he'.key_ne
        have hfirst : ((e' :: es).flatMap (exportEntry sep) ++ 0 :: pad).headD 0 = c := by
          simp [exportEntry, hc]
        rw [hfirst]
        exact (he'.key_mem c (by simp [hc])).2.1
      rw [if_neg hhead]
      refine ih (by simp) (by omega) hholds' (fun x hx => hes x (by simp [hx])) hnodup.2 ?_ ?_
      · intro x hx hmem
        rcases Finmap.mem_insert.mp hmem with heq | hmem
        · exact hnodup.1 (mem_map.mpr ⟨x, hx, heq⟩)
        · exact hnew x (by simp [hx]) hmem
      · rw [card_insert_of_lookup (Finmap.lookup_eq_none.mpr hkey), hsize]
        omega

theorem importLoop_empty (fuel : Nat) (pad : Bytes) (hpad : pad.headD 0 = 0) (h : Holds t ∅) :
    importLoop sep accept (fuel + 1) (0 :: pad) t = (.ok (), t) := by
  have hitem : parseItem sep (0 :: pad) = (.delete [], pad) := by
    have hdrop : (0 :: pad).dropWhile isblank = 0 :: pad := rfl
    have hstop : ¬inName sep 0 := by simp [inName]
    rw [parseItem]
    simp only [hdrop, headD_cons, takeWhile_cons_of_neg hstop,
      dropWhile_cons_of_neg hstop, true_or, if_true]
    rfl
  have hdelete : (hdeleteR [] (accept (.delete [])) t).2 = t := by
    rcases h.search_cases [] with ⟨i, d, -, -, hlook⟩ | ⟨idx, fd, hs, -, -⟩
    · simp at hlook
    · simp [hdeleteR, hsearchR, hs]
  rw [importLoop]
  simp only [hitem, Item.nameless, Bool.false_eq_true, if_false, hpad, if_true, hdelete]

theorem Holds.mem_entries (h : Holds t m) (hsize : t.size ≤ 2 ^ 31) :
    e ∈ t.entries ↔ m.lookup e.key = some e.data := by
  unfold Htab.entries
  rw [mem_filterMap, h.lookup]
  constructor
  · rintro ⟨i, -, hi⟩
    cases hslot : t.table i with
    | free => simp [hslot] at hi
    | deleted => simp [hslot] at hi
    | live u e' =>
      simp only [hslot, ite_none_right_eq_some, Option.some.injEq] at hi
      obtain ⟨-, rfl⟩ := hi
      exact ⟨i, u, hslot⟩
  · rintro ⟨i, u, hslot⟩
    have hbounds := h.inside i (by rw [hslot]; exact Slot.noConfusion)
    obtain ⟨rfl, -⟩ := h.placed i u e hslot
    have hused : 0 < firstHash t.size e.key ∧ firstHash t.size e.key < 2 ^ 31 := by
      rcases h.size.prime with hone | ⟨-, h5⟩
      · rw [hone, firstHash_one]
        decide
      · obtain ⟨h1, h2⟩ := firstHash_bounds (show 1 < t.size by omega) e.key
        omega
    refine ⟨i, by rw [mem_range'_1]; omega, ?_⟩
    simp only [hslot, if_pos hused]

theorem Holds.nodup_entries (h : Holds t m) : (t.entries.map Entry.key).Nodup := by
  unfold Htab.entries
  rw [map_filterMap]
  refine List.Nodup.filterMap (fun i i' k hk hk' => ?_) nodup_range'
  cases hslot : t.table i with
  | free => simp [hslot] at hk
  | deleted => simp [hslot] at hk
  | live u e =>
    cases hslot' : t.table i' with
    | free => simp [hslot'] at hk'
    | deleted => simp [hslot'] at hk'
    | live u' e' =>
      simp only [hslot, hslot', mem_def, map_eq_some_iff, ite_none_right_eq_some,
        Option.some.injEq] at hk hk'
      obtain ⟨_, ⟨-, rfl⟩, hkey⟩ := hk
      obtain ⟨_, ⟨-, rfl⟩, hkey'⟩ := hk'
      exact h.unique i i' u u' e e' hslot hslot' (hkey.trans hkey'.symm)

theorem exportList_perm (t : Htab) : (exportList t false).Perm t.entries := by
  unfold exportList
  simp only [Bool.false_and, Bool.not_false, filter_true]
  exact perm_insertionSort _ _

/-- The bytes of the values that the second pass escapes when the separator is zero. -/
def escapes (es : List Entry) : Nat :=
  (es.map fun e => e.data.countP fun c => decide (c = 0 ∨ c = backslash)).sum

theorem length_escape (sep : UInt8) (data : Str) : (escape sep data).length =
    data.length + data.countP fun c => decide (c = sep ∨ c = backslash) := by
  induction data with
  | nil => rfl
  | cons c data ih =>
    have hsplit : escape sep (c :: data) =
        (if c = sep ∨ c = backslash then [backslash, c] else [c]) ++ escape sep data := by
      simp [escape]
    rw [hsplit, length_append, ih, length_cons, countP_cons]
    by_cases hc : c = sep ∨ c = backslash
    · rw [if_pos hc, if_pos (decide_eq_true hc)]
      simp only [length_cons, length_nil]
      omega
    · rw [if_neg hc, if_neg (by simpa using hc)]
      simp only [length_cons, length_nil]
      omega

theorem length_flatMap_exportEntry (sep : UInt8) (es : List Entry) :
    (es.flatMap (exportEntry sep)).length = exportLen sep es + if sep = 0 then escapes es
      else 0 := by
  induction es with
  | nil => simp [exportLen, escapes]
  | cons e es ih =>
    have hesc := length_escape sep e.data
    simp only [exportLen, escapes, map_cons, sum_cons, flatMap_cons,
      length_append, exportEntry, length_cons, length_nil] at ih ⊢
    by_cases hsep : sep = 0
    · subst hsep
      simp only [if_true] at ih ⊢
      omega
    · simp only [if_neg hsep] at ih ⊢
      omega

theorem length_le_flatMap (sep : UInt8) (es : List Entry) :
    es.length ≤ (es.flatMap (exportEntry sep)).length := by
  induction es with
  | nil => exact Nat.le_refl 0
  | cons e es ih =>
    simp only [flatMap_cons, length_append, exportEntry, length_cons] at ih ⊢
    omega

/-- The text of a table, imported into a new table with room for its entries, gives the same map.
`himport_r` counts the entries in an `int`. -/
theorem himport_hexport (h : Holds t m) (hsize : t.size ≤ 2 ^ 31) (hsep : Separator sep)
    (hvalid : ∀ k d, m.lookup k = some d → Exportable sep ⟨k, d⟩) {size : Nat}
    (hample : ((exportList t false).flatMap (exportEntry sep)).length < size) {c : Limits}
    {t0 : Htab} (hcreate : hcreateR (c.entries size) = some t0) (hroom : m.keys.card ≤ t0.size)
    {accept : Item → Verdict} (haccept : ∀ i, (accept i).error = none) :
    ∃ out t', hexportR t sep false size = .ok (size, out) ∧ out.length = size ∧
      himportR c out sep accept = some (.ok (), t') ∧ Holds t' m := by
  have hperm := exportList_perm t
  have hmem : ∀ e, e ∈ exportList t false ↔ m.lookup e.key = some e.data :=
    fun e => hperm.mem_iff.trans (h.mem_entries hsize)
  have hnodup : ((exportList t false).map Entry.key).Nodup :=
    (hperm.map Entry.key).nodup_iff.mpr h.nodup_entries
  have hlen := length_flatMap_exportEntry sep (exportList t false)
  have hfuel := length_le_flatMap sep (exportList t false)
  have hcard : (exportList t false).length = m.keys.card := by
    rw [← length_map Entry.key, ← toFinset_card_of_nodup hnodup]
    congr 1
    ext k
    rw [List.mem_toFinset, List.mem_map, Finmap.mem_keys, ← Finmap.lookup_isSome,
      Option.isSome_iff_exists]
    constructor
    · rintro ⟨e, he, rfl⟩
      exact ⟨e.data, (hmem e).mp he⟩
    · rintro ⟨d, hd⟩
      exact ⟨⟨k, d⟩, (hmem ⟨k, d⟩).mpr hd, rfl⟩
  have hinsert : insertAll ∅ (exportList t false) = m := by
    refine Finmap.ext_lookup fun k => Option.ext fun d => ?_
    rw [lookup_insertAll hnodup (fun e _ => Finmap.notMem_empty) k d, hmem]
    simp
  obtain ⟨size0, hcreate0, hlt, hprime⟩ := hcreateR_spec (c.entries size)
  obtain rfl : t0 = ⟨size0, 0, fun _ => .free⟩ := Option.some.inj (hcreate.symm.trans hcreate0)
  have hempty := holds_empty ⟨hlt, hprime⟩
  generalize hes : exportList t false = es at *
  generalize htext : es.flatMap (exportEntry sep) = text at *
  refine ⟨text ++ 0 :: List.replicate (size - (text.length + 1)) 0, ?_⟩
  have hout :
      (text ++ 0 :: List.replicate (size - (text.length + 1)) (0 : UInt8)).length = size := by
    simp only [length_append, length_cons, length_replicate]
    omega
  have hexport : hexportR t sep false size =
      .ok (size, text ++ 0 :: List.replicate (size - (text.length + 1)) 0) := by
    simp only [hexportR, hes, htext]
    rw [if_neg (by omega), if_pos (show size ≠ 0 by omega)]
  have himport : ∀ t', importLoop sep accept (size + 1)
      (text ++ 0 :: List.replicate (size - (text.length + 1)) 0) ⟨size0, 0, fun _ => .free⟩ =
        (.ok (), t') → himportR c (text ++ 0 :: List.replicate (size - (text.length + 1)) 0) sep
          accept = some (.ok (), t') := by
    intro t' hloop
    rw [himportR, hout, hcreate]
    simp only [append_eq_nil_iff, reduceCtorEq, and_false, if_false, hloop]
  by_cases hnil : es = []
  · subst hnil
    subst htext
    have hloop :
        importLoop sep accept (size + 1) (0 :: List.replicate (size - 1) 0) _ = (.ok (), _) :=
      importLoop_empty size _ (by cases size - 1 <;> rfl) hempty
    refine ⟨_, hexport, hout, himport _ hloop, ?_⟩
    rw [← hinsert]
    exact hempty
  · obtain ⟨t', hloop, hholds⟩ := importLoop_entries hsep haccept
      (List.replicate (size - (text.length + 1)) 0) hnil (show es.length ≤ size + 1 by omega) hempty
      (fun e he => hvalid e.key e.data ((hmem e).mp he)) hnodup (fun e _ => Finmap.notMem_empty)
      (by simpa [hcard] using hroom)
    rw [htext] at hloop
    rw [hinsert] at hholds
    exact ⟨t', hexport, hout, himport t' hloop, hholds⟩

def sampleMap : Map := ((∅ : Map).insert [0x61] [backslash, 0x0a]).insert [0x62] [equalSign]

def sampleTable : Htab := (replies (fun t c => c.onTable t) ⟨5, 0, fun _ => .free⟩
    [.enter [0x61] [backslash, 0x0a] ⟨false, false⟩, .enter [0x62] [equalSign] ⟨false, false⟩]).2

theorem hcreateR_three : hcreateR 3 = some ⟨5, 0, fun _ => .free⟩ ∧ SizeOk 5 := by
  obtain ⟨size, hcreate, hlt, hprime⟩ := hcreateR_spec 3
  have hsize : (hcreateR 3).map Htab.size = some 5 := by decide +kernel
  rw [hcreate] at hsize
  cases hsize
  exact ⟨hcreate, hlt, hprime⟩

theorem himport_hexport_sample : ∃ out t', hexportR sampleTable 0x0a false 12 = .ok (12, out) ∧
    out.length = 12 ∧ himportR ⟨2, 8⟩ out 0x0a (fun _ => ⟨false, false⟩) = some (.ok (), t') ∧
      Holds t' sampleMap := by
  have hvalid : ∀ k d, sampleMap.lookup k = some d → Exportable 0x0a ⟨k, d⟩ := by
    intro k d hlook
    have hcases : k = [0x62] ∧ d = [equalSign] ∨ k = [0x61] ∧ d = [backslash, 0x0a] := by
      unfold sampleMap at hlook
      by_cases hb : k = [0x62]
      · subst hb
        rw [Finmap.lookup_insert] at hlook
        exact .inl ⟨rfl, (Option.some.inj hlook).symm⟩
      rw [Finmap.lookup_insert_of_ne _ hb] at hlook
      by_cases ha : k = [0x61]
      · subst ha
        rw [Finmap.lookup_insert] at hlook
        exact .inr ⟨rfl, (Option.some.inj hlook).symm⟩
      · rw [Finmap.lookup_insert_of_ne _ ha, Finmap.lookup_empty] at hlook
        cases hlook
    rcases hcases with ⟨rfl, rfl⟩ | ⟨rfl, rfl⟩ <;> constructor <;> decide +kernel
  have hcreate : hcreateR (Limits.entries ⟨2, 8⟩ 12) = some ⟨5, 0, fun _ => .free⟩ :=
    hcreateR_three.1
  have hample : ((exportList sampleTable false).flatMap (exportEntry 0x0a)).length < 12 := by
    decide +kernel
  have hholds : Holds sampleTable sampleMap := (replies_eq (holds_empty hcreateR_three.2) _).2
  exact himport_hexport hholds (by decide) (.inr rfl) hvalid hample hcreate (by decide +kernel)
    fun _ => rfl

end MtkBoot.Env
