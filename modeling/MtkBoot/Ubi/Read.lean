import MtkBoot.Ubi.Load

/-! Reads of a volume.  Under `Clear` and `Passed` a load gives the content of its LEB. -/

namespace MtkBoot.Ubi

open List

variable {c out : Bytes} {cs : List Bytes} {d : Dev} {l skip v : Nat} {s : Scan}

def Dev.Damaged (d : Dev) (v l p : Nat) (h : VidHdr) : Prop :=
  d.Copy v l p h ∧ d.data p h = none ∧ ∀ q c, d.Good v l q c → d.sqnum q < d.sqnum p

/-- No header of volume `v` is behind the end mark, and none is of another type with the number of
LEBs of the volume. -/
structure Clear (d : Dev) (v : Nat) : Prop where
  behind : ∀ p, d.area ≤ p → p < d.pebCount → ∀ l, d.isStatic v l p = false
  typed : ∀ p < d.area, ∀ h, d.vid p = some h → h.volId = v → h.usedEbs = d.lebCount v →
    h.volType = vidStatic

/-- What the damaged copies of a LEB may be when `skip` bytes of it lie before the position: one
that is skipped unread has its length, one that is read stands for a LEB that is read. -/
structure Passed (d : Dev) (v l skip : Nat) : Prop where
  unread : ∀ p h, d.Damaged v l p h → h.dataSize ≤ skip → ∃ c, d.IsLeb v l c ∧ c.length = h.dataSize
  read : ∀ p h, d.Damaged v l p h → skip < h.dataSize → ∀ c, d.IsLeb v l c → skip < c.length

/-- The cache buffer holds the LEB that the cache record names, if that is one of volume `v`. -/
def CacheHolds (d : Dev) (s : Scan) (v : Nat) : Prop :=
  ∀ r, s.lebCacheInfo = some r → r.volId = v → d.IsLeb v r.leb (s.lebCache.take r.len)

section Leb

variable {p : Nat}

/-- The block a LEB is mapped to is its newest good copy, or a damaged one newer than that. -/
theorem Top.isLeb_or_damaged (hd : d.Distinct) (hc : Clear d v) (hv : v < volIds) (hi : Inv d s)
    (ht : Top d s v l p) (hebs : (s.blockinfo p).usedEbs = d.lebCount v) :
    (∃ c, d.IsLeb v l c ∧ d.data p (s.blockinfo p) = some c) ∨ d.Damaged v l p (s.blockinfo p) := by
  have hvid := hi.info p ht.lt ht.live
  have hcopy : d.Copy v l p (s.blockinfo p) := ⟨ht.lt.trans_le Dev.area_le, hvid, ht.vol, ht.leb,
      hc.typed p ht.lt _ hvid ht.vol hebs, hebs⟩
  -- a good copy is scanned, not marked and so no newer
  have hle : ∀ q c, d.Good v l q c → d.sqnum q ≤ d.sqnum p := by
    rintro q c hgood
    obtain ⟨h, ⟨hq, hqv, hvol, hleb, hst, -⟩, -⟩ := id hgood
    have hstat := Dev.isStatic_iff.mpr ⟨h, hqv, hvol, hleb, hst⟩
    have hlt : q < d.area := by
      by_contra hge
      rw [hc.behind q (by omega) hq l] at hstat
      cases hstat
    apply ht.newest q hlt _ hstat
    by_contra hcor
    exact hi.corrupt q hlt (by simpa using hcor) v hv l c hgood
  cases hdata : d.data p (s.blockinfo p) with
  | some c => exact .inl ⟨c, ⟨p, ⟨_, hcopy, hdata⟩, hle⟩, rfl⟩
  | none =>
    refine .inr ⟨hcopy, hdata, ?_⟩
    intro q c hgood
    apply lt_of_le_of_ne (hle q c hgood)
    intro hsq
    obtain ⟨h, ⟨hq, hqv, -⟩, hqc⟩ := hgood
    obtain rfl : q = p := hd q p hq hcopy.1 (by simp [hqv]) (by simp [hvid]) hsq
    obtain rfl := Option.some.inj (hqv.symm.trans hvid)
    rw [hdata] at hqc
    cases hqc

/-- What a load under `Passed` gives: the length of the LEB and its bytes from `skip` on. -/
def Loaded (d : Dev) (v l skip readlen : Nat) (ret : Int) (out : Bytes) (s' : Scan) : Prop :=
  Inv d s' ∧ (ret < 0 ∨ ∃ c, d.IsLeb v l c ∧ ret = c.length ∧ out = (c.drop skip).take readlen ∧
    CacheHolds d s' v)

/-- The state between two rounds: the cache is as it was, or a damaged copy has been read into it
and the LEB will be read too. -/
def Between (d : Dev) (v l skip : Nat) (s : Scan) : Prop :=
  CacheHolds d s v ∨ ((∀ r, s.lebCacheInfo = some r → ¬ (r.volId = v ∧ r.leb = l)) ∧
    ∀ c, d.IsLeb v l c → skip < c.length)

theorem take_cache (cache : Bytes) {len readlen : Nat} :
    (cache.drop skip).take (min readlen (len - skip)) =
      ((cache.take len).drop skip).take readlen := by
  rw [drop_take, take_take]

theorem Inv.load_leb (hd : d.Distinct)
    (hc : Clear d v) (hv : v < volIds) (hi : Inv d s) (hl : l < d.lebCount v)
    (hpass : Passed d v l skip) (hcache : CacheHolds d s v) (readlen : Nat) :
    ∃ ret out s', ubiLoadBlock d true v l (d.lebCount v) skip readlen (s.pebCount + 1) s =
      some (ret, out, s') ∧ Loaded d v l skip readlen ret out s' := by
  refine load_rule (P := Between d v l skip) hv hl ?_ hi (.inl hcache)
  intro s pass hi hb hr
  cases hr with
  | missing => exact ⟨hi, .inl (by decide)⟩
  | count hi' hlive hinfo hbuf =>
    refine ⟨hi', ?_, hlive⟩
    unfold Between CacheHolds
    rw [hinfo, hbuf]
    exact hb
  | @skipped p ht hebs hskip =>
    have hle := hskip.resolve_left (by simp)
    have hleb : ∃ c, d.IsLeb v l c ∧ c.length = (s.blockinfo p).dataSize := by
      rcases ht.isLeb_or_damaged hd hc hv hi hebs with ⟨c, hc, hdata⟩ | hdam
      · exact ⟨c, hc, Dev.length_data hdata⟩
      · exact hpass.unread p _ hdam hle
    obtain ⟨c, hleb, hlen⟩ := hleb
    refine ⟨hi, .inr ⟨c, hleb, by rw [hlen], ?_, ?_⟩⟩
    · rw [drop_eq_nil_of_le (by omega), take_nil]
    · rcases hb with hb | hb
      · exact hb
      · exact absurd (hb.2 c hleb) (by omega)
  | @cached p ht hebs _ hlt hhit =>
    rcases hb with hb | hb
    · have hleb := hb _ hhit rfl
      have hlen : (s.lebCache.take (s.blockinfo p).dataSize).length =
          (s.blockinfo p).dataSize := length_take_of_le (hi.cache _ hhit).len
      exact ⟨hi, .inr ⟨_, hleb, by rw [hlen], take_cache _, hb⟩⟩
    · exact absurd ⟨rfl, rfl⟩ (hb.1 _ hhit)
  | @read p c s' ht hebs _ hlt hdata hi' hinfo hbuf =>
    have hlen := Dev.length_data hdata
    have htake : s'.lebCache.take (s.blockinfo p).dataSize = c := by rw [hbuf, take_left' hlen]
    rcases ht.isLeb_or_damaged hd hc hv hi hebs with ⟨c', hleb, hdata'⟩ | hdam
    · obtain rfl := Option.some.inj (hdata.symm.trans hdata')
      refine ⟨hi', .inr ⟨c, hleb, by rw [hlen], by rw [take_cache, htake], ?_⟩⟩
      intro r hr _
      obtain rfl := Option.some.inj (hinfo.symm.trans hr)
      rw [htake]
      exact hleb
    · rw [hdam.2.1] at hdata
      cases hdata
  | @damaged p s' ht hebs _ hlt hdata hi' hlive hinfo hrec =>
    refine ⟨hi', .inr ⟨by rw [hinfo]; exact hrec, ?_⟩, hlive⟩
    rcases ht.isLeb_or_damaged hd hc hv hi hebs with ⟨c, -, hdata'⟩ | hdam
    · rw [hdata] at hdata'
      cases hdata'
    · exact hpass.read p _ hdam hlt

end Leb

/-! ### The walk over the LEBs -/

def Lebs (d : Dev) (v : Nat) (cs : List Bytes) : Prop := ∀ l c, cs[l]? = some c → d.IsLeb v l c

/-- `out` are the next bytes of volume `v` from `pos` on, up to `n` of them or the end of the
volume. `cs` are the LEBs up to there. -/
def NextBytes (d : Dev) (v pos n : Nat) (out : Bytes) : Prop :=
  ∃ cs, Lebs d v cs ∧ cs.length ≤ d.lebCount v ∧ out = (cs.flatten.drop pos).take n ∧
    (out.length = n ∨ cs.length = d.lebCount v)

/-- The damaged copies are no harm to a read of `n` bytes from `pos` on: each LEB it reaches, after
the LEBs `cs`, is `Passed`. -/
def Reaches (d : Dev) (v pos n : Nat) : Prop :=
  ∀ cs, Lebs d v cs → cs.length < d.lebCount v → cs.flatten.length < pos + n →
    Passed d v cs.length (pos - cs.flatten.length)

section Walk

theorem Lebs.nil : Lebs d v [] := by
  intro l c h
  simp at h

theorem Lebs.concat (h : Lebs d v cs) (hc : d.IsLeb v cs.length c) : Lebs d v (cs ++ [c]) := by
  intro l c' hl
  rcases lt_or_ge l cs.length with hlt | hge
  · rw [getElem?_append_left hlt] at hl
    exact h l c' hl
  rw [getElem?_append_right hge] at hl
  obtain ⟨hz, rfl⟩ : l - cs.length = 0 ∧ c = c' := by
    cases hn : l - cs.length with
    | zero => simpa [hn] using hl
    | succ n => simp [hn] at hl
  obtain rfl : l = cs.length := by omega
  exact hc

theorem Dev.IsLeb.length_le (h : d.IsLeb v l c) : c.length ≤ d.lebSize := by
  obtain ⟨p, ⟨k, hcopy, hdata⟩, -⟩ := h
  rw [Dev.length_data hdata]
  exact Dev.vid_dataSize_le hcopy.2.1

theorem Lebs.length_flatten_le (h : Lebs d v cs) : cs.flatten.length ≤ cs.length * d.lebSize := by
  induction cs using List.reverseRecOn with
  | nil => simp
  | append_singleton cs c ih =>
    have hinit : Lebs d v cs := by
      intro l c' hl
      apply h l c'
      rw [List.getElem?_append_left (List.getElem?_eq_some_iff.mp hl).1]
      exact hl
    have hc := (h cs.length c (by simp)).length_le
    have := ih hinit
    simp only [flatten_append, flatten_cons, flatten_nil, append_nil,
      length_append, length_cons, length_nil, zero_add, Nat.add_mul,
      one_mul]
    omega

variable {offset size : Nat} {laddr : Bool}

/-- The loop of `ipl_load` ends and keeps the invariant; it returns the number of bytes it has
copied, and copies no more than asked for. -/
theorem iplLoadFrom_total (hv : v < volIds) (n : Nat) {lnum doff lenread : Nat} (hi : Inv d s)
    (hn : lnum + n ≤ d.lebCount v) (hout : laddr → lenread = out.length ∧ out.length ≤ size) :
    ∃ ret out' s', iplLoadFrom d laddr v (d.lebCount v) offset size n lnum doff lenread out s =
      some (ret, out', s') ∧ Inv d s' ∧
      (laddr → 0 ≤ ret → ret = out'.length ∧ out'.length ≤ size) := by
  induction n generalizing lnum doff lenread out s with
  | zero =>
    refine ⟨lenread, out, s, rfl, hi, ?_⟩
    intro hl _
    exact ⟨by rw [(hout hl).1], (hout hl).2⟩
  | succ n ih =>
    obtain ⟨ret, bytes, s', heq, hi', hlen⟩ := hi.load hv (show lnum < d.lebCount v by omega)
      laddr (if laddr ∧ doff < offset then offset - doff else 0) (size - lenread)
    rw [iplLoadFrom, heq]
    dsimp only
    by_cases hret : ret < 0
    · rw [if_pos hret]
      exact ⟨ret, out, s', rfl, hi', fun _ h => absurd h (by omega)⟩
    rw [if_neg hret]
    cases laddr with
    | false =>
      rw [if_neg (by simp)]
      apply ih hi'
      · omega
      · simp
    | true =>
      obtain ⟨rfl, hle⟩ := hout rfl
      have hnew : (out ++ bytes).length ≤ size := by
        rw [length_append]
        omega
      rw [if_pos rfl]
      split_ifs with hfull
      · refine ⟨_, _, s', rfl, hi', fun _ _ => ⟨?_, hnew⟩⟩
        rw [length_append, Int.natCast_add]
      · apply ih hi'
        · omega
        · exact fun _ => ⟨by rw [length_append], hnew⟩

theorem iplLoadFrom_next (hd : d.Distinct) (hc : Clear d v) (hv : v < volIds)
    (hreach : Reaches d v offset size) (n : Nat) {cs : List Bytes} {s : Scan} (hi : Inv d s)
    (hcache : CacheHolds d s v) (hcs : Lebs d v cs) (hn : cs.length + n = d.lebCount v)
    {out : Bytes} (hout : out = (cs.flatten.drop offset).take size)
    (hmore : out.length < size) {ret : Int} {out' : Bytes} {s' : Scan}
    (h : iplLoadFrom d true v (d.lebCount v) offset size n cs.length cs.flatten.length out.length
      out s = some (ret, out', s')) (hret : 0 ≤ ret) : NextBytes d v offset size out' := by
  induction n generalizing cs s out with
  | zero =>
    obtain ⟨-, rfl, -⟩ := h
    exact ⟨cs, hcs, by omega, hout, .inr (by omega)⟩
  | succ n ih =>
    have hlt : cs.length < d.lebCount v := by omega
    have hbefore : cs.flatten.length < offset + size := by
      rw [hout, length_take, length_drop] at hmore
      omega
    have hskip : (if true ∧ cs.flatten.length < offset then offset - cs.flatten.length
        else 0) = offset - cs.flatten.length := by
      split_ifs with hpos
      · rfl
      · have : ¬ cs.flatten.length < offset := fun h => hpos ⟨rfl, h⟩
        omega
    obtain ⟨r, bytes, s1, heq, hi1, hload⟩ := hi.load_leb hd hc hv hlt
      (hreach cs hcs hlt hbefore) hcache (size - out.length)
    rw [iplLoadFrom, hskip, heq] at h
    dsimp only at h
    rcases hload with hneg | ⟨c, hleb, hr, hbytes, hcache1⟩
    · rw [if_pos hneg] at h
      simp only [Option.some.injEq, Prod.mk.injEq] at h
      omega
    have hcs1 := hcs.concat hleb
    have hlen : (cs ++ [c]).length = cs.length + 1 := by simp
    have hout1 : out ++ bytes = ((cs ++ [c]).flatten.drop offset).take size := by
      rw [flatten_append, flatten_singleton, drop_append, take_append, ← hout, hbytes]
      congr 2
      rw [hout, length_take]
      omega
    have hle : (out ++ bytes).length ≤ size := by
      rw [hout1]
      exact length_take_le _ _
    rw [if_neg (by omega), if_pos rfl, ← length_append] at h
    rcases ite_eq_iff.mp h with ⟨hfull, h⟩ | ⟨hfull, h⟩
    · obtain ⟨-, rfl, -⟩ := h
      exact ⟨cs ++ [c], hcs1, by omega, hout1, .inl hfull.symm⟩
    · have hflat : (cs ++ [c]).flatten.length = cs.flatten.length + r.toNat := by simp [hr]
      apply ih hi1 hcache1 hcs1 (by omega) hout1 (by omega)
      rw [hlen, hflat]
      exact h

end Walk

end MtkBoot.Ubi
