import MtkBoot.Base

/-! Version 2 of the translation table library, with 4 KiB pages.  A table of level `3 - k` has
entries that span `blockSize k` each.  Tables refer to each other by index; the base table is
`none`.  A failed assertion is `none`. -/

namespace MtkBoot.Xlat

/-- `XLAT_BLOCK_SIZE(3 - k)`. -/
def blockSize (k : Nat) : Nat := 2 ^ (12 + 9 * k)

def tableEntries : Nat := 512

structure Region where
  basePa : Nat
  baseVa : Nat
  size : Nat
  attr : Nat
  granularity : Nat
  size_lt : size < 2 ^ 64
  deriving DecidableEq, Repr

namespace Region

variable (r : Region)

def endVa : Nat := r.baseVa + r.size - 1

def endPa : Nat := r.basePa + r.size - 1

def isDynamic : Bool := r.attr.testBit 31

end Region

inductive Entry
  | invalid
  | leaf (pa attr : Nat)
  | table (t : Nat)
  deriving DecidableEq, Repr

/-- The part of `struct xlat_ctx` that never changes; the base table is of level `3 - baseDepth`. -/
structure Config where
  /-- `PLAT_XLAT_TABLES_DYNAMIC`. -/
  dynamic : Bool
  paMax : Nat
  vaMax : Nat
  mmapNum : Nat
  tablesNum : Nat
  baseDepth : Nat
  baseEntries : Nat
  space : vaMax + 1 = baseEntries * blockSize baseDepth
  va_lt : vaMax < 2 ^ 48
  pa_lt : paMax < 2 ^ 64

/-- The list of regions without the entry that ends it, the tables with their
`tables_mapped_regions`, and what is known of them. -/
structure Ctx where
  mmap : List Region
  base : Nat → Entry
  tables : Nat → Nat → Entry
  mapped : Nat → Int
  nextTable : Nat
  maxPa : Nat
  maxVa : Nat
  initialized : Bool

namespace Ctx

def entry (c : Ctx) : Option Nat → Nat → Entry
  | none => c.base
  | some t => c.tables t

def setEntry (c : Ctx) (tbl : Option Nat) (i : Nat) (e : Entry) : Ctx :=
  match tbl with
  | none => { c with base := Function.update c.base i e }
  | some t => { c with tables := Function.update c.tables t (Function.update (c.tables t) i e) }

def addMapped (c : Ctx) (t : Nat) (d : Int) : Ctx :=
  { c with mapped := Function.update c.mapped t (c.mapped t + d) }

end Ctx

def xlatTableGetEmpty (cfg : Config) (c : Ctx) : Option (Nat × Ctx) :=
  if cfg.dynamic then
    ((List.range cfg.tablesNum).find? fun t => c.mapped t = 0).map fun t => (t, c)
  else if c.nextTable < cfg.tablesNum then
    some (c.nextTable, { c with nextTable := c.nextTable + 1 })
  else none

def incRegionsCount (cfg : Config) (c : Ctx) : Option Nat → Ctx
  | none => c
  | some t => if cfg.dynamic then c.addMapped t 1 else c

def findStartVa (mm : Region) (tableBaseVa k : Nat) : Nat :=
  if tableBaseVa < mm.baseVa then mm.baseVa / blockSize k * blockSize k else tableBaseVa

inductive Action
  | none | writeBlockEntry | createNewTable | recurseIntoTable
  deriving DecidableEq, Repr

def xlatTablesMapRegionAction (mm : Region) (desc : Entry) (destPa va k : Nat) : Option Action :=
  if mm.baseVa ≤ va ∧ va + blockSize k - 1 ≤ mm.endVa then
    if k = 0 then
      match desc with
      | .invalid => some .writeBlockEntry
      | _ => some .none
    else
      match desc with
      | .table _ => some .recurseIntoTable
      | .invalid =>
        -- blocks start at level 1
        if destPa % blockSize k ≠ 0 ∨ 2 < k ∨ mm.granularity < blockSize k then some .createNewTable
        else some .writeBlockEntry
      | .leaf _ _ => some .none
  else if mm.baseVa ≤ va + blockSize k - 1 ∨ va ≤ mm.endVa then
    if k = 0 then none
    else
      match desc with
      | .invalid => some .createNewTable
      | .table _ => some .recurseIntoTable
      | .leaf _ _ => none
  else some .none

/-- The loop of `xlat_tables_map_region` over the `n` entries from `idx` on, which start at `va`;
`sub` maps the region in a table of the next level. -/
def mapLoop (cfg : Config) (mm : Region) (k : Nat) (sub : Ctx → Nat → Nat → Option (Ctx × Nat))
    (tbl : Option Nat) : Nat → Nat → Nat → Ctx → Option (Ctx × Nat)
  | 0, _, va, c => some (c, va - 1)
  | n + 1, idx, va, c =>
    let next := fun c => if mm.endVa ≤ va + blockSize k then some (c, va + blockSize k - 1)
      else mapLoop cfg mm k sub tbl n (idx + 1) (va + blockSize k) c
    let enter := fun c t => (sub c t va).bind fun r =>
      if r.2 ≠ va + blockSize k - 1 then some r else next r.1
    match xlatTablesMapRegionAction mm (c.entry tbl idx) (mm.basePa + va - mm.baseVa) va k with
    | none => none
    | some .none => next c
    | some .writeBlockEntry =>
      next (c.setEntry tbl idx (.leaf (mm.basePa + va - mm.baseVa) mm.attr))
    | some .createNewTable =>
      match xlatTableGetEmpty cfg c with
      | none => some (c, va)
      | some (t, c) => enter (c.setEntry tbl idx (.table t)) t
    | some .recurseIntoTable =>
      match c.entry tbl idx with
      | .table t => enter c t
      | _ => none

def xlatTablesMapRegion (cfg : Config) (mm : Region) :
    Nat → Ctx → Option Nat → Nat → Nat → Option (Ctx × Nat)
  | 0, c, tbl, tableBaseVa, entries =>
    let va := findStartVa mm tableBaseVa 0
    let idx := (va - tableBaseVa) / blockSize 0
    mapLoop cfg mm 0 (fun _ _ _ => none) tbl (entries - idx) idx va (incRegionsCount cfg c tbl)
  | k + 1, c, tbl, tableBaseVa, entries =>
    let va := findStartVa mm tableBaseVa (k + 1)
    let idx := (va - tableBaseVa) / blockSize (k + 1)
    mapLoop cfg mm (k + 1) (fun c t va => xlatTablesMapRegion cfg mm k c (some t) va tableEntries)
      tbl (entries - idx) idx va (incRegionsCount cfg c tbl)

def mapFromBase (cfg : Config) (c : Ctx) (mm : Region) : Option (Ctx × Nat) :=
  xlatTablesMapRegion cfg mm cfg.baseDepth c none 0 cfg.baseEntries

def xlatTablesUnmapRegionAction (mm : Region) (desc : Entry) (va k : Nat) : Option Action :=
  if mm.baseVa ≤ va ∧ va + blockSize k - 1 ≤ mm.endVa then
    if k = 0 then
      match desc with
      | .leaf _ _ => some .writeBlockEntry
      | _ => none
    else
      match desc with
      | .table _ => some .recurseIntoTable
      | .leaf _ _ => some .writeBlockEntry
      | .invalid => none
  else if mm.baseVa ≤ va + blockSize k - 1 ∨ va ≤ mm.endVa then
    if k = 0 then none
    else
      match desc with
      | .table _ => some .recurseIntoTable
      | _ => none
  else some .none

def unmapLoop (mm : Region) (k : Nat) (sub : Ctx → Nat → Nat → Option Ctx) (tbl : Option Nat) :
    Nat → Nat → Nat → Ctx → Option Ctx
  | 0, _, _, c => some c
  | n + 1, idx, va, c =>
    let next := fun c => if mm.endVa ≤ va + blockSize k then some c
      else unmapLoop mm k sub tbl n (idx + 1) (va + blockSize k) c
    match xlatTablesUnmapRegionAction mm (c.entry tbl idx) va k with
    | some .none => next c
    | some .writeBlockEntry => next (c.setEntry tbl idx .invalid)
    | some .recurseIntoTable =>
      match c.entry tbl idx with
      | .table t => (sub c t va).bind fun c =>
        -- a table that no region reaches into is taken out
        next (if c.mapped t = 0 then c.setEntry tbl idx .invalid else c)
      | _ => none
    | _ => none

def decRegionsCount (c : Ctx) : Option Nat → Ctx
  | none => c
  | some t => c.addMapped t (-1)

def xlatTablesUnmapRegion (mm : Region) : Nat → Ctx → Option Nat → Nat → Nat → Option Ctx
  | 0, c, tbl, tableBaseVa, entries =>
    let va := findStartVa mm tableBaseVa 0
    let idx := (va - tableBaseVa) / blockSize 0
    (unmapLoop mm 0 (fun _ _ _ => none) tbl (entries - idx) idx va c).map fun c =>
      decRegionsCount c tbl
  | k + 1, c, tbl, tableBaseVa, entries =>
    let va := findStartVa mm tableBaseVa (k + 1)
    let idx := (va - tableBaseVa) / blockSize (k + 1)
    (unmapLoop mm (k + 1) (fun c t va => xlatTablesUnmapRegion mm k c (some t) va tableEntries) tbl
      (entries - idx) idx va c).map fun c => decRegionsCount c tbl

def unmapFromBase (cfg : Config) (c : Ctx) (mm : Region) : Option Ctx :=
  xlatTablesUnmapRegion mm cfg.baseDepth c none 0 cfg.baseEntries

/-! ### The list of regions -/

/-- What `mmap_add_region_check` requires of the region `r` against a region `m` of the list. -/
def compatible (cfg : Config) (r m : Region) : Bool :=
  if r.baseVa ≥ m.baseVa ∧ r.endVa ≤ m.endVa ∨ m.baseVa ≥ r.baseVa ∧ m.endVa ≤ r.endVa then
    if cfg.dynamic ∧ (r.isDynamic ∨ m.isDynamic) then false
    else if u64 (m.baseVa + 2 ^ 64 - m.basePa) ≠ u64 (r.baseVa + 2 ^ 64 - r.basePa) then false
    else if r.baseVa = m.baseVa ∧ r.size = m.size then false
    else true
  else
    (r.endPa < m.basePa ∨ m.endPa < r.basePa) ∧ (r.endVa < m.baseVa ∨ m.endVa < r.baseVa)

def mmapAddRegionCheck (cfg : Config) (c : Ctx) (r : Region) : Int :=
  let endPa := u64 (r.basePa + r.size + (2 ^ 64 - 1))
  let endVa := u64 (r.baseVa + r.size + (2 ^ 64 - 1))
  if r.basePa % 4096 ≠ 0 ∨ r.baseVa % 4096 ≠ 0 ∨ r.size % 4096 ≠ 0 then -einval
  else if r.granularity ≠ blockSize 2 ∧ r.granularity ≠ blockSize 1 ∧
      r.granularity ≠ blockSize 0 then -einval
  else if endPa < r.basePa ∨ endVa < r.baseVa then -erange
  else if cfg.vaMax < endVa then -erange
  else if cfg.paMax < endPa then -erange
  else if cfg.mmapNum ≤ c.mmap.length then -enomem
  else if c.mmap.all (compatible cfg r) then 0
  else -eperm

/-- The place of a region in the list: lower end first, then the smaller one. -/
def mmapInsert (r : Region) (l : List Region) : List Region :=
  let lower := l.takeWhile fun m => m.endVa < r.endVa
  let rest := l.dropWhile fun m => m.endVa < r.endVa
  let smaller := rest.takeWhile fun m => m.endVa = r.endVa ∧ m.size < r.size
  lower ++ smaller ++ r :: rest.dropWhile fun m => m.endVa = r.endVa ∧ m.size < r.size

def Ctx.raiseMax (c : Ctx) (r : Region) : Ctx :=
  { c with maxPa := max c.maxPa r.endPa, maxVa := max c.maxVa r.endVa }

def mmapAddRegionCtx (cfg : Config) (c : Ctx) (r : Region) : Option Ctx :=
  if r.size = 0 then some c
  else if c.initialized then none
  else if mmapAddRegionCheck cfg c r ≠ 0 then none
  else some ({ c with mmap := mmapInsert r c.mmap }.raiseMax r)

/-- What `mmap_add_dynamic_region_ctx` unmaps after a failure. -/
def undoRegion (r : Region) (endVa : Nat) : Region :=
  ⟨0, r.baseVa, (endVa - r.baseVa) % 2 ^ 64, 0, 0, Nat.mod_lt _ (by decide)⟩

def mmapAddDynamicRegionCtx (cfg : Config) (c : Ctx) (mm : Region) : Option (Int × Ctx) :=
  if mm.size = 0 then some (0, c)
  else
    let r := { mm with attr := mm.attr ||| 2 ^ 31 }
    if mmapAddRegionCheck cfg c r ≠ 0 then some (mmapAddRegionCheck cfg c r, c)
    else
      let added := { c with mmap := mmapInsert r c.mmap }
      if c.initialized then
        (mapFromBase cfg added r).bind fun res =>
          if res.2 = r.endVa then some (0, res.1.raiseMax r)
          else
            let c' := { res.1 with mmap := c.mmap }
            if res.2 ≤ r.baseVa then some (-enomem, c')
            else (unmapFromBase cfg c' (undoRegion r res.2)).map fun c' => (-enomem, c')
      else some (0, added.raiseMax r)

def mmapRemoveDynamicRegionCtx (cfg : Config) (c : Ctx) (baseVa size : Nat) : Option (Int × Ctx) :=
  match c.mmap.find? fun m => m.baseVa = baseVa ∧ m.size = size with
  | none => some (-einval, c)
  | some r =>
    if r.isDynamic = false then some (-eperm, c)
    else
      (if c.initialized then unmapFromBase cfg c r else some c).map fun c' =>
        let mmap := c.mmap.erase r
        (0, { c' with
          mmap
          maxVa := if r.endVa = c.maxVa then mmap.foldl (fun a m => max a m.endVa) 0 else c.maxVa
          maxPa := if r.endPa = c.maxPa then mmap.foldl (fun a m => max a m.endPa) 0 else c.maxPa })

/-- The loop of `init_xlat_tables_ctx` over the regions; `none` is a panic. -/
def mapRegions (cfg : Config) : List Region → Ctx → Option Ctx
  | [], c => some c
  | r :: rs, c => (mapFromBase cfg c r).bind fun res =>
    if res.2 = r.endVa then mapRegions cfg rs res.1 else none

def initXlatTablesCtx (cfg : Config) (c : Ctx) : Option Ctx :=
  if c.initialized then none
  else
    (mapRegions cfg c.mmap { c with
      base := fun _ => .invalid
      tables := fun _ _ => .invalid
      mapped := fun _ => 0 }).map fun c => { c with initialized := true }

/-! ### The walk of the MMU -/

/-- The walk from an entry of level `3 - k` on: a table is indexed with nine bits of the address. -/
def walk (c : Ctx) : Nat → Entry → Nat → Option (Nat × Nat)
  | _, .invalid, _ => none
  | k, .leaf pa attr, va => some (pa / blockSize k * blockSize k + va % blockSize k, attr)
  | 0, .table _, _ => none
  | k + 1, .table t, va => walk c k (c.tables t (va / blockSize k % 512)) va

def translate (cfg : Config) (c : Ctx) (va : Nat) : Option (Nat × Nat) :=
  if va ≤ cfg.vaMax then walk c cfg.baseDepth (c.base (va / blockSize cfg.baseDepth)) va else none

def emptyCtx : Ctx where
  mmap := []
  base := fun _ => .invalid
  tables := fun _ _ => .invalid
  mapped := fun _ => 0
  nextTable := 0
  maxPa := 0
  maxVa := 0
  initialized := false

end MtkBoot.Xlat
