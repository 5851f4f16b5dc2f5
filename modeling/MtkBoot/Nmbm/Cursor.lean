import MtkBoot.Nmbm.Update
import MtkBoot.Nmbm.Laid
import MtkBoot.Nmbm.Image

/-! Where the block walks stop, and the search for a place to write an info table at: every attempt
stays between its lowest start and the mapped blocks. -/

namespace MtkBoot.Nmbm

open MtkBoot.Lib

variable {ba e n st : Nat} {ni : Instance} {s : Sys}

section Walks

variable {state : Nat → BlockState} {count x : Nat}

theorem walkUp_spec (h : walkUp state n ba count = some x) :
    ba ≤ x ∧ x < ba + n ∧ state x = .good := by
  induction n generalizing ba count with
  | zero => cases h
  | succ n ih =>
    cases count with
    | zero =>
      rw [walkUp] at h
      split at h
      · rename_i hgood
        cases h
        exact ⟨le_rfl, by omega, hgood⟩
      · obtain ⟨h1, h2, h3⟩ := ih h
        exact ⟨by omega, by omega, h3⟩
    | succ count =>
      rw [walkUp] at h
      split at h <;> obtain ⟨h1, h2, h3⟩ := ih h <;> exact ⟨by omega, by omega, h3⟩

theorem tryReserveBlocks_le {limit : Nat} (h : tryReserveBlocks ni ba limit count = some x) :
    ba ≤ x := by
  induction count with
  | zero => exact (walkUp_spec h).1
  | succ count ih =>
    rw [tryReserveBlocks] at h
    split at h
    · rename_i hwalk
      cases h
      exact (walkUp_spec hwalk).1
    · exact ih h

end Walks

theorem writeInfoTableDown_spec {s' : Sys} {res : Option (Nat × Nat)} {lo : Nat}
    (h : writeInfoTableDown n ba s = (res, s'))
    (hlo : lo + n = ba) (hne : s.ni.infoTableCache ≠ []) :
    Frame (Set.Ico lo s.ni.mappingBlocksTopBa) s s' ∧ ∀ st e, res = some (st, e) →
      lo ≤ st ∧ e ≤ s.ni.mappingBlocksTopBa ∧ TableAt s' st e s.ni.infoTableCache := by
  induction n generalizing ba s with
  | zero =>
    obtain ⟨hframe, hres⟩ := writeInfoTable_spec h hne
    refine ⟨hframe.mono fun b hb => ⟨by have := hb.1; omega, hb.2⟩, fun st e heq => ?_⟩
    obtain ⟨h1, h2, h3, -⟩ := hres st e heq
    exact ⟨by omega, h2, h3⟩
  | succ n ih =>
    rw [writeInfoTableDown] at h
    rcases hw : writeInfoTable s ba s.ni.mappingBlocksTopBa with ⟨table, t⟩
    obtain ⟨hframe, hres⟩ := writeInfoTable_spec hw hne
    have hframe := hframe.mono (C := Set.Ico lo s.ni.mappingBlocksTopBa) fun b hb =>
      ⟨by have := hb.1; omega, hb.2⟩
    rw [hw] at h
    cases table with
    | some table =>
      cases h
      refine ⟨hframe, fun st e heq => ?_⟩
      obtain ⟨h1, h2, h3, -⟩ := hres st e heq
      exact ⟨by omega, h2, h3⟩
    | none =>
      have htail := ih h (by omega) (by rw [hframe.infoTableCache]; exact hne)
      rw [hframe.mappingBlocksTopBa, hframe.infoTableCache] at htail
      exact ⟨hframe.trans htail.1, htail.2⟩

theorem TableAt.place {main backup stop : Nat} {data : Bytes} (h : TableAt s st e data) :
    TableAt (s.place main backup stop) st e data :=
  ⟨h.lt, h.good, h.laid⟩

end MtkBoot.Nmbm
