import MtkBoot.Lib.Bytes

/-! Programs on a serial port: they read the bytes that have arrived, block when there are none, and
send bytes.  Numbers go over the line most significant byte first. -/

namespace MtkBoot.Lib

open StateT

/-- A port: what has arrived and has not been read, what has been sent, and the memory of the
program. -/
structure Port (σ : Type) where
  input : List UInt8
  output : List UInt8
  mem : σ

/-- A program on a port; it fails when it waits for a byte that does not come. -/
abbrev Prog (σ α : Type) := StateT (Port σ) Option α

variable {σ : Type}

def getc : Prog σ UInt8 := fun w =>
  match w.input with
  | [] => none
  | b :: rest => some (b, { w with input := rest })

def send (bytes : List UInt8) : Prog σ Unit := fun w =>
  some ((), { w with output := w.output ++ bytes })

def receive : Nat → Prog σ (List UInt8)
  | 0 => pure []
  | n + 1 => do
    let b ← getc
    let l ← receive n
    return b :: l

theorem getc_run (b : UInt8) (rest out : List UInt8) (mem : σ) :
    run getc ⟨b :: rest, out, mem⟩ = some (b, ⟨rest, out, mem⟩) := rfl

theorem send_run (bytes inp out : List UInt8) (mem : σ) :
    run (send bytes) ⟨inp, out, mem⟩ = some ((), ⟨inp, out ++ bytes, mem⟩) := rfl

theorem receive_run (bytes rest out : List UInt8) (mem : σ) :
    run (receive bytes.length) ⟨bytes ++ rest, out, mem⟩ = some (bytes, ⟨rest, out, mem⟩) := by
  induction bytes with
  | nil => rfl
  | cons b bytes ih =>
    rw [List.length_cons, receive, run_bind, List.cons_append, getc_run]
    simp only [Option.bind_eq_bind, Option.bind_some, run_bind, ih]
    rfl

def receiveNat (k : Nat) : Prog σ Nat := do
  let l ← receive k
  return beNat l

theorem receiveNat_run {k n : Nat} (h : n < 256 ^ k) (rest out : List UInt8) (mem : σ) :
    run (receiveNat k) ⟨beBytes k n ++ rest, out, mem⟩ = some (n, ⟨rest, out, mem⟩) := by
  have hread := receive_run (beBytes k n) rest out mem
  rw [length_beBytes] at hread
  rw [receiveNat, run_bind, hread]
  simp only [Option.bind_eq_bind, Option.bind_some, beNat_beBytes h]
  rfl

end MtkBoot.Lib
