import Mathlib.Data.List.ReduceOption

/-! The handshake of BL2, which waits on the serial line for the request `mudl`.  A byte that does
not continue the request starts it again and is itself thrown away. -/

namespace MtkBoot.Uart

open List

variable {bytes : List UInt8} {i : Nat}

def requestCmd : List UInt8 := [0x6d, 0x75, 0x64, 0x6c]

def responseCmd : List UInt8 := [0x54, 0x46, 0x2d, 0x41]

/-- The loop of `handshake` over what `uart_dl_api_getc` returns, `none` for
`ERROR_NO_PENDING_CHAR`: what it has sent and not read when it ends; `none` if it still waits. -/
def handshake (i : Nat) (sent : List UInt8) :
    List (Option UInt8) → Option (List UInt8 × List (Option UInt8))
  | [] => none
  | none :: polls => handshake i sent polls
  | some ch :: polls =>
    if requestCmd[i]? = some ch then
      if i + 1 ≥ responseCmd.length then some (sent ++ [responseCmd.getD i 0], polls)
      else handshake (i + 1) (sent ++ [responseCmd.getD i 0]) polls
    else handshake 0 sent polls

/-- A request, after pieces that each begin like one and have a last byte that does not continue
it. -/
inductive Requested : List UInt8 → Prop
  | request (rest : List UInt8) : Requested (requestCmd ++ rest)
  | broken {k : Nat} {ch : UInt8} {bytes : List UInt8} (hk : k < requestCmd.length)
      (hch : requestCmd[k]? ≠ some ch) (h : Requested bytes) :
      Requested (requestCmd.take k ++ ch :: bytes)

theorem Requested.length_le (h : Requested bytes) : requestCmd.length ≤ bytes.length := by
  induction h with
  | request rest =>
    rw [length_append]
    exact Nat.le_add_right _ _
  | broken hk hch h ih =>
    rw [length_append, length_cons]
    omega

/-- Two lists that leave a request leave it at the same place. -/
theorem eq_of_leaves {req l m : List UInt8} {k : Nat} {a c : UInt8}
    (hi : i < req.length) (hk : k < req.length) (ha : req[i]? ≠ some a) (hc : req[k]? ≠ some c)
    (h : req.take i ++ a :: l = req.take k ++ c :: m) : l = m := by
  induction req generalizing i k with
  | nil => exact absurd hi (Nat.not_lt_zero i)
  | cons r req ih =>
    cases i with
    | zero =>
      cases k with
      | zero => exact (cons.inj h).2
      | succ k => exact absurd (congrArg some (cons.inj h).1.symm) ha
    | succ i =>
      cases k with
      | zero => exact absurd (congrArg some (cons.inj h).1) hc
      | succ k =>
        exact ih (Nat.lt_of_succ_lt_succ hi) (Nat.lt_of_succ_lt_succ hk) ha hc (cons.inj h).2

theorem requested_broken_iff {ch : UInt8}
    (hi : i < requestCmd.length) (hch : requestCmd[i]? ≠ some ch) :
    Requested (requestCmd.take i ++ ch :: bytes) ↔ Requested bytes := by
  refine ⟨fun h => ?_, .broken hi hch⟩
  generalize hl : requestCmd.take i ++ ch :: bytes = l at h
  cases h with
  | request rest =>
    rw [← take_append_drop i (requestCmd ++ rest), take_append_of_le_length (Nat.le_of_lt hi),
      append_cancel_left_eq, drop_append_of_le_length (Nat.le_of_lt hi),
      drop_eq_getElem_cons hi] at hl
    exact absurd (by rw [getElem?_eq_getElem hi, ← (cons.inj hl).1]) hch
  | broken hk hc h =>
    rwa [eq_of_leaves hi hk hch hc hl]

/-- What the loop has matched counts as if it were still to come. -/
theorem isSome_handshake_iff (polls : List (Option UInt8))
    (sent : List UInt8) (hi : i < requestCmd.length) :
    (handshake i sent polls).isSome ↔ Requested (requestCmd.take i ++ polls.reduceOption) := by
  induction polls generalizing i sent with
  | nil =>
    refine ⟨fun h => absurd h (by simp [handshake]), fun h => ?_⟩
    have hlen := h.length_le
    rw [reduceOption_nil, append_nil, length_take] at hlen
    omega
  | cons poll polls ih =>
    cases poll with
    | none => exact ih sent hi
    | some ch =>
      rw [handshake, reduceOption_cons_of_some]
      by_cases hch : requestCmd[i]? = some ch
      · have htake : requestCmd.take i ++ ch :: polls.reduceOption =
            requestCmd.take (i + 1) ++ polls.reduceOption := by
          rw [take_add_one, hch, append_assoc]
          rfl
        rw [if_pos hch, htake]
        by_cases hlast : i + 1 ≥ responseCmd.length
        · rw [if_pos hlast, take_of_length_le (show requestCmd.length ≤ i + 1 from hlast)]
          exact ⟨fun _ => .request _, fun _ => rfl⟩
        · rw [if_neg hlast]
          exact ih _ (Nat.lt_of_not_le hlast)
      · rw [if_neg hch, requested_broken_iff hi hch]
        exact ih sent (by decide)

/-- The handshake ends with a request iff the bytes before it are broken pieces, or such pieces and
an earlier request are among them. -/
theorem handshake_ends_iff (polls : List (Option UInt8)) (before : List UInt8)
    (h : polls.reduceOption = before ++ requestCmd) :
    (handshake 0 [] polls).isSome ↔ Requested (before ++ requestCmd) := by
  rw [← h]
  exact isSome_handshake_iff polls [] (by decide)

theorem handshake_ends_after_noise : (handshake 0 [] [some 0x6d, none, some 0, some 0x6d, some 0x75,
      none, some 0x64, some 0x6c]).isSome :=
  (handshake_ends_iff _ [0x6d, 0] rfl).mpr (.broken (k := 1) (by decide) (by decide) (.request []))

/-- The request after a single `m` is missed. -/
theorem request_missed :
    [some 0x6d, some 0x6d, some 0x75, some 0x64, some 0x6c].reduceOption = [0x6d] ++ requestCmd ∧
    ¬(handshake 0 [] [some 0x6d, some 0x6d, some 0x75, some 0x64, some 0x6c]).isSome := by
  decide

end MtkBoot.Uart
