import GrSatellites.Basic

/-!
# The PDU scrambler

The block of `lib/pdu_scrambler_impl.cc`, which adds a sequence to the bytes of a PDU. A PDU that
is longer than the sequence is reported, and then scrambled all the same.
-/

namespace GrSatellites.PduScrambler

variable {M : Type}

/-- The loop of `msg_handler` from the index `j` on. -/
def scrambleFrom (sequence : List Byte) : ℕ → List Byte → Except CxxError (List Byte)
  | _, [] => .ok []
  | j, byte :: msg => do
    match sequence[j]? with
    | none => throw .outOfRange
    | some scrambling => return (byte ^^^ scrambling) :: (← scrambleFrom sequence (j + 1) msg)

/-- `msg_handler`: the PDUs published. An error is only logged for a PDU that is too long. -/
def msgHandler (sequence : List Byte) : Msg M → Except CxxError (List (Pdu M))
  | .other _ => .error .wrongType
  | .u8vector pdu => return [⟨pdu.car, ← scrambleFrom sequence 0 pdu.cdr⟩]

/-- What the documentation says of a PDU: it is dropped if it is longer than the sequence. Any
other one is published as its sum with the sequence, which the block turns back. -/
structure Scrambles (sequence : List Byte) (pdu : Pdu M) : Prop where
  drops : sequence.length < pdu.cdr.length → msgHandler sequence (.u8vector pdu) = .ok []
  adds : pdu.cdr.length ≤ sequence.length → msgHandler sequence (.u8vector pdu) =
    .ok [⟨pdu.car, List.zipWith (· ^^^ ·) pdu.cdr sequence⟩]
  restores : ∀ out, msgHandler sequence (.u8vector pdu) = .ok [out] →
    msgHandler sequence (.u8vector out) = .ok [pdu]

/-! ## The loop -/

theorem scrambleFrom_of_le {sequence msg : List Byte} {j : ℕ}
    (h : j + msg.length ≤ sequence.length) :
    scrambleFrom sequence j msg = .ok (List.zipWith (· ^^^ ·) msg (sequence.drop j)) := by
  induction msg generalizing j with
  | nil => rfl
  | cons byte msg ih =>
    rw [List.length_cons] at h
    have hj : j < sequence.length := by omega
    have hrest := ih (j := j + 1) (by omega)
    rw [scrambleFrom, List.getElem?_eq_getElem hj, hrest, List.drop_eq_getElem_cons hj]
    rfl

/-- The loop runs past the end of a sequence that is too short. -/
theorem scrambleFrom_of_lt {sequence msg : List Byte} {j : ℕ} (hj : j ≤ sequence.length)
    (h : sequence.length < j + msg.length) : scrambleFrom sequence j msg = .error .outOfRange := by
  induction msg generalizing j with
  | nil => exact absurd h (Nat.not_lt.mpr hj)
  | cons byte msg ih =>
    rw [List.length_cons] at h
    rw [scrambleFrom]
    rcases Nat.eq_or_lt_of_le hj with rfl | hlt
    · rw [List.getElem?_eq_none le_rfl]
      rfl
    · rw [List.getElem?_eq_getElem hlt, ih hlt (by omega)]
      rfl

theorem msgHandler_of_le {sequence : List Byte} {pdu : Pdu M}
    (h : pdu.cdr.length ≤ sequence.length) : msgHandler sequence (.u8vector pdu) =
      .ok [⟨pdu.car, List.zipWith (· ^^^ ·) pdu.cdr sequence⟩] := by
  rw [msgHandler, scrambleFrom_of_le (by omega), List.drop_zero]
  rfl

theorem msgHandler_of_lt {sequence : List Byte} {pdu : Pdu M}
    (h : sequence.length < pdu.cdr.length) :
    msgHandler sequence (.u8vector pdu) = .error .outOfRange := by
  rw [msgHandler, scrambleFrom_of_lt (Nat.zero_le _) (by omega)]
  rfl

/-- Adding a sequence twice gives back what was there. -/
theorem zipWith_xor_zipWith_xor {sequence msg : List Byte} (h : msg.length ≤ sequence.length) :
    List.zipWith (· ^^^ ·) (List.zipWith (· ^^^ ·) msg sequence) sequence = msg := by
  have hlength : (List.zipWith (· ^^^ ·) msg sequence).length = msg.length := by
    rw [List.length_zipWith, Nat.min_eq_left h]
  apply List.ext_getElem
  · rw [List.length_zipWith, hlength, Nat.min_eq_left h]
  · intro i _ _
    rw [List.getElem_zipWith, List.getElem_zipWith, BitVec.xor_assoc, BitVec.xor_self,
      BitVec.xor_zero]

/-! ## Handling PDUs -/

/-- **The block does what it says** for exactly the PDUs that are not longer than the sequence. -/
theorem scrambles_iff (sequence : List Byte) (pdu : Pdu M) :
    Scrambles sequence pdu ↔ pdu.cdr.length ≤ sequence.length := by
  constructor
  · intro h
    by_contra hlong
    have hdropped := h.drops (Nat.not_le.mp hlong)
    rw [msgHandler_of_lt (Nat.not_le.mp hlong)] at hdropped
    cases hdropped
  · intro h
    have hadds := msgHandler_of_le h
    refine ⟨fun hlong => absurd hlong (Nat.not_lt.mpr h), fun _ => hadds, ?_⟩
    intro out hout
    rw [hadds] at hout
    obtain rfl : _ = out := List.head_eq_of_cons_eq (Except.ok.inj hout)
    have hlength : (List.zipWith (· ^^^ ·) pdu.cdr sequence).length ≤ sequence.length := by
      rw [List.length_zipWith]
      exact Nat.min_le_right _ _
    rw [msgHandler_of_le hlength, zipWith_xor_zipWith_xor h]

/-- One byte, and no sequence. -/
theorem not_scrambles_long : ¬ ∀ (sequence : List Byte) (pdu : Pdu Unit),
    Scrambles sequence pdu := by
  intro h
  have hdropped := (h [] ⟨(), [0]⟩).drops (by decide)
  rw [msgHandler_of_lt (by decide)] at hdropped
  cases hdropped

end GrSatellites.PduScrambler
