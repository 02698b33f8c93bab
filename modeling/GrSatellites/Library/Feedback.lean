import Mathlib.Data.Nat.Notation
import Mathlib.Data.List.Basic

/-!
# Codes with feedback from the channel

Scramblers and differential codes that add to each bit a function of the bits sent
before. The receiver adds the same function of the bits received before, so it needs
no state of its own beyond what it has received.
-/

namespace GrSatellites.Feedback

/-- What is sent for a bit string when `sent` has been sent, the latest bit first. -/
def encode (tap : List Bool → Bool) : List Bool → List Bool → List Bool
  | _, [] => []
  | sent, x :: xs => (x ^^ tap sent) :: encode tap ((x ^^ tap sent) :: sent) xs

/-- What is read from a bit string when `received` has been received, the latest bit first. -/
def decode (tap : List Bool → Bool) : List Bool → List Bool → List Bool
  | _, [] => []
  | received, y :: ys => (y ^^ tap received) :: decode tap (y :: received) ys

variable (tap : List Bool → Bool)

@[simp] theorem length_encode (sent xs : List Bool) : (encode tap sent xs).length = xs.length := by
  induction xs generalizing sent with
  | nil => rfl
  | cons x xs ih => rw [encode, List.length_cons, ih, List.length_cons]

@[simp] theorem length_decode (received ys : List Bool) :
    (decode tap received ys).length = ys.length := by
  induction ys generalizing received with
  | nil => rfl
  | cons y ys ih => rw [decode, List.length_cons, ih, List.length_cons]

/-- What is read from an encoded bit string does not depend on what follows it. -/
theorem decode_encode_append (sent xs rest : List Bool) :
    decode tap sent (encode tap sent xs ++ rest) =
      xs ++ decode tap ((encode tap sent xs).reverse ++ sent) rest := by
  induction xs generalizing sent with
  | nil => rfl
  | cons x xs ih =>
    have hx : (x ^^ tap sent ^^ tap sent) = x := by
      rw [Bool.xor_assoc, Bool.xor_self, Bool.xor_false]
    rw [encode, List.cons_append, decode, ih, hx, List.reverse_cons, List.append_assoc]
    rfl

theorem getElem_decode (received ys : List Bool) (i : ℕ)
    (hdecode : i < (decode tap received ys).length) (hi : i < ys.length) :
    (decode tap received ys)[i] = (ys[i] ^^ tap ((ys.take i).reverse ++ received)) := by
  induction ys generalizing received i with
  | nil => exact absurd hi (Nat.not_lt_zero i)
  | cons y ys ih =>
    cases i with
    | zero => rfl
    | succ i =>
      have htake : ((y :: ys).take (i + 1)).reverse ++ received =
          (ys.take i).reverse ++ (y :: received) := by
        rw [List.take_succ_cons, List.reverse_cons, List.append_assoc]
        rfl
      have hlower := Nat.lt_of_succ_lt_succ hi
      rw [htake, List.getElem_cons_succ,
        ← ih (y :: received) i (by rwa [length_decode]) hlower]
      rfl

end GrSatellites.Feedback
