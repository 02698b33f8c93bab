import Mathlib

/-!
# Cutting a stream and putting it together

A list of pieces is sent as one stream. After some number of items has arrived, some of
the pieces have arrived whole and one of them in part. Slices with signed bounds, as a
program may take them, are here as well.
-/

namespace GrSatellites.Segmentation

variable {α : Type}

/-- `xs[:n]`: a negative bound counts from the end. -/
def sliceTo (xs : List α) (n : ℤ) : List α :=
  if n < 0 then xs.take (xs.length - n.natAbs) else xs.take n.toNat

/-- `xs[n:]`: a negative bound counts from the end. -/
def sliceFrom (xs : List α) (n : ℤ) : List α :=
  if n < 0 then xs.drop (xs.length - n.natAbs) else xs.drop n.toNat

theorem length_sliceTo_le (xs : List α) (n : ℤ) : (sliceTo xs n).length ≤ xs.length := by
  unfold sliceTo
  split_ifs <;> exact List.length_take_le' _ _

@[simp] theorem sliceTo_natCast (xs : List α) (n : ℕ) : sliceTo xs n = xs.take n := by
  rw [sliceTo, if_neg (Int.not_lt.mpr (Int.natCast_nonneg n)), Int.toNat_natCast]

@[simp] theorem sliceFrom_natCast (xs : List α) (n : ℕ) : sliceFrom xs n = xs.drop n := by
  rw [sliceFrom, if_neg (Int.not_lt.mpr (Int.natCast_nonneg n)), Int.toNat_natCast]

/-- The pieces that are whole within the first `n` items of the stream. -/
def wholePieces : List (List α) → ℕ → List (List α)
  | [], _ => []
  | piece :: pieces, n =>
    if piece.length ≤ n then piece :: wholePieces pieces (n - piece.length) else []

/-- What the first `n` items of the stream hold of the next piece. -/
def partialPiece : List (List α) → ℕ → List α
  | [], _ => []
  | piece :: pieces, n =>
    if piece.length ≤ n then partialPiece pieces (n - piece.length) else piece.take n

/-- The first items of a stream are the whole pieces and then the part of the next one. -/
theorem flatten_wholePieces_append (pieces : List (List α)) (n : ℕ) :
    (wholePieces pieces n).flatten ++ partialPiece pieces n = pieces.flatten.take n := by
  induction pieces generalizing n with
  | nil => simp [wholePieces, partialPiece]
  | cons piece pieces ih =>
    rw [wholePieces, partialPiece, List.flatten_cons, List.take_append]
    by_cases hle : piece.length ≤ n
    · rw [if_pos hle, if_pos hle, List.flatten_cons, List.append_assoc, ih,
        List.take_of_length_le hle]
    · rw [if_neg hle, if_neg hle, Nat.sub_eq_zero_of_le (by omega), List.take_zero,
        List.append_nil]
      rfl

/-- The whole pieces are the first ones of the stream. -/
theorem wholePieces_isPrefix (pieces : List (List α)) (n : ℕ) : wholePieces pieces n <+: pieces := by
  induction pieces generalizing n with
  | nil => exact List.prefix_refl []
  | cons piece pieces ih =>
    rw [wholePieces]
    split
    · exact (List.prefix_cons_inj piece).mpr (ih _)
    · exact List.nil_prefix

theorem wholePieces_zero {pieces : List (List α)} (hne : ∀ piece ∈ pieces, piece ≠ []) :
    wholePieces pieces 0 = [] := by
  cases pieces with
  | nil => rfl
  | cons piece pieces =>
    have hpos := List.length_pos_iff.mpr (hne piece List.mem_cons_self)
    rw [wholePieces, if_neg (by omega)]

theorem partialPiece_zero (pieces : List (List α)) : partialPiece pieces 0 = [] := by
  have h := flatten_wholePieces_append pieces 0
  rw [List.take_zero] at h
  exact (List.append_eq_nil_iff.mp h).2

end GrSatellites.Segmentation
