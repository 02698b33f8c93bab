import Mathlib.Data.Fintype.Card

/-!
# Transposed matrices

A matrix of `m` rows and `n` columns that is kept row by row has its item in row `r` and column `c`
at place `n * r + c`. In the transposed matrix this is the item in row `c` and column `r`, at
place `m * c + r`.
-/

namespace GrSatellites.Transpose

variable {m n i : ℕ}

/-- The place in the transposed matrix of the item at a place. -/
def place (m n i : ℕ) : ℕ := m * (i % n) + i / n

theorem pos_of_lt_mul (hi : i < m * n) : 0 < n := by
  by_contra hzero
  rw [Nat.eq_zero_of_not_pos hzero, Nat.mul_zero] at hi
  exact Nat.not_lt_zero i hi

theorem div_lt (hi : i < m * n) : i / n < m :=
  (Nat.div_lt_iff_lt_mul (pos_of_lt_mul hi)).mpr hi

theorem place_lt (hi : i < m * n) : place m n i < m * n := by
  have hrow := div_lt hi
  have hcol := Nat.mod_lt i (pos_of_lt_mul hi)
  calc m * (i % n) + i / n < m * (i % n) + m := Nat.add_lt_add_left hrow _
    _ = m * (i % n + 1) := (Nat.mul_succ _ _).symm
    _ ≤ m * n := Nat.mul_le_mul_left m hcol

/-- Transposing twice changes nothing. -/
theorem place_place (hi : i < m * n) : place n m (place m n i) = i := by
  have hrow := div_lt hi
  have hmod : place m n i % m = i / n := by
    rw [place, Nat.mul_add_mod, Nat.mod_eq_of_lt hrow]
  have hdiv : place m n i / m = i % n := by
    rw [place, Nat.mul_add_div (Nat.zero_lt_of_lt hrow), Nat.div_eq_of_lt hrow, Nat.add_zero]
  rw [place, hmod, hdiv, Nat.div_add_mod]

/-- The places of the transposed matrix, as a permutation. -/
def transpose (m n : ℕ) : Equiv.Perm (Fin (m * n)) where
  toFun i := ⟨place m n i, place_lt i.isLt⟩
  invFun i :=
    ⟨place n m i, (place_lt (i.isLt.trans_eq (Nat.mul_comm m n))).trans_eq (Nat.mul_comm n m)⟩
  left_inv i := Fin.ext (place_place i.isLt)
  right_inv i := Fin.ext (place_place (i.isLt.trans_eq (Nat.mul_comm m n)))

@[simp] theorem transpose_val (i : Fin (m * n)) : (transpose m n i : ℕ) = place m n i := rfl

end GrSatellites.Transpose
