import Mathlib.Data.Nat.Notation

/-!
# Words as byte strings

Fixed-length big-endian byte strings of a word, and the accumulation that reads one
back. The little-endian order is the reverse list.
-/

namespace GrSatellites.Endian

variable {w : ℕ}

/-- The low `k` bytes of a word, most significant first. -/
def bytesBE (k : ℕ) (x : BitVec w) : List (BitVec 8) :=
  (List.range k).map fun i => (x >>> (8 * (k - (i + 1)))).setWidth 8

/-- Read bytes into a word, most significant first. -/
def readBE (w : ℕ) (bytes : List (BitVec 8)) : BitVec w :=
  bytes.foldl (fun acc b => (acc <<< 8) ||| b.setWidth w) 0#w

@[simp] theorem length_bytesBE (k : ℕ) (x : BitVec w) : (bytesBE k x).length = k := by
  simp [bytesBE]

/-- A shorter shift is a longer one moved back up, with the byte between filled in. -/
theorem shiftLeft_or_byte (x : BitVec w) (n : ℕ) :
    ((x >>> (n + 8)) <<< 8) ||| ((x >>> n).setWidth 8).setWidth w = x >>> n := by
  apply BitVec.eq_of_getLsbD_eq
  intro i hi
  simp only [BitVec.getLsbD_or, BitVec.getLsbD_shiftLeft, BitVec.getLsbD_ushiftRight,
    BitVec.getLsbD_setWidth]
  by_cases hlow : i < 8
  · simp [hi, hlow]
  · simp [hi, hlow, show n + 8 + (i - 8) = n + i by omega]

/-- Reading the first `j` of `k` bytes leaves the word shifted down by the others. -/
theorem readBE_take_bytesBE {x : BitVec w} {k j : ℕ} (hx : x >>> (8 * k) = 0#w) (hj : j ≤ k) :
    readBE w ((bytesBE k x).take j) = x >>> (8 * (k - j)) := by
  induction j with
  | zero => simp [readBE, hx]
  | succ j ih =>
    have hlast : (bytesBE k x)[j]? = some ((x >>> (8 * (k - (j + 1)))).setWidth 8) := by
      simp [bytesBE, List.getElem?_range (show j < k by omega)]
    have hshift : 8 * (k - j) = 8 * (k - (j + 1)) + 8 := by omega
    rw [List.take_add_one, hlast, Option.toList_some, readBE, List.foldl_append, ← readBE,
      ih (by omega), hshift]
    exact shiftLeft_or_byte x _

/-- A word that fits into `k` bytes is read back from them. -/
theorem readBE_bytesBE {x : BitVec w} {k : ℕ} (hx : x >>> (8 * k) = 0#w) :
    readBE w (bytesBE k x) = x := by
  have h := readBE_take_bytesBE hx k.le_refl
  rwa [List.take_of_length_le (by simp), Nat.sub_self, Nat.mul_zero, BitVec.ushiftRight_zero] at h

end GrSatellites.Endian
