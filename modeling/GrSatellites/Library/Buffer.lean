import Mathlib.Data.List.Basic

/-!
# Work buffers

A buffer that a block keeps and partly overwrites. What was written is read back, and what
was not is still there.
-/

namespace GrSatellites.Buffer

variable {α : Type} {buffer xs : List α} {n : ℕ}

/-- As many of the items as fit, written to the start of a buffer. -/
def copyInto (buffer xs : List α) : List α :=
  let length := min xs.length buffer.length
  xs.take length ++ buffer.drop length

/-- Items written to a place in a buffer. -/
def writeAt (buffer : List α) (offset : ℕ) (xs : List α) : List α :=
  buffer.take offset ++ xs ++ buffer.drop (offset + xs.length)

@[simp] theorem length_copyInto (buffer xs : List α) :
    (copyInto buffer xs).length = buffer.length := by
  rw [copyInto, List.length_append, List.length_take, List.length_drop]
  omega

/-- The items that fit are read back. -/
theorem take_copyInto (hxs : n ≤ xs.length) (hbuffer : n ≤ buffer.length) :
    (copyInto buffer xs).take n = xs.take n := by
  rw [copyInto, List.take_append_of_le_length, List.take_take]
  · congr 1
    omega
  · rw [List.length_take]
    omega

theorem length_writeAt {offset : ℕ} (h : offset + xs.length ≤ buffer.length) :
    (writeAt buffer offset xs).length = buffer.length := by
  rw [writeAt, List.length_append, List.length_append, List.length_take, List.length_drop]
  omega

/-- The buffer up to the end of the items written. -/
theorem take_writeAt {offset : ℕ} (h : offset ≤ buffer.length) :
    (writeAt buffer offset xs).take (offset + xs.length) = buffer.take offset ++ xs := by
  rw [writeAt, List.take_left']
  rw [List.length_append, List.length_take, Nat.min_eq_left h]

end GrSatellites.Buffer
