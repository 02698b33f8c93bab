import GrSatellites.Basic
import GrSatellites.Library.BitStruct

/-!
# The CCSDS randomizer

The scrambling sequence of `lib/randomizer.c`, and its sum with some data.
-/

namespace GrSatellites.Fec

/-- The loop body of `ccsds_generate_sequence`, on the registers `x[1]` to `x[8]`. -/
def ccsdsShift (x : List Bool) : List Bool :=
  x.tail ++ [x.getD 7 false ^^ x.getD 5 false ^^ x.getD 3 false ^^ x.getD 0 false]

/-- The bits of the sequence. -/
def ccsdsBits : ℕ → List Bool → List Bool
  | 0, _ => []
  | n + 1, x => x.getD 0 false :: ccsdsBits n (ccsdsShift x)

/-- `ccsds_generate_sequence`. -/
def ccsdsGenerateSequence (length : ℕ) : List Byte :=
  Bits.packMsb (ccsdsBits (length * 8) (List.replicate 8 true))

/-- `ccsds_xor_sequence`: the first bytes of the data are scrambled in place. -/
def ccsdsXorSequence (data sequence : List Byte) (length : ℕ) : List Byte :=
  List.zipWith (· ^^^ ·) (data.take length) sequence ++ data.drop length

theorem length_ccsdsBits (n : ℕ) (x : List Bool) : (ccsdsBits n x).length = n := by
  induction n generalizing x with
  | zero => rfl
  | succ n ih => rw [ccsdsBits, List.length_cons, ih]

theorem length_ccsdsGenerateSequence (length : ℕ) :
    (ccsdsGenerateSequence length).length = length := by
  rw [ccsdsGenerateSequence, Bits.length_packMsb, length_ccsdsBits, Nat.mul_div_cancel _ (by decide)]

variable {data data' sequence : List Byte} {length used : ℕ}

@[simp] theorem length_ccsdsXorSequence (hsequence : length ≤ sequence.length) :
    (ccsdsXorSequence data sequence length).length = data.length := by
  rw [ccsdsXorSequence, List.length_append, List.length_zipWith, List.length_take, List.length_drop]
  omega

/-- The first bytes scrambled depend on the first bytes of the data only. -/
theorem take_ccsdsXorSequence (hsequence : length ≤ sequence.length)
    (hlength : data.length = data'.length) (h : data.take used = data'.take used) :
    (ccsdsXorSequence data sequence length).take used =
      (ccsdsXorSequence data' sequence length).take used := by
  have hscrambled : (data.take length).take used = (data'.take length).take used := by
    rw [List.take_take, Nat.min_comm, ← List.take_take, h, List.take_take, Nat.min_comm,
      ← List.take_take]
  have hrest : (data.drop length).take (used - length) = (data'.drop length).take (used - length) := by
    rw [← List.drop_take, h, List.drop_take]
  rw [ccsdsXorSequence, ccsdsXorSequence, List.take_append, List.take_append, List.take_zipWith,
    List.take_zipWith, hscrambled, List.length_zipWith, List.length_zipWith, List.length_take,
    List.length_take, hlength]
  rcases Nat.lt_or_ge data'.length length with hshort | hlong
  · rw [List.drop_of_length_le hshort.le, List.drop_of_length_le (hlength ▸ hshort.le)]
  · rw [Nat.min_eq_left hlong, Nat.min_eq_left hsequence, hrest]

/-- The bytes that are scrambled. -/
theorem take_ccsdsXorSequence_self (hsequence : length ≤ sequence.length)
    (hdata : length ≤ data.length) : (ccsdsXorSequence data sequence length).take length =
      List.zipWith (· ^^^ ·) (data.take length) sequence := by
  rw [ccsdsXorSequence, List.take_left']
  rw [List.length_zipWith, List.length_take]
  omega

/-- Scrambling again takes the sequence away, and leaves errors that were added. -/
theorem zipWith_xor_sequence (errors : List Byte) (hdata : data.length = errors.length)
    (hsequence : data.length ≤ sequence.length) :
    List.zipWith (· ^^^ ·) (List.zipWith (· ^^^ ·) (List.zipWith (· ^^^ ·) data sequence) errors)
      sequence = List.zipWith (· ^^^ ·) data errors := by
  induction data generalizing errors sequence with
  | nil => rfl
  | cons byte data ih =>
    cases errors with
    | nil => cases hdata
    | cons error errors =>
      cases sequence with
      | nil => exact absurd hsequence (Nat.not_succ_le_zero _)
      | cons mask sequence =>
        simp only [List.zipWith_cons_cons, List.length_cons] at hdata hsequence ⊢
        rw [ih errors (by omega) (by omega)]
        congr 1
        rw [BitVec.xor_assoc, BitVec.xor_comm error, ← BitVec.xor_assoc, BitVec.xor_assoc byte,
          BitVec.xor_self, BitVec.xor_zero]

end GrSatellites.Fec
