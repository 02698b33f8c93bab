import GrSatellites.Basic

/-!
# The Reed-Solomon code of libfec

The functions `encode_rs_8` and `decode_rs_8` of `lib/libfec` work on the (255,223) code,
shortened by some padding. What they compute on the symbols of a word is a parameter; which
symbols these are, and the test of the padding, is modelled here.
-/

namespace GrSatellites.Fec

/-- `NN`. -/
def nn : ℕ := 255

/-- `NROOTS`. -/
def nroots : ℕ := 32

/-- What the loops of the codec compute: the parity symbols of the data, and of the symbols of
a word the corrected ones with the number of errors, or nothing. -/
structure Rs8 where
  encode : List Byte → List Byte
  decode : List Byte → Option (List Byte × ℕ)
  length_encode : ∀ data, (encode data).length = nroots
  length_decode : ∀ {word corrected : List Byte} {count : ℕ},
    decode word = some (corrected, count) → corrected.length = word.length

namespace Rs8

variable (rs : Rs8)

/-- `decode_rs_8`: the data with the symbols corrected in place, and the number of errors. A
negative result leaves the data as it is. -/
def decodeRs8 (data : List Byte) (pad : ℤ) : Option (List Byte × ℕ) :=
  if pad < 0 ∨ 222 < pad then none
  else
    let symbols := nn - pad.toNat
    (rs.decode (data.take symbols)).map fun (corrected, count) =>
      (corrected ++ data.drop symbols, count)

/-- `encode_rs_8`: the parity symbols. -/
def encodeRs8 (data : List Byte) (pad : ℤ) : List Byte :=
  rs.encode (data.take ((nn - nroots : ℕ) - pad).toNat)

theorem length_decodeRs8 {data corrected : List Byte} {pad : ℤ} {count : ℕ}
    (h : rs.decodeRs8 data pad = some (corrected, count)) : corrected.length = data.length := by
  rw [decodeRs8] at h
  split at h
  case isTrue => cases h
  case isFalse =>
    obtain ⟨⟨symbols, _⟩, hdecode, hresult⟩ := Option.map_eq_some_iff.mp h
    cases hresult
    rw [List.length_append, rs.length_decode hdecode, List.length_take, List.length_drop]
    omega

/-- The decoder uses the symbols of the word and no others. -/
theorem decodeRs8_congr {data data' : List Byte} {pad : ℤ} {used : ℕ}
    (hused : nn - pad.toNat ≤ used) (h : data.take used = data'.take used) :
    (rs.decodeRs8 data pad).map (fun r => (r.1.take used, r.2)) =
      (rs.decodeRs8 data' pad).map (fun r => (r.1.take used, r.2)) := by
  rw [decodeRs8, decodeRs8]
  split
  case isTrue => rfl
  case isFalse =>
    have hword : data.take (nn - pad.toNat) = data'.take (nn - pad.toNat) := by
      rw [← Nat.min_eq_left hused, ← List.take_take, ← List.take_take, h]
    have hrest : (data.drop (nn - pad.toNat)).take (used - (nn - pad.toNat)) =
        (data'.drop (nn - pad.toNat)).take (used - (nn - pad.toNat)) := by
      rw [← List.drop_take, ← List.drop_take, h]
    simp only [hword, Option.map_map]
    cases hdecode : rs.decode (data'.take (nn - pad.toNat)) with
    | none => rfl
    | some result =>
      obtain ⟨corrected, count⟩ := result
      have hcorrected := rs.length_decode hdecode
      rw [List.length_take] at hcorrected
      simp only [Option.map_some, Function.comp, Option.some_inj, Prod.mk.injEq, and_true]
      rw [List.take_append, List.take_append, hcorrected]
      rcases Nat.lt_or_ge data'.length (nn - pad.toNat) with hshort | hlong
      · have hshort' : data.length < nn - pad.toNat := by
          have hlength := congrArg List.length hword
          rw [List.length_take, List.length_take] at hlength
          omega
        rw [List.drop_of_length_le hshort.le, List.drop_of_length_le hshort'.le]
      · rw [Nat.min_eq_left hlong, hrest]

/-- The code corrects words of some data: up to sixteen symbol errors are taken away and
counted. -/
def Corrects (data : List Byte) : Prop :=
  ∀ errors : List Byte, errors.length = data.length + nroots → errors.countP (· ≠ 0) ≤ 16 →
    rs.decode (List.zipWith (· ^^^ ·) (data ++ rs.encode data) errors) =
      some (data ++ rs.encode data, errors.countP (· ≠ 0))

/-- A code with one codeword, zero. Near zero it does what any linear code does. -/
def zero : Rs8 where
  encode _ := List.replicate nroots 0
  decode word :=
    if word.countP (· ≠ 0) ≤ 16 then some (List.replicate word.length 0, word.countP (· ≠ 0))
    else none
  length_encode _ := List.length_replicate
  length_decode h := by
    rw [Option.ite_none_right_eq_some] at h
    obtain ⟨_, h⟩ := h
    cases h
    exact List.length_replicate

theorem zero_corrects (n : ℕ) : zero.Corrects (List.replicate n 0) := by
  intro errors hlength hcount
  have hsum : List.zipWith (· ^^^ ·) (List.replicate n 0 ++ zero.encode (List.replicate n 0))
      errors = errors := by
    refine List.ext_getElem (by simp [zero, hlength]) fun i hi hi' => ?_
    simp [zero]
  rw [hsum]
  refine (if_pos hcount).trans ?_
  rw [hlength, zero, List.replicate_append_replicate, List.length_replicate]

end Rs8

end GrSatellites.Fec
