import GrSatellites.Golay24.Correction

/-!
# The words that the Golay decoder accepts

The words of syndrome zero are the codewords. The decoder accepts the words within distance
three of a codeword, and these only.
-/

namespace GrSatellites.Golay24

open Weight

/-- What `decode_golay24` returns, and the word that it leaves in `*data`. -/
def decodeResult (data : BitVec 32) : ℤ × BitVec 32 :=
  match decodeGolay24 data with
  | none => (-1, data)
  | some (corrected, errors) => (errors, corrected)

/-- A word of 24 bits with syndrome zero. -/
def IsCodeword (c : BitVec 24) : Prop := (product h (c.setWidth 32) : BitVec 16) = 0

theorem setWidth_eq_zero_iff {x : BitVec 12} : (x.setWidth 16 : BitVec 16) = 0 ↔ x = 0#12 := by
  constructor
  · intro hzero
    have hback := congrArg (BitVec.setWidth 12) hzero
    rwa [BitVec.setWidth_setWidth (by decide), BitVec.setWidth_eq] at hback
  · rintro rfl
    rfl

/-- The high half of a codeword is given by the low one. -/
theorem isCodeword_append {x y : BitVec 12} : IsCodeword (x ++ y) ↔ x = mulB y := by
  rw [IsCodeword, ← word, product_h, setWidth_eq_zero_iff, BitVec.xor_eq_zero_iff]

/-- A word has the syndrome of its difference to a codeword. -/
theorem syndrome_eq {x y x' y' : BitVec 12} (hcodeword : IsCodeword (x' ++ y')) :
    x ^^^ mulB y = (x' ^^^ x) ^^^ mulB (y' ^^^ y) := by
  rw [isCodeword_append.mp hcodeword, mulB_xor, BitVec.xor_comm (mulB y') x, BitVec.xor_assoc,
    ← BitVec.xor_assoc (mulB y'), BitVec.xor_self, BitVec.zero_xor]

/-- **Within distance three.** A codeword that is near is what the decoder leaves. -/
theorem decodeGolay24_of_near {r c : BitVec 24} (hcodeword : IsCodeword c)
    (hnear : weight (c ^^^ r) ≤ 3) :
    decodeGolay24 (r.setWidth 32) = some (c.setWidth 32, weight (c ^^^ r)) := by
  obtain ⟨x, y, rfl⟩ := exists_append r
  obtain ⟨x', y', rfl⟩ := exists_append c
  rw [BitVec.xor_append, weight_append] at hnear
  have hback {a b : BitVec 12} : b ^^^ (a ^^^ b) = a := by
    rw [BitVec.xor_comm, BitVec.xor_assoc, BitVec.xor_self, BitVec.xor_zero]
  rw [decodeGolay24, ← word, product_h, syndrome_eq hcodeword, errorVector_eq hnear, Option.map_some,
    word_xor, hback, hback, weight_word, BitVec.xor_append, weight_append, ← word]

/-- What the decoder leaves is a near codeword. -/
theorem near_of_decodeGolay24 {r : BitVec 24} {corrected : BitVec 32} {errors : ℕ}
    (hdecode : decodeGolay24 (r.setWidth 32) = some (corrected, errors)) :
    ∃ c, IsCodeword c ∧ weight (c ^^^ r) ≤ 3 := by
  obtain ⟨x, y, rfl⟩ := exists_append r
  rw [decodeGolay24, ← word, product_h] at hdecode
  have hspec := errorVector_spec (x ^^^ mulB y)
  cases he : errorVector ((x ^^^ mulB y).setWidth 16) with
  | none =>
    rw [he] at hdecode
    cases hdecode
  | some e =>
    rw [he] at hspec
    obtain ⟨a, b, -, hsyndrome, hweight⟩ := hspec
    refine ⟨(x ^^^ a) ++ (y ^^^ b), ?_, ?_⟩
    · rw [isCodeword_append, mulB_xor, ← BitVec.xor_eq_zero_iff]
      have hzero : x ^^^ mulB y ^^^ (a ^^^ mulB b) = 0#12 := by rw [hsyndrome, BitVec.xor_self]
      rw [← hzero]
      ac_rfl
    · have hdrop {a b : BitVec 12} : (a ^^^ b) ^^^ a = b := by
        rw [BitVec.xor_comm a, BitVec.xor_assoc, BitVec.xor_self, BitVec.xor_zero]
      rw [BitVec.xor_append, hdrop, hdrop, weight_append]
      exact hweight

/-- A codeword is its 12-bit message below the parity bits. -/
theorem exists_encodeGolay24 (m : BitVec 12) :
    ∃ c, IsCodeword c ∧ encodeGolay24 (m.setWidth 32) = c.setWidth 32 ∧ c.setWidth 12 = m := by
  refine ⟨mulB m ++ m, isCodeword_append.mpr rfl, ?_, ?_⟩
  · rw [encodeGolay24_eq, BitVec.setWidth_setWidth (by decide), BitVec.setWidth_eq, word]
  · rw [BitVec.setWidth_append]
    simp

/-- **The codec.** A message is encoded as a codeword that holds it in the low bits. The
decoder returns a number of errors if and only if a codeword lies within distance three, which
it then leaves with its distance; otherwise it leaves the word as it is. So every message is
recovered from three errors or fewer. -/
theorem codec_correct :
    (∀ m : BitVec 12, ∃ c, IsCodeword c ∧ encodeGolay24 (m.setWidth 32) = c.setWidth 32 ∧
      c.setWidth 12 = m) ∧
    (∀ r : BitVec 24,
      (0 ≤ (decodeResult (r.setWidth 32)).1 ↔ ∃ c, IsCodeword c ∧ weight (c ^^^ r) ≤ 3) ∧
      (∀ c, IsCodeword c → weight (c ^^^ r) ≤ 3 →
        decodeResult (r.setWidth 32) = ((weight (c ^^^ r) : ℤ), c.setWidth 32)) ∧
      ((decodeResult (r.setWidth 32)).1 < 0 →
        (decodeResult (r.setWidth 32)).2 = r.setWidth 32)) ∧
    ∀ (m : BitVec 12) (e : BitVec 24), weight e ≤ 3 →
      decodeResult (encodeGolay24 (m.setWidth 32) ^^^ e.setWidth 32) =
        ((weight e : ℤ), encodeGolay24 (m.setWidth 32)) := by
  refine ⟨exists_encodeGolay24, fun r => ⟨?_, ?_, ?_⟩, ?_⟩
  · unfold decodeResult
    cases hdecode : decodeGolay24 (r.setWidth 32) with
    | none =>
      refine ⟨fun hneg => by simp at hneg, ?_⟩
      rintro ⟨c, hcodeword, hnear⟩
      rw [decodeGolay24_of_near hcodeword hnear] at hdecode
      cases hdecode
    | some result => exact ⟨fun _ => near_of_decodeGolay24 hdecode, fun _ => Int.natCast_nonneg _⟩
  · intro c hcodeword hnear
    rw [decodeResult, decodeGolay24_of_near hcodeword hnear]
  · intro hneg
    unfold decodeResult at hneg ⊢
    cases hdecode : decodeGolay24 (r.setWidth 32) with
    | none => rfl
    | some result =>
      rw [hdecode] at hneg
      exact absurd (Int.natCast_nonneg _) (not_le.mpr hneg)
  · intro m e he
    rw [decodeResult, decodeGolay24_encodeGolay24 _ he]

end GrSatellites.Golay24
