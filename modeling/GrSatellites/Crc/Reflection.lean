import GrSatellites.Crc.Bitwise

/-!
# Reflection of a CRC

The parameter `poly` is given MSB first and is reflected by the constructor for reflected
input. The parameter `initial_value` is the value of the register, which is not reflected. So
the two bit orders are dual to each other with the initial value reversed.
-/

namespace GrSatellites.Crc

open Bits Lfsr

/-- Reversed bytes are fed in the other order. -/
theorem flatMap_byteBits_reverse (data : List Byte) :
    (data.map BitVec.reverse).flatMap (byteBits false) = data.flatMap (byteBits true) := by
  rw [List.flatMap_map]
  refine List.flatMap_congr fun byte _ => ?_
  simp only [byteBits, msbBits, lsbBits, Bool.false_eq_true, if_false, if_true]
  exact List.map_congr_left fun i _ => BitVec.getMsbD_reverse

section

variable (w : Width) (poly finalXor : Word)

/-- With both flags set, the register starts at the initial value. -/
theorem compute_true_true (initialValue : Word) (data : List Byte) :
    (ofWidth w poly initialValue finalXor true true).compute data =
      toWord true (feedAll (feedback w poly) (initialValue.setWidth w.bits)
        (data.flatMap (byteBits true)) ^^^ finalXor.setWidth w.bits) := by
  rw [compute_eq_finish (and_maskOf_eq_toWord_true w initialValue), finish, if_neg (by simp),
    and_maskOf_eq_toWord_true, toWord_xor]

/-- With neither flag set, the register starts at the reversed initial value. The result for
the reversed message and the reversed final XOR comes out reversed. -/
theorem reverseBits_compute_false_false (initialValue : Word) (data : List Byte) :
    reverseBits w.bits ((ofWidth w poly initialValue (reverseBits w.bits finalXor) false
        false).compute (data.map BitVec.reverse)) =
      toWord true (feedAll (feedback w poly) (feedback w initialValue)
        (data.flatMap (byteBits true)) ^^^ finalXor.setWidth w.bits) := by
  have hxor : reverseBits w.bits finalXor &&& maskOf w =
      toWord false (finalXor.setWidth w.bits) := toWord_and_maskOf w false _
  rw [compute_eq_finish (and_maskOf_eq_toWord_false w initialValue), finish, if_neg (by simp), hxor,
    ← toWord_xor, ← reflect_eq_reverseBits, reflect_toWord, flatMap_byteBits_reverse]
  rfl

/-- A register that starts at a reversed value starts at the value. -/
theorem feedback_reverseBits (initialValue : Word) :
    feedback w (reverseBits w.bits initialValue) = initialValue.setWidth w.bits := by
  have hwidth : ((initialValue.setWidth w.bits).reverse.setWidth 64).setWidth w.bits =
      (initialValue.setWidth w.bits).reverse := by
    rw [BitVec.setWidth_setWidth_of_le _ w.le, BitVec.setWidth_eq]
  rw [feedback, reverseBits, hwidth, BitVec.reverse_reverse_eq]

theorem setWidth_eq_feedback_iff (initialValue : Word) :
    initialValue.setWidth w.bits = feedback w initialValue ↔
      ∀ i < w.bits, initialValue.getLsbD i = initialValue.getLsbD (w.bits - 1 - i) := by
  constructor
  · intro heq i hi
    have hbit := congrArg (BitVec.getLsbD · i) heq
    simp only [BitVec.getLsbD_setWidth, getLsbD_feedback, hi, decide_true, Bool.true_and] at hbit
    exact hbit
  · intro hpalindrome
    apply BitVec.eq_of_getLsbD_eq
    intro i hi
    rw [BitVec.getLsbD_setWidth, getLsbD_feedback, hpalindrome i hi]

end

/-- **Reflection.** The result for reflected input and output is the reversal of the result
for the reversed message, with the initial value and the final XOR reversed. With the initial
value left as it is, this holds of every message exactly if its bits read the same backwards. -/
theorem compute_reflected {numBits : ℕ} (hge : 8 ≤ numBits) (hle : numBits ≤ 64)
    (poly initialValue finalXor : Word) :
    ∃ c d e, crc numBits poly initialValue finalXor true true = .ok c ∧
      crc numBits poly (reverseBits numBits initialValue) (reverseBits numBits finalXor) false
        false = .ok d ∧
      crc numBits poly initialValue (reverseBits numBits finalXor) false false = .ok e ∧
      (∀ data, c.compute data = reverseBits numBits (d.compute (data.map BitVec.reverse))) ∧
      ((∀ data, c.compute data = reverseBits numBits (e.compute (data.map BitVec.reverse))) ↔
        ∀ i < numBits, initialValue.getLsbD i = initialValue.getLsbD (numBits - 1 - i)) := by
  have hok (initialValue finalXor : Word) (inputReflected resultReflected : Bool) :
      crc numBits poly initialValue finalXor inputReflected resultReflected =
        .ok (ofWidth ⟨numBits, hge, hle⟩ poly initialValue finalXor inputReflected
          resultReflected) := by
    rw [crc, dif_neg (by omega)]
  refine ⟨_, _, _, hok _ _ _ _, hok _ _ _ _, hok _ _ _ _, fun data => ?_, ?_⟩
  · have hdirect := reverseBits_compute_false_false ⟨numBits, hge, hle⟩ poly finalXor
      (reverseBits numBits initialValue) data
    rw [feedback_reverseBits ⟨numBits, hge, hle⟩] at hdirect
    rw [compute_true_true, hdirect]
  · rw [← setWidth_eq_feedback_iff ⟨numBits, hge, hle⟩]
    constructor
    · intro hdual
      have hnil := hdual []
      rw [compute_true_true,
        reverseBits_compute_false_false ⟨numBits, hge, hle⟩ poly finalXor] at hnil
      have hregister := toWord_inj hle hnil
      rw [BitVec.xor_left_inj] at hregister
      exact hregister
    · intro heq data
      rw [compute_true_true, heq,
        reverseBits_compute_false_false ⟨numBits, hge, hle⟩ poly finalXor]

/-- The CRC of AX.25 frames, whose initial value is all ones. -/
theorem compute_reflected_x25 :
    ∃ c d e, crc 16 0x1021 0xFFFF 0xFFFF true true = .ok c ∧
      crc 16 0x1021 (reverseBits 16 0xFFFF) (reverseBits 16 0xFFFF) false false = .ok d ∧
      crc 16 0x1021 0xFFFF (reverseBits 16 0xFFFF) false false = .ok e ∧
      (∀ data, c.compute data = reverseBits 16 (d.compute (data.map BitVec.reverse))) ∧
      ((∀ data, c.compute data = reverseBits 16 (e.compute (data.map BitVec.reverse))) ↔
        ∀ i < 16, (0xFFFF : Word).getLsbD i = (0xFFFF : Word).getLsbD (16 - 1 - i)) :=
  compute_reflected (by decide) (by decide) 0x1021 0xFFFF 0xFFFF

/-- A CRC with an initial value that is not the same backwards, for the digits 1 to 9. -/
theorem compute_reflected_ne :
    ∃ c e, crc 16 0x1021 0xB2AA 0 true true = .ok c ∧
      crc 16 0x1021 0xB2AA (reverseBits 16 0) false false = .ok e ∧
      c.compute [0x31, 0x32, 0x33, 0x34, 0x35, 0x36, 0x37, 0x38, 0x39] ≠
        reverseBits 16 (e.compute ([0x31, 0x32, 0x33, 0x34, 0x35, 0x36, 0x37, 0x38, 0x39].map
          BitVec.reverse)) := by
  refine ⟨_, _, rfl, rfl, ?_⟩
  rw [compute_true_true ⟨16, by decide, by decide⟩,
    reverseBits_compute_false_false ⟨16, by decide, by decide⟩ 0x1021 0]
  decide +kernel

end GrSatellites.Crc
