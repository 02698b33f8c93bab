import GrSatellites.Crc.Table

/-!
# The bit-at-a-time definition

A CRC is defined by a shift register that takes one bit per clock. `bitwiseCrc` is
that definition on 64-bit words, for both bit orders. The table-driven `compute`
agrees with it for every width, polynomial and byte string; both are views of the
register of `GrSatellites.Lfsr`.
-/

namespace GrSatellites.Crc

open Bits Lfsr

/-- The word whose low `n` bits are those of `word` in reverse order. -/
def reverseBits (n : ℕ) (word : Word) : Word := (word.setWidth n).reverse.setWidth 64

/-- Shift one bit of the message into an `n`-bit register kept in a word. -/
def shiftBit (n : ℕ) (poly : Word) (reflected : Bool) (reg : Word) (b : Bool) : Word :=
  if reflected then
    (reg >>> 1) ^^^ (if reg.getLsbD 0 ^^ b then reverseBits n poly else 0)
  else
    ((reg <<< 1) ^^^ (if reg.getLsbD (n - 1) ^^ b then poly else 0)) &&& BitVec.ofNat 64 (2 ^ n - 1)

/-- The CRC of a byte string, one bit at a time. The register starts at the initial
value cut to `n` bits; bytes enter LSB first if the input is reflected and MSB first
if not. -/
def bitwiseCrc (n : ℕ) (poly initialValue finalXor : Word)
    (inputReflected resultReflected : Bool) (data : List Byte) : Word :=
  let mask := BitVec.ofNat 64 (2 ^ n - 1)
  let reg := (data.flatMap (byteBits inputReflected)).foldl (shiftBit n poly inputReflected)
    (initialValue &&& mask)
  (if inputReflected ≠ resultReflected then reverseBits n reg else reg) ^^^ (finalXor &&& mask)

section

variable {w : Width} {poly : Word}

theorem maskOf_eq_ofNat (w : Width) : maskOf w = BitVec.ofNat 64 (2 ^ w.bits - 1) := by
  apply BitVec.eq_of_getLsbD_eq
  intro i hi
  rw [getLsbD_maskOf, BitVec.getLsbD_ofNat, Nat.testBit_two_pow_sub_one]
  simp [hi]

theorem reflect_eq_reverseBits (w : Width) (word : Word) :
    reflect w word = reverseBits w.bits word := by
  apply BitVec.eq_of_getLsbD_eq
  intro i hi
  rw [getLsbD_reflect, reverseBits, BitVec.getLsbD_setWidth, ← feedback, getLsbD_feedback]
  simp [hi]

theorem shiftBit_toWord (reflected : Bool) (r : BitVec w.bits) (b : Bool) :
    shiftBit w.bits poly reflected (toWord reflected r) b =
      toWord reflected (feed (feedback w poly) r b) := by
  cases reflected with
  | true => rw [shiftBit, if_pos rfl, ← reflect_eq_reverseBits, feed_reflected]
  | false =>
    rw [shiftBit, if_neg Bool.false_ne_true, ← maskOf_eq_ofNat,
      feed_direct w poly (toWord_and_maskOf w false r)]

theorem foldl_shiftBit_toWord (w : Width) (poly : Word) (reflected : Bool) (bits : List Bool)
    (r : BitVec w.bits) :
    bits.foldl (shiftBit w.bits poly reflected) (toWord reflected r) =
      toWord reflected (feedAll (feedback w poly) r bits) := by
  induction bits generalizing r with
  | nil => rfl
  | cons b bits ih => rw [List.foldl_cons, shiftBit_toWord, ih, feedAll_cons]

/-- The index that an update forms has the bits that are about to leave the register,
each added to the message bit that enters with it. -/
theorem remainder_index (reflected : Bool) {r : BitVec w.bits} {byte idx : Byte}
    (hidx : byteBits reflected idx = List.zipWith xor (lowBits r 8) (byteBits reflected byte)) :
    remainder w poly reflected idx.toNat ^^^ toWord reflected (r >>> 8) =
      toWord reflected (feedAll (feedback w poly) r (byteBits reflected byte)) := by
  have hge := w.ge
  rw [feedAll_eq_lookup _ r (by rw [length_byteBits]; exact hge), length_byteBits, toWord_xor,
    ← hidx, remainder, BitVec.ofNat_toNat, BitVec.setWidth_eq]

variable {initialValue finalXor : Word} {resultReflected : Bool}

/-- One round of the reflected loop feeds one byte, LSB first. -/
theorem updateReflected_toWord (r : BitVec w.bits) (byte : Byte) :
    (ofWidth w poly initialValue finalXor true resultReflected).updateReflected
        (toWord true r) byte =
      toWord true (feedAll (feedback w poly) r (byteBits true byte)) := by
  have hle := w.le
  have hshift : shr (toWord true r) 8 = toWord true (r >>> 8) := by
    apply BitVec.eq_of_getLsbD_eq
    intro i _
    rw [shr, BitVec.getLsbD_ushiftRight, getLsbD_toWord_true hle, getLsbD_toWord_true hle,
      BitVec.getLsbD_ushiftRight]
    rfl
  unfold updateReflected
  simp only [ofWidth]
  rw [entry_buildTable true (BitVec.isLt _), hshift]
  apply remainder_index
  apply List.ext_getElem
  · simp
  · intro i hi _
    have hi : i < 8 := by simpa using hi
    have hff : (0xff : Word).getLsbD i = true := by
      have h : ∀ i : Fin 8, (0xff : Word).getLsbD i = true := by decide
      exact h ⟨i, hi⟩
    simp only [byteBits, lsbBits, if_true, List.getElem_map, List.getElem_range, List.getElem_zipWith,
      lowBits, BitVec.getLsbD_setWidth, BitVec.getLsbD_and, BitVec.getLsbD_xor,
      getLsbD_toWord_true hle, hff, Bool.and_true]
    simp [hi, show i < 64 by omega]

/-- One round of the other loop feeds one byte, MSB first. -/
theorem updateDirect_toWord (r : BitVec w.bits) (byte : Byte) :
    (ofWidth w poly initialValue finalXor false resultReflected).updateDirect
        (toWord false r) byte =
      toWord false (feedAll (feedback w poly) r (byteBits false byte)) := by
  have hle := w.le
  have hge := w.ge
  have hshift : shl (toWord false r) 8 &&& maskOf w = toWord false (r >>> 8) := by
    apply BitVec.eq_of_getLsbD_eq
    intro i hi
    rw [shl, BitVec.getLsbD_and, getLsbD_maskOf, BitVec.getLsbD_shiftLeft,
      getLsbD_toWord_false hle, getLsbD_toWord_false hle, BitVec.getLsbD_ushiftRight]
    by_cases hlow : i < 8
    · simp [hlow, BitVec.getLsbD_of_ge r (8 + (w.bits - 1 - i)) (by omega)]
    · by_cases hlt : i < w.bits
      · simp [hlow, hlt, hi, show i - 8 < w.bits by omega,
          show w.bits - 1 - (i - 8) = 8 + (w.bits - 1 - i) by omega]
      · simp [hlt]
  unfold updateDirect
  simp only [ofWidth]
  rw [xor_and_distrib, hshift, entry_buildTable false (BitVec.isLt _), remainder_and_maskOf]
  apply remainder_index
  apply List.ext_getElem
  · simp
  · intro i hi _
    have hi : i < 8 := by simpa using hi
    have hff : (0xff : Word).getLsbD (7 - i) = true := by
      have h : ∀ i : Fin 8, (0xff : Word).getLsbD (7 - i) = true := by decide
      exact h ⟨i, hi⟩
    have hplace : w.bits - 1 - (w.bits - 8 + (7 - i)) = i := by omega
    simp only [byteBits, msbBits, Bool.false_eq_true, if_false, List.getElem_map, List.getElem_range,
      List.getElem_zipWith, lowBits, BitVec.getMsbD_eq_getLsbD, BitVec.getLsbD_setWidth,
      BitVec.getLsbD_and, BitVec.getLsbD_xor, shr, BitVec.getLsbD_ushiftRight,
      getLsbD_toWord_false hle, hplace, hff, Bool.and_true]
    simp [hi, show 7 - i < 8 by omega, show 7 - i < 64 by omega,
      show w.bits - 8 + (7 - i) < w.bits by omega]

theorem foldl_update_toWord {update : Word → Byte → Word} {reflected : Bool}
    (hupdate : ∀ (r : BitVec w.bits) byte, update (toWord reflected r) byte =
      toWord reflected (feedAll (feedback w poly) r (byteBits reflected byte)))
    (data : List Byte) (r : BitVec w.bits) :
    data.foldl update (toWord reflected r) =
      toWord reflected (feedAll (feedback w poly) r (data.flatMap (byteBits reflected))) := by
  induction data generalizing r with
  | nil => rfl
  | cons byte data ih => rw [List.foldl_cons, hupdate, ih, List.flatMap_cons, feedAll_append]

/-- What `compute` makes of the final register: a reflection if the two flags differ,
and the final XOR. -/
def finish (w : Width) (finalXor : Word) (inputReflected resultReflected : Bool)
    (r : BitVec w.bits) : Word :=
  (if inputReflected ≠ resultReflected then toWord (!inputReflected) r
    else toWord inputReflected r) ^^^ (finalXor &&& maskOf w)

/-- The loop of `compute`, for either order of the input bits. -/
theorem loop_eq_toWord {inputReflected : Bool} {r : BitVec w.bits} {c : Crc}
    (hc : ofWidth w poly initialValue finalXor inputReflected resultReflected = c)
    (hr : initialValue &&& maskOf w = toWord inputReflected r) (data : List Byte) :
    (if c.inputReflected then data.foldl c.updateReflected c.initialValue
      else data.foldl c.updateDirect c.initialValue) =
      toWord inputReflected
        (feedAll (feedback w poly) r (data.flatMap (byteBits inputReflected))) := by
  have hinit : c.initialValue = toWord inputReflected r := by rw [← hc, ← hr, ofWidth]
  rw [hinit, ← hc]
  cases inputReflected with
  | true => exact foldl_update_toWord updateReflected_toWord data r
  | false => exact foldl_update_toWord updateDirect_toWord data r

/-- `compute` feeds the message to the register that holds the initial value. -/
theorem compute_eq_finish {inputReflected : Bool} {r : BitVec w.bits}
    (hr : initialValue &&& maskOf w = toWord inputReflected r) (data : List Byte) :
    (ofWidth w poly initialValue finalXor inputReflected resultReflected).compute data =
      finish w finalXor inputReflected resultReflected
        (feedAll (feedback w poly) r (data.flatMap (byteBits inputReflected))) := by
  unfold compute
  simp only [loop_eq_toWord rfl hr data]
  split
  · next h =>
    rw [finish, if_pos (show inputReflected ≠ resultReflected from h)]
    exact congrArg (· ^^^ _) (reflect_toWord w _ _)
  · next h =>
    rw [finish, if_neg (show ¬ inputReflected ≠ resultReflected from h)]
    rfl

end

/-- The object for a width computes the bit-at-a-time definition. -/
theorem ofWidth_compute (w : Width) (poly initialValue finalXor : Word)
    (inputReflected resultReflected : Bool) (data : List Byte) :
    (ofWidth w poly initialValue finalXor inputReflected resultReflected).compute data =
      bitwiseCrc w.bits poly initialValue finalXor inputReflected resultReflected data := by
  obtain ⟨r, hr⟩ := exists_toWord w inputReflected initialValue
  have hfold := foldl_shiftBit_toWord w poly inputReflected
    (data.flatMap (byteBits inputReflected)) r
  simp only [compute_eq_finish hr, bitwiseCrc]
  rw [← maskOf_eq_ofNat w, hr, hfold, finish]
  congr 1
  split
  · rw [← reflect_eq_reverseBits w, reflect_toWord]
  · rfl

/-- **The table-driven CRC is the bitwise CRC.** For every width from 8 to 64 the
constructor succeeds, every shift amount that depends on the width is in range, and
`compute` equals the bit-at-a-time definition on every byte string. -/
theorem compute_eq_bitwiseCrc {numBits : ℕ} (hge : 8 ≤ numBits) (hle : numBits ≤ 64)
    (poly initialValue finalXor : Word) (inputReflected resultReflected : Bool) :
    ∃ c, crc numBits poly initialValue finalXor inputReflected resultReflected = .ok c ∧
      (c.numBits.bits - 1 < 64 ∧ c.numBits.bits - 8 < 64 ∧
        (c.numBits.bits ≠ 64 → c.numBits.bits < 64)) ∧
      ∀ data, c.compute data =
        bitwiseCrc numBits poly initialValue finalXor inputReflected resultReflected data := by
  refine ⟨ofWidth ⟨numBits, hge, hle⟩ poly initialValue finalXor inputReflected resultReflected,
    ?_, ?_, ?_⟩
  · rw [crc, dif_neg (by omega)]
  · simp only [ofWidth]
    omega
  · exact ofWidth_compute ⟨numBits, hge, hle⟩ poly initialValue finalXor inputReflected
      resultReflected

/-- The CRC of AX.25 frames, which both HDLC blocks use. -/
theorem compute_eq_bitwiseCrc_x25 :
    ∃ c, crc 16 0x1021 0xFFFF 0xFFFF true true = .ok c ∧
      (c.numBits.bits - 1 < 64 ∧ c.numBits.bits - 8 < 64 ∧
        (c.numBits.bits ≠ 64 → c.numBits.bits < 64)) ∧
      ∀ data, c.compute data = bitwiseCrc 16 0x1021 0xFFFF 0xFFFF true true data :=
  compute_eq_bitwiseCrc (by decide) (by decide) 0x1021 0xFFFF 0xFFFF true true

end GrSatellites.Crc
