import GrSatellites.Crc.Model
import GrSatellites.Library.Lfsr

/-!
# Words as registers

The code keeps an `n`-bit register in a 64-bit word, with the bit that leaves next
lowest when the input is reflected and at place `n - 1` when it is not. Both are
views of one Galois register, and the same feedback word drives both.
-/

namespace GrSatellites.Crc

open Lfsr

section

variable {n : ℕ}

/-- The word in which the code keeps a register. -/
def toWord (reflected : Bool) (r : BitVec n) : Word :=
  if reflected then r.setWidth 64 else r.reverse.setWidth 64

theorem getLsbD_toWord_true (hn : n ≤ 64) (r : BitVec n) (i : ℕ) :
    (toWord true r).getLsbD i = r.getLsbD i := by
  simp only [toWord, if_true, BitVec.getLsbD_setWidth]
  by_cases hi : i < 64
  · simp [hi]
  · simp [BitVec.getLsbD_of_ge r i (by omega)]

theorem getLsbD_toWord_false (hn : n ≤ 64) (r : BitVec n) (i : ℕ) :
    (toWord false r).getLsbD i = (decide (i < n) && r.getLsbD (n - 1 - i)) := by
  simp only [toWord, Bool.false_eq_true, if_false, BitVec.getLsbD_setWidth,
    BitVec.getLsbD_reverse, BitVec.getMsbD_eq_getLsbD]
  by_cases hi : i < n
  · simp [hi, show i < 64 by omega]
  · simp [hi]

theorem toWord_xor (reflected : Bool) (a b : BitVec n) :
    toWord reflected (a ^^^ b) = toWord reflected a ^^^ toWord reflected b := by
  apply BitVec.eq_of_getLsbD_eq
  intro i _
  cases reflected
  · simp only [toWord, Bool.false_eq_true, if_false, BitVec.getLsbD_setWidth, BitVec.getLsbD_xor,
      BitVec.getLsbD_reverse, BitVec.getMsbD_xor]
    cases decide (i < 64) <;> rfl
  · simp [toWord]

@[simp] theorem toWord_zero (reflected : Bool) : toWord reflected (0#n) = 0 := by
  cases reflected <;> simp [toWord, BitVec.reverse_eq_zero_iff.mpr]

/-- A word determines the register it holds. -/
theorem toWord_inj (hn : n ≤ 64) {reflected : Bool} {a b : BitVec n}
    (h : toWord reflected a = toWord reflected b) : a = b := by
  apply BitVec.eq_of_getLsbD_eq
  intro i hi
  cases reflected with
  | true =>
    rw [← getLsbD_toWord_true hn a, h, getLsbD_toWord_true hn b]
  | false =>
    have hbit := congrArg (fun word : Word => word.getLsbD (n - 1 - i)) h
    simpa [getLsbD_toWord_false hn, show n - 1 - i < n by omega,
      show n - 1 - (n - 1 - i) = i by omega] using hbit

end

theorem xor_and_distrib (a b mask : Word) :
    (a ^^^ b) &&& mask = (a &&& mask) ^^^ (b &&& mask) := by
  apply BitVec.eq_of_getLsbD_eq
  intro i _
  simp only [BitVec.getLsbD_and, BitVec.getLsbD_xor]
  cases mask.getLsbD i <;> simp

/-- A bit of a word is clear exactly when the word meets the bit's mask in zero. -/
theorem and_bit_ne_zero (word : Word) (k : Fin 64) :
    (word &&& shl 1 k ≠ 0) ↔ word.getLsbD k = true := by
  obtain ⟨k, hk⟩ := k
  simp only [shl]
  constructor
  · intro h
    by_contra hclear
    apply h
    apply BitVec.eq_of_getLsbD_eq
    intro i hi
    by_cases hik : i = k
    · subst hik
      simp only [BitVec.getLsbD_and, Bool.not_eq_true] at hclear ⊢
      simp [hclear]
    · simp only [BitVec.getLsbD_and, BitVec.getLsbD_shiftLeft, BitVec.ofNat_eq_ofNat,
        BitVec.getLsbD_one, BitVec.getLsbD_zero]
      by_cases hlt : i < k
      · simp [hlt]
      · simp [show i - k ≠ 0 by omega]
  · intro h hzero
    have hbit := congrArg (fun w : Word => w.getLsbD k) hzero
    rw [BitVec.getLsbD_eq_getElem hk] at h
    simp [h, hk] at hbit

section

variable (w : Width)

theorem getLsbD_maskOf (i : ℕ) : (maskOf w).getLsbD i = decide (i < w.bits) := by
  have hle := w.le
  unfold maskOf
  split
  · next h => rw [BitVec.getLsbD_not, h]; simp
  · next h =>
    have hpow : 2 ^ w.bits < 2 ^ 64 := Nat.pow_lt_pow_right (by omega) (by omega)
    have hnat : (shl 1 ⟨w.bits, by omega⟩ - 1).toNat = 2 ^ w.bits - 1 := by
      have hone : 1 ≤ 2 ^ w.bits := Nat.one_le_two_pow
      simp only [shl, BitVec.toNat_sub, BitVec.toNat_shiftLeft, BitVec.ofNat_eq_ofNat,
        BitVec.toNat_ofNat]
      rw [Nat.mod_eq_of_lt (by decide : 1 < 2 ^ 64), Nat.shiftLeft_eq, Nat.one_mul,
        Nat.mod_eq_of_lt hpow]
      omega
    rw [BitVec.getLsbD, hnat, Nat.testBit_two_pow_sub_one]

theorem toWord_and_maskOf (reflected : Bool) (r : BitVec w.bits) :
    toWord reflected r &&& maskOf w = toWord reflected r := by
  apply BitVec.eq_of_getLsbD_eq
  intro i _
  rw [BitVec.getLsbD_and, getLsbD_maskOf]
  cases reflected with
  | true =>
    rw [getLsbD_toWord_true w.le]
    by_cases hi : i < w.bits
    · simp [hi]
    · simp [hi, BitVec.getLsbD_of_ge r i (by omega)]
  | false =>
    rw [getLsbD_toWord_false w.le]
    cases decide (i < w.bits) <;> simp

/-- After some rounds of `reflect`, `ret` holds the bits consumed so far, last bit
lowest, and `word` has moved down past them. -/
theorem getLsbD_reflectLoop (word : Word) (rounds k i : ℕ) {ret : Word}
    (hk : k + rounds < 64)
    (hret : ∀ j, ret.getLsbD j = (decide (j ≤ k) && word.getLsbD (k - j))) :
    (reflectLoop rounds (word >>> k) ret).getLsbD i =
      (decide (i ≤ k + rounds) && word.getLsbD (k + rounds - i)) := by
  induction rounds generalizing k ret with
  | zero => exact hret i
  | succ rounds ih =>
    have hword : shr (word >>> k) 1 = word >>> (k + 1) := by
      simp [shr, BitVec.shiftRight_add]
    rw [reflectLoop, hword, ih (k + 1) (by omega)]
    · rw [show k + 1 + rounds = k + (rounds + 1) by omega]
    · intro j
      simp only [shl, BitVec.getLsbD_or, BitVec.getLsbD_shiftLeft, BitVec.getLsbD_and,
        BitVec.getLsbD_ushiftRight, hret, BitVec.ofNat_eq_ofNat, BitVec.getLsbD_one]
      cases j with
      | zero => simp
      | succ j =>
        by_cases hj : j ≤ k
        · simp [hj, show j + 1 < 64 by omega, show k + 1 - (j + 1) = k - j by omega]
        · simp [hj]

/-- `crc::reflect` reverses the low bits of a word and drops the others. -/
theorem getLsbD_reflect (word : Word) (i : ℕ) :
    (reflect w word).getLsbD i = (decide (i < w.bits) && word.getLsbD (w.bits - 1 - i)) := by
  have hge := w.ge
  have hle := w.le
  have hfirst : ∀ j, (word &&& 1).getLsbD j = (decide (j ≤ 0) && word.getLsbD (0 - j)) := by
    intro j
    simp only [BitVec.getLsbD_and, BitVec.ofNat_eq_ofNat, BitVec.getLsbD_one]
    cases j <;> simp
  have h := getLsbD_reflectLoop word (w.bits - 1) 0 i (by omega) hfirst
  rw [BitVec.ushiftRight_zero] at h
  rw [reflect, h, Nat.zero_add]
  congr 1
  exact decide_eq_decide.mpr (by omega)

/-- The feedback word of the register: the polynomial, with the bit of its constant
term at the end where bits enter. -/
def feedback (poly : Word) : BitVec w.bits := (poly.setWidth w.bits).reverse

theorem getLsbD_feedback (poly : Word) (i : ℕ) :
    (feedback w poly).getLsbD i = (decide (i < w.bits) && poly.getLsbD (w.bits - 1 - i)) := by
  simp only [feedback, BitVec.getLsbD_reverse, BitVec.getMsbD_eq_getLsbD, BitVec.getLsbD_setWidth]
  by_cases hi : i < w.bits
  · simp [hi, show w.bits - 1 - i < w.bits by omega]
  · simp [hi]

/-- The top feedback bit is the constant term of the polynomial. -/
theorem msb_feedback (poly : Word) : (feedback w poly).msb = poly.getLsbD 0 := by
  have hge := w.ge
  rw [BitVec.msb_eq_getLsbD_last, getLsbD_feedback]
  simp [show w.bits - 1 < w.bits by omega]

theorem reflect_eq_toWord (poly : Word) : reflect w poly = toWord true (feedback w poly) := by
  apply BitVec.eq_of_getLsbD_eq
  intro i _
  rw [getLsbD_reflect, getLsbD_toWord_true w.le, getLsbD_feedback]

theorem reflect_toWord (reflected : Bool) (r : BitVec w.bits) :
    reflect w (toWord reflected r) = toWord (!reflected) r := by
  apply BitVec.eq_of_getLsbD_eq
  intro i _
  rw [getLsbD_reflect]
  cases reflected with
  | true => rw [Bool.not_true, getLsbD_toWord_false w.le, getLsbD_toWord_true w.le]
  | false =>
    rw [Bool.not_false, getLsbD_toWord_true w.le, getLsbD_toWord_false w.le]
    by_cases hi : i < w.bits
    · simp [hi, show w.bits - 1 - i < w.bits by omega,
        show w.bits - 1 - (w.bits - 1 - i) = i by omega]
    · simp [hi, BitVec.getLsbD_of_ge r i (by omega)]

theorem and_maskOf_eq_toWord_true (word : Word) :
    word &&& maskOf w = toWord true (word.setWidth w.bits) := by
  apply BitVec.eq_of_getLsbD_eq
  intro i _
  rw [getLsbD_toWord_true w.le, BitVec.getLsbD_and, getLsbD_maskOf, BitVec.getLsbD_setWidth,
    Bool.and_comm]

theorem and_maskOf_eq_toWord_false (word : Word) :
    word &&& maskOf w = toWord false (feedback w word) := by
  apply BitVec.eq_of_getLsbD_eq
  intro i _
  rw [getLsbD_toWord_false w.le, BitVec.getLsbD_and, getLsbD_maskOf, getLsbD_feedback]
  by_cases hi : i < w.bits
  · simp [hi, show w.bits - 1 - i < w.bits by omega,
      show w.bits - 1 - (w.bits - 1 - i) = i by omega]
  · simp [hi]

/-- Every masked word holds a register. -/
theorem exists_toWord (reflected : Bool) (word : Word) :
    ∃ r : BitVec w.bits, word &&& maskOf w = toWord reflected r := by
  cases reflected with
  | true => exact ⟨_, and_maskOf_eq_toWord_true w word⟩
  | false => exact ⟨_, and_maskOf_eq_toWord_false w word⟩

/-- Moving a reflected register down one place, with or without the polynomial, is
one clock with the input bit that selects it. -/
theorem feed_reflected (poly : Word) (r : BitVec w.bits) (b : Bool) :
    (toWord true r >>> 1) ^^^ (if (toWord true r).getLsbD 0 ^^ b then reflect w poly else 0) =
      toWord true (feed (feedback w poly) r b) := by
  rw [getLsbD_toWord_true w.le, reflect_eq_toWord, feed, toWord_xor]
  congr 1
  · apply BitVec.eq_of_getLsbD_eq
    intro i _
    rw [BitVec.getLsbD_ushiftRight, getLsbD_toWord_true w.le, getLsbD_toWord_true w.le,
      BitVec.getLsbD_ushiftRight]
  · cases r.getLsbD 0 ^^ b <;> simp

/-- The same for a register kept with its first bit on top. Bits above the register
may hold anything, in the word as in the polynomial, since the mask drops them. -/
theorem feed_direct (poly : Word) {word : Word} {r : BitVec w.bits}
    (hword : word &&& maskOf w = toWord false r) (b : Bool) :
    ((word <<< 1) ^^^ (if word.getLsbD (w.bits - 1) ^^ b then poly else 0)) &&& maskOf w =
      toWord false (feed (feedback w poly) r b) := by
  have hge := w.ge
  have hle := w.le
  have hbit (i : ℕ) (hi : i < w.bits) : word.getLsbD i = r.getLsbD (w.bits - 1 - i) := by
    have h := congrArg (fun v : Word => v.getLsbD i) hword
    simpa only [BitVec.getLsbD_and, getLsbD_maskOf, getLsbD_toWord_false w.le, hi, decide_true,
      Bool.and_true, Bool.true_and] using h
  have hout : word.getLsbD (w.bits - 1) = r.getLsbD 0 := by
    rw [hbit _ (by omega), Nat.sub_self]
  have hselect (i : ℕ) (hi : i < w.bits) : (if r.getLsbD 0 ^^ b then poly else 0).getLsbD i =
      (if r.getLsbD 0 ^^ b then feedback w poly else 0#_).getLsbD (w.bits - 1 - i) := by
    cases r.getLsbD 0 ^^ b
    · simp
    · simp only [if_true, getLsbD_feedback, show w.bits - 1 - i < w.bits by omega, decide_true,
        Bool.true_and, show w.bits - 1 - (w.bits - 1 - i) = i by omega]
  rw [hout]
  apply BitVec.eq_of_getLsbD_eq
  intro i _
  rw [BitVec.getLsbD_and, getLsbD_maskOf, getLsbD_toWord_false w.le]
  by_cases hi : i < w.bits
  · rw [feed, BitVec.getLsbD_xor, BitVec.getLsbD_xor, hselect i hi, BitVec.getLsbD_ushiftRight,
      BitVec.getLsbD_shiftLeft]
    cases i with
    | zero => simp [BitVec.getLsbD_of_ge r (1 + (w.bits - 1)) (by omega), Bool.and_comm]
    | succ i =>
      rw [Nat.add_sub_cancel, hbit i (by omega),
        show 1 + (w.bits - 1 - (i + 1)) = w.bits - 1 - i by omega]
      simp [hi, show i + 1 < 64 by omega]
  · simp [hi]

end

end GrSatellites.Crc
