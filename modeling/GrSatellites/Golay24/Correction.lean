import GrSatellites.Golay24.Model
import Mathlib.Tactic.IntervalCases

/-!
# Correction of three errors

A received word is a pair of halves, and its syndrome is linear in them. The decoder
looks for an error vector of weight three or less with the same syndrome. There is one
if the errors are three or fewer, and there is only one, since no codeword but zero has
weight six or less.
-/

namespace GrSatellites.Golay24

open Weight

/-! ## Linearity -/

theorem parity_xor (x y : BitVec 32) : parity (x ^^^ y) = (parity x ^^ parity y) := by
  have hweight := weight_xor x y
  have hmod : weight (x ^^^ y) % 2 = (weight x % 2 + weight y % 2) % 2 := by omega
  rw [parity, parity, parity, hmod]
  rcases Nat.mod_two_eq_zero_or_one (weight x) with hx | hx <;>
    rcases Nat.mod_two_eq_zero_or_one (weight y) with hy | hy <;> rw [hx, hy] <;> rfl

theorem shiftIn_xor {w : ℕ} (s t : BitVec w) (x y : Bool) :
    shiftIn (s ^^^ t) (x ^^ y) = shiftIn s x ^^^ shiftIn t y := by
  apply BitVec.eq_of_getLsbD_eq
  intro i hi
  cases i with
  | zero => simp [shiftIn, hi]
  | succ i => simp [shiftIn, hi]

theorem foldl_shiftIn_xor {w : ℕ} (rows : List (BitVec 32)) (x y : BitVec 32) (s t : BitVec w) :
    rows.foldl (fun s row => shiftIn s (parity (row &&& (x ^^^ y)))) (s ^^^ t) =
      rows.foldl (fun s row => shiftIn s (parity (row &&& x))) s ^^^
        rows.foldl (fun s row => shiftIn s (parity (row &&& y))) t := by
  induction rows generalizing s t with
  | nil => rfl
  | cons row rows ih =>
    have hand : row &&& (x ^^^ y) = (row &&& x) ^^^ (row &&& y) := xorLinear_and row x y
    rw [List.foldl_cons, hand, parity_xor, shiftIn_xor, ih]
    rfl

theorem product_xor {w : ℕ} (rows : List (BitVec 32)) :
    XorLinear (product rows : BitVec 32 → BitVec w) := fun x y => by
  have := foldl_shiftIn_xor rows x y (0#w) (0#w)
  rwa [BitVec.xor_self] at this

/-! ## Halves -/

/-- The word with two given halves. -/
def word (x y : BitVec 12) : BitVec 32 := (x ++ y).setWidth 32

/-- A row of `B`. -/
def row (i : ℕ) : BitVec 12 := (b i).setWidth 12

/-- The product of `B` and a half. -/
def mulB (y : BitVec 12) : BitVec 12 :=
  (List.range n).foldl (fun s i => if y.getLsbD (n - i - 1) then s ^^^ row i else s) 0#12

theorem ite_xor_ite (s t r : BitVec 12) (x y : Bool) :
    (if x ^^ y then s ^^^ t ^^^ r else s ^^^ t) =
      (if x then s ^^^ r else s) ^^^ (if y then t ^^^ r else t) := by
  apply BitVec.eq_of_getLsbD_eq
  intro i _
  cases x <;> cases y <;> simp <;>
    cases s.getLsbD i <;> cases t.getLsbD i <;> cases r.getLsbD i <;> rfl

theorem mulB_xor : XorLinear mulB := by
  have hfold (x y : BitVec 12) (places : List ℕ) (s t : BitVec 12) :
      places.foldl (fun s i => if (x ^^^ y).getLsbD (n - i - 1) then s ^^^ row i else s) (s ^^^ t) =
        places.foldl (fun s i => if x.getLsbD (n - i - 1) then s ^^^ row i else s) s ^^^
          places.foldl (fun s i => if y.getLsbD (n - i - 1) then s ^^^ row i else s) t := by
    induction places generalizing s t with
    | nil => rfl
    | cons i places ih =>
      rw [List.foldl_cons, List.foldl_cons, List.foldl_cons, ← ih, BitVec.getLsbD_xor, ite_xor_ite]
  intro x y
  have := hfold x y (List.range n) 0#12 0#12
  rwa [BitVec.xor_self] at this

/-- Rows are columns too. -/
theorem mulB_twoPow {i : ℕ} (hi : i < n) : mulB (BitVec.twoPow 12 (n - i - 1)) = row i := by
  have hall : ∀ i < n, mulB (BitVec.twoPow 12 (n - i - 1)) = row i := by decide
  exact hall i hi

/-- `B` is its own inverse. -/
theorem mulB_mulB (y : BitVec 12) : mulB (mulB y) = y := by
  have hunit : ∀ i < 12, mulB (mulB (BitVec.twoPow 12 i)) = BitVec.twoPow 12 i := by decide
  exact congrFun ((mulB_xor.comp mulB_xor).ext xorLinear_id hunit) y

/-- The syndrome of a word. -/
theorem product_h (x y : BitVec 12) : product h (word x y) = (x ^^^ mulB y).setWidth 16 := by
  have hlinear : XorLinear fun r : BitVec 24 => (product h (r.setWidth 32) : BitVec 16) :=
    (product_xor h).comp xorLinear_setWidth
  have hhalves : XorLinear fun r : BitVec 24 =>
      (r.extractLsb' 12 12 ^^^ mulB (r.extractLsb' 0 12)).setWidth 16 :=
    xorLinear_setWidth.comp ((xorLinear_extractLsb 12).xor (mulB_xor.comp (xorLinear_extractLsb 0)))
  have hunit : ∀ i < 24, (product h ((BitVec.twoPow 24 i).setWidth 32) : BitVec 16) =
      ((BitVec.twoPow 24 i).extractLsb' 12 12 ^^^
        mulB ((BitVec.twoPow 24 i).extractLsb' 0 12)).setWidth 16 := by decide
  have hword := congrFun (hlinear.ext hhalves hunit) (x ++ y)
  have hhigh : (x ++ y).extractLsb' 12 12 = x := BitVec.extractLsb'_append_eq_left
  have hlow : (x ++ y).extractLsb' 0 12 = y := BitVec.extractLsb'_append_eq_right
  rwa [hhigh, hlow] at hword

/-- The product that step 4 computes. -/
theorem product_b (s : BitVec 12) :
    (product ((List.range n).map b) (s.setWidth 32) : BitVec 16) = (mulB s).setWidth 16 := by
  have hunit : ∀ i < 12, (product ((List.range n).map b) ((BitVec.twoPow 12 i).setWidth 32) :
      BitVec 16) = (mulB (BitVec.twoPow 12 i)).setWidth 16 := by decide
  exact congrFun (((product_xor _).comp xorLinear_setWidth).ext
    (xorLinear_setWidth.comp mulB_xor) hunit) s

/-! ## The weight of codewords -/

theorem weight_codeword_small {y : BitVec 12} (hy : y ≠ 0#12) (hweight : weight y ≤ 3) :
    7 ≤ weight (mulB y) + weight y := by
  have hall : forAllWithin (fun y : BitVec 12 => y == 0#12 || 7 ≤ weight (mulB y) + weight y)
      12 3 0#12 = true := by decide
  have := of_forAllWithin hall hweight
  simpa [hy] using this

/-- **Distance.** No codeword but zero has weight six or less. -/
theorem weight_codeword {y : BitVec 12} (hy : y ≠ 0#12) : 7 ≤ weight (mulB y) + weight y := by
  rcases Nat.lt_or_ge 3 (weight y) with hlt | hle
  · rcases Nat.lt_or_ge 3 (weight (mulB y)) with hlt' | hle'
    · omega
    · have hne : mulB y ≠ 0#12 := fun h => hy (by rw [← mulB_mulB y, h, mulB_xor.map_zero])
      have := weight_codeword_small hne hle'
      rw [mulB_mulB] at this
      omega
  · exact weight_codeword_small hy hle

/-- A syndrome belongs to one error vector of weight three or less. -/
theorem eq_of_syndrome_eq {x y x' y' : BitVec 12} (h : x ^^^ mulB y = x' ^^^ mulB y')
    (hweight : weight x + weight y ≤ 3) (hweight' : weight x' + weight y' ≤ 3) :
    x = x' ∧ y = y' := by
  have hmul : mulB (y ^^^ y') = x ^^^ x' := by
    rw [mulB_xor, ← BitVec.xor_right_inj x, ← BitVec.xor_assoc, h]
    apply BitVec.eq_of_getLsbD_eq
    intro i _
    simp only [BitVec.getLsbD_xor]
    cases x.getLsbD i <;> cases x'.getLsbD i <;> cases (mulB y').getLsbD i <;> rfl
  have hle := weight_xor_le x x'
  have hle' := weight_xor_le y y'
  have hy : y ^^^ y' = 0#12 := by
    by_contra hne
    have := weight_codeword hne
    rw [hmul] at this
    omega
  have hx : x ^^^ x' = 0#12 := by rw [← hmul, hy, mulB_xor.map_zero]
  exact ⟨BitVec.xor_eq_zero_iff.mp hx, BitVec.xor_eq_zero_iff.mp hy⟩

/-! ## The decoder -/

theorem b_eq {i : ℕ} (hi : i < n) : b i = (row i).setWidth 32 := by
  have hall : ∀ i < n, b i = (row i).setWidth 32 := by decide
  exact hall i hi

/-- A sum of halves, in words of other widths. -/
theorem setWidth_xor_b {i : ℕ} (hi : i < n) (s : BitVec 12) :
    (s.setWidth 16).setWidth 32 ^^^ b i = (s ^^^ row i).setWidth 32 := by
  rw [b_eq hi, BitVec.setWidth_setWidth (by decide), BitVec.setWidth_xor]

theorem nearRow_spec (s : BitVec 12) :
    match nearRow (s.setWidth 16) with
    | some i => i < n ∧ weight (s ^^^ row i) ≤ 2
    | none => ∀ i < n, 2 < weight (s ^^^ row i) := by
  cases hnear : nearRow (s.setWidth 16) with
  | some i =>
    have hi : i < n := List.mem_range.mp (List.mem_of_find?_eq_some hnear)
    have hfound := List.find?_some hnear
    rw [decide_eq_true_eq, setWidth_xor_b hi, weight_setWidth _ (by omega)] at hfound
    exact ⟨hi, hfound⟩
  | none =>
    intro i hi
    have hnone := List.find?_eq_none.mp hnear i (List.mem_range.mpr hi)
    rwa [decide_eq_true_eq, setWidth_xor_b hi, weight_setWidth _ (by omega), Nat.not_le] at hnone

theorem word_eq (x y : BitVec 12) : x.setWidth 32 <<< n ||| y.setWidth 32 = word x y := by
  apply BitVec.eq_of_getLsbD_eq
  intro i hi
  rw [word, BitVec.getLsbD_or, BitVec.getLsbD_shiftLeft, BitVec.getLsbD_setWidth,
    BitVec.getLsbD_setWidth, BitVec.getLsbD_setWidth, BitVec.getLsbD_append, n]
  by_cases hlt : i < 12
  · simp [hlt, hi]
  · have : y.getLsbD i = false := BitVec.getLsbD_of_ge y i (by omega)
    simp [hlt, hi, this]
    omega

theorem weight_word (x y : BitVec 12) : weight (word x y) = weight x + weight y := by
  rw [word, weight_setWidth _ (by omega), weight_append]

/-- A unit vector in the low half. -/
theorem low_place {i : ℕ} (hi : i < n) :
    (1 <<< (n - i - 1) : BitVec 32) = (BitVec.twoPow 12 (n - i - 1)).setWidth 32 := by
  have hall : ∀ i < n, (1 <<< (n - i - 1) : BitVec 32) =
      (BitVec.twoPow 12 (n - i - 1)).setWidth 32 := by decide
  exact hall i hi

/-- A unit vector in the high half. -/
theorem high_place {i : ℕ} (hi : i < n) :
    (1 <<< (2 * n - i - 1) : BitVec 32) = (BitVec.twoPow 12 (n - i - 1)).setWidth 32 <<< n := by
  have hall : ∀ i < n, (1 <<< (2 * n - i - 1) : BitVec 32) =
      (BitVec.twoPow 12 (n - i - 1)).setWidth 32 <<< n := by decide
  exact hall i hi

/-- The outcome of the decoder's steps for a syndrome: an error vector of weight three or less
that has it, or a proof that no step applies. -/
theorem errorVector_spec (s : BitVec 12) :
    match errorVector (s.setWidth 16) with
    | some e => ∃ x y, e = word x y ∧ x ^^^ mulB y = s ∧ weight x + weight y ≤ 3
    | none => 3 < weight s ∧ (∀ i < n, 2 < weight (s ^^^ row i)) ∧ 3 < weight (mulB s) ∧
        ∀ i < n, 2 < weight (mulB s ^^^ row i) := by
  have hs := nearRow_spec s
  have hq := nearRow_spec (mulB s)
  have hwide (x : BitVec 12) : (x.setWidth 16).setWidth 32 = x.setWidth 32 :=
    BitVec.setWidth_setWidth (by decide)
  have hunit {i : ℕ} (hi : i < n) : weight (BitVec.twoPow 12 (n - i - 1)) = 1 :=
    weight_twoPow (by rw [n] at hi ⊢; omega)
  rw [errorVector, weight_setWidth _ (by omega), hwide, product_b]
  by_cases hstep2 : weight s ≤ 3
  · rw [if_pos hstep2]
    refine ⟨s, 0#12, ?_, by rw [mulB_xor.map_zero, BitVec.xor_zero], by simpa using hstep2⟩
    rw [← word_eq]
    simp
  rw [if_neg hstep2]
  cases hnear : nearRow (s.setWidth 16) with
  | some i =>
    rw [hnear] at hs
    obtain ⟨hi, hweight⟩ := hs
    refine ⟨s ^^^ row i, BitVec.twoPow 12 (n - i - 1), ?_, ?_, by rw [hunit hi]; omega⟩
    · rw [← word_eq, ← low_place hi, ← setWidth_xor_b hi, hwide]
    · rw [mulB_twoPow hi, BitVec.xor_assoc, BitVec.xor_self, BitVec.xor_zero]
  | none =>
    rw [hnear] at hs
    simp only [weight_setWidth _ (by omega : 12 ≤ 16)]
    by_cases hstep5 : weight (mulB s) ≤ 3
    · rw [if_pos hstep5]
      refine ⟨0#12, mulB s, ?_, by rw [mulB_mulB, BitVec.zero_xor], by simpa using hstep5⟩
      rw [← word_eq, hwide]
      simp
    rw [if_neg hstep5]
    cases hnear' : nearRow ((mulB s).setWidth 16) with
    | some i =>
      rw [hnear'] at hq
      obtain ⟨hi, hweight⟩ := hq
      refine ⟨BitVec.twoPow 12 (n - i - 1), mulB s ^^^ row i, ?_, ?_, by rw [hunit hi]; omega⟩
      · rw [← word_eq, ← high_place hi, setWidth_xor_b hi]
      · rw [mulB_xor, mulB_mulB, ← mulB_twoPow hi, mulB_mulB, BitVec.xor_comm s,
          ← BitVec.xor_assoc, BitVec.xor_self, BitVec.zero_xor]
    | none =>
      rw [hnear'] at hq
      exact ⟨by omega, hs, by omega, hq⟩

/-- Some step applies to the syndrome of three errors or fewer. -/
theorem errorVector_ne_none {x y : BitVec 12} (hweight : weight x + weight y ≤ 3) :
    errorVector ((x ^^^ mulB y).setWidth 16) ≠ none := by
  intro hnone
  have hspec := errorVector_spec (x ^^^ mulB y)
  rw [hnone] at hspec
  obtain ⟨hstep2, hstep3, hstep5, hstep6⟩ := hspec
  have hq : mulB (x ^^^ mulB y) = mulB x ^^^ y := by rw [mulB_xor, mulB_mulB]
  rw [hq] at hstep5 hstep6
  have hplace {j : ℕ} (hj : j < 12) : j = n - (11 - j) - 1 ∧ 11 - j < n := by
    rw [n]
    omega
  rcases Nat.lt_or_ge (weight y) 2 with hfew | hmany
  · rcases Nat.eq_zero_or_pos (weight y) with hzero | hpos
    · rw [eq_zero_of_weight hzero, mulB_xor.map_zero, BitVec.xor_zero] at hstep2
      omega
    · obtain ⟨j, hj, rfl⟩ := exists_twoPow_of_weight_one (x := y) (by omega)
      obtain ⟨hjplace, hlt⟩ := hplace hj
      have hnear := hstep3 _ hlt
      rw [← mulB_twoPow hlt, ← hjplace, BitVec.xor_assoc, BitVec.xor_self, BitVec.xor_zero] at hnear
      omega
  · rcases Nat.eq_zero_or_pos (weight x) with hzero | hpos
    · rw [eq_zero_of_weight hzero, mulB_xor.map_zero, BitVec.zero_xor] at hstep5
      omega
    · obtain ⟨j, hj, rfl⟩ := exists_twoPow_of_weight_one (x := x) (by omega)
      obtain ⟨hjplace, hlt⟩ := hplace hj
      have hnear := hstep6 _ hlt
      rw [← mulB_twoPow hlt, ← hjplace, BitVec.xor_comm (mulB _), BitVec.xor_assoc,
        BitVec.xor_self, BitVec.xor_zero] at hnear
      omega

/-- **The error vector.** Three errors or fewer are found from their syndrome. -/
theorem errorVector_eq {x y : BitVec 12} (hweight : weight x + weight y ≤ 3) :
    errorVector ((x ^^^ mulB y).setWidth 16) = some (word x y) := by
  have hspec := errorVector_spec (x ^^^ mulB y)
  cases he : errorVector ((x ^^^ mulB y).setWidth 16) with
  | none => exact absurd he (errorVector_ne_none hweight)
  | some e =>
    rw [he] at hspec
    obtain ⟨x', y', rfl, hsyndrome, hweight'⟩ := hspec
    obtain ⟨rfl, rfl⟩ := eq_of_syndrome_eq hsyndrome hweight' hweight
    rfl

/-! ## The codec -/

theorem encodeGolay24_eq (data : BitVec 32) :
    encodeGolay24 data = word (mulB (data.setWidth 12)) (data.setWidth 12) := by
  have hlow : data &&& 0xfff = (data.setWidth 12).setWidth 32 := by
    apply BitVec.eq_of_toNat_eq
    rw [BitVec.toNat_and, BitVec.toNat_setWidth, BitVec.toNat_setWidth]
    have := Nat.and_two_pow_sub_one_eq_mod data.toNat 12
    have hlt := Nat.mod_lt data.toNat (by norm_num : 0 < 2 ^ 12)
    rw [Nat.mod_eq_of_lt (a := data.toNat % 2 ^ 12) (by omega)]
    exact this
  have hunit : ∀ i < 12, 0xfff &&& (product h ((BitVec.twoPow 12 i).setWidth 32) : BitVec 32) =
      (mulB (BitVec.twoPow 12 i)).setWidth 32 := by decide
  have hparity := congrFun (((xorLinear_and 0xfff).comp ((product_xor h).comp
    xorLinear_setWidth)).ext (xorLinear_setWidth.comp mulB_xor) hunit) (data.setWidth 12)
  simp only [encodeGolay24, hlow, hparity]
  exact word_eq _ _

/-- The low half of a codeword is the data. -/
theorem encodeGolay24_low (data : BitVec 32) :
    (encodeGolay24 data).setWidth 12 = data.setWidth 12 := by
  rw [encodeGolay24_eq, word, BitVec.setWidth_setWidth (by decide), BitVec.setWidth_append]
  simp

/-- A word of 24 bits has two halves. -/
theorem exists_append (r : BitVec 24) : ∃ x y : BitVec 12, r = x ++ y := by
  refine ⟨r.extractLsb' 12 12, r.extractLsb' 0 12, ?_⟩
  apply BitVec.eq_of_getLsbD_eq
  intro i hi
  rw [BitVec.getLsbD_append, BitVec.getLsbD_extractLsb', BitVec.getLsbD_extractLsb']
  split
  case isTrue hlt => simp [hlt]
  case isFalse hge =>
    have hplace : 12 + (i - 12) = i := by omega
    simp [hplace, show i - 12 < 12 by omega]

theorem word_xor (x y x' y' : BitVec 12) :
    word x y ^^^ word x' y' = word (x ^^^ x') (y ^^^ y') := by
  rw [word, word, word, ← BitVec.setWidth_xor, BitVec.xor_append]

/-- **Three errors.** A codeword with three errors or fewer is corrected, and the errors are
counted. -/
theorem decodeGolay24_encodeGolay24 (data : BitVec 32) {e : BitVec 24} (he : weight e ≤ 3) :
    decodeGolay24 (encodeGolay24 data ^^^ e.setWidth 32) =
      some (encodeGolay24 data, weight e) := by
  obtain ⟨x, y, rfl⟩ := exists_append e
  rw [weight_append] at he
  have hsyndrome (d : BitVec 12) : mulB d ^^^ x ^^^ mulB (d ^^^ y) = x ^^^ mulB y := by
    rw [mulB_xor, BitVec.xor_comm (mulB d), BitVec.xor_assoc, ← BitVec.xor_assoc (mulB d),
      BitVec.xor_self, BitVec.zero_xor]
  rw [encodeGolay24_eq, ← word, decodeGolay24, word_xor, product_h, hsyndrome, errorVector_eq he,
    Option.map_some, word_xor, weight_word, weight_append, BitVec.xor_assoc, BitVec.xor_self,
    BitVec.xor_assoc, BitVec.xor_self, BitVec.xor_zero, BitVec.xor_zero]

end GrSatellites.Golay24
