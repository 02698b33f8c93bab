import Mathlib

/-!
# Rounding to double precision

The number with 53 significant bits that is nearest to a rational, ties to even, with an
exponent of any size, and the integer part that a conversion to an integer keeps.
Rounding moves no number across a power of two, unless it lies within a quarter of a unit
in the last place below it.
-/

namespace GrSatellites.Double

/-! ## Rounding to an integer -/

/-- The nearest integer, ties to even. -/
def roundHalfEven (x : ℚ) : ℤ :=
  if Int.fract x < 1 / 2 ∨ (Int.fract x = 1 / 2 ∧ Even ⌊x⌋) then ⌊x⌋ else ⌊x⌋ + 1

theorem abs_roundHalfEven_sub_le (x : ℚ) : |(roundHalfEven x : ℚ) - x| ≤ 1 / 2 := by
  have hsplit := Int.floor_add_fract x
  have hnonneg := Int.fract_nonneg x
  have hlt := Int.fract_lt_one x
  unfold roundHalfEven
  split_ifs with h
  · have hhalf : Int.fract x ≤ 1 / 2 := h.elim le_of_lt fun h => h.1.le
    rw [abs_le]
    constructor <;> linarith
  · have hhalf : 1 / 2 ≤ Int.fract x := not_lt.mp fun hlow => h (.inl hlow)
    push_cast
    rw [abs_le]
    constructor <;> linarith

theorem roundHalfEven_nonneg {x : ℚ} (hx : 0 ≤ x) : 0 ≤ roundHalfEven x := by
  have herr := (abs_le.mp (abs_roundHalfEven_sub_le x)).1
  have hlt : (-1 : ℚ) < roundHalfEven x := by linarith
  have : (-1 : ℤ) < roundHalfEven x := by exact_mod_cast hlt
  omega

theorem roundHalfEven_nonpos {x : ℚ} (hx : x ≤ 0) : roundHalfEven x ≤ 0 := by
  have herr := (abs_le.mp (abs_roundHalfEven_sub_le x)).2
  have hlt : (roundHalfEven x : ℚ) < 1 := by linarith
  have : roundHalfEven x < 1 := by exact_mod_cast hlt
  omega

/-- Rounding moves nothing across an integer. -/
theorem le_abs_roundHalfEven {n : ℕ} {x : ℚ} (hx : (n : ℚ) ≤ |x|) :
    (n : ℚ) ≤ |(roundHalfEven x : ℚ)| := by
  have herr := abs_roundHalfEven_sub_le x
  have hsum := abs_add_le (x - roundHalfEven x) (roundHalfEven x : ℚ)
  rw [sub_add_cancel, abs_sub_comm] at hsum
  have hlt : (n : ℚ) < |(roundHalfEven x : ℚ)| + 1 := by linarith
  have hint : (n : ℤ) < |roundHalfEven x| + 1 := by exact_mod_cast hlt
  have hle : (n : ℤ) ≤ |roundHalfEven x| := by omega
  exact_mod_cast hle

/-! ## Rounding to 53 bits -/

/-- The unit in the last place of a number with 53 significant bits. -/
def ulp (q : ℚ) : ℚ := 2 ^ (Int.log 2 |q| - 52)

/-- The nearest number with 53 significant bits, ties to even. -/
def round (q : ℚ) : ℚ := roundHalfEven (q / ulp q) * ulp q

theorem ulp_pos (q : ℚ) : 0 < ulp q := zpow_pos two_pos _

theorem abs_round_sub_le (q : ℚ) : |round q - q| ≤ ulp q / 2 := by
  have hpos := ulp_pos q
  have hfactor : round q - q = (roundHalfEven (q / ulp q) - q / ulp q) * ulp q := by
    rw [round, sub_mul, div_mul_cancel₀ _ hpos.ne']
  have herr := mul_le_mul_of_nonneg_right (abs_roundHalfEven_sub_le (q / ulp q)) hpos.le
  rw [hfactor, abs_mul, abs_of_pos hpos]
  linarith

theorem round_nonneg {q : ℚ} (hq : 0 ≤ q) : 0 ≤ round q := by
  have hpos := ulp_pos q
  have hround := roundHalfEven_nonneg (div_nonneg hq hpos.le)
  exact mul_nonneg (by exact_mod_cast hround) hpos.le

theorem round_nonpos {q : ℚ} (hq : q ≤ 0) : round q ≤ 0 := by
  have hpos := ulp_pos q
  have hround := roundHalfEven_nonpos (div_nonpos_of_nonpos_of_nonneg hq hpos.le)
  exact mul_nonpos_of_nonpos_of_nonneg (by exact_mod_cast hround) hpos.le

/-- A number that reaches a power of two still does once it is rounded. -/
theorem zpow_le_abs_round {q : ℚ} {k : ℤ} (h : (2 : ℚ) ^ k ≤ |q|) : (2 : ℚ) ^ k ≤ |round q| := by
  have hpos := ulp_pos q
  have hq : 0 < |q| := lt_of_lt_of_le (zpow_pos two_pos k) h
  have hscale : ((2 ^ 52 : ℕ) : ℚ) * ulp q = 2 ^ Int.log 2 |q| := by
    rw [ulp, Nat.cast_pow, Nat.cast_ofNat, ← zpow_natCast, ← zpow_add₀ two_ne_zero]
    norm_num
  have hlow : ((2 ^ 52 : ℕ) : ℚ) ≤ |q / ulp q| := by
    rw [abs_div, abs_of_pos hpos, le_div_iff₀ hpos, hscale]
    exact Int.zpow_log_le_self Nat.one_lt_two hq
  have hlog : k ≤ Int.log 2 |q| := (Int.zpow_le_iff_le_log Nat.one_lt_two hq).mp h
  calc (2 : ℚ) ^ k ≤ 2 ^ Int.log 2 |q| := zpow_le_zpow_right₀ one_le_two hlog
    _ = ((2 ^ 52 : ℕ) : ℚ) * ulp q := hscale.symm
    _ ≤ |(roundHalfEven (q / ulp q) : ℚ)| * ulp q :=
      mul_le_mul_of_nonneg_right (le_abs_roundHalfEven hlow) hpos.le
    _ = |round q| := by rw [round, abs_mul, abs_of_pos hpos]

/-- A number that stays clear of a power of two stays below it. -/
theorem abs_round_lt_zpow {q : ℚ} {k : ℤ} (h : |q| + 2 ^ (k - 54) < 2 ^ k) :
    |round q| < (2 : ℚ) ^ k := by
  have hgap : (0 : ℚ) < 2 ^ (k - 54) := zpow_pos two_pos _
  rcases eq_or_ne q 0 with rfl | hne
  · rw [round, zero_div, roundHalfEven]
    simpa using zpow_pos two_pos k
  · have hq : 0 < |q| := abs_pos.mpr hne
    have hlog : Int.log 2 |q| < k :=
      (Int.lt_zpow_iff_log_lt Nat.one_lt_two hq).mp (by exact_mod_cast (by linarith : |q| < 2 ^ k))
    have hulp : ulp q / 2 ≤ 2 ^ (k - 54) := by
      have hexp : (2 : ℚ) ^ (k - 53) = 2 ^ (k - 54) * 2 := by
        rw [← zpow_add_one₀ two_ne_zero]
        congr 1
        omega
      have hle : ulp q ≤ 2 ^ (k - 53) := zpow_le_zpow_right₀ one_le_two (by omega)
      linarith
    have herr := abs_round_sub_le q
    have hsum := abs_add_le (round q - q) q
    rw [sub_add_cancel] at hsum
    linarith

/-- Rounding keeps a number on its side of a power of two. -/
theorem abs_round_lt_zpow_iff {q : ℚ} {k : ℤ} (hgap : |q| < 2 ^ k → |q| + 2 ^ (k - 54) < 2 ^ k) :
    |round q| < (2 : ℚ) ^ k ↔ |q| < 2 ^ k := by
  constructor
  · contrapose!
    exact zpow_le_abs_round
  · exact fun h => abs_round_lt_zpow (hgap h)

/-! ## The integer part -/

/-- The integer part, toward zero. -/
def trunc (q : ℚ) : ℤ := if 0 ≤ q then ⌊q⌋ else ⌈q⌉

theorem trunc_of_nonneg {q : ℚ} (hq : 0 ≤ q) : trunc q = ⌊q⌋ := if_pos hq

theorem trunc_of_nonpos {q : ℚ} (hq : q ≤ 0) : trunc q = ⌈q⌉ := by
  rcases hq.eq_or_lt with rfl | hneg
  · simp [trunc]
  · exact if_neg hneg.not_ge

theorem trunc_nonneg_iff {q : ℚ} : 0 ≤ trunc q ↔ -1 < q := by
  rcases le_total 0 q with hq | hq
  · rw [trunc_of_nonneg hq, Int.floor_nonneg]
    constructor
    · intro h
      linarith
    · exact fun _ => hq
  · rw [trunc_of_nonpos hq]
    constructor
    · intro h
      have hlt : (-1 : ℤ) < ⌈q⌉ := by omega
      simpa using Int.lt_ceil.mp hlt
    · intro h
      have hlt : (-1 : ℤ) < ⌈q⌉ := Int.lt_ceil.mpr (by simpa using h)
      omega

theorem trunc_lt_iff {q : ℚ} {n : ℕ} (hn : 0 < n) : trunc q < n ↔ q < n := by
  rcases le_total 0 q with hq | hq
  · rw [trunc_of_nonneg hq, Int.floor_lt, Int.cast_natCast]
  · have hpos : (0 : ℚ) < n := by exact_mod_cast hn
    have hceil : ⌈q⌉ ≤ 0 := Int.ceil_le.mpr (by simpa using hq)
    rw [trunc_of_nonpos hq]
    constructor
    · intro _
      linarith
    · intro _
      omega

/-- The scaled fraction of a number is a number of that scale, unless it is too far below
zero. -/
theorem trunc_fraction_mem_iff {q : ℚ} {n : ℕ} (hn : 0 < n) (hq : -1 < q) :
    (0 ≤ trunc ((q - trunc q) * n) ∧ trunc ((q - trunc q) * n) < n) ↔ -1 < q * n := by
  have hpos : (0 : ℚ) < n := by exact_mod_cast hn
  rw [trunc_nonneg_iff, trunc_lt_iff hn]
  rcases le_total 0 q with hnonneg | hnonpos
  · have hfract : q - trunc q = Int.fract q := by rw [trunc_of_nonneg hnonneg, Int.self_sub_floor]
    have hlow := mul_nonneg (Int.fract_nonneg q) hpos.le
    have hhigh := mul_lt_mul_of_pos_right (Int.fract_lt_one q) hpos
    have hprod := mul_nonneg hnonneg hpos.le
    rw [hfract]
    constructor
    · intro _
      linarith
    · intro _
      constructor <;> linarith
  · have hzero : trunc q = 0 := by
      rw [trunc_of_nonpos hnonpos, Int.ceil_eq_zero_iff]
      exact ⟨hq, hnonpos⟩
    have hprod := mul_nonpos_of_nonpos_of_nonneg hnonpos hpos.le
    rw [hzero, Int.cast_zero, sub_zero]
    constructor
    · exact fun h => h.1
    · exact fun h => ⟨h, by linarith⟩

/-- The integer part and the scaled fraction of a number both fit their fields. -/
theorem trunc_parts_mem_iff {q : ℚ} {m n : ℕ} (hm : 0 < m) (hn : 0 < n) :
    (0 ≤ trunc q ∧ trunc q < m) ∧
        (0 ≤ trunc ((q - trunc q) * n) ∧ trunc ((q - trunc q) * n) < n) ↔
      -1 < q * n ∧ q < m := by
  rw [trunc_nonneg_iff, trunc_lt_iff hm]
  constructor
  · rintro ⟨⟨hlow, hhigh⟩, hfraction⟩
    exact ⟨(trunc_fraction_mem_iff hn hlow).mp hfraction, hhigh⟩
  · rintro ⟨hlow, hhigh⟩
    have hone : (1 : ℚ) ≤ n := by exact_mod_cast hn
    have hq : -1 < q := by
      by_contra hle
      have hneg : q ≤ 0 := by linarith
      have := mul_le_mul_of_nonpos_left hone hneg
      linarith
    exact ⟨⟨hq, hhigh⟩, (trunc_fraction_mem_iff hn hq).mpr hlow⟩

end GrSatellites.Double
