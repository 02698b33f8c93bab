import Mathlib

/-!
# Error location from power sums

The Peterson–Gorenstein–Zierler algorithm for up to three errors over a field of
characteristic two. The syndromes of orders zero, one, … are sums of powers of the points
where the errors are; the algorithm finds the polynomial whose roots are the inverses of
these points.
-/

namespace GrSatellites.Peterson

variable {K : Type*} [Field K]

/-- The coefficients of an error locator polynomial, after the constant one. -/
abbrev Locator (K : Type*) := K × K × K

/-- The value of the error locator polynomial. -/
def Locator.value (l : Locator K) (z : K) : K := 1 + l.1 * z + l.2.1 * z ^ 2 + l.2.2 * z ^ 3

/-- The sum of the powers of some points. -/
def powerSum (points : List K) (j : ℕ) : K := (points.map (· ^ j)).sum

theorem powerSum_cons (x : K) (points : List K) (j : ℕ) :
    powerSum (x :: points) j = x ^ j + powerSum points j := List.sum_cons

theorem powerSum_append (xs ys : List K) (j : ℕ) :
    powerSum (xs ++ ys) j = powerSum xs j + powerSum ys j := by
  rw [powerSum, List.map_append, List.sum_append, ← powerSum, ← powerSum]

/-- The power sum of the points of the places that a test picks. -/
theorem powerSum_filter {α : Type*} (point : α → K) (p : α → Bool) (places : List α) (j : ℕ) :
    powerSum ((places.filter p).map point) j =
      (places.map fun k => if p k then point k ^ j else 0).sum := by
  induction places with
  | nil => rfl
  | cons k places ih =>
    rw [List.map_cons, List.sum_cons, ← ih]
    cases hp : p k
    · simp [hp]
    · rw [List.filter_cons_of_pos hp, List.map_cons, powerSum_cons, if_pos rfl]

/-- The determinant of the system for two errors. -/
def det2 (s : ℕ → K) : K := s 0 * s 2 + s 1 * s 1

/-- The determinant of the system for three errors, in characteristic two. -/
def det3 (s : ℕ → K) : K :=
  s 0 * s 2 * s 4 + s 2 * s 2 * s 2 + s 1 * s 1 * s 4 + s 3 * s 3 * s 0

section Algorithm

variable [DecidableEq K]

/-- One error. -/
def locator1 (s : ℕ → K) : Option (Locator K) :=
  if s 0 = 0 then none else some (s 1 * (s 0)⁻¹, 0, 0)

/-- Two errors, or fewer if the system is singular. -/
def locator2 (s : ℕ → K) : Option (Locator K) :=
  if det2 s = 0 then locator1 s
  else some ((s 0 * s 3 + s 2 * s 1) * (det2 s)⁻¹, (s 2 * s 2 + s 3 * s 1) * (det2 s)⁻¹, 0)

/-- Three errors, or fewer if the system is singular. -/
def locator3 (s : ℕ → K) : Option (Locator K) :=
  if det3 s = 0 then locator2 s
  else some
    ((s 0 * s 2 * s 5 + s 1 * s 3 * s 3 + s 4 * s 1 * s 2 + s 2 * s 2 * s 3 + s 1 * s 1 * s 5 +
        s 0 * s 3 * s 4) * (det3 s)⁻¹,
      (s 0 * s 4 * s 4 + s 1 * s 2 * s 5 + s 3 * s 3 * s 2 + s 2 * s 2 * s 4 + s 1 * s 3 * s 4 +
        s 0 * s 3 * s 5) * (det3 s)⁻¹,
      (s 3 * s 2 * s 4 + s 1 * s 3 * s 5 + s 4 * s 3 * s 2 + s 2 * s 2 * s 5 + s 1 * s 4 * s 4 +
        s 3 * s 3 * s 3) * (det3 s)⁻¹)

/-- The algorithm for up to a number of errors, three at most. -/
def locate : ℕ → (ℕ → K) → Option (Locator K)
  | 0 => fun _ => none
  | 1 => locator1
  | 2 => locator2
  | _ + 3 => locator3

theorem locator1_congr {s s' : ℕ → K} (h0 : s 0 = s' 0) (h1 : s 1 = s' 1) :
    locator1 s = locator1 s' := by
  rw [locator1, locator1, h0, h1]

theorem locator2_congr {s s' : ℕ → K} (h : ∀ j < 4, s j = s' j) : locator2 s = locator2 s' := by
  have hdet : det2 s = det2 s' := by
    rw [det2, det2, h 0 (by omega), h 1 (by omega), h 2 (by omega)]
  rw [locator2, locator2, hdet, locator1_congr (h 0 (by omega)) (h 1 (by omega)), h 0 (by omega),
    h 1 (by omega), h 2 (by omega), h 3 (by omega)]

/-- The algorithm reads two syndromes for each error. -/
theorem locate_congr {t : ℕ} {s s' : ℕ → K} (h : ∀ j < 2 * t, s j = s' j) :
    locate t s = locate t s' := by
  match t with
  | 0 => rfl
  | 1 => exact locator1_congr (h 0 (by omega)) (h 1 (by omega))
  | 2 => exact locator2_congr h
  | t + 3 =>
    have hdet : det3 s = det3 s' := by
      rw [det3, det3, h 0 (by omega), h 1 (by omega), h 2 (by omega), h 3 (by omega),
        h 4 (by omega)]
    change locator3 s = locator3 s'
    rw [locator3, locator3, hdet, locator2_congr fun j hj => h j (by omega),
      h 0 (by omega), h 1 (by omega), h 2 (by omega), h 3 (by omega), h 4 (by omega),
      h 5 (by omega)]

end Algorithm

/-! ## What it finds -/

/-- The locator polynomial of some points, with elementary symmetric coefficients. -/
def locatorOf : List K → Locator K
  | [x] => (x, 0, 0)
  | [x, y] => (x + y, x * y, 0)
  | [x, y, z] => (x + y + z, x * y + y * z + z * x, x * y * z)
  | _ => 0

/-- The syndromes of a binary word: the square of one is the one of the double order. -/
def Binary (s : ℕ → K) : Prop := ∀ j, s (2 * j) = s j ^ 2

section CharTwo

variable [CharP K 2]

theorem add_eq_zero_iff_eq {x y : K} : x + y = 0 ↔ x = y := by
  rw [← CharTwo.sub_eq_add, sub_eq_zero]

/-- The roots of the locator polynomial of some points are their inverses. -/
theorem value_locatorOf {points : List K} (hlength : points.length ≤ 3) (z : K) :
    (locatorOf points).value z = 0 ↔ ∃ x ∈ points, x * z = 1 := by
  have hfactor (x : K) : 1 + x * z = 0 ↔ x * z = 1 := add_eq_zero_iff_eq.trans eq_comm
  match points with
  | [] => simp [locatorOf, Locator.value]
  | [x] => simp [locatorOf, Locator.value, hfactor]
  | [x, y] =>
    have hproduct : (locatorOf [x, y]).value z = (1 + x * z) * (1 + y * z) := by
      simp only [locatorOf, Locator.value]
      ring
    simp [hproduct, hfactor]
  | [x, y, w] =>
    have hproduct : (locatorOf [x, y, w]).value z = (1 + x * z) * (1 + y * z) * (1 + w * z) := by
      simp only [locatorOf, Locator.value]
      ring
    simp [hproduct, hfactor, or_assoc]
  | _ :: _ :: _ :: _ :: _ =>
    simp only [List.length_cons] at hlength
    omega

omit [CharP K 2] in
theorem powerSum_singleton (x : K) (j : ℕ) : powerSum [x] j = x ^ j := by simp [powerSum]

omit [CharP K 2] in
theorem powerSum_pair (x y : K) (j : ℕ) : powerSum [x, y] j = x ^ j + y ^ j := by simp [powerSum]

omit [CharP K 2] in
theorem powerSum_triple (x y z : K) (j : ℕ) : powerSum [x, y, z] j = x ^ j + y ^ j + z ^ j := by
  simp [powerSum, add_assoc]

theorem det2_singleton (x : K) : det2 (powerSum [x]) = 0 := by
  simp only [det2, powerSum_singleton]
  grind

theorem det2_pair (x y : K) : det2 (powerSum [x, y]) = (x + y) ^ 2 := by
  simp only [det2, powerSum_pair]
  grind

theorem det3_singleton (x : K) : det3 (powerSum [x]) = 0 := by
  simp only [det3, powerSum_singleton]
  grind

theorem det3_pair (x y : K) : det3 (powerSum [x, y]) = 0 := by
  simp only [det3, powerSum_pair]
  grind

/-- The determinant is that of Vandermonde, squared. -/
theorem det3_triple (x y z : K) :
    det3 (powerSum [x, y, z]) = ((x + y) * (y + z) * (z + x)) ^ 2 := by
  simp only [det3, powerSum_triple]
  grind

variable [DecidableEq K]

omit [CharP K 2] in
theorem locator1_singleton (x : K) : locator1 (powerSum [x]) = some (locatorOf [x]) := by
  simp [locator1, powerSum_singleton, locatorOf]

theorem locator2_singleton (x : K) : locator2 (powerSum [x]) = some (locatorOf [x]) := by
  rw [locator2, if_pos (det2_singleton x), locator1_singleton]

theorem locator2_pair {x y : K} (hxy : x ≠ y) :
    locator2 (powerSum [x, y]) = some (locatorOf [x, y]) := by
  have hdet : det2 (powerSum [x, y]) ≠ 0 := by
    rw [det2_pair]
    exact pow_ne_zero 2 fun hzero => hxy (add_eq_zero_iff_eq.mp hzero)
  rw [locator2, if_neg hdet, locatorOf, Option.some_inj, Prod.mk.injEq, Prod.mk.injEq,
    ← div_eq_mul_inv, ← div_eq_mul_inv, div_eq_iff hdet, div_eq_iff hdet, det2_pair]
  simp only [powerSum_pair]
  refine ⟨?_, ?_, trivial⟩ <;> grind

theorem locator3_triple {x y z : K} (hxy : x ≠ y) (hyz : y ≠ z) (hzx : z ≠ x) :
    locator3 (powerSum [x, y, z]) = some (locatorOf [x, y, z]) := by
  have hdet : det3 (powerSum [x, y, z]) ≠ 0 := by
    rw [det3_triple]
    refine pow_ne_zero 2 (mul_ne_zero (mul_ne_zero ?_ ?_) ?_)
    · exact fun hzero => hxy (add_eq_zero_iff_eq.mp hzero)
    · exact fun hzero => hyz (add_eq_zero_iff_eq.mp hzero)
    · exact fun hzero => hzx (add_eq_zero_iff_eq.mp hzero)
  rw [locator3, if_neg hdet, locatorOf, Option.some_inj, Prod.mk.injEq, Prod.mk.injEq,
    ← div_eq_mul_inv, ← div_eq_mul_inv, ← div_eq_mul_inv, div_eq_iff hdet, div_eq_iff hdet,
    div_eq_iff hdet, det3_triple]
  simp only [powerSum_triple]
  refine ⟨?_, ?_, ?_⟩ <;> grind

/-- **Location.** The algorithm finds the locator polynomial of distinct points. -/
theorem locate_powerSum {t : ℕ} {points : List K} (ht : t ≤ 3) (hne : points ≠ [])
    (hnodup : points.Nodup) (hlength : points.length ≤ t) :
    locate t (powerSum points) = some (locatorOf points) := by
  match points with
  | [] => exact absurd rfl hne
  | [x] =>
    match t with
    | 1 => exact locator1_singleton x
    | 2 => exact locator2_singleton x
    | 3 =>
      rw [locate, locator3, if_pos (det3_singleton x)]
      exact locator2_singleton x
  | [x, y] =>
    have hxy : x ≠ y := by simpa using hnodup
    match t with
    | 1 => simp at hlength
    | 2 => exact locator2_pair hxy
    | 3 =>
      rw [locate, locator3, if_pos (det3_pair x y)]
      exact locator2_pair hxy
  | [x, y, z] =>
    obtain ⟨⟨hxy, hxz⟩, hyz⟩ : (x ≠ y ∧ x ≠ z) ∧ y ≠ z := by simpa using hnodup
    match t with
    | 1 => simp at hlength
    | 2 => simp at hlength
    | 3 => exact locator3_triple hxy hyz hxz.symm
  | _ :: _ :: _ :: _ :: _ =>
    simp only [List.length_cons] at hlength
    omega

/-! ## Syndromes of a binary word -/

omit [DecidableEq K] in
theorem binary_powerSum (points : List K) : Binary (powerSum points) := by
  intro j
  induction points with
  | nil => simp [powerSum]
  | cons x points ih => rw [powerSum_cons, powerSum_cons, ih, CharTwo.add_sq, mul_comm 2, pow_mul]

omit [CharP K 2] in
/-- **Failure.** The algorithm fails on the syndromes of a binary word when the first ones
are zero, one for each error. -/
theorem locate_eq_none_iff {t : ℕ} {s : ℕ → K} (hpos : 0 < t) (ht : t ≤ 3) (hs : Binary s) :
    locate t s = none ↔ ∀ j < t, s j = 0 := by
  have h2 : s 2 = s 1 ^ 2 := hs 1
  have hone : locator1 s = none ↔ s 0 = 0 := by
    rw [locator1]
    split_ifs with h0 <;> simp [h0]
  have htwo : locator2 s = none ↔ s 0 = 0 ∧ s 1 = 0 := by
    rw [locator2, det2]
    split_ifs with hdet
    · rw [hone]
      refine ⟨fun h0 => ⟨h0, ?_⟩, And.left⟩
      simpa [h0] using hdet
    · refine ⟨fun h => by simp at h, fun h => absurd ?_ hdet⟩
      simp [h.1, h.2]
  have hthree : locator3 s = none ↔ s 0 = 0 ∧ s 1 = 0 ∧ s 2 = 0 := by
    rw [locator3, det3]
    split_ifs with hdet
    · rw [htwo]
      refine ⟨fun h => ⟨h.1, h.2, ?_⟩, fun h => ⟨h.1, h.2.1⟩⟩
      simp [h2, h.2]
    · refine ⟨fun h => by simp at h, fun h => absurd ?_ hdet⟩
      simp [h.1, h.2.1, h.2.2]
  match t with
  | 1 => simp [locate, hone]
  | 2 =>
    rw [locate, htwo]
    grind
  | 3 =>
    rw [locate, hthree]
    grind

/-- When the syndrome of order zero has the parity of one error more than the system is for,
the system is singular. -/
theorem locate_of_parity {t : ℕ} {s : ℕ → K} (hs : Binary s) (ht : t < 3) (h0 : s 0 = t) :
    locate (t + 1) s = locate t s := by
  have h2 : s 2 = s 1 ^ 2 := hs 1
  have h4 : s 4 = s 2 ^ 2 := hs 2
  match t with
  | 0 =>
    rw [Nat.cast_zero] at h0
    rw [locate, locate, locator1, if_pos h0]
  | 1 =>
    rw [Nat.cast_one] at h0
    rw [locate, locate, locator2, if_pos]
    simp only [det2, h0, h2]
    grind
  | 2 =>
    rw [Nat.cast_ofNat, CharTwo.two_eq_zero] at h0
    rw [locate, locate, locator3, if_pos]
    simp only [det3, h0, h4, h2]
    grind

end CharTwo

/-! ## The number of roots -/

open Polynomial in
/-- An error locator polynomial with few coefficients has few roots. -/
theorem Locator.card_roots_le {l : Locator K} {zs : Finset K} (hroots : ∀ z ∈ zs, l.value z = 0) :
    zs.card ≤ 3 ∧ (l.2.2 = 0 → zs.card ≤ 2) ∧ (l.2 = 0 → zs.card ≤ 1) := by
  obtain ⟨a, b, c⟩ := l
  let p : K[X] := 1 + C a * X + C b * X ^ 2 + C c * X ^ 3
  have hne : p ≠ 0 := by
    intro hzero
    have hcoeff : p.coeff 0 = 1 := by simp [p]
    rw [hzero] at hcoeff
    exact zero_ne_one hcoeff
  have hsubset : zs.val ⊆ p.roots := by
    intro z hz
    rw [mem_roots hne, IsRoot.def]
    simpa [p, Locator.value] using hroots z hz
  have hcard := card_le_degree_of_subset_roots hsubset
  refine ⟨hcard.trans ?_, fun hc => hcard.trans ?_, fun hbc => hcard.trans ?_⟩
  · simp only [p]
    compute_degree
  · have hp : p = 1 + C a * X + C b * X ^ 2 := by simp [p, show c = 0 from hc]
    rw [hp]
    compute_degree
  · have hp : p = 1 + C a * X := by
      simp [p, show b = 0 from congrArg Prod.fst hbc, show c = 0 from congrArg Prod.snd hbc]
    rw [hp]
    compute_degree

variable [DecidableEq K]

/-- The algorithm finds a polynomial of the degree that it is for. -/
theorem card_roots_le_of_locate {t : ℕ} {s : ℕ → K} {l : Locator K} (h : locate t s = some l)
    {zs : Finset K} (hroots : ∀ z ∈ zs, l.value z = 0) : zs.card ≤ t := by
  obtain ⟨hthree, htwo, hone⟩ := Locator.card_roots_le hroots
  have hlocator1 {l : Locator K} (h : locator1 s = some l) : l.2 = 0 := by
    rw [locator1] at h
    split_ifs at h
    cases h
    rfl
  match t with
  | 0 => cases h
  | 1 => exact hone (hlocator1 h)
  | 2 =>
    apply htwo
    rw [locate, locator2] at h
    split_ifs at h
    · exact congrArg Prod.snd (hlocator1 h)
    · cases h
      rfl
  | t + 3 => exact hthree.trans (Nat.le_add_left 3 t)

end GrSatellites.Peterson
