import Mathlib.Data.Nat.Notation
import Mathlib.Tactic.Ring

/-!
# Weights and linear maps of bit vectors

The weight of a bit vector is its number of set bits. Maps that respect XOR are
determined by the vectors with one set bit, and the vectors of small weight can be
searched by a recursion on the places of their bits.
-/

namespace GrSatellites.Weight

variable {w v : ℕ}

/-- The number of set bits. -/
def weight (x : BitVec w) : ℕ := x.cpopNatRec w 0

theorem weight_eq_cpop (x : BitVec w) : weight x = x.cpop.toNat := BitVec.toNat_cpop x |>.symm

@[simp] theorem weight_zero : weight 0#w = 0 := BitVec.cpopNatRec_zero

theorem weight_append (x : BitVec w) (y : BitVec v) : weight (x ++ y) = weight x + weight y := by
  rw [weight_eq_cpop, weight_eq_cpop, weight_eq_cpop, BitVec.toNat_cpop_append]

theorem weight_setWidth (x : BitVec w) (h : w ≤ v) : weight (x.setWidth v) = weight x := by
  rw [weight_eq_cpop, weight_eq_cpop, BitVec.toNat_cpop_setWidth_eq_of_le h]

theorem cpopNatRec_xor (x y : BitVec w) (n : ℕ) :
    (x ^^^ y).cpopNatRec n 0 + 2 * (x &&& y).cpopNatRec n 0 =
      x.cpopNatRec n 0 + y.cpopNatRec n 0 := by
  induction n with
  | zero => rfl
  | succ n ih =>
    simp only [BitVec.cpopNatRec_succ, BitVec.cpopNatRec_add, BitVec.getLsbD_xor,
      BitVec.getLsbD_and]
    cases x.getLsbD n <;> cases y.getLsbD n <;> simp <;> omega

/-- The weight of a sum: common bits cancel. -/
theorem weight_xor (x y : BitVec w) :
    weight (x ^^^ y) + 2 * weight (x &&& y) = weight x + weight y := cpopNatRec_xor x y w

theorem weight_xor_le (x y : BitVec w) : weight (x ^^^ y) ≤ weight x + weight y := by
  have := weight_xor x y
  omega

theorem cpopNatRec_twoPow {i : ℕ} (hi : i < w) (n : ℕ) :
    (BitVec.twoPow w i).cpopNatRec n 0 = if i < n then 1 else 0 := by
  induction n with
  | zero => rfl
  | succ n ih =>
    rw [BitVec.cpopNatRec_succ, BitVec.cpopNatRec_add, ih, BitVec.getLsbD_twoPow]
    rcases Nat.lt_trichotomy i n with hlt | rfl | hgt
    · simp [hlt, hlt.ne, hi, Nat.lt_succ_of_lt hlt]
    · simp [hi]
    · have hnot : ¬ i < n + 1 := by omega
      simp [hgt.ne', Nat.not_lt.mpr hgt.le, hnot]

theorem weight_twoPow {i : ℕ} (hi : i < w) : weight (BitVec.twoPow w i) = 1 := by
  rw [weight, cpopNatRec_twoPow hi, if_pos hi]

/-- Clearing a set bit. -/
theorem weight_xor_twoPow {x : BitVec w} {i : ℕ} (h : x.getLsbD i = true) :
    weight x = weight (x ^^^ BitVec.twoPow w i) + 1 := by
  have hi := BitVec.lt_of_getLsbD h
  have hand : x &&& BitVec.twoPow w i = BitVec.twoPow w i := by
    apply BitVec.eq_of_getLsbD_eq
    intro j hj
    rw [BitVec.getLsbD_and, BitVec.getLsbD_twoPow]
    by_cases hij : i = j
    · simp [← hij, h]
    · simp [hij]
  have hsum := weight_xor x (BitVec.twoPow w i)
  rw [hand, weight_twoPow hi] at hsum
  omega

theorem exists_getLsbD_of_ne_zero {x : BitVec w} (h : x ≠ 0#w) : ∃ i, x.getLsbD i = true := by
  by_contra hnone
  push Not at hnone
  exact h (BitVec.eq_of_getLsbD_eq fun i _ => by simpa using hnone i)

theorem eq_zero_of_weight {x : BitVec w} (h : weight x = 0) : x = 0#w := by
  by_contra hne
  obtain ⟨i, hi⟩ := exists_getLsbD_of_ne_zero hne
  have := weight_xor_twoPow hi
  omega

/-- A vector that is not zero is a unit vector and one of less weight. -/
theorem exists_twoPow_xor {x : BitVec w} (h : weight x ≠ 0) :
    ∃ i < w, ∃ y, x = BitVec.twoPow w i ^^^ y ∧ weight x = weight y + 1 := by
  have hne : x ≠ 0#w := by
    rintro rfl
    exact h weight_zero
  obtain ⟨i, hi⟩ := exists_getLsbD_of_ne_zero hne
  refine ⟨i, BitVec.lt_of_getLsbD hi, x ^^^ BitVec.twoPow w i, ?_, weight_xor_twoPow hi⟩
  rw [BitVec.xor_comm x, ← BitVec.xor_assoc, BitVec.xor_self, BitVec.zero_xor]

theorem exists_twoPow_of_weight_one {x : BitVec w} (h : weight x = 1) :
    ∃ i < w, x = BitVec.twoPow w i := by
  obtain ⟨i, hi, y, rfl, hy⟩ := exists_twoPow_xor (x := x) (by omega)
  have hzero := eq_zero_of_weight (x := y) (by omega)
  exact ⟨i, hi, by rw [hzero, BitVec.xor_zero]⟩

/-! ## Linear maps -/

/-- A map that respects XOR. -/
def XorLinear (f : BitVec w → BitVec v) : Prop := ∀ x y, f (x ^^^ y) = f x ^^^ f y

theorem XorLinear.map_zero {f : BitVec w → BitVec v} (h : XorLinear f) : f 0#w = 0#v := by
  have := h 0#w 0#w
  rwa [BitVec.xor_self, BitVec.xor_self] at this

theorem xorLinear_id : XorLinear fun x : BitVec w => x := fun _ _ => rfl

theorem xorLinear_setWidth : XorLinear fun x : BitVec w => x.setWidth v :=
  fun _ _ => BitVec.setWidth_xor

theorem xorLinear_extractLsb (start : ℕ) : XorLinear fun x : BitVec w => x.extractLsb' start v :=
  fun _ _ => BitVec.extractLsb'_xor

theorem xorLinear_and (mask : BitVec w) : XorLinear fun x => mask &&& x := fun x y => by
  apply BitVec.eq_of_getLsbD_eq
  intro i _
  simp [Bool.and_xor_distrib_left]

theorem XorLinear.comp {u : ℕ} {g : BitVec v → BitVec u} {f : BitVec w → BitVec v}
    (hg : XorLinear g) (hf : XorLinear f) : XorLinear fun x => g (f x) := fun x y => by
  simp only [hf x y, hg (f x) (f y)]

theorem XorLinear.xor {f g : BitVec w → BitVec v} (hf : XorLinear f) (hg : XorLinear g) :
    XorLinear fun x => f x ^^^ g x := fun x y => by
  simp only [hf x y, hg x y]
  ac_rfl

/-- **Basis.** Two linear maps that agree on the unit vectors are equal. -/
theorem XorLinear.ext {f g : BitVec w → BitVec v} (hf : XorLinear f) (hg : XorLinear g)
    (h : ∀ i < w, f (BitVec.twoPow w i) = g (BitVec.twoPow w i)) : f = g := by
  funext x
  induction hn : weight x generalizing x with
  | zero => rw [eq_zero_of_weight hn, hf.map_zero, hg.map_zero]
  | succ n ih =>
    obtain ⟨i, hi, y, rfl, hy⟩ := exists_twoPow_xor (x := x) (by omega)
    rw [hf, hg, h i hi, ih y (by omega)]

/-! ## Vectors of small weight -/

/-- A test of all vectors that differ from one in a number of low bits at most. -/
def forAllWithin (p : BitVec w → Bool) : ℕ → ℕ → BitVec w → Bool
  | 0, _, x => p x
  | place + 1, budget, x =>
    forAllWithin p place budget x &&
      (budget == 0 || forAllWithin p place (budget - 1) (x ^^^ BitVec.twoPow w place))

theorem forAllWithin_low {p : BitVec w → Bool} {place budget : ℕ} {x e : BitVec w}
    (h : forAllWithin p place budget x = true) (hplace : ∀ i, place ≤ i → e.getLsbD i = false)
    (hbudget : weight e ≤ budget) : p (x ^^^ e) = true := by
  induction place generalizing budget x e with
  | zero =>
    have hzero : e = 0#w := BitVec.eq_of_getLsbD_eq fun i _ => by simpa using hplace i (Nat.zero_le i)
    rwa [hzero, BitVec.xor_zero]
  | succ place ih =>
    rw [forAllWithin, Bool.and_eq_true, Bool.or_eq_true, beq_iff_eq] at h
    cases hbit : e.getLsbD place with
    | false =>
      refine ih h.1 (fun i hi => ?_) hbudget
      rcases hi.eq_or_lt with rfl | hlt
      · exact hbit
      · exact hplace i hlt
    | true =>
      have hweight := weight_xor_twoPow hbit
      have hrest : p (x ^^^ BitVec.twoPow w place ^^^ (e ^^^ BitVec.twoPow w place)) = true := by
        refine ih (h.2.resolve_left (by omega)) (fun i hi => ?_) (by omega)
        rw [BitVec.getLsbD_xor, BitVec.getLsbD_twoPow]
        rcases hi.eq_or_lt with rfl | hlt
        · simp [hbit, BitVec.lt_of_getLsbD hbit]
        · simp [hplace i hlt, hlt.ne]
      rwa [BitVec.xor_comm e, BitVec.xor_assoc, ← BitVec.xor_assoc (BitVec.twoPow w place),
        BitVec.xor_self, BitVec.zero_xor] at hrest

/-- **Search.** The test decides a property of all vectors of small weight. -/
theorem of_forAllWithin {p : BitVec w → Bool} {budget : ℕ} {e : BitVec w}
    (h : forAllWithin p w budget 0#w = true) (he : weight e ≤ budget) : p e = true := by
  have := forAllWithin_low h (fun i hi => BitVec.getLsbD_of_ge e i hi) he
  rwa [BitVec.zero_xor] at this

end GrSatellites.Weight
