import GrSatellites.Library.Peterson
import GrSatellites.Snet.Bch15

/-!
# The field of 16 elements

The tables of `python/bch15.py` make a field of characteristic two of the vectors of four
bits, and `exp_table` lists the powers of an element of order 15.
-/

namespace GrSatellites.Snet

/-! ## Logarithms -/

theorem exp_congr {k l : ℤ} (h : k % 15 = l % 15) : exp k = exp l := by rw [exp, exp, h]

/-- There are only 15 powers. -/
theorem exists_exp_eq (k : ℤ) : ∃ r < 15, k % 15 = (r : ℕ) ∧ exp k = exp (r : ℕ) := by
  have hnonneg := Int.emod_nonneg k (by norm_num : (15 : ℤ) ≠ 0)
  have hlt := Int.emod_lt_of_pos k (by norm_num : (0 : ℤ) < 15)
  refine ⟨(k % 15).toNat, by omega, (Int.toNat_of_nonneg hnonneg).symm, exp_congr ?_⟩
  rw [Int.toNat_of_nonneg hnonneg, Int.emod_emod_of_dvd _ dvd_rfl]

theorem exp_ne_zero (k : ℤ) : exp k ≠ 0 := by
  have h : ∀ r < 15, exp (r : ℕ) ≠ 0 := by decide
  obtain ⟨r, hr, -, heq⟩ := exists_exp_eq k
  rw [heq]
  exact h r hr

theorem log_exp (k : ℤ) : (log (exp k) : ℤ) = k % 15 := by
  have h : ∀ r < 15, log (exp (r : ℕ)) = r := by decide
  obtain ⟨r, hr, hmod, heq⟩ := exists_exp_eq k
  rw [heq, h r hr, hmod]

theorem exp_log {x : Element} (hx : x ≠ 0) : exp (log x) = x := by
  have h : ∀ x : Element, x ≠ 0 → exp (log x) = x := by decide
  exact h x hx

/-! ## Products -/

theorem zero_gfMult (x : Element) : gfMult 0 x = 0 := if_pos (Or.inl rfl)

theorem gfMult_comm (x y : Element) : gfMult x y = gfMult y x := by
  simp only [gfMult, or_comm, add_comm]

theorem gfMult_of_ne_zero {x y : Element} (hx : x ≠ 0) (hy : y ≠ 0) :
    gfMult x y = exp (log x + log y) := if_neg (not_or.mpr ⟨hx, hy⟩)

/-- Logarithms add. -/
theorem gfMult_exp (k l : ℤ) : gfMult (exp k) (exp l) = exp (k + l) := by
  rw [gfMult_of_ne_zero (exp_ne_zero k) (exp_ne_zero l), log_exp, log_exp]
  exact exp_congr (Int.emod_add_emod _ _ _ |>.trans (Int.add_emod_emod _ _ _))

theorem gfMult_assoc (x y z : Element) : gfMult (gfMult x y) z = gfMult x (gfMult y z) := by
  by_cases hx : x = 0
  · rw [hx, zero_gfMult, zero_gfMult, zero_gfMult]
  by_cases hy : y = 0
  · rw [hy, zero_gfMult, gfMult_comm x, zero_gfMult, zero_gfMult]
  by_cases hz : z = 0
  · rw [hz, gfMult_comm, zero_gfMult, gfMult_comm y, zero_gfMult, gfMult_comm, zero_gfMult]
  rw [← exp_log hx, ← exp_log hy, ← exp_log hz, gfMult_exp, gfMult_exp, gfMult_exp, gfMult_exp,
    add_assoc]

theorem one_gfMult (x : Element) : gfMult 8 x = x := by
  have h : ∀ x : Element, gfMult 8 x = x := by decide
  exact h x

/-- A product with a power respects exclusive or: the product with the first power does. -/
theorem exp_gfMult_xor (k : ℕ) (y z : Element) :
    gfMult (exp k) (y ^^^ z) = gfMult (exp k) y ^^^ gfMult (exp k) z := by
  have hfirst : ∀ y z : Element, gfMult (exp 1) (y ^^^ z) = gfMult (exp 1) y ^^^ gfMult (exp 1) z := by
    decide
  induction k with
  | zero =>
    have hone : exp (0 : ℕ) = 8 := rfl
    rw [hone, one_gfMult, one_gfMult, one_gfMult]
  | succ k ih =>
    have hsucc : exp (k + 1 : ℕ) = gfMult (exp 1) (exp k) := by
      rw [gfMult_exp, Nat.cast_add, Nat.cast_one, add_comm]
    rw [hsucc, gfMult_assoc, gfMult_assoc, gfMult_assoc, ih, hfirst]

theorem gfMult_xor (x y z : Element) : gfMult x (y ^^^ z) = gfMult x y ^^^ gfMult x z := by
  by_cases hx : x = 0
  · rw [hx, zero_gfMult, zero_gfMult, zero_gfMult]
    rfl
  · rw [← exp_log hx, exp_gfMult_xor]

theorem xor_gfMult (x y z : Element) : gfMult (x ^^^ y) z = gfMult x z ^^^ gfMult y z := by
  rw [gfMult_comm, gfMult_xor, gfMult_comm z, gfMult_comm z]

/-! ## The field -/

/-- The elements of GF(16), with exclusive or as the sum and `gf_mult` as the product. -/
def GF16 := Element

namespace GF16

instance : DecidableEq GF16 := inferInstanceAs (DecidableEq Element)

instance : Zero GF16 := ⟨(0 : Element)⟩

instance : One GF16 := ⟨(8 : Element)⟩

instance : Add GF16 := ⟨fun x y : Element => x ^^^ y⟩

instance : Neg GF16 := ⟨fun x => x⟩

instance : Mul GF16 := ⟨gfMult⟩

instance : Inv GF16 := ⟨fun x => (gfInv x).getD 0⟩

/-- The sum is its own difference, and the product distributes over it. -/
instance : CommRing GF16 where
  add_assoc := BitVec.xor_assoc
  zero_add _ := BitVec.zero_xor
  add_zero _ := BitVec.xor_zero
  add_comm := BitVec.xor_comm
  neg_add_cancel _ := BitVec.xor_self
  mul_assoc := gfMult_assoc
  one_mul := one_gfMult
  mul_one x := (gfMult_comm x 8).trans (one_gfMult x)
  mul_comm := gfMult_comm
  zero_mul := zero_gfMult
  mul_zero x := (gfMult_comm x 0).trans (zero_gfMult x)
  left_distrib := gfMult_xor
  right_distrib := xor_gfMult
  nsmul := nsmulRec
  zsmul := zsmulRec

theorem mul_inv {x : GF16} (hx : x ≠ 0) : x * x⁻¹ = 1 := by
  have h : ∀ x : Element, x ≠ 0 → gfMult x ((gfInv x).getD 0) = 8 := by decide
  exact h x hx

/-- **Field.** The tables are those of a field. -/
instance : Field GF16 where
  exists_pair_ne := ⟨0, 1, by decide⟩
  inv_zero := rfl
  mul_inv_cancel _ := mul_inv
  nnqsmul := _
  nnqsmul_def := fun _ _ => rfl
  qsmul := _
  qsmul_def := fun _ _ => rfl

instance : CharP GF16 2 := CharTwo.of_one_ne_zero_of_two_eq_zero one_ne_zero rfl

/-- An element of the tables in the field. -/
def ofElement (x : Element) : GF16 := x

theorem ofElement_xor (x y : Element) : ofElement (x ^^^ y) = ofElement x + ofElement y := rfl

theorem ofElement_gfMult (x y : Element) : ofElement (gfMult x y) = ofElement x * ofElement y := rfl

theorem ofElement_eq_zero_iff {x : Element} : ofElement x = 0 ↔ x = 0 := Iff.rfl

/-- The element that generates the powers. -/
def a : GF16 := ofElement 4

theorem a_ne_zero : a ≠ 0 := by decide

/-- `exp_table` lists the powers. -/
theorem ofElement_exp (k : ℤ) : ofElement (exp k) = a ^ k := by
  have hnat (n : ℕ) : ofElement (exp n) = a ^ n := by
    induction n with
    | zero => rfl
    | succ n ih =>
      rw [pow_succ, ← ih, Nat.cast_add, ← gfMult_exp]
      rfl
  cases k with
  | ofNat n =>
    rw [Int.ofNat_eq_natCast, zpow_natCast]
    exact hnat n
  | negSucc n =>
    rw [zpow_negSucc, ← hnat]
    apply eq_inv_of_mul_eq_one_left
    rw [← ofElement_gfMult, gfMult_exp, Int.negSucc_eq, Nat.cast_add, Nat.cast_one, neg_add_cancel]
    rfl

/-- The generator has order 15. -/
theorem a_pow_injOn : Set.InjOn (fun k : ℕ => a ^ k) (Set.Iio 15) := by
  have h : ∀ k < 15, ∀ l < 15, exp (k : ℕ) = exp (l : ℕ) → k = l := by decide
  intro k hk l hl heq
  apply h k hk l hl
  have hk' := ofElement_exp k
  have hl' := ofElement_exp l
  rw [zpow_natCast] at hk' hl'
  exact hk'.trans (Eq.trans heq hl'.symm)

end GF16

end GrSatellites.Snet
