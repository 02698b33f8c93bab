import GrSatellites.Basic
import GrSatellites.Library.Weight

/-!
# BCH codes of length 15

The decoder of `python/bch15.py`. The elements of GF(16) are added by exclusive or, and the
element 8 is the one.
-/

namespace GrSatellites.Snet

/-- The elements of GF(16). -/
abbrev Element := BitVec 4

/-- `exp_table`. -/
def expTable : List Element := [8, 4, 2, 1, 12, 6, 3, 13, 10, 5, 14, 7, 15, 11, 9]

/-- `log_table`. -/
def logTable : List ℕ := [3, 2, 6, 1, 9, 5, 11, 0, 14, 8, 13, 4, 7, 10, 12]

/-- `exp_table[k % len(exp_table)]`. -/
def exp (k : ℤ) : Element := expTable.getD (k % 15).toNat 0

/-- `log_table[x-1]`. -/
def log (x : Element) : ℕ := logTable.getD (x.toNat - 1) 0

/-- `gf_mult`. -/
def gfMult (x y : Element) : Element := if x = 0 ∨ y = 0 then 0 else exp (log x + log y)

/-- `gf_inv`, which raises `ValueError` for zero. -/
def gfInv (x : Element) : Option Element := if x = 0 then none else some (exp (-log x))

/-- `compute_syndrome`. The loop goes through the bits from the last one. -/
def computeSyndrome (p j : ℕ) : Element :=
  ((List.range 15).reverse.foldl (fun (s, p) k =>
    (if p % 2 = 1 then s ^^^ exp (k * j) else s, p / 2)) (0, p)).1

/-- The coefficients `L[1]`, `L[2]` and `L[3]` of the error locator polynomial. -/
abbrev Locator := Element × Element × Element

/-- The branch of `compute_error_locations` for two syndromes. -/
def locator1 (s0 s1 : Element) : Option Locator :=
  (gfInv s0).map fun inv => (gfMult s1 inv, 0, 0)

/-- The branch for four syndromes; two are thrown away if the matrix is singular. -/
def locator2 (s0 s1 s2 s3 : Element) : Option Locator :=
  let detS := gfMult s0 s2 ^^^ gfMult s1 s1
  if detS = 0 then locator1 s0 s1
  else
    (gfInv detS).map fun invDetS =>
      (gfMult (gfMult s0 s3 ^^^ gfMult s2 s1) invDetS,
        gfMult (gfMult s2 s2 ^^^ gfMult s3 s1) invDetS, 0)

/-- The branch for six syndromes. -/
def locator3 (s0 s1 s2 s3 s4 s5 : Element) : Option Locator :=
  let detS := gfMult (gfMult s0 s2) s4 ^^^ gfMult (gfMult s2 s2) s2 ^^^
    gfMult (gfMult s1 s1) s4 ^^^ gfMult (gfMult s3 s3) s0
  if detS = 0 then locator2 s0 s1 s2 s3
  else
    (gfInv detS).map fun invDetS =>
      (gfMult (gfMult (gfMult s0 s2) s5 ^^^ gfMult (gfMult s1 s3) s3 ^^^
          gfMult (gfMult s4 s1) s2 ^^^ gfMult (gfMult s2 s2) s3 ^^^
          gfMult (gfMult s1 s1) s5 ^^^ gfMult (gfMult s0 s3) s4) invDetS,
        gfMult (gfMult (gfMult s0 s4) s4 ^^^ gfMult (gfMult s1 s2) s5 ^^^
          gfMult (gfMult s3 s3) s2 ^^^ gfMult (gfMult s2 s2) s4 ^^^
          gfMult (gfMult s1 s3) s4 ^^^ gfMult (gfMult s0 s3) s5) invDetS,
        gfMult (gfMult (gfMult s3 s2) s4 ^^^ gfMult (gfMult s1 s3) s5 ^^^
          gfMult (gfMult s4 s3) s2 ^^^ gfMult (gfMult s2 s2) s5 ^^^
          gfMult (gfMult s1 s4) s4 ^^^ gfMult (gfMult s3 s3) s3) invDetS)

/-- The brute-force search for the roots of the error locator polynomial. -/
def roots : Locator → List ℕ
  | (l1, l2, l3) => (List.range 15).filter fun j =>
    exp 0 ^^^ gfMult l1 (exp (-j)) ^^^ gfMult l2 (exp (-2 * j)) ^^^ gfMult l3 (exp (-3 * j)) = 0

/-- `compute_error_locations`. -/
def computeErrorLocations : List Element → Option (List ℕ)
  | [s0, s1] => (locator1 s0 s1).map roots
  | [s0, s1, s2, s3] => (locator2 s0 s1 s2 s3).map roots
  | [s0, s1, s2, s3, s4, s5] => (locator3 s0 s1 s2 s3 s4 s5).map roots
  | _ => some (roots (0, 0, 0))

/-- The syndromes of a row. -/
def syndromes (bits : BitVec 15) (d : ℕ) : List Element :=
  (List.range (d - 1)).map (computeSyndrome bits.toNat)

/-- `bits[e] ^= 1` for the given places `e`, counted from the top. -/
def flip (bits : BitVec 15) (errors : List ℕ) : BitVec 15 :=
  errors.foldl (fun bits e => bits ^^^ BitVec.twoPow 15 (14 - e)) bits

/-- `decode_bch15`: what it returns, and the row that it leaves. The bits of a row are those of
its integer from the top. -/
def decodeBch15 (bits : BitVec 15) (d : ℕ) : Bool × BitVec 15 :=
  if (syndromes bits d).all (· = 0) then (true, bits)
  else
    match computeErrorLocations (syndromes bits d) with
    | none => (false, bits)
    | some errors => (true, flip bits errors)

end GrSatellites.Snet
