import Mathlib.Algebra.Order.Field.Basic
import Mathlib.Data.List.Pairwise
import Mathlib.Tactic.Linarith
import Mathlib.Tactic.Ring

/-!
# Interpolation in a table

The piecewise linear function through the points of a table, and a cursor into the
table that moves back and forth to the segment of an argument.
-/

namespace GrSatellites.Interpolation

variable {K : Type} [Field K] [LinearOrder K]

/-- The function through the points of a table, constant before the first point and after the
last one. -/
def interpolate : List (K × K) → K → K
  | [], _ => 0
  | [p], _ => p.2
  | p :: q :: table, t =>
    if t < p.1 then p.2
    else if t < q.1 then
      (1 - (t - p.1) / (q.1 - p.1)) * p.2 + (t - p.1) / (q.1 - p.1) * q.2
    else interpolate (q :: table) t

/-- A multiple of the values gives a multiple of the function. -/
theorem interpolate_map_mul (a : K) (table : List (K × K)) (t : K) :
    interpolate (table.map fun p => (p.1, a * p.2)) t = a * interpolate table t := by
  induction table with
  | nil => exact (mul_zero a).symm
  | cons p table ih =>
    cases table with
    | nil => rfl
    | cons q table =>
      rw [List.map_cons] at ih ⊢
      rw [List.map_cons, interpolate, interpolate, ih, mul_ite, mul_ite]
      refine if_congr Iff.rfl rfl (if_congr Iff.rfl ?_ rfl)
      ring

/-- The argument of a point. -/
def time (table : List (K × K)) (k : ℕ) : K := (table.getD k (0, 0)).1

/-- The value of a point. -/
def value (table : List (K × K)) (k : ℕ) : K := (table.getD k (0, 0)).2

/-- The value on the segment after a point: constant before the point, and if it is the last. -/
def segment (table : List (K × K)) (k : ℕ) (t : K) : K :=
  if t < time table k ∨ k + 1 = table.length then value table k
  else
    let alpha := (t - time table k) / (time table (k + 1) - time table k)
    (1 - alpha) * value table k + alpha * value table (k + 1)

/-- Move a cursor back while its point is after the argument. -/
def rewind (table : List (K × K)) (t : K) : ℕ → ℕ
  | 0 => 0
  | k + 1 => if t < time table (k + 1) then rewind table t k else k + 1

/-- Move a cursor forward while the next point is not after the argument. -/
def advance (table : List (K × K)) (t : K) : ℕ → ℕ → ℕ
  | 0, k => k
  | rounds + 1, k =>
    if k + 1 < table.length ∧ time table (k + 1) ≤ t then advance table t rounds (k + 1) else k

variable {table : List (K × K)} {t : K} {k rounds : ℕ}

section

omit [LinearOrder K]

@[simp] theorem time_cons_zero (p : K × K) (table : List (K × K)) : time (p :: table) 0 = p.1 := rfl

@[simp] theorem time_cons_succ (p : K × K) (table : List (K × K)) (k : ℕ) :
    time (p :: table) (k + 1) = time table k := rfl

@[simp] theorem value_cons_zero (p : K × K) (table : List (K × K)) :
    value (p :: table) 0 = p.2 := rfl

@[simp] theorem value_cons_succ (p : K × K) (table : List (K × K)) (k : ℕ) :
    value (p :: table) (k + 1) = value table k := rfl

end

theorem segment_cons (p q : K × K) (table : List (K × K)) (k : ℕ) (t : K) :
    segment (p :: q :: table) (k + 1) t = segment (q :: table) k t := by
  unfold segment
  refine if_congr ?_ rfl rfl
  rw [time_cons_succ, List.length_cons, Nat.add_right_cancel_iff]

/-- The points are in the order of their arguments. -/
def Sorted (table : List (K × K)) : Prop := table.Pairwise fun p q => p.1 < q.1

omit [Field K] in
theorem Sorted.tail {p : K × K} (h : Sorted (p :: table)) : Sorted table :=
  (List.pairwise_cons.mp h).2

theorem Sorted.head_lt {p : K × K} (h : Sorted (p :: table)) (hk : k < table.length) :
    p.1 < time table k := by
  rw [time, List.getD_eq_getElem?_getD, List.getElem?_eq_getElem hk, Option.getD_some]
  exact (List.pairwise_cons.mp h).1 _ (List.getElem_mem hk)

theorem Sorted.time_le (hsorted : Sorted table) {i j : ℕ} (hij : i ≤ j) (hj : j < table.length) :
    time table i ≤ time table j := by
  induction table generalizing i j with
  | nil => cases hj
  | cons p table ih =>
    cases j with
    | zero =>
      obtain rfl : i = 0 := Nat.le_zero.mp hij
      exact le_rfl
    | succ j =>
      have hj' : j < table.length := Nat.lt_of_succ_lt_succ hj
      cases i with
      | zero => exact (hsorted.head_lt hj').le
      | succ i => exact ih hsorted.tail (Nat.le_of_succ_le_succ hij) hj'

theorem Sorted.time_lt (hsorted : Sorted table) (hk : k + 1 < table.length) :
    time table k < time table (k + 1) := by
  have hlt := List.pairwise_iff_getElem.mp hsorted k (k + 1) (by omega) hk k.lt_succ_self
  rw [time, time, List.getD_eq_getElem?_getD, List.getD_eq_getElem?_getD,
    List.getElem?_eq_getElem hk, List.getElem?_eq_getElem (Nat.lt_of_succ_lt hk)]
  exact hlt

/-- No point comes before the one that it follows. -/
def Ordered (table : List (K × K)) : Prop := table.Pairwise fun p q => p.1 ≤ q.1

omit [Field K] in
theorem Sorted.ordered (h : Sorted table) : Ordered table := h.imp le_of_lt

omit [Field K] in
theorem Ordered.tail {p : K × K} (h : Ordered (p :: table)) : Ordered table :=
  (List.pairwise_cons.mp h).2

theorem Ordered.head_le {p : K × K} (h : Ordered (p :: table)) (hk : k < table.length) :
    p.1 ≤ time table k := by
  rw [time, List.getD_eq_getElem?_getD, List.getElem?_eq_getElem hk, Option.getD_some]
  exact (List.pairwise_cons.mp h).1 _ (List.getElem_mem hk)

/-- **Segments.** The cursor may be at any point that is not after the argument, or at the
first, if the next point is after it. -/
theorem interpolate_eq_segment (hordered : Ordered table) (hk : k < table.length)
    (hlow : k = 0 ∨ time table k ≤ t) (hhigh : k + 1 < table.length → t < time table (k + 1)) :
    interpolate table t = segment table k t := by
  induction table generalizing k with
  | nil => cases hk
  | cons p table ih =>
    cases table with
    | nil =>
      have hzero : k = 0 := by simpa using hk
      subst hzero
      exact (if_pos (Or.inr rfl)).symm
    | cons q table =>
      cases k with
      | zero =>
        have hlt : t < q.1 := hhigh (by simp)
        rw [interpolate, if_pos hlt, segment]
        by_cases hbefore : t < p.1
        · have hbefore' : t < time (p :: q :: table) 0 := hbefore
          rw [if_pos hbefore, if_pos (Or.inl hbefore'), value_cons_zero]
        · have hinside : ¬(t < time (p :: q :: table) 0 ∨ 0 + 1 = (p :: q :: table).length) := by
            simpa using hbefore
          rw [if_neg hbefore, if_neg hinside]
          rfl
      | succ k =>
        have hk' : k < (q :: table).length := by simpa using hk
        have htime : time (q :: table) k ≤ t := hlow.resolve_left (Nat.succ_ne_zero k)
        have hq : q.1 ≤ time (q :: table) k := by
          cases k with
          | zero => exact le_rfl
          | succ k => exact hordered.tail.head_le (Nat.lt_of_succ_lt_succ hk')
        have hp : p.1 ≤ time (q :: table) k := hordered.head_le hk'
        rw [interpolate, if_neg (not_lt.mpr (hp.trans htime)),
          if_neg (not_lt.mpr (hq.trans htime)), segment_cons]
        refine ih hordered.tail hk' (Or.inr htime) fun hlast => ?_
        exact hhigh (by simpa using hlast)

/-- The function goes through the points. -/
theorem interpolate_time (hsorted : Sorted table) (hk : k < table.length) :
    interpolate table (time table k) = value table k := by
  rw [interpolate_eq_segment hsorted.ordered hk (Or.inr le_rfl) hsorted.time_lt, segment]
  split
  case isTrue => rfl
  case isFalse => simp only [sub_self, zero_div, sub_zero, one_mul, zero_mul, add_zero]

/-! ## The cursor -/

theorem rewind_le (table : List (K × K)) (t : K) (k : ℕ) : rewind table t k ≤ k := by
  induction k with
  | zero => exact Nat.le_refl 0
  | succ k ih =>
    rw [rewind]
    split <;> omega

/-- After moving back, the cursor is at the first point or at one that is not after the
argument. -/
theorem rewind_spec (table : List (K × K)) (t : K) (k : ℕ) :
    rewind table t k = 0 ∨ time table (rewind table t k) ≤ t := by
  induction k with
  | zero => exact Or.inl rfl
  | succ k ih =>
    rw [rewind]
    split
    case isTrue => exact ih
    case isFalse hle => exact Or.inr (not_lt.mp hle)

theorem advance_lt (hk : k < table.length) : advance table t rounds k < table.length := by
  induction rounds generalizing k with
  | zero => exact hk
  | succ rounds ih =>
    rw [advance]
    split
    case isTrue hnext => exact ih hnext.1
    case isFalse => exact hk

/-- Moving forward keeps the cursor at the first point or not after the argument. -/
theorem advance_low (hlow : k = 0 ∨ time table k ≤ t) :
    advance table t rounds k = 0 ∨ time table (advance table t rounds k) ≤ t := by
  induction rounds generalizing k with
  | zero => exact hlow
  | succ rounds ih =>
    rw [advance]
    split
    case isTrue hnext => exact ih (Or.inr hnext.2)
    case isFalse => exact hlow

/-- With enough rounds, the next point is after the argument. -/
theorem advance_high (hrounds : table.length ≤ k + rounds + 1)
    (hlast : advance table t rounds k + 1 < table.length) :
    t < time table (advance table t rounds k + 1) := by
  induction rounds generalizing k with
  | zero =>
    rw [advance] at hlast
    omega
  | succ rounds ih =>
    rw [advance] at hlast ⊢
    split at hlast
    case isTrue hnext =>
      rw [if_pos hnext]
      exact ih (by omega) hlast
    case isFalse hstop =>
      rw [if_neg hstop]
      exact not_le.mp fun hle => hstop ⟨hlast, hle⟩

/-- **Moving forward.** From the first point, or from one that is not after the argument, the
cursor reaches the segment of the argument. -/
theorem segment_advance (hordered : Ordered table) (hk : k < table.length)
    (hlow : k = 0 ∨ time table k ≤ t) :
    segment table (advance table t table.length k) t = interpolate table t :=
  (interpolate_eq_segment hordered (advance_lt hk) (advance_low hlow)
    (advance_high (by omega))).symm

/-! ## A last point that is repeated -/

/-- Repetitions of the last point change nothing. -/
theorem interpolate_append_replicate (p : K × K) (table : List (K × K)) (n : ℕ) (t : K) :
    interpolate (table ++ p :: List.replicate n p) t = interpolate (table ++ [p]) t := by
  induction table with
  | nil =>
    induction n with
    | zero => rfl
    | succ n ih =>
      rw [List.nil_append, List.nil_append] at ih ⊢
      by_cases hlt : t < p.1
      · exact if_pos hlt
      · exact (if_neg hlt).trans ((if_neg hlt).trans ih)
  | cons q table ih =>
    cases table with
    | nil =>
      simp only [List.cons_append, List.nil_append] at ih ⊢
      rw [interpolate, interpolate, ih]
    | cons r table =>
      simp only [List.cons_append] at ih ⊢
      rw [interpolate, interpolate, ih]

omit [Field K] in
theorem Ordered.append_replicate {p : K × K} (h : Ordered (table ++ [p])) (n : ℕ) :
    Ordered (table ++ p :: List.replicate n p) := by
  obtain ⟨htable, -, hall⟩ := List.pairwise_append.mp h
  refine List.pairwise_append.mpr ⟨htable, ?_, fun q hq r hr => ?_⟩
  · exact (List.pairwise_replicate (n := n + 1)).mpr (Or.inr le_rfl)
  · rw [List.eq_of_mem_replicate (n := n + 1) hr]
    exact hall q hq p (List.mem_singleton_self p)

/-! ## Bounds -/

omit [LinearOrder K] in
theorem value_mem (hk : k < table.length) : ∃ p ∈ table, p.2 = value table k := by
  refine ⟨table[k], List.getElem_mem hk, ?_⟩
  rw [value, List.getD_eq_getElem?_getD, List.getElem?_eq_getElem hk, Option.getD_some]

omit [LinearOrder K] in
theorem exists_value_eq {p : K × K} (hp : p ∈ table) :
    ∃ k < table.length, value table k = p.2 := by
  obtain ⟨k, hk, rfl⟩ := List.getElem_of_mem hp
  refine ⟨k, hk, ?_⟩
  rw [value, List.getD_eq_getElem?_getD, List.getElem?_eq_getElem hk, Option.getD_some]

/-- The value on a segment lies between the values of two points. -/
theorem segment_convex [IsStrictOrderedRing K] (hk : k < table.length)
    (hhigh : k + 1 < table.length → t < time table (k + 1)) :
    ∃ p ∈ table, ∃ q ∈ table, ∃ alpha : K, 0 ≤ alpha ∧ alpha < 1 ∧
      segment table k t = (1 - alpha) * p.2 + alpha * q.2 := by
  obtain ⟨p, hp, hpk⟩ := value_mem hk
  rw [segment, ← hpk]
  split
  case isTrue => exact ⟨p, hp, p, hp, 0, le_rfl, zero_lt_one, by ring⟩
  case isFalse hinside =>
    have hbefore : time table k ≤ t := not_lt.mp fun hlt => hinside (Or.inl hlt)
    have hnext : k + 1 < table.length := by
      have hlast : k + 1 ≠ table.length := fun heq => hinside (Or.inr heq)
      omega
    have hafter : t < time table (k + 1) := hhigh hnext
    have hwidth : 0 < time table (k + 1) - time table k := by linarith
    obtain ⟨q, hq, hqk⟩ := value_mem hnext
    refine ⟨p, hp, q, hq, _, ?_, ?_, by rw [hqk]⟩
    · exact div_nonneg (by linarith) hwidth.le
    · rw [div_lt_one hwidth]
      linarith

/-- A bound on the values of the points is a bound on the value on a segment. -/
theorem le_segment [IsStrictOrderedRing K] {b : K} (hk : k < table.length)
    (hhigh : k + 1 < table.length → t < time table (k + 1)) (hall : ∀ p ∈ table, b ≤ p.2) :
    b ≤ segment table k t := by
  obtain ⟨p, hp, q, hq, alpha, hnonneg, hlt, heq⟩ := segment_convex hk hhigh
  have hfirst := mul_le_mul_of_nonneg_left (hall p hp) (by linarith : 0 ≤ 1 - alpha)
  have hsecond := mul_le_mul_of_nonneg_left (hall q hq) hnonneg
  linarith

theorem segment_le [IsStrictOrderedRing K] {b : K} (hk : k < table.length)
    (hhigh : k + 1 < table.length → t < time table (k + 1)) (hall : ∀ p ∈ table, p.2 ≤ b) :
    segment table k t ≤ b := by
  obtain ⟨p, hp, q, hq, alpha, hnonneg, hlt, heq⟩ := segment_convex hk hhigh
  have hfirst := mul_le_mul_of_nonneg_left (hall p hp) (by linarith : 0 ≤ 1 - alpha)
  have hsecond := mul_le_mul_of_nonneg_left (hall q hq) hnonneg
  linarith

theorem lt_segment [IsStrictOrderedRing K] {b : K} (hk : k < table.length)
    (hhigh : k + 1 < table.length → t < time table (k + 1)) (hall : ∀ p ∈ table, b < p.2) :
    b < segment table k t := by
  obtain ⟨p, hp, q, hq, alpha, hnonneg, hlt, heq⟩ := segment_convex hk hhigh
  have hfirst := mul_lt_mul_of_pos_left (hall p hp) (by linarith : 0 < 1 - alpha)
  have hsecond := mul_le_mul_of_nonneg_left (hall q hq).le hnonneg
  linarith

/-- Before a point and the next one, the cursor stays and reads the value of the point. -/
theorem segment_advance_of_lt (hbefore : t < time table k) (hnext : t < time table (k + 1)) :
    segment table (advance table t rounds k) t = value table k := by
  have hstay : advance table t rounds k = k := by
    cases rounds with
    | zero => rfl
    | succ rounds => exact if_neg fun h => absurd h.2 (not_le.mpr hnext)
  rw [hstay, segment, if_pos (Or.inl hbefore)]

end GrSatellites.Interpolation
