import Mathlib.Algebra.BigOperators.Intervals
import Mathlib.Algebra.Order.Floor.Div
import Mathlib.Data.List.GetD
import Mathlib.Tactic.Ring

/-!
# Interleaved paths

A list of `n * depth` items is made of `depth` interleaved paths of `n` items: the path `j` has
the items at the places `j + k * depth`. Paths are read and written one by one.
-/

namespace GrSatellites.Interleave

variable {α : Type} [Inhabited α] {depth n i j k : ℕ} {out xs ys : List α}

/-- The first `n` items of a path. -/
def gather (xs : List α) (depth n j : ℕ) : List α :=
  (List.range n).map fun k => xs.getD (j + k * depth) default

/-- Write items to a path, from a place on. -/
def scatter (depth : ℕ) : List α → ℕ → List α → List α
  | out, _, [] => out
  | out, j, x :: xs => scatter depth (out.set j x) (j + depth) xs

@[simp] theorem length_gather (xs : List α) (depth n j : ℕ) : (gather xs depth n j).length = n := by
  rw [gather, List.length_map, List.length_range]

theorem getD_gather (hk : k < n) :
    (gather xs depth n j).getD k default = xs.getD (j + k * depth) default := by
  rw [gather, List.getD_eq_getElem?_getD, List.getElem?_map, List.getElem?_range hk]
  rfl

/-! ## Writing -/

section

omit [Inhabited α]

@[simp] theorem length_scatter (out : List α) (j : ℕ) (xs : List α) :
    (scatter depth out j xs).length = out.length := by
  induction xs generalizing out j with
  | nil => rfl
  | cons x xs ih => rw [scatter, ih, List.length_set]

/-- The places of other paths stay as they are. -/
theorem getElem?_scatter_of_ne (hne : ∀ k, j + k * depth ≠ i) :
    (scatter depth out j xs)[i]? = out[i]? := by
  induction xs generalizing out j with
  | nil => rfl
  | cons x xs ih =>
    have hnext (k : ℕ) : j + depth + k * depth ≠ i := by
      have hplace : j + depth + k * depth = j + (k + 1) * depth := by ring
      rw [hplace]
      exact hne (k + 1)
    have hfirst : j ≠ i := by simpa using hne 0
    rw [scatter, ih hnext, List.getElem?_set_ne hfirst]

/-- The items of the path. -/
theorem getElem?_scatter (hdepth : 0 < depth) (hk : k < xs.length)
    (hout : j + k * depth < out.length) :
    (scatter depth out j xs)[j + k * depth]? = xs[k]? := by
  induction xs generalizing out j k with
  | nil => cases hk
  | cons x xs ih =>
    cases k with
    | zero =>
      rw [Nat.zero_mul, Nat.add_zero] at hout ⊢
      rw [scatter, getElem?_scatter_of_ne (by omega), List.getElem?_set_self hout]
      rfl
    | succ k =>
      have hplace : j + (k + 1) * depth = j + depth + k * depth := by ring
      rw [hplace] at hout ⊢
      exact ih (Nat.lt_of_succ_lt_succ hk) (by rwa [List.length_set])

end

/-! ## Paths of what was written -/

theorem getD_of_getElem? (h : xs[i]? = ys[j]?) : xs.getD i default = ys.getD j default := by
  rw [List.getD_eq_getElem?_getD, List.getD_eq_getElem?_getD, h]

/-- Places of two paths are different. -/
theorem place_injective (hi : i < depth) (hj : j < depth) {m : ℕ}
    (h : i + k * depth = j + m * depth) : i = j ∧ k = m := by
  have hmod := congrArg (· % depth) h
  simp only [Nat.add_mul_mod_self_right, Nat.mod_eq_of_lt hi, Nat.mod_eq_of_lt hj] at hmod
  subst hmod
  exact ⟨rfl, Nat.eq_of_mul_eq_mul_right (Nat.zero_lt_of_lt hi) (Nat.add_left_cancel h)⟩

theorem place_lt (hj : j < depth) (hk : k < n) : j + k * depth < n * depth :=
  calc j + k * depth < depth + k * depth := Nat.add_lt_add_right hj _
    _ = (k + 1) * depth := by ring
    _ ≤ n * depth := Nat.mul_le_mul_right depth hk

theorem gather_scatter_self (hj : j < depth) (hxs : xs.length = n) (hout : out.length = n * depth) :
    gather (scatter depth out j xs) depth n j = xs := by
  refine List.ext_getElem (by rw [length_gather, hxs]) fun k hk hk' => ?_
  have hplace : j + k * depth < out.length := by
    rw [hout]
    exact place_lt hj (hxs ▸ hk')
  have hitem := getElem?_scatter (Nat.zero_lt_of_lt hj) hk' hplace
  simp only [gather, List.getElem_map, List.getElem_range, List.getD_eq_getElem?_getD, hitem,
    List.getElem?_eq_getElem hk', Option.getD_some]

theorem gather_scatter_of_ne (hi : i < depth) (hj : j < depth) (hne : i ≠ j) :
    gather (scatter depth out j xs) depth n i = gather out depth n i := by
  refine List.map_congr_left fun k _ => getD_of_getElem? ?_
  exact getElem?_scatter_of_ne fun m h => hne (place_injective hi hj h.symm).1

/-- Write some of the paths. -/
def scatterAll (depth : ℕ) (paths : ℕ → List α) : List ℕ → List α → List α
  | [], out => out
  | j :: js, out => scatterAll depth paths js (scatter depth out j (paths j))

omit [Inhabited α] in
@[simp] theorem length_scatterAll (paths : ℕ → List α) (js : List ℕ) (out : List α) :
    (scatterAll depth paths js out).length = out.length := by
  induction js generalizing out with
  | nil => rfl
  | cons j js ih => rw [scatterAll, ih, length_scatter]

theorem gather_scatterAll {paths : ℕ → List α} {js : List ℕ} (hjs : ∀ j ∈ js, j < depth)
    (hpaths : ∀ j ∈ js, (paths j).length = n) (hout : out.length = n * depth) (hi : i < depth) :
    gather (scatterAll depth paths js out) depth n i =
      if i ∈ js then paths i else gather out depth n i := by
  induction js generalizing out with
  | nil => rfl
  | cons j js ih =>
    have hj := hjs j List.mem_cons_self
    rw [scatterAll, ih (fun m hm => hjs m (List.mem_cons_of_mem j hm))
      (fun m hm => hpaths m (List.mem_cons_of_mem j hm)) (by rw [length_scatter, hout])]
    by_cases hmem : i ∈ js
    · rw [if_pos hmem, if_pos (List.mem_cons_of_mem j hmem)]
    · rw [if_neg hmem]
      by_cases heq : i = j
      · subst heq
        rw [gather_scatter_self hj (hpaths i List.mem_cons_self) hout,
          if_pos List.mem_cons_self]
      · rw [gather_scatter_of_ne hi hj heq, if_neg (by simp [heq, hmem])]

/-- **Paths.** Lists of `n * depth` items with the same paths are the same. -/
theorem eq_of_gather_eq (hdepth : 0 < depth) (hxs : xs.length = n * depth)
    (hys : ys.length = n * depth) (h : ∀ j < depth, gather xs depth n j = gather ys depth n j) :
    xs = ys := by
  refine List.ext_getElem (hxs.trans hys.symm) fun i hi hi' => ?_
  have hk : i / depth < n := Nat.div_lt_of_lt_mul (by rwa [Nat.mul_comm, ← hxs])
  have hitem := congrArg (fun zs => zs.getD (i / depth) default)
    (h (i % depth) (Nat.mod_lt i hdepth))
  simp only [getD_gather hk, Nat.mod_add_div'] at hitem
  rwa [List.getD_eq_getElem _ _ hi, List.getD_eq_getElem _ _ hi'] at hitem

/-! ## Differences -/

variable [DecidableEq α]

/-- The number of places where two lists differ. -/
def mismatches (xs ys : List α) : ℕ := (xs.zip ys).countP fun p => p.1 ≠ p.2

omit [Inhabited α] in
theorem eq_of_mismatches_eq_zero (hlength : xs.length = ys.length) (h : mismatches xs ys = 0) :
    xs = ys := by
  induction xs generalizing ys with
  | nil => exact (List.length_eq_zero_iff.mp hlength.symm).symm
  | cons x xs ih =>
    cases ys with
    | nil => cases hlength
    | cons y ys =>
      rw [mismatches, List.zip_cons_cons, List.countP_cons] at h
      have htail : mismatches xs ys = 0 := (Nat.add_eq_zero_iff.mp h).1
      have hhead : x = y := by simpa using (Nat.add_eq_zero_iff.mp h).2
      rw [hhead, ih (Nat.succ.inj hlength) htail]

/-- A sum over the places of a list is a sum over its paths. -/
theorem sum_range_mul (f : ℕ → ℕ) (n depth : ℕ) :
    ∑ i ∈ Finset.range (n * depth), f i =
      ∑ j ∈ Finset.range depth, ∑ k ∈ Finset.range n, f (j + k * depth) := by
  induction n with
  | zero => simp
  | succ n ih =>
    rw [Nat.succ_mul, Finset.sum_range_add, ih]
    simp only [Finset.sum_range_succ, Finset.sum_add_distrib, Nat.add_comm (n * depth)]

theorem mismatches_eq_sum (hlength : xs.length = ys.length) :
    mismatches xs ys = ∑ i ∈ Finset.range xs.length,
      if xs.getD i default ≠ ys.getD i default then 1 else 0 := by
  induction xs generalizing ys with
  | nil => rfl
  | cons x xs ih =>
    cases ys with
    | nil => cases hlength
    | cons y ys =>
      have htail := ih (Nat.succ.inj hlength)
      rw [mismatches] at htail ⊢
      rw [List.zip_cons_cons, List.countP_cons, htail, List.length_cons,
        Finset.sum_range_succ']
      simp

theorem mismatches_gather (xs ys : List α) (depth n j : ℕ) :
    mismatches (gather xs depth n j) (gather ys depth n j) = ∑ k ∈ Finset.range n,
      if xs.getD (j + k * depth) default ≠ ys.getD (j + k * depth) default then 1 else 0 := by
  rw [mismatches_eq_sum (by rw [length_gather, length_gather]), length_gather]
  refine Finset.sum_congr rfl fun k hk => ?_
  rw [getD_gather (Finset.mem_range.mp hk), getD_gather (Finset.mem_range.mp hk)]

/-- **Differences.** The differences of two lists are those of their paths. -/
theorem sum_mismatches_gather (hxs : xs.length = n * depth) (hys : ys.length = n * depth) :
    ∑ j ∈ Finset.range depth, mismatches (gather xs depth n j) (gather ys depth n j) =
      mismatches xs ys := by
  rw [mismatches_eq_sum (hxs.trans hys.symm), hxs, sum_range_mul]
  exact Finset.sum_congr rfl fun j _ => mismatches_gather xs ys depth n j

/-- **Bursts.** Differences within `depth * t` places in a row are at most `t` on each path. -/
theorem mismatches_gather_le_of_burst (hdepth : 0 < depth) {first t : ℕ}
    (hburst : ∀ i, xs.getD i default ≠ ys.getD i default →
      first ≤ i ∧ i < first + depth * t) :
    mismatches (gather xs depth n j) (gather ys depth n j) ≤ t := by
  rw [mismatches_gather, ← Finset.sum_filter, Finset.sum_const, smul_eq_mul, Nat.mul_one]
  calc _ ≤ (Finset.Ico ((first - j) ⌈/⌉ depth) ((first - j) ⌈/⌉ depth + t)).card := by
        refine Finset.card_le_card fun k hk => ?_
        obtain ⟨hlow, hhigh⟩ := hburst _ (Finset.mem_filter.mp hk).2
        have hfirst : first - j ≤ depth * ((first - j) ⌈/⌉ depth) :=
          le_smul_ceilDiv hdepth
        refine Finset.mem_Ico.mpr ⟨(ceilDiv_le_iff_le_smul hdepth).mpr ?_, ?_⟩
        · rw [smul_eq_mul, Nat.mul_comm]
          omega
        · have hmul : depth * k < depth * ((first - j) ⌈/⌉ depth + t) := by
            rw [Nat.mul_comm depth k, Nat.mul_add]
            omega
          exact Nat.lt_of_mul_lt_mul_left hmul
    _ = t := by rw [Nat.card_Ico, Nat.add_sub_cancel_left]

end GrSatellites.Interleave
