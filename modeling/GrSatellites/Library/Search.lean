import Mathlib.Data.List.Infix

/-!
# Searching for a pattern

The first place of a pattern in a list, and what becomes of a search when the list comes
in two parts: an occurrence is missed only if the pattern straddles the cut.
-/

namespace GrSatellites.Search

variable {α : Type} [DecidableEq α]

/-- `xs.find(pattern)`: the first place where the pattern starts. -/
def find (pattern : List α) : List α → Option ℕ
  | [] => if pattern = [] then some 0 else none
  | x :: xs => if pattern <+: x :: xs then some 0 else (find pattern xs).map (· + 1)

variable {pattern xs ys seen : List α} {a : ℕ}

theorem isPrefix_drop_of_find (h : find pattern xs = some a) : pattern <+: xs.drop a := by
  induction xs generalizing a with
  | nil =>
    rw [find] at h
    split at h
    case isTrue hnil => exact hnil ▸ List.nil_prefix
    case isFalse => cases h
  | cons x xs ih =>
    rw [find] at h
    split at h
    case isTrue hprefix =>
      cases h
      exact hprefix
    case isFalse =>
      obtain ⟨b, hb, rfl⟩ := Option.map_eq_some_iff.mp h
      exact ih hb

/-- Before the place found there is no other. -/
theorem not_isPrefix_drop_of_find (h : find pattern xs = some a) {b : ℕ} (hb : b < a) :
    ¬ pattern <+: xs.drop b := by
  induction xs generalizing a b with
  | nil =>
    rw [find] at h
    split at h <;> cases h
    omega
  | cons x xs ih =>
    rw [find] at h
    split at h
    case isTrue =>
      cases h
      omega
    case isFalse hprefix =>
      obtain ⟨c, hc, rfl⟩ := Option.map_eq_some_iff.mp h
      cases b with
      | zero => exact hprefix
      | succ b => exact ih hc (by omega)

theorem not_isPrefix_drop_of_find_none (h : find pattern xs = none) (b : ℕ) :
    ¬ pattern <+: xs.drop b := by
  induction xs generalizing b with
  | nil =>
    rw [find] at h
    split at h
    case isTrue => cases h
    case isFalse hnil => simpa using hnil
  | cons x xs ih =>
    rw [find] at h
    split at h
    case isTrue => cases h
    case isFalse hprefix =>
      cases b with
      | zero => exact hprefix
      | succ b => exact ih (Option.map_eq_none_iff.mp h) b

/-- The places where a pattern starts, in increasing order. -/
def occurrences (pattern xs : List α) : List ℕ :=
  (List.range xs.length).filter fun b => pattern <+: xs.drop b

theorem mem_occurrences (hne : pattern ≠ []) {b : ℕ} :
    b ∈ occurrences pattern xs ↔ pattern <+: xs.drop b := by
  rw [occurrences, List.mem_filter, List.mem_range, decide_eq_true_iff]
  refine and_iff_right_of_imp fun hprefix => ?_
  by_contra hle
  rw [List.drop_eq_nil_of_le (Nat.not_lt.mp hle), List.prefix_nil] at hprefix
  exact hne hprefix

theorem pairwise_occurrences (pattern xs : List α) : (occurrences pattern xs).Pairwise (· < ·) :=
  List.pairwise_lt_range.filter _

/-- A search from a place on finds the first of the occurrences there. -/
theorem find_drop_eq_some_iff (hne : pattern ≠ []) {start idx : ℕ} :
    find pattern (xs.drop start) = some idx ↔
      start + idx ∈ occurrences pattern xs ∧
        ∀ b ∈ occurrences pattern xs, start ≤ b → start + idx ≤ b := by
  have hmem {j : ℕ} : pattern <+: (xs.drop start).drop j ↔ start + j ∈ occurrences pattern xs := by
    rw [List.drop_drop, mem_occurrences hne]
  constructor
  · intro h
    refine ⟨hmem.mp (isPrefix_drop_of_find h), fun b hb hle => ?_⟩
    by_contra hlt
    obtain ⟨j, rfl⟩ := Nat.exists_eq_add_of_le hle
    exact not_isPrefix_drop_of_find h (by omega) (hmem.mpr hb)
  · rintro ⟨hidx, hfirst⟩
    cases h : find pattern (xs.drop start) with
    | none => exact absurd (hmem.mpr hidx) (not_isPrefix_drop_of_find_none h idx)
    | some j =>
      have hj := hfirst _ (hmem.mp (isPrefix_drop_of_find h)) (Nat.le_add_right _ _)
      have hle : ¬ idx < j := fun hlt => not_isPrefix_drop_of_find h hlt (hmem.mpr hidx)
      rw [Option.some_inj]
      omega

theorem find_drop_eq_none_iff (hne : pattern ≠ []) {start : ℕ} :
    find pattern (xs.drop start) = none ↔ ∀ b ∈ occurrences pattern xs, b < start := by
  constructor
  · intro h b hb
    by_contra hle
    obtain ⟨j, rfl⟩ := Nat.exists_eq_add_of_le (Nat.not_lt.mp hle)
    apply not_isPrefix_drop_of_find_none h j
    rwa [List.drop_drop, ← mem_occurrences hne]
  · intro h
    cases hfind : find pattern (xs.drop start) with
    | none => rfl
    | some idx =>
      have hidx := h _ ((find_drop_eq_some_iff hne).mp hfind).1
      omega

/-- The pattern starts in one part and ends in the other. -/
def Straddles (pattern seen rest : List α) : Prop :=
  ∃ k, 0 < k ∧ k < pattern.length ∧ pattern.take k <:+ seen ∧ pattern.drop k <+: rest

omit [DecidableEq α] in
theorem not_straddles_nil_left (pattern rest : List α) : ¬ Straddles pattern [] rest := by
  rintro ⟨k, hpos, hlt, htake, _⟩
  have := htake.length_le
  rw [List.length_take, List.length_nil] at this
  omega

omit [DecidableEq α] in
theorem not_straddles_nil_right (pattern seen : List α) : ¬ Straddles pattern seen [] := by
  rintro ⟨k, _, hlt, _, hdrop⟩
  have := hdrop.length_le
  rw [List.length_drop, List.length_nil] at this
  omega

omit [DecidableEq α] in
/-- A pattern that straddles a cut still does with more after it. -/
theorem Straddles.append (h : Straddles pattern seen xs) (ys : List α) :
    Straddles pattern seen (xs ++ ys) := by
  obtain ⟨k, hpos, hlt, hseen, hrest⟩ := h
  exact ⟨k, hpos, hlt, hseen, hrest.trans (List.prefix_append xs ys)⟩

omit [DecidableEq α] in
/-- **Cut.** An occurrence that ends after the cut starts after it, unless the pattern straddles
the cut. -/
theorem isSuffix_of_isSuffix_append (h : pattern <:+ seen ++ xs) (hxs : xs ≠ [])
    (hcut : ¬ Straddles pattern seen (xs ++ ys)) : pattern <:+ xs := by
  rcases Nat.lt_or_ge xs.length pattern.length with hlt | hle
  · have hsuffix : xs <:+ pattern :=
      List.suffix_of_suffix_length_le (List.suffix_append seen xs) h hlt.le
    obtain ⟨front, rfl⟩ := hsuffix
    rw [List.length_append] at hlt
    refine absurd ⟨front.length, by omega, ?_, ?_, ?_⟩ hcut
    · have := List.length_pos_iff.mpr hxs
      rw [List.length_append]
      omega
    · rw [List.take_left]
      exact List.suffix_append_self_iff.mp h
    · rw [List.drop_left]
      exact List.prefix_append xs ys
  · exact List.suffix_of_suffix_length_le h (List.suffix_append seen xs) hle

end GrSatellites.Search
