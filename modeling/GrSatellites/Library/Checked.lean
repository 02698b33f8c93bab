import Mathlib.Algebra.Ring.Nat
import Mathlib.Data.List.Induction
import Mathlib.Data.Nat.Notation

/-!
# Checked accesses and loops

Programs that access lists by index and raise an exception past the end. What they return is
described by a postcondition, which also says that they return. The unsigned difference by which
such programs often come to their indices is here as well.
-/

namespace GrSatellites.Checked

variable {ε α β σ : Type}

/-- The program returns a value with the property. -/
def Returns (x : Except ε α) (post : α → Prop) : Prop := ∃ a, x = .ok a ∧ post a

/-- `xs[i]`. -/
def access (e : ε) (xs : List α) (i : ℕ) : Except ε α :=
  match xs[i]? with
  | some a => .ok a
  | none => .error e

/-- `xs[i] = a`. -/
def store (e : ε) (xs : List α) (i : ℕ) (a : α) : Except ε (List α) :=
  if i < xs.length then .ok (xs.set i a) else .error e

/-- The difference of two values of `size_t`, which wraps. -/
def subSize (a b : ℕ) : ℕ := (a + 2 ^ 64 - b) % 2 ^ 64

theorem subSize_of_le {a b : ℕ} (h : b ≤ a) (ha : a < 2 ^ 64) : subSize a b = a - b := by
  rw [subSize, Nat.add_comm, Nat.add_sub_assoc h, Nat.add_mod_left, Nat.mod_eq_of_lt (by omega)]

theorem subSize_of_lt {a b : ℕ} (h : a < b) (hb : b < 2 ^ 64) : subSize a b = 2 ^ 64 - (b - a) := by
  have hle : a + 2 ^ 64 - b = 2 ^ 64 - (b - a) := by omega
  rw [subSize, hle, Nat.mod_eq_of_lt (by omega)]

section Accesses

variable {e : ε} {xs : List α} {i : ℕ}

theorem access_of_lt (hi : i < xs.length) : access e xs i = .ok xs[i] := by
  rw [access, List.getElem?_eq_getElem hi]

theorem access_of_le (hi : xs.length ≤ i) : access e xs i = .error e := by
  rw [access, List.getElem?_eq_none hi]

theorem store_of_lt (hi : i < xs.length) (a : α) : store e xs i a = .ok (xs.set i a) := if_pos hi

theorem store_of_le (hi : xs.length ≤ i) (a : α) : store e xs i a = .error e :=
  if_neg (Nat.not_lt.mpr hi)

end Accesses

namespace Returns

variable {post : α → Prop} {post' : β → Prop} {x : Except ε α}

theorem ok {a : α} (h : post a) : Returns (.ok a : Except ε α) post := ⟨a, rfl, h⟩

theorem bind {f : α → Except ε β} (hx : Returns x post) (hf : ∀ a, post a → Returns (f a) post') :
    Returns (x >>= f) post' := by
  obtain ⟨a, rfl, ha⟩ := hx
  exact hf a ha

theorem mono {post' : α → Prop} (hx : Returns x post) (h : ∀ a, post a → post' a) :
    Returns x post' := by
  obtain ⟨a, rfl, ha⟩ := hx
  exact ok (h a ha)

theorem access {e : ε} {xs : List α} {i : ℕ} (hi : i < xs.length) :
    Returns (Checked.access e xs i) (· = xs[i]) := ⟨xs[i], access_of_lt hi, rfl⟩

theorem store {e : ε} {xs : List α} {i : ℕ} (hi : i < xs.length) (a : α) :
    Returns (Checked.store e xs i a) (· = xs.set i a) := ⟨xs.set i a, store_of_lt hi a, rfl⟩

/-! ## Loops -/

/-- A loop over a list, with an invariant that may say which items have been done. -/
theorem foldlM (inv : List β → σ → Prop) {f : σ → β → Except ε σ} {xs : List β}
    (h : ∀ before b, before ++ [b] <+: xs → ∀ s, inv before s →
      Returns (f s b) (inv (before ++ [b]))) {s : σ} (hs : inv [] s) :
    Returns (xs.foldlM f s) (inv xs) := by
  induction xs using List.reverseRecOn with
  | nil => exact ok hs
  | append_singleton xs b ih =>
    simp only [List.foldlM_append, List.foldlM_cons, List.foldlM_nil, bind_pure]
    refine bind (ih fun before c hbefore => h before c (hbefore.trans (List.prefix_append _ _)))
      fun t ht => ?_
    exact h xs b List.prefix_rfl t ht

/-- A loop over a range, with an invariant for each number of rounds. -/
theorem foldlM_range (inv : ℕ → σ → Prop) {f : σ → ℕ → Except ε σ} {n : ℕ}
    (h : ∀ i < n, ∀ s, inv i s → Returns (f s i) (inv (i + 1))) {s : σ} (hs : inv 0 s) :
    Returns ((List.range n).foldlM f s) (inv n) := by
  induction n with
  | zero => exact ok hs
  | succ n ih =>
    simp only [List.range_succ, List.foldlM_append, List.foldlM_cons, List.foldlM_nil, bind_pure]
    refine bind (ih fun i hi => h i (Nat.lt_succ_of_lt hi)) fun t ht => ?_
    exact h n (Nat.lt_succ_self n) t ht

/-- A loop that raises an exception in some round. -/
theorem foldlM_range_error (inv : ℕ → σ → Prop) {f : σ → ℕ → Except ε σ} {k n : ℕ} {e : ε}
    (h : ∀ i < k, ∀ s, inv i s → Returns (f s i) (inv (i + 1)))
    (herror : ∀ s, inv k s → f s k = .error e) (hk : k < n) {s : σ} (hs : inv 0 s) :
    (List.range n).foldlM f s = .error e := by
  obtain ⟨m, rfl⟩ := Nat.exists_eq_add_of_lt hk
  obtain ⟨t, hbefore, ht⟩ := foldlM_range inv h hs
  rw [Nat.add_assoc, List.range_add, List.range_succ_eq_map, List.map_cons, List.foldlM_append,
    hbefore]
  show List.foldlM f t _ = _
  rw [List.foldlM_cons, Nat.add_zero, herror t ht]
  rfl

/-- A loop that returns comes through all its rounds. -/
theorem foldlM_range_ok {f : σ → ℕ → Except ε σ} {n : ℕ} {s t : σ}
    (h : (List.range n).foldlM f s = .ok t) {i : ℕ} (hi : i < n) : ∃ u v, f u i = .ok v := by
  induction n generalizing t with
  | zero => exact absurd hi (Nat.not_lt_zero i)
  | succ n ih =>
    simp only [List.range_succ, List.foldlM_append, List.foldlM_cons, List.foldlM_nil,
      bind_pure] at h
    cases hbefore : (List.range n).foldlM f s with
    | error e =>
      rw [hbefore] at h
      cases h
    | ok u =>
      rw [hbefore] at h
      rcases Nat.lt_succ_iff_lt_or_eq.mp hi with hlt | rfl
      · exact ih hbefore hlt
      · exact ⟨u, t, h⟩

/-- A loop over a list, with an invariant of the state. -/
theorem foldlM_inv (inv : σ → Prop) {f : σ → β → Except ε σ} {xs : List β}
    (h : ∀ b ∈ xs, ∀ s, inv s → Returns (f s b) inv) {s : σ} (hs : inv s) :
    Returns (xs.foldlM f s) inv := by
  have hstep : ∀ before b, before ++ [b] <+: xs → ∀ s, inv s → Returns (f s b) inv :=
    fun _ b hb => h b (hb.subset (List.mem_append_right _ (List.mem_singleton_self b)))
  exact foldlM (fun _ => inv) hstep hs

end Returns

end GrSatellites.Checked
