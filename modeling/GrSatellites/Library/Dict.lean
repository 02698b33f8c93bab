import Mathlib

/-!
# Dictionaries

A dictionary keeps the order in which its keys have been inserted. A key that is set again
keeps its place.
-/

namespace GrSatellites

/-- A dictionary, whose keys are distinct. -/
structure Dict (κ α : Type) where
  entries : List (κ × α)
  nodup : (entries.map Prod.fst).Nodup

namespace Dict

variable {κ α : Type}

/-- `{}`. -/
def empty : Dict κ α := ⟨[], List.nodup_nil⟩

/-- `d.keys()`. -/
def keys (d : Dict κ α) : List κ := d.entries.map Prod.fst

/-- `d.values()`. -/
def values (d : Dict κ α) : List α := d.entries.map Prod.snd

/-- `len(d)`. -/
def size (d : Dict κ α) : ℕ := d.entries.length

@[simp] theorem keys_empty : (empty : Dict κ α).keys = [] := rfl

@[simp] theorem size_empty : (empty : Dict κ α).size = 0 := rfl

theorem length_keys (d : Dict κ α) : d.keys.length = d.size := List.length_map _

theorem eq_empty_of_size {d : Dict κ α} (h : d.size = 0) : d = empty := by
  obtain ⟨entries, hnodup⟩ := d
  obtain rfl : entries = [] := List.length_eq_zero_iff.mp h
  rfl

theorem nodup_keys (d : Dict κ α) : d.keys.Nodup := d.nodup

variable [DecidableEq κ]

/-- `d.get(k)`. -/
def get? (d : Dict κ α) (k : κ) : Option α := d.entries.lookup k

theorem keys_replace (entries : List (κ × α)) (k : κ) (a : α) :
    (entries.map fun e => if e.1 = k then (k, a) else e).map Prod.fst = entries.map Prod.fst := by
  rw [List.map_map]
  refine List.map_congr_left fun e _ => ?_
  by_cases hk : e.1 = k
  · simp [hk]
  · simp [hk]

/-- `d[k] = a`. -/
def set (d : Dict κ α) (k : κ) (a : α) : Dict κ α :=
  if h : k ∈ d.keys then
    ⟨d.entries.map fun e => if e.1 = k then (k, a) else e, by rw [keys_replace]; exact d.nodup⟩
  else
    ⟨d.entries ++ [(k, a)], by
      rw [List.map_append]
      exact d.nodup.append (List.nodup_singleton k) (by simpa [keys] using h)⟩

variable {d : Dict κ α} {k i : κ} {a : α}

theorem keys_set (d : Dict κ α) (k : κ) (a : α) :
    (d.set k a).keys = if k ∈ d.keys then d.keys else d.keys ++ [k] := by
  unfold set
  split_ifs with hk
  · exact keys_replace d.entries k a
  · simp [keys]

theorem mem_keys_set : i ∈ (d.set k a).keys ↔ i = k ∨ i ∈ d.keys := by
  rw [keys_set]
  split_ifs with hk
  · exact ⟨.inr, fun h => h.elim (fun heq => heq ▸ hk) id⟩
  · simp [or_comm]

/-- The value of a key is found in its only entry. -/
theorem get?_eq_some_iff : d.get? k = some a ↔ (k, a) ∈ d.entries := by
  obtain ⟨entries, hnodup⟩ := d
  unfold get?
  induction entries with
  | nil => simp
  | cons e entries ih =>
    obtain ⟨j, b⟩ := e
    obtain ⟨hj, hnodup⟩ := List.nodup_cons.mp hnodup
    rw [List.lookup_cons]
    by_cases hk : k = j
    · subst hk
      have hnot : (k, a) ∉ entries := fun hmem => hj (List.mem_map.mpr ⟨_, hmem, rfl⟩)
      simp [hnot, eq_comm]
    · have hbeq : (k == j) = false := by simpa using hk
      rw [hbeq]
      exact (ih hnodup).trans (by simp [hk])

theorem mem_keys_iff : k ∈ d.keys ↔ ∃ a, d.get? k = some a := by
  simp [keys, get?_eq_some_iff]

theorem get?_set_self : (d.set k a).get? k = some a := by
  rw [get?_eq_some_iff]
  unfold set
  split_ifs with hk
  · obtain ⟨e, he, rfl⟩ := List.mem_map.mp hk
    exact List.mem_map.mpr ⟨e, he, if_pos rfl⟩
  · exact List.mem_append_right _ (List.mem_singleton_self _)

theorem get?_set_of_ne (hne : i ≠ k) : (d.set k a).get? i = d.get? i := by
  refine Option.ext fun b => ?_
  rw [get?_eq_some_iff, get?_eq_some_iff]
  unfold set
  split_ifs with hk
  · rw [List.mem_map]
    constructor
    · rintro ⟨e, he, heq⟩
      by_cases hek : e.1 = k
      · rw [if_pos hek] at heq
        exact absurd (congrArg Prod.fst heq).symm hne
      · rw [if_neg hek] at heq
        exact heq ▸ he
    · intro he
      exact ⟨(i, b), he, if_neg hne⟩
  · simp [hne]

/-- Keys below a bound are all there exactly if there are as many. -/
theorem size_eq_iff {d : Dict ℕ α} {n : ℕ} (hlt : ∀ k ∈ d.keys, k < n) :
    d.size = n ↔ ∀ k < n, k ∈ d.keys := by
  have hcard : d.keys.toFinset.card = d.size := by
    rw [List.toFinset_card_of_nodup d.nodup_keys, length_keys]
  have hsub : d.keys.toFinset ⊆ Finset.range n := by
    intro k hk
    exact Finset.mem_range.mpr (hlt k (List.mem_toFinset.mp hk))
  constructor
  · intro hsize k hk
    have heq := Finset.eq_of_subset_of_card_le hsub (by rw [Finset.card_range, hcard, hsize])
    exact List.mem_toFinset.mp (heq ▸ Finset.mem_range.mpr hk)
  · intro hall
    have heq : d.keys.toFinset = Finset.range n := by
      refine hsub.antisymm fun k hk => ?_
      exact List.mem_toFinset.mpr (hall k (Finset.mem_range.mp hk))
    rw [← hcard, heq, Finset.card_range]

/-- With a key beyond their number, one below it is missing. -/
theorem exists_notMem_of_size {d : Dict ℕ α} {n j : ℕ} (hsize : d.size = n) (hj : j ∈ d.keys)
    (hle : n ≤ j) : ∃ k < n, k ∉ d.keys := by
  by_contra! hall
  have hsub : Finset.range n ⊆ d.keys.toFinset.erase j := by
    intro k hk
    have hlt := Finset.mem_range.mp hk
    exact Finset.mem_erase.mpr ⟨by omega, List.mem_toFinset.mpr (hall k hlt)⟩
  have hcard := Finset.card_le_card hsub
  rw [Finset.card_range, Finset.card_erase_of_mem (List.mem_toFinset.mpr hj),
    List.toFinset_card_of_nodup d.nodup_keys, length_keys, hsize] at hcard
  have hpos := List.length_pos_of_mem hj
  rw [length_keys, hsize] at hpos
  omega

end Dict

end GrSatellites
