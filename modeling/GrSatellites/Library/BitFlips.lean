import Mathlib

/-!
# Flipping bits

Byte strings that differ in some bits, and the search for a byte string with a property
by flipping more and more bits: it finds one at the least distance.
-/

namespace GrSatellites.BitFlips

/-- The bit of a byte string with a number; those of a byte are numbered from the low one. -/
def bitAt (bytes : List (BitVec 8)) (i : ℕ) : Bool := (bytes.getD (i / 8) 0).getLsbD (i % 8)

/-- Flip the bit with a number. -/
def flipBit (bytes : List (BitVec 8)) (i : ℕ) : List (BitVec 8) :=
  bytes.modify (i / 8) (· ^^^ (1#8 <<< (i % 8)))

/-- Flip the bits with the given numbers. -/
def flipAll (bytes : List (BitVec 8)) (flips : List ℕ) : List (BitVec 8) := flips.foldl flipBit bytes

/-- The numbers of the bits in which two byte strings differ. -/
def differing (a b : List (BitVec 8)) : List ℕ :=
  (List.range (8 * a.length)).filter fun i => bitAt a i ≠ bitAt b i

/-- The Hamming distance of two byte strings of one length. -/
def distance (a b : List (BitVec 8)) : ℕ := (differing a b).length

/-- The ways to choose `k` items of a list, in lexicographic order of their places. -/
def combinations {α : Type*} : List α → ℕ → List (List α)
  | _, 0 => [[]]
  | [], _ + 1 => []
  | x :: xs, k + 1 => (combinations xs k).map (x :: ·) ++ combinations xs (k + 1)

theorem mem_combinations {α : Type*} {xs ys : List α} {k : ℕ} :
    ys ∈ combinations xs k ↔ ys.Sublist xs ∧ ys.length = k := by
  induction xs generalizing ys k with
  | nil =>
    cases k with
    | zero => simp [combinations]
    | succ k =>
      refine iff_of_false List.not_mem_nil ?_
      rintro ⟨hsub, hlen⟩
      rw [List.sublist_nil.mp hsub] at hlen
      cases hlen
  | cons x xs ih =>
    cases k with
    | zero =>
      rw [combinations, List.mem_singleton, List.length_eq_zero_iff]
      exact ⟨fun h => ⟨h ▸ List.nil_sublist _, h⟩, fun h => h.2⟩
    | succ k =>
      rw [combinations, List.mem_append, List.mem_map, List.sublist_cons_iff, ih]
      constructor
      · rintro (⟨zs, hzs, rfl⟩ | ⟨hsub, hlen⟩)
        · exact ⟨Or.inr ⟨zs, rfl, (ih.mp hzs).1⟩, by rw [List.length_cons, (ih.mp hzs).2]⟩
        · exact ⟨Or.inl hsub, hlen⟩
      · rintro ⟨hsub | ⟨zs, rfl, hsub⟩, hlen⟩
        · exact Or.inr ⟨hsub, hlen⟩
        · exact Or.inl ⟨zs, ih.mpr ⟨hsub, Nat.succ.inj hlen⟩, rfl⟩

/-! ## Bits -/

variable {a b : List (BitVec 8)}

@[simp] theorem length_flipBit (bytes : List (BitVec 8)) (i : ℕ) :
    (flipBit bytes i).length = bytes.length := List.length_modify ..

@[simp] theorem length_flipAll (bytes : List (BitVec 8)) (flips : List ℕ) :
    (flipAll bytes flips).length = bytes.length := by
  induction flips generalizing bytes with
  | nil => rfl
  | cons i flips ih => exact (ih (flipBit bytes i)).trans (length_flipBit bytes i)

theorem bitAt_flipBit {bytes : List (BitVec 8)} {i : ℕ} (hi : i < 8 * bytes.length) (j : ℕ) :
    bitAt (flipBit bytes i) j = (bitAt bytes j ^^ decide (i = j)) := by
  have hbit (byte : BitVec 8) : (byte ^^^ (1#8 <<< (i % 8))).getLsbD (j % 8) =
      (byte.getLsbD (j % 8) ^^ decide (i % 8 = j % 8)) := by
    rw [← BitVec.twoPow_eq, BitVec.getLsbD_xor, BitVec.getLsbD_twoPow,
      decide_eq_true (Nat.mod_lt i (by decide : 0 < 8)), Bool.true_and]
  rw [bitAt, bitAt, flipBit, List.getD_eq_getElem?_getD, List.getElem?_modify]
  by_cases hplace : i / 8 = j / 8
  · have hlt : j / 8 < bytes.length := by omega
    have hiff : (i % 8 = j % 8) = (i = j) := propext ⟨fun h => by omega, fun h => by rw [h]⟩
    simp [hplace, hlt, hbit, hiff]
  · have hne : i ≠ j := fun h => hplace (by rw [h])
    simp [hplace, hne]

theorem bitAt_flipAll {bytes : List (BitVec 8)} {flips : List ℕ}
    (hflips : ∀ i ∈ flips, i < 8 * bytes.length) (hnodup : flips.Nodup) (j : ℕ) :
    bitAt (flipAll bytes flips) j = (bitAt bytes j ^^ decide (j ∈ flips)) := by
  induction flips generalizing bytes with
  | nil => simp [flipAll]
  | cons i flips ih =>
    obtain ⟨hnot, hnodup⟩ := List.nodup_cons.mp hnodup
    have hrest : ∀ k ∈ flips, k < 8 * (flipBit bytes i).length := fun k hk => by
      rw [length_flipBit]
      exact hflips k (List.mem_cons_of_mem i hk)
    rw [flipAll, List.foldl_cons, ← flipAll, ih hrest hnodup,
      bitAt_flipBit (hflips i List.mem_cons_self), Bool.xor_assoc]
    congr 1
    by_cases hij : i = j
    · subst hij
      simp [hnot]
    · simp [hij, Ne.symm hij]

theorem ext_bitAt (hlength : a.length = b.length)
    (h : ∀ i < 8 * a.length, bitAt a i = bitAt b i) : a = b := by
  refine List.ext_getElem hlength fun k hka hkb => BitVec.eq_of_getLsbD_eq fun m hm => ?_
  have hbit := h (8 * k + m) (by omega)
  have hplace : (8 * k + m) / 8 = k := by omega
  have hrest : (8 * k + m) % 8 = m := by omega
  rwa [bitAt, bitAt, hplace, hrest, List.getD_eq_getElem _ _ hka,
    List.getD_eq_getElem _ _ hkb] at hbit

/-! ## Distance -/

theorem nodup_differing (a b : List (BitVec 8)) : (differing a b).Nodup :=
  List.nodup_range.filter _

theorem mem_differing {i : ℕ} :
    i ∈ differing a b ↔ i < 8 * a.length ∧ bitAt a i ≠ bitAt b i := by
  rw [differing, List.mem_filter, List.mem_range, decide_eq_true_eq]

/-- Flipping the bits in which it differs from another byte string makes it equal to that. -/
theorem flipAll_differing (hlength : a.length = b.length) : flipAll a (differing a b) = b := by
  refine ext_bitAt (by rw [length_flipAll, hlength]) fun i hi => ?_
  rw [length_flipAll] at hi
  rw [bitAt_flipAll (fun k hk => (mem_differing.mp hk).1) (nodup_differing a b)]
  by_cases heq : bitAt a i = bitAt b i
  · rw [decide_eq_false fun h => (mem_differing.mp h).2 heq, Bool.xor_false, heq]
  · rw [decide_eq_true (mem_differing.mpr ⟨hi, heq⟩), Bool.xor_true]
    exact Bool.not_eq.mpr heq

theorem distance_flipAll {flips : List ℕ} (hflips : ∀ i ∈ flips, i < 8 * a.length)
    (hnodup : flips.Nodup) : distance a (flipAll a flips) = flips.length := by
  refine List.Perm.length_eq ((List.perm_ext_iff_of_nodup (nodup_differing _ _) hnodup).mpr
    fun i => ?_)
  rw [mem_differing, bitAt_flipAll hflips hnodup]
  by_cases hi : i ∈ flips
  · simp [hi, hflips i hi]
  · simp [hi]

theorem distance_comm (hlength : a.length = b.length) : distance a b = distance b a := by
  simp only [distance, differing, hlength, ne_comm]

/-- Byte strings at a given distance are those that are reached by so many flips. -/
theorem distance_eq_iff {k : ℕ} (hlength : a.length = b.length) : distance a b = k ↔
    ∃ flips ∈ combinations (List.range (a.length * 8)) k, flipAll a flips = b := by
  constructor
  · rintro rfl
    refine ⟨differing a b, mem_combinations.mpr ⟨?_, rfl⟩, flipAll_differing hlength⟩
    rw [Nat.mul_comm]
    exact List.filter_sublist
  · rintro ⟨flips, hflips, rfl⟩
    obtain ⟨hsub, hlen⟩ := mem_combinations.mp hflips
    refine (distance_flipAll (fun i hi => ?_) (hsub.nodup List.nodup_range)).trans hlen
    have hlt := List.mem_range.mp (hsub.subset hi)
    omega

/-! ## The nearest byte string with a property -/

/-- Search for a byte string with a property, with fewer than `bound` flips of bits, by flipping
more and more of them. -/
def nearest (valid : List (BitVec 8) → Bool) (bound : ℕ) (bytes : List (BitVec 8)) :
    Option (List (BitVec 8) × ℕ) :=
  (List.range bound).findSome? fun k =>
    (combinations (List.range (bytes.length * 8)) k).findSome? fun flips =>
      if valid (flipAll bytes flips) then some (flipAll bytes flips, k) else none

variable {valid : List (BitVec 8) → Bool} {bound : ℕ}

/-- No byte string with the property is at distance `k`. -/
theorem none_at_distance_iff {k : ℕ} :
    ((combinations (List.range (a.length * 8)) k).findSome? fun flips =>
      if valid (flipAll a flips) then some (flipAll a flips, k) else none) = none ↔
      ∀ b, a.length = b.length → valid b = true → distance a b ≠ k := by
  rw [List.findSome?_eq_none_iff]
  constructor
  · intro h b hlength hvalid hdistance
    obtain ⟨flips, hflips, rfl⟩ := (distance_eq_iff hlength).mp hdistance
    have hnone := h flips hflips
    rw [if_pos hvalid] at hnone
    cases hnone
  · intro h flips hflips
    refine if_neg fun hvalid => ?_
    have hlength : a.length = (flipAll a flips).length := (length_flipAll a flips).symm
    exact h _ hlength hvalid ((distance_eq_iff hlength).mpr ⟨flips, hflips, rfl⟩)

theorem nearest_eq_none_iff : nearest valid bound a = none ↔
    ∀ b, a.length = b.length → valid b = true → bound ≤ distance a b := by
  rw [nearest, List.findSome?_eq_none_iff]
  simp only [List.mem_range, none_at_distance_iff]
  constructor
  · intro h b hlength hvalid
    by_contra hlt
    exact h _ (Nat.lt_of_not_le hlt) b hlength hvalid rfl
  · intro h k hk b hlength hvalid heq
    have hge := h b hlength hvalid
    omega

/-- What is found has the property, and nothing with the property is nearer. -/
theorem nearest_eq_some {k : ℕ} (h : nearest valid bound a = some (b, k)) :
    a.length = b.length ∧ valid b = true ∧ distance a b = k ∧ k < bound ∧
      ∀ c, a.length = c.length → valid c = true → k ≤ distance a c := by
  obtain ⟨before, j, after, hrange, hfound, hnone⟩ := List.findSome?_eq_some_iff.mp h
  obtain ⟨flips, hflips, hflip⟩ := List.exists_of_findSome?_eq_some hfound
  split at hflip
  case isFalse => cases hflip
  case isTrue hvalid =>
    cases hflip
    have hlength : a.length = (flipAll a flips).length := (length_flipAll a flips).symm
    have hlen : before.length + 1 + after.length = bound := by
      have hcount := congrArg List.length hrange
      rw [List.length_range, List.length_append, List.length_cons] at hcount
      omega
    have hget (i : ℕ) (hi : i < bound) : (before ++ k :: after)[i]? = some i := by
      rw [← hrange, List.getElem?_range hi]
    have hk : before.length = k := by
      have hplace := hget before.length (by omega)
      rw [List.getElem?_append_right le_rfl, Nat.sub_self, List.getElem?_cons_zero] at hplace
      exact (Option.some.inj hplace).symm
    refine ⟨hlength, hvalid, (distance_eq_iff hlength).mpr ⟨flips, hflips, rfl⟩, by omega,
      fun c hc hvalidc => ?_⟩
    by_contra hlt
    have hbefore : distance a c < before.length := by omega
    have hplace := hget (distance a c) (by omega)
    rw [List.getElem?_append_left hbefore] at hplace
    have hnothing := hnone _ (List.mem_of_getElem? hplace)
    exact none_at_distance_iff.mp hnothing c hc hvalidc rfl

/-- When something with the property is near enough, and nothing else with the property is as
near, it is found. -/
theorem nearest_eq_some_of_unique (hlength : a.length = b.length) (hvalid : valid b = true)
    (hbound : distance a b < bound)
    (hunique : ∀ c, a.length = c.length → valid c = true → distance a c ≤ distance a b → c = b) :
    nearest valid bound a = some (b, distance a b) := by
  cases hnearest : nearest valid bound a with
  | none =>
    have hge := nearest_eq_none_iff.mp hnearest b hlength hvalid
    omega
  | some found =>
    obtain ⟨c, k⟩ := found
    obtain ⟨hc, hvalidc, rfl, -, hleast⟩ := nearest_eq_some hnearest
    rw [hunique c hc hvalidc (hleast b hlength hvalid)]

end GrSatellites.BitFlips
