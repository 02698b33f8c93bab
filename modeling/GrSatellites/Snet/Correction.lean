import GrSatellites.Snet.Field

/-!
# What the BCH decoder corrects

The syndromes of a row are the power sums of the places of its bits, so that the decoder
runs the algorithm of `GrSatellites.Library.Peterson` in GF(16). It evaluates them at the powers
of orders zero to `d - 2`. A word with roots of orders one to `d - 1` and odd weight is not a
word of that code: it looks like an error at the point zero.
-/

namespace GrSatellites.Snet

open GF16 Peterson Weight

/-! ## Rows and points -/

/-- The places of the bits of a row, counted from the top. -/
def positions (e : BitVec 15) : List ℕ := (List.range 15).filter e.getMsbD

/-- The points of GF(16) for the places of the bits. -/
def points (e : BitVec 15) : List GF16 := (positions e).map (a ^ ·)

theorem mem_positions {e : BitVec 15} {k : ℕ} : k ∈ positions e ↔ e.getMsbD k = true := by
  rw [positions, List.mem_filter, List.mem_range]
  exact and_iff_right_of_imp BitVec.lt_of_getMsbD

theorem nodup_positions (e : BitVec 15) : (positions e).Nodup := List.nodup_range.filter _

theorem nodup_points (e : BitVec 15) : (points e).Nodup := by
  apply (nodup_positions e).map_on
  intro k hk l hl heq
  exact a_pow_injOn (BitVec.lt_of_getMsbD (mem_positions.mp hk))
    (BitVec.lt_of_getMsbD (mem_positions.mp hl)) heq

theorem ne_zero_of_mem_points {e : BitVec 15} {x : GF16} (hx : x ∈ points e) : x ≠ 0 := by
  obtain ⟨k, -, rfl⟩ := List.mem_map.mp hx
  exact pow_ne_zero k a_ne_zero

/-- The point of a place is among the points of a row if the bit is set. -/
theorem exists_mem_points_iff {e : BitVec 15} {k : ℕ} (hk : k < 15) :
    (∃ x ∈ points e, x * (a ^ k)⁻¹ = 1) ↔ k ∈ positions e := by
  have hne : a ^ k ≠ 0 := pow_ne_zero k a_ne_zero
  constructor
  · rintro ⟨x, hx, hone⟩
    obtain ⟨l, hl, rfl⟩ := List.mem_map.mp hx
    rw [mul_inv_eq_one₀ hne] at hone
    rwa [← a_pow_injOn (BitVec.lt_of_getMsbD (mem_positions.mp hl)) hk hone]
  · intro hmem
    exact ⟨a ^ k, List.mem_map.mpr ⟨k, hmem, rfl⟩, mul_inv_cancel₀ hne⟩

theorem cpopNatRec_eq_length {w : ℕ} (x : BitVec w) (n : ℕ) :
    x.cpopNatRec n 0 = ((List.range n).filter x.getLsbD).length := by
  induction n with
  | zero => rfl
  | succ n ih =>
    rw [BitVec.cpopNatRec_succ, BitVec.cpopNatRec_add, ih, List.range_succ, List.filter_append,
      List.length_append]
    cases hbit : x.getLsbD n <;> simp [hbit]

theorem length_positions (e : BitVec 15) : (positions e).length = weight e := by
  have hreverse : List.range 15 = (List.range 15).reverse.map (14 - ·) := by decide
  have hmsb : ∀ k ∈ (List.range 15).reverse, (e.getMsbD ∘ (14 - ·)) k = e.getLsbD k := by
    intro k hk
    rw [List.mem_reverse, List.mem_range] at hk
    rw [Function.comp_apply, BitVec.getMsbD_eq_getLsbD]
    have hback : 15 - 1 - (14 - k) = k := by omega
    simp [hback]
    omega
  rw [positions, hreverse, List.filter_map, List.length_map, List.filter_congr hmsb,
    List.filter_reverse, List.length_reverse, ← cpopNatRec_eq_length, weight]

theorem length_points (e : BitVec 15) : (points e).length = weight e := by
  rw [points, List.length_map, length_positions]

/-! ## Flipping bits -/

theorem getMsbD_flip {errors : List ℕ} (hnodup : errors.Nodup) (herrors : ∀ e ∈ errors, e < 15)
    (bits : BitVec 15) {k : ℕ} (hk : k < 15) :
    (flip bits errors).getMsbD k = (bits.getMsbD k ^^ decide (k ∈ errors)) := by
  induction errors generalizing bits with
  | nil => simp [flip]
  | cons e errors ih =>
    obtain ⟨hnotMem, hnodup⟩ := List.nodup_cons.mp hnodup
    have he : e < 15 := herrors e List.mem_cons_self
    have hplace : (BitVec.twoPow 15 (14 - e)).getMsbD k = decide (k = e) := by
      rw [BitVec.getMsbD_eq_getLsbD, BitVec.getLsbD_twoPow]
      grind
    rw [flip, List.foldl_cons, ← flip, ih hnodup (fun e h => herrors e (List.mem_cons_of_mem _ h)),
      BitVec.getMsbD_xor, hplace]
    by_cases hke : k = e
    · subst hke
      simp [hnotMem]
    · simp [hke]

theorem flip_positions (bits e : BitVec 15) : flip bits (positions e) = bits ^^^ e := by
  apply BitVec.eq_of_getMsbD_eq
  intro k hk
  rw [getMsbD_flip (nodup_positions e) _ bits hk, BitVec.getMsbD_xor]
  · simp [mem_positions]
  · exact fun l hl => BitVec.lt_of_getMsbD (mem_positions.mp hl)

/-! ## Syndromes -/

/-- A syndrome of a row, in the field. -/
def syndrome (r : BitVec 15) (j : ℕ) : GF16 := ofElement (computeSyndrome r.toNat j)

/-- The loop of `compute_syndrome`. -/
theorem foldl_syndrome (n : ℕ) (s : Element) (p j : ℕ) :
    ofElement ((List.range n).reverse.foldl (fun (s, p) k =>
      (if p % 2 = 1 then s ^^^ exp (k * j) else s, p / 2)) (s, p)).1 =
      ofElement s +
        powerSum (((List.range n).filter fun k => p.testBit (n - 1 - k)).map (a ^ ·)) j := by
  induction n generalizing s p with
  | zero => simp [powerSum]
  | succ n ih =>
    have hrest : (List.range n).filter (fun k => p.testBit (n + 1 - 1 - k)) =
        (List.range n).filter fun k => (p / 2).testBit (n - 1 - k) := by
      apply List.filter_congr
      intro k hk
      have hshift : n + 1 - 1 - k = (n - 1 - k) + 1 := by
        have := List.mem_range.mp hk
        omega
      rw [hshift, Nat.testBit_succ]
    rw [List.range_succ, List.reverse_append, List.reverse_singleton, List.singleton_append,
      List.foldl_cons, ih, List.filter_append, hrest, List.map_append]
    rw [powerSum_append, add_comm (powerSum _ j), ← add_assoc]
    congr 1
    have hexp : ofElement (exp (n * j)) = (a ^ n) ^ j := by
      rw [ofElement_exp, zpow_mul, zpow_natCast, zpow_natCast]
    have hlow : p.testBit (n + 1 - 1 - n) = decide (p % 2 = 1) := by
      rw [Nat.add_sub_cancel, Nat.sub_self, Nat.testBit_zero]
    rw [List.filter_singleton, hlow]
    by_cases hbit : p % 2 = 1
    · rw [if_pos hbit, decide_eq_true hbit, cond_true, ofElement_xor, hexp, List.map_singleton,
        powerSum_singleton]
    · rw [if_neg hbit, decide_eq_false hbit, cond_false]
      exact (add_zero _).symm

theorem syndrome_eq_powerSum (r : BitVec 15) : syndrome r = powerSum (points r) := by
  funext j
  have hmsb : ∀ k ∈ List.range 15, r.toNat.testBit (15 - 1 - k) = r.getMsbD k := by
    intro k hk
    rw [BitVec.getMsbD_eq_getLsbD, decide_eq_true (List.mem_range.mp hk), Bool.true_and]
    rfl
  rw [syndrome, computeSyndrome, foldl_syndrome, List.filter_congr hmsb]
  exact zero_add _

/-- Syndromes are linear. -/
theorem syndrome_xor (x y : BitVec 15) (j : ℕ) :
    syndrome (x ^^^ y) j = syndrome x j + syndrome y j := by
  simp only [syndrome_eq_powerSum, points, positions, powerSum_filter]
  rw [← List.sum_map_add]
  congr 2
  funext k
  rw [BitVec.getMsbD_xor]
  cases x.getMsbD k <;> cases y.getMsbD k <;> simp [CharTwo.add_self_eq_zero]

/-- The syndrome of order zero is the parity. -/
theorem syndrome_zero (r : BitVec 15) : syndrome r 0 = weight r := by
  rw [syndrome_eq_powerSum, ← length_points]
  simp [powerSum]

theorem binary_syndrome (r : BitVec 15) : Binary (syndrome r) := by
  rw [syndrome_eq_powerSum]
  exact binary_powerSum _

/-! ## The decoder -/

/-- The coefficients that the decoder finds, in the field. -/
def ofLocator (l : Locator) : Peterson.Locator GF16 :=
  (ofElement l.1, ofElement l.2.1, ofElement l.2.2)

theorem map_gfInv {α : Type} (x : Element) (f : Element → α) :
    (gfInv x).map f = if x = 0 then none else some (f ((gfInv x).getD 0)) := by
  rw [gfInv]
  split_ifs <;> rfl

theorem map_locator1 (s : ℕ → Element) :
    (locator1 (s 0) (s 1)).map ofLocator = Peterson.locator1 fun j => ofElement (s j) := by
  rw [locator1, Peterson.locator1, map_gfInv]
  by_cases hzero : s 0 = 0
  · rw [if_pos hzero]
    exact (if_pos hzero).symm
  · rw [if_neg hzero]
    exact (if_neg hzero).symm

theorem map_locator2 (s : ℕ → Element) :
    (locator2 (s 0) (s 1) (s 2) (s 3)).map ofLocator =
      Peterson.locator2 fun j => ofElement (s j) := by
  rw [locator2, Peterson.locator2, map_gfInv, ← map_locator1]
  by_cases hdet : gfMult (s 0) (s 2) ^^^ gfMult (s 1) (s 1) = 0
  · rw [if_pos hdet]
    exact (if_pos hdet).symm
  · rw [if_neg hdet, if_neg hdet]
    exact (if_neg hdet).symm

theorem map_locator3 (s : ℕ → Element) :
    (locator3 (s 0) (s 1) (s 2) (s 3) (s 4) (s 5)).map ofLocator =
      Peterson.locator3 fun j => ofElement (s j) := by
  rw [locator3, Peterson.locator3, map_gfInv, ← map_locator2]
  by_cases hdet : gfMult (gfMult (s 0) (s 2)) (s 4) ^^^ gfMult (gfMult (s 2) (s 2)) (s 2) ^^^
      gfMult (gfMult (s 1) (s 1)) (s 4) ^^^ gfMult (gfMult (s 3) (s 3)) (s 0) = 0
  · rw [if_pos hdet]
    exact (if_pos hdet).symm
  · rw [if_neg hdet, if_neg hdet]
    exact (if_neg hdet).symm

/-- The places where an error locator polynomial has its roots. -/
def locations (l : Peterson.Locator GF16) : List ℕ :=
  (List.range 15).filter fun k => l.value (a ^ k)⁻¹ = 0

theorem roots_eq : roots = locations ∘ ofLocator := by
  funext ⟨l1, l2, l3⟩
  rw [Function.comp_apply, roots, locations]
  apply List.filter_congr
  intro k _
  rw [decide_eq_decide, ← ofElement_eq_zero_iff, ofElement_xor, ofElement_xor, ofElement_xor,
    ofElement_gfMult, ofElement_gfMult, ofElement_gfMult, ofElement_exp, ofElement_exp,
    ofElement_exp, ofElement_exp, Locator.value]
  have hpow (n : ℕ) : a ^ (-n * k : ℤ) = (a ^ k)⁻¹ ^ n := by
    rw [neg_mul, zpow_neg, mul_comm, zpow_mul, zpow_natCast, zpow_natCast, inv_pow]
  have hone := hpow 1
  have htwo := hpow 2
  have hthree := hpow 3
  push_cast at hone htwo hthree
  rw [neg_one_mul, pow_one] at hone
  rw [hone, htwo, hthree, zpow_zero]
  rfl

/-- `compute_error_locations` runs the algorithm. -/
theorem computeErrorLocations_syndromes {t : ℕ} (hpos : 0 < t) (ht : t ≤ 3) (r : BitVec 15) :
    computeErrorLocations (syndromes r (2 * t + 1)) = (locate t (syndrome r)).map locations := by
  match t with
  | 1 =>
    change (locator1 _ _).map roots = (Peterson.locator1 _).map locations
    rw [roots_eq, ← Option.map_map]
    exact congrArg _ (map_locator1 _)
  | 2 =>
    change (locator2 _ _ _ _).map roots = (Peterson.locator2 _).map locations
    rw [roots_eq, ← Option.map_map]
    exact congrArg _ (map_locator2 _)
  | 3 =>
    change (locator3 _ _ _ _ _ _).map roots = (Peterson.locator3 _).map locations
    rw [roots_eq, ← Option.map_map]
    exact congrArg _ (map_locator3 _)

/-- A word that the decoder takes for one without errors: its syndromes are zero. -/
def HasZeroSyndromes (d : ℕ) (r : BitVec 15) : Prop := ∀ j < d - 1, computeSyndrome r.toNat j = 0

instance (d : ℕ) (r : BitVec 15) : Decidable (HasZeroSyndromes d r) :=
  inferInstanceAs (Decidable (∀ j < d - 1, computeSyndrome r.toNat j = 0))

theorem hasZeroSyndromes_iff {t : ℕ} {r : BitVec 15} :
    HasZeroSyndromes (2 * t + 1) r ↔ ∀ j < 2 * t, syndrome r j = 0 := Iff.rfl

theorem all_syndromes_iff {d : ℕ} {r : BitVec 15} :
    (syndromes r d).all (· = 0) = true ↔ HasZeroSyndromes d r := by
  simp [syndromes, HasZeroSyndromes]

/-- `decode_bch15` on the syndromes of a row. -/
theorem decodeBch15_eq {t : ℕ} (hpos : 0 < t) (ht : t ≤ 3) (r : BitVec 15) :
    decodeBch15 r (2 * t + 1) =
      if HasZeroSyndromes (2 * t + 1) r then (true, r)
      else
        match locate t (syndrome r) with
        | none => (false, r)
        | some l => (true, flip r (locations l)) := by
  rw [decodeBch15, computeErrorLocations_syndromes hpos ht]
  simp only [all_syndromes_iff]
  split_ifs
  · rfl
  · cases locate t (syndrome r) <;> rfl

/-- The places of the roots are those of the bits of an error pattern, of weight `t` at most. -/
theorem exists_pattern {t : ℕ} {s : ℕ → GF16} {l : Peterson.Locator GF16}
    (h : locate t s = some l) : ∃ e, positions e = locations l ∧ weight e ≤ t := by
  have hlt : ∀ k ∈ locations l, k < 15 := fun k hk => List.mem_range.mp (List.mem_filter.mp hk).1
  have hnodup : (locations l).Nodup := List.nodup_range.filter _
  have hpositions : positions (flip 0 (locations l)) = locations l := by
    rw [positions]
    conv_rhs => rw [locations]
    apply List.filter_congr
    intro k hk
    rw [getMsbD_flip hnodup hlt _ (List.mem_range.mp hk)]
    simp [locations, List.mem_range.mp hk]
  refine ⟨flip 0 (locations l), hpositions, ?_⟩
  rw [← length_positions, hpositions]
  have hinj : Set.InjOn (fun k : ℕ => (a ^ k)⁻¹) (locations l).toFinset := by
    intro k hk m hm heq
    exact a_pow_injOn (hlt k (List.mem_toFinset.mp hk)) (hlt m (List.mem_toFinset.mp hm))
      (inv_injective heq)
  rw [← List.toFinset_card_of_nodup hnodup, ← Finset.card_image_of_injOn hinj]
  apply card_roots_le_of_locate h
  intro z hz
  obtain ⟨k, hk, rfl⟩ := Finset.mem_image.mp hz
  exact of_decide_eq_true (List.mem_filter.mp (List.mem_toFinset.mp hk)).2

/-- What the decoder leaves differs in `t` bits at most. -/
theorem exists_of_decode {t : ℕ} (hpos : 0 < t) (ht : t ≤ 3) (r : BitVec 15) :
    ∃ e, weight e ≤ t ∧ (decodeBch15 r (2 * t + 1)).2 = r ^^^ e := by
  rw [decodeBch15_eq hpos ht]
  split_ifs with hzero
  · exact ⟨0, by simp [weight_zero], by simp⟩
  · cases hl : locate t (syndrome r) with
    | none => exact ⟨0, by simp [weight_zero], by simp⟩
    | some l =>
      obtain ⟨e, hpositions, hweight⟩ := exists_pattern hl
      exact ⟨e, hweight, (congrArg (flip r) hpositions.symm).trans (flip_positions r e)⟩

/-- The decoder fails if its first syndromes are zero, one for each error, but not all are. -/
theorem decode_eq_false_iff {t : ℕ} (hpos : 0 < t) (ht : t ≤ 3) (r : BitVec 15) :
    (decodeBch15 r (2 * t + 1)).1 = false ↔
      ¬ HasZeroSyndromes (2 * t + 1) r ∧ ∀ j < t, syndrome r j = 0 := by
  rw [decodeBch15_eq hpos ht, ← locate_eq_none_iff hpos ht (binary_syndrome r)]
  split_ifs with hzero
  · simp [hzero]
  · cases locate t (syndrome r) <;> simp [hzero]

/-- The decoder flips the bits of the points whose power sums the syndromes are. -/
theorem decode_of_powerSum {t : ℕ} (ht : t ≤ 3) {r e : BitVec 15} {P : List GF16}
    (hsyndrome : ∀ j < 2 * t, syndrome r j = powerSum P j) (hne : P ≠ []) (hnodup : P.Nodup)
    (hlength : P.length ≤ t)
    (hroots : ∀ k < 15, (∃ x ∈ P, x * (a ^ k)⁻¹ = 1) ↔ k ∈ positions e) :
    decodeBch15 r (2 * t + 1) = (true, r ^^^ e) := by
  have hpos : 0 < t := (List.length_pos_iff.mpr hne).trans_le hlength
  have hlocate : locate t (syndrome r) = some (locatorOf P) := by
    rw [locate_congr hsyndrome, locate_powerSum ht hne hnodup hlength]
  have hnonzero : ¬ HasZeroSyndromes (2 * t + 1) r := by
    intro hzero
    have hnone := (locate_eq_none_iff hpos ht (binary_syndrome r)).mpr fun j hj =>
      hzero j (by omega)
    rw [hlocate] at hnone
    cases hnone
  have hlocations : locations (locatorOf P) = positions e := by
    rw [locations, positions]
    apply List.filter_congr
    intro k hk
    rw [Bool.eq_iff_iff, decide_eq_true_iff, value_locatorOf (hlength.trans ht),
      hroots k (List.mem_range.mp hk), mem_positions]
  rw [decodeBch15_eq hpos ht, if_neg hnonzero, hlocate]
  exact congrArg (Prod.mk true) ((congrArg (flip r) hlocations).trans (flip_positions r e))

/-- **Even words.** A word of zero syndromes is left after `t` errors at most. -/
theorem decode_of_near {t : ℕ} (hpos : 0 < t) (ht : t ≤ 3) {c e : BitVec 15}
    (hc : HasZeroSyndromes (2 * t + 1) c) (he : weight e ≤ t) :
    decodeBch15 (c ^^^ e) (2 * t + 1) = (true, c) := by
  by_cases hzero : e = 0#15
  · rw [hzero, BitVec.xor_zero, decodeBch15_eq hpos ht, if_pos hc]
  · have hsyndrome : ∀ j < 2 * t, syndrome (c ^^^ e) j = powerSum (points e) j := by
      intro j hj
      rw [syndrome_xor, show syndrome c j = 0 from hc j hj, zero_add, syndrome_eq_powerSum]
    have hne : points e ≠ [] := by
      rw [← List.length_pos_iff, length_points]
      exact Nat.pos_of_ne_zero fun h => hzero (eq_zero_of_weight h)
    have hdecode := decode_of_powerSum ht hsyndrome hne (nodup_points e)
      (by rwa [length_points]) fun k hk => exists_mem_points_iff hk
    rwa [BitVec.xor_assoc, BitVec.xor_self, BitVec.xor_zero] at hdecode

/-- The words of the narrow-sense code: the powers of orders one to `d - 1` are roots. -/
def IsCodeword (d : ℕ) (c : BitVec 15) : Prop :=
  ∀ j, 1 ≤ j → j ≤ d - 1 → computeSyndrome c.toNat j = 0

/-- A codeword of odd weight has the syndromes of the point zero. -/
theorem IsCodeword.syndrome {t : ℕ} {c : BitVec 15} (hc : IsCodeword (2 * t + 1) c)
    (hodd : weight c % 2 = 1) {j : ℕ} (hj : j < 2 * t) : syndrome c j = 0 ^ j := by
  cases j with
  | zero =>
    rw [syndrome_zero, pow_zero, CharP.cast_eq_mod GF16 2, hodd, Nat.cast_one]
  | succ j =>
    rw [zero_pow j.succ_ne_zero]
    exact hc (j + 1) (by omega) (by omega)

theorem IsCodeword.hasZeroSyndromes {t : ℕ} {c : BitVec 15} (hc : IsCodeword (2 * t + 1) c)
    (heven : weight c % 2 = 0) : HasZeroSyndromes (2 * t + 1) c := by
  intro j hj
  cases j with
  | zero =>
    rw [← ofElement_eq_zero_iff, ← GrSatellites.Snet.syndrome, syndrome_zero,
      CharP.cast_eq_mod GF16 2, heven, Nat.cast_zero]
  | succ j => exact hc (j + 1) (by omega) (by omega)

/-- **Odd words, fewer errors.** The point zero takes the place of an error. -/
theorem decode_of_odd {t : ℕ} (ht : t ≤ 3) {c e : BitVec 15} (hc : IsCodeword (2 * t + 1) c)
    (hodd : weight c % 2 = 1) (he : weight e < t) :
    decodeBch15 (c ^^^ e) (2 * t + 1) = (true, c) := by
  have hsyndrome : ∀ j < 2 * t, syndrome (c ^^^ e) j = powerSum (0 :: points e) j := by
    intro j hj
    rw [syndrome_xor, hc.syndrome hodd hj, syndrome_eq_powerSum, powerSum_cons]
  have hnodup : (0 :: points e).Nodup :=
    List.nodup_cons.mpr ⟨fun hmem => ne_zero_of_mem_points hmem rfl, nodup_points e⟩
  have hlength : (0 :: points e).length ≤ t := by
    rw [List.length_cons, length_points]
    exact he
  have hdecode := decode_of_powerSum (e := e) ht hsyndrome (List.cons_ne_nil _ _) hnodup hlength
    fun k hk => by simp [← exists_mem_points_iff hk]
  rwa [BitVec.xor_assoc, BitVec.xor_self, BitVec.xor_zero] at hdecode

/-- **Odd words, all errors.** With `t` errors the system is singular, and fewer than `t` bits
are flipped. -/
theorem decode_ne_of_odd {t : ℕ} (hpos : 0 < t) (ht : t ≤ 3) {c e : BitVec 15}
    (hc : IsCodeword (2 * t + 1) c) (hodd : weight c % 2 = 1) (he : weight e = t) :
    decodeBch15 (c ^^^ e) (2 * t + 1) ≠ (true, c) := by
  obtain ⟨u, rfl⟩ := Nat.exists_eq_add_of_le' hpos
  have hparity : syndrome (c ^^^ e) 0 = (u : GF16) := by
    rw [syndrome_xor, hc.syndrome hodd (by omega), syndrome_zero, he, pow_zero, Nat.cast_add,
      Nat.cast_one, add_comm, add_assoc, CharTwo.add_self_eq_zero, add_zero]
  have hfewer := locate_of_parity (binary_syndrome (c ^^^ e)) ht hparity
  have hback {e' : BitVec 15} (h : c ^^^ e ^^^ e' = c) : weight e' = u + 1 := by
    have hzero := congrArg (c ^^^ ·) h
    simp only [BitVec.xor_assoc c, BitVec.xor_self, ← BitVec.xor_assoc c c, BitVec.zero_xor] at hzero
    rw [← BitVec.xor_eq_zero_iff.mp hzero, he]
  intro hdecode
  rw [decodeBch15_eq hpos ht, hfewer] at hdecode
  split_ifs at hdecode with hzero
  · have hweight : weight 0#15 = u + 1 :=
      hback (by rw [BitVec.xor_zero]; exact congrArg Prod.snd hdecode)
    simp at hweight
  · cases hl : locate u (syndrome (c ^^^ e)) with
    | none =>
      rw [hl] at hdecode
      cases congrArg Prod.fst hdecode
    | some l =>
      obtain ⟨e', hpositions, hweight⟩ := exists_pattern hl
      rw [hl] at hdecode
      have heq : flip (c ^^^ e) (locations l) = c := congrArg Prod.snd hdecode
      rw [← hpositions, flip_positions] at heq
      have := hback heq
      omega

end GrSatellites.Snet
