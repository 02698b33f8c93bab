import GrSatellites.Crc.Burst
import GrSatellites.Mobitex.Model

/-!
# Callsigns

The search for a callsign flips more and more bits, so it finds a valid pair of callsign and CRC
at the least distance. The CRC of a callsign of six bytes tells all errors of one bit apart.
-/

namespace GrSatellites.Mobitex

open Bits BitFlips Endian Lfsr

/-- A callsign of `n` bytes with its CRC behind it. -/
def validPair (n : ℕ) (pair : List Byte) : Bool := checkCallsignCrc (pair.take n) (pair.drop n)

theorem validPair_append (callsign crc : List Byte) :
    validPair callsign.length (callsign ++ crc) = checkCallsignCrc callsign crc := by
  rw [validPair, List.take_left, List.drop_left]

theorem findSome?_congr {α β : Type*} {xs : List α} {f g : α → Option β}
    (h : ∀ x ∈ xs, f x = g x) : xs.findSome? f = xs.findSome? g := by
  induction xs with
  | nil => rfl
  | cons x xs ih =>
    rw [List.findSome?_cons, List.findSome?_cons, h x List.mem_cons_self,
      ih fun y hy => h y (List.mem_cons_of_mem x hy)]

/-- The search is the one for the nearest valid pair. -/
theorem decodeUnknownCallsign_eq (callsign crc : List Byte) (maxBitFlips : ℤ) :
    decodeUnknownCallsign callsign crc maxBitFlips =
      (nearest (validPair callsign.length) (maxBitFlips + 1).toNat (callsign ++ crc)).map
        fun (pair, errors) => (pair.take callsign.length, pair.drop callsign.length, errors) := by
  rw [decodeUnknownCallsign, nearest, List.map_findSome?]
  refine findSome?_congr fun k _ => ?_
  rw [Function.comp, List.map_findSome?]
  refine findSome?_congr fun flips hflips => ?_
  have hcount : (flips.countP fun x : ℕ => (x : ℤ) ≠ -1) = k := by
    rw [← (mem_combinations.mp hflips).2, List.countP_eq_length]
    intro x _
    rw [decide_eq_true_eq]
    omega
  simp only [Function.comp, hcount]
  by_cases hvalid : validPair callsign.length (flipAll (callsign ++ crc) flips) = true
  · rw [if_pos hvalid]
    exact if_pos hvalid
  · rw [if_neg hvalid]
    exact if_neg hvalid

/-! ## The least distance -/

variable {callsign crc : List Byte} {maxBitFlips : ℤ}

/-- What the search returns is valid, and no other valid pair is nearer to what was received. -/
theorem decodeUnknownCallsign_eq_some {callsign' crc' : List Byte} {errors : ℕ}
    (h : decodeUnknownCallsign callsign crc maxBitFlips = some (callsign', crc', errors)) :
    callsign'.length = callsign.length ∧ crc'.length = crc.length ∧
      checkCallsignCrc callsign' crc' = true ∧
      errors = distance (callsign ++ crc) (callsign' ++ crc') ∧
      ∀ other otherCrc : List Byte, other.length = callsign.length →
        otherCrc.length = crc.length → checkCallsignCrc other otherCrc = true →
          errors ≤ distance (callsign ++ crc) (other ++ otherCrc) := by
  rw [decodeUnknownCallsign_eq, Option.map_eq_some_iff] at h
  obtain ⟨⟨pair, k⟩, hnearest, hpair⟩ := h
  cases hpair
  obtain ⟨hlength, hvalid, hdistance, -, hleast⟩ := nearest_eq_some hnearest
  rw [List.length_append] at hlength
  refine ⟨by rw [List.length_take]; omega, by rw [List.length_drop]; omega, hvalid, ?_, ?_⟩
  · rw [List.take_append_drop, hdistance]
  · intro other otherCrc hother hotherCrc hcheck
    refine hleast _ (by rw [List.length_append, List.length_append, hother, hotherCrc]) ?_
    rwa [← hother, validPair_append]

theorem decodeUnknownCallsign_eq_none_iff :
    decodeUnknownCallsign callsign crc maxBitFlips = none ↔
      ∀ other otherCrc : List Byte, other.length = callsign.length →
        otherCrc.length = crc.length → checkCallsignCrc other otherCrc = true →
          maxBitFlips < distance (callsign ++ crc) (other ++ otherCrc) := by
  rw [decodeUnknownCallsign_eq, Option.map_eq_none_iff, nearest_eq_none_iff]
  constructor
  · intro h other otherCrc hother hotherCrc hcheck
    have hge := h (other ++ otherCrc)
      (by rw [List.length_append, List.length_append, hother, hotherCrc])
      (by rwa [← hother, validPair_append])
    omega
  · intro h pair hlength hvalid
    rw [List.length_append] at hlength
    have hlt := h (pair.take callsign.length) (pair.drop callsign.length)
      (by rw [List.length_take]; omega) (by rw [List.length_drop]; omega) hvalid
    rw [List.take_append_drop] at hlt
    omega

/-! ## Single errors -/

/-- The register of the CRC after a callsign and what follows it. -/
def syndrome (pair : List Byte) : BitVec 16 := feedAll 0x8408#16 0#16 (pair.flatMap msbBits)

theorem feedback_crcFn : Crc.feedback ⟨16, by decide, by decide⟩ 0x1021 = 0x8408#16 := by decide

/-- The CRC is the word that holds the register. -/
theorem compute_crcFn (callsign : List Byte) :
    crcFn.compute callsign = Crc.toWord false (syndrome callsign) := by
  have hr : (0 : Word) &&& Crc.maskOf ⟨16, by decide, by decide⟩ =
      Crc.toWord false (0#16) := by decide
  rw [crcFn, Crc.compute_eq_finish hr, feedback_crcFn, Crc.finish, if_neg (by decide)]
  exact (congrArg _ BitVec.zero_and).trans BitVec.xor_zero

/-- The bytes of the word, in order, are the bits that leave the register next. -/
theorem flatMap_msbBits_toWord (r : BitVec 16) :
    (bytesBE 2 (Crc.toWord false r)).flatMap msbBits = lowBits r 16 := by
  have hbit (i : ℕ) (hi : i < 64) :
      (Crc.toWord false r)[i] = (decide (i < 16) && r.getLsbD (16 - 1 - i)) := by
    rw [← BitVec.getLsbD_eq_getElem, Crc.getLsbD_toWord_false (by decide)]
  simp [bytesBE, msbBits, lowBits, List.range_succ, BitVec.getMsbD_eq_getLsbD, hbit]

/-- The register is zero after a valid pair. -/
theorem syndrome_of_check (hcheck : checkCallsignCrc callsign crc = true) :
    syndrome (callsign ++ crc) = 0#16 := by
  have hcrc : callsignCrc callsign = crc := of_decide_eq_true hcheck
  rw [← hcrc, callsignCrc, compute_crcFn, syndrome, List.flatMap_append, feedAll_append,
    flatMap_msbBits_toWord]
  exact (feedAll_lowBits _ _ le_rfl).trans (BitVec.ushiftRight_eq_zero le_rfl)

theorem syndrome_xor {xs ys : List Byte} (h : xs.length = ys.length) :
    syndrome (List.zipWith (· ^^^ ·) xs ys) = syndrome xs ^^^ syndrome ys := by
  have hbits := Crc.flatMap_byteBits_xor false h
  have hlength : (xs.flatMap msbBits).length = (ys.flatMap msbBits).length := by
    rw [length_flatMap_eight length_msbBits, length_flatMap_eight length_msbBits, h]
  exact (congrArg (feedAll 0x8408#16 0#16) hbits).trans (feedAll_xor 0x8408#16 0#16 0#16 hlength)

/-- Eight bytes of which one bit is set. -/
def unit (i : ℕ) : List Byte := flipBit (List.replicate 8 0#8) i

theorem flipBit_eq_zipWith {pair : List Byte} (hpair : pair.length = 8) (i : ℕ) :
    flipBit pair i = List.zipWith (· ^^^ ·) pair (unit i) := by
  have hunit : (unit i).length = 8 := by rw [unit, length_flipBit, List.length_replicate]
  refine List.ext_getElem ?_ fun k _ _ => ?_
  · rw [length_flipBit, List.length_zipWith, hpair, hunit]
    rfl
  · simp only [flipBit, unit, List.getElem_modify, List.getElem_zipWith, List.getElem_replicate]
    by_cases hk : i / 8 = k
    · simp only [hk, if_true, BitVec.zero_xor]
    · simp only [hk, if_false, BitVec.xor_zero]

theorem syndrome_flipBit {pair : List Byte} (hpair : pair.length = 8) (i : ℕ) :
    syndrome (flipBit pair i) = syndrome pair ^^^ syndrome (unit i) := by
  rw [flipBit_eq_zipWith hpair i, syndrome_xor]
  rw [hpair, unit, length_flipBit, List.length_replicate]

/-- A bit set in eight bytes leaves a register of its own, which is not zero. -/
theorem nodup_syndrome_unit :
    (0#16 :: (List.range 64).map fun i => syndrome (unit i)).Nodup := by
  decide +kernel

/-- At most one bit is between a byte string and one at distance at most one. -/
theorem eq_or_flipBit {a b : List Byte} (ha : a.length = 8) (hlength : a.length = b.length)
    (hdistance : distance a b ≤ 1) : b = a ∨ ∃ i < 64, b = flipBit a i := by
  obtain ⟨flips, hflips, rfl⟩ := (distance_eq_iff hlength).mp rfl
  obtain ⟨hsub, hcount⟩ := mem_combinations.mp hflips
  match flips, hsub, hcount with
  | [], _, _ => exact Or.inl rfl
  | [i], hsub, _ =>
    have hi := List.mem_range.mp (hsub.subset List.mem_cons_self)
    exact Or.inr ⟨i, by omega, rfl⟩
  | _ :: _ :: _, _, hcount =>
    rw [List.length_cons, List.length_cons] at hcount
    omega

/-- Two valid pairs that differ from one byte string in at most one bit are equal. -/
theorem eq_of_syndrome_eq_zero {a b c : List Byte} (ha : a.length = 8)
    (hb : a.length = b.length) (hc : a.length = c.length) (hsb : syndrome b = 0#16)
    (hsc : syndrome c = 0#16) (hdb : distance a b ≤ 1) (hdc : distance a c ≤ 1) : c = b := by
  obtain ⟨hzero, hnodup⟩ := List.nodup_cons.mp nodup_syndrome_unit
  have hne (i : ℕ) (hi : i < 64) : syndrome (unit i) ≠ 0#16 := fun h =>
    hzero (List.mem_map.mpr ⟨i, List.mem_range.mpr hi, h⟩)
  rcases eq_or_flipBit ha hb hdb with rfl | ⟨i, hi, rfl⟩
  · rcases eq_or_flipBit ha hc hdc with rfl | ⟨j, hj, rfl⟩
    · rfl
    · rw [syndrome_flipBit ha j, hsb, BitVec.zero_xor] at hsc
      exact absurd hsc (hne j hj)
  · rw [syndrome_flipBit ha i] at hsb
    rcases eq_or_flipBit ha hc hdc with rfl | ⟨j, hj, rfl⟩
    · rw [hsc, BitVec.zero_xor] at hsb
      exact absurd hsb (hne i hi)
    · rw [syndrome_flipBit ha j, ← hsb, BitVec.xor_right_inj] at hsc
      have hij := List.inj_on_of_nodup_map hnodup (List.mem_range.mpr hj) (List.mem_range.mpr hi) hsc
      rw [hij]

/-- A callsign of six bytes is decoded when at most one bit of it or of its CRC is wrong. -/
theorem decodeUnknownCallsign_of_near {callsign' crc' : List Byte} (hcallsign : callsign.length = 6)
    (hcheck : checkCallsignCrc callsign crc = true) (hcallsign' : callsign'.length = 6)
    (hcrc' : crc'.length = 2) (hdistance : distance (callsign' ++ crc') (callsign ++ crc) ≤ 1)
    (hmax : (distance (callsign' ++ crc') (callsign ++ crc) : ℤ) ≤ maxBitFlips) :
    decodeUnknownCallsign callsign' crc' maxBitFlips =
      some (callsign, crc, distance (callsign' ++ crc') (callsign ++ crc)) := by
  have hcrc : crc.length = 2 := by
    rw [← of_decide_eq_true hcheck, callsignCrc, length_bytesBE]
  have hreceived : (callsign' ++ crc').length = 8 := by
    rw [List.length_append, hcallsign', hcrc']
  have hsent : (callsign' ++ crc').length = (callsign ++ crc).length := by
    rw [hreceived, List.length_append, hcallsign, hcrc]
  have hnearest : nearest (validPair callsign.length) (maxBitFlips + 1).toNat (callsign' ++ crc') =
      some (callsign ++ crc, distance (callsign' ++ crc') (callsign ++ crc)) := by
    refine nearest_eq_some_of_unique hsent (by rwa [validPair_append]) (by omega)
      fun c hc hvalid hle => ?_
    have hsyndrome := syndrome_of_check hvalid
    rw [List.take_append_drop] at hsyndrome
    exact eq_of_syndrome_eq_zero hreceived hsent hc (syndrome_of_check hcheck) hsyndrome
      hdistance (hle.trans hdistance)
  rw [decodeUnknownCallsign_eq, hcallsign', ← hcallsign, hnearest, Option.map_some]
  simp only [List.take_left, List.drop_left]

/-- **Callsign recovery.** The search returns a valid pair at the least distance from what was
received, it fails exactly when no valid pair is within the bound, and for a callsign of six
bytes it undoes every error of one bit. -/
theorem decodeUnknownCallsign_minimal :
    (∀ (callsign crc : List Byte) (maxBitFlips : ℤ) (callsign' crc' : List Byte) (errors : ℕ),
      decodeUnknownCallsign callsign crc maxBitFlips = some (callsign', crc', errors) →
        callsign'.length = callsign.length ∧ crc'.length = crc.length ∧
          checkCallsignCrc callsign' crc' = true ∧
          errors = distance (callsign ++ crc) (callsign' ++ crc') ∧
          ∀ other otherCrc : List Byte, other.length = callsign.length →
            otherCrc.length = crc.length → checkCallsignCrc other otherCrc = true →
              errors ≤ distance (callsign ++ crc) (other ++ otherCrc)) ∧
    (∀ (callsign crc : List Byte) (maxBitFlips : ℤ),
      decodeUnknownCallsign callsign crc maxBitFlips = none ↔
        ∀ other otherCrc : List Byte, other.length = callsign.length →
          otherCrc.length = crc.length → checkCallsignCrc other otherCrc = true →
            maxBitFlips < distance (callsign ++ crc) (other ++ otherCrc)) ∧
    ∀ (callsign crc : List Byte) (i : ℕ) (maxBitFlips : ℤ), callsign.length = 6 →
      checkCallsignCrc callsign crc = true → i < 64 → 1 ≤ maxBitFlips →
        decodeUnknownCallsign ((flipBit (callsign ++ crc) i).take 6)
          ((flipBit (callsign ++ crc) i).drop 6) maxBitFlips = some (callsign, crc, 1) := by
  refine ⟨fun _ _ _ _ _ _ h => decodeUnknownCallsign_eq_some h,
    fun _ _ _ => decodeUnknownCallsign_eq_none_iff, ?_⟩
  intro callsign crc i maxBitFlips hcallsign hcheck hi hmax
  have hcrc : crc.length = 2 := by
    rw [← of_decide_eq_true hcheck, callsignCrc, length_bytesBE]
  have hlength : (callsign ++ crc).length = 8 := by rw [List.length_append, hcallsign, hcrc]
  have hone : distance (callsign ++ crc) (flipAll (callsign ++ crc) [i]) = 1 := by
    refine distance_flipAll (fun j hj => ?_) (List.nodup_singleton i)
    rw [List.mem_singleton.mp hj, hlength]
    omega
  rw [distance_comm (length_flipAll _ _).symm] at hone
  change distance (flipBit (callsign ++ crc) i) (callsign ++ crc) = 1 at hone
  have hdecode := @decodeUnknownCallsign_of_near callsign crc maxBitFlips
    ((flipBit (callsign ++ crc) i).take 6) ((flipBit (callsign ++ crc) i).drop 6) hcallsign hcheck
    (by rw [List.length_take, length_flipBit, hlength]; rfl)
    (by rw [List.length_drop, length_flipBit, hlength])
    (by rw [List.take_append_drop, hone])
    (by rw [List.take_append_drop, hone]; exact_mod_cast hmax)
  rwa [List.take_append_drop, hone] at hdecode

/-- The callsign `DP0BEM`, of which one bit is wrong. -/
theorem decodeUnknownCallsign_one_bit :
    decodeUnknownCallsign ((flipBit ([0x44, 0x50, 0x30, 0x42, 0x45, 0x4d] ++ [0x4d, 0xf7]) 3).take 6)
      ((flipBit ([0x44, 0x50, 0x30, 0x42, 0x45, 0x4d] ++ [0x4d, 0xf7]) 3).drop 6) 2 =
        some ([0x44, 0x50, 0x30, 0x42, 0x45, 0x4d], [0x4d, 0xf7], 1) := by
  have hcheck : checkCallsignCrc [0x44, 0x50, 0x30, 0x42, 0x45, 0x4d] [0x4d, 0xf7] = true := by
    rw [checkCallsignCrc, callsignCrc, compute_crcFn]
    decide +kernel
  exact decodeUnknownCallsign_minimal.2.2 _ _ 3 2 rfl hcheck (by decide) (by decide)

end GrSatellites.Mobitex
