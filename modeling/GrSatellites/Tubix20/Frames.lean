import GrSatellites.Tubix20.Model
import GrSatellites.Library.Attempt

/-!
# The frames of the TUBiX20 reframer

When a frame can be prepared from the buffered blocks, and what is in it.
-/

namespace GrSatellites.Tubix20

open Attempt

variable {M : Type}

/-! ## The error marker -/

theorem testBit_foldl_marker (entries : List (ℕ × Tags M)) (code i : ℕ) :
    (entries.foldl (fun code e => if e.2.crcValid then code else code ||| 1 <<< e.1)
      code).testBit i = true ↔
      code.testBit i = true ∨ ∃ e ∈ entries, e.1 = i ∧ e.2.crcValid = false := by
  induction entries generalizing code with
  | nil => simp
  | cons e entries ih =>
    rw [List.foldl_cons, ih, List.exists_mem_cons_iff, ← or_assoc]
    refine or_congr_left ?_
    cases hvalid : e.2.crcValid with
    | true => simp
    | false => simp [Nat.testBit_or, Nat.one_shiftLeft, Nat.testBit_two_pow]

/-- Bit `i` of the error code is set if block `i` is invalid. -/
theorem testBit_errorCode {tags : Dict ℕ (Tags M)} {i : ℕ} :
    (errorCode tags).testBit i = true ↔ ∃ t, tags.get? i = some t ∧ t.crcValid = false := by
  unfold errorCode
  rw [testBit_foldl_marker, Nat.zero_testBit]
  simp only [Bool.false_eq_true, false_or, Dict.get?_eq_some_iff]
  constructor
  · rintro ⟨⟨j, t⟩, he, rfl, hvalid⟩
    exact ⟨t, he, hvalid⟩
  · rintro ⟨t, he, hvalid⟩
    exact ⟨(i, t), he, rfl, hvalid⟩

/-- Bit `i` of a marker, counted from the first bit of the first byte. -/
def markerBit (marker : List Byte) (i : ℕ) : Bool := (marker.getD (i / 8) 0).getLsbD (i % 8)

theorem errorCodeBytes_eq_ok {tags : Dict ℕ (Tags M)} (hlt : ∀ k ∈ tags.keys, k < 32) :
    ∃ marker, errorCodeBytes tags = .ok marker ∧ marker.length = 4 ∧
      ∀ i < 32, markerBit marker i = (errorCode tags).testBit i := by
  have hsmall : errorCode tags < 2 ^ 32 := by
    refine Nat.lt_pow_two_of_testBit _ fun i hi => ?_
    rw [Bool.eq_false_iff]
    intro hbit
    obtain ⟨t, ht, -⟩ := testBit_errorCode.mp hbit
    have := hlt i (Dict.mem_keys_iff.mpr ⟨t, ht⟩)
    omega
  unfold errorCodeBytes
  rw [if_pos hsmall]
  refine ⟨_, rfl, by simp, fun i hi => ?_⟩
  have hbyte : i / 8 < 4 := by omega
  have hbit : i % 8 < 8 := Nat.mod_lt _ (by norm_num)
  have hplace : 8 * (i / 8) + i % 8 = i := Nat.div_add_mod i 8
  have hget : ((List.range 4).map fun i => BitVec.ofNat 8 (errorCode tags >>> (8 * i))).getD (i / 8)
      0 = BitVec.ofNat 8 (errorCode tags >>> (8 * (i / 8))) := by
    simp [List.getD_eq_getElem?_getD, hbyte]
  rw [markerBit, hget, BitVec.getLsbD_ofNat, Nat.testBit_shiftRight, hplace]
  simp [hbit]

/-! ## Preparing a frame -/

theorem mapM_blocks_eq_ok {s : Reframer M} {block : ℕ → List Byte}
    (h : ∀ i < s.blocks.size, s.blocks.get? i = some (block i)) :
    (List.range s.blocks.size).mapM (getBlock s) = .ok ((List.range s.blocks.size).map block) := by
  rw [mapM_eq_ok, List.forall₂_map_right_iff, List.forall₂_same]
  intro i hi
  rw [getBlock, h i (List.mem_range.mp hi)]

/-- **Preparing a frame.** With the blocks below their number, a frame has them in order. -/
theorem prepareFrame_eq_ok {s : Reframer M} {header : List Byte} {block : ℕ → List Byte}
    (hheader : s.frameHeader = some header)
    (hblocks : ∀ i < s.blocks.size, s.blocks.get? i = some (block i))
    (hlt : ∀ k ∈ s.tags.keys, k < 32) :
    ∃ marker, prepareFrame s = .ok (masterHeader header ++
      ((List.range s.blocks.size).map block).flatten ++ [0xAA] ++ marker ++ [0xBB]) ∧
      marker.length = 4 ∧ ∀ i < 32, markerBit marker i = (errorCode s.tags).testBit i := by
  obtain ⟨marker, hmarker, hlength, hbits⟩ := errorCodeBytes_eq_ok hlt
  refine ⟨marker, ?_, hlength, hbits⟩
  unfold prepareFrame
  rw [hheader, hmarker, mapM_blocks_eq_ok hblocks]
  rfl

/-- Without one of these blocks, an exception is raised. -/
theorem prepareFrame_ne_ok {s : Reframer M} {i : ℕ} (hi : i < s.blocks.size)
    (hmissing : i ∉ s.blocks.keys) (packet : List Byte) : prepareFrame s ≠ .ok packet := by
  intro hok
  unfold prepareFrame at hok
  cases hheader : s.frameHeader with
  | none =>
    rw [hheader] at hok
    cases hok
  | some header =>
    rw [hheader] at hok
    obtain ⟨blocks, hmap, -⟩ := bind_eq_ok.mp hok
    obtain ⟨b, hb⟩ := succeeds_mapM.mp ⟨blocks, hmap⟩ i (List.mem_range.mpr hi)
    cases hget : s.blocks.get? i with
    | none =>
      rw [getBlock, hget] at hb
      cases hb
    | some block => exact hmissing (Dict.mem_keys_iff.mpr ⟨block, hget⟩)

/-! ## Publishing a frame -/

theorem publishFrame_of_none {s : Reframer M} (h : ¬ 0 < s.tags.values.countP Tags.crcValid) :
    publishFrame s = .ok .noCorrectBlock := if_pos (by omega)

theorem publishFrame_of_pos {s : Reframer M} (h : 0 < s.tags.values.countP Tags.crcValid) :
    publishFrame s = (prepareFrame s).map fun packet =>
      .frame ⟨s.block0Meta, s.tags.values.countP Tags.crcValid,
        (s.tags.values.map Tags.correctedErrors).sum,
        (s.tags.values.map Tags.uncorrectedErrors).sum, packet⟩ := by
  unfold publishFrame
  rw [if_neg (by omega)]
  cases prepareFrame s <;> rfl

end GrSatellites.Tubix20
