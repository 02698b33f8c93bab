import Mathlib.Data.Nat.Notation

/-!
# Bits of bytes

The two orders in which a byte is sent bit by bit, and the packing of a bit string
into bytes by a function that packs eight bits.
-/

namespace GrSatellites.Bits

/-- The bits of a byte, least significant first. -/
def lsbBits (byte : BitVec 8) : List Bool := (List.range 8).map byte.getLsbD

/-- The bits of a byte, most significant first. -/
def msbBits (byte : BitVec 8) : List Bool := (List.range 8).map byte.getMsbD

@[simp] theorem length_lsbBits (byte : BitVec 8) : (lsbBits byte).length = 8 := by
  simp [lsbBits]

@[simp] theorem length_msbBits (byte : BitVec 8) : (msbBits byte).length = 8 := by
  simp [msbBits]

/-- Pack whole bytes. Bits that do not fill a byte are left out. -/
def packWith (packByte : List Bool → BitVec 8) (bits : List Bool) : List (BitVec 8) :=
  (List.range (bits.length / 8)).map fun i => packByte ((bits.drop (8 * i)).take 8)

variable (packByte : List Bool → BitVec 8)

theorem packWith_append {bits : List Bool} (hbits : bits.length = 8) (rest : List Bool) :
    packWith packByte (bits ++ rest) = packByte bits :: packWith packByte rest := by
  have hcount : (bits ++ rest).length / 8 = rest.length / 8 + 1 := by
    rw [List.length_append]
    omega
  unfold packWith
  rw [hcount, List.range_succ_eq_map, List.map_cons, List.map_map]
  congr 1
  · rw [Nat.mul_zero, List.drop_zero, List.take_left' hbits]
  · refine List.map_congr_left fun i _ => ?_
    have hdrop : 8 * (i + 1) = bits.length + 8 * i := by omega
    simp only [Function.comp, hdrop, List.drop_length_add_append]

/-- Packing undoes sending the bits of each byte, when it does so for one byte. -/
theorem packWith_flatMap {sendByte : BitVec 8 → List Bool}
    (hlength : ∀ byte, (sendByte byte).length = 8) (hpack : ∀ byte, packByte (sendByte byte) = byte)
    (bytes : List (BitVec 8)) : packWith packByte (bytes.flatMap sendByte) = bytes := by
  induction bytes with
  | nil => simp [packWith]
  | cons byte bytes ih =>
    rw [List.flatMap_cons, packWith_append _ (hlength byte), hpack, ih]

/-- Sending the bits of each byte undoes packing whole bytes, when it does so for one byte. -/
theorem flatMap_packWith {sendByte : BitVec 8 → List Bool}
    (hsend : ∀ bits, bits.length = 8 → sendByte (packByte bits) = bits) {bits : List Bool} {k : ℕ}
    (hbits : bits.length = k * 8) : (packWith packByte bits).flatMap sendByte = bits := by
  induction k generalizing bits with
  | zero =>
    rw [List.length_eq_zero_iff.mp (hbits.trans (Nat.zero_mul 8))]
    rfl
  | succ k ih =>
    have htake : (bits.take 8).length = 8 := by
      rw [List.length_take]
      omega
    have hdrop : (bits.drop 8).length = k * 8 := by
      rw [List.length_drop]
      omega
    have hcons := packWith_append packByte htake (bits.drop 8)
    rw [List.take_append_drop] at hcons
    rw [hcons, List.flatMap_cons, ih hdrop, hsend _ htake, List.take_append_drop]

theorem length_flatMap_eight {sendByte : BitVec 8 → List Bool}
    (hlength : ∀ byte, (sendByte byte).length = 8) (bytes : List (BitVec 8)) :
    (bytes.flatMap sendByte).length = bytes.length * 8 := by
  induction bytes with
  | nil => rfl
  | cons byte bytes ih =>
    rw [List.flatMap_cons, List.length_append, ih, hlength, List.length_cons]
    omega

end GrSatellites.Bits
