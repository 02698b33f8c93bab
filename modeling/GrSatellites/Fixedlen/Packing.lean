import GrSatellites.Fixedlen.Packet

/-!
# Packing in place

`pack_packet` writes each byte over bits that it has already read, so that the bits of
the bytes to come are still there.
-/

namespace GrSatellites.Fixedlen.FixedlenToPdu

open Bits

/-- The bit of an unpacked byte. -/
def lowBit (byte : Byte) : Bool := byte.getLsbD 0

/-- One more bit of a byte. -/
theorem shift_or_lowBit (byte bit : Byte) :
    (byte <<< 1) ||| (bit &&& 1) = BitVec.ofNat 8 (byte.toNat * 2 + (lowBit bit).toNat) := by
  have hbit : bit &&& 1 = BitVec.ofNat 8 (lowBit bit).toNat := by
    have h : ∀ bit : Byte, bit &&& 1 = BitVec.ofNat 8 (lowBit bit).toNat := by decide
    exact h bit
  have hor : ∀ (byte : Byte) (low : Bool),
      (byte <<< 1) ||| BitVec.ofNat 8 low.toNat = BitVec.ofNat 8 (byte.toNat * 2 + low.toNat) := by
    decide
  rw [hbit, hor]

/-- Shifting bits in spells the number behind the bits that were there. -/
theorem packBits_eq {packet : List Byte} {position rounds : ℕ}
    (hfits : position + rounds ≤ packet.length) (n : ℕ) :
    packBits packet position rounds (BitVec.ofNat 8 n) =
      .ok (BitVec.ofNat 8
        (n * 2 ^ rounds + ofBits (((packet.drop position).take rounds).map lowBit))) := by
  induction rounds generalizing position n with
  | zero => simp [packBits, ofBits]
  | succ rounds ih =>
    have hlt : position < packet.length := by omega
    have hnext : (BitVec.ofNat 8 n <<< 1) ||| (packet[position] &&& 1) =
        BitVec.ofNat 8 (n * 2 + (lowBit packet[position]).toNat) := by
      rw [shift_or_lowBit]
      apply BitVec.eq_of_toNat_eq
      simp only [BitVec.toNat_ofNat]
      omega
    have hlength : (((packet.drop (position + 1)).take rounds).map lowBit).length = rounds := by
      rw [List.length_map, List.length_take, List.length_drop]
      omega
    rw [packBits, List.getElem?_eq_getElem hlt]
    simp only
    rw [hnext, ih (by omega), List.drop_eq_getElem_cons hlt, List.take_succ_cons, List.map_cons,
      ofBits, hlength, Nat.add_mul, Nat.pow_succ, Nat.add_assoc, Nat.mul_assoc,
      Nat.mul_comm 2 (2 ^ rounds)]

/-- The byte that packing makes of eight unpacked ones. -/
def packedByte (packet : List Byte) (i : ℕ) : Byte :=
  packByteMsb (((packet.drop (8 * i)).take 8).map lowBit)

theorem packBits_eight {packet : List Byte} {i : ℕ} (hfits : 8 * i + 8 ≤ packet.length) :
    packBits packet (8 * i) 8 0 = .ok (packedByte packet i) := by
  have h := packBits_eq hfits 0
  rwa [Nat.zero_mul, Nat.zero_add] at h

/-- **Packing in place.** When the first bytes are packed and the rest of the buffer is as it
was, the loop packs the next ones. -/
theorem packLoop_spec (original : List Byte) {packet : List Byte} (j rounds : ℕ)
    (hsame : packet.length = original.length) (hfits : 8 * (j + rounds) ≤ original.length)
    (hdone : packet.take j = (List.range j).map (packedByte original))
    (hrest : packet.drop j = original.drop j) :
    ∃ packet', packLoop packet j rounds = .ok packet' ∧ packet'.length = original.length ∧
      packet'.take (j + rounds) = (List.range (j + rounds)).map (packedByte original) := by
  induction rounds generalizing packet j with
  | zero => exact ⟨packet, rfl, hsame, hdone⟩
  | succ rounds ih =>
    have hread : packet.drop (8 * j) = original.drop (8 * j) := by
      have hsplit : 8 * j = j + 7 * j := by omega
      rw [hsplit, ← List.drop_drop, hrest, List.drop_drop]
    have hbyte : packBits packet (8 * j) 8 0 = .ok (packedByte original j) := by
      rw [packBits_eight (by omega), packedByte, hread, packedByte]
    have hlt : j < packet.length := by omega
    have htake : (packet.set j (packedByte original j)).take (j + 1) =
        (List.range (j + 1)).map (packedByte original) := by
      rw [List.take_set, List.take_succ_eq_append_getElem hlt, hdone, List.range_succ, List.map_append]
      rw [List.set_append_right _ _ (by simp)]
      simp
    have hdrop : (packet.set j (packedByte original j)).drop (j + 1) = original.drop (j + 1) := by
      rw [List.drop_set_of_lt (by omega), ← List.drop_drop, hrest, List.drop_drop]
    have hcount : j + (rounds + 1) = j + 1 + rounds := by omega
    rw [packLoop, hbyte, ok_bind, hcount]
    exact ih (j + 1) (by rw [List.length_set, hsame]) (by omega) htake hdrop

/-- **Packing.** The bits at the start of the buffer are packed to its start. -/
theorem packPacket_spec {packet contents : List Byte} (hcontents : contents <+: packet) :
    ∃ packet', packPacket packet (contents.length / 8) = .ok packet' ∧
      packet'.length = packet.length ∧ packMsb (contents.map lowBit) <+: packet' := by
  have hle := hcontents.length_le
  obtain ⟨packet', hpack, hsame, htake⟩ := packLoop_spec packet 0 (contents.length / 8) rfl
    (by omega) rfl rfl
  refine ⟨packet', hpack, hsame, ?_⟩
  have hbytes : packMsb (contents.map lowBit) =
      (List.range (contents.length / 8)).map (packedByte packet) := by
    obtain ⟨rest, rfl⟩ := hcontents
    rw [packMsb, packWith, List.length_map]
    refine List.map_congr_left fun i hi => ?_
    rw [List.mem_range] at hi
    rw [packedByte, List.drop_append_of_le_length (by omega), List.take_append_of_le_length
      (by rw [List.length_drop]; omega), ← List.map_drop, ← List.map_take]
  rw [Nat.zero_add] at htake
  rw [hbytes, ← htake]
  exact List.take_prefix _ _

end GrSatellites.Fixedlen.FixedlenToPdu
