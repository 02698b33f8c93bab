import GrSatellites.Crc.Bitwise
import GrSatellites.Library.Segmentation

/-!
# The payload of IDEASSat packets

The block `extract_payload` of `python/components/deframers/ideassat_deframer.py`. A packet is
made of nine subpackets of 40 bytes, of which the first one has lost its header. After a wrong
CRC the handler only returns if it is verbose.
-/

namespace GrSatellites.Ideassat

open Segmentation

variable {M : Type}

theorem crcBits_ge : 8 ≤ 16 := by decide

theorem crcBits_le : 16 ≤ 64 := by decide

/-- `crc_calc`. -/
def crcCalc : Crc := Crc.ofWidth ⟨16, crcBits_ge, crcBits_le⟩ 0x1021 0xFFFF 0x0 false false

/-- `struct.unpack('<H', bytes)[0]`. -/
def unpackH (bytes : List Byte) : Word :=
  (bytes.getD 0 0).setWidth 64 ||| (bytes.getD 1 0).setWidth 64 <<< 8

/-- `packet.reshape((rows, size))`. -/
def reshape (rows size : ℕ) (packet : List Byte) : List (List Byte) :=
  (List.range rows).map fun i => (packet.drop (size * i)).take size

/-- `extract_payload.handle_msg`: the bytes published, if any. -/
def extractPayload (verbose : Bool) : Msg M → Option (List Byte)
  | .other _ => none
  | .u8vector ⟨_, msg⟩ =>
    let initialPadding := List.replicate 17 0
    let packet := initialPadding ++ msg
    if packet.length ≠ 40 * 9 then none
    else
      let packet := reshape 9 40 packet
      let header := ((packet.getD 1 []).take 16).drop 1
      let packet := (packet.map fun row => (sliceTo row (-1)).drop 17).flatten
      let packet := sliceTo packet (-11)
      let crcVal := crcCalc.compute ((sliceTo packet (-2)).drop 4)
      let published := header ++ sliceTo packet (-2)
      if crcVal ≠ unpackH (sliceFrom packet (-2)) then
        if verbose then none else some published
      else some published

/-! ## What is extracted -/

/-- The number of bytes that are received of a packet. -/
def receivedSize : ℕ := 40 * 9 - 17

/-- The AX.25 header of the second subpacket. -/
def ax25Header (msg : List Byte) : List Byte := (msg.drop 24).take 15

/-- The payloads of the nine subpackets in order, each after its header. -/
def payloads (msg : List Byte) : List Byte :=
  (List.range 9).flatMap fun i => (msg.drop (40 * i)).take 22

/-- The payload bytes without the padding and the CRC before it. -/
def payload (msg : List Byte) : List Byte := (payloads msg).take 185

/-- The CRC comes after the payload, and leaves out its first four bytes. -/
def CrcMatches (msg : List Byte) : Prop :=
  crcCalc.compute ((payload msg).drop 4) = unpackH (((payloads msg).drop 185).take 2)

instance (msg : List Byte) : Decidable (CrcMatches msg) := inferInstanceAs (Decidable (_ = _))

/-- Whether it is verbose or not, the block publishes the header and the payload of a packet of
the right size with the right CRC, and nothing otherwise. -/
def Extracts (car : M) (msg : List Byte) : Prop :=
  ∀ verbose, extractPayload verbose (.u8vector ⟨car, msg⟩) =
    if msg.length = receivedSize ∧ CrcMatches msg then some (ax25Header msg ++ payload msg)
    else none

variable {msg : List Byte}

/-- The padding stands for the header that has been lost. -/
theorem drop_padding (n : ℕ) :
    (List.replicate 17 (0 : Byte) ++ msg).drop (17 + n) = msg.drop n := by
  rw [← List.drop_drop, List.drop_left' List.length_replicate]

theorem length_payloads (h : msg.length = receivedSize) : (payloads msg).length = 198 := by
  have hrow : ∀ i ∈ List.range 9, ((msg.drop (40 * i)).take 22).length = 22 := by
    intro i hi
    have := List.mem_range.mp hi
    rw [List.length_take, List.length_drop, h, receivedSize]
    omega
  rw [payloads, List.length_flatMap, List.map_congr_left hrow]
  rfl

/-- The columns of the array that are kept are the payloads. -/
theorem flatten_rows (h : msg.length = receivedSize) :
    ((reshape 9 40 (List.replicate 17 0 ++ msg)).map fun row => (sliceTo row (-1)).drop 17).flatten =
      payloads msg := by
  rw [reshape, List.map_map, payloads, List.flatMap]
  congr 1
  refine List.map_congr_left fun i hi => ?_
  have hi := List.mem_range.mp hi
  have hlength : (((List.replicate 17 0 ++ msg).drop (40 * i)).take 40).length = 40 := by
    rw [List.length_take, List.length_drop, List.length_append, List.length_replicate, h,
      receivedSize]
    omega
  rw [Function.comp_apply, sliceTo, if_pos (by decide), hlength, List.take_take, List.drop_take,
    List.drop_drop, Nat.add_comm (40 * i), drop_padding]
  rfl

theorem header_eq : (((reshape 9 40 (List.replicate 17 0 ++ msg)).getD 1 []).take 16).drop 1 =
    ax25Header msg := by
  have hrow : (reshape 9 40 (List.replicate 17 0 ++ msg)).getD 1 [] =
      (msg.drop 23).take 40 := congrArg (List.take 40) (drop_padding 23)
  rw [hrow, List.take_take, List.drop_take, List.drop_drop]
  rfl

/-- The handler in terms of the packet received. -/
theorem extractPayload_eq (car : M) (verbose : Bool) :
    extractPayload verbose (.u8vector ⟨car, msg⟩) =
      if msg.length ≠ receivedSize then none
      else if ¬ CrcMatches msg ∧ verbose then none
      else some (ax25Header msg ++ payload msg) := by
  have hsize : (List.replicate 17 (0 : Byte) ++ msg).length ≠ 40 * 9 ↔
      msg.length ≠ receivedSize := by
    rw [List.length_append, List.length_replicate, receivedSize]
    omega
  rw [extractPayload]
  simp only [hsize]
  by_cases h : msg.length = receivedSize
  · have hlength := length_payloads h
    have hcut : sliceTo (payloads msg) (-11) = (payloads msg).take 187 := by
      rw [sliceTo, if_pos (by decide), hlength]
      rfl
    have hbody : sliceTo ((payloads msg).take 187) (-2) = payload msg := by
      rw [sliceTo, if_pos (by decide), List.length_take, hlength, List.take_take]
      rfl
    have hcrc : sliceFrom ((payloads msg).take 187) (-2) = ((payloads msg).drop 185).take 2 := by
      rw [sliceFrom, if_pos (by decide), List.length_take, hlength, List.drop_take]
      rfl
    rw [if_neg (not_not.mpr h), if_neg (not_not.mpr h), header_eq, flatten_rows h, hcut, hbody, hcrc]
    by_cases hmatch : CrcMatches msg
    · have hagree : crcCalc.compute ((payload msg).drop 4) =
          unpackH (((payloads msg).drop 185).take 2) := hmatch
      rw [if_neg (not_not.mpr hagree), if_neg fun hboth => hboth.1 hmatch]
    · have hdiffer : crcCalc.compute ((payload msg).drop 4) ≠
          unpackH (((payloads msg).drop 185).take 2) := hmatch
      rw [if_pos hdiffer]
      cases verbose with
      | false => rw [if_neg Bool.false_ne_true, if_neg fun hboth => Bool.false_ne_true hboth.2]
      | true => rw [if_pos rfl, if_pos ⟨hmatch, rfl⟩]
  · rw [if_pos h, if_pos h]

/-- **The CRC gate.** It holds for exactly the packets of another size and those with the right
CRC. -/
theorem extracts_iff (car : M) (msg : List Byte) :
    Extracts car msg ↔ msg.length ≠ receivedSize ∨ CrcMatches msg := by
  constructor
  · intro h
    by_contra hbad
    obtain ⟨hsize, hcrc⟩ := not_or.mp hbad
    have hquiet := h false
    rw [extractPayload_eq, if_neg hsize, if_neg fun hboth => Bool.false_ne_true hboth.2,
      if_neg fun hboth => hcrc hboth.2] at hquiet
    cases hquiet
  · rintro (hsize | hcrc) verbose
    · rw [extractPayload_eq, if_pos hsize, if_neg fun hboth => hsize hboth.1]
    · rw [extractPayload_eq]
      by_cases hsize : msg.length = receivedSize
      · rw [if_neg (not_not.mpr hsize), if_neg fun hboth => hboth.1 hcrc, if_pos ⟨hsize, hcrc⟩]
      · rw [if_pos hsize, if_neg fun hboth => hsize hboth.1]

/-- The packet of zeros, which has a wrong CRC. -/
theorem not_extracts_zeros : ¬ ∀ msg, Extracts () msg := by
  intro h
  have hbad := (extracts_iff () (List.replicate 343 0)).mp (h _)
  rcases hbad with hsize | hcrc
  · exact hsize List.length_replicate
  · have hr : (0xFFFF : Word) &&& Crc.maskOf ⟨16, crcBits_ge, crcBits_le⟩ =
        Crc.toWord false 0xFFFF#16 := by decide
    rw [CrcMatches, crcCalc, Crc.compute_eq_finish hr] at hcrc
    revert hcrc
    decide +kernel

end GrSatellites.Ideassat
