import GrSatellites.Basic
import GrSatellites.Library.Segmentation

/-!
# Cropping packets by a length byte

The blocks of `python/cc11xx_packet_crop.py`, `python/sx12xx_packet_crop.py` and
`python/swiatowid_packet_crop.py`. Each takes the length of a packet from the packet itself and
asks `init_u8vector` for a vector of this length. Only the last one compares it with the length
that the packet has.
-/

namespace GrSatellites.PacketCrop

open Segmentation

variable {M : Type}

/-- `IndexError`. -/
inductive IndexError where
  | indexError
  deriving DecidableEq

/-- The arguments of `init_u8vector`, with the metadata of the PDU published. -/
structure Publication (M : Type) where
  car : M
  k : ℤ
  v : List Byte

/-- What a handler does with a message: it raises, or it publishes at most one PDU. -/
abbrev Outcome (M : Type) := Except IndexError (Option (Publication M))

/-- `int(packet[i])`. -/
def byteOf (packet : List Byte) (i : ℕ) : Except IndexError ℤ :=
  match packet[i]? with
  | none => .error .indexError
  | some byte => .ok byte.toNat

/-- The handler of the first two blocks, with the number of bytes of the CRC. -/
def cropByLengthByte (crcLen : ℕ) : Msg M → Except IndexError (Option (Publication M))
  | .other _ => .ok none
  | .u8vector ⟨car, packet⟩ => do
    let packetLength := (← byteOf packet 0) + 1 + crcLen
    return some ⟨car, packetLength, packet⟩

/-- `cc11xx_packet_crop.handle_msg`. -/
def cc11xxPacketCrop (crc16 : Bool) : Msg M → Outcome M :=
  cropByLengthByte (if crc16 then 2 else 0)

/-- `sx12xx_packet_crop.handle_msg`. -/
def sx12xxPacketCrop (crcLen : ℕ) : Msg M → Outcome M := cropByLengthByte crcLen

/-- `swiatowid_packet_crop.handle_msg`. -/
def swiatowidPacketCrop : Msg M → Except IndexError (Option (Publication M))
  | .other _ => .ok none
  | .u8vector ⟨car, packet⟩ => do
    let packetLength := (← byteOf packet 0) + (← byteOf packet 1) * 256 - 8
    if packet.length < packetLength + 2 then return none
    return some ⟨car, packetLength, (sliceTo packet (2 + packetLength)).drop 2⟩

/-! ## What is announced -/

/-- The place of a payload in a packet and its length, as the packet announces them. -/
structure Announced where
  start : ℕ
  length : ℤ

/-- The payload of the first two blocks goes from the length byte to the end of the CRC. -/
def announcedByLengthByte (crcLen : ℕ) : List Byte → Option Announced
  | [] => none
  | byte :: _ => some ⟨0, byte.toNat + 1 + crcLen⟩

/-- The payload of the last block comes after two bytes. -/
def announcedSwiatowid : List Byte → Option Announced
  | low :: high :: _ => some ⟨2, low.toNat + high.toNat * 256 - 8⟩
  | _ => none

/-- The payload announced is there. -/
def Announced.Fits (a : Announced) (packet : List Byte) : Prop :=
  0 ≤ a.length ∧ a.start + a.length ≤ packet.length

instance (a : Announced) (packet : List Byte) : Decidable (a.Fits packet) :=
  inferInstanceAs (Decidable (_ ∧ _))

/-- Nothing is raised. The length that is asked for can be taken from the vector, and gives the
bytes announced, which are there; so nothing is published if they are not. -/
def StaysWithin (announced : Option Announced) (packet : List Byte) (outcome : Outcome M) : Prop :=
  ∃ published, outcome = .ok published ∧ ∀ p ∈ published,
    0 ≤ p.k ∧ p.k ≤ p.v.length ∧ ∃ a ∈ announced, a.Fits packet ∧ p.k = a.length ∧
      p.v.take p.k.toNat = (packet.drop a.start).take a.length.toNat

/-- The packet reaches to the end of its CRC. -/
def LengthByteFits (crcLen : ℕ) (packet : List Byte) : Prop :=
  ∃ byte ∈ packet.head?, byte.toNat + 1 + crcLen ≤ packet.length

/-- The two bytes of the length are there, and it counts the eight bytes that are taken off. -/
def HasLength (packet : List Byte) : Prop :=
  ∃ low ∈ packet[0]?, ∃ high ∈ packet[1]?, 8 ≤ low.toNat + high.toNat * 256

variable {crcLen : ℕ} {car : M} {packet : List Byte}

/-- The first two blocks never drop a packet. -/
theorem cropByLengthByte_cons (byte : Byte) (rest : List Byte) :
    cropByLengthByte crcLen (.u8vector ⟨car, byte :: rest⟩) =
      .ok (some ⟨car, byte.toNat + 1 + crcLen, byte :: rest⟩) := rfl

/-- **The length byte.** The handler stays within a packet that holds what it announces, and
within no other one. -/
theorem cropByLengthByte_iff :
    StaysWithin (announcedByLengthByte crcLen packet) packet
      (cropByLengthByte crcLen (.u8vector ⟨car, packet⟩)) ↔ LengthByteFits crcLen packet := by
  cases packet with
  | nil =>
    constructor
    · rintro ⟨published, hraises, -⟩
      cases hraises
    · rintro ⟨byte, hbyte, -⟩
      cases hbyte
  | cons byte rest =>
    rw [cropByLengthByte_cons]
    constructor
    · rintro ⟨published, hpublished, hwithin⟩
      obtain rfl := Except.ok.inj hpublished
      obtain ⟨-, hle, -⟩ := hwithin _ rfl
      simp only at hle
      exact ⟨byte, rfl, by omega⟩
    · rintro ⟨first, hfirst, hle⟩
      obtain rfl : byte = first := Option.some.inj hfirst
      refine ⟨_, rfl, fun p hp => ?_⟩
      obtain rfl := Option.some.inj hp
      simp only
      refine ⟨by omega, by omega, _, rfl, ⟨?_, ?_⟩, rfl, ?_⟩
      · simp only
        omega
      · simp only
        omega
      · rfl

theorem swiatowidPacketCrop_cons (low high : Byte) (rest : List Byte) :
    swiatowidPacketCrop (.u8vector ⟨car, low :: high :: rest⟩) =
      .ok (if ((low :: high :: rest).length : ℤ) < low.toNat + high.toNat * 256 - 8 + 2 then none
        else some ⟨car, low.toNat + high.toNat * 256 - 8,
          (sliceTo (low :: high :: rest) (2 + (low.toNat + high.toNat * 256 - 8))).drop 2⟩) := by
  simp only [swiatowidPacketCrop, byteOf, List.getElem?_cons_zero, List.getElem?_cons_succ, bind,
    Except.bind, pure, Except.pure]
  split <;> rfl

/-- **Two length bytes.** The handler stays within a packet unless it announces less than the
eight bytes that are taken off. -/
theorem swiatowidPacketCrop_iff :
    StaysWithin (announcedSwiatowid packet) packet (swiatowidPacketCrop (.u8vector ⟨car, packet⟩)) ↔
      HasLength packet := by
  match packet with
  | [] =>
    constructor
    · rintro ⟨published, hraises, -⟩
      cases hraises
    · rintro ⟨low, hlow, -⟩
      cases hlow
  | [byte] =>
    constructor
    · rintro ⟨published, hraises, -⟩
      cases hraises
    · rintro ⟨low, -, high, hhigh, -⟩
      cases hhigh
  | low :: high :: rest =>
    have hlength : (low :: high :: rest).length = rest.length + 2 := rfl
    have hiff : HasLength (low :: high :: rest) ↔ 8 ≤ low.toNat + high.toNat * 256 := by
      constructor
      · rintro ⟨low', hlow, high', hhigh, hle⟩
        obtain rfl : low = low' := Option.some.inj hlow
        obtain rfl : high = high' := Option.some.inj hhigh
        exact hle
      · exact fun hle => ⟨low, rfl, high, rfl, hle⟩
    rw [swiatowidPacketCrop_cons, hiff, hlength]
    split
    case isTrue hlong =>
      push_cast at hlong
      refine iff_of_true ⟨none, rfl, fun p hp => ?_⟩ (by omega)
      cases hp
    case isFalse hfits =>
      push_cast at hfits
      constructor
      · rintro ⟨published, hpublished, hwithin⟩
        obtain rfl := Except.ok.inj hpublished
        obtain ⟨hpos, -⟩ := hwithin _ rfl
        simp only at hpos
        omega
      · intro hle
        refine ⟨_, rfl, fun p hp => ?_⟩
        obtain rfl := Option.some.inj hp
        have hn : ((low.toNat : ℤ) + high.toNat * 256 - 8).toNat =
          low.toNat + high.toNat * 256 - 8 := by omega
        have hend : (2 : ℤ) + ((low.toNat : ℤ) + high.toNat * 256 - 8) =
          (low.toNat + high.toNat * 256 - 8 + 2 : ℕ) := by omega
        have hslice : (sliceTo (low :: high :: rest)
            (2 + ((low.toNat : ℤ) + high.toNat * 256 - 8))).drop 2 =
              rest.take (low.toNat + high.toNat * 256 - 8) := by
          rw [hend, sliceTo_natCast]
          rfl
        simp only [hslice, List.length_take, hn]
        refine ⟨by omega, by omega, _, rfl, ⟨?_, ?_⟩, rfl, ?_⟩
        · simp only
          omega
        · simp only [hlength]
          omega
        · simp only [hn, List.take_take, min_self]
          rfl

/-- **Cropping.** Each block stays within a packet under exactly this condition. -/
theorem packetCrop_iff (car : M) (packet : List Byte) :
    (∀ crc16, StaysWithin (announcedByLengthByte (if crc16 then 2 else 0) packet) packet
      (cc11xxPacketCrop crc16 (.u8vector ⟨car, packet⟩)) ↔
        LengthByteFits (if crc16 then 2 else 0) packet) ∧
    (∀ crcLen, StaysWithin (announcedByLengthByte crcLen packet) packet
      (sx12xxPacketCrop crcLen (.u8vector ⟨car, packet⟩)) ↔ LengthByteFits crcLen packet) ∧
    (StaysWithin (announcedSwiatowid packet) packet
      (swiatowidPacketCrop (.u8vector ⟨car, packet⟩)) ↔ HasLength packet) :=
  ⟨fun _ => cropByLengthByte_iff, fun _ => cropByLengthByte_iff, swiatowidPacketCrop_iff⟩

/-- A PDU of 255 bytes whose length byte is 253, with a CRC. -/
theorem not_staysWithin_long : ¬ ∀ packet : List Byte,
    StaysWithin (announcedByLengthByte 2 packet) packet
      (cc11xxPacketCrop true (.u8vector ⟨(), packet⟩)) := by
  intro h
  obtain ⟨byte, hbyte, hle⟩ :=
    cropByLengthByte_iff.mp (h (0xfd :: List.replicate 254 0))
  obtain rfl : (0xfd : Byte) = byte := Option.some.inj hbyte
  rw [List.length_cons, List.length_replicate] at hle
  exact absurd hle (by decide)

/-- The PDUs that the Reaktor Hello World deframer makes have 255 bytes: the length byte may be
at most 252. -/
theorem cc11xxPacketCrop_reaktor_iff (hlength : packet.length = 255) :
    StaysWithin (announcedByLengthByte 2 packet) packet
      (cc11xxPacketCrop true (.u8vector ⟨car, packet⟩)) ↔
        ∃ byte ∈ packet.head?, byte.toNat ≤ 252 := by
  refine cropByLengthByte_iff.trans ?_
  rw [LengthByteFits, hlength]
  constructor
  · rintro ⟨byte, hbyte, hle⟩
    exact ⟨byte, hbyte, by omega⟩
  · rintro ⟨byte, hbyte, hle⟩
    exact ⟨byte, hbyte, by omega⟩

end GrSatellites.PacketCrop
