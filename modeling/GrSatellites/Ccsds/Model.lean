import GrSatellites.Basic
import GrSatellites.Library.BitStruct
import GrSatellites.Library.Segmentation

/-!
# CCSDS telemetry frames

The blocks `telemetry_primaryheader_adder`, `telemetry_ocf_adder` and
`telemetry_packet_reconstruction` of `python/ccsds`. The first cuts space packets into
frames of a fixed size, the second appends the operational control field, and the third
puts the space packets together again. How a number that does not fit its field is built
depends on the version of the library that builds bit structures, so the encoder is a
parameter.
-/

namespace GrSatellites.Ccsds

open Bits Segmentation

/-- The field widths of `telemetry.PrimaryHeader`. -/
def primaryHeader : List ℕ := [2, 10, 3, 1, 8, 8, 1, 1, 1, 2, 11]

/-- The field widths of `telemetry.OCFTrailer`. -/
def ocfTrailer : List ℕ := [1, 2, 3, 2, 6, 2, 1, 1, 1, 1, 1, 2, 1, 8]

/-- The field widths of `space_packet.PrimaryHeader`. -/
def spacePacketHeader : List ℕ := [3, 1, 1, 11, 2, 14, 16]

/-- A `Flag` of a bit structure. -/
def flagField (b : Bool) : ℕ × ℤ := (1, if b then 1 else 0)

/-! ## Segmentation -/

/-- The parameters of a `telemetry_primaryheader_adder`. -/
structure PrimaryHeaderAdder where
  spacecraftId : ℤ
  virtualChannelId : ℤ
  ocfFlag : Bool
  masterChannelFrameCount : ℤ
  virtualChannelFrameCount : ℤ
  transferFrameSecondaryHeaderFlag : Bool
  synchFlag : Bool
  packetOrderFlag : Bool
  segmentLengthId : ℤ
  coding : ℤ
  e : ℤ
  q : ℤ
  I : ℤ
  turbo : ℤ
  ldpcTf : ℤ
  ldpcTfSize : ℤ
  numOfOctets : ℤ

/-- The state of a `telemetry_primaryheader_adder`. -/
structure AdderState where
  list : List Byte
  firstHeaderPointer : ℤ

/-- The state after construction. -/
def AdderState.init : AdderState := ⟨[], 0⟩

namespace PrimaryHeaderAdder

variable (enc : FieldEncoder) (a : PrimaryHeaderAdder)

/-- `calculateSize`; the constructor adds one to the number of octets. -/
def size : ℤ :=
  if a.coding = 1 ∨ a.coding = 2 ∨ a.coding = 7 then a.numOfOctets + 1
  else if a.coding = 3 ∨ a.coding = 4 then (255 - 2 * a.e - a.q) * a.I
  else if a.coding = 5 then a.turbo
  else if a.ldpcTf < 3 then a.ldpcTfSize
  else 892

/-- The fields of the header, for a first header pointer. -/
def headerFields (firstHeaderPointer : ℤ) : List (ℕ × ℤ) :=
  [(2, 0), (10, a.spacecraftId), (3, a.virtualChannelId), flagField a.ocfFlag,
    (8, a.masterChannelFrameCount), (8, a.virtualChannelFrameCount),
    flagField a.transferFrameSecondaryHeaderFlag, flagField a.synchFlag,
    flagField a.packetOrderFlag, (2, a.segmentLengthId), (11, firstHeaderPointer)]

/-- `calculateFinalHeader`, which raises when a field cannot be built. -/
def calculateFinalHeader (s : AdderState) : Option (List Byte) :=
  enc.build (a.headerFields s.firstHeaderPointer)

/-- The pointer for the next frame, when `packet` is left and the frame has room for
`limit` bytes. -/
def nextPointer (limit : ℤ) (packet : List Byte) (old : ℤ) : ℤ :=
  if limit < packet.length then
    if limit + a.size ≤ packet.length then 0x3ff else packet.length - limit
  else if packet.length = limit then 0
  else old

/-- The loop of `handle_msg`, with a bound for the number of rounds: the new state, the
frames published, and whether building a header raised. -/
def segmentLoop : ℕ → AdderState → ℤ → List Byte → Option (AdderState × List (List Byte) × Bool)
  | _, s, _, [] => some (s, [], false)
  | 0, _, _, _ :: _ => none
  | rounds + 1, s, pointer, byte :: bytes =>
    let packet := byte :: bytes
    let limit := a.size - s.list.length
    let pointer := a.nextPointer limit packet pointer
    let s := { s with list := s.list ++ sliceTo packet limit }
    let packet := sliceFrom packet limit
    if s.list.length = a.size then
      match a.calculateFinalHeader enc s with
      | none => some (s, [], true)
      | some header => do
        let (t, frames, raised) ← segmentLoop rounds ⟨[], pointer⟩ pointer packet
        return (t, (header ++ s.list) :: frames, raised)
    else segmentLoop rounds s pointer packet

/-- `telemetry_primaryheader_adder.handle_msg`, when its loop ends. -/
def handleMsg {M : Type} (s : AdderState) : Msg M → Option (AdderState × List (List Byte) × Bool)
  | .other _ => some (s, [], false)
  | .u8vector pdu => a.segmentLoop enc pdu.cdr.length s 0 pdu.cdr

/-- The frames published for some packets, one message after the other. An exception ends
the handling of its message. -/
def handleAll (s : AdderState) : List (List Byte) → Option (AdderState × List (List Byte))
  | [] => some (s, [])
  | packet :: packets => do
    let (t, frames, _) ← a.handleMsg enc s (.u8vector ⟨(), packet⟩)
    let (u, more) ← handleAll t packets
    return (u, frames ++ more)

end PrimaryHeaderAdder

/-! ## Operational control field -/

/-- The parameters of a `telemetry_ocf_adder`. -/
structure OcfAdder where
  controlWordType : Bool
  clcwVersionNumber : ℤ
  statusField : ℤ
  copInEffect : ℤ
  virtualChannelIdentification : ℤ
  rsvdSpare1 : ℤ
  noRfAvail : Bool
  noBitLock : Bool
  lockout : Bool
  wait : Bool
  retransmit : Bool
  farmbCounter : ℤ
  rsvdSpare2 : Bool
  reportValue : ℤ

namespace OcfAdder

variable (enc : FieldEncoder) (o : OcfAdder)

/-- The fields of the trailer. -/
def trailerFields : List (ℕ × ℤ) :=
  [flagField o.controlWordType, (2, o.clcwVersionNumber), (3, o.statusField), (2, o.copInEffect),
    (6, o.virtualChannelIdentification), (2, o.rsvdSpare1), flagField o.noRfAvail,
    flagField o.noBitLock, flagField o.lockout, flagField o.wait, flagField o.retransmit,
    (2, o.farmbCounter), flagField o.rsvdSpare2, (8, o.reportValue)]

/-- `telemetry_ocf_adder.handle_msg`: nothing is published when the trailer cannot be built. -/
def handleMsg {M : Type} : Msg M → List (List Byte)
  | .other _ => []
  | .u8vector pdu =>
    match enc.build o.trailerFields with
    | none => []
    | some trailer => [pdu.cdr ++ trailer]

end OcfAdder

/-! ## Reconstruction -/

/-- `space_packet.PrimaryHeader.parse(...).data_length`. -/
def dataLength (spacePacket : List Byte) : Option ℕ := do
  let header ← parse spacePacketHeader spacePacket
  header[6]?

/-- The payload of `telemetry.FullPacket.parse(packet, size=size)`, for a header that says
whether there is a trailer. A size below zero, or more bytes than there are, raise. -/
def fullPacketPayload (packet : List Byte) (size : ℤ) (trailer : Bool) : Option (List Byte) :=
  if size < 0 ∨ (packet.length : ℤ) < 6 + size + (if trailer then 4 else 0) then none
  else some ((packet.drop 6).take size.toNat)

/-- The second half of a round: a space packet with a whole header takes the bytes that it
lacks, and is sent once it is complete. -/
def reconstructBody (spacePacket payload : List Byte) :
    Option (List Byte × List Byte × List (List Byte)) := do
  let length ← dataLength spacePacket
  let left : ℤ := length + 6 - spacePacket.length
  let spacePacket := spacePacket ++ sliceTo payload left
  let payload := sliceFrom payload left
  if 6 + length = spacePacket.length then return ([], payload, [spacePacket])
  else return (spacePacket, payload, [])

/-- One round of the loop of `telemetry_packet_reconstruction.handle_msg`, from a space
packet so far and the payload left: both, and the packets sent. -/
def reconstructRound (spacePacket payload : List Byte) :
    Option (List Byte × List Byte × List (List Byte)) :=
  let left : ℤ := 6 - spacePacket.length
  let (spacePacket, payload) :=
    if spacePacket.length < 6 then (spacePacket ++ sliceTo payload left, sliceFrom payload left)
    else (spacePacket, payload)
  if 6 ≤ spacePacket.length then reconstructBody spacePacket payload
  else some (spacePacket, payload, [])

/-- The loop, with a bound for the number of rounds. -/
def reconstructLoop : ℕ → List Byte → List Byte → Option (List Byte × List (List Byte))
  | _, spacePacket, [] => some (spacePacket, [])
  | 0, _, _ :: _ => none
  | rounds + 1, spacePacket, byte :: bytes => do
    let (spacePacket, payload, sent) ← reconstructRound spacePacket (byte :: bytes)
    let (spacePacket, more) ← reconstructLoop rounds spacePacket payload
    return (spacePacket, sent ++ more)

/-- `telemetry_packet_reconstruction.handle_msg`, when its loop ends: the space packet so
far and the packets sent. -/
def reconstructHandleMsg {M : Type} (spacePacket : List Byte) :
    Msg M → Option (List Byte × List (List Byte))
  | .other _ => some (spacePacket, [])
  | .u8vector pdu =>
    let packet := pdu.cdr
    match parse primaryHeader packet with
    | none => some (spacePacket, [])
    | some header =>
      let trailer : Bool := header[3]? = some 1
      let size : ℤ := packet.length - 6 - (if trailer then 4 else 0)
      match fullPacketPayload packet size trailer with
      | none => some (spacePacket, [])
      | some payload => reconstructLoop payload.length spacePacket payload

/-- The space packets sent for some frames, one message after the other. -/
def reconstructAll (spacePacket : List Byte) : List (List Byte) → Option (List Byte × List (List Byte))
  | [] => some (spacePacket, [])
  | frame :: frames => do
    let (spacePacket, sent) ← reconstructHandleMsg spacePacket (.u8vector ⟨(), frame⟩)
    let (spacePacket, more) ← reconstructAll spacePacket frames
    return (spacePacket, sent ++ more)

end GrSatellites.Ccsds
