import GrSatellites.Basic
import GrSatellites.Library.BitStruct
import GrSatellites.Library.Endian
import GrSatellites.Library.Transducer

/-!
# KISS streams

The block of `python/pdu_to_kiss.py`, which makes KISS frames of packets, the block of
`python/kiss_to_pdu.py`, which cuts a KISS byte stream into packets, and the block of
`python/components/transports/tm_kiss_transport.py`, which does the same for KISS streams
carried in the data fields of TM frames.
-/

namespace GrSatellites.Kiss

open Transducer

variable {M : Type}

/-- `FEND`. -/
def fend : Byte := 0xc0

/-- `FESC`. -/
def fesc : Byte := 0xdb

/-- `TFEND`. -/
def tfend : Byte := 0xdc

/-- `TFESC`. -/
def tfesc : Byte := 0xdd

/-! ## PDU to KISS -/

/-- `kiss_escape`. -/
def kissEscape (a : List Byte) : List Byte :=
  a.flatMap fun x => if x = fesc then [fesc, tfesc] else if x = fend then [fesc, tfend] else [x]

/-- The parameters of a `pdu_to_kiss`. -/
structure PduToKiss where
  controlByte : Bool
  includeTimestamp : Bool

namespace PduToKiss

/-- `create_timestamp`, for the number of milliseconds that the clock gives. A number that
does not fit the field raises. -/
def createTimestamp (now : ℤ) : Option (List Byte) :=
  if 0 ≤ now ∧ now < 2 ^ 64 then some (0x09 :: Endian.bytesBE 8 (BitVec.ofInt 64 now)) else none

/-- `pdu_to_kiss.handle_msg`: the byte strings published, given the clock. -/
def handleMsg (p : PduToKiss) (now : ℤ) : Msg M → List (List Byte)
  | .other _ => []
  | .u8vector pdu =>
    let control : List Byte := if p.controlByte then [0] else []
    let frame := [fend] ++ control ++ kissEscape pdu.cdr ++ [fend]
    if p.includeTimestamp then
      match createTimestamp now with
      | none => []
      | some timestamp => [[fend] ++ kissEscape timestamp ++ [fend], frame]
    else [frame]

/-- The byte strings published for some PDUs, each with what the clock gives. -/
def handleAll (p : PduToKiss) (pdus : List (ℤ × List Byte)) : List (List Byte) :=
  pdus.flatMap fun (now, pdu) => p.handleMsg now (.u8vector ⟨(), pdu⟩)

end PduToKiss

/-! ## KISS to PDU -/

/-- The state of a `kiss_to_pdu`. -/
structure KissState where
  pdu : List Byte
  transpose : Bool
  deriving DecidableEq

/-- The state after construction. -/
def KissState.init : KissState := ⟨[], false⟩

/-- What a FEND publishes: with a control byte only packets of type zero, without it. -/
def endOfPacket (controlByte : Bool) (pdu : List Byte) : List (List Byte) :=
  match pdu with
  | [] => []
  | first :: rest =>
    if controlByte then if first &&& 0x0f = 0 then [rest] else []
    else [first :: rest]

/-- The loop body of `kiss_to_pdu.work`: one byte. -/
def kissToPdu (controlByte : Bool) (s : KissState) (c : Byte) : KissState × List (List Byte) :=
  if c = fend then (⟨[], s.transpose⟩, endOfPacket controlByte s.pdu)
  else if s.transpose then
    if c = tfend then (⟨s.pdu ++ [fend], false⟩, [])
    else if c = tfesc then (⟨s.pdu ++ [fesc], false⟩, [])
    else (⟨s.pdu, false⟩, [])
  else if c = fesc then (⟨s.pdu, true⟩, [])
  else (⟨s.pdu ++ [c], s.transpose⟩, [])

/-! ## TM KISS transport -/

/-- The field widths of the `TMPrimaryHeader` of `telemetry/by02.py`. -/
def tmPrimaryHeaderShort : List ℕ := [2, 10, 3, 1, 8, 8, 8]

/-- The field widths of the `TMPrimaryHeader` of `telemetry/erminaz.py`. -/
def tmPrimaryHeader : List ℕ := [2, 10, 3, 1, 8, 8, 1, 1, 1, 2, 11]

/-- The parameters of a `tm_kiss_transport`. -/
structure TmKissTransport where
  virtualChannels : List ℕ
  shortTm : Bool

/-- The state of a `tm_kiss_transport`: both dictionaries have the same keys. -/
structure TmKissState where
  packets : ℕ → Option (List Byte)
  transpose : ℕ → Bool

/-- The variables of the loop in `handle_msg`. The name `packet` starts as an alias of
the list stored in the dictionary. Storing a new list ends that and leaves `packet` as
it is: `stored` is then the new list. -/
structure TmKissLoop where
  packet : List Byte
  stored : Option (List Byte)
  transpose : Bool

/-- The loop body of `tm_kiss_transport.handle_msg`: one byte. -/
def TmKissLoop.step (l : TmKissLoop) (c : Byte) : TmKissLoop × List (List Byte) :=
  if c = fend then
    if 0 < l.packet.length then ({ l with stored := some [] }, [l.packet]) else (l, [])
  else if l.transpose then
    if c = tfend then ({ l with packet := l.packet ++ [fend], transpose := false }, [])
    else if c = tfesc then ({ l with packet := l.packet ++ [fesc], transpose := false }, [])
    else ({ l with transpose := false }, [])
  else if c = fesc then ({ l with transpose := true }, [])
  else ({ l with packet := l.packet ++ [c] }, [])

namespace TmKissTransport

variable (t : TmKissTransport)

/-- The state after construction. -/
def init : TmKissState where
  packets vc := if vc ∈ t.virtualChannels then some [] else none
  transpose _ := false

/-- `tm_header`. -/
def tmHeader : List ℕ := if t.shortTm then tmPrimaryHeaderShort else tmPrimaryHeader

/-- The virtual channel and the data field of a message, when it is a frame longer than
the header. -/
def tmFrame : Msg M → Option (ℕ × List Byte)
  | .other _ => none
  | .u8vector pdu =>
    if pdu.cdr.length ≤ Bits.sizeof t.tmHeader then none
    else do
      let header ← Bits.parse t.tmHeader pdu.cdr
      let virtualChannelId ← header[2]?
      return (virtualChannelId, pdu.cdr.drop (Bits.sizeof t.tmHeader))

/-- `tm_kiss_transport.handle_msg`: the new state and the PDUs published. -/
def handleMsg (s : TmKissState) (msg : Msg M) : TmKissState × List (List Byte) :=
  match t.tmFrame msg with
  | none => (s, [])
  | some (vc, payload) =>
    match s.packets vc with
    | none => (s, [])
    | some packet =>
      let (l, out) := run TmKissLoop.step ⟨packet, none, s.transpose vc⟩ payload
      (⟨Function.update s.packets vc (some (l.stored.getD l.packet)),
        Function.update s.transpose vc l.transpose⟩, out)

/-- `handle_msg`, with the channel of the message noted beside each PDU. -/
def handleMsgOn (s : TmKissState) (msg : Msg M) : TmKissState × List (Option ℕ × List Byte) :=
  let (s', out) := t.handleMsg s msg
  (s', out.map fun packet => ((t.tmFrame msg).map Prod.fst, packet))

/-- What is published for a channel while some messages are handled. -/
def published (vc : ℕ) (msgs : List (Msg M)) : List (List Byte) :=
  ((run t.handleMsgOn t.init msgs).2.filter fun o => o.1 = some vc).map Prod.snd

/-- The data fields of the frames of a channel, one after the other. -/
def dataFields (vc : ℕ) (msgs : List (Msg M)) : List Byte :=
  msgs.flatMap fun msg =>
    match t.tmFrame msg with
    | none => []
    | some (vc', payload) => if vc' = vc then payload else []

end TmKissTransport

end GrSatellites.Kiss
