import GrSatellites.Basic
import GrSatellites.Golay24.Model
import GrSatellites.Library.Transducer

/-!
# Packets with a length header

The blocks of `lib/varlen_packet_framer_impl.cc` and `lib/varlen_packet_tagger_impl.cc`. The
framer puts a sync word and the length in bytes before each tagged packet; the tagger reads the
length after a sync tag, and tags what follows as a packet.
-/

namespace GrSatellites.VarlenPacket

open Golay24

/-- `endianness_t`. -/
inductive Endianness where
  | msbFirst
  | lsbFirst
  deriving DecidableEq

/-- The arguments that the two blocks have in common. -/
structure Settings where
  lengthFieldSize : ℤ
  endianness : Endianness
  useGolay : Bool

/-- The items of a stream, and the tags with the key that a block looks for: offsets, in
increasing order, and values. -/
structure Stream (τ : Type) where
  items : List Byte
  tags : List (ℕ × τ)

/-- The first tag of `get_tags_in_range`. -/
def Stream.firstTag {τ : Type} (stream : Stream τ) (first last : ℕ) : Option (ℕ × τ) :=
  stream.tags.find? fun tag => first ≤ tag.1 ∧ tag.1 < last

/-- A call to `general_work`: the room for output, and the items that have come in and are not
consumed. -/
structure Call where
  noutputItems : ℕ
  ninputItems : ℕ

/-- The output of a call that makes a packet: the items, the offset of the first one, where the
packet tag is, and the value of the tag. -/
structure Packet where
  items : List Byte
  offset : ℕ
  packetLen : ℕ
  deriving DecidableEq

/-! ## The framer -/

/-- A `varlen_packet_framer`, after its constructor. -/
structure Framer where
  headerLength : ℤ
  useGolay : Bool
  syncWord : List Byte
  endianness : Endianness

/-- The constructor of the framer. -/
def Framer.make (settings : Settings) (syncWord : List Byte) : Framer :=
  let headerLength := (settings.lengthFieldSize + 7).tdiv 8 * 8
  let headerLength := max 32 (min 8 headerLength)
  { headerLength := if settings.useGolay then 24 else headerLength
    useGolay := settings.useGolay
    syncWord := syncWord.map (· &&& 1)
    endianness := settings.endianness }

/-- The state of a framer. -/
structure FramerState where
  nitemsRead : ℕ
  nitemsWritten : ℕ
  ninputItemsRequired : ℤ

/-- The state after construction. -/
def FramerState.init : FramerState := ⟨0, 0, 1⟩

/-- The bit of the header at place `i`, which is sent as an item. -/
def headerBit (header : BitVec 32) (i : ℕ) : Byte := ((header >>> i) &&& 1).setWidth 8

/-- The items of the header. -/
def headerBits (endianness : Endianness) (headerLength : ℕ) (header : BitVec 32) : List Byte :=
  match endianness with
  | .msbFirst => (List.range headerLength).map fun i => headerBit header (headerLength - i - 1)
  | .lsbFirst => (List.range headerLength).map fun i => headerBit header i

/-- The length field for a packet. -/
def Framer.header (framer : Framer) (packetLen : ℕ) : BitVec 32 :=
  let header := BitVec.ofNat 32 (packetLen / 8)
  if framer.useGolay then encodeGolay24 header else header

/-- `general_work` of the framer; the value of a tag is the number of items. -/
def Framer.generalWork (framer : Framer) (stream : Stream ℕ) (s : FramerState) (call : Call) :
    FramerState × List Packet :=
  match stream.firstTag s.nitemsRead (s.nitemsRead + call.ninputItems) with
  | none => (s, [])
  | some (offset, packetLen) =>
    let total := packetLen + framer.headerLength.toNat + framer.syncWord.length
    if call.noutputItems < total then (s, [])
    else
      let required := (offset : ℤ) - s.nitemsRead + packetLen
      if required ≤ call.ninputItems then
        let input := stream.items.drop s.nitemsRead
        let out := framer.syncWord ++
          headerBits framer.endianness framer.headerLength.toNat (framer.header packetLen) ++
          input.take packetLen
        (⟨s.nitemsRead + packetLen, s.nitemsWritten + total, 1⟩,
          [⟨out, s.nitemsWritten, total⟩])
      else ({ s with ninputItemsRequired := required }, [])

/-! ## The tagger -/

/-- A value leaves the range of `int`, after which the language defines nothing. -/
inductive IntError where
  | overflow
  deriving DecidableEq

/-- A value that is stored in an `int`. -/
def toInt (n : ℕ) : Except IntError ℕ := if n < 2 ^ 31 then .ok n else .error .overflow

/-- A `varlen_packet_tagger`, after its constructor. -/
structure Tagger where
  headerLength : ℤ
  mtu : ℤ
  useGolay : Bool
  endianness : Endianness

/-- The constructor of the tagger. -/
def Tagger.make (settings : Settings) (maxPacketSize : ℤ) : Tagger where
  headerLength := if settings.useGolay then 24 else settings.lengthFieldSize
  mtu := maxPacketSize
  useGolay := settings.useGolay
  endianness := settings.endianness

/-- The state of a tagger. -/
structure TaggerState where
  haveSync : Bool
  nitemsRead : ℕ
  nitemsWritten : ℕ
  ninputItemsRequired : ℤ

/-- The state after construction. -/
def TaggerState.init (settings : Settings) : TaggerState :=
  ⟨false, 0, 0, settings.lengthFieldSize + 1⟩

/-- `ret = (ret << 0x01) + in[i]`. -/
def shiftIn (ret : ℕ) (bit : Byte) : Except IntError ℕ := toInt (2 * ret + bit.toNat)

/-- `bits2len`, for the items of the header. -/
def bits2len (endianness : Endianness) (header : List Byte) : Except IntError ℕ :=
  match endianness with
  | .msbFirst => header.foldlM shiftIn 0
  | .lsbFirst => header.reverse.foldlM shiftIn 0

/-- The length in items that a header announces, or nothing if its Golay code cannot be
decoded. -/
def Tagger.packetLen (tagger : Tagger) (header : List Byte) : Except IntError (Option ℕ) := do
  let field ← bits2len tagger.endianness header
  if tagger.useGolay then
    return (decodeGolay24 (BitVec.ofNat 32 field)).map fun (golayField, _) =>
      8 * (0xfff &&& golayField).toNat
  else
    return some (← toInt (8 * field))

/-- After a header that is not accepted: `consume_each(1)`. -/
def TaggerState.skipAhead (s : TaggerState) : TaggerState :=
  { s with haveSync := false, nitemsRead := s.nitemsRead + 1 }

/-- The part of `general_work` that reads a packet after a sync tag. -/
def Tagger.readPacket (tagger : Tagger) (input : List Byte) (s : TaggerState) (call : Call) :
    Except IntError (TaggerState × List Packet) := do
  match ← tagger.packetLen (input.take tagger.headerLength.toNat) with
  | none => return (s.skipAhead, [])
  | some packetLen =>
    if tagger.mtu < packetLen then return (s.skipAhead, [])
    else
      let required := tagger.headerLength + packetLen
      if call.noutputItems < packetLen ∨ call.ninputItems < packetLen + tagger.headerLength then
        return ({ s with ninputItemsRequired := required }, [])
      else
        return (⟨false, s.nitemsRead + tagger.headerLength.toNat, s.nitemsWritten + packetLen,
            tagger.headerLength + 1⟩,
          [⟨(input.drop tagger.headerLength.toNat).take packetLen, s.nitemsWritten, packetLen⟩])

/-- `general_work` of the tagger. -/
def Tagger.generalWork (tagger : Tagger) (stream : Stream Unit) (s : TaggerState) (call : Call) :
    Except IntError (TaggerState × List Packet) :=
  if s.haveSync then
    if call.ninputItems < tagger.headerLength then .ok (s, [])
    else tagger.readPacket (stream.items.drop s.nitemsRead) s call
  else
    match stream.firstTag s.nitemsRead (s.nitemsRead + call.ninputItems) with
    | some (offset, _) =>
      .ok ({ s with haveSync := true, nitemsRead := offset }, [])
    | none => .ok ({ s with nitemsRead := s.nitemsRead + call.ninputItems }, [])

/-- A call by the scheduler, which offers no more items than there are. -/
def Tagger.step (tagger : Tagger) (stream : Stream Unit) (s : TaggerState) (call : Call) :
    Except IntError (TaggerState × List Packet) :=
  tagger.generalWork stream s
    { call with ninputItems := min call.ninputItems (stream.items.length - s.nitemsRead) }

end GrSatellites.VarlenPacket
