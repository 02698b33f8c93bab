import GrSatellites.Basic
import GrSatellites.Library.Bits
import GrSatellites.Library.RingBuffer

/-!
# Packets of fixed or tagged length

The block of `lib/fixedlen_to_pdu_impl.cc`. It cuts a PDU out of the stream for each
sync tag. A packet may end in a later call than the one in which it starts, so the last
items of the stream stay in a ring buffer. Buffers hold bytes, and a stream item takes a
number of bytes that depends on its type.
-/

namespace GrSatellites.Fixedlen

open RingBuffer

/-- `types::vector_type`. -/
inductive VectorType where
  | byte
  | float
  | complex
  deriving DecidableEq, Repr

/-- `pdu::itemsize`. -/
def VectorType.itemsize : VectorType → ℕ
  | .byte => 1
  | .float => 4
  | .complex => 8

/-! ## Tags -/

/-- The value of a tag: a `uint64_t`, a `long` in two's complement, or something else. -/
inductive TagValue where
  | uint64 (n : Word)
  | long (n : BitVec 64)
  | other

/-- A length tag read as a `uint64_t`. What is not an integer raises. -/
def TagValue.toLength : TagValue → Except CxxError ℕ
  | .uint64 n => .ok n.toNat
  | .long n => .ok n.toNat
  | .other => .error .wrongType

/-- A tag. -/
structure Tag where
  key : String
  value : TagValue

/-- A stream item of a given number of bytes, with its tags. -/
structure Item (size : ℕ) where
  bytes : List Byte
  length_bytes : bytes.length = size
  tags : List Tag

/-- The bytes of some items. -/
def bytesOf {size : ℕ} (items : List (Item size)) : List Byte := items.flatMap Item.bytes

/-! ## Memory -/

/-- `std::memcpy`, which must stay inside both buffers. -/
def memcpy (dest : List Byte) (position : ℕ) (src : List Byte) (start len : ℕ) :
    Except CxxError (List Byte) :=
  if position + len ≤ dest.length ∧ start + len ≤ src.length then
    .ok (overwrite dest position ((src.drop start).take len))
  else .error .outOfRange

/-- The conversion of a `size_t` to an `int`. -/
def toInt (n : ℕ) : ℤ := (n : ℤ).bmod (2 ^ 32)

/-! ## The block -/

/-- The parameters of a `fixedlen_to_pdu` that its constructor accepts. -/
structure FixedlenToPdu where
  type : VectorType
  syncwordTag : String
  packetLen : ℕ
  pack : Bool
  packetLengthTag : Option String
  packetLen_pos : 0 < packetLen
  pack_type : pack = true → type = .byte
  pack_packetLen : pack = true → packetLen % 8 = 0

theorem of_not_and_ne {p q : Prop} (h : ¬ (p ∧ ¬ q)) (hp : p) : q := by
  by_contra hq
  exact h ⟨hp, hq⟩

/-- The constructor. Without a packet length the size of the history wraps around. -/
def FixedlenToPdu.make (type : VectorType) (syncwordTag : String) (packetLen : ℕ) (pack : Bool)
    (packetLengthTagKey : String) : Except CxxError FixedlenToPdu :=
  if hpos : packetLen = 0 then
    .error (.lengthError "cannot create std::vector larger than max_size()")
  else if htype : pack = true ∧ ¬ type = .byte then
    .error (.runtimeError "pack can only be used with byte_t")
  else if hlen : pack = true ∧ ¬ packetLen % 8 = 0 then
    .error (.runtimeError "when using pack, packet_len must be a multiple of 8")
  else
    .ok {
      type := type
      syncwordTag := syncwordTag
      packetLen := packetLen
      pack := pack
      packetLengthTag := if packetLengthTagKey = "" then none else some packetLengthTagKey
      packetLen_pos := Nat.pos_of_ne_zero hpos
      pack_type := of_not_and_ne htype
      pack_packetLen := of_not_and_ne hlen }

/-- `packet_info`. Positions in the stream are natural numbers here: a run is shorter than
`2^64` items. -/
structure PacketInfo where
  offset : ℕ
  length : ℤ

/-- The state of a `fixedlen_to_pdu`. -/
structure State where
  history : List Byte
  writePtrItem : ℕ
  writePtrByte : ℕ
  packet : List Byte
  packetInfos : List PacketInfo

namespace FixedlenToPdu

variable (b : FixedlenToPdu)

/-- `d_itemsize`. -/
def itemsize : ℕ := b.type.itemsize

/-- The state after construction. -/
def init : State where
  history := List.replicate ((b.packetLen - 1) * b.itemsize) 0
  writePtrItem := 0
  writePtrByte := 0
  packet := List.replicate (b.packetLen * b.itemsize) 0
  packetInfos := []

/-- `tags[0]` of the length tags of an item. -/
def lengthTag (tags : List Tag) : Option Tag :=
  match b.packetLengthTag with
  | none => none
  | some key => (tags.filter fun tag => tag.key = key).head?

/-- The `packet_info` for a sync tag, from its position and the tags there. -/
def packetInfo (offset : ℕ) (tags : List Tag) : Except CxxError PacketInfo :=
  match b.lengthTag tags with
  | none => .ok ⟨offset, toInt b.packetLen⟩
  | some tag => do
    let length ← tag.value.toLength
    if b.packetLen < length then return ⟨offset, toInt b.packetLen⟩
    else return ⟨offset, toInt length⟩

/-- The first part of `work`: a `packet_info` for each sync tag of the items. -/
def newPacketInfos (offset : ℕ) : List (Item b.itemsize) → Except CxxError (List PacketInfo)
  | [] => .ok []
  | item :: items => do
    let infos ← (item.tags.filter fun tag => tag.key = b.syncwordTag).mapM fun _ =>
      b.packetInfo offset item.tags
    let more ← newPacketInfos (offset + 1) items
    return infos ++ more

/-- Put a packet that ends in the current input together in `d_packet`, from a length that
is not negative. -/
def copyPacket (s : State) (nitems : ℕ) (input : List Byte) (offset length : ℕ) :
    Except CxxError (List Byte) :=
  let size := length * b.itemsize
  if nitems ≤ offset then
    -- the packet does not use the history
    memcpy s.packet 0 input ((offset - nitems) * b.itemsize) size
  else if nitems ≤ s.writePtrItem + offset then do
    -- it starts before the write pointer
    let start := (s.writePtrItem + offset - nitems) * b.itemsize
    let len := min (s.writePtrByte - start) size
    let packet ← memcpy s.packet 0 s.history start len
    let remain := size - len
    if 0 < remain then memcpy packet len input 0 remain else return packet
  else do
    -- it starts after the write pointer
    let start := (s.writePtrItem + offset + b.packetLen - 1 - nitems) * b.itemsize
    let len := min (s.history.length - start) size
    let packet ← memcpy s.packet 0 s.history start len
    let remain := size - len
    if 0 < remain then do
      let len2 := min s.writePtrByte remain
      let packet ← memcpy packet len s.history 0 len2
      let remain := remain - len2
      if 0 < remain then memcpy packet (len + len2) input 0 remain else return packet
    else return packet

/-- One byte of `pack_packet`, with the given number of bits left. -/
def packBits (packet : List Byte) (position : ℕ) : ℕ → Byte → Except CxxError Byte
  | 0, byte => .ok byte
  | rounds + 1, byte =>
    match packet[position]? with
    | none => .error .outOfRange
    | some bit => packBits packet (position + 1) rounds ((byte <<< 1) ||| (bit &&& 1))

/-- The loop of `pack_packet`, with the given number of bytes left. -/
def packLoop (packet : List Byte) (j : ℕ) : ℕ → Except CxxError (List Byte)
  | 0 => .ok packet
  | rounds + 1 => do
    let byte ← packBits packet (8 * j) 8 0
    packLoop (packet.set j byte) (j + 1) rounds

/-- `pack_packet`. -/
def packPacket (packet : List Byte) (sizeBytes : ℕ) : Except CxxError (List Byte) :=
  packLoop packet 0 sizeBytes

/-- `pdu::make_pdu_vector`: the bytes of the first items of a buffer. -/
def makePduVector (packet : List Byte) (items : ℕ) : Except CxxError (List Byte) :=
  if items * b.itemsize ≤ packet.length then .ok (packet.take (items * b.itemsize))
  else .error .outOfRange

/-- Publish a packet that ends in the current input: `d_packet` and the PDU. A negative
length stands for more bytes than there are. -/
def publish (s : State) (nitems : ℕ) (input : List Byte) (info : PacketInfo) :
    Except CxxError (List Byte × List Byte) :=
  if info.length < 0 then .error .outOfRange
  else do
    let length := info.length.toNat
    let packet ← b.copyPacket s nitems input info.offset length
    let pduItems := if b.pack then length / 8 else length
    let packet ← if b.pack then packPacket packet pduItems else pure packet
    let pdu ← b.makePduVector packet pduItems
    return (packet, pdu)

/-- The second part of `work`: the state, the PDUs published, and the packets that end
later. A sum below zero wraps to a position past the end. -/
def handleInfos (nitems : ℕ) (input : List Byte) (noutputItems : ℕ) (s : State) :
    List PacketInfo → Except CxxError (State × List (List Byte) × List PacketInfo)
  | [] => .ok (s, [], [])
  | info :: infos =>
    if 0 ≤ info.offset + info.length ∧ info.offset + info.length ≤ nitems + noutputItems then do
      let (packet, pdu) ← b.publish s nitems input info
      let (s, pdus, later) ← handleInfos nitems input noutputItems { s with packet } infos
      return (s, pdu :: pdus, later)
    else do
      let (s, pdus, later) ← handleInfos nitems input noutputItems s infos
      return (s, pdus, info :: later)

/-- `update_history`. -/
def updateHistory (s : State) (input : List Byte) (noutputItems : ℕ) : Except CxxError State := do
  let historyItems := b.packetLen - 1
  let (start, len, lenItems) :=
    if historyItems < noutputItems then
      ((noutputItems - historyItems) * b.itemsize, s.history.length, historyItems)
    else (0, noutputItems * b.itemsize, noutputItems)
  let (len2, len2Items) :=
    if s.writePtrByte + len ≤ s.history.length then (len, lenItems)
    else (s.history.length - s.writePtrByte, historyItems - s.writePtrItem)
  let history ← memcpy s.history s.writePtrByte input start len2
  if len2 < len then do
    let history ← memcpy history 0 input (start + len2) (len - len2)
    return { s with
      history, writePtrByte := len - len2, writePtrItem := lenItems - len2Items }
  else if s.writePtrByte + len = s.history.length then
    return { s with history, writePtrByte := 0, writePtrItem := 0 }
  else
    return { s with
      history, writePtrByte := s.writePtrByte + len, writePtrItem := s.writePtrItem + lenItems }

/-- `work`, at a read position. -/
def work (nitems : ℕ) (s : State) (chunk : List (Item b.itemsize)) :
    Except CxxError (State × List (List Byte)) := do
  let input := bytesOf chunk
  let infos ← b.newPacketInfos nitems chunk
  let (s, pdus, later) ← b.handleInfos nitems input chunk.length s (s.packetInfos ++ infos)
  let s ← b.updateHistory { s with packetInfos := later } input chunk.length
  return (s, pdus)

/-- The calls of `work` that a scheduler makes, from a read position on. -/
def runCalls (nitems : ℕ) (s : State) :
    List (List (Item b.itemsize)) → Except CxxError (State × List (List Byte))
  | [] => .ok (s, [])
  | chunk :: chunks => do
    let (s, pdus) ← b.work nitems s chunk
    let (s, more) ← runCalls (nitems + chunk.length) s chunks
    return (s, pdus ++ more)

end FixedlenToPdu

end GrSatellites.Fixedlen
