import GrSatellites.Basic
import GrSatellites.Library.BitStruct
import GrSatellites.Library.Transducer

/-!
# The LilacSat-1 demultiplexer

The block of `lib/lilacsat1_demux_impl.cc`. The 116 bytes after a sync tag, together with a
header of four bytes that has been taken off before, are chunks of 24 bytes. The last
seven bytes of each chunk are a codec2 frame, and the rest makes up one frame.
-/

namespace GrSatellites.Lilacsat

open Bits

/-- `d_codec2_frame_len`. -/
def codec2FrameLen : ℕ := 7

/-- `d_chunk_len`. -/
def chunkLen : ℕ := 24

/-- `d_bits_per_byte`. -/
def bitsPerByte : ℕ := 8

/-- `d_packet_len`. -/
def packetLen : ℕ := 116

/-- `d_header_len`. -/
def headerLen : ℕ := 4

/-- `d_frame_len`. -/
def frameLen : ℕ := 5 * (chunkLen - codec2FrameLen) - headerLen

/-- A stream item, and whether the tag is there. -/
structure Item where
  value : Byte
  tagged : Bool

/-- The PDUs on the two ports. -/
inductive DemuxPdu where
  | frame (data : List Byte)
  | codec2 (data : List Byte)
  deriving DecidableEq

/-- The state of a `lilacsat1_demux`. -/
structure DemuxState where
  position : ℤ
  frame : List Byte
  codec2 : List Byte

/-- The state after construction. -/
def DemuxState.init : DemuxState :=
  ⟨-1, List.replicate frameLen 0, List.replicate codec2FrameLen 0⟩

/-- `buffer.at(i) |= x`. -/
def orAt (buffer : List Byte) (i : ℕ) (x : Byte) : Except CxxError (List Byte) :=
  match buffer[i]? with
  | none => .error .outOfRange
  | some byte => .ok (buffer.set i (byte ||| x))

/-- The first part of the loop body of `work`: resynchronise, and publish a frame that is
complete. -/
def beforeBit (s : DemuxState) (tagged : Bool) : DemuxState × List DemuxPdu :=
  let s := if tagged then { s with position := 0 } else s
  if s.position = packetLen * bitsPerByte then
    ({ s with position := -1, frame := List.replicate frameLen 0 }, [.frame s.frame])
  else (s, [])

/-- The second part: place one bit. -/
def placeBit (s : DemuxState) (value : Byte) : Except CxxError (DemuxState × List DemuxPdu) :=
  let position := s.position.toNat
  let base := position / bitsPerByte + headerLen
  let bit := bitsPerByte - 1 - position % bitsPerByte
  let idx := base % chunkLen
  if chunkLen - codec2FrameLen ≤ idx then do
    let byte := idx - (chunkLen - codec2FrameLen)
    let codec2 ← orAt s.codec2 byte ((value &&& 1) <<< bit)
    if byte = codec2.length - 1 ∧ bit = 0 then
      return ({ s with
        position := s.position + 1, codec2 := List.replicate codec2FrameLen 0 }, [.codec2 codec2])
    else return ({ s with position := s.position + 1, codec2 }, [])
  else do
    let byte := base / chunkLen * (chunkLen - codec2FrameLen) + idx - headerLen
    let frame ← orAt s.frame byte ((value &&& 1) <<< bit)
    return ({ s with position := s.position + 1, frame }, [])

/-- The loop body of `lilacsat1_demux.work`: one item. -/
def demux (s : DemuxState) (item : Item) : Except CxxError (DemuxState × List DemuxPdu) :=
  let (s, published) := beforeBit s item.tagged
  if s.position = -1 then .ok (s, published)
  else do
    let (s, more) ← placeBit s item.value
    return (s, published ++ more)

/-! ## Windows -/

/-- The frame in the bits of a window: the bytes outside the codec2 frames. -/
def frameOf (window : List Bool) : List Byte :=
  ((List.range packetLen).filter fun j =>
    (j + headerLen) % chunkLen < chunkLen - codec2FrameLen).map (byteAt window)

/-- The codec2 frame in a chunk of a window. -/
def codec2Of (window : List Bool) (chunk : ℕ) : List Byte :=
  (List.range codec2FrameLen).map fun i =>
    byteAt window (chunk * chunkLen + (chunkLen - codec2FrameLen - headerLen) + i)

/-- The codec2 frame that the last bit of a window completes, if any. -/
def completed (window : List Bool) : List DemuxPdu :=
  ((List.range 5).filter fun chunk =>
    window.length = ((chunk + 1) * chunkLen - headerLen) * bitsPerByte).map fun chunk =>
      .codec2 (codec2Of window chunk)

/-- The PDUs that an item is due to publish, from the bits since the last sync tag before it:
a codec2 frame with its last bit, and the frame with the item after the window. -/
def due (since : Option (List Bool)) (item : Item) : List DemuxPdu :=
  match since with
  | none => []
  | some window =>
    if window.length = packetLen * bitsPerByte then [.frame (frameOf window)]
    else if item.tagged ∨ packetLen * bitsPerByte < window.length then []
    else completed (window ++ [item.value.getLsbD 0])

/-- What a demultiplexer is for: it remembers the bits since the last sync tag, and publishes
what is due. -/
def windows (since : Option (List Bool)) (item : Item) : Option (List Bool) × List DemuxPdu :=
  (if item.tagged then some [item.value.getLsbD 0]
    else since.map fun window => window ++ [item.value.getLsbD 0], due since item)

end GrSatellites.Lilacsat
