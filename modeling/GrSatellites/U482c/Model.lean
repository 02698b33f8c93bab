import GrSatellites.Fec.Randomizer
import GrSatellites.Fec.ReedSolomon
import GrSatellites.Fec.Viterbi
import GrSatellites.Golay24.Model
import GrSatellites.Library.Buffer

/-!
# U482C packets

The blocks of `lib/u482c_encode_impl.cc` and `lib/u482c_decode_impl.cc`. A packet is a sync
word, a header of three bytes, which is a Golay codeword with the length of the coded payload
and flags, and the coded payload. Both blocks work in a buffer that they keep.
-/

namespace GrSatellites.U482c

open Buffer Fec Golay24

/-- `AUTO`. -/
def auto : ℤ := -1

/-- `OFF`. -/
def off : ℤ := 0

/-- `ON`. -/
def on : ℤ := 1

/-- `RS_LEN`, `d_rs_len` and `k_rs_coded_len`. -/
def rsLen : ℕ := 255

/-- `k_rs_info_len`. -/
def rsInfoLen : ℕ := 223

/-- `d_header_len` and `k_header_len`. -/
def headerLen : ℕ := 3

/-- `d_ccsds_sequence`. -/
def ccsdsSequence : List Byte := ccsdsGenerateSequence rsLen

/-! ## The encoder -/

/-- `k_syncword`. -/
def syncword : List Byte := [0x93, 0x0b, 0x51, 0xde]

/-- The parameters of a `u482c_encode`, without convolutional coding. -/
structure Encoder where
  scrambler : Bool
  rs : Bool
  preambleLen : ℕ
  flagsInGolay : Bool

namespace Encoder

variable (c : Encoder) (rs : Rs8)

/-- `d_data` after construction. -/
def init : List Byte :=
  List.replicate c.preambleLen 0xaa ++ syncword ++ List.replicate (headerLen + rsLen) 0xaa

/-- `max_payload_len`. -/
def maxPayloadLen : ℕ := if c.rs then rsInfoLen else rsLen

/-- The header, before it is encoded. -/
def header (payloadLen : ℕ) : BitVec 32 :=
  let frameLen : Byte :=
    BitVec.ofNat 8 (if c.rs then payloadLen + rsLen - rsInfoLen else payloadLen)
  let flags : BitVec 32 :=
    (BitVec.ofBool c.scrambler).setWidth 32 <<< 9 ||| (BitVec.ofBool c.rs).setWidth 32 <<< 10
  if c.flagsInGolay then frameLen.setWidth 32 ||| flags else frameLen.setWidth 32

/-- The three bytes of a header. -/
def headerBytes (header : BitVec 32) : List Byte :=
  [((header >>> 16) &&& 0xff).setWidth 8, ((header >>> 8) &&& 0xff).setWidth 8,
    (header &&& 0xff).setWidth 8]

/-- `u482c_encode_impl::msg_handler`, on the contents of `d_data`: the new contents, and the
PDUs published. -/
def handleMsg (data msg : List Byte) : List Byte × List (List Byte) :=
  if c.maxPayloadLen < msg.length then (data, [])
  else
    let start := c.preambleLen + syncword.length
    let data := writeAt data start (headerBytes (encodeGolay24 (c.header msg.length)))
    let payload := writeAt (data.drop (start + headerLen)) 0 msg
    let parity := rs.encodeRs8 payload (rsInfoLen - msg.length)
    let payloadLen := if c.rs then msg.length + (rsLen - rsInfoLen) else msg.length
    let payload := if c.rs then writeAt payload msg.length parity else payload
    let payload := if c.scrambler then ccsdsXorSequence payload ccsdsSequence payloadLen else payload
    let data := data.take (start + headerLen) ++ payload
    (data, [data.take (start + headerLen + payloadLen)])

end Encoder

/-! ## The decoder -/

/-- The parameters of a `u482c_decode`. -/
structure Decoder where
  viterbi : ℤ
  scrambler : ℤ
  rs : ℤ

namespace Decoder

variable (c : Decoder) (rs : Rs8)

/-- Whether a step is made, from its option and its flag. -/
def enabled (option : ℤ) (flag : Bool) : Bool := option = on ∨ option = auto ∧ flag

/-- The Golay word at the start of the data. -/
def lengthField (data : List Byte) : BitVec 32 :=
  (data.getD 0 0).setWidth 32 <<< 16 ||| (data.getD 1 0).setWidth 32 <<< 8 |||
    (data.getD 2 0).setWidth 32

/-- `frame_len`. -/
def frameLen (field : BitVec 32) : ℕ := (field &&& 0xff).toNat

/-- `viterbi_flag`. -/
def viterbiFlag (field : BitVec 32) : Bool := field.getLsbD 8

/-- `scrambler_flag`. -/
def scramblerFlag (field : BitVec 32) : Bool := field.getLsbD 9

/-- `rs_flag`. -/
def rsFlag (field : BitVec 32) : Bool := field.getLsbD 10

/-- The step after the length field: Viterbi decoding, which a frame can be too short for. -/
def viterbiStep (field : BitVec 32) (packet : List Byte) : Option (List Byte × ℕ) :=
  if enabled c.viterbi (viterbiFlag field) then
    let len : ℤ := (frameLen field / 2 : ℕ) - 1
    if len < 0 then none else some (Viterbi.decode packet len.toNat, len.toNat)
  else some (packet, frameLen field)

/-- The next step: descrambling. -/
def descramble (field : BitVec 32) (packet : List Byte) (rxLen : ℕ) : List Byte :=
  if enabled c.scrambler (scramblerFlag field) then ccsdsXorSequence packet ccsdsSequence rxLen
  else packet

/-- The last step: Reed-Solomon decoding. -/
def rsStep (field : BitVec 32) (packet : List Byte) (rxLen : ℕ) : Option (List Byte × ℕ) :=
  if enabled c.rs (rsFlag field) then
    (rs.decodeRs8 packet (rsLen - rxLen)).map fun (packet, _) => (packet, rxLen - 32)
  else some (packet, rxLen)

/-- `u482c_decode_impl::msg_handler`, on the contents of `d_data`: the new contents, and the
PDUs published. -/
def handleMsg (data msg : List Byte) : List Byte × List (List Byte) :=
  let data := copyInto data msg
  match decodeGolay24 (lengthField data) with
  | none => (data, [])
  | some (field, _) =>
    match c.viterbiStep field (data.drop headerLen) with
    | none => (data, [])
    | some (packet, rxLen) =>
      let packet := c.descramble field packet rxLen
      match c.rsStep rs field packet rxLen with
      | none => (data.take headerLen ++ packet, [])
      | some (packet, rxLen) => (data.take headerLen ++ packet, [packet.take rxLen])

end Decoder

end GrSatellites.U482c
