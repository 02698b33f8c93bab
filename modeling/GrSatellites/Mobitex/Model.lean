import GrSatellites.Crc.Model
import GrSatellites.Library.BitFlips
import GrSatellites.Library.BitStruct
import GrSatellites.Library.Dict
import GrSatellites.Library.Endian

/-!
# Mobitex-NX frames

The blocks of `python/mobitex_to_datablocks.py` and `python/mobitex_fec_block.py`, with the
FEC of `python/mobitex_fec.py`. The first one takes a frame apart into data blocks, the second
one decodes a data block.
-/

namespace GrSatellites.Mobitex

open Bits BitFlips Endian

variable {M : Type}

/-- The exceptions that leave the functions. -/
inductive PyError where
  | indexError
  | valueError
  deriving DecidableEq, Repr

/-! ## FEC -/

/-- `Status`. -/
inductive Status where
  | noError
  | errorCorrected
  | errorUncorrectable
  deriving DecidableEq, Repr

/-- `FEC_MATRIX_8b`. -/
def fecMatrix8b : List ℕ := [0b11101100, 0b11010011, 0b10111010, 0b01110101]

/-- `FEC_MATRIX_12b`. -/
def fecMatrix12b : List ℕ := [0b111011001000, 0b110100110100, 0b101110100010, 0b011101010001]

/-- `calculate_even_parity`, by folding. -/
def calculateEvenParity (value : ℕ) : ℕ :=
  let value := value ^^^ (value >>> 16)
  let value := value ^^^ (value >>> 8)
  let value := value ^^^ (value >>> 4)
  let value := value ^^^ (value >>> 2)
  let value := value ^^^ (value >>> 1)
  value &&& 1

/-- The loop over the rows of a matrix, which places the parity of each masked row. -/
def parities (matrix : List ℕ) (word : ℕ) : ℕ :=
  matrix.zipIdx.foldl (fun syndrome (mask, i) =>
    syndrome ||| (calculateEvenParity (word &&& mask) <<< (3 - i))) 0

/-- `init_syndrome_table`. -/
def initSyndromeTable : Dict ℕ ℕ :=
  (List.range 12).foldl (fun table pos => table.set (parities fecMatrix12b (1 <<< pos)) pos) .empty

/-- `encode`. -/
def encode (message : ℕ) : ℕ := (message <<< 4) ||| parities fecMatrix8b message

/-- `decode`: the message and the FEC bits, corrected if possible. -/
def decode (codeword : ℕ) : Except PyError (ℕ × ℕ × Status) :=
  if ¬codeword ≤ 0xFFF then .error .valueError
  else
    let syndrome := parities fecMatrix12b codeword
    if syndrome = 0 then .ok (codeword >>> 4, codeword &&& 0x0F, .noError)
    else
      match initSyndromeTable.get? syndrome with
      | none => .ok (codeword >>> 4, codeword &&& 0x0F, .errorUncorrectable)
      | some errorPosition =>
        let corrected := codeword ^^^ (1 <<< errorPosition)
        .ok (corrected >>> 4, corrected &&& 0x0F, .errorCorrected)

/-- `pack_2b`, for codewords of twelve bits. -/
def pack2b (byte0 byte1 : ℕ) : List Byte :=
  [BitVec.ofNat 8 (byte0 >>> 4), BitVec.ofNat 8 (((byte0 &&& 0x0F) <<< 4) ||| (byte1 >>> 8)),
    BitVec.ofNat 8 (byte1 &&& 0xFF)]

/-- `unpack_2b`: two codewords. -/
def unpack2b : List Byte → Except PyError (List ℕ)
  | code0 :: code1 :: code2 :: _ =>
    .ok [(code0.toNat <<< 4) ||| (code1.toNat >>> 4), ((code1.toNat &&& 0x0F) <<< 8) ||| code2.toNat]
  | _ => .error .indexError

/-! ## Metadata -/

/-- The values in the metadata of a PDU. -/
inductive Value where
  | long (n : ℤ)
  | bool (b : Bool)
  | u8vector (bytes : List Byte)
  deriving DecidableEq

/-- The metadata of a PDU. -/
abbrev Meta := Dict String Value

/-- `block[a:a + size] for a in range(0, len(block), size)`. -/
def slices (size : ℕ) (bytes : List Byte) : List (List Byte) :=
  (List.range ((bytes.length + (size - 1)) / size)).map fun i => (bytes.drop (size * i)).take size

/-- `mobitex_fec.handle_msg`: what is published. -/
def fecHandleMsg : Msg Meta → Except PyError (List (Pdu Meta))
  | .other _ => .ok []
  | .u8vector ⟨car, block⟩ =>
    if block.length ≠ 30 then .ok []
    else do
      let codewords ← (slices 3 block).mapM unpack2b
      let decoded ← codewords.flatten.mapM decode
      let packetOut := decoded.map fun (corrected, _, _) => BitVec.ofNat 8 corrected
      let errorsCorrected := decoded.countP fun (_, _, status) => status = .errorCorrected
      let errorsUncorrected := decoded.countP fun (_, _, status) => status = .errorUncorrectable
      let car := car.set "corrected_errors" (.long errorsCorrected)
      let car := car.set "uncorrected_errors" (.long errorsUncorrected)
      return [⟨car, packetOut⟩]

/-! ## Control bytes and callsign -/

theorem crcBits_ge : 8 ≤ 16 := by decide

theorem crcBits_le : 16 ≤ 64 := by decide

/-- `_crc_fn`. -/
def crcFn : Crc := Crc.ofWidth ⟨16, crcBits_ge, crcBits_le⟩ 0x1021 0x0000 0x0000 false false

/-- What `decode_control` returns when both control bytes can be decoded. -/
structure Control where
  control0 : ℕ
  control1 : ℕ
  fec : ℕ
  bitErrors : ℕ

/-- `decode_control`. -/
def decodeControl (control0 control1 fec : Byte) : Except PyError (Option Control) := do
  let (control0, fec0, status0) ← decode ((control0.toNat <<< 4) ||| (fec.toNat >>> 4))
  let (control1, fec1, status1) ← decode ((control1.toNat <<< 4) ||| (fec.toNat &&& 0x0F))
  if status0 = .errorUncorrectable ∨ status1 = .errorUncorrectable then return none
  else
    return some ⟨control0, control1, (fec0 <<< 4) ||| fec1,
      [status0, status1].countP (· = .errorCorrected)⟩

/-- `encode_control`. -/
def encodeControl (control0 control1 : ℕ) : ℕ :=
  ((encode control0 &&& 0xf) <<< 4) ||| (encode control1 &&& 0xf)

/-- The CRC of a callsign, high byte first. -/
def callsignCrc (callsign : List Byte) : List Byte := bytesBE 2 (crcFn.compute callsign)

/-- `check_callsign_crc`. -/
def checkCallsignCrc (callsign crc : List Byte) : Bool := callsignCrc callsign = crc

/-- `decode_unknown_callsign`: the first pair with a CRC that checks, as bits are flipped, and
the number of bits flipped. -/
def decodeUnknownCallsign (callsign crc : List Byte) (maxBitFlips : ℤ) :
    Option (List Byte × List Byte × ℕ) :=
  (List.range (maxBitFlips + 1).toNat).findSome? fun numFlips =>
    (combinations (List.range ((callsign ++ crc).length * 8)) numFlips).findSome? fun flips =>
      let modBytes := flips.foldl flipBit (callsign ++ crc)
      let modCallsign := modBytes.take callsign.length
      let modCrc := modBytes.drop callsign.length
      if checkCallsignCrc modCallsign modCrc then
        some (modCallsign, modCrc, flips.countP fun x : ℕ => (x : ℤ) ≠ -1)
      else none

/-- `hamming_distance`. Arrays of different lengths cannot be compared. -/
def hammingDistance (a b : List Byte) : Except PyError ℕ :=
  if a.length ≠ b.length then .error .valueError
  else .ok ((List.zipWith xor (unpackMsb a) (unpackMsb b)).count true)

/-- `compare_expected_callsign`. -/
def compareExpectedCallsign (callsign crc callsignRef : List Byte) :
    Except PyError (List Byte × ℕ) := do
  let crcRef := callsignCrc callsignRef
  let bitErrors ← hammingDistance (callsign ++ crc) (callsignRef ++ crcRef)
  return (crcRef, bitErrors)

/-! ## Data blocks -/

/-- `variant`. -/
inductive Variant where
  | beesat1
  | beesat9
  | other
  deriving DecidableEq

/-- A `mobitex_to_datablocks`. A callsign is not empty. -/
structure ToDatablocks where
  variant : Variant
  callsignRef : Option (List Byte)
  dropInvalidControl : Bool
  callsignThreshold : ℤ

/-- `packet[start:stop] = new`. -/
def setSlice (packet : List Byte) (start stop : ℕ) (new : List Byte) : List Byte :=
  packet.take start ++ new ++ packet.drop stop

/-- `self.block_size`. -/
def blockSize : ℕ := 30

namespace ToDatablocks

variable (b : ToDatablocks)

/-- `self.parse_callsign`. -/
def parseCallsign : Bool := b.variant ≠ .beesat1

/-- `self.header_length`. -/
def headerLength : ℕ := if b.parseCallsign then 2 + 1 + 6 + 2 else 2 + 1

/-- The part of `handle_msg` that corrects the callsign: the packet and the number of bit errors,
or nothing if the frame is dropped. -/
def correctCallsign (packet : List Byte) : Except PyError (Option (List Byte × ℕ)) := do
  let received := (packet.drop 3).take 6
  let receivedCrc := (packet.drop 9).take 2
  let result ← match b.callsignRef with
    | some callsignRef => do
      let (crc, bitErrors) ← compareExpectedCallsign received receivedCrc callsignRef
      if (bitErrors : ℤ) > b.callsignThreshold then pure none
      else pure (some (callsignRef, crc, bitErrors))
    | none => pure (decodeUnknownCallsign received receivedCrc b.callsignThreshold)
  match result with
  | none => return none
  | some (callsign, crc, bitErrors) =>
    -- `callsign.decode("ascii")` drops the frame
    if ∃ byte ∈ callsign, 128 ≤ byte.toNat then return none
    else return some (setSlice (setSlice packet 3 9 callsign) 9 11 crc, bitErrors)

/-- The metadata of a data block. -/
def blockMeta (controlFecValid : Bool) (controlBitErrors : ℤ) (callsignBitErrors numBlocks : ℕ)
    (frameHeader : List Byte) (blockIdx : ℕ) : Meta :=
  let car : Meta :=
    if blockIdx = 0 then
      let car : Meta := Dict.empty.set "control_errors_corrected" (.long controlBitErrors)
      let car := car.set "control_fec_valid" (.bool controlFecValid)
      let car :=
        if b.parseCallsign then car.set "callsign_bit_errors" (.long callsignBitErrors) else car
      let car := car.set "frame_header" (.u8vector frameHeader)
      car.set "num_blocks" (.long numBlocks)
    else .empty
  car.set "block_id" (.long blockIdx)

/-- `mobitex_to_datablocks.handle_msg`: what is published. -/
def handleMsg : Msg M → Except PyError (List (Pdu Meta))
  | .other _ => .ok []
  | .u8vector ⟨_, packet⟩ =>
    match packet with
    | control0 :: control1 :: controlFec :: _ => do
      let result ← decodeControl control0 control1 controlFec
      let (packet, control0, controlFecValid, controlBitErrors) := match result with
        | none => (packet, control0.toNat, false, (-1 : ℤ))
        | some c => (setSlice (setSlice packet 0 2 [BitVec.ofNat 8 c.control0, BitVec.ofNat 8 c.control1])
            2 3 [BitVec.ofNat 8 c.fec], c.control0, true, (c.bitErrors : ℤ))
      if b.dropInvalidControl ∧ ¬controlFecValid then return []
      else
        let numBlocks := if b.variant = .beesat9 then 32 else (control0 &&& 0b00011111) + 1
        let corrected ←
          if b.parseCallsign then b.correctCallsign packet else pure (some (packet, 0))
        match corrected with
        | none => return []
        | some (packet, callsignBitErrors) =>
          let frameHeader := packet.take b.headerLength
          let dataBlocks := (packet.drop b.headerLength).take (blockSize * numBlocks)
          return (slices blockSize dataBlocks).zipIdx.map fun (block, blockIdx) =>
            ⟨b.blockMeta controlFecValid controlBitErrors callsignBitErrors numBlocks frameHeader
              blockIdx, block⟩
    | _ => .error .indexError

end ToDatablocks

end GrSatellites.Mobitex
