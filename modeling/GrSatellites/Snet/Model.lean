import GrSatellites.Library.BitStruct
import GrSatellites.Snet.Bch15

/-!
# The S-NET deframer

The block `snet_deframer` of `python/snet_deframer.py`. The bits of a frame come in columns: a
header of 14 rows and, for the coded modes, blocks of 16 rows of 15 bits each.
-/

namespace GrSatellites.Snet

open Bits

/-- Why `handle_msg` ends without publishing: it returns, or an exception is raised. -/
inductive Stop where
  | returned
  | raised
deriving DecidableEq, Repr

/-! ## Arrays of bits -/

/-- `reshape((rows, cols))`. -/
def reshape (rows cols : ℕ) (xs : List Bool) : Except Stop (List (List Bool)) :=
  if xs.length = rows * cols then
    .ok ((List.range rows).map fun i => (xs.drop (i * cols)).take cols)
  else .error .raised

/-- `transpose()` of an array with some columns. -/
def transpose (cols : ℕ) (m : List (List Bool)) : List (List Bool) :=
  (List.range cols).map fun j => m.map (·.getD j false)

/-- `np.fliplr`. -/
def fliplr (m : List (List Bool)) : List (List Bool) := m.map List.reverse

/-- The integer that `decode_bch15` makes of a row. -/
def rowOf (bits : List Bool) : BitVec 15 := BitVec.ofNat 15 (ofBits bits)

/-- The bits of a row. -/
def bitsOf (row : BitVec 15) : List Bool := toBits 15 row.toNat

/-- `decode_bch15` on one row after the other, in place; the first failure ends it. -/
def decodeRows (d : ℕ) (rows : List (List Bool)) : Except Stop (List (List Bool)) :=
  rows.mapM fun row =>
    match decodeBch15 (rowOf row) d with
    | (true, left) => .ok (bitsOf left)
    | (false, _) => .error .returned

/-! ## The header -/

/-- The fields of an `LTUFrameHeader` that the block reads. -/
structure LTUFrameHeader where
  SrcId : ℕ
  AiTypeSrc : ℕ
  PduLength : ℕ
  CRC13 : ℕ
  CRC5 : ℕ
deriving DecidableEq, Repr

/-- The field widths of `LTUFrameHeader`, before the padding. -/
def ltuFrameHeader : List ℕ := [7, 7, 4, 4, 4, 4, 4, 2, 1, 1, 1, 1, 1, 1, 10, 13, 5]

/-- `LTUFrameHeader.parse`, of 70 bits. -/
def LTUFrameHeader.parse (ltu : List Bool) : LTUFrameHeader :=
  let fields := splitFields ltuFrameHeader ltu
  ⟨fields.getD 0 0, fields.getD 5 0, fields.getD 14 0, fields.getD 15 0, fields.getD 16 0⟩

/-- The rows of the header, as received. -/
def headerRows (bits : List Bool) : Except Stop (List (List Bool)) :=
  (reshape 15 14 (bits.take 210)).map (transpose 14)

/-- The bits of the header: the last five of each row, in the other order. -/
def headerBits (rows : List (List Bool)) : List Bool := (fliplr (rows.map (·.drop 10))).flatten

/-- One bit of the CRC5 calculation. -/
def crc5Step (crc : ℕ) (bit : Bool) : ℕ :=
  let c := (crc &&& 0x10) >>> 4
  let crc := crc <<< 1
  (if c ≠ bit.toNat then crc ^^^ 0x15 else crc) &&& 0x1F

/-- The rows of eight bits that the CRC5 goes through. The buggy CRC takes them in the other
order and one of them twice. -/
def crc5Rows (buggyCrc : Bool) (rows : List (List Bool)) : List (List Bool) :=
  if buggyCrc then rows.reverse.set 4 (rows.reverse.getD 3 []) else rows

/-- The CRC5 of the header bits. -/
def crc5 (buggyCrc : Bool) (ltu : List Bool) : Except Stop ℕ := do
  let rows ← reshape 9 8 (ltu.take (ltu.length - 5) ++ [true, false, true, true, false, true, true])
  return (crc5Rows buggyCrc rows).flatten.foldl crc5Step 0x1F

/-! ## The data -/

/-- The coding modes: no coding, or the data bits of a codeword and the distance of its code. -/
inductive Coding where
  | uncoded
  | bch (dataBitsPerCodeword d : ℕ)
deriving DecidableEq, Repr

/-- The coding mode for `AiTypeSrc`. -/
def coding : ℕ → Except Stop Coding
  | 0 => .ok .uncoded
  | 1 => .ok (.bch 11 3)
  | 2 => .ok (.bch 7 5)
  | 3 => .ok (.bch 5 7)
  | _ => .error .returned

/-- `data_bytes_per_block`. -/
def dataBytesPerBlock (dataBitsPerCodeword : ℕ) : ℕ := 16 * dataBitsPerCodeword / 8

/-- `num_blocks`. -/
def numBlocks (pduLength dataBitsPerCodeword : ℕ) : ℕ :=
  (pduLength + dataBytesPerBlock dataBitsPerCodeword - 1) / dataBytesPerBlock dataBitsPerCodeword

/-- The rows of a block, as received. -/
def blockRows (bits : List Bool) (k : ℕ) : Except Stop (List (List Bool)) :=
  (reshape 15 16 ((bits.drop (210 + k * 240)).take 240)).map (transpose 16)

/-- The data bits of the rows of a block. -/
def blockBits (dataBitsPerCodeword : ℕ) (rows : List (List Bool)) : List Bool :=
  (rows.map (·.drop (15 - dataBitsPerCodeword))).flatten

/-- The loop over the blocks. -/
def decodeBlocks (bits : List Bool) (dataBitsPerCodeword d : ℕ) (ks : List ℕ) :
    Except Stop (List Bool) :=
  List.flatten <$> ks.mapM fun k => do
    let rows ← blockRows bits k
    let left ← decodeRows d rows
    return blockBits dataBitsPerCodeword left

/-- The bits of the bytes of the PDU. -/
def pduBytes (bits : List Bool) (pduLength : ℕ) : Coding → Except Stop (List (List Bool))
  | .uncoded => fliplr <$> reshape pduLength 8 ((bits.drop 210).take (pduLength * 8))
  | .bch dataBitsPerCodeword d => do
    let n := numBlocks pduLength dataBitsPerCodeword
    let data ← decodeBlocks bits dataBitsPerCodeword d (List.range n)
    let rows ← reshape (dataBytesPerBlock dataBitsPerCodeword * n) 8 data
    return (fliplr rows).take pduLength

/-- One bit of the CRC13 calculation. The buggy CRC has a disjunction for the comparison. -/
def crc13Step (buggyCrc : Bool) (crc : ℕ) (bit : Bool) : ℕ :=
  let c := (crc &&& 0x1000) >>> 12
  let crc := crc <<< 1
  (if (if buggyCrc then c ≠ 0 ∨ bit = true else c ≠ bit.toNat) then crc ^^^ 0x1CF5 else crc) &&&
    0x1FFF

/-- The CRC13 of the bytes of the PDU. -/
def crc13 (buggyCrc : Bool) (bytes : List (List Bool)) : ℕ :=
  (if buggyCrc then bytes.reverse else bytes).flatten.foldl (crc13Step buggyCrc) 0x1FFF

/-! ## The handler -/

/-- The header of a frame, when the decoder accepts its rows and the CRC5 is right. -/
def readHeader (buggyCrc : Bool) (bits : List Bool) : Except Stop LTUFrameHeader := do
  let rows ← headerRows bits
  let left ← decodeRows 7 rows
  let crc ← crc5 buggyCrc (headerBits left)
  let hdr := LTUFrameHeader.parse (headerBits left)
  if crc ≠ hdr.CRC5 then .error .returned else return hdr

/-- `snet_deframer.handle_msg`, for a vector of bits: the `SNET SrcId` and the PDU that are
published. -/
def handleMsg (buggyCrc : Bool) (bits : List Bool) : Except Stop (ℕ × List (BitVec 8)) := do
  let hdr ← readHeader buggyCrc bits
  if hdr.PduLength = 0 then .error .returned
  let mode ← coding hdr.AiTypeSrc
  let bytes ← pduBytes bits hdr.PduLength mode
  if crc13 buggyCrc bytes ≠ hdr.CRC13 then .error .returned
  return (hdr.SrcId, packMsb bytes.flatten)

end GrSatellites.Snet
