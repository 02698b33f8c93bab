import GrSatellites.Basic
import GrSatellites.Library.Checked
import GrSatellites.Library.Rounds
import Mathlib.Data.Nat.Digits.Defs

/-!
# The OpenLST decoder

The functions and the block `openlst_fec_decode` of
`python/components/deframers/openlst_deframer.py`. Blocks of four bytes are deinterleaved and put
through a Viterbi decoder, which is a generator and keeps its state from one block to the next. Its
output is XORed with a sequence, which is another generator. The number of bytes that are decoded
is in the first one.
-/

namespace GrSatellites.Openlst

open Checked Rounds

/-- The exceptions of the decoder. -/
inductive PyError where
  | indexError
  | valueError
  | overflowError
  | assertionError
  deriving DecidableEq

/-- `aTrellisSourceStateLut`. -/
def aTrellisSourceStateLut : List (ℕ × ℕ) :=
  [(0, 4), (0, 4), (1, 5), (1, 5), (2, 6), (2, 6), (3, 7), (3, 7)]

/-- `aTrellisTransitionOutput`. -/
def aTrellisTransitionOutput : List (ℕ × ℕ) :=
  [(0, 3), (3, 0), (1, 2), (2, 1), (3, 0), (0, 3), (2, 1), (1, 2)]

/-- `aTrellisTransitionInput`. -/
def aTrellisTransitionInput : List ℕ := [0, 1, 0, 1, 0, 1, 0, 1]

/-- `hamming_weight`. -/
def hammingWeight (byte : ℕ) : ℕ := (Nat.digits 2 byte).sum

/-! ## Interleaving -/

/-- A row of the grid, and the bits that are left. -/
def takeRow (chunkInt : ℕ) : List ℕ × ℕ :=
  (List.range 4).foldl (fun (row, chunkInt) _ =>
    (row ++ [(chunkInt &&& 0xc0000000) >>> 30], chunkInt <<< 2)) ([], chunkInt)

/-- The grid of `interleave`, and the bits that are left. -/
def takeGrid (chunkInt : ℕ) : List (List ℕ) × ℕ :=
  (List.range 4).foldl (fun (grid, chunkInt) _ =>
    let (row, chunkInt) := takeRow chunkInt
    (grid ++ [row], chunkInt)) ([], chunkInt)

/-- The columns of the grid, one after the other. -/
def flip (grid : List (List ℕ)) : Except PyError ℕ :=
  (List.range 4).foldlM (fun flipped x =>
    (List.range 4).foldlM (fun flipped y => do
      let row ← access .indexError grid y
      let bits ← access .indexError row x
      return flipped <<< 2 ||| bits) flipped) 0

/-- `int.to_bytes(4, byteorder='little')`. -/
def toBytes (n : ℕ) : Except PyError (List Byte) :=
  if n < 2 ^ 32 then .ok ((List.range 4).map fun i => BitVec.ofNat 8 (n >>> (8 * i)))
  else .error .overflowError

/-- `interleave`. -/
def interleave (chunk : List Byte) : Except PyError (List Byte) := do
  if chunk.length ≠ 4 then throw .valueError
  toBytes (← flip (takeGrid (Nat.ofDigits 256 (chunk.map BitVec.toNat))).1)

/-! ## The Viterbi decoder -/

/-- The variables of `decode_fec_chunk`. -/
structure Decoder where
  pathBits : ℕ
  cost : List (List ℤ)
  path : List (List ℕ)
  lastBuf : ℕ
  curBuf : ℕ

/-- The decoder before the first block. -/
def Decoder.init : Decoder where
  pathBits := 0
  cost := [List.replicate 8 100, List.replicate 8 0]
  path := [List.replicate 8 0, List.replicate 8 0]
  lastBuf := 0
  curBuf := 1

/-- The symbols of a block, two bits each. -/
def symbolsOf (chunk : List Byte) : List ℕ :=
  chunk.flatMap fun b => (List.range 4).map fun i => (b.toNat <<< (2 * i) &&& 0xc0) >>> 6

/-- `xss[i][j] = x`. -/
def storeAt {α : Type} (xss : List (List α)) (i j : ℕ) (x : α) : Except PyError (List (List α)) := do
  let xs ← access .indexError xss i
  store .indexError xss i (← store .indexError xs j x)

/-- `xss[i][j]`. -/
def accessAt {α : Type} (xss : List (List α)) (i j : ℕ) : Except PyError α := do
  access .indexError (← access .indexError xss i) j

/-- A round of the loop over the states of the trellis. -/
def destRound (symbol : ℕ) (s : Decoder × ℤ) (destState : ℕ) : Except PyError (Decoder × ℤ) := do
  let (d, minCost) := s
  let inputBit ← access .indexError aTrellisTransitionInput destState
  let srcState ← access .indexError aTrellisSourceStateLut destState
  let output ← access .indexError aTrellisTransitionOutput destState
  let cost0 := (← accessAt d.cost d.lastBuf srcState.1) + hammingWeight (symbol ^^^ output.1)
  let cost1 := (← accessAt d.cost d.lastBuf srcState.2) + hammingWeight (symbol ^^^ output.2)
  let best := if cost0 < cost1 then (cost0, srcState.1) else (cost1, srcState.2)
  let cost ← storeAt d.cost d.curBuf destState best.1
  let bits ← accessAt d.path d.lastBuf best.2
  let path ← storeAt d.path d.curBuf destState (bits <<< 1 ||| inputBit)
  return ({ d with cost := cost, path := path }, min minCost best.1)

/-- A byte of output, once the path has enough bits. -/
def emit (d : Decoder) (out : List ℕ) : Except PyError (Decoder × List ℕ) :=
  if 32 ≤ d.pathBits then do
    let path ← accessAt d.path d.curBuf 0
    return ({ d with pathBits := d.pathBits - 8 }, out ++ [path >>> 24 &&& 0xff])
  else .ok (d, out)

/-- `cost[last_buf][i] -= min_cost`. -/
def subtractRound (minCost : ℤ) (d : Decoder) (i : ℕ) : Except PyError Decoder := do
  let cost ← accessAt d.cost d.lastBuf i
  return { d with cost := ← storeAt d.cost d.lastBuf i (cost - minCost) }

/-- A round of the loop over the symbols. -/
def symbolRound (s : Decoder × List ℕ) (symbol : ℕ) : Except PyError (Decoder × List ℕ) := do
  let (d, minCost) ← (List.range 8).foldlM (destRound symbol) (s.1, 0xff)
  let (d, out) ← emit { d with pathBits := d.pathBits + 1 } s.2
  let d := { d with lastBuf := (d.lastBuf + 1) % 2, curBuf := (d.curBuf + 1) % 2 }
  return (← (List.range 8).foldlM (subtractRound minCost) d, out)

/-- `bytes`. -/
def bytes (ns : List ℕ) : Except PyError (List Byte) :=
  ns.mapM fun n => if n < 256 then .ok (BitVec.ofNat 8 n) else .error .valueError

/-- `decoder.send`. -/
def Decoder.send (d : Decoder) (chunk : List Byte) : Except PyError (List Byte × Decoder) := do
  let chunk ← interleave chunk
  let (d, out) ← (symbolsOf chunk).foldlM symbolRound (d, [])
  return (← bytes out, d)

/-! ## Whitening -/

/-- The state of `pn9` before its first value. -/
def pn9 : ℕ := 0b111111111

/-- The state of `pn9` after a value. -/
def pn9Next (state : ℕ) : ℕ :=
  (List.range 8).foldl (fun state _ =>
    let newBit := ((state &&& 0x20) >>> 5) ^^^ (state &&& 0x01)
    state >>> 1 ||| newBit <<< 8) state

/-- `whiten`, with the state of `pn9` that is left. -/
def whiten : List Byte → ℕ → List Byte × ℕ
  | [], state => ([], state)
  | r :: raw, state =>
    let (rest, state') := whiten raw (pn9Next state)
    ((r ^^^ BitVec.ofNat 8 (state &&& 0xff)) :: rest, state')

/-! ## The block -/

variable {M : Type}

/-- The variables of `handle_msg`. -/
structure Variables where
  a : ℕ
  decoded : List Byte
  length : ℕ
  decoder : Decoder
  pngen : ℕ

/-- The first two blocks are decoded. -/
def start (msg : List Byte) : Except PyError Variables := do
  let (raw, decoder) ← Decoder.init.send (msg.take 4)
  let (raw', decoder') ← decoder.send ((msg.drop 4).take 4)
  let (decoded, pngen) := whiten (raw ++ raw') pn9
  let first ← access .indexError decoded 0
  return ⟨8, decoded, first.toNat + 1, decoder', pngen⟩

/-- Another block is decoded. -/
def decodeNext (msg : List Byte) (v : Variables) : Except PyError Variables := do
  if ¬ v.a + 4 ≤ msg.length then throw .assertionError
  let (raw, decoder) ← v.decoder.send ((msg.drop v.a).take 4)
  let (decoded, pngen) := whiten raw v.pngen
  return { v with a := v.a + 4, decoded := v.decoded ++ decoded, decoder := decoder, pngen := pngen }

/-- `pmt.init_u8vector`. -/
def initU8vector (length : ℕ) (xs : List Byte) : Except PyError (List Byte) :=
  if xs.length = length then .ok xs else .error .valueError

/-- A round of the loop, or its end. -/
def round (msg : List Byte) (v : Variables) : Except PyError (List Byte) ⊕ Variables :=
  if v.decoded.length < v.length then
    match decodeNext msg v with
    | .ok v => .inr v
    | .error e => .inl (.error e)
  else .inl (initU8vector v.length (v.decoded.take v.length))

/-- `handle_msg` ends with a published PDU, with none, or with an exception. -/
def HandleMsg : Msg M → Except PyError (Option (Pdu M)) → Prop
  | .other _, result => result = .ok none
  | .u8vector ⟨car, msg⟩, result =>
    match start msg with
    | .error e => result = .error e
    | .ok v => ∃ published, Ends (round msg) v published ∧
        result = published.map fun decoded => some ⟨car, decoded⟩

end GrSatellites.Openlst
