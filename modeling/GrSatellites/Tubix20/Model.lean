import GrSatellites.Basic
import GrSatellites.Library.Dict
import GrSatellites.Library.Routine

/-!
# The TUBiX20 reframer

The block of `python/tubix20_reframer.py`, which puts the frames of TUBiX20 together from
decoded Mobitex data blocks.
-/

namespace GrSatellites.Tubix20

/-- The exceptions that the block may raise. -/
inductive PyError where
  | keyError
  | typeError
  | overflowError
  deriving DecidableEq

/-- The tags of a block. The block reads no more of `rest`, the tags that are not consumed. -/
structure Tags (M : Type) where
  blockId : ℕ
  crcValid : Bool
  correctedErrors : ℤ
  uncorrectedErrors : ℤ
  numBlocks : Option ℕ
  frameHeader : Option (List Byte)
  rest : M

/-- A PDU with a data block. -/
structure Msg (M : Type) where
  tags : Tags M
  packet : List Byte

/-- A PDU with a frame, and what has been added to the tags of its block 0. -/
structure Frame (M : Type) where
  rest : Option M
  numBlocksCorrect : ℕ
  numCorrectedErrors : ℤ
  numUncorrectedErrors : ℤ
  packet : List Byte

/-- What the block reports of a message: the two errors that it prints, a frame without a
correct block, which is not forwarded, or a frame that is. -/
inductive Event (M : Type) where
  | unhandledBlocks
  | unexpectedNumber
  | noCorrectBlock
  | frame (f : Frame M)

/-- The attributes of the block. -/
structure Reframer (M : Type) where
  numBlocksExpected : ℕ
  frameHeader : Option (List Byte)
  block0Meta : Option M
  blocks : Dict ℕ (List Byte)
  tags : Dict ℕ (Tags M)

variable {M : Type}

/-- `reset`. -/
def Reframer.reset : Reframer M := ⟨0, none, none, .empty, .empty⟩

/-- The bits of `error_code`. -/
def errorCode (tags : Dict ℕ (Tags M)) : ℕ :=
  tags.entries.foldl (fun code e => if e.2.crcValid then code else code ||| 1 <<< e.1) 0

/-- `error_code_bytes`. -/
def errorCodeBytes (tags : Dict ℕ (Tags M)) : Except PyError (List Byte) :=
  if errorCode tags < 2 ^ 32 then
    .ok ((List.range 4).map fun i => BitVec.ofNat 8 (errorCode tags >>> (8 * i)))
  else .error .overflowError

/-- The slices of the frame header that `prepare_frame` keeps: `control_bytes`, `callsign` and
`callsign_crc`. -/
def masterHeader (header : List Byte) : List Byte :=
  header.take 2 ++ (header.drop 3).take 6 ++ (header.drop 9).take 2

/-- `self.blocks[i]`. -/
def getBlock (s : Reframer M) (i : ℕ) : Except PyError (List Byte) :=
  match s.blocks.get? i with
  | none => .error .keyError
  | some block => .ok block

/-- `prepare_frame`. -/
def prepareFrame (s : Reframer M) : Except PyError (List Byte) := do
  match s.frameHeader with
  | none => throw .typeError
  | some header =>
    let blocks ← (List.range s.blocks.size).mapM (getBlock s)
    return masterHeader header ++ blocks.flatten ++ [0xAA] ++ (← errorCodeBytes s.tags) ++ [0xBB]

/-- `publish_frame`. -/
def publishFrame (s : Reframer M) : Except PyError (Event M) := do
  let numBlocksCorrect := s.tags.values.countP Tags.crcValid
  let numCorrectedErrors := (s.tags.values.map Tags.correctedErrors).sum
  let numUncorrectedErrors := (s.tags.values.map Tags.uncorrectedErrors).sum
  -- only frames with at least one correct block
  if numBlocksCorrect < 1 then return .noCorrectBlock
  let packet ← prepareFrame s
  return .frame ⟨s.block0Meta, numBlocksCorrect, numCorrectedErrors, numUncorrectedErrors, packet⟩

/-- The start of `handle_msg` on a block 0. -/
def startFrame (tags : Tags M) : Routine PyError (Reframer M) (List (Event M)) := do
  let partialFrame := (← get).blocks.size ≠ 0
  if partialFrame then set (Reframer.reset : Reframer M)
  match tags.numBlocks with
  | none => throw .keyError
  | some numBlocks =>
    modify fun s => { s with numBlocksExpected := numBlocks }
    match tags.frameHeader with
    | none => throw .keyError
    | some header =>
      modify fun s => { s with frameHeader := header, block0Meta := tags.rest }
      return if partialFrame then [.unhandledBlocks] else []

/-- `handle_msg`. -/
def handleMsg (msg : Msg M) : Routine PyError (Reframer M) (List (Event M)) := do
  let early ← if msg.tags.blockId = 0 then startFrame msg.tags else pure []
  modify fun s => { s with
    blocks := s.blocks.set msg.tags.blockId msg.packet
    tags := s.tags.set msg.tags.blockId msg.tags }
  let s ← get
  if (msg.tags.blockId : ℤ) = s.numBlocksExpected - 1 then
    if s.blocks.size ≠ s.numBlocksExpected ∨ s.frameHeader = none then
      return early ++ [.unexpectedNumber]
    match publishFrame s with
    | .error e => throw e
    | .ok event =>
      set (Reframer.reset : Reframer M)
      return early ++ [event]
  else return early

end GrSatellites.Tubix20
