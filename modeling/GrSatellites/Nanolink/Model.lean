import GrSatellites.Basic
import GrSatellites.Library.Search
import GrSatellites.Library.Transducer

/-!
# The Nanolink defragmenter

The block of `python/components/transports/nanolink_transport.py`. Nanolink frames come in
a byte stream, each after a sync word. A frame starts with a header of three bytes that
holds the length of what follows. The stream comes in PDUs of any sizes.
-/

namespace GrSatellites.Nanolink

open Search

variable {M : Type}

/-- `syncword`. -/
def syncword : List Byte := [0xfa, 0xf3, 0x20]

/-- `header_len`. -/
def headerLen : ℕ := 3

/-- `length`, from a header. -/
def frameLength (header : List Byte) : ℕ :=
  ((header.getD 1 0).toNat &&& 0x3f) <<< 4 ||| (header.getD 2 0).toNat >>> 4

/-- The state of a `nanolink_defragmenter`. -/
structure Defragmenter where
  inFrame : Bool
  current : List Byte
  remain : Option ℕ
  deriving DecidableEq

/-- The state after construction. -/
def Defragmenter.init : Defragmenter := ⟨false, [], none⟩

/-- The first part of the loop body of `handle_msg`: find a frame, unless in one. -/
def enterFrame (s : Defragmenter) (in0 : List Byte) : Option (Defragmenter × List Byte) :=
  if s.inFrame then some (s, in0)
  else
    (find syncword in0).map fun a =>
      (⟨true, (in0.drop (a + syncword.length)).take headerLen, none⟩,
        in0.drop (a + syncword.length + headerLen))

/-- The second part: complete the header. -/
def fillHeader (s : Defragmenter) (in0 : List Byte) : Defragmenter × List Byte :=
  if s.current.length < headerLen then
    let missing := headerLen - s.current.length
    ({ s with current := s.current ++ in0.take missing }, in0.drop missing)
  else (s, in0)

/-- The third part: take bytes of the frame, and publish it when none remains. -/
def takeBody (s : Defragmenter) (in0 : List Byte) : Defragmenter × List Byte × List (List Byte) :=
  let b := s.remain.getD (frameLength s.current)
  let current := s.current ++ in0.take b
  let remain := b - (in0.take b).length
  if remain = 0 then (⟨false, current, none⟩, in0.drop b, [current])
  else (⟨true, current, some remain⟩, in0.drop b, [])

/-- The loop body of `handle_msg` in a frame: the bytes left, or none if it returns. -/
def takeFrame (s : Defragmenter) (in0 : List Byte) :
    Defragmenter × Option (List Byte) × List (List Byte) :=
  let (s, in0) := fillHeader s in0
  if s.current.length < headerLen then (s, none, [])
  else
    let (s, in0, out) := takeBody s in0
    (s, some in0, out)

/-- The loop of `handle_msg`: the new state and the frames published. Each round that is not
the last takes bytes from `in0`. -/
def handleLoop : ℕ → Defragmenter → List Byte → Defragmenter × List (List Byte)
  | 0, s, _ => (s, [])
  | rounds + 1, s, in0 =>
    if in0 = [] then (s, [])
    else
      match enterFrame s in0 with
      | none => (s, [])
      | some (s, in0) =>
        match takeFrame s in0 with
        | (s, none, out) => (s, out)
        | (s, some in0, out) =>
          let (s, more) := handleLoop rounds s in0
          (s, out ++ more)

/-- The bytes of a message. -/
def payload : Msg M → List Byte
  | .u8vector pdu => pdu.cdr
  | .other _ => []

/-- `nanolink_defragmenter.handle_msg`. -/
def handleMsg (s : Defragmenter) : Msg M → Defragmenter × List (List Byte)
  | .u8vector pdu => handleLoop (pdu.cdr.length + 1) s pdu.cdr
  | .other _ => (s, [])

/-! ## Frames of a stream -/

/-- What has been found in a stream: the bytes since the last frame, which hold no sync
word, or the bytes of a frame that is not complete. -/
inductive Found where
  | searching (seen : List Byte)
  | inFrame (current : List Byte)

/-- A frame is its header and as many bytes as the header says. -/
def IsFrame (bytes : List Byte) : Prop :=
  headerLen ≤ bytes.length ∧ bytes.length = headerLen + frameLength bytes

instance (bytes : List Byte) : Decidable (IsFrame bytes) := by
  unfold IsFrame
  infer_instance

/-- Delimit the frames of a stream, byte by byte: a frame starts after a sync word that
starts after the frame before. -/
def delimit (found : Found) (byte : Byte) : Found × List (List Byte) :=
  match found with
  | .searching seen =>
    if syncword <:+ seen ++ [byte] then (.inFrame [], []) else (.searching (seen ++ [byte]), [])
  | .inFrame current =>
    if IsFrame (current ++ [byte]) then (.searching [], [current ++ [byte]])
    else (.inFrame (current ++ [byte]), [])

end GrSatellites.Nanolink
