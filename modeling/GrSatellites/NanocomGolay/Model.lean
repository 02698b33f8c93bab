import GrSatellites.Basic
import GrSatellites.Golay24.Model
import GrSatellites.Library.Transducer

/-!
# The NanoCom Golay decoder

The block of `lib/nanocom_golay_decode_length_impl.cc`. It delays a stream of bits by 23
items, so that the 24 bits after a tag are at hand when the item of the tag goes out, and
adds a tag with the length that they encode.
-/

namespace GrSatellites.NanocomGolay

open Golay24

/-- The value of a tag, which is an integer or anything else. -/
inductive TagValue where
  | uint64 (n : ℕ)
  | other (text : String)
  deriving DecidableEq

/-- A stream tag. -/
structure Tag where
  offset : ℕ
  key : String
  value : TagValue
  deriving DecidableEq

/-- The keys that are given to the constructor. -/
structure Settings where
  golayStartTagKey : String
  lengthTagKey : String

/-- `k_golay_N`. -/
def kGolayN : ℕ := 24

/-- The variable `delay` of `work`. -/
def delay : ℕ := kGolayN - 1

/-- The number of items read, and the last ones, as many as the history has before the items of
a call. -/
structure State where
  nitemsRead : ℕ
  history : List Byte

/-- The state at the start, with zeros before the stream. -/
def State.init : State := ⟨0, List.replicate delay 0⟩

/-- The loop that reads the Golay field. -/
def golayField (bits : List Byte) : BitVec 32 :=
  bits.foldl (fun field bit => field <<< 1 ||| (bit &&& 1).setWidth 32) 0

/-- The length in bits that a Golay field encodes. A field that cannot be decoded is used as it
is. -/
def frameLenBits (bits : List Byte) : ℕ :=
  let golayField := golayField bits
  let golayField := match decodeGolay24 golayField with
    | some (corrected, _) => corrected
    | none => golayField
  8 * (golayField &&& 0xff).toNat + kGolayN

/-- `get_tags_in_range`. -/
def tagsInRange (tags : List Tag) (start stop : ℕ) : List Tag :=
  tags.filter fun tag => start ≤ tag.offset ∧ tag.offset < stop

/-- A tag on the delayed item. -/
def Tag.delayed (tag : Tag) : Tag := { tag with offset := tag.offset + delay }

/-- The length tag for a Golay field that starts at an offset. -/
def Settings.lengthTag (settings : Settings) (offset : ℕ) (bits : List Byte) : Tag :=
  ⟨offset + delay, settings.lengthTagKey, .uint64 (frameLenBits bits)⟩

/-- What a call produces: items, length tags and the tags that it propagates. -/
structure Output where
  items : List Byte
  lengthTags : List Tag
  tags : List Tag

/-- `work` for the items of a chunk, with the tags of the input stream. -/
def work (settings : Settings) (tags : List Tag) (s : State) (chunk : List Byte) :
    State × Output :=
  let input := s.history ++ chunk
  let start := s.nitemsRead - delay
  let stop := s.nitemsRead + chunk.length - delay
  let starts := (tagsInRange tags start stop).filter fun tag =>
    tag.key = settings.golayStartTagKey
  let lengthTags := starts.map fun tag =>
    let offset := tag.offset + delay - s.nitemsRead
    settings.lengthTag tag.offset ((input.drop offset).take kGolayN)
  (⟨s.nitemsRead + chunk.length, input.drop chunk.length⟩,
    { items := input.take chunk.length
      lengthTags := lengthTags
      tags := (tagsInRange tags s.nitemsRead (s.nitemsRead + chunk.length)).map Tag.delayed })

/-- One call. -/
def step (settings : Settings) (tags : List Tag) (s : State) (chunk : List Byte) :
    State × List Output :=
  let (s', out) := work settings tags s chunk
  (s', [out])

end GrSatellites.NanocomGolay
