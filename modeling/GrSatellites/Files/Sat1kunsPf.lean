import GrSatellites.Files.Sequential
import GrSatellites.Library.Endian

/-!
# Images of 1KUNS-PF

The class `ImageReceiver1KUNSPF` of `python/filereceiver/sat_1kuns_pf.py`. A chunk has a length of
138 bytes and a number in two bytes. Nothing says which chunk is the last one of an image.
-/

namespace GrSatellites.Files.Sat1kunsPf

open Endian Routine SequenceChunk

variable {P : Type}

/-- `chunk_sequence`. -/
def chunkSequence (chunk : List Byte) : ℕ := (readBE 16 ((chunk.drop 4).take 2)).toNat

/-- `chunk_data`. -/
def chunkData (chunk : List Byte) : List Byte := (chunk.take (chunk.length - 4)).drop 6

/-- `parse_chunk`. -/
def parseChunk (chunk : List Byte) : Option (List Byte) :=
  if chunk.length ≠ 138 then none else some chunk

/-- The receiver. -/
def receiver (lib : Pathlib P) (path : P) : FileReceiver P Unit (List Byte) (List Byte) where
  lib := lib
  path := path
  parseChunk chunk := pure (parseChunk chunk)
  fileId _ := pure none
  chunkSequence chunk := pure (some (chunkSequence chunk : ℤ))
  chunkOffset := defaultChunkOffset (pure none) (fun chunk => pure (some (chunkSequence chunk : ℤ)))
    fun _ => none
  chunkData chunk := pure (chunkData chunk)
  fileChunks _ := pure none
  fileSize _ := pure none
  isLastChunk _ := pure none
  filename fid := pure (fid.toStr ++ ".jpg")
  onCompletion _ := pure ()

/-- A frame with a chunk of an image. -/
structure Frame where
  bytes : List Byte
  length_bytes : bytes.length = 138

/-- What the hooks read from a frame. -/
def Frame.sequenceChunk (f : Frame) : SequenceChunk :=
  ⟨chunkSequence f.bytes, chunkData f.bytes, none⟩

theorem hears (lib : Pathlib P) (path : P) (f : Frame) :
    Hears (receiver lib path) f.bytes () () () () f.sequenceChunk.chunk f.sequenceChunk.isLast where
  parse := by
    refine ⟨f.bytes, ?_, .pure _ _, .pure _ _, .pure _ _, .pure _ _, .pure _ _, ?_, .pure _ _,
      .pure _ _⟩
    · rintro s -
      show exec (pure (parseChunk f.bytes)) s = _
      rw [parseChunk, if_neg (not_not.mpr f.length_bytes), exec_pure]
    · intro s _
      simp [receiver, defaultChunkOffset, Frame.sequenceChunk, SequenceChunk.chunk]
  filename fid := ⟨_, rfl⟩
  onCompletion _ := rfl

theorem hearsAll (lib : Pathlib P) (path : P) (frames : List Frame) :
    HearsAll (receiver lib path) () (frames.map fun f => (f.bytes, f.sequenceChunk)) () := by
  induction frames with
  | nil => exact .nil ()
  | cons f frames ih => exact .cons (hears lib path f) ih

/-- The frames received of an image: the first one, and some of the others in order. -/
structure IsImage (image : List Frame) : Prop where
  first : ∃ f ∈ image.head?, chunkSequence f.bytes = 0
  increasing : image.Pairwise fun f g => chunkSequence f.bytes < chunkSequence g.bytes

theorem IsImage.isSequence {image : List Frame} (himage : IsImage image) :
    IsSequence (image.map Frame.sequenceChunk) := by
  obtain ⟨f, hf, hzero⟩ := himage.first
  refine ⟨⟨f.sequenceChunk, ?_, hzero, by simp [Frame.sequenceChunk]⟩, ?_, fun c hc => ?_⟩
  · rw [List.head?_map, hf]
    rfl
  · exact List.pairwise_map.mpr himage.increasing
  · obtain ⟨g, -, rfl⟩ := List.mem_map.mp (List.mem_of_mem_dropLast hc)
    simp [Frame.sequenceChunk]

theorem length_frame (number byte : Byte) :
    (List.replicate 5 0 ++ number :: List.replicate 132 byte).length = 138 := by simp

/-- A frame with the given number. -/
def frame (number byte : Byte) : Frame :=
  ⟨List.replicate 5 0 ++ number :: List.replicate 132 byte, length_frame number byte⟩

end GrSatellites.Files.Sat1kunsPf
