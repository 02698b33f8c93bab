import GrSatellites.Ccsds.Frames
import GrSatellites.Ccsds.Reconstruction

/-!
# From space packets to frames and back

The receiver takes the block out of each frame, with or without a trailer, and the
blocks are the start of the stream of space packets. So it sends the packets that are
whole in the blocks that it has got.
-/

namespace GrSatellites.Ccsds

open Bits Segmentation

variable {enc : FieldEncoder} {a : PrimaryHeaderAdder}

/-- The frames after the block that appends the operational control field, when there is one. -/
def withOcf (enc : FieldEncoder) (ocf : Option OcfAdder) (frames : List (List Byte)) :
    List (List Byte) :=
  match ocf with
  | none => frames
  | some o => frames.flatMap fun frame => o.handleMsg enc (.u8vector ⟨(), frame⟩)

theorem headerFields_widths (pointer : ℤ) :
    (a.headerFields pointer).map Prod.fst = primaryHeader := rfl

theorem trailerFields_widths (o : OcfAdder) : o.trailerFields.map Prod.fst = ocfTrailer := rfl

theorem sizeof_primaryHeader : sizeof primaryHeader = 6 := rfl

theorem sizeof_ocfTrailer : sizeof ocfTrailer = 4 := rfl

/-- The flag of a header that was built is read back. -/
theorem header_flag {pointer : ℤ} {header : List Byte}
    (hheader : enc.build (a.headerFields pointer) = some header) (rest : List Byte) :
    header.length = 6 ∧ ∃ values, parse primaryHeader (header ++ rest) = some values ∧
      (decide (values[3]? = some 1) = a.ocfFlag) := by
  have hdvd : 8 ∣ ((a.headerFields pointer).map Prod.fst).sum := by
    rw [headerFields_widths]
    decide
  obtain ⟨values, hparse, hread⟩ := enc.parse_build hheader hdvd rest
  have hlength := enc.length_build hheader
  rw [headerFields_widths, sizeof_primaryHeader] at hlength
  refine ⟨hlength, values, hparse, ?_⟩
  unfold PrimaryHeaderAdder.headerFields at hread
  rcases hread with _ | ⟨-, _ | ⟨-, _ | ⟨-, _ | ⟨hflag, -⟩⟩⟩⟩
  unfold flagField ReadsBack at hflag
  cases hocf : a.ocfFlag <;> simp [hocf] at hflag ⊢ <;> omega

/-- **One frame.** The receiver takes the block out of a frame, when the trailer is there
exactly if the header says so. -/
theorem reconstructHandleMsg_frame {frame block trailer : List Byte}
    (hframe : PrimaryHeaderAdder.IsFrame enc a frame block)
    (htrailer : trailer.length = if a.ocfFlag then 4 else 0) (spacePacket : List Byte) :
    reconstructHandleMsg spacePacket (.u8vector ⟨(), frame ++ trailer⟩) =
      reconstructLoop block.length spacePacket block := by
  obtain ⟨-, pointer, header, hheader, rfl⟩ := hframe
  rw [List.append_assoc]
  obtain ⟨hlength, values, hparse, hflag⟩ := header_flag hheader (block ++ trailer)
  have htotal : (header ++ (block ++ trailer)).length =
      6 + block.length + if a.ocfFlag then 4 else 0 := by
    rw [List.length_append, List.length_append, hlength, htrailer]
    omega
  have hsize : ((header ++ (block ++ trailer)).length : ℤ) - 6 - (if a.ocfFlag then 4 else 0) =
      block.length := by
    rw [htotal]
    split <;> push_cast <;> omega
  have hpayload : fullPacketPayload (header ++ (block ++ trailer)) block.length a.ocfFlag =
      some block := by
    have hfits : ¬ ((block.length : ℤ) < 0 ∨ ((header ++ (block ++ trailer)).length : ℤ) <
        6 + block.length + if a.ocfFlag then 4 else 0) := by
      rw [htotal]
      split <;> push_cast <;> omega
    rw [fullPacketPayload, if_neg hfits, Int.toNat_natCast, List.drop_left' hlength,
      List.take_left]
  unfold reconstructHandleMsg
  simp only [hparse, hflag, hsize, hpayload]

/-- The blocks of frames are put together to what has arrived whole. -/
theorem reconstructAll_spec {packets : List (List Byte)}
    (hpackets : ∀ p ∈ packets, ValidSpacePacket p) {frames blocks : List (List Byte)}
    (hframes : List.Forall₂ (fun frame block => ∀ spacePacket,
      reconstructHandleMsg spacePacket (.u8vector ⟨(), frame⟩) =
        reconstructLoop block.length spacePacket block) frames blocks)
    {n : ℕ} (hblocks : blocks.flatten <+: packets.flatten.drop n) :
    ∃ sent, reconstructAll (partialPiece packets n) frames =
        some (partialPiece packets (n + blocks.flatten.length), sent) ∧
      wholePieces packets n ++ sent = wholePieces packets (n + blocks.flatten.length) := by
  induction hframes generalizing n with
  | nil => exact ⟨[], rfl, by simp⟩
  | @cons frame block frames blocks hframe hframes ih =>
    rw [List.flatten_cons] at hblocks
    have hblock : (packets.flatten.drop n).take block.length = block := by
      obtain ⟨rest, hrest⟩ := hblocks
      rw [← hrest, List.append_assoc, List.take_left]
    have hrest : blocks.flatten <+: packets.flatten.drop (n + block.length) := by
      obtain ⟨rest, hrest⟩ := hblocks
      refine ⟨rest, ?_⟩
      rw [← List.drop_drop, ← hrest, List.append_assoc, List.drop_left]
    have hrounds : ((packets.flatten.drop n).take block.length).length ≤ block.length := by
      rw [hblock]
    obtain ⟨sent, hloop, hsent⟩ := reconstructLoop_spec hpackets block.length n block.length hrounds
    obtain ⟨more, hmore, hlast⟩ := ih hrest
    have hsum : n + block.length + blocks.flatten.length = n + (block :: blocks).flatten.length := by
      rw [List.flatten_cons, List.length_append]
      omega
    rw [hblock] at hloop
    rw [hsum] at hmore hlast
    refine ⟨sent ++ more, ?_, ?_⟩
    · rw [reconstructAll, hframe, hloop]
      simp only [Option.bind_eq_bind, Option.bind_some, hmore, Option.pure_def]
    · rw [← List.append_assoc, hsent, hlast]

/-- With or without the operational control field, nothing comes out, or each frame with
the trailer that its header announces. -/
theorem withOcf_spec (enc : FieldEncoder) {ocf : Option OcfAdder} (hocf : a.ocfFlag = ocf.isSome)
    (frames : List (List Byte)) :
    withOcf enc ocf frames = [] ∨
      ∃ trailer : List Byte, trailer.length = (if a.ocfFlag then 4 else 0) ∧
        withOcf enc ocf frames = frames.map (· ++ trailer) := by
  cases ocf with
  | none => exact .inr ⟨[], by simp [hocf], by simp [withOcf]⟩
  | some o =>
    cases htrailer : enc.build o.trailerFields with
    | none => exact .inl (by simp [withOcf, OcfAdder.handleMsg, htrailer])
    | some trailer =>
      refine .inr ⟨trailer, ?_, ?_⟩
      · have hlength := enc.length_build htrailer
        rw [trailerFields_widths, sizeof_ocfTrailer] at hlength
        rw [hlength, hocf]
        rfl
      · simp only [withOcf, OcfAdder.handleMsg, htrailer]
        exact List.map_eq_flatMap.symm

/-- The data field of a frame, which comes after the header. -/
def PrimaryHeaderAdder.frameData (a : PrimaryHeaderAdder) (frame : List Byte) : List Byte :=
  (frame.drop 6).take a.size.toNat

theorem frameData_append {frame block : List Byte} (hframe : PrimaryHeaderAdder.IsFrame enc a frame block)
    (trailer : List Byte) : a.frameData (frame ++ trailer) = block := by
  obtain ⟨hlength, pointer, header, hheader, rfl⟩ := hframe
  have hblock : a.size.toNat = block.length := by omega
  rw [PrimaryHeaderAdder.frameData, List.append_assoc,
    List.drop_left' (header_flag hheader []).1, hblock, List.take_left]

/-- The data fields of the frames, with their trailers, are the blocks. -/
theorem flatMap_frameData {frames blocks : List (List Byte)}
    (hframes : List.Forall₂ (PrimaryHeaderAdder.IsFrame enc a) frames blocks) (trailer : List Byte) :
    (frames.map (· ++ trailer)).flatMap a.frameData = blocks.flatten := by
  induction hframes with
  | nil => rfl
  | cons hframe hframes ih =>
    rw [List.map_cons, List.flatMap_cons, frameData_append hframe, ih, List.flatten_cons]

theorem length_flatten_blocks {frames blocks : List (List Byte)}
    (hframes : List.Forall₂ (PrimaryHeaderAdder.IsFrame enc a) frames blocks) :
    blocks.flatten.length = frames.length * a.size.toNat := by
  induction hframes with
  | nil => simp
  | cons hframe hframes ih =>
    have hblock := hframe.1
    rw [List.flatten_cons, List.length_append, ih, List.length_cons, Nat.succ_mul]
    omega

end GrSatellites.Ccsds
