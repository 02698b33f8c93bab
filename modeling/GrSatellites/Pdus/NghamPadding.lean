import GrSatellites.Basic
import GrSatellites.Library.Segmentation

/-!
# The padding of NGHam packets

The block of `python/ngham_remove_padding.py`. A packet comes with its Reed-Solomon parity or
without it, which the block tells from the length alone.
-/

namespace GrSatellites.Ngham

open Segmentation

variable {M : Type}

/-- `ngham_rs_sizes`. -/
def nghamRsSizes : List ℕ := [47, 79, 111, 159, 191, 223, 255]

/-- `ngham_non_rs_sizes`. -/
def nghamNonRsSizes : List ℕ :=
  [47 - 16, 79 - 16, 111 - 16, 159 - 32, 191 - 32, 223 - 32, 255 - 32]

/-- The parity is taken off a packet that has the length of one with parity. -/
def stripParity (packet : List Byte) : List Byte :=
  match nghamRsSizes.idxOf? packet.length with
  | some sizeIdx => packet.take (nghamNonRsSizes.getD sizeIdx 0)
  | none => packet

/-- `packet[0] & 0x1f`, where the packet is not empty. -/
def padding (packet : List Byte) : ℕ := (packet.headD 0).toNat &&& 0x1f

/-- `handle_msg`: the PDU published, if any. -/
def nghamRemovePadding : Msg M → Option (Pdu M)
  | .other _ => none
  | .u8vector ⟨car, packet⟩ =>
    let packet := stripParity packet
    if packet.length ∉ nghamNonRsSizes then none
    else some ⟨car, sliceTo packet (-(padding packet : ℤ))⟩

/-- A frame: some content whose first byte says how much filler comes after it, up to the size
of its class, and the parity. -/
structure Frame where
  index : Fin 7
  content : List Byte
  filler : List Byte
  parity : List Byte
  content_ne_nil : content ≠ []
  padding_content : padding content = filler.length
  length_data : content.length + filler.length = nghamNonRsSizes[index]
  length_parity : nghamNonRsSizes[index] + parity.length = nghamRsSizes[index]

namespace Frame

/-- The data of a frame, without the parity. -/
def data (frame : Frame) : List Byte := frame.content ++ frame.filler

/-- The content of a frame is recovered with the parity and without it. -/
def Recovered (frame : Frame) (car : M) : Prop :=
  nghamRemovePadding (.u8vector ⟨car, frame.data ++ frame.parity⟩) = some ⟨car, frame.content⟩ ∧
    nghamRemovePadding (.u8vector ⟨car, frame.data⟩) = some ⟨car, frame.content⟩

end Frame

/-! ## Sizes -/

/-- The class of a packet with parity. -/
theorem idxOf_rsSizes (i : Fin 7) : nghamRsSizes.idxOf? nghamRsSizes[i] = some i.val := by
  revert i
  decide

/-- Three sizes without parity are also sizes with parity, those of the class before. -/
theorem idxOf_nonRsSizes (i : Fin 7) : nghamRsSizes.idxOf? nghamNonRsSizes[i] =
    if i.val < 4 then none else some (i.val - 1) := by
  revert i
  decide

theorem getD_nonRsSizes (i : Fin 7) : nghamNonRsSizes.getD i.val 0 = nghamNonRsSizes[i] := by
  revert i
  decide

theorem nonRsSizes_lt (i : Fin 7) (hi : 4 ≤ i.val) :
    nghamNonRsSizes.getD (i.val - 1) 0 + 32 = nghamNonRsSizes[i] ∧
      nghamNonRsSizes.getD (i.val - 1) 0 ∈ nghamNonRsSizes := by
  revert i
  decide

theorem padding_lt (packet : List Byte) : padding packet < 32 :=
  Nat.lt_of_le_of_lt Nat.and_le_right (by decide)

namespace Frame

variable (frame : Frame)

@[simp] theorem length_data' : frame.data.length = nghamNonRsSizes[frame.index] := by
  rw [data, List.length_append, frame.length_data]

theorem padding_append (rest : List Byte) : padding (frame.content ++ rest) = frame.filler.length := by
  rw [← frame.padding_content, padding, padding]
  cases hcontent : frame.content with
  | nil => exact absurd hcontent frame.content_ne_nil
  | cons header content => rfl

/-- What is left of the data once the filler is cut off. -/
theorem sliceTo_data : sliceTo frame.data (-(frame.filler.length : ℤ)) =
    if frame.filler.length = 0 then [] else frame.content := by
  rw [sliceTo]
  by_cases hnone : frame.filler.length = 0
  · rw [if_pos hnone, hnone]
    rfl
  · rw [if_neg hnone, if_pos (by omega), Int.natAbs_neg, Int.natAbs_natCast, data,
      List.length_append, Nat.add_sub_cancel, List.take_left]

/-- The parity is recognised. -/
theorem stripParity_append : stripParity (frame.data ++ frame.parity) = frame.data := by
  have hlength : (frame.data ++ frame.parity).length = nghamRsSizes[frame.index] := by
    rw [List.length_append, length_data', frame.length_parity]
  rw [stripParity, hlength, idxOf_rsSizes]
  simp only
  rw [getD_nonRsSizes, ← length_data', List.take_left]

/-- Data without parity is cut in the last three classes. -/
theorem stripParity_data : stripParity frame.data =
    if frame.index.val < 4 then frame.data
    else frame.data.take (nghamNonRsSizes.getD (frame.index.val - 1) 0) := by
  rw [stripParity, length_data', idxOf_nonRsSizes]
  split_ifs <;> rfl

variable {frame} {car : M}

/-- **With parity.** The content is recovered unless there is no filler. -/
theorem removePadding_append_iff :
    nghamRemovePadding (.u8vector ⟨car, frame.data ++ frame.parity⟩) = some ⟨car, frame.content⟩ ↔
      frame.filler ≠ [] := by
  have hmem : frame.data.length ∈ nghamNonRsSizes := by
    rw [length_data']
    exact List.getElem_mem _
  have hpadding : padding frame.data = frame.filler.length := frame.padding_append _
  rw [nghamRemovePadding, stripParity_append, if_neg (not_not.mpr hmem), hpadding, sliceTo_data, Option.some_inj, Pdu.mk.injEq]
  split
  case isTrue hnone =>
    refine iff_of_false ?_ (by simpa using List.length_eq_zero_iff.mp hnone)
    rintro ⟨-, hcontent⟩
    exact frame.content_ne_nil hcontent.symm
  case isFalse hsome =>
    exact iff_of_true ⟨rfl, rfl⟩ fun hnil => hsome (by rw [hnil, List.length_nil])

/-- **Without parity.** The content is recovered in the first four classes, unless there is no
filler. -/
theorem removePadding_data_iff :
    nghamRemovePadding (.u8vector ⟨car, frame.data⟩) = some ⟨car, frame.content⟩ ↔
      frame.filler ≠ [] ∧ frame.index.val < 4 := by
  by_cases hclass : frame.index.val < 4
  · have hstrip : stripParity frame.data = stripParity (frame.data ++ frame.parity) := by
      rw [stripParity_append, stripParity_data, if_pos hclass]
    have hsame : nghamRemovePadding (.u8vector ⟨car, frame.data⟩) =
        nghamRemovePadding (.u8vector ⟨car, frame.data ++ frame.parity⟩) := by
      rw [nghamRemovePadding, nghamRemovePadding, hstrip]
    rw [hsame, removePadding_append_iff, and_iff_left hclass]
  · obtain ⟨hsize, hmem⟩ := nonRsSizes_lt frame.index (Nat.not_lt.mp hclass)
    -- what is published is shorter than the content
    refine iff_of_false ?_ fun h => hclass h.2
    intro hrecovered
    rw [nghamRemovePadding, stripParity_data, if_neg hclass] at hrecovered
    have hlength : (frame.data.take (nghamNonRsSizes.getD (frame.index.val - 1) 0)).length =
        nghamNonRsSizes.getD (frame.index.val - 1) 0 := by
      rw [List.length_take, length_data']
      omega
    have htotal := frame.length_data
    have hlt : frame.filler.length < 32 := frame.padding_content ▸ padding_lt _
    simp only [hlength, not_not.mpr hmem, if_false, Option.some_inj, Pdu.mk.injEq, true_and]
      at hrecovered
    have hshort := congrArg List.length hrecovered
    have hle := length_sliceTo_le (frame.data.take (nghamNonRsSizes.getD (frame.index.val - 1) 0))
      (-(padding (frame.data.take (nghamNonRsSizes.getD (frame.index.val - 1) 0)) : ℤ))
    omega

/-- **Padding.** The content of a frame is recovered with the parity and without it for exactly
the frames with some filler in the first four classes. -/
theorem recovered_iff (frame : Frame) (car : M) :
    frame.Recovered car ↔ frame.filler ≠ [] ∧ frame.index.val < 4 := by
  rw [Recovered, removePadding_append_iff, removePadding_data_iff]
  exact and_iff_right_of_imp And.left

/-- A frame of the smallest class that is full. -/
def full : Frame where
  index := 0
  content := 0xe0 :: List.replicate 30 1
  filler := []
  parity := List.replicate 16 0
  content_ne_nil := by decide
  padding_content := by decide
  length_data := by decide
  length_parity := by decide

/-- Nothing is left of it. -/
theorem not_recovered_full : ¬ ∀ frame : Frame, frame.Recovered () := by
  intro h
  exact removePadding_append_iff.mp (h full).1 rfl

end Frame

end GrSatellites.Ngham
