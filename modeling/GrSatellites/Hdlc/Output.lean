import GrSatellites.Hdlc.RoundTrip

/-!
# What the HDLC deframer publishes

Whatever the stream, the frames are cut from the destuffed bits since the last flag, as many of
the latest as a packet may have.
-/

namespace GrSatellites.Hdlc

open Bits Transducer

/-! ## The bits of a frame -/

/-- The number of ones in a row that were received last. -/
def trailingOnes (received : List Bool) : ℕ := (received.reverse.takeWhile (· = true)).length

/-- The destuffed bits since the last flag, latest first, of some bits received, latest first. A
zero after five ones is stuffed, and one after more than five ends a flag. -/
def sinceFlagRev : List Bool → List Bool
  | [] => []
  | x :: older =>
    let ones := (older.takeWhile (· = true)).length
    if x = false ∧ ones = 5 then sinceFlagRev older
    else if x = false ∧ 5 < ones then []
    else x :: sinceFlagRev older

/-- The destuffed bits since the last flag. -/
def sinceFlag (received : List Bool) : List Bool := (sinceFlagRev received.reverse).reverse

/-- The latest of some bits, a number of them at most. -/
def latest (n : ℕ) (bits : List Bool) : List Bool := bits.drop (bits.length - n)

/-- Zeros on the left up to whole bytes. -/
def padLeft (bits : List Bool) : List Bool :=
  List.replicate ((8 - bits.length % 8) % 8) false ++ bits

/-- The bits of the frame that a flag ends after some bits, for a bound of the packet: the
destuffed bits without the seven of the flag, as many of the latest as fit. -/
def frameBits (maxLength : ℕ) (received : List Bool) : List Bool :=
  padLeft (latest ((maxLength + 2) * 8) ((sinceFlag received).rdrop 7))

/-- What was received before each zero that ends a flag, in order. -/
def flagEnds (stream : List Bool) : List (List Bool) :=
  ((List.range stream.length).filter fun i =>
    stream.getD i true = false ∧ 6 ≤ trailingOnes (stream.take i)).map stream.take

/-! ## One more bit -/

theorem trailingOnes_append (received : List Bool) (x : Bool) :
    trailingOnes (received ++ [x]) = if x then trailingOnes received + 1 else 0 := by
  cases x <;> simp [trailingOnes]

theorem sinceFlag_append (received : List Bool) (x : Bool) :
    sinceFlag (received ++ [x]) =
      if x = false ∧ trailingOnes received = 5 then sinceFlag received
      else if x = false ∧ 5 < trailingOnes received then []
      else sinceFlag received ++ [x] := by
  rw [sinceFlag, List.reverse_append, List.reverse_singleton, List.singleton_append, sinceFlagRev,
    ← trailingOnes]
  split_ifs <;> simp [sinceFlag]

theorem flagEnds_append (received : List Bool) (x : Bool) :
    flagEnds (received ++ [x]) =
      flagEnds received ++ if x = false ∧ 6 ≤ trailingOnes received then [received] else [] := by
  have hearlier : ((List.range received.length).filter fun i =>
      (received ++ [x]).getD i true = false ∧ 6 ≤ trailingOnes ((received ++ [x]).take i)).map
        (received ++ [x]).take = flagEnds received := by
    rw [flagEnds, List.filter_congr fun i hi => ?_]
    · apply List.map_congr_left
      intro i hi
      have hlt := List.mem_range.mp (List.mem_filter.mp hi).1
      rw [List.take_append_of_le_length hlt.le]
    · have hlt := List.mem_range.mp hi
      rw [List.take_append_of_le_length hlt.le, List.getD_append _ _ _ _ hlt]
  rw [flagEnds, List.length_append, List.length_singleton, List.range_succ, List.filter_append,
    List.map_append, hearlier, List.filter_singleton, List.take_left,
    List.getD_append_right _ _ _ _ le_rfl, Nat.sub_self, List.getD_cons_zero]
  congr 1
  split_ifs with h
  · rw [decide_eq_true h, cond_true, List.map_singleton, List.take_left]
  · rw [decide_eq_false h, cond_false, List.map_nil]

theorem latest_append (n : ℕ) (bits : List Bool) (x : Bool) :
    latest n (bits ++ [x]) = (latest n bits ++ [x]).drop ((latest n bits).length + 1 - n) := by
  rw [latest, latest, List.length_append, List.length_singleton, List.length_drop]
  rcases Nat.lt_or_ge bits.length n with hlt | hle
  · rw [Nat.sub_eq_zero_of_le hlt.le, Nat.sub_eq_zero_of_le (by omega),
      Nat.sub_eq_zero_of_le (by omega), List.drop_zero, List.drop_zero, List.drop_zero]
  · have hdrop : bits.length + 1 - n = (bits.length - n) + 1 := by omega
    have hrest : bits.length - (bits.length - n) + 1 - n = 1 := by omega
    rw [hdrop, hrest, ← List.drop_drop, List.drop_append_of_le_length (by omega)]

theorem length_latest_le (n : ℕ) (bits : List Bool) : (latest n bits).length ≤ n := by
  rw [latest, List.length_drop]
  omega

/-- The seven bits of the flag are the latest ones. -/
theorem rdrop_latest (n : ℕ) (bits : List Bool) :
    (latest (n + 7) bits).take ((latest (n + 7) bits).length - min 7 (latest (n + 7) bits).length) =
      latest n (bits.rdrop 7) := by
  have hmin (l : ℕ) : l - min 7 l = l - 7 := by omega
  rw [hmin, latest, latest, List.rdrop, List.length_drop, List.length_take,
    min_eq_left (Nat.sub_le _ _), List.drop_take]
  congr 1
  · omega
  · congr 1
    omega

/-! ## Frames -/

theorem lsbBits_packByte {bits : List Bool} (hbits : bits.length = 8) :
    lsbBits (packByte bits) = bits := by
  match bits, hbits with
  | [b0, b1, b2, b3, b4, b5, b6, b7], _ =>
    revert b0 b1 b2 b3 b4 b5 b6 b7
    decide

theorem length_padLeft (bits : List Bool) : (padLeft bits).length = (bits.length + 7) / 8 * 8 := by
  rw [padLeft, List.length_append, List.length_replicate]
  omega

namespace Deframer

variable (d : Deframer)

/-- The bits of the frame that a flag ends. -/
theorem takeFrame_latest (bits : List Bool) :
    (d.takeFrame (latest d.maxlen bits)).flatMap lsbBits =
      padLeft (latest ((d.maxLength + 2) * 8) (bits.rdrop 7)) := by
  have hle := length_latest_le ((d.maxLength + 2) * 8) (bits.rdrop 7)
  rw [takeFrame, maxlen, rdrop_latest]
  generalize latest ((d.maxLength + 2) * 8) (bits.rdrop 7) = frame at hle
  have hpad : (if frame.length % 8 ≠ 0 then d.extendLeft frame (8 - frame.length % 8) else frame) =
      padLeft frame := by
    rw [padLeft]
    split_ifs with hmod
    · have hzeros : (8 - frame.length % 8) % 8 = 8 - frame.length % 8 := by omega
      rw [extendLeft, maxlen, hzeros, List.take_of_length_le]
      rw [List.length_append, List.length_replicate]
      omega
    · have hzeros : (8 - frame.length % 8) % 8 = 0 := by omega
      rw [hzeros, List.replicate_zero, List.nil_append]
  simp only [hpad]
  exact flatMap_packWith packByte (fun _ => lsbBits_packByte) (length_padLeft frame)

/-- The state after some bits. -/
def stateAfter (received : List Bool) : DeframerState :=
  ⟨latest d.maxlen (sinceFlag received), trailingOnes received⟩

/-- What is published for a frame. -/
def publish (frame : List Byte) : List (List Byte) :=
  if !frame.isEmpty && (!d.checkFcs || d.fcsOk frame) then [frame.take (frame.length - 2)] else []

/-- **One bit.** The state and the frame of a flag that ends. -/
theorem step_stateAfter (received : List Bool) (x : Bool) :
    d.step (d.stateAfter received) x =
      (d.stateAfter (received ++ [x]),
        if x = false ∧ 6 ≤ trailingOnes received then
          d.publish (d.takeFrame (latest d.maxlen (sinceFlag received)))
        else []) := by
  rw [stateAfter, stateAfter, sinceFlag_append, trailingOnes_append]
  cases x with
  | true => simp [step, latest_append, append]
  | false =>
    rcases Nat.lt_trichotomy (trailingOnes received) 5 with hlt | heq | hgt
    · have hne : trailingOnes received ≠ 5 := hlt.ne
      simp [step, latest_append, append, hne, hlt.le.not_gt, Nat.not_le.mpr (hlt.trans_le (by omega : 5 ≤ 6))]
    · simp [step, heq]
    · have hne : trailingOnes received ≠ 5 := hgt.ne'
      simp [step, hne, hgt, publish, latest, Nat.succ_le_of_lt hgt]

theorem run_stateAfter (received : List Bool) :
    run d.step .init received =
      (d.stateAfter received, (flagEnds received).flatMap fun before =>
        d.publish (d.takeFrame (latest d.maxlen (sinceFlag before)))) := by
  induction received using List.reverseRecOn with
  | nil =>
    rw [run_nil, stateAfter, sinceFlag, List.reverse_nil, sinceFlagRev, List.reverse_nil, latest,
      List.drop_nil]
    rfl
  | append_singleton received x ih =>
    rw [run_append, ih, run_singleton, step_stateAfter, flagEnds_append, List.flatMap_append]
    congr 2
    split_ifs <;> simp

/-! ## The output -/

theorem length_publish_le {frame pdu : List Byte} (hpdu : pdu ∈ d.publish frame) :
    pdu.length = frame.length - 2 := by
  rw [publish] at hpdu
  split_ifs at hpdu
  · rw [List.mem_singleton.mp hpdu, List.length_take, min_eq_left (Nat.sub_le _ 2)]
  · cases hpdu

end Deframer

/-- The last two bytes of a frame of three or more are the FCS of the bytes before. -/
def HasFcs (frame : List Byte) : Prop :=
  3 ≤ frame.length ∧ frame = appendFcs (frame.take (frame.length - 2))

instance (frame : List Byte) : Decidable (HasFcs frame) := inferInstanceAs (Decidable (_ ∧ _))

theorem fcsOk_iff {frame : List Byte} : fcsOk frame = true ↔ HasFcs frame := by
  rw [fcsOk, HasFcs]
  split_ifs with hshort
  · simp only [false_iff]
    omega
  · have hdrop : frame.drop (frame.length - 2) =
        [frame[frame.length - 2], frame[frame.length - 1]] := by
      rw [List.drop_eq_getElem_cons (by omega), List.drop_eq_getElem_cons (by omega),
        List.drop_eq_nil_of_le (by omega)]
      simp only [show frame.length - 2 + 1 = frame.length - 1 by omega]
    have hsplit := List.take_append_drop (frame.length - 2) frame
    rw [hdrop] at hsplit
    rw [and_iff_right (by omega : 3 ≤ frame.length), appendFcs]
    conv_rhs => lhs; rw [← hsplit]
    rw [List.append_cancel_left_eq, List.getElem?_eq_getElem (by omega),
      List.getElem?_eq_getElem (by omega)]
    simp

/-- **Output.** The frame that a flag ends is made of the latest destuffed bits before it. What is
published is cut from these frames and fits the bound; with `check_fcs` it is cut from every
frame with the right FCS and from no other. -/
theorem output_characterised (d : Deframer) (chunks : List (List Bool)) :
    ∃ frames : List (List Byte),
      List.Forall₂ (fun before frame => frame.flatMap lsbBits = frameBits d.maxLength before)
        (flagEnds chunks.flatten) frames ∧
      (run d.work .init chunks).2 = frames.flatMap d.publish ∧
      (∀ pdu ∈ frames.flatMap d.publish, pdu.length ≤ d.maxLength) ∧
      (∀ frame ∈ frames, ∀ pdu ∈ d.publish frame, pdu = frame.take (frame.length - 2)) ∧
      (d.checkFcs = true → d.fcsOk = Hdlc.fcsOk → ∀ frame ∈ frames,
        d.publish frame = if HasFcs frame then [frame.take (frame.length - 2)] else []) := by
  have hbits (before : List Bool) :
      (d.takeFrame (latest d.maxlen (sinceFlag before))).flatMap lsbBits =
        frameBits d.maxLength before := d.takeFrame_latest _
  refine ⟨(flagEnds chunks.flatten).map fun before =>
    d.takeFrame (latest d.maxlen (sinceFlag before)), ?_, ?_, ?_, ?_, ?_⟩
  · rw [List.forall₂_map_right_iff]
    exact List.forall₂_same.mpr fun before _ => hbits before
  · have hwork : d.work = run d.step := rfl
    rw [hwork, run_chunks, d.run_stateAfter, List.flatMap_map]
  · intro pdu hpdu
    obtain ⟨frame, hframe, hpdu⟩ := List.mem_flatMap.mp hpdu
    obtain ⟨before, -, rfl⟩ := List.mem_map.mp hframe
    have hlength := congrArg List.length (hbits before)
    rw [length_flatMap_eight length_lsbBits, frameBits, length_padLeft] at hlength
    have hlatest := length_latest_le ((d.maxLength + 2) * 8) ((sinceFlag before).rdrop 7)
    rw [d.length_publish_le hpdu]
    omega
  · intro frame _ pdu hpdu
    rw [Deframer.publish] at hpdu
    split_ifs at hpdu
    · exact List.mem_singleton.mp hpdu
    · cases hpdu
  · intro hcheck hfcs frame _
    rw [Deframer.publish, hcheck, hfcs]
    simp only [Bool.not_true, Bool.false_or, Bool.and_eq_true, fcsOk_iff]
    refine if_congr (and_iff_right_of_imp fun h => ?_) rfl rfl
    have := h.1
    cases frame with
    | nil => cases this
    | cons => rfl

end GrSatellites.Hdlc
