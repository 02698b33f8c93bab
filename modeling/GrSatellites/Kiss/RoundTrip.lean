import GrSatellites.Kiss.Model

/-!
# From PDUs to KISS and back

Escaping is undone byte by byte, so that a frame between two FENDs gives back its bytes.
A timestamp frame has a control byte that is not zero and is dropped.
-/

namespace GrSatellites.Kiss

open Transducer

variable {controlByte : Bool}

theorem kissEscape_cons (x : Byte) (a : List Byte) :
    kissEscape (x :: a) =
      (if x = fesc then [fesc, tfesc] else if x = fend then [fesc, tfend] else [x]) ++
        kissEscape a := List.flatMap_cons

/-- **Unescaping.** The escaped form of some bytes appends these bytes. -/
theorem run_kissEscape (a pdu : List Byte) :
    run (kissToPdu controlByte) ⟨pdu, false⟩ (kissEscape a) = (⟨pdu ++ a, false⟩, []) := by
  induction a generalizing pdu with
  | nil => simp [kissEscape]
  | cons x a ih =>
    have hone : run (kissToPdu controlByte) ⟨pdu, false⟩
        (if x = fesc then [fesc, tfesc] else if x = fend then [fesc, tfend] else [x]) =
          (⟨pdu ++ [x], false⟩, []) := by
      by_cases hfesc : x = fesc
      · rw [if_pos hfesc, hfesc]
        rfl
      · by_cases hfend : x = fend
        · rw [if_neg hfesc, if_pos hfend, hfend]
          rfl
        · rw [if_neg hfesc, if_neg hfend, run_singleton, kissToPdu, if_neg hfend, if_neg hfesc]
          rfl
    rw [kissEscape_cons, run_append, hone, ih, List.append_assoc]
    rfl

/-- **One frame.** Between packets, a frame publishes what its second FEND does. -/
theorem run_frame (body : List Byte) :
    run (kissToPdu controlByte) .init ([fend] ++ kissEscape body ++ [fend]) =
      (.init, endOfPacket controlByte body) := by
  have hstart : kissToPdu controlByte .init fend = (.init, []) := rfl
  have hend : kissToPdu controlByte ⟨body, false⟩ fend =
      (.init, endOfPacket controlByte body) := rfl
  have hbody : run (kissToPdu controlByte) .init (kissEscape body) = (⟨body, false⟩, []) :=
    run_kissEscape body []
  rw [run_append, run_append, run_singleton, run_singleton, hstart, hbody, hend]
  rfl

theorem kissEscape_control (pdu : List Byte) : [0] ++ kissEscape pdu = kissEscape (0 :: pdu) := rfl

/-- The frame of a PDU gives the PDU back, when it is not empty or there is a control byte. -/
theorem run_pduFrame (pdu : List Byte) (hpdu : controlByte = false → pdu ≠ []) :
    run (kissToPdu controlByte) .init
        ([fend] ++ (if controlByte then [0] else []) ++ kissEscape pdu ++ [fend]) =
      (.init, [pdu]) := by
  cases controlByte with
  | true =>
    rw [if_pos rfl, List.append_assoc [fend], kissEscape_control, run_frame]
    rfl
  | false =>
    obtain ⟨first, rest, rfl⟩ := List.exists_cons_of_ne_nil (hpdu rfl)
    rw [if_neg Bool.false_ne_true, List.append_nil, run_frame]
    rfl

/-- One PDU, with or without a timestamp before it. -/
theorem run_handleMsg (p : PduToKiss) (now : ℤ) (pdu : List Byte)
    (hcontrol : p.controlByte = false → pdu ≠ [] ∧ p.includeTimestamp = false)
    (hclock : p.includeTimestamp = true → 0 ≤ now ∧ now < 2 ^ 64) :
    run (kissToPdu p.controlByte) .init (p.handleMsg now (.u8vector ⟨(), pdu⟩)).flatten =
      (.init, [pdu]) := by
  have hframe := run_pduFrame pdu fun h => (hcontrol h).1
  unfold PduToKiss.handleMsg
  simp only
  by_cases htimestamp : p.includeTimestamp = true
  · have hone : p.controlByte = true := by
      by_contra hno
      rw [(hcontrol (Bool.not_eq_true _ ▸ hno)).2] at htimestamp
      cases htimestamp
    rw [if_pos htimestamp, PduToKiss.createTimestamp, if_pos (hclock htimestamp)]
    simp only [List.flatten_cons, List.flatten_nil, List.append_nil]
    rw [run_append, run_frame, hframe, hone]
    rfl
  · rw [if_neg htimestamp, List.flatten_singleton, hframe]

/-- **Round trip.** With a control byte on both sides, or on neither side for PDUs that are not
empty and without timestamps, the byte strings published, cut into calls in any way, give back
the PDUs, each once and in order, if the clock is never before the epoch. -/
theorem kissToPdu_of_pduToKiss (p : PduToKiss) (pdus : List (ℤ × List Byte))
    (hcontrol : p.controlByte = false →
      p.includeTimestamp = false ∧ ∀ x ∈ pdus, x.2 ≠ [])
    (hclock : p.includeTimestamp = true → ∀ x ∈ pdus, 0 ≤ x.1 ∧ x.1 < 2 ^ 64)
    (chunks : List (List Byte)) (hchunks : chunks.flatten = (p.handleAll pdus).flatten) :
    (run (run (kissToPdu p.controlByte)) .init chunks).2 = pdus.map Prod.snd := by
  have hall : run (kissToPdu p.controlByte) .init (p.handleAll pdus).flatten =
      (.init, pdus.map Prod.snd) := by
    clear hchunks
    induction pdus with
    | nil => rfl
    | cons x pdus ih =>
      obtain ⟨now, pdu⟩ := x
      have hone := run_handleMsg p now pdu
        (fun h => ⟨(hcontrol h).2 _ List.mem_cons_self, (hcontrol h).1⟩)
        (fun h => hclock h _ List.mem_cons_self)
      have hmore := ih
        (fun h => ⟨(hcontrol h).1, fun y hy => (hcontrol h).2 y (List.mem_cons_of_mem _ hy)⟩)
        (fun h y hy => hclock h y (List.mem_cons_of_mem _ hy))
      have hsplit : (p.handleAll ((now, pdu) :: pdus)).flatten =
          (p.handleMsg now (.u8vector ⟨(), pdu⟩)).flatten ++ (p.handleAll pdus).flatten :=
        List.flatten_append
      rw [hsplit, run_append, hone]
      simp only
      rw [hmore]
      rfl
  rw [run_chunks, hchunks, hall]

/-- Two PDUs with special bytes and a timestamp before each, in calls of three bytes and the rest. -/
theorem kissToPdu_of_pduToKiss_two_pdus :
    (run (run (kissToPdu true)) .init
      [((⟨true, true⟩ : PduToKiss).handleAll [(5, [0xc0, 0xdb, 0xdc]), (6, [])]).flatten.take 3,
        ((⟨true, true⟩ : PduToKiss).handleAll [(5, [0xc0, 0xdb, 0xdc]), (6, [])]).flatten.drop 3]).2 =
      [[0xc0, 0xdb, 0xdc], []] :=
  kissToPdu_of_pduToKiss ⟨true, true⟩ [(5, [0xc0, 0xdb, 0xdc]), (6, [])] nofun (by decide) _ (by simp)

/-- Before the epoch, the number of milliseconds has no unsigned form, and the PDU is lost. -/
theorem kissToPdu_of_pduToKiss_before_epoch :
    ¬ ∀ (p : PduToKiss) (pdus : List (ℤ × List Byte)),
      (p.controlByte = false → p.includeTimestamp = false ∧ ∀ x ∈ pdus, x.2 ≠ []) →
        ∀ chunks : List (List Byte), chunks.flatten = (p.handleAll pdus).flatten →
          (run (run (kissToPdu p.controlByte)) .init chunks).2 = pdus.map Prod.snd := by
  intro h
  have hlost := h ⟨true, true⟩ [(-1, [1])] nofun [] rfl
  cases hlost

end GrSatellites.Kiss
