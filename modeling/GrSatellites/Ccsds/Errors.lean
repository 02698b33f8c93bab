import GrSatellites.Ccsds.Reconstruction

/-!
# Frames that cannot be parsed

`telemetry_packet_reconstruction` guards the parsing of the header by a `try` block, and parses
the rest of the frame after it. The packet so far changes only while a frame is read that can be
parsed as a whole.
-/

namespace GrSatellites.Ccsds

open Bits Segmentation

/-- `telemetry_packet_reconstruction.handle_msg`, when its loop ends and no parsing in the loop
raises: the space packet so far, the packets sent, and whether parsing the frame raised. -/
def reconstructOutcome {M : Type} (spacePacket : List Byte) :
    Msg M → Option (List Byte × List (List Byte) × Bool)
  | .other _ => some (spacePacket, [], false)
  | .u8vector pdu =>
    let packet := pdu.cdr
    match parse primaryHeader packet with
    | none => some (spacePacket, [], false)
    | some header =>
      let trailer : Bool := header[3]? = some 1
      let size : ℤ := packet.length - 6 - (if trailer then 4 else 0)
      match fullPacketPayload packet size trailer with
      | none => some (spacePacket, [], true)
      | some payload => do
        let (spacePacket, sent) ← reconstructLoop payload.length spacePacket payload
        return (spacePacket, sent, false)

/-- Apart from the exception, this is the handler of the round trip. -/
theorem reconstructHandleMsg_eq {M : Type} (spacePacket : List Byte) (msg : Msg M) :
    reconstructHandleMsg spacePacket msg =
      (reconstructOutcome spacePacket msg).map fun (spacePacket, sent, _) => (spacePacket, sent) := by
  cases msg with
  | other => rfl
  | u8vector pdu =>
    rw [reconstructHandleMsg, reconstructOutcome]
    cases parse primaryHeader pdu.cdr with
    | none => rfl
    | some header =>
      simp only
      cases fullPacketPayload pdu.cdr _ _ with
      | none => rfl
      | some payload =>
        simp only
        cases reconstructLoop payload.length spacePacket payload <;> rfl

/-- The states that the block gets to: an exception ends the handling of a message. -/
inductive Reachable (M : Type) : List Byte → Prop
  | init : Reachable M []
  | step {spacePacket spacePacket' sent raised} {msg : Msg M} (h : Reachable M spacePacket)
      (hmsg : reconstructOutcome spacePacket msg = some (spacePacket', sent, raised)) :
      Reachable M spacePacket'

/-- A packet so far: its header is not whole, or bytes are missing. -/
def Incomplete (spacePacket : List Byte) : Prop :=
  spacePacket.length < 6 ∨ ∃ length, dataLength spacePacket = some length ∧ spacePacket.length < 6 + length

/-! ## The loop -/

theorem length_splitFields (widths : List ℕ) (bits : List Bool) :
    (splitFields widths bits).length = widths.length := by
  induction widths generalizing bits with
  | nil => rfl
  | cons w widths ih => rw [splitFields, List.length_cons, ih, List.length_cons]

theorem exists_dataLength {spacePacket : List Byte} (h : 6 ≤ spacePacket.length) :
    ∃ length, dataLength spacePacket = some length := by
  have hsize : sizeof spacePacketHeader = 6 := rfl
  have hfields : 6 < (splitFields spacePacketHeader
      (unpackMsb (spacePacket.take (sizeof spacePacketHeader)))).length := by
    rw [length_splitFields]
    decide
  rw [dataLength, parse, hsize, if_neg (by omega)]
  exact ⟨_, List.getElem?_eq_getElem (by simpa only [hsize] using hfields)⟩

/-- A whole header says how many bytes are taken. -/
theorem reconstructBody_incomplete {spacePacket : List Byte} (payload : List Byte) {length : ℕ}
    (hsix : 6 ≤ spacePacket.length) (hlength : dataLength spacePacket = some length)
    (hle : spacePacket.length ≤ 6 + length) :
    ∃ spacePacket' sent, reconstructBody spacePacket payload =
        some (spacePacket', payload.drop (6 + length - spacePacket.length), sent) ∧
      Incomplete spacePacket' := by
  have hleft : (length : ℤ) + 6 - spacePacket.length = (6 + length - spacePacket.length : ℕ) := by
    omega
  rw [reconstructBody, hlength, Option.bind_eq_bind, Option.bind_some]
  simp only [hleft, sliceTo_natCast, sliceFrom_natCast]
  split_ifs with hfull
  · exact ⟨[], _, rfl, Or.inl (by simp)⟩
  · refine ⟨_, [], rfl, Or.inr ⟨length, ?_, ?_⟩⟩
    · rw [← hlength]
      exact dataLength_congr (by rw [List.length_append]; omega) hsix
        (List.take_append_of_le_length hsix)
    · rw [List.length_append, List.length_take] at hfull ⊢
      omega

/-- One round takes bytes off the payload and leaves an incomplete packet. -/
theorem reconstructRound_incomplete {spacePacket payload : List Byte} (h : Incomplete spacePacket)
    (hne : payload ≠ []) :
    ∃ spacePacket' payload' sent, reconstructRound spacePacket payload =
        some (spacePacket', payload', sent) ∧ payload'.length < payload.length ∧
      Incomplete spacePacket' := by
  have hpos : 0 < payload.length := List.length_pos_iff.mpr hne
  rw [reconstructRound]
  by_cases hshort : spacePacket.length < 6
  · have hleft : (6 : ℤ) - spacePacket.length = (6 - spacePacket.length : ℕ) := by omega
    simp only [if_pos hshort, hleft, sliceTo_natCast, sliceFrom_natCast]
    have hlen : (spacePacket ++ payload.take (6 - spacePacket.length)).length =
        spacePacket.length + min (6 - spacePacket.length) payload.length := by
      rw [List.length_append, List.length_take]
    split_ifs with hsix
    · obtain ⟨length, hlength⟩ := exists_dataLength hsix
      obtain ⟨spacePacket', sent, hbody, hincomplete⟩ := reconstructBody_incomplete
        (payload.drop (6 - spacePacket.length)) hsix hlength (by omega)
      refine ⟨spacePacket', _, sent, hbody, ?_, hincomplete⟩
      rw [List.length_drop, List.length_drop]
      omega
    · refine ⟨_, _, [], rfl, ?_, Or.inl (by omega)⟩
      rw [List.length_drop]
      omega
  · simp only [if_neg hshort]
    obtain ⟨length, hlength, hlt⟩ := h.resolve_left hshort
    rw [if_pos (by omega)]
    obtain ⟨spacePacket', sent, hbody, hincomplete⟩ :=
      reconstructBody_incomplete payload (by omega) hlength hlt.le
    refine ⟨spacePacket', _, sent, hbody, ?_, hincomplete⟩
    rw [List.length_drop]
    omega

/-- **The loop ends.** -/
theorem reconstructLoop_incomplete {rounds : ℕ} {spacePacket payload : List Byte}
    (h : Incomplete spacePacket) (hrounds : payload.length ≤ rounds) :
    ∃ spacePacket' sent, reconstructLoop rounds spacePacket payload = some (spacePacket', sent) ∧
      Incomplete spacePacket' := by
  induction rounds generalizing spacePacket payload with
  | zero =>
    obtain rfl := List.length_eq_zero_iff.mp (Nat.le_zero.mp hrounds)
    exact ⟨spacePacket, [], rfl, h⟩
  | succ rounds ih =>
    by_cases hnil : payload = []
    · rw [hnil]
      exact ⟨spacePacket, [], rfl, h⟩
    obtain ⟨middle, payload', sent, hround, hless, hmiddle⟩ := reconstructRound_incomplete h hnil
    have hfewer : payload'.length ≤ rounds := by omega
    obtain ⟨spacePacket', more, hloop, hincomplete⟩ := ih hmiddle hfewer
    refine ⟨spacePacket', sent ++ more, ?_, hincomplete⟩
    rw [reconstructLoop_succ rounds hnil hround, hloop]
    rfl

/-! ## Exceptions -/

/-- The frame can be parsed: its header, and its payload and trailer as the header says. -/
def Parses (packet : List Byte) : Prop :=
  ∃ header, parse primaryHeader packet = some header ∧
    let trailer : Bool := header[3]? = some 1
    (fullPacketPayload packet (packet.length - 6 - (if trailer then 4 else 0)) trailer).isSome

/-- A whole header announces a trailer, and there are no four bytes for it. -/
def LacksTrailer (packet : List Byte) : Prop :=
  packet.length < 10 ∧ ∃ header, parse primaryHeader packet = some header ∧ header[3]? = some 1

/-- The handler meets its purpose on a frame: it returns without an exception, and a frame that
cannot be parsed leaves the packet so far as it was. -/
def HandlesErrors (M : Type) (spacePacket : List Byte) (pdu : Pdu M) : Prop :=
  ∃ spacePacket' sent, reconstructOutcome spacePacket (.u8vector pdu) =
      some (spacePacket', sent, false) ∧ (¬ Parses pdu.cdr → spacePacket' = spacePacket)

theorem length_of_parse {packet : List Byte} {header : List ℕ}
    (h : parse primaryHeader packet = some header) : 6 ≤ packet.length := by
  rw [parse] at h
  split_ifs at h with hshort
  exact Nat.not_lt.mp hshort

/-- The payload of a frame with a whole header cannot be parsed when the trailer is missing. -/
theorem fullPacketPayload_eq_none_iff {packet : List Byte} (hsix : 6 ≤ packet.length)
    (trailer : Bool) :
    fullPacketPayload packet (packet.length - 6 - (if trailer then 4 else 0)) trailer = none ↔
      packet.length < 10 ∧ trailer = true := by
  rw [fullPacketPayload]
  cases trailer <;> simp <;> omega

/-- **One message.** The handler ends and leaves an incomplete packet. It raises for the frames that
lack their trailer, and changes nothing for a frame that cannot be parsed. -/
theorem reconstructOutcome_spec {M : Type} {spacePacket : List Byte} (h : Incomplete spacePacket)
    (pdu : Pdu M) :
    ∃ spacePacket' sent raised, reconstructOutcome spacePacket (.u8vector pdu) =
        some (spacePacket', sent, raised) ∧ Incomplete spacePacket' ∧
      (raised = true ↔ LacksTrailer pdu.cdr) ∧ (¬ Parses pdu.cdr → spacePacket' = spacePacket) := by
  rw [reconstructOutcome]
  cases hparse : parse primaryHeader pdu.cdr with
  | none =>
    refine ⟨spacePacket, [], false, rfl, h, ?_, fun _ => rfl⟩
    simp [LacksTrailer, hparse]
  | some header =>
    have hnone := fullPacketPayload_eq_none_iff (length_of_parse hparse) (header[3]? = some 1)
    have hlacks : LacksTrailer pdu.cdr ↔ pdu.cdr.length < 10 ∧ decide (header[3]? = some 1) = true := by
      simp [LacksTrailer, hparse]
    rw [hlacks, ← hnone]
    simp only
    cases hpayload : fullPacketPayload pdu.cdr _ _ with
    | none => exact ⟨spacePacket, [], true, rfl, h, by simp, fun _ => rfl⟩
    | some payload =>
      obtain ⟨spacePacket', sent, hloop, hincomplete⟩ :=
        reconstructLoop_incomplete h (le_refl payload.length)
      refine ⟨spacePacket', sent, false, ?_, hincomplete, by simp, fun hnot => absurd ?_ hnot⟩
      · simp only [hloop, Option.bind_eq_bind, Option.bind_some, Option.pure_def]
      · exact ⟨header, hparse, by simp only [hpayload, Option.isSome_some]⟩

theorem incomplete_of_reachable {M : Type} {spacePacket : List Byte} (h : Reachable M spacePacket) :
    Incomplete spacePacket := by
  induction h with
  | init => exact Or.inl (by simp)
  | @step spacePacket spacePacket' sent raised msg _ hmsg ih =>
    cases msg with
    | other =>
      obtain ⟨rfl, -⟩ := Prod.mk.inj (Option.some.inj hmsg)
      exact ih
    | u8vector pdu =>
      obtain ⟨_, _, _, houtcome, hincomplete, -⟩ := reconstructOutcome_spec ih pdu
      obtain ⟨rfl, -⟩ := Prod.mk.inj (Option.some.inj (houtcome.symm.trans hmsg))
      exact hincomplete

/-- **Error path.** Exactly the frames that lack their trailer raise. -/
theorem handlesErrors_iff {M : Type} {spacePacket : List Byte} (h : Reachable M spacePacket)
    (pdu : Pdu M) : HandlesErrors M spacePacket pdu ↔ ¬ LacksTrailer pdu.cdr := by
  obtain ⟨spacePacket', sent, raised, houtcome, -, hraised, hsame⟩ :=
    reconstructOutcome_spec (incomplete_of_reachable h) pdu
  rw [← hraised, HandlesErrors, houtcome]
  constructor
  · rintro ⟨_, _, heq, -⟩
    obtain ⟨-, heq⟩ := Prod.mk.inj (Option.some.inj heq)
    rw [(Prod.mk.inj heq).2]
    exact Bool.false_ne_true
  · intro hfalse
    rw [Bool.not_eq_true] at hfalse
    exact ⟨spacePacket', sent, by rw [hfalse], hsame⟩

theorem handlesErrors_short_frame :
    HandlesErrors Unit [] ⟨(), [0, 1, 0, 0, 0]⟩ ↔ ¬ LacksTrailer [0, 1, 0, 0, 0] :=
  handlesErrors_iff .init ⟨(), [0, 1, 0, 0, 0]⟩

/-- A header alone that announces a trailer. -/
theorem not_handlesErrors_header :
    ¬ ∀ (spacePacket : List Byte) (pdu : Pdu Unit), Reachable Unit spacePacket →
      HandlesErrors Unit spacePacket pdu := by
  intro h
  obtain ⟨_, _, heq, -⟩ := h [] ⟨(), [0, 1, 0, 0, 0, 0]⟩ .init
  have hraised : reconstructOutcome [] (.u8vector ⟨(), [0, 1, 0, 0, 0, 0]⟩ : Msg Unit) =
      some ([], [], true) := by decide
  rw [hraised] at heq
  cases heq

end GrSatellites.Ccsds
