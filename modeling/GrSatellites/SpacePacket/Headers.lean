import GrSatellites.Basic
import GrSatellites.Ccsds.Model
import GrSatellites.Library.Attempt

/-!
# Primary headers of space packets and telecommand frames

The blocks `space_packet_primaryheader_adder` and `telecommand_primaryheader_adder` of
`python/ccsds`. Both count the PDUs that they handle, build a header with the count in a
bit field, and put it in front of the payload. The library that builds bit structures
refuses a number that does not fit its field.
-/

namespace GrSatellites.SpacePacket

open Attempt Bits

/-- A Python exception. -/
inductive PyError where
  | integerError
  | formatFieldError
  | rangeError
  | streamError
  | keyError
  | typeError
  | valueError
  | overflowError
  deriving DecidableEq, Repr

/-- The field widths of `telecommand.PrimaryHeader`. -/
def telecommandHeader : List ℕ := [2, 1, 1, 2, 10, 6, 10, 8]

/-- `BitStruct.build`. -/
def buildBits (fields : List (ℕ × ℤ)) : Except PyError (List Byte) :=
  match FieldEncoder.refusing.build fields with
  | none => .error .integerError
  | some bytes => .ok bytes

/-- `array.array('B', numpy.append(header, packet))`. An empty list is an array of floats to
`numpy`, which makes floats of the other list, and those are no bytes. -/
def numpyAppend (header packet : List Byte) : Except PyError (List Byte) :=
  if (header = [] ∨ packet = []) ∧ header ++ packet ≠ [] then .error .typeError
  else .ok (header ++ packet)

/-! ## Building -/

theorem buildBits_eq_ok {fields : List (ℕ × ℤ)} {bytes : List Byte} :
    buildBits fields = .ok bytes ↔ FieldEncoder.refusing.build fields = some bytes := by
  unfold buildBits
  cases FieldEncoder.refusing.build fields <;> simp

theorem succeeds_buildBits {fields : List (ℕ × ℤ)} : Succeeds (buildBits fields) ↔ Fits fields := by
  rw [← FieldEncoder.build_refusing_isSome, Option.isSome_iff_exists]
  exact exists_congr fun bytes => buildBits_eq_ok

theorem numpyAppend_eq_ok {header packet joined : List Byte} (hheader : header ≠ []) :
    numpyAppend header packet = .ok joined ↔ packet ≠ [] ∧ joined = header ++ packet := by
  unfold numpyAppend
  by_cases hpacket : packet = []
  · simp [hheader, hpacket]
  · rw [if_neg (by simp [hheader, hpacket]), Except.ok.injEq]
    constructor
    · exact fun h => ⟨hpacket, h.symm⟩
    · exact fun h => h.2.symm

theorem flagField_fits (b : Bool) :
    0 ≤ (Ccsds.flagField b).2 ∧ (Ccsds.flagField b).2 < 2 ^ (Ccsds.flagField b).1 := by
  cases b <;> decide

/-- A block that counts its PDUs: how the counter moves before it is used, and the header
for a counter and a payload, which is some whole bytes with fields of fixed widths. -/
structure HeaderAdder where
  widths : List ℕ
  next : ℤ → ℤ
  fields : ℤ → List Byte → List (ℕ × ℤ)
  map_fst_fields : ∀ counter packet, (fields counter packet).map Prod.fst = widths
  sizeof_pos : 0 < sizeof widths
  dvd_sum : 8 ∣ widths.sum

namespace HeaderAdder

variable (h : HeaderAdder) {M : Type}

/-- `handle_msg`: the counter, and the packet published or the exception raised. -/
def handleMsg (counter : ℤ) : Msg M → ℤ × Except PyError (List (List Byte))
  | .other _ => (counter, .ok [])
  | .u8vector pdu => (h.next counter, do
      let header ← buildBits (h.fields (h.next counter) pdu.cdr)
      let packet ← numpyAppend header pdu.cdr
      return [packet])

/-- The packets published over a run of messages, which an exception ends. -/
def run : ℤ → List (Msg M) → Except PyError (List (List Byte))
  | _, [] => .ok []
  | counter, msg :: msgs => do
    let sent ← (h.handleMsg counter msg).2
    let more ← run (h.handleMsg counter msg).1 msgs
    return sent ++ more

theorem ne_nil_of_build {counter : ℤ} {packet header : List Byte}
    (hbuild : FieldEncoder.refusing.build (h.fields counter packet) = some header) :
    header ≠ [] := by
  have hlength := FieldEncoder.refusing.length_build hbuild
  have hpos := h.sizeof_pos
  rw [h.map_fst_fields] at hlength
  exact List.ne_nil_of_length_pos (hlength ▸ hpos)

/-- What one PDU publishes. -/
theorem handleMsg_eq_ok {counter : ℤ} {pdu : Pdu M} {sent : List (List Byte)} :
    (h.handleMsg counter (.u8vector pdu)).2 = .ok sent ↔ pdu.cdr ≠ [] ∧ ∃ header,
      FieldEncoder.refusing.build (h.fields (h.next counter) pdu.cdr) = some header ∧
        sent = [header ++ pdu.cdr] := by
  rw [handleMsg, bind_eq_ok]
  constructor
  · rintro ⟨header, hheader, hrest⟩
    obtain ⟨packet, hpacket, hsent⟩ := bind_eq_ok.mp hrest
    have hbuild := buildBits_eq_ok.mp hheader
    obtain ⟨hne, rfl⟩ := (numpyAppend_eq_ok (h.ne_nil_of_build hbuild)).mp hpacket
    exact ⟨hne, header, hbuild, (Except.ok.inj hsent).symm⟩
  · rintro ⟨hne, header, hbuild, rfl⟩
    refine ⟨header, buildBits_eq_ok.mpr hbuild, bind_eq_ok.mpr ⟨header ++ pdu.cdr, ?_, rfl⟩⟩
    exact (numpyAppend_eq_ok (h.ne_nil_of_build hbuild)).mpr ⟨hne, rfl⟩

/-- A packet published has the header that was built, and then the payload. -/
theorem parse_sent {counter : ℤ} {packet header : List Byte}
    (hbuild : FieldEncoder.refusing.build (h.fields counter packet) = some header) :
    parse h.widths (header ++ packet) =
      some ((h.fields counter packet).map fun field => field.2.toNat) := by
  have hfits : Fits (h.fields counter packet) :=
    FieldEncoder.build_refusing_isSome.mp (Option.isSome_iff_exists.mpr ⟨header, hbuild⟩)
  have hwidths := h.map_fst_fields counter packet
  have hdvd : 8 ∣ ((h.fields counter packet).map Prod.fst).sum := hwidths ▸ h.dvd_sum
  rw [← hwidths]
  exact FieldEncoder.refusing.parse_build_of_fits hbuild hdvd hfits packet

end HeaderAdder

/-! ## Space packets -/

/-- The parameters of a `space_packet_primaryheader_adder`. -/
structure PrimaryheaderAdder where
  packetType : ℤ
  secondaryHeaderFlag : Bool
  apId : ℤ
  countOrName : ℤ
  packetSequenceName : ℤ

namespace PrimaryheaderAdder

variable (a : PrimaryheaderAdder)

/-- The header carries the sequence count, and not a name. -/
def UsesCount : Prop := a.packetType = 0 ∨ a.countOrName = 0

instance : Decidable a.UsesCount := inferInstanceAs (Decidable (_ ∨ _))

/-- The fields of the header. -/
def fields (packetSequenceCount : ℤ) (packet : List Byte) : List (ℕ × ℤ) :=
  [(3, 0), (1, a.packetType), Ccsds.flagField a.secondaryHeaderFlag, (11, a.apId), (2, 3),
    (14, if a.UsesCount then packetSequenceCount else a.packetSequenceName), (16, packet.length)]

/-- `space_packet_primaryheader_adder`. -/
def block : HeaderAdder where
  widths := Ccsds.spacePacketHeader
  next packetSequenceCount := packetSequenceCount + 1
  fields := a.fields
  map_fst_fields _ _ := rfl
  sizeof_pos := by decide
  dvd_sum := by decide

theorem fits_fields_iff {count : ℕ} {packet : List Byte} :
    Fits (a.fields count packet) ↔ (0 ≤ a.packetType ∧ a.packetType < 2 ^ 1) ∧
      (0 ≤ a.apId ∧ a.apId < 2 ^ 11) ∧ packet.length < 2 ^ 16 ∧
      (a.UsesCount → count < 2 ^ 14) ∧
      (¬a.UsesCount → 0 ≤ a.packetSequenceName ∧ a.packetSequenceName < 2 ^ 14) := by
  have hversion : (0 : ℤ) ≤ 0 ∧ (0 : ℤ) < 2 ^ 3 := by norm_num
  have hflags : (0 : ℤ) ≤ 3 ∧ (3 : ℤ) < 2 ^ 2 := by norm_num
  by_cases huses : a.UsesCount
  · simp only [fields, fits_cons, fits_nil, if_true, natCast_fits_iff, and_true, hversion,
      hflags, flagField_fits, true_and, huses, forall_const, not_true_eq_false, false_implies]
    exact and_congr_right' (and_congr_right' and_comm)
  · simp only [fields, fits_cons, fits_nil, if_false, natCast_fits_iff, and_true, hversion,
      hflags, flagField_fits, true_and, huses, forall_const, not_false_eq_true, false_implies]
    exact and_congr_right' (and_congr_right' and_comm)

end PrimaryheaderAdder

/-- A telemetry block with every parameter at its default. -/
def telemetryAdder : PrimaryheaderAdder := ⟨0, true, 0, 0, 0⟩

/-! ## Telecommand frames -/

/-- The parameters of a `telecommand_primaryheader_adder`. -/
structure TelecommandPrimaryheaderAdder where
  bypass : ℤ
  control : ℤ
  spacecraftId : ℤ
  virtualChannelId : ℤ

namespace TelecommandPrimaryheaderAdder

variable (a : TelecommandPrimaryheaderAdder)

/-- The fields of the header. -/
def fields (frameSequenceNumber : ℤ) (packet : List Byte) : List (ℕ × ℤ) :=
  [(2, 0), Ccsds.flagField (a.bypass ≠ 0), Ccsds.flagField (a.control ≠ 0), (2, 0),
    (10, a.spacecraftId), (6, a.virtualChannelId), (10, packet.length + 5),
    (8, frameSequenceNumber)]

/-- `telecommand_primaryheader_adder`. -/
def block : HeaderAdder where
  widths := telecommandHeader
  next frameSequenceNumber := if a.bypass = 1 then 0 else frameSequenceNumber + 1
  fields := a.fields
  map_fst_fields _ _ := rfl
  sizeof_pos := by decide
  dvd_sum := by decide

end TelecommandPrimaryheaderAdder

end GrSatellites.SpacePacket
