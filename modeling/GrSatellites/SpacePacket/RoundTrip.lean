import GrSatellites.SpacePacket.TimeCodes

/-!
# Time stamps that come back

A packet is stamped, given a header, and parsed with the same settings. It comes back with
the payload and the time code that were put in exactly in the CUC format, within bounds on
the time and the options, and in the CCS format without digits after the second.
-/

namespace GrSatellites.SpacePacket

open Attempt Bits Calendar Reading

variable (zeroOctets : Bool) (a : TimeStampAdder) (h : PrimaryheaderAdder)

/-- The payload is stamped at the time of the clock, the packet gets a header from a block
that has counted some PDUs, and the parser with the same settings prints the time code that
was put in and the payload. -/
def RoundTrips (count : ℕ) (clock : DateTime) (payload : List Byte) : Prop :=
  ∃ entries stamped packet primary, a.timeCode zeroOctets clock = .ok entries ∧
    (a.handleMsg zeroOctets clock (.u8vector ⟨(), payload⟩)).2 = .ok [stamped] ∧
    (h.block.handleMsg count (.u8vector ⟨(), stamped⟩)).2 = .ok [packet] ∧
    (a.parser.handleMsg zeroOctets (.u8vector ⟨(), packet⟩)).2 =
      .data ⟨primary, entries.map Entry.field, payload⟩

namespace TimeStampAdder

variable {zeroOctets a}

theorem timeCode_eq_ok {clock : DateTime} {entries : List Entry} :
    a.timeCode zeroOctets clock = .ok entries ↔ ∃ now, a.currentTime clock = .ok now ∧
      a.limitLengths.finalHeader zeroOctets now = .ok entries := bind_eq_ok

theorem handleMsg_eq_ok {clock : DateTime} {payload stamped : List Byte} :
    (a.handleMsg zeroOctets clock (.u8vector (⟨(), payload⟩ : Pdu Unit))).2 = .ok [stamped] ↔
      ∃ entries, a.timeCode zeroOctets clock = .ok entries ∧
        numpyAppend (entries.flatMap Entry.bytes) payload = .ok stamped := by
  rw [handleMsg, bind_eq_ok]
  refine exists_congr fun entries => and_congr_right' ?_
  rw [bind_eq_ok]
  constructor
  · rintro ⟨packet, hpacket, hsent⟩
    cases hsent
    exact hpacket
  · exact fun hpacket => ⟨stamped, hpacket, rfl⟩

end TimeStampAdder

namespace SpacePacketParser

variable {zeroOctets} {s : SpacePacketParser}

theorem handleMsg_eq_data {bytes : List Byte} {packet : FullPacket} :
    (s.handleMsg zeroOctets (.u8vector (⟨(), bytes⟩ : Pdu Unit))).2 = .data packet ↔
      ∃ rest, (fullPacket (s.timestamp zeroOctets)).run bytes = .ok (packet, rest) := by
  rw [handleMsg]
  cases hrun : (fullPacket (s.timestamp zeroOctets)).run bytes with
  | error e => simp
  | ok result =>
    obtain ⟨read, rest⟩ := result
    simp

end SpacePacketParser

namespace PrimaryheaderAdder

variable {h}

/-- The header that was built is read with the length of what follows it. -/
theorem reads_header {count : ℤ} {packet header : List Byte}
    (hbuild : FieldEncoder.refusing.build (h.fields count packet) = some header) :
    ∃ primary, Reads (parseBits Ccsds.spacePacketHeader) header primary ∧
      primary.getD 6 0 = packet.length := by
  have hdvd : 8 ∣ ((h.fields count packet).map Prod.fst).sum := h.block.dvd_sum
  exact ⟨_, reads_build hdvd hbuild, rfl⟩

end PrimaryheaderAdder

/-! ## Packets that come back -/

section

variable {zeroOctets a h} {count : ℕ} {clock : DateTime} {payload : List Byte}

/-- A time stamp that the parser reads brings the packet back. -/
theorem roundTrips_of_readsStamp {entries : List Entry}
    (htime : a.timeCode zeroOctets clock = .ok entries)
    (hstamp : entries.flatMap Entry.bytes ≠ []) (hpayload : payload ≠ [])
    (hfits : Fits (h.fields ((count + 1 : ℕ) : ℤ) (entries.flatMap Entry.bytes ++ payload)))
    (hreads : a.ReadsStamp zeroOctets entries) :
    RoundTrips zeroOctets a h count clock payload := by
  obtain ⟨header, hbuild⟩ :=
    Option.isSome_iff_exists.mp (FieldEncoder.build_refusing_isSome.mpr hfits)
  obtain ⟨primary, hheader, hlength⟩ := PrimaryheaderAdder.reads_header hbuild
  refine ⟨entries, entries.flatMap Entry.bytes ++ payload,
    header ++ (entries.flatMap Entry.bytes ++ payload), primary, htime, ?_, ?_, ?_⟩
  · exact TimeStampAdder.handleMsg_eq_ok.mpr
      ⟨entries, htime, (numpyAppend_eq_ok hstamp).mpr ⟨hpayload, rfl⟩⟩
  · exact h.block.handleMsg_eq_ok.mpr ⟨by simp [hpayload], header, hbuild, rfl⟩
  · exact SpacePacketParser.handleMsg_eq_data.mpr ⟨[], run_fullPacket hheader hlength hreads⟩

/-- A packet that comes back has been built, and its time stamp is read with the values that
were put in, and with a size that leaves the payload. -/
theorem of_roundTrips (hround : RoundTrips zeroOctets a h count clock payload) :
    ∃ entries, a.timeCode zeroOctets clock = .ok entries ∧
      (entries.flatMap Entry.bytes ≠ [] → payload ≠ [] ∧
        Fits (h.fields ((count + 1 : ℕ) : ℤ) (entries.flatMap Entry.bytes ++ payload)) ∧
        ∃ size left, (a.parser.timestamp zeroOctets).run (entries.flatMap Entry.bytes ++ payload) =
            .ok ((entries.map Entry.field, size), left) ∧
          size = (entries.flatMap Entry.bytes).length) := by
  obtain ⟨entries, stamped, packet, primary, htime, hstamped, hpacket, hprinted⟩ := hround
  refine ⟨entries, htime, fun hstamp => ?_⟩
  obtain ⟨entries', htime', happend⟩ := TimeStampAdder.handleMsg_eq_ok.mp hstamped
  obtain rfl : entries' = entries := Except.ok.inj (htime'.symm.trans htime)
  obtain ⟨hpayload, rfl⟩ := (numpyAppend_eq_ok hstamp).mp happend
  obtain ⟨-, header, hbuild, hsent⟩ := h.block.handleMsg_eq_ok.mp hpacket
  obtain rfl := List.singleton_inj.mp hsent
  obtain ⟨values, hheader, hlength⟩ := PrimaryheaderAdder.reads_header (h := h) hbuild
  obtain ⟨rest, hrun⟩ := SpacePacketParser.handleMsg_eq_data.mp hprinted
  obtain ⟨size, left, hfields, hsize⟩ := of_run_fullPacket hheader hrun
  refine ⟨hpayload, ?_, size, left, hfields, ?_⟩
  · exact FieldEncoder.build_refusing_isSome.mp (Option.isSome_iff_exists.mpr ⟨header, hbuild⟩)
  · rw [hlength, List.length_append] at hsize
    push_cast at hsize
    linarith

end

/-! ## The formats -/

namespace TimeStampAdder

/-- The octets of a time stamp. -/
def stampLength : ℕ :=
  match a.timeFormat with
  | .cuc => a.pfieldOctets + a.basicTime + a.fractionalTime
  | .ccs => (if a.pfield then 1 else 0) + 7
  | _ => 0

/-- A time stamp can be built and is read back. -/
def Carries (now : DateTime) : Prop :=
  match a.timeFormat with
  | .cuc => a.WritesCuc zeroOctets now ∧
      (a.pfield = false → a.idTime.additionalBasicTimeNumOctetsCuc = 0 ∧
        a.idTime.additionalFractionalTimeNumOctetsCuc = 0)
  | .ccs => a.WritesCcs ∧ (a.pfield = true → a.idTime.calendarVariation = false)
  | _ => False

theorem limitLengths_timeFormat : a.limitLengths.timeFormat = a.timeFormat := by
  unfold limitLengths
  split_ifs <;> rfl

theorem finalHeader_of_cuc {now : DateTime} (hformat : a.timeFormat = .cuc) :
    a.limitLengths.finalHeader zeroOctets now = a.headerCuc zeroOctets now := by
  rw [finalHeader, limitLengths_timeFormat, hformat]
  unfold limitLengths
  split_ifs <;> rfl

theorem finalHeader_of_ccs {now : DateTime} (hformat : a.timeFormat = .ccs) :
    a.limitLengths.finalHeader zeroOctets now = (a.writesCcs now).mapM id := by
  rw [finalHeader, limitLengths_timeFormat, hformat]
  unfold limitLengths
  split_ifs <;> rfl

theorem not_finalHeader_eq_ok {now : DateTime} {entries : List Entry}
    (hcuc : a.timeFormat ≠ .cuc) (hccs : a.timeFormat ≠ .ccs) :
    a.finalHeader zeroOctets now ≠ .ok entries := by
  intro h
  unfold finalHeader at h
  split at h
  · exact hcuc ‹_›
  · exact a.not_succeeds_writesCds zeroOctets ⟨entries, h⟩
  · exact hccs ‹_›
  · exact a.not_succeeds_headerAscii ⟨entries, h⟩
  · exact a.not_succeeds_headerAscii ⟨entries, h⟩

variable {zeroOctets a}

theorem additional_of_run {bytes left : List Byte} {fields : List Field} {size : ℤ}
    (hformat : a.timeFormat = .cuc) (hpfield : a.pfield = false)
    (hrun : (a.parser.timestamp zeroOctets).run bytes = .ok ((fields, size), left))
    (hsize : size = (a.pfieldOctets + a.basicTime + a.fractionalTime : ℕ)) :
    a.idTime.additionalBasicTimeNumOctetsCuc = 0 ∧
      a.idTime.additionalFractionalTimeNumOctetsCuc = 0 := by
  rw [parser, SpacePacketParser.construct, if_pos rfl, SpacePacketParser.timestamp, if_pos rfl]
    at hrun
  simp only [hformat, hpfield] at hrun
  obtain ⟨read, after, -, hpure⟩ := run_bind_eq_ok.mp hrun
  obtain ⟨hpair, -⟩ := Prod.mk.inj (Except.ok.inj hpure)
  obtain ⟨-, htaken⟩ := Prod.mk.inj hpair
  simp only [pfieldOctets, basicTime, fractionalTime, hpfield] at hsize
  push_cast at htaken hsize
  simp at hsize
  omega

theorem carries_of_roundTrips {h : PrimaryheaderAdder} {count : ℕ} {clock : DateTime}
    {payload : List Byte} (hround : RoundTrips zeroOctets a h count clock payload) :
    (∃ now, a.currentTime clock = .ok now ∧ a.Carries zeroOctets now) ∧ payload ≠ [] ∧
      ∃ stamp : List Byte, stamp.length = a.stampLength ∧
        Fits (h.fields ((count + 1 : ℕ) : ℤ) (stamp ++ payload)) := by
  obtain ⟨entries, htime, hrest⟩ := of_roundTrips hround
  obtain ⟨now, hnow, hheader⟩ := timeCode_eq_ok.mp htime
  cases hformat : a.timeFormat with
  | cuc =>
    rw [a.finalHeader_of_cuc zeroOctets hformat] at hheader
    have hlength := a.length_headerCuc zeroOctets hheader
    have hstamp : entries.flatMap Entry.bytes ≠ [] := by
      refine List.ne_nil_of_length_pos ?_
      rw [hlength, basicTime]
      omega
    obtain ⟨hpayload, hfits, size, left, hrun, hsize⟩ := hrest hstamp
    refine ⟨⟨now, hnow, ?_⟩, hpayload, _, ?_, hfits⟩
    · rw [Carries, hformat]
      refine ⟨(a.succeeds_headerCuc zeroOctets).mp ⟨entries, hheader⟩, fun hpfield => ?_⟩
      exact additional_of_run hformat hpfield hrun (hlength ▸ hsize)
    · rw [stampLength, hformat, hlength]
  | ccs =>
    rw [a.finalHeader_of_ccs zeroOctets hformat] at hheader
    have hwrites := (a.succeeds_writesCcs now).mp ⟨entries, hheader⟩
    have hlength := a.length_writesCcs hwrites hheader
    have hstamp : entries.flatMap Entry.bytes ≠ [] := by
      refine List.ne_nil_of_length_pos ?_
      rw [hlength]
      omega
    obtain ⟨hpayload, hfits, size, left, hrun, hsize⟩ := hrest hstamp
    refine ⟨⟨now, hnow, ?_⟩, hpayload, _, ?_, hfits⟩
    · rw [Carries, hformat]
      refine ⟨hwrites, fun hpfield => ?_⟩
      by_contra hcalendar
      rw [parser, SpacePacketParser.construct, if_pos rfl, SpacePacketParser.timestamp,
        if_pos rfl] at hrun
      simp only [hformat, hpfield] at hrun
      exact a.misreads_writesCcs zeroOctets hwrites hheader hpfield (by simpa using hcalendar)
        hrun rfl
    · rw [stampLength, hformat, hlength]
  | cds | asciiA | asciiB =>
    refine absurd hheader (not_finalHeader_eq_ok zeroOctets _ ?_ ?_)
    · rw [limitLengths_timeFormat, hformat]
      decide
    · rw [limitLengths_timeFormat, hformat]
      decide

theorem roundTrips_of_carries {h : PrimaryheaderAdder} {count : ℕ} {clock now : DateTime}
    {payload : List Byte} (hnow : a.currentTime clock = .ok now)
    (hcarries : a.Carries zeroOctets now) (hpayload : payload ≠ [])
    (hfits : ∀ stamp : List Byte, stamp.length = a.stampLength →
      Fits (h.fields ((count + 1 : ℕ) : ℤ) (stamp ++ payload))) :
    RoundTrips zeroOctets a h count clock payload := by
  cases hformat : a.timeFormat with
  | cuc =>
    rw [Carries, hformat] at hcarries
    obtain ⟨hwrites, hadditional⟩ := hcarries
    obtain ⟨entries, hheader⟩ := (a.succeeds_headerCuc zeroOctets).mpr hwrites
    have hlength := a.length_headerCuc zeroOctets hheader
    have hstamp : entries.flatMap Entry.bytes ≠ [] := by
      refine List.ne_nil_of_length_pos ?_
      rw [hlength, basicTime]
      omega
    have htime := timeCode_eq_ok.mpr ⟨now, hnow, (a.finalHeader_of_cuc zeroOctets hformat).trans hheader⟩
    refine roundTrips_of_readsStamp htime hstamp hpayload (hfits _ ?_) ?_
    · rw [stampLength, hformat, hlength]
    · exact a.reads_headerCuc zeroOctets hformat hheader hadditional
  | ccs =>
    rw [Carries, hformat] at hcarries
    obtain ⟨hwrites, hcalendar⟩ := hcarries
    obtain ⟨entries, hheader⟩ := (a.succeeds_writesCcs now).mpr hwrites
    have hlength := a.length_writesCcs hwrites hheader
    have hstamp : entries.flatMap Entry.bytes ≠ [] := by
      refine List.ne_nil_of_length_pos ?_
      rw [hlength]
      omega
    have htime := timeCode_eq_ok.mpr ⟨now, hnow, (a.finalHeader_of_ccs zeroOctets hformat).trans hheader⟩
    refine roundTrips_of_readsStamp htime hstamp hpayload (hfits _ ?_) ?_
    · rw [stampLength, hformat, hlength]
    · exact a.reads_writesCcs zeroOctets hformat hwrites hheader hcalendar
  | cds | asciiA | asciiB =>
    rw [Carries, hformat] at hcarries
    exact hcarries.elim

end TimeStampAdder

/-- The settings, the time and the payload with which a packet comes back: there is a time
to stamp it with, in a format that carries it; there is a payload, and the length field can
say how long it is with its time stamp; the rest of the header fits. -/
structure ComesBack (count : ℕ) (clock : DateTime) (payload : List Byte) : Prop where
  time : ∃ now, a.currentTime clock = .ok now ∧ a.Carries zeroOctets now
  nonempty : payload ≠ []
  length : a.stampLength + payload.length < 2 ^ 16
  packetType : 0 ≤ h.packetType ∧ h.packetType < 2 ^ 1
  apId : 0 ≤ h.apId ∧ h.apId < 2 ^ 11
  count : h.UsesCount → count + 1 < 2 ^ 14
  name : ¬h.UsesCount → 0 ≤ h.packetSequenceName ∧ h.packetSequenceName < 2 ^ 14

/-- **Time stamp round trip.** A packet comes back with the time code and the payload that
were put in exactly if the settings, the time and the payload allow it. -/
theorem timeStamp_comesBack_iff (count : ℕ) (clock : DateTime) (payload : List Byte) :
    RoundTrips zeroOctets a h count clock payload ↔
      ComesBack zeroOctets a h count clock payload := by
  constructor
  · intro hround
    obtain ⟨htime, hpayload, stamp, hlength, hfits⟩ :=
      TimeStampAdder.carries_of_roundTrips hround
    obtain ⟨htype, hap, hsize, hcount, hname⟩ := h.fits_fields_iff.mp hfits
    rw [List.length_append, hlength] at hsize
    exact ⟨htime, hpayload, hsize, htype, hap, hcount, hname⟩
  · rintro ⟨⟨now, hnow, hcarries⟩, hpayload, hsize, htype, hap, hcount, hname⟩
    refine TimeStampAdder.roundTrips_of_carries hnow hcarries hpayload fun stamp hlength => ?_
    refine h.fits_fields_iff.mpr ⟨htype, hap, ?_, hcount, hname⟩
    rwa [List.length_append, hlength]

/-- Parameters with a P-field and the time of the clock, for a format and an `id_time`. -/
def clockParams (timeFormat : TimeFormat) (idTime : IdTime) : TimeStampParams :=
  ⟨true, timeFormat, true, false, 1, 1, 1, 1, false, 0, 4, 0, 1, 1, 1, 5, 0, 0, 0, 0, 0, 0, 0, 0, idTime⟩

/-- Four octets of coarse time, and the day of the year. -/
def dayOfYearTime : IdTime := ⟨3, 0, 0, 0, 0, 0, true, 0, 1, false⟩

/-- The epoch of the formats. -/
def epoch1958 : DateTime := ⟨⟨1958, 1, 1, 0, 0, 0, 0⟩, by decide⟩

/-- The block that is constructed from these parameters. -/
def clockAdder (timeFormat : TimeFormat) : TimeStampAdder :=
  ⟨clockParams timeFormat dayOfYearTime, epoch1958, epoch1958, 0, 1⟩

theorem construct_clockParams (timeFormat : TimeFormat) :
    (clockParams timeFormat dayOfYearTime).construct = .ok (clockAdder timeFormat) := rfl

/-- A morning in May. -/
def morning : DateTime := ⟨⟨2024, 5, 6, 7, 8, 9, 10⟩, by decide⟩

/-- With the day of the year a packet is sent, but it comes back with another time and payload.
In the CDS format no packet is sent. -/
theorem not_roundTrips_dayOfYear :
    (((clockAdder .ccs).handleMsg false morning (.u8vector ⟨(), [42]⟩)).2 =
        .ok [[0x58, 0x07, 0xe8, 0, 127, 7, 8, 9, 42]] ∧
      (telemetryAdder.block.handleMsg 0
          (.u8vector ⟨(), [0x58, 0x07, 0xe8, 0, 127, 7, 8, 9, 42]⟩)).2 =
        .ok [[0x08, 0, 0xc0, 1, 0, 9, 0x58, 0x07, 0xe8, 0, 127, 7, 8, 9, 42]] ∧
      ¬RoundTrips false (clockAdder .ccs) telemetryAdder 0 morning [42]) ∧
    ((clockAdder .cds).handleMsg false morning (.u8vector ⟨(), [42]⟩)).2 =
        .error .formatFieldError ∧
      ¬RoundTrips false (clockAdder .cds) telemetryAdder 0 morning [42] := by
  refine ⟨⟨rfl, rfl, fun hround => ?_⟩, rfl, fun hround => ?_⟩
  · obtain ⟨⟨now, -, -, hcalendar⟩, -⟩ := TimeStampAdder.carries_of_roundTrips hround
    exact absurd (hcalendar rfl) (by decide)
  · obtain ⟨⟨now, -, hcarries⟩, -⟩ := TimeStampAdder.carries_of_roundTrips hround
    exact hcarries

end GrSatellites.SpacePacket
