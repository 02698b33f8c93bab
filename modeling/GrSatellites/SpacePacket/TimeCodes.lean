import GrSatellites.SpacePacket.Fields

/-!
# Time codes

Which time codes can be built, and which of them the parser with the same settings reads
back: the CUC codes whose seconds and fraction fit their octets, and the CCS codes without
digits after the second.
-/

namespace GrSatellites.SpacePacket

open Attempt Bits Calendar Reading

/-! ## Seconds -/

theorem abs_div_million (d : ℤ) : |(d : ℚ) / 10 ^ 6| = |(d : ℚ)| / 10 ^ 6 := by
  rw [abs_div, abs_of_pos (by norm_num : (0 : ℚ) < 10 ^ 6)]

/-- Microseconds that make less than a unit of the fraction still do as a number of seconds. -/
theorem abs_totalSeconds_mul_lt_iff (d : ℤ) (octets : ℕ) :
    |totalSeconds d| * 256 ^ octets < 1 ↔ |d| * 256 ^ octets < 10 ^ 6 := by
  have hpow : (0 : ℚ) < 256 ^ octets := by positivity
  obtain ⟨unit, hunit⟩ : ∃ unit : ℚ, unit = 2 ^ (-(8 * octets : ℤ)) := ⟨_, rfl⟩
  have hscale : unit * 256 ^ octets = 1 := by
    rw [hunit, show (256 : ℚ) = 2 ^ 8 by norm_num, ← pow_mul, zpow_neg, ← zpow_natCast]
    push_cast
    exact inv_mul_cancel₀ (zpow_pos two_pos _).ne'
  have hpos : 0 < unit := hunit ▸ zpow_pos two_pos _
  have hcompare : |(d : ℚ) / 10 ^ 6| < unit ↔ |d| * 256 ^ octets < 10 ^ 6 := by
    rw [abs_div_million, div_lt_iff₀ (by norm_num), ← mul_lt_mul_iff_of_pos_right hpow,
      mul_right_comm, hscale, one_mul]
    exact_mod_cast Iff.rfl
  have hgap : |(d : ℚ) / 10 ^ 6| < unit → |(d : ℚ) / 10 ^ 6| + unit / 2 ^ 54 < unit := by
    intro hlt
    have hint : |d| * 256 ^ octets + 1 ≤ 10 ^ 6 := hcompare.mp hlt
    have hrat : |(d : ℚ)| * 256 ^ octets + 1 ≤ 10 ^ 6 := by exact_mod_cast hint
    have hmul := mul_le_mul_of_nonneg_left hrat hpos.le
    have hcancel : unit * (|(d : ℚ)| * 256 ^ octets + 1) = |(d : ℚ)| + unit := by
      rw [mul_add, mul_one, mul_left_comm, hscale, mul_one]
    rw [abs_div_million]
    linarith
  have hround : |totalSeconds d| < unit ↔ |(d : ℚ) / 10 ^ 6| < unit := by
    have hexp : (2 : ℚ) ^ (-(8 * octets : ℤ) - 54) = unit / 2 ^ 54 := by
      rw [zpow_sub₀ two_ne_zero, ← hunit]
      norm_num
    rw [totalSeconds, hunit]
    exact Double.abs_round_lt_zpow_iff (hexp ▸ hunit ▸ hgap)
  rw [← hcompare, ← hround, ← hscale]
  exact mul_lt_mul_iff_of_pos_right hpow

/-- Microseconds that fit some octets as whole seconds still do as a number of seconds, if
they are a difference of two moments of the calendar. -/
theorem abs_totalSeconds_lt_iff {d : ℤ} (octets : ℕ) (hd : |d| < 366 * 10000 * 86400 * 10 ^ 6) :
    |totalSeconds d| < 256 ^ octets ↔ |d| < 10 ^ 6 * 256 ^ octets := by
  have hpow : (256 : ℚ) ^ octets = 2 ^ (8 * octets : ℤ) := by
    rw [show (256 : ℚ) = 2 ^ 8 by norm_num, ← pow_mul, ← zpow_natCast]
    push_cast
    rfl
  have hcompare : |(d : ℚ) / 10 ^ 6| < 256 ^ octets ↔ |d| < 10 ^ 6 * 256 ^ octets := by
    rw [abs_div_million, div_lt_iff₀ (by norm_num), mul_comm]
    exact_mod_cast Iff.rfl
  rw [← hcompare, totalSeconds, hpow]
  refine Double.abs_round_lt_zpow_iff fun hlt => ?_
  rcases Nat.lt_or_ge octets 5 with hfew | hmany
  · have hint : |d| + 1 ≤ 10 ^ 6 * 256 ^ octets := hcompare.mp (hpow ▸ hlt)
    have hrat : |(d : ℚ)| + 1 ≤ 10 ^ 6 * 256 ^ octets := by exact_mod_cast hint
    have hsmall : (2 : ℚ) ^ ((8 * octets : ℤ) - 54) ≤ 2 ^ (-22 : ℤ) :=
      zpow_le_zpow_right₀ one_le_two (by omega)
    rw [abs_div_million, ← hpow]
    norm_num at hsmall ⊢
    linarith
  · have hrat : |(d : ℚ)| < 366 * 10000 * 86400 * 10 ^ 6 := by exact_mod_cast hd
    have hlarge : (2 : ℚ) ^ (40 : ℤ) ≤ 2 ^ (8 * octets : ℤ) :=
      zpow_le_zpow_right₀ one_le_two (by omega)
    have hhalf : (2 : ℚ) ^ ((8 * octets : ℤ) - 54) ≤ 2 ^ (8 * octets : ℤ) / 2 := by
      rw [zpow_sub₀ two_ne_zero]
      have hpos : (0 : ℚ) < 2 ^ (8 * octets : ℤ) := zpow_pos two_pos _
      norm_num
      linarith
    rw [abs_div_million]
    norm_num at hlarge
    linarith

/-- **Times that fit.** The whole seconds and the fraction fit their octets exactly if the
time is not further before the epoch than the fraction can tell, nor too far after it. -/
theorem seconds_fit_iff {d : ℤ} (basic fractional : ℕ)
    (hd : |d| < 366 * 10000 * 86400 * 10 ^ 6) :
    (0 ≤ Double.trunc (totalSeconds d) ∧ Double.trunc (totalSeconds d) < 256 ^ basic) ∧
        (0 ≤ Double.trunc ((totalSeconds d - Double.trunc (totalSeconds d)) * 256 ^ fractional) ∧
          Double.trunc ((totalSeconds d - Double.trunc (totalSeconds d)) * 256 ^ fractional) <
            256 ^ fractional) ↔
      -10 ^ 6 < d * 256 ^ fractional ∧ d < 10 ^ 6 * 256 ^ basic := by
  have hparts := Double.trunc_parts_mem_iff (q := totalSeconds d) (Nat.pow_pos (n := basic)
    (show 0 < 256 by norm_num)) (Nat.pow_pos (n := fractional) (show 0 < 256 by norm_num))
  push_cast at hparts
  rw [hparts]
  have hpow : (0 : ℚ) < 256 ^ fractional := by positivity
  have hint : (0 : ℤ) < 256 ^ fractional := by positivity
  have hbasic : (0 : ℚ) < 256 ^ basic := by positivity
  have hbasicInt : (0 : ℤ) < 10 ^ 6 * 256 ^ basic := by positivity
  rcases le_total 0 d with hnonneg | hnonpos
  · have hseconds : 0 ≤ totalSeconds d :=
      Double.round_nonneg (div_nonneg (by exact_mod_cast hnonneg) (by norm_num))
    have hlow : -1 < totalSeconds d * 256 ^ fractional := by
      have := mul_nonneg hseconds hpow.le
      linarith
    have hlowInt : -10 ^ 6 < d * 256 ^ fractional := by
      have := mul_nonneg hnonneg hint.le
      linarith
    have hupper := abs_totalSeconds_lt_iff basic hd
    rw [abs_of_nonneg hseconds, abs_of_nonneg hnonneg] at hupper
    exact and_congr (iff_of_true hlow hlowInt) hupper
  · have hseconds : totalSeconds d ≤ 0 :=
      Double.round_nonpos (div_nonpos_of_nonpos_of_nonneg (by exact_mod_cast hnonpos) (by norm_num))
    have hlower := abs_totalSeconds_mul_lt_iff d fractional
    rw [abs_of_nonpos hseconds, abs_of_nonpos hnonpos, neg_mul, neg_mul] at hlower
    refine and_congr ?_ (iff_of_true (by linarith) (by linarith))
    constructor
    · intro h
      have := hlower.mp (by linarith)
      linarith
    · intro h
      have := hlower.mpr (by linarith)
      linarith

theorem scaledFraction_eq_ok {x : ℚ} {octets : ℕ} {n : ℤ} :
    scaledFraction x octets = .ok n ↔ octets < 128 ∧ n = Double.trunc (x * 256 ^ octets) := by
  have hpower : (256 : ℕ) ^ octets < 2 ^ 1024 ↔ octets < 128 := by
    rw [show (256 : ℕ) = 2 ^ 8 by norm_num, ← pow_mul, Nat.pow_lt_pow_iff_right Nat.one_lt_two]
    omega
  rw [scaledFraction, ← hpower]
  split_ifs with h
  · rw [Except.ok.injEq, and_iff_right h, eq_comm]
  · constructor
    · intro hok
      cases hok
    · exact fun hok => absurd hok.1 h

/-! ## Reading CUC time codes -/

section

variable {zeroOctets : Bool} {head extended basic fractional : Entry} {id rsvd : ℤ}
  {basicOctets fractionalOctets moreBasic moreFractional : ℕ}

theorem reads_cucNoPField
    (hbasic : IntegerWritten zeroOctets ("basic_time_unit", basicOctets) basic)
    (hfractional : IntegerWritten zeroOctets ("fractional_time_unit", fractionalOctets) fractional) :
    Reads (timestampCUCNoPField zeroOctets basicOctets fractionalOctets)
      ([basic, fractional].flatMap Entry.bytes)
      ([basic, fractional].map Entry.field, (basicOctets + fractionalOctets : ℤ)) :=
  (reads_integers (.cons hbasic (.cons hfractional .nil))).bind_pure fun fields =>
    (fields, (basicOctets + fractionalOctets : ℤ))

theorem reads_cucPField
    (hhead : Written "pfield" [Ccsds.flagField false, (3, id), (2, (basicOctets : ℤ)),
      (2, (fractionalOctets : ℤ))] head)
    (hbasic : IntegerWritten zeroOctets ("basic_time_unit", basicOctets + 1) basic)
    (hfractional : IntegerWritten zeroOctets ("fractional_time_unit", fractionalOctets) fractional) :
    Reads (timestampCUCWithPField zeroOctets) ([head, basic, fractional].flatMap Entry.bytes)
      ([head, basic, fractional].map Entry.field,
        (2 + basicOctets + fractionalOctets : ℤ)) := by
  have hintegers := reads_integers (.cons hbasic (.cons hfractional .nil))
  have hfield := bitStructField_toNat "pfield" hhead.fits
  rw [← hhead.field] at hfield
  rw [List.map_cons, ← hfield]
  exact hhead.reads.bind (hintegers.bind_pure fun fields => (_ :: fields, _))

theorem reads_cucExtended {flag : Bool}
    (hhead : Written "pfield" [Ccsds.flagField true, (3, id), (2, (basicOctets : ℤ)),
      (2, (fractionalOctets : ℤ))] head)
    (hextended : Written "pfield_extended" [Ccsds.flagField flag, (2, (moreBasic : ℤ)),
      (3, (moreFractional : ℤ)), (2, rsvd)] extended)
    (hbasic : IntegerWritten zeroOctets ("basic_time_unit", basicOctets + 1 + moreBasic) basic)
    (hfractional : IntegerWritten zeroOctets
      ("fractional_time_unit", fractionalOctets + moreFractional) fractional) :
    Reads (timestampCUCWithPField zeroOctets)
      ([head, extended, basic, fractional].flatMap Entry.bytes)
      ([head, extended, basic, fractional].map Entry.field,
        (3 + basicOctets + fractionalOctets + moreBasic + moreFractional : ℤ)) := by
  have hintegers := reads_integers (.cons hbasic (.cons hfractional .nil))
  have hfield := bitStructField_toNat "pfield" hhead.fits
  have hextendedField := bitStructField_toNat "pfield_extended" hextended.fits
  rw [← hhead.field] at hfield
  rw [← hextended.field] at hextendedField
  rw [List.map_cons, List.map_cons, ← hfield, ← hextendedField]
  exact hhead.reads.bind (hextended.reads.bind (hintegers.bind_pure fun fields =>
    (_ :: _ :: fields, _)))

end

namespace TimeStampAdder

variable (zeroOctets : Bool) (a : TimeStampAdder)

/-! ## CUC -/

/-- The P-field of a CUC time code can be built. -/
def PfieldFits : Prop :=
  a.pfield = true → (0 ≤ a.timeCodeIdentificationCuc ∧ a.timeCodeIdentificationCuc < 2 ^ 3) ∧
    a.idTime.basicTimeNumOctetsCuc < 2 ^ 2 ∧ a.idTime.fractionalTimeNumOctetsCuc < 2 ^ 2 ∧
    (a.pfieldExtension = true → a.idTime.additionalBasicTimeNumOctetsCuc < 2 ^ 2 ∧
      a.idTime.additionalFractionalTimeNumOctetsCuc < 2 ^ 3 ∧ 0 ≤ a.rsvdCuc ∧ a.rsvdCuc < 2 ^ 2)

/-- A CUC time code can be built: there is a field for the fraction, the scale of the
fraction is a float, the time is not too far from the epoch, and the P-field fits. -/
structure WritesCuc (now : DateTime) : Prop where
  octets : a.fractionalTime = 0 → zeroOctets = true
  scale : a.fractionalTime < 128
  time : -10 ^ 6 < now.since a.epochCuc * 256 ^ a.fractionalTime ∧
    now.since a.epochCuc < 10 ^ 6 * 256 ^ a.basicTime
  pfield : a.PfieldFits

theorem succeeds_pfieldEntriesCuc : Succeeds a.pfieldEntriesCuc ↔ a.PfieldFits := by
  unfold pfieldEntriesCuc PfieldFits
  by_cases hpfield : a.pfield = true
  · rw [if_pos hpfield, succeeds_bind]
    by_cases hextension : a.pfieldExtension = true
    · simp only [if_pos hextension, succeeds_bind_pure, exists_and_right]
      change Succeeds _ ∧ _ ↔ _
      simp only [succeeds_bitStruct, fits_cons, fits_nil, flagField_fits, natCast_fits_iff,
        hpfield, hextension, forall_const, true_and, and_true, and_assoc]
    · simp only [if_neg hextension, succeeds_pure, and_true]
      change Succeeds _ ↔ _
      simp only [succeeds_bitStruct, fits_cons, fits_nil, flagField_fits, natCast_fits_iff,
        hpfield, hextension, forall_const, true_and, and_true, and_assoc, Bool.false_eq_true,
        false_implies]
  · simp [hpfield]

theorem headerCuc_eq_ok {now : DateTime} {entries : List Entry}
    (h : a.headerCuc zeroOctets now = .ok entries) : ∃ pfield basic fractional,
      a.pfieldEntriesCuc = .ok pfield ∧ entries = pfield ++ [basic, fractional] ∧
      IntegerWritten zeroOctets ("basic_time_unit", a.basicTime) basic ∧
      IntegerWritten zeroOctets ("fractional_time_unit", a.fractionalTime) fractional := by
  obtain ⟨pfield, hpfield, h⟩ := bind_eq_ok.mp h
  obtain ⟨fraction, -, h⟩ := bind_eq_ok.mp h
  obtain ⟨basic, hbasic, h⟩ := bind_eq_ok.mp h
  obtain ⟨fractional, hfractional, h⟩ := bind_eq_ok.mp h
  obtain ⟨⟨hbasicOctets, hbasicFits⟩, rfl⟩ := bytesInteger_eq_ok.mp hbasic
  obtain ⟨⟨hoctets, hfits⟩, rfl⟩ := bytesInteger_eq_ok.mp hfractional
  exact ⟨pfield, _, _, hpfield, (Except.ok.inj h).symm, integerWritten hbasicOctets hbasicFits,
    integerWritten hoctets hfits⟩

/-- **CUC time codes that can be built.** -/
theorem succeeds_headerCuc {now : DateTime} :
    Succeeds (a.headerCuc zeroOctets now) ↔ a.WritesCuc zeroOctets now := by
  have htime := seconds_fit_iff a.basicTime a.fractionalTime (now.abs_since_lt a.epochCuc)
  have hbasic : a.basicTime ≠ 0 := by
    unfold basicTime
    omega
  constructor
  · rintro ⟨entries, h⟩
    obtain ⟨pfield, hpfield, h⟩ := bind_eq_ok.mp h
    obtain ⟨fraction, hfraction, h⟩ := bind_eq_ok.mp h
    obtain ⟨basic, hbasic, h⟩ := bind_eq_ok.mp h
    obtain ⟨fractional, hfractional, h⟩ := bind_eq_ok.mp h
    obtain ⟨hscale, rfl⟩ := scaledFraction_eq_ok.mp hfraction
    obtain ⟨-, hcoarse⟩ := (succeeds_bytesInteger _).mp ⟨basic, hbasic⟩
    obtain ⟨hoctets, hfine⟩ := (succeeds_bytesInteger _).mp ⟨fractional, hfractional⟩
    exact ⟨hoctets, hscale, htime.mp ⟨hcoarse, hfine⟩,
      a.succeeds_pfieldEntriesCuc.mp ⟨pfield, hpfield⟩⟩
  · rintro ⟨hoctets, hscale, hseconds, hfits⟩
    obtain ⟨hcoarse, hfine⟩ := htime.mpr hseconds
    obtain ⟨pfield, hpfield⟩ := a.succeeds_pfieldEntriesCuc.mpr hfits
    obtain ⟨basic, hbasic⟩ := (succeeds_bytesInteger "basic_time_unit").mpr
      ⟨fun hzero => absurd hzero hbasic, hcoarse⟩
    obtain ⟨fractional, hfractional⟩ := (succeeds_bytesInteger "fractional_time_unit").mpr
      ⟨hoctets, hfine⟩
    refine ⟨pfield ++ [basic, fractional], bind_eq_ok.mpr ⟨pfield, hpfield, ?_⟩⟩
    refine bind_eq_ok.mpr ⟨_, scaledFraction_eq_ok.mpr ⟨hscale, rfl⟩, ?_⟩
    refine bind_eq_ok.mpr ⟨basic, hbasic, bind_eq_ok.mpr ⟨fractional, hfractional, rfl⟩⟩

/-- The parser with the same settings. -/
def parser : SpacePacketParser :=
  SpacePacketParser.construct true a.timeFormat a.pfield a.idTime

/-- The octets of the P-field of a CUC time code. -/
def pfieldOctets : ℕ := if a.pfield then (if a.pfieldExtension then 2 else 1) else 0

/-- The parser reads the time stamp with the values that were put in, and takes it to be as
long as it is. -/
def ReadsStamp (entries : List Entry) : Prop :=
  Reads (a.parser.timestamp zeroOctets) (entries.flatMap Entry.bytes)
    (entries.map Entry.field, ((entries.flatMap Entry.bytes).length : ℤ))

theorem length_headerCuc {now : DateTime} {entries : List Entry}
    (h : a.headerCuc zeroOctets now = .ok entries) :
    (entries.flatMap Entry.bytes).length = a.pfieldOctets + a.basicTime + a.fractionalTime := by
  obtain ⟨pfield, basic, fractional, hpfield, rfl, hbasic, hfractional⟩ :=
    a.headerCuc_eq_ok zeroOctets h
  have hoctets : (pfield.flatMap Entry.bytes).length = a.pfieldOctets := by
    unfold pfieldEntriesCuc at hpfield
    unfold pfieldOctets
    split_ifs at hpfield ⊢ with hpresent hextension
    · obtain ⟨head, hhead, hrest⟩ := bind_eq_ok.mp hpfield
      obtain ⟨extended, hextended, hrest⟩ := bind_eq_ok.mp hrest
      cases hrest
      simp [(written_of_bitStruct (by simp [Ccsds.flagField]) hhead).length,
        (written_of_bitStruct (by simp [Ccsds.flagField]) hextended).length, sizeof,
        Ccsds.flagField]
    · obtain ⟨head, hhead, hrest⟩ := bind_eq_ok.mp hpfield
      cases hrest
      simp [(written_of_bitStruct (by simp [Ccsds.flagField]) hhead).length, sizeof,
        Ccsds.flagField]
    · cases hpfield
      rfl
  rw [List.flatMap_append, List.length_append, hoctets,
    length_flatMap_bytes (.cons hbasic (.cons hfractional .nil))]
  simp [Nat.add_assoc]

theorem reads_headerCuc {now : DateTime} {entries : List Entry} (hformat : a.timeFormat = .cuc)
    (h : a.headerCuc zeroOctets now = .ok entries)
    (hadditional : a.pfield = false → a.idTime.additionalBasicTimeNumOctetsCuc = 0 ∧
      a.idTime.additionalFractionalTimeNumOctetsCuc = 0) :
    a.ReadsStamp zeroOctets entries := by
  obtain ⟨pfield, basic, fractional, hpfield, rfl, hbasic, hfractional⟩ :=
    a.headerCuc_eq_ok zeroOctets h
  unfold basicTime at hbasic
  unfold fractionalTime at hfractional
  unfold pfieldEntriesCuc at hpfield
  rw [ReadsStamp, parser, SpacePacketParser.construct, if_pos rfl, SpacePacketParser.timestamp,
    if_pos rfl]
  simp only [hformat]
  cases hpresent : a.pfield with
  | false =>
    obtain ⟨hmoreBasic, hmoreFractional⟩ := hadditional hpresent
    rw [hpresent] at hpfield
    cases hpfield
    simp only [hpresent, Bool.false_eq_true, false_and, if_false, Nat.add_zero] at hbasic hfractional
    have hreads := reads_cucNoPField hbasic hfractional
    simpa [hmoreBasic, hmoreFractional, hbasic.length, hfractional.length] using hreads
  | true =>
    rw [hpresent, if_pos rfl] at hpfield
    obtain ⟨head, hhead, hrest⟩ := bind_eq_ok.mp hpfield
    have hheadWritten := written_of_bitStruct (by simp [Ccsds.flagField]) hhead
    have hheadLength := hheadWritten.length
    cases hextension : a.pfieldExtension with
    | false =>
      rw [hextension] at hrest hheadWritten
      cases hrest
      simp only [hextension, Bool.false_eq_true, and_false, if_false, Nat.add_zero] at hbasic hfractional
      rw [Nat.add_comm] at hbasic
      have hreads := reads_cucPField hheadWritten hbasic hfractional
      have hsize : (([head, basic, fractional].flatMap Entry.bytes).length : ℤ) =
          2 + a.idTime.basicTimeNumOctetsCuc + a.idTime.fractionalTimeNumOctetsCuc := by
        simp [hbasic.length, hfractional.length, hheadLength, Ccsds.flagField, sizeof]
        ring
      rw [← hsize] at hreads
      simpa using hreads
    | true =>
      rw [hextension, if_pos rfl] at hrest
      rw [hextension] at hheadWritten
      obtain ⟨extended, hextended, hrest⟩ := bind_eq_ok.mp hrest
      cases hrest
      have hextendedWritten := written_of_bitStruct (by simp [Ccsds.flagField]) hextended
      have hextendedLength := hextendedWritten.length
      simp only [hpresent, hextension, and_self, if_true] at hbasic hfractional
      rw [Nat.add_comm 1] at hbasic
      have hreads := reads_cucExtended hheadWritten hextendedWritten hbasic hfractional
      have hsize : (([head, extended, basic, fractional].flatMap Entry.bytes).length : ℤ) =
          3 + a.idTime.basicTimeNumOctetsCuc + a.idTime.fractionalTimeNumOctetsCuc +
            a.idTime.additionalBasicTimeNumOctetsCuc +
            a.idTime.additionalFractionalTimeNumOctetsCuc := by
        simp [hbasic.length, hfractional.length, hheadLength, hextendedLength, Ccsds.flagField,
          sizeof]
        ring
      rw [← hsize] at hreads
      simpa using hreads

/-! ## CCS -/

/-- A CCS time code can be built: no digits after the second, and a P-field that fits. -/
structure WritesCcs : Prop where
  subseconds : a.idTime.numOfSubsecs = 0
  pfield : a.pfield = true →
    0 ≤ a.timeCodeIdentificationCcs ∧ a.timeCodeIdentificationCcs < 2 ^ 3

/-- The integers of a CCS time code without digits after the second. -/
def integersCcs (calendarVariation : Bool) (now : DateTime) : List (String × ℕ × ℕ) :=
  [("year", 2, now.year)] ++
  (if calendarVariation then [("dayOfYear", 2, now.dayOfYear)]
  else [("month", 1, now.month), ("dayOfMonth", 1, now.day)]) ++
  [("hour", 1, now.hour), ("minute", 1, now.minute), ("second", 1, now.second)]

/-- The P-field of a CCS time code without digits after the second. -/
def pfieldCcs : List (ℕ × ℤ) :=
  [Ccsds.flagField a.pfieldExtension, (3, a.timeCodeIdentificationCcs),
    Ccsds.flagField a.idTime.calendarVariation, (3, 0)]

theorem writesCcs_eq (now : DateTime) (hsubseconds : a.idTime.numOfSubsecs = 0) :
    a.writesCcs now = (if a.pfield then [bitStruct "pfield" a.pfieldCcs] else []) ++
      (integersCcs a.idTime.calendarVariation now).map fun i =>
        formatField i.1 i.2.1 (.int i.2.2) := by
  unfold writesCcs integersCcs pfieldCcs
  rw [hsubseconds]
  cases a.idTime.calendarVariation <;> simp

theorem integersCcs_fit (calendarVariation : Bool) (now : DateTime) :
    ∀ i ∈ integersCcs calendarVariation now, i.2.1 ≠ 0 ∧ i.2.2 < 256 ^ i.2.1 := by
  have hyear := now.valid.year_mem.2
  have hmonth := now.valid.month_mem.2
  have hday := now.day_le
  have hdayOfYear := now.dayOfYear_mem.2
  have hhour := now.valid.hour_lt
  have hminute := now.valid.minute_lt
  have hsecond := now.valid.second_lt
  cases calendarVariation <;> simp [integersCcs] <;> omega

/-- **CCS time codes that can be built.** The first digits after the second are a quotient,
which is no integer. -/
theorem succeeds_writesCcs (now : DateTime) :
    Succeeds ((a.writesCcs now).mapM id) ↔ a.WritesCcs := by
  rw [succeeds_mapM]
  constructor
  · intro hall
    have hsubseconds : a.idTime.numOfSubsecs = 0 := by
      by_contra hsome
      have hfirst : formatField "subseconds" 1 (.float (trueDivide now.microsecond (10 ^ 4))) ∈
          a.writesCcs now := by
        obtain ⟨count, hcount⟩ := Nat.exists_eq_succ_of_ne_zero hsome
        refine List.mem_append_right _ (List.mem_map.mpr ⟨_, ?_, rfl⟩)
        rw [hcount, subseconds, List.take_succ_cons]
        exact List.mem_cons_self
      have hbuilt := hall _ hfirst
      exact not_succeeds_formatField_float _ _ _ hbuilt
    refine ⟨hsubseconds, fun hpfield => ?_⟩
    rw [a.writesCcs_eq now hsubseconds, if_pos hpfield] at hall
    have hfits := succeeds_bitStruct.mp (hall (bitStruct "pfield" a.pfieldCcs) (by simp))
    simp only [pfieldCcs, fits_cons] at hfits
    exact hfits.2.1
  · rintro ⟨hsubseconds, hpfield⟩ write hwrite
    rw [a.writesCcs_eq now hsubseconds, List.mem_append] at hwrite
    rcases hwrite with hwrite | hwrite
    · split_ifs at hwrite with hpresent
      · rw [List.mem_singleton.mp hwrite]
        refine succeeds_bitStruct.mpr ?_
        simp only [pfieldCcs, fits_cons, fits_nil, flagField_fits, hpfield hpresent, true_and]
        norm_num
      · cases hwrite
    · obtain ⟨i, hi, rfl⟩ := List.mem_map.mp hwrite
      refine succeeds_formatField.mpr ⟨Int.natCast_nonneg _, ?_⟩
      exact_mod_cast (integersCcs_fit _ now i hi).2

theorem integersCcs_written {calendarVariation : Bool} {now : DateTime} {entries : List Entry}
    (h : List.Forall₂ (fun write entry => write = .ok entry)
      ((integersCcs calendarVariation now).map fun i => formatField i.1 i.2.1 (.int i.2.2)) entries) :
    List.Forall₂ (IntegerWritten zeroOctets)
      ((integersCcs calendarVariation now).map fun i => (i.1, i.2.1)) entries := by
  rw [List.forall₂_map_left_iff] at h ⊢
  have hfit := integersCcs_fit calendarVariation now
  generalize integersCcs calendarVariation now = items at h hfit
  induction h with
  | nil => exact .nil
  | @cons i entry items entries hwrite _ ih =>
    obtain ⟨hn, rfl⟩ := formatField_eq_ok.mp hwrite
    refine .cons (integerWritten (fun hzero => absurd hzero ?_) hn) (ih fun i hi => ?_)
    · exact (hfit i List.mem_cons_self).1
    · exact hfit i (List.mem_cons_of_mem _ hi)

theorem integersCcs_items (calendarVariation : Bool) (now : DateTime) :
    ((integersCcs calendarVariation now).map fun i => (i.1, i.2.1)) =
      itemsCCS 2 calendarVariation 0 := by
  cases calendarVariation <;> rfl

theorem sum_itemsCCS (calendarVariation : Bool) :
    ((itemsCCS 2 calendarVariation 0).map Prod.snd).sum = 7 := by
  cases calendarVariation <;> rfl

theorem reads_writesCcs {now : DateTime} {entries : List Entry} (hformat : a.timeFormat = .ccs)
    (hwrites : a.WritesCcs) (h : (a.writesCcs now).mapM id = .ok entries)
    (hcalendar : a.pfield = true → a.idTime.calendarVariation = false) :
    a.ReadsStamp zeroOctets entries := by
  have hentries := mapM_eq_ok.mp h
  rw [a.writesCcs_eq now hwrites.subseconds] at hentries
  rw [ReadsStamp, parser, SpacePacketParser.construct, if_pos rfl, SpacePacketParser.timestamp,
    if_pos rfl]
  simp only [hformat, hwrites.subseconds]
  cases hpresent : a.pfield with
  | false =>
    rw [hpresent] at hentries
    have hwritten := integersCcs_written zeroOctets hentries
    rw [integersCcs_items] at hwritten
    have hlength := length_flatMap_bytes hwritten
    rw [sum_itemsCCS] at hlength
    rw [hlength]
    exact (reads_integers hwritten).bind_pure fun fields => (fields, 7)
  | true =>
    rw [hpresent, if_pos rfl, List.singleton_append, List.forall₂_cons_left_iff] at hentries
    obtain ⟨head, rest, hhead, hrest, rfl⟩ := hentries
    have hheadWritten := written_of_bitStruct (by simp [pfieldCcs, Ccsds.flagField]) hhead
    have hwritten := integersCcs_written zeroOctets hrest
    rw [integersCcs_items, hcalendar hpresent] at hwritten
    have hlength := length_flatMap_bytes hwritten
    rw [sum_itemsCCS] at hlength
    have hfield := bitStructField_toNat "pfield" hheadWritten.fits
    rw [← hheadWritten.field] at hfield
    have hreads : Reads (timestampCCSWithPField zeroOctets) ((head :: rest).flatMap Entry.bytes)
        ((head :: rest).map Entry.field, (8 : ℤ)) := by
      rw [List.flatMap_cons, List.map_cons, ← hfield]
      refine hheadWritten.reads.bind ?_
      simp only [pfieldCcs, hcalendar hpresent]
      exact (reads_integers hwritten).bind_pure fun fields => (_ :: fields, 8)
    have hsize : ((head :: rest).flatMap Entry.bytes).length = 8 := by
      rw [List.flatMap_cons, List.length_append, hlength, hheadWritten.length]
      simp [sizeof, pfieldCcs, Ccsds.flagField]
    rw [hsize]
    exact hreads

/-- The bytes of a day of the year in two octets, read as the parser with a P-field does. -/
theorem reads_dayOfYear {head : Entry} (hhead : Written "pfield" a.pfieldCcs head)
    (hcalendar : a.idTime.calendarVariation = true) (year dayOfYear hour minute : ℕ) :
    Reads (timestampCCSWithPField zeroOctets)
      (head.bytes ++ (integerBytes 2 year ++ (integerBytes 1 (dayOfYear / 256) ++
        (integerBytes 1 dayOfYear ++ (integerBytes 1 hour ++ integerBytes 1 minute)))))
      (bitStructField "pfield" (a.pfieldCcs.map fun field => field.2.toNat) ::
        [("year", [((year % 256 ^ 2 : ℕ) : ℤ)]),
          ("dayOfYear", [((dayOfYear / 256 % 256 ^ 1 : ℕ) : ℤ)]),
          ("hour", [((dayOfYear % 256 ^ 1 : ℕ) : ℤ)]), ("minute", [((hour % 256 ^ 1 : ℕ) : ℤ)]),
          ("second", [((minute % 256 ^ 1 : ℕ) : ℤ)])], (8 : ℤ)) := by
  have hone : (1 : ℕ) = 0 → zeroOctets = true := fun h => absurd h Nat.one_ne_zero
  have htwo : (2 : ℕ) = 0 → zeroOctets = true := fun h => absurd h two_ne_zero
  have hpieces : List.Forall₂ (fun item piece => Reads (integerField zeroOctets item) piece.1 piece.2)
      (itemsCCS 1 true 0)
      [(integerBytes 2 year, ("year", [((year % 256 ^ 2 : ℕ) : ℤ)])),
        (integerBytes 1 (dayOfYear / 256),
          ("dayOfYear", [((dayOfYear / 256 % 256 ^ 1 : ℕ) : ℤ)])),
        (integerBytes 1 dayOfYear, ("hour", [((dayOfYear % 256 ^ 1 : ℕ) : ℤ)])),
        (integerBytes 1 hour, ("minute", [((hour % 256 ^ 1 : ℕ) : ℤ)])),
        (integerBytes 1 minute, ("second", [((minute % 256 ^ 1 : ℕ) : ℤ)]))] :=
    .cons (reads_integerBytes _ htwo year) (.cons (reads_integerBytes _ hone (dayOfYear / 256))
      (.cons (reads_integerBytes _ hone dayOfYear) (.cons (reads_integerBytes _ hone hour)
        (.cons (reads_integerBytes _ hone minute) .nil))))
  have hintegers := reads_mapM hpieces
  simp only [List.flatMap_cons, List.flatMap_nil, List.append_nil, List.map_cons, List.map_nil]
    at hintegers
  refine hhead.reads.bind ?_
  simp only [pfieldCcs, hcalendar]
  exact hintegers.bind_pure fun fields => (_ :: fields, 8)

/-- With a P-field, the day of the year is written into two octets and read from one. -/
theorem misreads_writesCcs {now : DateTime} {entries : List Entry} {after left : List Byte}
    {fields : List Field} {size : ℤ} (hwrites : a.WritesCcs)
    (h : (a.writesCcs now).mapM id = .ok entries) (hpfield : a.pfield = true)
    (hcalendar : a.idTime.calendarVariation = true)
    (hrun : (timestampCCSWithPField zeroOctets).run (entries.flatMap Entry.bytes ++ after) =
      .ok ((fields, size), left)) :
    fields ≠ entries.map Entry.field := by
  have hentries := mapM_eq_ok.mp h
  rw [a.writesCcs_eq now hwrites.subseconds, if_pos hpfield, List.singleton_append,
    List.forall₂_cons_left_iff] at hentries
  obtain ⟨head, rest, hhead, hrest, rfl⟩ := hentries
  have hheadWritten := written_of_bitStruct (by simp [pfieldCcs, Ccsds.flagField]) hhead
  rw [hcalendar] at hrest
  simp only [integersCcs, if_true, List.cons_append, List.nil_append, List.map_cons, List.map_nil,
    List.forall₂_cons_left_iff, List.forall₂_nil_left_iff, id_eq, formatField_eq_ok] at hrest
  obtain ⟨_, _, ⟨-, rfl⟩, ⟨_, _, ⟨-, rfl⟩, ⟨_, _, ⟨-, rfl⟩, ⟨_, _, ⟨-, rfl⟩,
    ⟨_, _, ⟨-, rfl⟩, rfl, rfl⟩, rfl⟩, rfl⟩, rfl⟩, rfl⟩ := hrest
  have hreads := a.reads_dayOfYear zeroOctets hheadWritten hcalendar now.year now.dayOfYear
    now.hour now.minute (integerBytes 1 now.second ++ after)
  simp only [List.flatMap_cons, List.flatMap_nil, Int.toNat_natCast, List.append_nil,
    integerBytes_two now.dayOfYear, List.append_assoc] at hrun hreads
  rw [hreads] at hrun
  obtain ⟨hfields, -⟩ := Prod.mk.inj (Prod.mk.inj (Except.ok.inj hrun)).1
  rw [← hfields]
  intro hsame
  -- the high octet of a day of the year is never the day
  have hvalue := congrArg (fun fields => ((fields.getD 2 default).2.getD 0 0 : ℤ)) hsame
  have hday : now.dayOfYear / 256 % 256 ^ 1 = now.dayOfYear := Int.natCast_inj.mp hvalue
  have hmem := now.dayOfYear_mem
  have hhigh : now.dayOfYear / 256 ≤ 1 := by omega
  rw [pow_one, Nat.mod_eq_of_lt (by omega)] at hday
  omega

theorem length_writesCcs {now : DateTime} {entries : List Entry} (hwrites : a.WritesCcs)
    (h : (a.writesCcs now).mapM id = .ok entries) :
    (entries.flatMap Entry.bytes).length = (if a.pfield then 1 else 0) + 7 := by
  have hentries := mapM_eq_ok.mp h
  rw [a.writesCcs_eq now hwrites.subseconds] at hentries
  split_ifs at hentries ⊢ with hpresent
  · rw [List.singleton_append, List.forall₂_cons_left_iff] at hentries
    obtain ⟨head, rest, hhead, hrest, rfl⟩ := hentries
    have hwritten := integersCcs_written false hrest
    rw [integersCcs_items] at hwritten
    rw [List.flatMap_cons, List.length_append, length_flatMap_bytes hwritten, sum_itemsCCS,
      (written_of_bitStruct (by simp [pfieldCcs, Ccsds.flagField]) hhead).length]
    simp [sizeof, pfieldCcs, Ccsds.flagField]
  · have hwritten := integersCcs_written false hentries
    rw [integersCcs_items] at hwritten
    rw [length_flatMap_bytes hwritten, sum_itemsCCS]

/-! ## CDS and ASCII -/

/-- No CDS time code can be built: the milliseconds are a quotient. -/
theorem not_succeeds_writesCds {now : DateTime} :
    ¬Succeeds ((a.writesCds zeroOctets now).mapM id) := by
  rw [succeeds_mapM]
  intro hall
  have hms : formatField "ms_of_day" 4 (.float (trueDivide now.microsecond 1000)) ∈
      a.writesCds zeroOctets now := by simp [writesCds]
  have hbuilt := hall _ hms
  exact not_succeeds_formatField_float _ _ _ hbuilt

/-- No ASCII time code can be built: a text makes no array of bytes. -/
theorem not_succeeds_headerAscii {text : String} : ¬Succeeds (a.headerAscii text) := by
  rintro ⟨entries, h⟩
  obtain ⟨bytes, hbytes, -⟩ := bind_eq_ok.mp h
  cases hbytes

end TimeStampAdder

end GrSatellites.SpacePacket
