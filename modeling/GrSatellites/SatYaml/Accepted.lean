import GrSatellites.SatYaml.Model

/-!
# What the validator checks

A document that `check_yaml` accepts, field by field. It says nothing about the entries of the
field `data`, the data of a transport or the transports of a transmitter.
-/

namespace GrSatellites.SatYaml

open Attempt Yaml

variable {yml d v : Value} {key : String}

/-- A name that is in the field `data`. -/
def InData (d name : Value) : Prop :=
  ∃ data, d.field? "data" = some data ∧ data.contains name = .ok true

/-- What holds of a transmitter that is accepted. -/
structure TransmitterAccepted (d transmitter : Value) : Prop where
  baudrate : ∃ rate, transmitter.field? "baudrate" = some rate
  modulation : ∃ word ∈ modulations, transmitter.field? "modulation" = some (.str word)
  framing : ∃ word ∈ framings, transmitter.field? "framing" = some (.str word)
  data : ∀ names, transmitter.field? "data" = some names →
    ∃ items, names.iterate = .ok items ∧ ∀ name ∈ items, InData d name
  additional : ∀ extra, transmitter.field? "additional_data" = some extra →
    ∃ fields, extra = .map fields ∧ ∀ field ∈ fields, InData d field.2

/-- What holds of a document that is accepted. -/
structure Accepted (d : Value) : Prop where
  data : ∃ data, d.field? "data" = some data
  transports : ∀ v, d.field? "transports" = some v → ∃ fields, v = .map fields ∧
    ∀ field ∈ fields, ∃ word ∈ SatYaml.transports, field.2.field? "protocol" = some (.str word)
  transmitters : ∃ fields, d.field? "transmitters" = some (.map fields) ∧
    ∀ field ∈ fields, TransmitterAccepted d field.2

theorem contains_field {fields : List (Scalar × Value)}
    (h : (Value.map fields).contains (.str key) = .ok true) :
    ∃ v, (Value.map fields).field? key = some v := by
  rw [Value.contains_map, Except.ok.injEq] at h
  exact Option.isSome_iff_exists.mp h

theorem requireWord_ok {words : List String} {missing unknown : PyError}
    (h : requireWord d key words missing unknown = .ok ()) :
    ∃ word ∈ words, d.field? key = some (.str word) := by
  obtain ⟨-, h⟩ := andThen_eq_ok.mp h
  obtain ⟨v, hv, hword⟩ := bind_eq_ok.mp h
  obtain ⟨word, hmem, rfl⟩ := Value.contains_strings.mp (require_eq_ok.mp hword)
  exact ⟨word, hmem, Value.item_eq_ok.mp hv⟩

theorem requireNumber_ok {missing wrong : PyError}
    (h : requireNumber d key missing wrong = .ok ()) : ∃ v, d.field? key = some v := by
  obtain ⟨-, h⟩ := andThen_eq_ok.mp h
  obtain ⟨v, hv, -⟩ := bind_eq_ok.mp (require_eq_ok.mp h)
  exact ⟨v, Value.item_eq_ok.mp hv⟩

theorem whenPresent_ok {check : Value → Except PyError Unit}
    (h : whenPresent d key check = .ok ()) (hv : d.field? key = some v) : check v = .ok () := by
  obtain ⟨fields, rfl⟩ := Value.exists_map_of_field? hv
  obtain ⟨b, hb, h⟩ := bind_eq_ok.mp h
  rw [Value.contains_map, hv, Except.ok.injEq, Option.isSome_some] at hb
  subst hb
  obtain ⟨v', hv', h⟩ := bind_eq_ok.mp h
  rw [Value.item_eq_ok, hv, Option.some.injEq] at hv'
  rwa [← hv'] at h

theorem requireName_ok {name : Value} {e : PyError} (h : requireName d "data" name e = .ok ()) :
    InData d name := by
  obtain ⟨data, hdata, hname⟩ := bind_eq_ok.mp h
  exact ⟨data, Value.item_eq_ok.mp hdata, require_eq_ok.mp hname⟩

theorem checkTransport_ok {k : Scalar} (h : checkTransport k v = .ok ()) :
    ∃ word ∈ transports, v.field? "protocol" = some (.str word) := by
  obtain ⟨hword, -⟩ := andThen_eq_ok.mp h
  exact requireWord_ok hword

theorem checkModulation_ok {k : Scalar} (h : checkModulation yml k v = .ok ()) :
    (∃ rate, v.field? "baudrate" = some rate) ∧
      ∃ word ∈ modulations, v.field? "modulation" = some (.str word) := by
  obtain ⟨-, h⟩ := andThen_eq_ok.mp h
  obtain ⟨hmodulation, h⟩ := andThen_eq_ok.mp h
  obtain ⟨hbaudrate, -⟩ := andThen_eq_ok.mp h
  exact ⟨requireNumber_ok hbaudrate, requireWord_ok hmodulation⟩

theorem checkFraming_ok {k : Scalar} (h : checkFraming yml k v = .ok ()) :
    ∃ word ∈ framings, v.field? "framing" = some (.str word) := by
  obtain ⟨hframing, -⟩ := andThen_eq_ok.mp h
  exact requireWord_ok hframing

theorem checkData_ok {k : Scalar} (h : checkData yml d k v = .ok ()) :
    ∀ names, v.field? "data" = some names →
      ∃ items, names.iterate = .ok items ∧ ∀ name ∈ items, InData d name := by
  intro names hnames
  obtain ⟨items, hitems, hall⟩ := bind_eq_ok.mp (whenPresent_ok h hnames)
  exact ⟨items, hitems, fun name hname => requireName_ok (forM_eq_ok.mp hall name hname)⟩

theorem checkAdditionalData_ok {k : Scalar} (h : checkAdditionalData yml d k v = .ok ()) :
    ∀ extra, v.field? "additional_data" = some extra →
      ∃ fields, extra = .map fields ∧ ∀ field ∈ fields, InData d field.2 := by
  intro extra hextra
  obtain ⟨fields, hfields, hall⟩ := bind_eq_ok.mp (whenPresent_ok h hextra)
  exact ⟨fields, Value.entries_eq_ok.mp hfields,
    fun field hfield => requireName_ok (forM_eq_ok.mp hall field hfield)⟩

/-- **A transmitter.** What the checks of a transmitter make sure of. -/
theorem transmitterAccepted {k : Scalar} (h : (do
      checkModulation yml k v
      checkFraming yml k v
      checkNames yml d k v) = Except.ok ()) : TransmitterAccepted d v := by
  obtain ⟨hmodulation, h⟩ := andThen_eq_ok.mp h
  obtain ⟨hframing, h⟩ := andThen_eq_ok.mp h
  obtain ⟨-, h⟩ := andThen_eq_ok.mp h
  obtain ⟨hdata, h⟩ := andThen_eq_ok.mp h
  obtain ⟨-, hadditional⟩ := andThen_eq_ok.mp h
  obtain ⟨hbaudrate, hword⟩ := checkModulation_ok hmodulation
  exact ⟨hbaudrate, hword, checkFraming_ok hframing, checkData_ok hdata,
    checkAdditionalData_ok hadditional⟩

/-- **A document.** What `check_yaml` makes sure of. -/
theorem accepted_of_checkYaml (h : checkYaml yml d = .ok ()) : Accepted d := by
  obtain ⟨words, -, h⟩ := bind_eq_ok.mp h
  obtain ⟨-, h⟩ := andThen_eq_ok.mp h
  obtain ⟨-, h⟩ := andThen_eq_ok.mp h
  obtain ⟨-, h⟩ := andThen_eq_ok.mp h
  obtain ⟨hnorad, h⟩ := andThen_eq_ok.mp h
  obtain ⟨-, h⟩ := andThen_eq_ok.mp h
  obtain ⟨hdata, h⟩ := andThen_eq_ok.mp h
  obtain ⟨htransports, h⟩ := andThen_eq_ok.mp h
  obtain ⟨-, h⟩ := andThen_eq_ok.mp h
  obtain ⟨transmitters, hitem, h⟩ := bind_eq_ok.mp h
  obtain ⟨fields, hfields, htransmitters⟩ := bind_eq_ok.mp h
  obtain ⟨norad, hitemNorad, -⟩ := bind_eq_ok.mp (require_eq_ok.mp hnorad)
  obtain ⟨top, rfl⟩ := Value.exists_map_of_field? (Value.item_eq_ok.mp hitemNorad)
  rw [Value.item_eq_ok] at hitem
  obtain rfl := Value.entries_eq_ok.mp hfields
  constructor
  case data => exact contains_field (require_eq_ok.mp hdata)
  case transports =>
    intro v hv
    obtain ⟨entries, hentries, hall⟩ := bind_eq_ok.mp (whenPresent_ok htransports hv)
    exact ⟨entries, Value.entries_eq_ok.mp hentries,
      fun entry hentry => checkTransport_ok (forM_eq_ok.mp hall entry hentry)⟩
  case transmitters =>
    exact ⟨fields, hitem,
      fun entry hentry => transmitterAccepted (forM_eq_ok.mp htransmitters entry hentry)⟩

end GrSatellites.SatYaml
