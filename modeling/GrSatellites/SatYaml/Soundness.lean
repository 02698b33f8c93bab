import GrSatellites.SatYaml.Accepted

/-!
# Which names are checked

The flowgraph finds the demodulators, deframers and protocols of a document that `check_yaml`
accepts, and the data sinks that its transmitters name. For the rest it depends on names that
nobody has checked: the condition is stated here, and it is exact.
-/

namespace GrSatellites.SatYaml

open Attempt Yaml

variable {packages : Packages} {options : Options} {hexdump : Bool} {d v info name : Value}
  {data : List (Scalar × Value)}

/-- A name that a package has. -/
def Named (has : String → Bool) (name : Value) : Prop := ∃ s, name = .str s ∧ has s = true

/-- The first of some fields that an entry has is a name that its package has. -/
def FirstResolves (info : Value) : List (String × (String → Bool)) → Prop
  | [] => True
  | (word, has) :: rest =>
    (∃ name, info.field? word = some name ∧ Named has name) ∨
      info.contains (.str word) = .ok false ∧ FirstResolves info rest

/-- The data sink of an entry exists. -/
def SinkResolves (packages : Packages) (info : Value) : Prop :=
  FirstResolves info [("decoder", packages.datasinks), ("telemetry", packages.telemetry),
    ("files", packages.filereceiver), ("image", packages.filereceiver)]

/-- An entry in which a word can be looked up. -/
def Searchable (info : Value) : Prop := ∃ b, info.contains (.str "telemetry") = .ok b

/-- An entry for telemetry. -/
def Telemetry (info : Value) : Prop :=
  info.contains (.str "telemetry") = .ok true ∨ info.same (.str "unknown") = true

/-- An entry that gets a data sink. -/
def Built (hexdump : Bool) (info : Value) : Prop := hexdump = true → ¬Telemetry info

/-- A name of an entry that gets a data sink. -/
def HasSink (hexdump : Bool) (data : List (Scalar × Value)) (name : Value) : Prop :=
  ∃ key, name = .scalar key ∧ ∃ entry ∈ data, entry.1.same key = true ∧ Built hexdump entry.2

/-- The names in a field that is a list, or that is not there. -/
def NamesIn (P : Value → Prop) (v : Option Value) : Prop :=
  ∀ names, v = some names → ∃ items, names.iterate = .ok items ∧ ∀ name ∈ items, P name

/-- The entries of a field, if it is there. -/
def fieldEntries (d : Value) (key : String) : List (Scalar × Value) :=
  match d.field? key with
  | some (.map entries) => entries
  | _ => []

/-- A name of an entry. -/
def HasKey {α : Type} (entries : List (Scalar × α)) (name : Value) : Prop :=
  ∃ key, name = .scalar key ∧ ∃ entry ∈ entries, entry.1.same key = true

/-- **What has to hold besides.** The entries of data have data sinks. Without `--hexdump` each
transport has data, with names of data. If the input are samples, the transports of a transmitter
are transports, and its additional data has ports of the deframer and names of data sinks. -/
structure Resolves (packages : Packages) (options : Options) (d : Value) : Prop where
  data : ∃ data, d.field? "data" = some (.map data)
  sinks : ∀ entry ∈ fieldEntries d "data",
    Searchable entry.2 ∧ (Built options.hexdump entry.2 → SinkResolves packages entry.2)
  transports : options.hexdump = false → ∀ entry ∈ fieldEntries d "transports",
    (∃ names, entry.2.field? "data" = some names) ∧
      NamesIn (HasKey (fieldEntries d "data")) (entry.2.field? "data")
  transmitters : options.pduIn = false → ∀ entry ∈ fieldEntries d "transmitters",
    NamesIn (HasKey (fieldEntries d "transports")) (entry.2.field? "transports") ∧
      ∀ extra ∈ fieldEntries entry.2 "additional_data",
        (∃ framing port, entry.2.field? "framing" = some (.str framing) ∧ extra.1 = .str port ∧
          port ∈ deframerPorts framing) ∧ HasSink options.hexdump (fieldEntries d "data") extra.2

/-! ## Lookups -/

theorem lookup_isSome_iff {α : Type} {entries : List (Scalar × α)} {key : Scalar} :
    (Value.lookup entries key).isSome = true ↔ ∃ entry ∈ entries, entry.1.same key = true := by
  rw [Value.lookup, Option.isSome_map, List.find?_isSome]

theorem succeeds_getKey {α : Type} {entries : List (Scalar × α)} :
    Succeeds (Value.getKey entries name) ↔ HasKey entries name := by
  unfold HasKey
  cases name with
  | scalar key =>
    rw [Value.getKey]
    cases hlookup : Value.lookup entries key with
    | none =>
      have hnone : ¬∃ entry ∈ entries, entry.1.same key = true := by
        rw [← lookup_isSome_iff, hlookup]
        exact Bool.false_ne_true
      simpa using hnone
    | some x =>
      have hsome : ∃ entry ∈ entries, entry.1.same key = true := by
        rw [← lookup_isSome_iff, hlookup]
        rfl
      simpa using hsome
  | seq items => simp [Value.getKey]
  | map fields => simp [Value.getKey]

theorem getKey_hooks {keys : List String} {word : String} (hword : word ∈ keys) :
    Value.getKey (hooks keys) (.str word) = .ok word := by
  have hlookup : Value.lookup (hooks keys) (.str word) = some word := by
    induction keys with
    | nil => cases hword
    | cons key keys ih =>
      unfold Value.lookup hooks at ih ⊢
      rw [List.map_cons, List.find?_cons]
      by_cases hkey : key = word
      · subst hkey
        simp [Scalar.same, Scalar.number?]
      · have hmem : word ∈ keys := (List.mem_cons.mp hword).resolve_left (Ne.symm hkey)
        simpa [Scalar.same, Scalar.number?, hkey] using ih hmem
  unfold Value.getKey Value.str
  simp only [hlookup]

theorem succeeds_getattr {has : String → Bool} : Succeeds (getattr has name) ↔ Named has name := by
  unfold Named
  cases name with
  | scalar x =>
    cases x with
    | str s => by_cases hs : has s = true <;> simp [getattr, Value.str, hs]
    | null => simp [getattr, Value.str]
    | bool b => simp [getattr, Value.str]
    | int n => simp [getattr, Value.str]
    | float x => simp [getattr, Value.str]
  | seq items => simp [getattr, Value.str]
  | map fields => simp [getattr, Value.str]

/-! ## Data sinks -/

/-- One branch of `_init_datasink`. -/
theorem succeeds_branch {word : String} {has : String → Bool} {make : String → Datasink}
    {rest : Except PyError Datasink} :
    Succeeds (do
      if ← info.contains (.str word) then return make (← getattr has (← info.item word))
      else rest) ↔
      (∃ name, info.field? word = some name ∧ Named has name) ∨
        info.contains (.str word) = .ok false ∧ Succeeds rest := by
  cases hfield : info.field? word with
  | some name =>
    obtain ⟨fields, rfl⟩ := Value.exists_map_of_field? hfield
    have hcontains : (Value.map fields).contains (.str word) = .ok true := by
      rw [Value.contains_map, hfield]
      rfl
    rw [hcontains, succeeds_bind]
    simp only [Except.ok.injEq, exists_eq_left', if_true, Value.item_eq_ok.mpr hfield,
      Option.some.injEq, reduceCtorEq, false_and, or_false]
    rw [← succeeds_getattr]
    constructor
    · intro h
      obtain ⟨name', hname, h⟩ := succeeds_bind.mp h
      cases hname
      obtain ⟨found, hfound, -⟩ := succeeds_bind.mp h
      exact ⟨found, hfound⟩
    · rintro ⟨found, hfound⟩
      exact succeeds_bind.mpr ⟨name, rfl, succeeds_bind.mpr ⟨found, hfound, succeeds_pure _⟩⟩
  | none =>
    have hnone : ∀ name, info.item word ≠ .ok name := by
      intro name hname
      rw [Value.item_eq_ok, hfield] at hname
      cases hname
    rw [succeeds_bind]
    constructor
    · rintro ⟨b, hb, hrest⟩
      cases b with
      | true =>
        obtain ⟨name, hname, -⟩ := succeeds_bind.mp hrest
        exact absurd hname (hnone name)
      | false => exact Or.inr ⟨hb, hrest⟩
    · rintro (⟨name, hname, -⟩ | ⟨hb, hrest⟩)
      · cases hname
      · exact ⟨false, hb, hrest⟩

theorem succeeds_initDatasink :
    Succeeds (initDatasink packages info) ↔ SinkResolves packages info := by
  unfold initDatasink SinkResolves
  rw [succeeds_branch, succeeds_branch, succeeds_branch, succeeds_branch]
  simp [FirstResolves]

theorem isTelemetry_eq_ok {b : Bool} :
    isTelemetry info = .ok b ↔ Searchable info ∧ (b = true ↔ Telemetry info) := by
  unfold isTelemetry Searchable Telemetry
  cases hcontains : info.contains (.str "telemetry") with
  | error e => simp [bind, Except.bind]
  | ok c =>
    cases b <;> cases c <;> simp [bind, Except.bind, pure, Except.pure]

theorem succeeds_isTelemetry : Succeeds (isTelemetry info) ↔ Searchable info := by
  unfold isTelemetry
  rw [succeeds_bind]
  constructor
  · rintro ⟨b, hb, -⟩
    exact ⟨b, hb⟩
  · rintro ⟨b, hb⟩
    exact ⟨b, hb, succeeds_pure _⟩

/-- The test that decides whether an entry gets a data sink. -/
theorem built_iff {telemetry : Bool} (h : telemetry = true ↔ Telemetry info) :
    (!telemetry || !hexdump) = true ↔ Built hexdump info := by
  unfold Built
  rw [← h]
  cases telemetry <;> cases hexdump <;> decide

theorem hasKey_cons {α : Type} {entry : Scalar × α} {entries : List (Scalar × α)} :
    HasKey (entry :: entries) name ↔
      (∃ key, name = .scalar key ∧ entry.1.same key = true) ∨ HasKey entries name := by
  simp only [HasKey, List.exists_mem_cons_iff, and_or_left, exists_or]

theorem hasSink_cons {entry : Scalar × Value} :
    HasSink hexdump (entry :: data) name ↔
      (∃ key, name = .scalar key ∧ entry.1.same key = true ∧ Built hexdump entry.2) ∨
        HasSink hexdump data name := by
  simp only [HasSink, List.exists_mem_cons_iff, and_or_left, exists_or]

/-- **Data sinks.** They are built if words can be looked up in all entries of data and the data
sink of each entry that gets one exists. -/
theorem succeeds_initDatasinks (hexdump : Bool) (data : List (Scalar × Value)) :
    Succeeds (initDatasinks packages hexdump data) ↔ ∀ entry ∈ data,
      Searchable entry.2 ∧ (Built hexdump entry.2 → SinkResolves packages entry.2) := by
  induction data with
  | nil => simp [initDatasinks]
  | cons entry data ih =>
    rw [List.forall_mem_cons, initDatasinks, succeeds_bind, ← ih]
    constructor
    · rintro ⟨telemetry, htelemetry, h⟩
      obtain ⟨hsearch, hiff⟩ := isTelemetry_eq_ok.mp htelemetry
      by_cases hbuilt : Built hexdump entry.2
      · rw [if_pos ((built_iff hiff).mpr hbuilt)] at h
        obtain ⟨sink, hsink, h⟩ := succeeds_bind.mp h
        obtain ⟨sinks, hsinks, -⟩ := succeeds_bind.mp h
        exact ⟨⟨hsearch, fun _ => succeeds_initDatasink.mp ⟨sink, hsink⟩⟩, sinks, hsinks⟩
      · rw [if_neg (mt (built_iff hiff).mp hbuilt)] at h
        exact ⟨⟨hsearch, fun h => absurd h hbuilt⟩, h⟩
    · rintro ⟨⟨hsearch, hresolves⟩, hrest⟩
      obtain ⟨telemetry, htelemetry⟩ := succeeds_isTelemetry.mpr hsearch
      obtain ⟨-, hiff⟩ := isTelemetry_eq_ok.mp htelemetry
      refine ⟨telemetry, htelemetry, ?_⟩
      split
      case isTrue hcond =>
        obtain ⟨sink, hsink⟩ := succeeds_initDatasink.mpr (hresolves ((built_iff hiff).mp hcond))
        obtain ⟨sinks, hsinks⟩ := hrest
        exact succeeds_bind.mpr ⟨sink, hsink, succeeds_bind.mpr ⟨sinks, hsinks, succeeds_pure _⟩⟩
      case isFalse => exact hrest

/-- The data sinks have the names of the entries that get one. -/
theorem hasKey_initDatasinks {sinks : List (Scalar × Datasink)}
    (h : initDatasinks packages hexdump data = .ok sinks) (name : Value) :
    HasKey sinks name ↔ HasSink hexdump data name := by
  induction data generalizing sinks with
  | nil =>
    cases h
    simp [HasKey, HasSink]
  | cons entry data ih =>
    rw [initDatasinks] at h
    obtain ⟨telemetry, htelemetry, h⟩ := bind_eq_ok.mp h
    obtain ⟨hsearch, hiff⟩ := isTelemetry_eq_ok.mp htelemetry
    rw [hasSink_cons]
    split at h
    case isTrue hcond =>
      have hbuilt := (built_iff hiff).mp hcond
      obtain ⟨sink, hsink, h⟩ := bind_eq_ok.mp h
      obtain ⟨rest, hrest, h⟩ := bind_eq_ok.mp h
      cases h
      rw [hasKey_cons, ih hrest]
      simp only [hbuilt, and_true]
    case isFalse hcond =>
      have hbuilt := mt (built_iff hiff).mpr hcond
      rw [ih h]
      simp only [hbuilt, and_false, exists_false, false_or]

/-! ## Connections -/

theorem succeeds_connectAll {sinks : List (Scalar × Datasink)} {source : Source}
    {names : List Value} :
    Succeeds (connectAll sinks source names) ↔ ∀ name ∈ names, HasKey sinks name := by
  rw [connectAll, succeeds_mapM]
  refine forall₂_congr fun name _ => ?_
  rw [← succeeds_getKey, succeeds_bind]
  constructor
  · rintro ⟨sink, hsink, -⟩
    exact ⟨sink, hsink⟩
  · rintro ⟨sink, hsink⟩
    refine ⟨sink, hsink, ?_⟩
    cases name with
    | scalar key => exact succeeds_pure _
    | seq items => cases hsink
    | map fields => cases hsink

theorem getList_map {fields : List (Scalar × Value)} {key : String} :
    (Value.map fields).getList key = .ok (((Value.map fields).field? key).getD (.seq [])) := rfl

theorem succeeds_connectNames {fields : List (Scalar × Value)} {key : String}
    {connect : Value → Except PyError (List (Source × Target))} :
    Succeeds (connectNames (.map fields) key connect) ↔
      NamesIn (fun name => Succeeds (connect name)) ((Value.map fields).field? key) := by
  have hloop (names : Value) :
      Succeeds (do return (← (← names.iterate).mapM connect).flatten) ↔
        ∃ items, names.iterate = .ok items ∧ ∀ name ∈ items, Succeeds (connect name) := by
    rw [succeeds_bind]
    refine exists_congr fun items => and_congr_right fun _ => ?_
    rw [← succeeds_mapM]
    exact succeeds_bind_pure
  rw [connectNames, getList_map, succeeds_bind]
  constructor
  · rintro ⟨names, hnames, h⟩ v hv
    rw [hv, Option.getD_some, Except.ok.injEq] at hnames
    subst hnames
    exact (hloop v).mp h
  · intro h
    refine ⟨_, rfl, (hloop _).mpr ?_⟩
    cases hfield : (Value.map fields).field? key with
    | none => exact ⟨[], rfl, fun name hname => nomatch hname⟩
    | some names => exact h names hfield

theorem succeeds_connectTransport {transports : List (Scalar × Value)} {key : Scalar} :
    Succeeds (connectTransport transports key name) ↔ HasKey transports name := by
  rw [← succeeds_getKey]
  cases name with
  | scalar k => exact succeeds_bind_pure
  | seq items => simp [connectTransport, Value.getKey, succeeds_bind]
  | map fields => simp [connectTransport, Value.getKey, succeeds_bind]

/-- A name of data may be without a data sink. -/
theorem succeeds_connectDatum {sinks : List (Scalar × Datasink)} {key : Scalar} :
    Succeeds (connectDatum sinks key name) ↔ ∃ k, name = .scalar k := by
  rw [connectDatum, succeeds_bind]
  cases name with
  | scalar k =>
    refine iff_of_true ⟨_, rfl, ?_⟩ ⟨k, rfl⟩
    split
    case isTrue hkey =>
      refine succeeds_connectAll.mpr (List.forall_mem_singleton.mpr ⟨k, rfl, ?_⟩)
      exact lookup_isSome_iff.mp hkey
    case isFalse => exact succeeds_pure _
  | seq items => simp [Value.hasKey]
  | map fields => simp [Value.hasKey]

theorem succeeds_findPort {framing : String} {port : Scalar} :
    Succeeds (findPort framing port) ↔ ∃ word, port = .str word ∧ word ∈ deframerPorts framing := by
  cases port with
  | str word => by_cases hword : word ∈ deframerPorts framing <;> simp [findPort, hword]
  | null => simp [findPort]
  | bool b => simp [findPort]
  | int n => simp [findPort]
  | float x => simp [findPort]

theorem succeeds_connectPort {sinks : List (Scalar × Datasink)} {framing : String} {key : Scalar}
    {entry : Scalar × Value} :
    Succeeds (connectPort sinks framing key entry) ↔
      (∃ word, entry.1 = .str word ∧ word ∈ deframerPorts framing) ∧ HasKey sinks entry.2 := by
  rw [← succeeds_findPort, connectPort, succeeds_bind, succeeds_connectAll,
    List.forall_mem_singleton]
  constructor
  · rintro ⟨u, hu, h⟩
    exact ⟨⟨u, hu⟩, h⟩
  · rintro ⟨⟨u, hu⟩, h⟩
    exact ⟨u, hu, h⟩

/-- The entries of additional data, once they are known to be a dictionary. -/
theorem succeeds_connectAdditionalData {sinks : List (Scalar × Datasink)} {framing : String}
    {key : Scalar} {fields : List (Scalar × Value)}
    (hextra : ∀ extra, (Value.map fields).field? "additional_data" = some extra →
      ∃ entries, extra = .map entries) :
    Succeeds (connectAdditionalData sinks framing key (.map fields)) ↔
      ∀ entry ∈ fieldEntries (.map fields) "additional_data",
        (∃ word, entry.1 = .str word ∧ word ∈ deframerPorts framing) ∧ HasKey sinks entry.2 := by
  rw [connectAdditionalData, Value.contains_map, succeeds_bind, fieldEntries]
  cases hfield : (Value.map fields).field? "additional_data" with
  | none => simp
  | some extra =>
    obtain ⟨entries, rfl⟩ := hextra extra hfield
    have hloop : Succeeds (do
        let additional ← (← (Value.map fields).item "additional_data").entries
        return (← additional.mapM (connectPort sinks framing key)).flatten) ↔
          ∀ entry ∈ entries, Succeeds (connectPort sinks framing key entry) := by
      rw [Value.item_eq_ok.mpr hfield, ← succeeds_mapM]
      exact succeeds_bind_pure
    simp only [Option.isSome_some, Except.ok.injEq, exists_eq_left', if_true]
    rw [hloop]
    exact forall₂_congr fun entry _ => succeeds_connectPort

/-! ## The flowgraph -/

/-- A transport of an accepted document is connected if its data has names of data sinks. -/
theorem succeeds_initTransport {sinks : List (Scalar × Datasink)} {entry : Scalar × Value}
    (hprotocol : ∃ word ∈ transports, entry.2.field? "protocol" = some (.str word)) :
    Succeeds (initTransport options sinks entry) ↔
      (options.hexdump = false → (∃ names, entry.2.field? "data" = some names) ∧
        NamesIn (HasKey sinks) (entry.2.field? "data")) := by
  obtain ⟨word, hword, hfield⟩ := hprotocol
  obtain ⟨key, info⟩ := entry
  obtain ⟨fields, rfl⟩ := Value.exists_map_of_field? hfield
  have hhook : Value.getKey (hooks transportHooks) (.str word) = .ok word := getKey_hooks hword
  have hargs : Succeeds (transportArgs (.map fields)) := by
    rw [transportArgs, Value.contains_map, succeeds_bind]
    cases hchannels : (Value.map fields).field? "virtual_channels" with
    | none => exact ⟨false, rfl, succeeds_pure _⟩
    | some channels =>
      exact ⟨true, rfl, succeeds_bind_pure.mpr ⟨channels, Value.item_eq_ok.mpr hchannels⟩⟩
  obtain ⟨args, hargs⟩ := hargs
  have hdata : Succeeds (do
      connectAll sinks (.transport key) (← (← (Value.map fields).item "data").iterate)) ↔
        (∃ names, (Value.map fields).field? "data" = some names) ∧
          NamesIn (HasKey sinks) ((Value.map fields).field? "data") := by
    rw [succeeds_bind]
    constructor
    · rintro ⟨names, hnames, h⟩
      obtain ⟨items, hitems, h⟩ := succeeds_bind.mp h
      rw [Value.item_eq_ok] at hnames
      refine ⟨⟨names, hnames⟩, fun v hv => ?_⟩
      obtain rfl : names = v := Option.some.inj (hnames.symm.trans hv)
      exact ⟨items, hitems, succeeds_connectAll.mp h⟩
    · rintro ⟨⟨names, hnames⟩, h⟩
      obtain ⟨items, hitems, hall⟩ := h names hnames
      exact ⟨names, Value.item_eq_ok.mpr hnames,
        succeeds_bind.mpr ⟨items, hitems, succeeds_connectAll.mpr hall⟩⟩
  rw [← hdata, initTransport]
  simp only [hargs, Value.item_eq_ok.mpr hfield, hhook, succeeds_bind, Except.ok.injEq,
    exists_eq_left']
  cases options.hexdump with
  | true => simp
  | false => simp [succeeds_bind]

/-- Every modulation and every framing has its block. -/
theorem hooks_complete :
    (∀ word ∈ modulations, word ∈ demodulatorHooks) ∧ (∀ word ∈ framings, word ∈ deframerHooks) ∧
      ∀ word ∈ transports, word ∈ transportHooks := by
  decide

theorem succeeds_connectTransmitterToData {sinks : List (Scalar × Datasink)}
    {transports : List (Scalar × Value)} {framing : String} {key : Scalar} {transmitter : Value} :
    Succeeds (connectTransmitterToData sinks transports framing key transmitter) ↔
      Succeeds (connectNames transmitter "data" (connectDatum sinks key)) ∧
        Succeeds (connectNames transmitter "transports" (connectTransport transports key)) ∧
          Succeeds (connectAdditionalData sinks framing key transmitter) := by
  rw [connectTransmitterToData]
  constructor
  · intro h
    obtain ⟨toData, hdata, h⟩ := succeeds_bind.mp h
    obtain ⟨toTransports, htransports, h⟩ := succeeds_bind.mp h
    exact ⟨⟨toData, hdata⟩, ⟨toTransports, htransports⟩, succeeds_bind_pure.mp h⟩
  · rintro ⟨⟨toData, hdata⟩, ⟨toTransports, htransports⟩, h⟩
    exact succeeds_bind.mpr ⟨toData, hdata, succeeds_bind.mpr
      ⟨toTransports, htransports, succeeds_bind_pure.mpr h⟩⟩

/-- A transmitter of an accepted document is connected if its transports are transports, and its
additional data has ports of the deframer and names of data sinks. -/
theorem succeeds_initDemodulatorDeframer {sinks : List (Scalar × Datasink)}
    {transports : List (Scalar × Value)} {entry : Scalar × Value}
    (haccepted : TransmitterAccepted d entry.2) (hd : d.field? "data" = some (.map data)) :
    Succeeds (initDemodulatorDeframer sinks transports entry) ↔
      NamesIn (HasKey transports) (entry.2.field? "transports") ∧
        ∀ extra ∈ fieldEntries entry.2 "additional_data",
          (∃ framing port, entry.2.field? "framing" = some (.str framing) ∧ extra.1 = .str port ∧
            port ∈ deframerPorts framing) ∧ HasKey sinks extra.2 := by
  obtain ⟨key, transmitter⟩ := entry
  obtain ⟨⟨rate, hrate⟩, ⟨modulation, hmodulation, hfieldM⟩, ⟨framing, hframing, hfieldF⟩, hdata,
    hadditional⟩ := haccepted
  obtain ⟨fields, rfl⟩ := Value.exists_map_of_field? hrate
  have hdemodulator : Value.getKey (hooks demodulatorHooks) (.str modulation) = .ok modulation :=
    getKey_hooks (hooks_complete.1 modulation hmodulation)
  have hdeframer : Value.getKey (hooks deframerHooks) (.str framing) = .ok framing :=
    getKey_hooks (hooks_complete.2.1 framing hframing)
  have hnames : NamesIn (fun name => Succeeds (connectDatum sinks key name))
      ((Value.map fields).field? "data") := by
    intro names hfield
    obtain ⟨items, hitems, hall⟩ := hdata names hfield
    refine ⟨items, hitems, fun name hname => succeeds_connectDatum.mpr ?_⟩
    obtain ⟨v, hv, hcontains⟩ := hall name hname
    obtain rfl : Value.map data = v := Option.some.inj (hd.symm.trans hv)
    cases name with
    | scalar k => exact ⟨k, rfl⟩
    | seq items => cases hcontains
    | map fields => cases hcontains
  have hfields : (Value.map fields).entries = .ok fields := rfl
  have hport (extra : Scalar × Value) :
      (∃ framing port, (Value.map fields).field? "framing" = some (.str framing) ∧
        extra.1 = .str port ∧ port ∈ deframerPorts framing) ↔
      ∃ port, extra.1 = .str port ∧ port ∈ deframerPorts framing := by
    constructor
    · rintro ⟨word, port, hword, hport⟩
      have hsame : Value.str framing = .str word := Option.some.inj (hfieldF.symm.trans hword)
      injection hsame with hsame
      injection hsame with hsame
      subst hsame
      exact ⟨port, hport⟩
    · rintro ⟨port, hport⟩
      exact ⟨framing, port, hfieldF, hport⟩
  rw [initDemodulatorDeframer]
  simp only [Value.item_eq_ok.mpr hrate, Value.item_eq_ok.mpr hfieldM, Value.item_eq_ok.mpr hfieldF,
    hfields, hdemodulator, hdeframer, succeeds_bind, Except.ok.injEq, exists_eq_left', hport]
  rw [succeeds_connectTransmitterToData, succeeds_connectNames, succeeds_connectNames,
    succeeds_connectAdditionalData, and_iff_right hnames]
  · simp only [succeeds_connectTransport]
  · intro extra hextra
    obtain ⟨entries, hentries, -⟩ := hadditional extra hextra
    exact ⟨entries, hentries⟩

theorem namesIn_congr {P Q : Value → Prop} {v : Option Value} (h : ∀ name, P name ↔ Q name) :
    NamesIn P v ↔ NamesIn Q v := by
  have hPQ : P = Q := funext fun name => propext (h name)
  rw [hPQ]

theorem transportEntries_eq (hd : ∃ top, d = .map top)
    (htransports : ∀ v, d.field? "transports" = some v → ∃ fields, v = .map fields) :
    transportEntries d = .ok (fieldEntries d "transports") := by
  obtain ⟨top, rfl⟩ := hd
  rw [transportEntries, Value.contains_map, fieldEntries]
  cases hfield : (Value.map top).field? "transports" with
  | none => rfl
  | some v =>
    obtain ⟨fields, rfl⟩ := htransports v hfield
    refine bind_eq_ok.mpr ⟨true, rfl, ?_⟩
    exact bind_eq_ok.mpr ⟨.map fields, Value.item_eq_ok.mpr hfield, rfl⟩

/-- Without `--hexdump` every entry gets a data sink. -/
theorem hasSink_false : HasSink false data name ↔ HasKey data name := by
  simp [HasSink, HasKey, Built]

theorem succeeds_build (packages : Packages) (options : Options)
    (hdata : d.item "data" = .ok (.map data))
    {transports transmitters : List (Scalar × Value)}
    (htransports : transportEntries d = .ok transports)
    (htransmitters : transmitterEntries options.pduIn d = .ok transmitters) :
    Succeeds (build packages options d) ↔
      ∃ sinks, initDatasinks packages options.hexdump data = .ok sinks ∧
        (∀ entry ∈ transports, Succeeds (initTransport options sinks entry)) ∧
          ∀ entry ∈ transmitters, Succeeds (initDemodulatorDeframer sinks transports entry) := by
  have hentries : (Value.map data).entries = .ok data := rfl
  rw [build]
  simp only [hdata, hentries, htransports, htransmitters, succeeds_bind, Except.ok.injEq,
    exists_eq_left', succeeds_pure, and_true, ← succeeds_mapM]
  refine exists_congr fun sinks => and_congr_right fun _ => ?_
  constructor
  · rintro ⟨connections, hconnections, h⟩
    exact ⟨⟨connections, hconnections⟩, h⟩
  · rintro ⟨⟨connections, hconnections⟩, h⟩
    exact ⟨connections, hconnections, h⟩

/-- A dictionary with names as keys. -/
def dict (entries : List (String × Value)) : Value :=
  .map (entries.map fun entry => (.str entry.1, entry.2))

/-- A file with one transmitter, with some transports and those that the transmitter uses. -/
def kissFile (transports used : Value) : Value :=
  dict [("name", .str "KISSSAT"), ("norad", .scalar (.int 99999)),
    ("data", dict [("Telemetry", .str "unknown")]), ("transports", transports),
    ("transmitters", dict [("9k6 FSK", dict [("frequency", .scalar (.int 437000000)),
      ("modulation", .str "FSK"), ("baudrate", .scalar (.int 9600)), ("framing", .str "AX.25"),
      ("transports", used)])])]

/-- Packages without names. -/
def noPackages : Packages := ⟨fun _ => false, fun _ => false, fun _ => false⟩

/-- The key of a `KeyError`. -/
def missingKey? {α : Type} : Except PyError α → Option Scalar
  | .error (.keyError key) => some key
  | _ => none

theorem eq_keyError {α : Type} {x : Except PyError α} {key : Scalar}
    (h : missingKey? x = some key) : x = .error (.keyError key) := by
  unfold missingKey? at h
  split at h
  case h_1 key' => rw [Option.some.inj h]
  case h_2 => cases h

/-- A file in which the transport of the transmitter is a transport, with data. -/
def soundFile : Value :=
  kissFile (dict [("KISS", dict [("protocol", .str "KISS"), ("data", .seq [.str "Telemetry"])])])
    (.seq [.str "KISS"])

end GrSatellites.SatYaml
