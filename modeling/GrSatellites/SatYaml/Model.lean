import GrSatellites.Library.Attempt
import GrSatellites.Library.Yaml

/-!
# SatYAML files and the flowgraph

The validator `check_yaml` of `python/satyaml/satyaml.py`, and the part of
`python/core/gr_satellites_flowgraph.py` that looks up the names of a file: its data
sinks, transports, demodulators and deframers, and how they are connected.
-/

namespace GrSatellites.SatYaml

open Attempt Yaml

/-! ## The validator -/

/-- `SatYAML.modulations`. -/
def modulations : List String :=
  ["AFSK", "FSK", "BPSK", "BPSK Manchester", "DBPSK", "DBPSK Manchester", "FSK subaudio"]

/-- `SatYAML.framings`. -/
def framings : List String :=
  ["AX.25", "AX.25 G3RUH", "AX100 ASM+Golay", "AX100 Reed Solomon",
    "3CAT-1", "Astrocast FX.25 NRZ-I", "Astrocast FX.25 NRZ",
    "AO-40 FEC", "AO-40 FEC short", "AO-40 uncoded", "TT-64", "ESEO",
    "Lucky-7", "Reaktor Hello World", "S-NET", "Swiatowid", "NuSat",
    "K2SAT", "CCSDS Reed-Solomon", "CCSDS Concatenated", "CCSDS Uncoded",
    "LilacSat-1", "AAUSAT-4", "NGHam", "NGHam no Reed Solomon",
    "SMOG-P RA", "SMOG-1 RA", "SMOG-P Signalling", "SMOG-1 Signalling",
    "MRC-100 RA",
    "OPS-SAT", "U482C", "UA01", "SALSAT", "Mobitex", "Mobitex-NX",
    "FOSSASAT", "AISTECHSAT-2", "AALTO-1", "Grizu-263A", "IDEASSat",
    "YUSAT", "AX5043", "USP", "AO-40 FEC CRC-16-ARC",
    "AO-40 FEC CRC-16-ARC short", "DIY-1", "BINAR-1", "Endurosat",
    "SanoSat", "FORESAIL-1", "HSU-SAT1", "GEOSCAN", "Light-1",
    "SPINO", "QUBIK", "BINAR-2", "OpenLST", "HADES-D", "HADES-R",
    "BEESAT-1", "BEESAT-9"]

/-- `SatYAML.transports`. -/
def transports : List String :=
  ["KISS", "KISS no control byte", "KISS KS-1Q", "TM KISS", "TM short KISS"]

/-- `SatYAML.top_level_words`. -/
def topLevelWords : List String :=
  ["name", "alternative_names", "norad", "telemetry_servers", "data", "transports",
    "transmitters"]

/-- A check of the value of a field, if there is one. -/
def whenPresent (d : Value) (key : String) (check : Value → Except PyError Unit) :
    Except PyError Unit := do
  if ← d.contains (.str key) then check (← d.item key) else return

/-- A field that has to be there and be a number. -/
def requireNumber (d : Value) (key : String) (missing wrong : PyError) : Except PyError Unit := do
  require (d.contains (.str key)) missing
  require (return (← d.item key).isNumber) wrong

/-- A field that has to be there and be one of some words. -/
def requireWord (d : Value) (key : String) (words : List String) (missing unknown : PyError) :
    Except PyError Unit := do
  require (d.contains (.str key)) missing
  require ((Value.strings words).contains (← d.item key)) unknown

/-- The test of a telemetry server. -/
def knownServer (server : Value) : Except PyError Bool := do
  if ← (Value.strings ["SatNOGS", "FUNcube", "PWSat", "BME", "BMEWS"]).contains server then
    return true
  if ← server.startsWith "HIT " then return true
  server.startsWith "SIDS "

/-- The checks of a transport. -/
def checkTransport (key : Scalar) (transport : Value) : Except PyError Unit := do
  requireWord transport "protocol" transports
    (.raised "Missing protocol field in transport {key}" [.scalar key])
    (.raised "Unknown protocol field in transport {key}" [.scalar key])
  if ← (Value.strings ["TM KISS", "TM short KISS"]).contains (← transport.item "protocol") then
    require (transport.contains (.str "virtual_channels"))
      (.raised "virtual_channels field missing in transport {key}" [.scalar key])
    require (return (← transport.item "virtual_channels").isList)
      (.raised "virtual_channels is not a list" [])
    let channels ← (← transport.item "virtual_channels").iterate
    channels.forM fun vc =>
      require (.ok vc.isIntOrBool) (.raised "virtual_channel value is not an int" [])

/-- The checks of the frequency, the modulation and the rate of a transmitter. -/
def checkModulation (yml : Value) (key : Scalar) (transmitter : Value) : Except PyError Unit := do
  let place := [.scalar key, yml]
  requireNumber transmitter "frequency" (.raised "Missing frequency field in {key} in {yml}" place)
    (.raised "Frequency field does not contain a float in {key} in {yml}" place)
  requireWord transmitter "modulation" modulations
    (.raised "Missing modulation field in {key} in {yml}" place)
    (.raised "Unknown modulation in {key} in {yml}" place)
  requireNumber transmitter "baudrate" (.raised "Missing baudrate field in {key} in {yml}" place)
    (.raised "Baudrate field does not contain a float in {key} in {yml}" place)
  if (← transmitter.item "modulation").same (.str "AFSK") then
    require (transmitter.contains (.str "af_carrier"))
      (.raised "Missing af_carrier field for AFSK in {key} in {yml}" place)
    require (transmitter.contains (.str "deviation"))
      (.raised "Missing deviation field for AFSK in {key} in {yml}" place)
  whenPresent transmitter "af_carrier" fun value => require (.ok value.isNumber)
    (.raised "af_carrier field does not contain a float in {key} in {yml}" place)
  whenPresent transmitter "deviation" fun value => require (.ok value.isNumber)
    (.raised "Deviation field does not contain a float in {key} in {yml}" place)
  whenPresent transmitter "fm_deviation" fun value => require (.ok value.isNumber)
    (.raised "FM deviation field does not contain a float in {key} in {yml}" place)

/-- The checks of the framing of a transmitter. -/
def checkFraming (yml : Value) (key : Scalar) (transmitter : Value) : Except PyError Unit := do
  let place := [.scalar key, yml]
  requireWord transmitter "framing" framings
    (.raised "Missing framing field in {key} in {yml}" place)
    (.raised "Unknown framing in {key} in {yml}" place)
  if ← (Value.strings ["CCSDS Reed-Solomon", "CCSDS Concatenated"]).contains
      (← transmitter.item "framing") then
    require (transmitter.contains (.str "RS basis"))
      (.raised "No RS basis field in {key} in {yml}" place)
    whenPresent transmitter "precoding" fun value =>
      require (.ok (value.same (.str "differential")))
        (.raised "Invalid precoding value {value} for {key} in {yml}" (value :: place))
    let basis ← transmitter.item "RS basis"
    require ((Value.strings ["conventional", "dual"]).contains basis)
      (.raised "Invalid RS basis value {value} for {key} in {yml}" (basis :: place))
    whenPresent transmitter "RS interleaving" fun value => require (.ok value.isInt)
      (.raised "RS interleaving does not contain an int in {key} in {yml}" place)
    whenPresent transmitter "scrambler" fun value =>
      require ((Value.strings ["CCSDS", "none"]).contains value)
        (.raised "Invalid scrambler value {value} for {key} in {yml}" (value :: place))
    whenPresent transmitter "convolutional" fun value =>
      require ((Value.strings ["CCSDS", "NASA-DSN", "CCSDS uninverted",
          "NASA-DSN uninverted"]).contains value)
        (.raised "Invalid convolutional value {value} for {key} in {yml}" (value :: place))

/-- A name that has to be in a field of the document. -/
def requireName (d : Value) (key : String) (name : Value) (e : PyError) : Except PyError Unit := do
  require ((← d.item key).contains name) e

/-- The check of the names of data. -/
def checkData (yml d : Value) (key : Scalar) (transmitter : Value) : Except PyError Unit :=
  whenPresent transmitter "data" fun names => do
    (← names.iterate).forM fun dd => requireName d "data" dd
      (.raised "Data entry {dd} used in {key} is not defined in data field in {yml}"
        [dd, .scalar key, yml])

/-- The check of the names of transports. It is made if there is a field `transport`, which the
format does not have. -/
def checkTransports (yml d : Value) (key : Scalar) (transmitter : Value) :
    Except PyError Unit := do
  if ← transmitter.contains (.str "transport") then
    (← (← transmitter.item "transports").iterate).forM fun t => requireName d "transports" t
      (.raised "Transport entry {t} used in {key} is not defined in transports field in {yml}"
        [t, .scalar key, yml])

/-- The check of the names of additional data. -/
def checkAdditionalData (yml d : Value) (key : Scalar) (transmitter : Value) :
    Except PyError Unit :=
  whenPresent transmitter "additional_data" fun additional => do
    (← additional.entries).forM fun entry => requireName d "data" entry.2
      (.raised "Additional data entry {dd} used in {key} is not defined in data field in {yml}"
        [entry.2, .scalar key, yml])

/-- The checks of the names that a transmitter uses. -/
def checkNames (yml d : Value) (key : Scalar) (transmitter : Value) : Except PyError Unit := do
  require (return (← transmitter.contains (.str "data")) ||
      (← transmitter.contains (.str "transports")))
    (.raised "No data or transport field in {key} in {yml}" [.scalar key, yml])
  checkData yml d key transmitter
  checkTransports yml d key transmitter
  checkAdditionalData yml d key transmitter

/-- `SatYAML.check_yaml`, for a document `d` that is loaded from the file `yml`. -/
def checkYaml (yml d : Value) : Except PyError Unit := do
  (← d.iterate).forM fun word =>
    require ((Value.strings topLevelWords).contains word)
      (.raised "Unknown word {word} in {yml}" [word, yml])
  require (d.contains (.str "name")) (.raised "Missing name field in {yml}" [yml])
  require (d.contains (.str "norad")) (.raised "Missing norad field in {yml}" [yml])
  require (return (← d.item "norad").isInt)
    (.raised "NORAD field does not contain a number in {yml}" [yml])
  whenPresent d "telemetry_servers" fun servers => do
    (← servers.iterate).forM fun server =>
      require (knownServer server) (.raised "Unknown telemetry server {server}" [server])
  require (d.contains (.str "data")) (.raised "Missing data field in {yml}" [yml])
  whenPresent d "transports" fun transports => do
    (← transports.entries).forM fun entry => checkTransport entry.1 entry.2
  require (d.contains (.str "transmitters")) (.raised "Missing transmitters field in {yml}" [yml])
  (← (← d.item "transmitters").entries).forM fun entry => do
    checkModulation yml entry.1 entry.2
    checkFraming yml entry.1 entry.2
    checkNames yml d entry.1 entry.2

/-! ## The flowgraph -/

/-- The names that the packages `datasinks`, `telemetry` and `filereceiver` have. -/
structure Packages where
  datasinks : String → Bool
  telemetry : String → Bool
  filereceiver : String → Bool

/-- The options that the lookups depend on: `--hexdump`, and PDUs instead of samples as input. -/
structure Options where
  hexdump : Bool
  pduIn : Bool

/-- A data sink. -/
inductive Datasink where
  | decoder (name : String)
  | telemetryParser (definition : String)
  | fileReceiver (receiver : String) (display : Bool)
  | hexdumpSink
  deriving DecidableEq

/-- Where messages come from: the tagger of a transmitter, the tagger of another port of its
deframer, or a transport. -/
inductive Source where
  | tagger (transmitter : Scalar)
  | portTagger (transmitter port : Scalar)
  | transport (key : Scalar)
  deriving DecidableEq

/-- Where messages go. -/
inductive Target where
  | datasink (key : Scalar)
  | transport (key : Scalar)
  deriving DecidableEq

/-- The data sinks and transports, and the connections for messages. -/
structure Flowgraph where
  datasinks : List (Scalar × Datasink)
  transports : List Scalar
  connections : List (Source × Target)
  deriving DecidableEq

/-- The keys of `_demodulator_hooks`. -/
def demodulatorHooks : List String :=
  ["AFSK", "FSK", "BPSK", "BPSK Manchester", "DBPSK", "DBPSK Manchester", "FSK subaudio"]

/-- The keys of `_deframer_hooks`. -/
def deframerHooks : List String :=
  ["AX.25", "AX.25 G3RUH", "AX100 ASM+Golay", "AX100 Reed Solomon", "3CAT-1",
    "Astrocast FX.25 NRZ-I", "Astrocast FX.25 NRZ", "AO-40 FEC", "AO-40 FEC short",
    "AO-40 FEC CRC-16-ARC", "AO-40 FEC CRC-16-ARC short", "AO-40 uncoded", "TT-64", "ESEO",
    "Lucky-7", "Reaktor Hello World", "S-NET", "SALSAT", "Swiatowid", "NuSat", "K2SAT",
    "CCSDS Reed-Solomon", "CCSDS Concatenated", "CCSDS Uncoded", "LilacSat-1", "AAUSAT-4",
    "NGHam", "NGHam no Reed Solomon", "SMOG-P RA", "SMOG-1 RA", "MRC-100 RA",
    "SMOG-P Signalling", "SMOG-1 Signalling", "OPS-SAT", "U482C", "UA01", "Mobitex",
    "Mobitex-NX", "BEESAT-1", "BEESAT-9", "FOSSASAT", "AISTECHSAT-2", "AALTO-1", "Grizu-263A",
    "IDEASSat", "YUSAT", "AX5043", "USP", "DIY-1", "BINAR-1", "BINAR-2", "Endurosat", "SanoSat",
    "FORESAIL-1", "HSU-SAT1", "GEOSCAN", "Light-1", "SPINO", "QUBIK", "OpenLST", "HADES-D",
    "HADES-R"]

/-- The keys of `_transport_hooks`. -/
def transportHooks : List String :=
  ["KISS", "KISS no control byte", "KISS KS-1Q", "TM KISS", "TM short KISS"]

/-- The message ports of a deframer. -/
def deframerPorts (framing : String) : List String :=
  if framing = "LilacSat-1" then ["out", "codec2"] else ["out"]

/-- A dictionary with some keys, each with itself as the value. -/
def hooks (keys : List String) : List (Scalar × String) := keys.map fun key => (.str key, key)

/-- `getattr` of a package. -/
def getattr (has : String → Bool) : Value → Except PyError String
  | .scalar (.str name) => if has name then .ok name else .error (.attributeError name)
  | _ => .error .typeError

/-- The port of a deframer in a connection. -/
def findPort (framing : String) (port : Scalar) : Except PyError Unit :=
  match port with
  | .str name => if name ∈ deframerPorts framing then .ok () else .error (.keyError port)
  | _ => .error .typeError

/-- `_init_datasink`. -/
def initDatasink (packages : Packages) (info : Value) : Except PyError Datasink := do
  if ← info.contains (.str "decoder") then
    return .decoder (← getattr packages.datasinks (← info.item "decoder"))
  else if ← info.contains (.str "telemetry") then
    return .telemetryParser (← getattr packages.telemetry (← info.item "telemetry"))
  else if ← info.contains (.str "files") then
    return .fileReceiver (← getattr packages.filereceiver (← info.item "files")) false
  else if ← info.contains (.str "image") then
    return .fileReceiver (← getattr packages.filereceiver (← info.item "image")) true
  else return .hexdumpSink

/-- The variable `is_telemetry` of the constructor. -/
def isTelemetry (info : Value) : Except PyError Bool := do
  return (← info.contains (.str "telemetry")) || info.same (.str "unknown")

/-- The data sinks of a file. Those for telemetry are left out in hexdump mode. -/
def initDatasinks (packages : Packages) (hexdump : Bool) :
    List (Scalar × Value) → Except PyError (List (Scalar × Datasink))
  | [] => return []
  | (key, info) :: data => do
    if !(← isTelemetry info) || !hexdump then
      let datasink ← initDatasink packages info
      return (key, datasink) :: (← initDatasinks packages hexdump data)
    else initDatasinks packages hexdump data

/-- The connections from a source to the data sinks with some names. -/
def connectAll (datasinks : List (Scalar × Datasink)) (source : Source) (names : List Value) :
    Except PyError (List (Source × Target)) :=
  names.mapM fun name => do
    let _ ← Value.getKey datasinks name
    match name with
    | .scalar key => return (source, .datasink key)
    | _ => throw .typeError

/-- The variable `args` of `_init_transport`: the virtual channels, if there are any. -/
def transportArgs (info : Value) : Except PyError (Option Value) := do
  if ← info.contains (.str "virtual_channels") then
    return some (← info.item "virtual_channels")
  else return none

/-- `_init_transport`. -/
def initTransport (options : Options) (datasinks : List (Scalar × Datasink))
    (transport : Scalar × Value) : Except PyError (List (Source × Target)) := do
  let (key, info) := transport
  let _ ← transportArgs info
  let _ ← Value.getKey (hooks transportHooks) (← info.item "protocol")
  if options.hexdump then return []
  else connectAll datasinks (.transport key) (← (← info.item "data").iterate)

/-- The connection of a transmitter to a data sink, which may not exist in hexdump mode. -/
def connectDatum (datasinks : List (Scalar × Datasink)) (key : Scalar) (data : Value) :
    Except PyError (List (Source × Target)) := do
  if ← Value.hasKey datasinks data then connectAll datasinks (.tagger key) [data]
  else return []

/-- The connection of a transmitter to a transport. -/
def connectTransport (transports : List (Scalar × Value)) (key : Scalar) (name : Value) :
    Except PyError (List (Source × Target)) := do
  let _ ← Value.getKey transports name
  match name with
  | .scalar name => return [(.tagger key, .transport name)]
  | _ => throw .typeError

/-- The connection of another port of the deframer to a data sink. -/
def connectPort (datasinks : List (Scalar × Datasink)) (framing : String) (key : Scalar)
    (entry : Scalar × Value) : Except PyError (List (Source × Target)) := do
  findPort framing entry.1
  connectAll datasinks (.portTagger key entry.1) [entry.2]

/-- The connections for the names in a field that may be left out. -/
def connectNames (transmitter : Value) (field : String)
    (connect : Value → Except PyError (List (Source × Target))) :
    Except PyError (List (Source × Target)) := do
  return (← (← (← transmitter.getList field).iterate).mapM connect).flatten

/-- The connections of the other ports of a deframer. -/
def connectAdditionalData (datasinks : List (Scalar × Datasink)) (framing : String) (key : Scalar)
    (transmitter : Value) : Except PyError (List (Source × Target)) := do
  if ← transmitter.contains (.str "additional_data") then
    let additional ← (← transmitter.item "additional_data").entries
    return (← additional.mapM (connectPort datasinks framing key)).flatten
  else return []

/-- `_connect_transmitter_to_data`. -/
def connectTransmitterToData (datasinks : List (Scalar × Datasink))
    (transports : List (Scalar × Value)) (framing : String) (key : Scalar) (transmitter : Value) :
    Except PyError (List (Source × Target)) := do
  let toData ← connectNames transmitter "data" (connectDatum datasinks key)
  let toTransports ← connectNames transmitter "transports" (connectTransport transports key)
  let additional ← connectAdditionalData datasinks framing key transmitter
  return toData ++ toTransports ++ additional

/-- `_init_demodulator_deframer`. -/
def initDemodulatorDeframer (datasinks : List (Scalar × Datasink))
    (transports : List (Scalar × Value)) (entry : Scalar × Value) :
    Except PyError (List (Source × Target)) := do
  let (key, transmitter) := entry
  let _ ← transmitter.item "baudrate"
  let _ ← transmitter.entries
  let _ ← Value.getKey (hooks demodulatorHooks) (← transmitter.item "modulation")
  let framing ← Value.getKey (hooks deframerHooks) (← transmitter.item "framing")
  connectTransmitterToData datasinks transports framing key transmitter

/-- The transports of a file. -/
def transportEntries (d : Value) : Except PyError (List (Scalar × Value)) := do
  if ← d.contains (.str "transports") then (← d.item "transports").entries else return []

/-- The transmitters of a file, which are not needed if the input are PDUs. -/
def transmitterEntries (pduIn : Bool) (d : Value) : Except PyError (List (Scalar × Value)) := do
  if pduIn then return [] else (← d.item "transmitters").entries

/-- The constructor of `gr_satellites_flowgraph`, without a GRC block. -/
def build (packages : Packages) (options : Options) (d : Value) : Except PyError Flowgraph := do
  let datasinks ← initDatasinks packages options.hexdump (← (← d.item "data").entries)
  let transports ← transportEntries d
  let fromTransports ← transports.mapM (initTransport options datasinks)
  let transmitters ← transmitterEntries options.pduIn d
  let fromTransmitters ← transmitters.mapM (initDemodulatorDeframer datasinks transports)
  return ⟨datasinks, transports.map Prod.fst, fromTransports.flatten ++ fromTransmitters.flatten⟩

end GrSatellites.SatYaml
