import GrSatellites.Library.Calendar
import GrSatellites.Library.Double
import GrSatellites.Library.Reading
import GrSatellites.SpacePacket.Headers

/-!
# Time stamps of space packets

The blocks `space_packet_time_stamp_adder` and `space_packet_parser` of `python/ccsds`, with
the structures of `space_packet.py`. A field has a name and the numbers in it; an array is a
field for each of its elements. Whether an integer of zero octets is a field at all depends
on the version of the library that builds structures, so this is a parameter.
-/

namespace GrSatellites.SpacePacket

open Bits Calendar Reading

/-- The time formats of the blocks. -/
inductive TimeFormat where
  | cuc
  | cds
  | ccs
  | asciiA
  | asciiB
  deriving DecidableEq, Repr

/-- A variable with time format parameters, `id_time`. -/
structure IdTime where
  basicTimeNumOctetsCuc : ℕ
  fractionalTimeNumOctetsCuc : ℕ
  additionalBasicTimeNumOctetsCuc : ℕ
  additionalFractionalTimeNumOctetsCuc : ℕ
  lenOfDay : ℕ
  lenOfSubmilsecs : ℕ
  calendarVariation : Bool
  numOfSubsecs : ℕ
  asciiDec : ℤ
  addZ : Bool

/-- A named field of a structure and the numbers in it. -/
abbrev Field := String × List ℤ

/-- A field that was written, with its bytes. -/
structure Entry where
  field : Field
  bytes : List Byte

/-- A number of the program. A quotient is a float. -/
inductive Number where
  | int (n : ℤ)
  | float (x : ℚ)

/-! ## Fields -/

/-- The widths of `PFieldCUC`. -/
def pfieldCUC : List ℕ := [1, 3, 2, 2]

/-- The widths of `PFieldCUCExtension`. -/
def pfieldCUCExtension : List ℕ := [1, 2, 3, 2]

/-- The widths of `PFieldCDS`. -/
def pfieldCDS : List ℕ := [1, 3, 1, 1, 2]

/-- The widths of `PFieldCCS`. -/
def pfieldCCS : List ℕ := [1, 3, 1, 3]

/-- Build a bit structure. -/
def bitStruct (name : String) (fields : List (ℕ × ℤ)) : Except PyError Entry := do
  let bytes ← buildBits fields
  return ⟨(name, fields.map Prod.snd), bytes⟩

/-- `BytesInteger(octets).build(x)`. -/
def bytesInteger (zeroOctets : Bool) (name : String) (octets : ℕ) : Number → Except PyError Entry
  | .float _ => .error .integerError
  | .int n =>
    if octets = 0 ∧ ¬zeroOctets then .error .integerError else bitStruct name [(8 * octets, n)]

/-- `Int8ub`, `Int16ub` and `Int32ub`, for one, two and four octets. -/
def formatField (name : String) (octets : ℕ) : Number → Except PyError Entry
  | .float _ => .error .formatFieldError
  | .int n =>
    match FieldEncoder.refusing.build [(8 * octets, n)] with
    | none => .error .formatFieldError
    | some bytes => .ok ⟨(name, [n]), bytes⟩

/-- Read a bit structure. -/
def parseBits (widths : List ℕ) : Reader Byte PyError (List ℕ) := fun bytes =>
  match parse widths bytes with
  | none => .error .streamError
  | some values => .ok (values, bytes.drop (sizeof widths))

/-- Read a bit structure as a field. -/
def bitStructField (name : String) (values : List ℕ) : Field := (name, values.map Nat.cast)

/-- Read an integer of some octets. -/
def integerField (zeroOctets : Bool) (item : String × ℕ) : Reader Byte PyError Field := do
  if item.2 = 0 ∧ ¬zeroOctets then throw .integerError
  let values ← parseBits [8 * item.2]
  return bitStructField item.1 values

/-- Read `Byte[count]`. -/
def parseArray (count : ℤ) : Reader Byte PyError (List Byte) :=
  if count < 0 then throw .rangeError else take count.toNat .streamError

/-! ## The time stamp adder -/

/-- The parameters of a `space_packet_time_stamp_adder`. -/
structure TimeStampParams where
  automatic : Bool
  timeFormat : TimeFormat
  pfield : Bool
  pfieldExtension : Bool
  timeCodeIdentificationCuc : ℤ
  epochYearCuc : ℤ
  epochMonthCuc : ℤ
  epochDayCuc : ℤ
  pfieldExtensionExtended : Bool
  rsvdCuc : ℤ
  timeCodeIdentificationCds : ℤ
  epochIdentificationCds : ℤ
  epochYearCds : ℤ
  epochMonthCds : ℤ
  epochDayCds : ℤ
  timeCodeIdentificationCcs : ℤ
  year : ℤ
  month : ℤ
  day : ℤ
  hour : ℤ
  minute : ℤ
  second : ℤ
  microsecond : ℤ
  picosecond : ℤ
  idTime : IdTime

/-- A `space_packet_time_stamp_adder`: the parameters, and what it keeps beside them. -/
structure TimeStampAdder extends TimeStampParams where
  epochCuc : DateTime
  epochCds : DateTime
  lengthOfSubmillisecondCds : ℕ
  asciiDecNum : ℤ

/-- `datetime.datetime`, which raises when the calendar has no such moment. -/
def datetime (year month day hour minute second microsecond : ℤ) : Except PyError DateTime :=
  match DateTime.ofInts year month day hour minute second microsecond with
  | none => .error .valueError
  | some t => .ok t

/-- The constructor. -/
def TimeStampParams.construct (p : TimeStampParams) : Except PyError TimeStampAdder := do
  let epochCuc ←
    if p.timeCodeIdentificationCuc = 1 then datetime 1958 1 1 0 0 0 0
    else datetime p.epochYearCuc p.epochMonthCuc p.epochDayCuc 0 0 0 0
  let epochCds ←
    if p.epochIdentificationCds = 0 then datetime 1958 1 1 0 0 0 0
    else datetime p.epochYearCds p.epochMonthCds p.epochDayCds 0 0 0 0
  return ⟨p, epochCuc, epochCds, p.idTime.lenOfSubmilsecs, p.idTime.asciiDec⟩

/-- `timedelta.total_seconds`, for a number of microseconds. -/
def totalSeconds (microseconds : ℤ) : ℚ := Double.round (microseconds / 10 ^ 6)

/-- `x / y` for integers. -/
def trueDivide (x y : ℤ) : ℚ := Double.round (x / y)

/-- `x % y` for a float and an integer. -/
def floatMod (x : ℚ) (y : ℤ) : ℚ := x - y * ⌊x / y⌋

/-- `int(x * 256 ** octets)` for a float below one: the power has to be a float too, and
then the product is exact. -/
def scaledFraction (x : ℚ) (octets : ℕ) : Except PyError ℤ :=
  if (256 : ℕ) ^ octets < 2 ^ 1024 then .ok (Double.trunc (x * 256 ^ octets))
  else .error .overflowError

/-- A number in decimal, with zeros in front. -/
def padded (width n : ℕ) : String :=
  String.ofList (List.replicate (width - (toString n).length) '0') ++ toString n

/-- `isoformat`. -/
def isoformat (t : DateTime) : String :=
  padded 4 t.year ++ "-" ++ padded 2 t.month ++ "-" ++ padded 2 t.day ++ "T" ++
    padded 2 t.hour ++ ":" ++ padded 2 t.minute ++ ":" ++ padded 2 t.second ++
    (if t.microsecond = 0 then "" else "." ++ padded 6 t.microsecond)

/-- `strftime` with the day of the year. -/
def dayOfYearFormat (t : DateTime) : String :=
  padded 4 t.year ++ "-" ++ padded 3 t.dayOfYear ++ "T" ++ padded 2 t.hour ++ ":" ++
    padded 2 t.minute ++ ":" ++ padded 2 t.second ++ "." ++ padded 6 t.microsecond

/-- `arr[: -k]`. There is nothing before the end of the text for zero. -/
def dropLast (arr : String) (k : ℕ) : String :=
  if k = 0 then "" else String.ofList (arr.toList.take (arr.length - k))

/-- `array.array('B', arr)` for a text: only an array of characters is made of one. -/
def arrayOfText (_arr : String) : Except PyError (List Byte) := .error .typeError

/-- The decimals of the second that the ASCII formats use. -/
def asciiDecimals (n : ℤ) : ℤ := if n < 0 ∨ n > 6 then 1 else n

namespace TimeStampAdder

variable (zeroOctets : Bool) (a : TimeStampAdder)

/-- The time that a packet is stamped with. -/
def currentTime (clock : DateTime) : Except PyError DateTime :=
  if a.automatic then .ok clock
  else datetime a.year a.month a.day a.hour a.minute a.second a.microsecond

/-- The length that the clock can fill. The one of the subseconds is set under a name that
nothing reads. -/
def limitLengths : TimeStampAdder :=
  if a.automatic ∧ 2 ≤ a.lengthOfSubmillisecondCds then { a with lengthOfSubmillisecondCds := 1 }
  else a

/-- The bit structures before a CUC time code. -/
def pfieldEntriesCuc : Except PyError (List Entry) :=
  if a.pfield then do
    let pfield ← bitStruct "pfield" [Ccsds.flagField a.pfieldExtension,
      (3, a.timeCodeIdentificationCuc), (2, a.idTime.basicTimeNumOctetsCuc),
      (2, a.idTime.fractionalTimeNumOctetsCuc)]
    if a.pfieldExtension then do
      let extended ← bitStruct "pfield_extended" [Ccsds.flagField a.pfieldExtensionExtended,
        (2, a.idTime.additionalBasicTimeNumOctetsCuc),
        (3, a.idTime.additionalFractionalTimeNumOctetsCuc), (2, a.rsvdCuc)]
      return [pfield, extended]
    else return [pfield]
  else return []

/-- The octets of the coarse time. -/
def basicTime : ℕ :=
  1 + a.idTime.basicTimeNumOctetsCuc +
    if a.pfield ∧ a.pfieldExtension then a.idTime.additionalBasicTimeNumOctetsCuc else 0

/-- The octets of the fine time. -/
def fractionalTime : ℕ :=
  a.idTime.fractionalTimeNumOctetsCuc +
    if a.pfield ∧ a.pfieldExtension then a.idTime.additionalFractionalTimeNumOctetsCuc else 0

/-- A CUC header. -/
def headerCuc (now : DateTime) : Except PyError (List Entry) := do
  let pfield ← a.pfieldEntriesCuc
  let tempDiff := now.since a.epochCuc
  let totalBasic := Double.trunc (totalSeconds tempDiff)
  let totalFrac ← scaledFraction (totalSeconds tempDiff - totalBasic) a.fractionalTime
  let basic ← bytesInteger zeroOctets "basic_time_unit" a.basicTime (.int totalBasic)
  let fractional ← bytesInteger zeroOctets "fractional_time_unit" a.fractionalTime (.int totalFrac)
  return pfield ++ [basic, fractional]

/-- The fields of a CDS header, one written after the other. -/
def writesCds (now : DateTime) : List (Except PyError Entry) :=
  (if a.pfield then
    [bitStruct "pfield" [Ccsds.flagField a.pfieldExtension, (3, a.timeCodeIdentificationCds),
      (1, a.epochIdentificationCds), (1, a.idTime.lenOfDay), (2, a.lengthOfSubmillisecondCds)]]
  else []) ++
  [bytesInteger zeroOctets "days" (if a.idTime.lenOfDay = 0 then 2 else 3)
      (.int (now.since a.epochCds / (86400 * 10 ^ 6))),
    formatField "ms_of_day" 4 (.float (trueDivide now.microsecond 1000))] ++
  (if a.lengthOfSubmillisecondCds = 1 then
    [formatField "submilliseconds_of_ms" 2 (.int (now.microsecond % 1000))]
  else if a.lengthOfSubmillisecondCds = 2 then
    [formatField "submilliseconds_of_ms" 4 (.int a.picosecond)]
  else [])

/-- The digits after the second, two in each number. -/
def subseconds (now : DateTime) : List Number :=
  [.float (trueDivide now.microsecond (10 ^ 4)),
    .float (floatMod (trueDivide now.microsecond (10 ^ 2)) (10 ^ 2)),
    .int (now.microsecond % 10 ^ 2),
    .float (trueDivide (a.picosecond % 10 ^ 6) (10 ^ 4)),
    .float (trueDivide (a.picosecond % 10 ^ 4) (10 ^ 2)),
    .int (a.picosecond % 10 ^ 2)]

/-- The fields of a CCS header, one written after the other. -/
def writesCcs (now : DateTime) : List (Except PyError Entry) :=
  (if a.pfield then
    [bitStruct "pfield" [Ccsds.flagField a.pfieldExtension, (3, a.timeCodeIdentificationCcs),
      Ccsds.flagField a.idTime.calendarVariation, (3, a.idTime.numOfSubsecs)]]
  else []) ++
  [formatField "year" 2 (.int now.year)] ++
  (if a.idTime.calendarVariation then [formatField "dayOfYear" 2 (.int now.dayOfYear)]
  else [formatField "month" 1 (.int now.month), formatField "dayOfMonth" 1 (.int now.day)]) ++
  [formatField "hour" 1 (.int now.hour), formatField "minute" 1 (.int now.minute),
    formatField "second" 1 (.int now.second)] ++
  ((a.subseconds now).take a.idTime.numOfSubsecs).map (formatField "subseconds" 1)

/-- An ASCII header. -/
def headerAscii (text : String) : Except PyError (List Entry) := do
  let arr := dropLast text (6 - asciiDecimals a.asciiDecNum).toNat
  let arr := if a.idTime.addZ then arr ++ "Z" else arr
  let bytes ← arrayOfText arr
  return [⟨("text", bytes.map fun byte => (byte.toNat : ℤ)), bytes⟩]

/-- `finalHeader`, the fields of the time stamp. -/
def finalHeader (now : DateTime) : Except PyError (List Entry) :=
  match a.timeFormat with
  | .cuc => a.headerCuc zeroOctets now
  | .cds => (a.writesCds zeroOctets now).mapM id
  | .ccs => (a.writesCcs now).mapM id
  | .asciiA => a.headerAscii (isoformat now)
  | .asciiB => a.headerAscii (dayOfYearFormat now)

/-- The time code that is put into a packet. -/
def timeCode (clock : DateTime) : Except PyError (List Entry) := do
  let now ← a.currentTime clock
  a.limitLengths.finalHeader zeroOctets now

/-- What the block keeps after a packet. -/
def next (clock : DateTime) : TimeStampAdder :=
  match a.currentTime clock, a.timeFormat with
  | .ok _, .asciiA | .ok _, .asciiB =>
    { a.limitLengths with asciiDecNum := asciiDecimals a.asciiDecNum }
  | _, _ => a.limitLengths

/-- `space_packet_time_stamp_adder.handle_msg`: the block afterwards, and the packets
published or the exception raised. -/
def handleMsg {M : Type} (clock : DateTime) :
    Msg M → TimeStampAdder × Except PyError (List (List Byte))
  | .other _ => (a, .ok [])
  | .u8vector pdu => (a.next clock, do
      let entries ← a.timeCode zeroOctets clock
      let finalPacket ← numpyAppend (entries.flatMap Entry.bytes) pdu.cdr
      return [finalPacket])

end TimeStampAdder

/-! ## The parser -/

/-- A space packet that was read. -/
structure FullPacket where
  primary : List ℕ
  timestamp : List Field
  payload : List Byte

/-- The structures `FullPacket...`: the header, a time stamp, and the bytes that the length
in the header leaves beside it. -/
def fullPacket (timestamp : Reader Byte PyError (List Field × ℤ)) :
    Reader Byte PyError FullPacket := do
  let primary ← parseBits Ccsds.spacePacketHeader
  let (fields, size) ← timestamp
  let payload ← parseArray (primary.getD 6 0 - size)
  return ⟨primary, fields, payload⟩

/-- The time stamp of `FullPacketCUCWithPField`, and the bytes it is taken to have. -/
def timestampCUCWithPField (zeroOctets : Bool) : Reader Byte PyError (List Field × ℤ) := do
  let pfield ← parseBits pfieldCUC
  let basic := pfield.getD 2 0
  let fractional := pfield.getD 3 0
  if pfield.getD 0 0 = 1 then
    let extended ← parseBits pfieldCUCExtension
    let additionalBasic := extended.getD 1 0
    let additionalFractional := extended.getD 2 0
    let fields ← [("basic_time_unit", basic + 1 + additionalBasic),
      ("fractional_time_unit", fractional + additionalFractional)].mapM (integerField zeroOctets)
    return (bitStructField "pfield" pfield :: bitStructField "pfield_extended" extended :: fields,
      3 + basic + fractional + additionalBasic + additionalFractional)
  else
    let fields ← [("basic_time_unit", basic + 1), ("fractional_time_unit", fractional)].mapM
      (integerField zeroOctets)
    return (bitStructField "pfield" pfield :: fields, 2 + basic + fractional)

/-- The time stamp of `FullPacketCUCNoPField`, for the numbers of octets. -/
def timestampCUCNoPField (zeroOctets : Bool) (basic fractional : ℕ) :
    Reader Byte PyError (List Field × ℤ) := do
  let fields ← [("basic_time_unit", basic), ("fractional_time_unit", fractional)].mapM
    (integerField zeroOctets)
  return (fields, basic + fractional)

/-- The integers of a CDS time code. -/
def itemsCDS (day submillisecond : ℕ) : List (String × ℕ) :=
  [("days", 2 + day), ("ms_of_day", 4), ("submilliseconds_of_ms", 2 * submillisecond)]

/-- The time stamp of `FullPacketCDSWithPField`. -/
def timestampCDSWithPField (zeroOctets : Bool) : Reader Byte PyError (List Field × ℤ) := do
  let pfield ← parseBits pfieldCDS
  let day := pfield.getD 3 0
  let submillisecond := pfield.getD 4 0
  let fields ← (itemsCDS day submillisecond).mapM (integerField zeroOctets)
  return (bitStructField "pfield" pfield :: fields, 7 + day + 2 * submillisecond)

/-- The time stamp of `FullPacketCDSNoPField`. The number of bytes left is looked for one level
above the arguments, where there is nothing. -/
def timestampCDSNoPField (zeroOctets : Bool) (day submillisecond : ℕ) :
    Reader Byte PyError (List Field × ℤ) := do
  let _ ← (itemsCDS day submillisecond).mapM (integerField zeroOctets)
  throw .keyError

/-- The integers of a CCS time code, with a day of the year of so many octets. -/
def itemsCCS (dayOfYear : ℕ) (calendarVariation : Bool) (resolution : ℕ) : List (String × ℕ) :=
  [("year", 2)] ++
  (if calendarVariation then [("dayOfYear", dayOfYear)] else [("month", 1), ("dayOfMonth", 1)]) ++
  [("hour", 1), ("minute", 1), ("second", 1)] ++ List.replicate resolution ("subseconds", 1)

/-- The time stamp of `FullPacketCCSWithPField`. -/
def timestampCCSWithPField (zeroOctets : Bool) : Reader Byte PyError (List Field × ℤ) := do
  let pfield ← parseBits pfieldCCS
  let resolution := pfield.getD 3 0
  let fields ← (itemsCCS 1 (pfield.getD 2 0 = 1) resolution).mapM (integerField zeroOctets)
  return (bitStructField "pfield" pfield :: fields, 8 + resolution)

/-- The time stamp of `FullPacketCCSNoPField`. -/
def timestampCCSNoPField (zeroOctets : Bool) (calendarVariation : Bool) (resolution : ℕ) :
    Reader Byte PyError (List Field × ℤ) := do
  let fields ← (itemsCCS 2 calendarVariation resolution).mapM (integerField zeroOctets)
  return (fields, 7 + resolution)

/-- The characters of an ASCII time code up to the point. -/
def charsASCIIA : List String :=
  ["yearChar1", "yearChar2", "yearChar3", "yearChar4", "hyphen1", "monthChar1", "monthChar2",
    "hyphen2", "dayChar1", "dayChar2", "calendar_time_separator", "hourChar1", "hourChar2",
    "colon1", "minuteChar1", "minuteChar2", "colon2", "secondChar1", "secondChar2", "dot"]

/-- The characters of an ASCII time code with the day of the year, up to the point. -/
def charsASCIIB : List String :=
  ["yearChar1", "yearChar2", "yearChar3", "yearChar4", "hyphen1", "dayChar1", "dayChar2",
    "dayChar3", "calendar_time_separator", "hourChar1", "hourChar2", "colon1", "minuteChar1",
    "minuteChar2", "colon2", "secondChar1", "secondChar2", "dot"]

/-- The time stamp of `FullPacketASCIIA` and `FullPacketASCIIB`, for their characters. -/
def timestampASCII (zeroOctets : Bool) (chars : List String) (numberOfDecimals : ℤ) (addZ : Bool) :
    Reader Byte PyError (List Field × ℤ) := do
  let items := chars.map (·, 1) ++
    List.replicate numberOfDecimals.toNat ("decimal_fraction_of_second", 1) ++
    if addZ then [("time_code_terminator", 1)] else []
  let fields ← items.mapM (integerField zeroOctets)
  return (fields, chars.length + numberOfDecimals + if addZ then 1 else 0)

/-- What a parser prints. -/
inductive Printed where
  | invalidMessage
  | couldNotDecode
  | data (packet : FullPacket)

/-- A `space_packet_parser`. -/
structure SpacePacketParser where
  timeHeader : Bool
  timeFormat : TimeFormat
  pfield : Bool
  idTime : IdTime
  asciiDecNum : ℤ

namespace SpacePacketParser

/-- The constructor. Nothing is kept of a time format that is not in the packets. -/
def construct (timeHeader : Bool) (timeFormat : TimeFormat) (pfield : Bool) (idTime : IdTime) :
    SpacePacketParser :=
  if timeHeader then ⟨true, timeFormat, pfield, idTime, idTime.asciiDec⟩
  else ⟨false, .cuc, false, ⟨0, 0, 0, 0, 0, 0, false, 0, 0, false⟩, 0⟩

variable (zeroOctets : Bool) (s : SpacePacketParser)

/-- The time stamp of the packet format. -/
def timestamp : Reader Byte PyError (List Field × ℤ) :=
  if s.timeHeader then
    match s.timeFormat with
    | .cuc =>
      if s.pfield then timestampCUCWithPField zeroOctets
      else timestampCUCNoPField zeroOctets
        (1 + s.idTime.basicTimeNumOctetsCuc + s.idTime.additionalBasicTimeNumOctetsCuc)
        (s.idTime.fractionalTimeNumOctetsCuc + s.idTime.additionalFractionalTimeNumOctetsCuc)
    | .cds =>
      if s.pfield then timestampCDSWithPField zeroOctets
      else timestampCDSNoPField zeroOctets s.idTime.lenOfDay s.idTime.lenOfSubmilsecs
    | .ccs =>
      if s.pfield then timestampCCSWithPField zeroOctets
      else timestampCCSNoPField zeroOctets s.idTime.calendarVariation s.idTime.numOfSubsecs
    | .asciiA =>
      timestampASCII zeroOctets charsASCIIA (asciiDecimals s.asciiDecNum) s.idTime.addZ
    | .asciiB =>
      timestampASCII zeroOctets charsASCIIB (asciiDecimals s.asciiDecNum) s.idTime.addZ
  else pure ([], 0)

/-- What the block keeps after a packet. -/
def next : SpacePacketParser :=
  match s.timeFormat with
  | .asciiA | .asciiB => { s with asciiDecNum := asciiDecimals s.asciiDecNum }
  | _ => s

/-- `space_packet_parser.handle_msg`: the block afterwards, and what it prints. Every
exception is caught. -/
def handleMsg {M : Type} : Msg M → SpacePacketParser × Printed
  | .other _ => (s, .invalidMessage)
  | .u8vector pdu =>
    match (fullPacket (s.timestamp zeroOctets)).run pdu.cdr with
    | .error _ => (s.next, .couldNotDecode)
    | .ok (packet, _) => (s.next, .data packet)

end SpacePacketParser

end GrSatellites.SpacePacket
