import GrSatellites.Library.Attempt
import GrSatellites.Library.Calendar

/-!
# Timestamps in the ISO 8601 format

The method `fromisoformat` of Python 3.10 and of Python 3.11, for a date of the form
`YYYY-MM-DD`. In Python 3.10 the digits after the second are three or six, and an offset from UTC
has minutes. In Python 3.11 there can be any number of digits, of which six count, the offset can
have hours only, and `Z` stands for UTC.
-/

namespace GrSatellites.Isoformat

open Attempt Calendar

/-- The exceptions of dates and times. -/
inductive PyError where
  | valueError
  | overflowError
  deriving DecidableEq

/-- The versions of Python. -/
inductive Version where
  | v310
  | v311
  deriving DecidableEq

/-! ## Moments with an offset from UTC -/

/-- The microseconds of a day. -/
def day : ℤ := 86400 * 10 ^ 6

/-- The first moment of year 1. -/
def minTime : ℤ := day

/-- The end of year 9999. -/
def maxTime : ℤ := 3652060 * day

/-- A moment as a clock shows it, with the offset of the clock from UTC. -/
structure Datetime where
  microseconds : ℤ
  mem : minTime ≤ microseconds ∧ microseconds < maxTime
  tzinfo : Option ℤ
  deriving DecidableEq

/-- A moment of the calendar, on a clock with the given offset. -/
def Datetime.ofMicroseconds (us : ℤ) (tzinfo : Option ℤ) : Except PyError Datetime :=
  if h : minTime ≤ us ∧ us < maxTime then .ok ⟨us, h, tzinfo⟩ else .error .overflowError

/-- A moment that is later by some microseconds. -/
def Datetime.add (t : Datetime) (us : ℤ) : Except PyError Datetime :=
  ofMicroseconds (t.microseconds + us) t.tzinfo

/-- The same face of a clock, in UTC. -/
def Datetime.replaceUtc (t : Datetime) : Datetime := { t with tzinfo := some 0 }

/-- The same moment in UTC. -/
def Datetime.astimezoneUtc (t : Datetime) (offset : ℤ) : Except PyError Datetime :=
  ofMicroseconds (t.microseconds - offset) (some 0)

theorem Datetime.ofMicroseconds_eq_ok {us : ℤ} {tzinfo : Option ℤ} {t : Datetime} :
    ofMicroseconds us tzinfo = .ok t ↔ t.microseconds = us ∧ t.tzinfo = tzinfo := by
  obtain ⟨us', hmem, tzinfo'⟩ := t
  unfold ofMicroseconds
  split_ifs with h
  · simp only [Except.ok.injEq, mk.injEq, eq_comm]
  · refine iff_of_false (by simp) ?_
    rintro ⟨rfl, -⟩
    exact h hmem

theorem Datetime.add_zero (t : Datetime) : t.add 0 = .ok t :=
  ofMicroseconds_eq_ok.mpr ⟨(Int.add_zero _).symm, rfl⟩

/-! ## Numbers -/

/-- The value of a decimal digit. -/
def ofDigit (c : Char) : Except PyError ℕ :=
  if c.isDigit then .ok (c.toNat - '0'.toNat) else .error .valueError

/-- The number that some decimal digits are. -/
def value (ds : List ℕ) : ℕ := Nat.ofDigits 10 ds.reverse

/-- The number that a text of decimal digits is. -/
def int (s : List Char) : Except PyError ℕ := do
  if s = [] then throw .valueError
  return value (← s.mapM ofDigit)

/-- The character of a digit. -/
def digit (d : Fin 10) : Char := Char.ofNat ('0'.toNat + d)

/-- The characters of some digits. -/
def digits (ds : List (Fin 10)) : List Char := ds.map digit

/-- The two digits of a number. -/
def pair (n : Fin 100) : List (Fin 10) := [⟨n / 10, by omega⟩, ⟨n % 10, by omega⟩]

/-- A number of two digits. -/
def two (n : Fin 100) : List Char := digits (pair n)

/-- A number of four digits. -/
def four (n : Fin 10000) : List Char :=
  digits (pair ⟨n / 100, by omega⟩ ++ pair ⟨n % 100, by omega⟩)

/-- The microseconds that some digits after the second are, by truncation. -/
def micros (ds : List (Fin 10)) : ℕ := value (ds.map Fin.val) * 10 ^ 6 / 10 ^ ds.length

@[simp] theorem isDigit_digit (d : Fin 10) : (digit d).isDigit = true := by
  revert d
  decide

@[simp] theorem ofDigit_digit (d : Fin 10) : ofDigit (digit d) = .ok d := by
  revert d
  decide

@[simp] theorem digits_length (ds : List (Fin 10)) : (digits ds).length = ds.length := by
  simp [digits]

theorem mapM_ofDigit_digits (ds : List (Fin 10)) :
    (digits ds).mapM ofDigit = .ok (ds.map Fin.val) := by
  induction ds with
  | nil => rfl
  | cons d ds ih =>
    unfold digits at ih ⊢
    rw [List.map_cons, List.mapM_cons, ih, ofDigit_digit]
    rfl

theorem int_digits {ds : List (Fin 10)} (h : ds ≠ []) :
    int (digits ds) = .ok (value (ds.map Fin.val)) := by
  have hne : digits ds ≠ [] := by simpa [digits] using h
  unfold int
  rw [if_neg hne, mapM_ofDigit_digits]
  rfl

theorem value_append (ds es : List ℕ) : value (ds ++ es) = value ds * 10 ^ es.length + value es := by
  rw [value, List.reverse_append, Nat.ofDigits_append, List.length_reverse, value, value]
  ring

theorem value_lt (ds : List (Fin 10)) : value (ds.map Fin.val) < 10 ^ ds.length := by
  have hlt := Nat.ofDigits_lt_base_pow_length (b := 10) (l := (ds.map Fin.val).reverse) (by norm_num)
    (fun d hd => by
      obtain ⟨e, -, rfl⟩ := List.mem_map.mp (List.mem_reverse.mp hd)
      exact e.isLt)
  rwa [List.length_reverse, List.length_map] at hlt

theorem micros_lt (ds : List (Fin 10)) : micros ds < 10 ^ 6 := by
  rw [micros, Nat.div_lt_iff_lt_mul (by positivity), mul_comm]
  exact Nat.mul_lt_mul_of_pos_left (value_lt ds) (by norm_num)

@[simp] theorem micros_nil : micros [] = 0 := by
  rw [micros, List.map_nil, value, List.reverse_nil, Nat.ofDigits_nil, zero_mul, Nat.zero_div]

/-- Six digits are microseconds. -/
theorem micros_of_short {ds : List (Fin 10)} (h : ds.length ≤ 6) :
    micros ds = value (ds.map Fin.val) * 10 ^ (6 - ds.length) := by
  have hpow : 10 ^ 6 = 10 ^ (6 - ds.length) * 10 ^ ds.length := by
    rw [← pow_add, Nat.sub_add_cancel h]
  rw [micros, hpow, ← mul_assoc]
  exact Nat.mul_div_cancel _ (by positivity)

/-- Only six digits count. -/
theorem micros_take (ds : List (Fin 10)) : micros (ds.take 6) = micros ds := by
  rcases le_total ds.length 6 with hshort | hlong
  · rw [List.take_of_length_le hshort]
  · have hlength : (ds.take 6).length = 6 := List.length_take_of_le hlong
    have hlt := value_lt (ds.drop 6)
    have hsplit : value (ds.map Fin.val) = value ((ds.take 6).map Fin.val) * 10 ^ (ds.drop 6).length +
        value ((ds.drop 6).map Fin.val) := by
      conv_lhs => rw [← List.take_append_drop 6 ds]
      rw [List.map_append, value_append, List.length_map]
    have hpow : 10 ^ ds.length = 10 ^ (ds.drop 6).length * 10 ^ 6 := by
      rw [← pow_add, List.length_drop, Nat.sub_add_cancel hlong]
    rw [micros_of_short hlength.le, hlength, Nat.sub_self, pow_zero, mul_one, micros, hpow,
      Nat.mul_div_mul_right _ _ (by norm_num), hsplit, Nat.div_eq_of_lt_le]
    · omega
    · rw [add_mul]
      omega

theorem value_pair (n : Fin 100) : value ((pair n).map Fin.val) = n := by
  simp [value, pair, Nat.ofDigits_cons]
  omega

theorem int_two (n : Fin 100) : int (two n) = .ok n := by
  rw [two, int_digits (by simp [pair]), value_pair]

theorem int_four (n : Fin 10000) : int (four n) = .ok n := by
  rw [four, int_digits (by simp [pair]), List.map_append, value_append, value_pair, value_pair]
  exact congrArg _ (Nat.div_add_mod' n 100)

/-! ## The methods -/

/-- The four numbers of a time of the day. -/
structure TimeComps where
  hour : ℕ
  minute : ℕ
  second : ℕ
  microsecond : ℕ
  deriving DecidableEq

/-- The microseconds from midnight. -/
def TimeComps.microseconds (c : TimeComps) : ℕ :=
  ((c.hour * 60 + c.minute) * 60 + c.second) * 10 ^ 6 + c.microsecond

/-- The parts of a date and time. -/
def partsOf (year month day : ℕ) (c : TimeComps) : Parts :=
  ⟨year, month, day, c.hour, c.minute, c.second, c.microsecond⟩

/-- The microseconds of a time are added to those of its second. -/
theorem microseconds_partsOf {year month day : ℕ} {c : TimeComps}
    (h : (partsOf year month day c).Valid)
    (h' : (partsOf year month day { c with microsecond := 0 }).Valid) :
    DateTime.microseconds ⟨partsOf year month day c, h⟩ =
      DateTime.microseconds ⟨partsOf year month day { c with microsecond := 0 }, h'⟩ +
        c.microsecond := by
  unfold DateTime.microseconds
  simp only [partsOf, add_zero]
  rfl

/-- The next two digits. -/
def takeTwo : List Char → Except PyError (ℕ × List Char)
  | c :: c' :: rest => do return (← int [c, c'], rest)
  | _ => .error .valueError

/-- The numbers of a time have colons between them: in Python 3.11 if the hour has one after
it. -/
def Version.hasSep (v : Version) (rest : List Char) : Bool :=
  match v with
  | .v310 => true
  | .v311 => rest.head? == some ':'

/-- The text after a separator. -/
def skipSep (hasSep : Bool) (rest : List Char) : Except PyError (List Char) :=
  if hasSep then
    match rest with
    | ':' :: rest => .ok rest
    | _ => .error .valueError
  else .ok rest

/-- The microseconds after the second. -/
def parseFraction (v : Version) : List Char → Except PyError ℕ
  | [] => .ok 0
  | mark :: s =>
    match v with
    | .v310 => do
      if mark ≠ '.' ∨ (s.length ≠ 3 ∧ s.length ≠ 6) then throw .valueError
      let number ← int s
      return if s.length = 3 then number * 1000 else number
    | .v311 => do
      if mark ≠ '.' ∧ mark ≠ ',' then throw .valueError
      let number ← int (s.take 6)
      -- only six digits count, but the others have to be digits
      if ¬ (s.drop 6).all Char.isDigit then throw .valueError
      return number * 10 ^ (6 - (s.take 6).length)

/-- `_parse_hh_mm_ss_ff`. -/
def parseHhMmSsFf (v : Version) (tstr : List Char) : Except PyError TimeComps := do
  let (hour, afterHour) ← takeTwo tstr
  if afterHour = [] then return ⟨hour, 0, 0, 0⟩
  let hasSep := v.hasSep afterHour
  let (minute, afterMinute) ← takeTwo (← skipSep hasSep afterHour)
  if afterMinute = [] then return ⟨hour, minute, 0, 0⟩
  let (second, afterSecond) ← takeTwo (← skipSep hasSep afterMinute)
  return ⟨hour, minute, second, ← parseFraction v afterSecond⟩

/-- The lengths that the text of an offset has. -/
def Version.offsetLength (v : Version) (n : ℕ) : Bool :=
  match v with
  | .v310 => n == 5 || n == 8 || n == 15
  | .v311 => n != 0 && n != 1 && n != 3

/-- The characters that a time zone can start with, in the order in which they are looked for. -/
def Version.zoneMarks : Version → List Char
  | .v310 => ['-', '+']
  | .v311 => ['-', '+', 'Z']

/-- An offset from UTC is less than a day. -/
def timezone (offset : ℤ) : Except PyError ℤ :=
  if |offset| < day then .ok offset else .error .valueError

/-- `_parse_isoformat_time`. -/
def parseIsoformatTime (v : Version) (tstr : List Char) : Except PyError (TimeComps × Option ℤ) := do
  if tstr.length < 2 then throw .valueError
  match v.zoneMarks.find? (tstr.contains ·) with
  | none => return (← parseHhMmSsFf v tstr, none)
  | some mark =>
    let comps ← parseHhMmSsFf v (tstr.takeWhile (· != mark))
    let tzstr := (tstr.dropWhile (· != mark)).tail
    if tzstr = [] ∧ mark = 'Z' then return (comps, some 0)
    if ¬ v.offsetLength tzstr.length then throw .valueError
    let tz ← parseHhMmSsFf v tzstr
    return (comps, some (← timezone ((if mark = '-' then -1 else 1) * tz.microseconds)))

/-- `_parse_isoformat_date`, for a date of the form `YYYY-MM-DD`. -/
def parseIsoformatDate : List Char → Except PyError (ℕ × ℕ × ℕ)
  | [y, y', y'', y''', '-', m, m', '-', d, d'] => do
    return (← int [y, y', y'', y'''], ← int [m, m'], ← int [d, d'])
  | _ => .error .valueError

theorem Datetime.mem_of_dateTime (t : DateTime) :
    minTime ≤ t.microseconds ∧ (t.microseconds : ℤ) < maxTime := by
  have hday := t.ordinal_mem
  have hhour := t.valid.hour_lt
  have hminute := t.valid.minute_lt
  have hsecond := t.valid.second_lt
  have hmicrosecond := t.valid.microsecond_lt
  unfold minTime maxTime day DateTime.microseconds
  omega

/-- The constructor of a moment. -/
def Datetime.ofComps (year month day : ℕ) (c : TimeComps) (tzinfo : Option ℤ) :
    Except PyError Datetime :=
  if h : (partsOf year month day c).Valid then
    let t : DateTime := ⟨partsOf year month day c, h⟩
    .ok ⟨t.microseconds, mem_of_dateTime t, tzinfo⟩
  else .error .valueError

/-- `datetime.fromisoformat`. -/
def fromisoformat (v : Version) (s : List Char) : Except PyError Datetime := do
  let (year, month, day) ← parseIsoformatDate (s.take 10)
  let tstr := s.drop 11
  if tstr = [] then Datetime.ofComps year month day ⟨0, 0, 0, 0⟩ none
  else
    let (comps, tzinfo) ← parseIsoformatTime v tstr
    Datetime.ofComps year month day comps tzinfo

/-! ## The texts -/

/-- The digits after the second, if there are any. -/
def fractionText : List (Fin 10) → List Char
  | [] => []
  | d :: ds => '.' :: digits (d :: ds)

theorem not_mem_digits {mark : Char} (h : mark.isDigit = false) (ds : List (Fin 10)) :
    mark ∉ digits ds := by
  intro hmem
  obtain ⟨d, -, rfl⟩ := List.mem_map.mp hmem
  rw [isDigit_digit] at h
  cases h

theorem not_mem_fractionText {mark : Char} (hdigit : mark.isDigit = false) (hpoint : mark ≠ '.')
    (fraction : List (Fin 10)) : mark ∉ fractionText fraction := by
  cases fraction with
  | nil => exact List.not_mem_nil
  | cons d ds => exact List.not_mem_cons_of_ne_of_not_mem hpoint (not_mem_digits hdigit _)

/-- A time as it is written, also that of an offset. -/
inductive Clock where
  | hour (h : Fin 100)
  | minute (h m : Fin 100)
  | second (h m s : Fin 100) (fraction : List (Fin 10))
  deriving DecidableEq

namespace Clock

/-- The text of a time. -/
def text : Clock → List Char
  | .hour h => two h
  | .minute h m => two h ++ ':' :: two m
  | .second h m s fraction => two h ++ ':' :: (two m ++ ':' :: (two s ++ fractionText fraction))

/-- The numbers of a time. -/
def comps : Clock → TimeComps
  | .hour h => ⟨h, 0, 0, 0⟩
  | .minute h m => ⟨h, m, 0, 0⟩
  | .second h m s fraction => ⟨h, m, s, micros fraction⟩

/-- The digits after the second. -/
def digitsAfter : Clock → List (Fin 10)
  | .second _ _ _ fraction => fraction
  | _ => []

/-- The time without the digits after the second. -/
def whole : Clock → Clock
  | .second h m s _ => .second h m s []
  | clock => clock

/-- A time that is not an hour alone. -/
def HasMinutes : Clock → Prop
  | .hour _ => False
  | _ => True

instance : (c : Clock) → Decidable c.HasMinutes
  | .hour _ => .isFalse id
  | .minute _ _ => .isTrue trivial
  | .second _ _ _ _ => .isTrue trivial

theorem text_eq (c : Clock) : c.text = c.whole.text ++ fractionText c.digitsAfter := by
  cases c <;> simp [text, whole, digitsAfter, fractionText]

theorem microseconds_eq (c : Clock) :
    c.comps.microseconds = c.whole.comps.microseconds + micros c.digitsAfter := by
  cases c <;> simp [comps, whole, digitsAfter, TimeComps.microseconds, micros, value]

theorem comps_whole (c : Clock) : c.whole.comps = { c.comps with microsecond := 0 } := by
  cases c <;> rfl

@[simp] theorem digitsAfter_whole (c : Clock) : c.whole.digitsAfter = [] := by
  cases c <;> rfl

@[simp] theorem hasMinutes_whole {c : Clock} : c.whole.HasMinutes ↔ c.HasMinutes := by
  cases c <;> rfl

theorem not_mem_text {mark : Char} (hdigit : mark.isDigit = false) (hcolon : mark ≠ ':')
    (hpoint : mark ≠ '.') (c : Clock) : mark ∉ c.text := by
  have htwo (n : Fin 100) : mark ∉ two n := not_mem_digits hdigit _
  have hfraction (fraction : List (Fin 10)) : mark ∉ fractionText fraction :=
    not_mem_fractionText hdigit hpoint fraction
  cases c <;> simp [text, htwo, hfraction, hcolon]

theorem not_mem_whole_text {mark : Char} (hdigit : mark.isDigit = false) (hcolon : mark ≠ ':')
    (c : Clock) : mark ∉ c.whole.text := by
  have htwo (n : Fin 100) : mark ∉ two n := not_mem_digits hdigit _
  cases c <;> simp [whole, text, fractionText, htwo, hcolon]

theorem two_le_length_text (c : Clock) : 2 ≤ c.text.length := by
  have htwo (n : Fin 100) : (two n).length = 2 := digits_length _
  cases c <;> simp only [text, List.length_append, htwo] <;> omega

end Clock

theorem takeTwo_two (n : Fin 100) (rest : List Char) :
    takeTwo (two n ++ rest) = .ok (↑n, rest) := by
  change (do return (← int (two n), rest)) = _
  rw [int_two, bind_of_ok]
  rfl

theorem hasSep_colon (v : Version) (rest : List Char) : v.hasSep (':' :: rest) = true := by
  cases v <;> rfl

theorem all_isDigit_digits (ds : List (Fin 10)) : (digits ds).all Char.isDigit = true := by
  simp [digits]

theorem parseFraction_text {v : Version} {fraction : List (Fin 10)}
    (h : v = .v311 ∨ fraction = []) :
    parseFraction v (fractionText fraction) = .ok (micros fraction) := by
  cases fraction with
  | nil => rfl
  | cons d ds =>
    obtain rfl : v = .v311 := h.resolve_right (List.cons_ne_nil d ds)
    have htake : (digits (d :: ds)).take 6 = digits ((d :: ds).take 6) := List.map_take.symm
    have hall : ((digits (d :: ds)).drop 6).all Char.isDigit = true := by
      rw [digits, ← List.map_drop]
      exact all_isDigit_digits _
    have hvalue := micros_of_short (List.length_take_le 6 (d :: ds))
    rw [micros_take] at hvalue
    have hint : int (digits ((d :: ds).take 6)) = .ok (value (((d :: ds).take 6).map Fin.val)) :=
      int_digits (by simp)
    simp only [fractionText, parseFraction, htake, hall, hint, hvalue, digits_length, bind_of_ok,
      ne_eq, not_true_eq_false, false_and, if_false]
    rfl

/-- The numbers of a time are read back. -/
theorem parseHhMmSsFf_text {v : Version} {c : Clock} (h : v = .v311 ∨ c.digitsAfter = []) :
    parseHhMmSsFf v c.text = .ok c.comps := by
  unfold parseHhMmSsFf
  cases c with
  | hour n =>
    have hhour := takeTwo_two n []
    rw [List.append_nil] at hhour
    rw [Clock.text, hhour, bind_of_ok]
    rfl
  | minute n m =>
    have hminute := takeTwo_two m []
    rw [List.append_nil] at hminute
    simp only [Clock.text, takeTwo_two, bind_of_ok, reduceCtorEq, if_false, hasSep_colon, skipSep,
      if_true, hminute]
    rfl
  | second n m s fraction =>
    have hfraction : parseFraction v (fractionText fraction) = .ok (micros fraction) :=
      parseFraction_text h
    simp only [Clock.text, takeTwo_two, bind_of_ok, reduceCtorEq, if_false, hasSep_colon, skipSep,
      if_true, hfraction]
    rfl

/-- The time zone that a timestamp ends with. -/
inductive Zone where
  | naive
  | utc
  | offset (negative : Bool) (clock : Clock) (lt : clock.comps.microseconds < day)

namespace Zone

/-- The sign of an offset. -/
def sign (negative : Bool) : Char := if negative then '-' else '+'

/-- The text of a time zone. -/
def text : Zone → List Char
  | .naive => []
  | .utc => ['Z']
  | .offset negative clock _ => sign negative :: clock.text

/-- The offset from UTC. -/
def tzinfo : Zone → Option ℤ
  | .naive => none
  | .utc => some 0
  | .offset negative clock _ => some ((if negative then -1 else 1) * clock.comps.microseconds)

/-- A time zone that Python 3.10 can read without digits after the second. -/
def Plain : Zone → Prop
  | .naive => True
  | .utc => False
  | .offset _ clock _ => clock.HasMinutes ∧ clock.digitsAfter = []

end Zone

/-- A timestamp of the form `YYYY-MM-DD`, or of this form with a time and a time zone after the
separator `T`. -/
structure Timestamp where
  year : Fin 10000
  month : Fin 100
  dayOfMonth : Fin 100
  time : Option (Clock × Zone)
  valid : (partsOf year month dayOfMonth
    ((time.map fun t => t.1.comps).getD ⟨0, 0, 0, 0⟩)).Valid

/-- The mark that the time zone starts with is found. -/
theorem find_zoneMarks (v : Version) (clock : Clock) (zone : Zone) :
    v.zoneMarks.find? ((clock.text ++ zone.text).contains ·) =
      match zone with
      | .naive => none
      | .utc => if v = .v311 then some 'Z' else none
      | .offset negative _ _ => some (Zone.sign negative) := by
  have hminus : '-' ∉ clock.text := clock.not_mem_text rfl (by decide) (by decide)
  have hplus : '+' ∉ clock.text := clock.not_mem_text rfl (by decide) (by decide)
  have hzulu : 'Z' ∉ clock.text := clock.not_mem_text rfl (by decide) (by decide)
  cases zone with
  | naive => cases v <;> simp [Version.zoneMarks, Zone.text, hminus, hplus, hzulu]
  | utc => cases v <;> simp [Version.zoneMarks, Zone.text, hminus, hplus]
  | offset negative offset hlt =>
    have hoffset : '-' ∉ offset.text := offset.not_mem_text rfl (by decide) (by decide)
    cases negative <;> cases v <;>
      simp [Version.zoneMarks, Zone.text, Zone.sign, hminus, hoffset]

theorem takeWhile_mark {mark : Char} {left : List Char} (h : mark ∉ left) (right : List Char) :
    (left ++ mark :: right).takeWhile (· != mark) = left := by
  rw [List.takeWhile_append_of_pos]
  · simp
  · intro c hc
    exact bne_iff_ne.mpr (ne_of_mem_of_not_mem hc h)

theorem dropWhile_mark {mark : Char} {left : List Char} (h : mark ∉ left) (right : List Char) :
    (left ++ mark :: right).dropWhile (· != mark) = mark :: right := by
  rw [List.dropWhile_append_of_pos]
  · simp
  · intro c hc
    exact bne_iff_ne.mpr (ne_of_mem_of_not_mem hc h)

theorem offsetLength_text {v : Version} {clock : Clock}
    (h : v = .v311 ∨ clock.HasMinutes ∧ clock.digitsAfter = []) :
    v.offsetLength clock.text.length = true := by
  have htwo (n : Fin 100) : (two n).length = 2 := digits_length _
  rcases h with rfl | ⟨hminutes, hdigits⟩
  · cases clock <;> simp [Version.offsetLength, Clock.text, htwo]
    omega
  · cases clock with
    | hour n => cases hminutes
    | minute n m => cases v <;> simp [Version.offsetLength, Clock.text, htwo]
    | second n m s fraction =>
      obtain rfl : fraction = [] := hdigits
      cases v <;> simp [Version.offsetLength, Clock.text, fractionText, htwo]

theorem timezone_sign {negative : Bool} {us : ℕ} (h : us < day) :
    timezone ((if negative then -1 else 1) * us) = .ok ((if negative then -1 else 1) * us) := by
  have habs : |(if negative then -1 else 1) * (us : ℤ)| = us := by
    cases negative <;> simp
  exact if_pos (habs.trans_lt h)

/-- A time and its time zone are read back. -/
theorem parseIsoformatTime_text {v : Version} {clock : Clock} {zone : Zone}
    (h : v = .v311 ∨ clock.digitsAfter = [] ∧ zone.Plain) :
    parseIsoformatTime v (clock.text ++ zone.text) = .ok (clock.comps, zone.tzinfo) := by
  have hlength : ¬(clock.text ++ zone.text).length < 2 := by
    rw [List.length_append]
    exact not_lt.mpr (clock.two_le_length_text.trans (Nat.le_add_right _ _))
  have hclock : parseHhMmSsFf v clock.text = .ok clock.comps :=
    parseHhMmSsFf_text (h.imp_right And.left)
  unfold parseIsoformatTime
  rw [if_neg hlength, find_zoneMarks]
  cases zone with
  | naive =>
    rw [Zone.text, List.append_nil, hclock]
    rfl
  | utc =>
    obtain rfl : v = .v311 := h.resolve_right fun hplain => hplain.2
    have hzulu : 'Z' ∉ clock.text := clock.not_mem_text rfl (by decide) (by decide)
    simp only [Zone.text, if_true, takeWhile_mark hzulu, dropWhile_mark hzulu, hclock, bind_of_ok]
    rfl
  | offset negative offset hlt =>
    have hmark : Zone.sign negative ∉ clock.text := by
      cases negative
      · exact clock.not_mem_text rfl (by decide) (by decide)
      · exact clock.not_mem_text rfl (by decide) (by decide)
    have hsign : (if Zone.sign negative = '-' then -1 else 1 : ℤ) = if negative then -1 else 1 := by
      cases negative <;> rfl
    have hne : offset.text ≠ [] := List.ne_nil_of_length_pos (by have := offset.two_le_length_text; omega)
    have hoffset : parseHhMmSsFf v offset.text = .ok offset.comps :=
      parseHhMmSsFf_text (h.imp_right fun hplain => hplain.2.2)
    simp only [Zone.text, takeWhile_mark hmark, dropWhile_mark hmark, hclock, bind_of_ok,
      List.tail_cons, hne, false_and, if_false, offsetLength_text (h.imp_right And.right),
      hoffset, hsign, timezone_sign hlt]
    rfl

namespace Timestamp

variable (ts : Timestamp)

/-- The time of the day. -/
def comps : TimeComps := (ts.time.map fun t => t.1.comps).getD ⟨0, 0, 0, 0⟩

/-- The offset from UTC. -/
def tzinfo : Option ℤ := ts.time.bind fun t => t.2.tzinfo

/-- The text of the date. -/
def dateText : List Char := four ts.year ++ '-' :: (two ts.month ++ '-' :: two ts.dayOfMonth)

/-- The text of a time and its time zone. -/
def timeText : Option (Clock × Zone) → List Char
  | none => []
  | some (clock, zone) => 'T' :: (clock.text ++ zone.text)

/-- The text of a timestamp. -/
def text : List Char := ts.dateText ++ timeText ts.time

/-- The moment of a timestamp. -/
def datetime : Datetime :=
  ⟨DateTime.microseconds ⟨_, ts.valid⟩, Datetime.mem_of_dateTime _, ts.tzinfo⟩

/-- A timestamp that Python 3.10 can read without digits after the second. -/
def Plain : Prop :=
  ∀ clock zone, ts.time = some (clock, zone) → clock.digitsAfter = [] ∧ zone.Plain

theorem not_mem_dateText {mark : Char} (hdigit : mark.isDigit = false) (hminus : mark ≠ '-') :
    mark ∉ ts.dateText := by
  have htwo (n : Fin 100) : mark ∉ two n := not_mem_digits hdigit _
  have hfour (n : Fin 10000) : mark ∉ four n := not_mem_digits hdigit _
  simp [dateText, htwo, hfour, hminus]

theorem parseIsoformatDate_dateText :
    parseIsoformatDate ts.dateText = .ok (↑ts.year, ↑ts.month, ↑ts.dayOfMonth) := by
  change (do return (← int (four ts.year), ← int (two ts.month), ← int (two ts.dayOfMonth))) = _
  rw [int_four, int_two, int_two]
  rfl

/-- **Timestamps are read back.** -/
theorem fromisoformat_text {v : Version} (h : v = .v311 ∨ ts.Plain) :
    fromisoformat v ts.text = .ok ts.datetime := by
  obtain ⟨year, month, dayOfMonth, time, hvalid⟩ := ts
  have htake (ts : Timestamp) : ts.text.take 10 = ts.dateText := rfl
  have hdrop (ts : Timestamp) : ts.text.drop 11 = (timeText ts.time).tail := List.drop_one
  unfold fromisoformat
  rw [htake, hdrop, parseIsoformatDate_dateText, bind_of_ok]
  cases time with
  | none => exact dif_pos hvalid
  | some time =>
    obtain ⟨clock, zone⟩ := time
    have htime : parseIsoformatTime v (clock.text ++ zone.text) = .ok (clock.comps, zone.tzinfo) :=
      parseIsoformatTime_text (h.imp_right fun hplain => hplain clock zone rfl)
    have hne : clock.text ++ zone.text ≠ [] := by
      refine List.ne_nil_of_length_pos ?_
      have hlength := clock.two_le_length_text
      rw [List.length_append]
      omega
    simp only [timeText, List.tail_cons, if_neg hne, htime, bind_of_ok]
    exact dif_pos hvalid

/-- Python 3.10 does not read an offset that has hours only. -/
theorem fromisoformat_hour {clock : Clock} {negative : Bool} {n : Fin 100}
    {hlt : (Clock.hour n).comps.microseconds < day} (hdigits : clock.digitsAfter = [])
    (htime : ts.time = some (clock, .offset negative (.hour n) hlt)) :
    fromisoformat .v310 ts.text = .error .valueError := by
  have htake : ts.text.take 10 = ts.dateText := rfl
  have hdrop : ts.text.drop 11 = (timeText ts.time).tail := List.drop_one
  have hmark : Zone.sign negative ∉ clock.text := by
    cases negative
    · exact clock.not_mem_text rfl (by decide) (by decide)
    · exact clock.not_mem_text rfl (by decide) (by decide)
  have hclock : parseHhMmSsFf .v310 clock.text = .ok clock.comps := parseHhMmSsFf_text (.inr hdigits)
  have hne : (Clock.hour n).text ≠ [] := List.cons_ne_nil _ _
  have hoffset : Version.v310.offsetLength (Clock.hour n).text.length = false := rfl
  have hparse : parseIsoformatTime .v310 (clock.text ++ Zone.sign negative :: (Clock.hour n).text) =
      .error .valueError := by
    have hfind := find_zoneMarks .v310 clock (.offset negative (.hour n) hlt)
    simp only [Zone.text] at hfind
    unfold parseIsoformatTime
    rw [if_neg (by simp [Clock.text, two, pair]), hfind]
    simp only [takeWhile_mark hmark, dropWhile_mark hmark, hclock, bind_of_ok, List.tail_cons, hne,
      false_and, if_false, hoffset]
    rfl
  unfold fromisoformat
  rw [htake, hdrop, htime, parseIsoformatDate_dateText, bind_of_ok]
  simp only [timeText, List.tail_cons, Zone.text, hparse]
  rw [if_neg (List.append_ne_nil_of_right_ne_nil _ (List.cons_ne_nil _ _))]
  rfl

end Timestamp

end GrSatellites.Isoformat
