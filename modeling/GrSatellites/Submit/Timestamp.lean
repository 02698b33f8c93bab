import GrSatellites.Library.Isoformat

/-!
# The timestamps of the telemetry submitter

The function `parse_timestamp` in `python/submit.py`. Before Python 3.11 it cuts the digits after
the second, and those after the second of the offset, out of the text by hand. It looks for the
offset by its plus sign, so that a negative offset stays with the digits that are cut.
-/

namespace GrSatellites.Submit

open Attempt Calendar Isoformat

/-- `s.split(sep)`, unpacked into two variables. -/
def splitTwo (sep : Char) (s : List Char) : Except PyError (List Char × List Char) :=
  match s.splitOn sep with
  | [left, right] => .ok (left, right)
  | _ => .error .valueError

/-- The exact value of `float(f'0.{s}')`, for a text without exponent, underscore or blank. -/
def pointFloat (s : List Char) : Except PyError ℚ := do
  let ds ← s.mapM ofDigit
  return value ds / 10 ^ ds.length

/-- `int(x * 1000000)`. -/
def wholeMicroseconds (x : ℚ) : ℤ := ⌊x * 1000000⌋

/-- The text before a plus sign, the offset after it without its digits after the second, and these
as a number. -/
def cutZone (s : List Char) : Except PyError (List Char × Option (List Char) × Option ℚ) :=
  if '+' ∈ s then do
    let (body, s_tz) ← splitTwo '+' s
    if '.' ∈ s_tz then do
      let (tz_int, s_tz_frac) ← splitTwo '.' s_tz
      return (body, some tz_int, some (← pointFloat s_tz_frac))
    else return (body, some s_tz, none)
  else .ok (s, none, none)

/-- The offset is put back. -/
def putBack (s : List Char) : Option (List Char) → List Char
  | none => s
  | some s_tz => s ++ '+' :: s_tz

/-- The digits after the second are added to the moment that is read without them. -/
def parseFractional (s : List Char) (s_tz : Option (List Char)) : Except PyError Datetime :=
  if '.' ∈ s then do
    let (s_int, s_frac) ← splitTwo '.' s
    let t_int ← fromisoformat .v310 (putBack s_int s_tz)
    let t_frac ← pointFloat s_frac
    t_int.add (wholeMicroseconds t_frac)
  else fromisoformat .v310 (putBack s s_tz)

/-- The moment with its offset, before the digits after the second of the offset are taken away. -/
def parseWithOffset (v : Version) (s : List Char) : Except PyError (Datetime × Option ℚ) :=
  match v with
  | .v310 => do
    let (body, s_tz, t_tz_frac) ← cutZone (s.rdropWhile (· == 'Z'))
    return (← parseFractional body s_tz, t_tz_frac)
  | .v311 => do return (← fromisoformat .v311 s, none)

/-- The moment in UTC, which is also the time zone of a timestamp without one. -/
def toUtc (t : Datetime) : Except PyError Datetime :=
  match t.tzinfo with
  | none => .ok t.replaceUtc
  | some offset => t.astimezoneUtc offset

/-- `parse_timestamp`. -/
def parseTimestamp (v : Version) (s : List Char) : Except PyError Datetime := do
  match ← parseWithOffset v s with
  | (t, none) => toUtc t
  | (t, some t_tz_frac) => toUtc (← t.add (-wholeMicroseconds t_tz_frac))

/-- The versions of Python read the same moment. -/
def Agrees (s : List Char) : Prop :=
  ∃ t, parseTimestamp .v310 s = .ok t ∧ parseTimestamp .v311 s = .ok t

/-! ## Cuts -/

theorem splitTwo_append {sep : Char} {left right : List Char} (hleft : sep ∉ left)
    (hright : sep ∉ right) : splitTwo sep (left ++ sep :: right) = .ok (left, right) := by
  rw [splitTwo, List.splitOn_append_cons_self, List.splitOn_eq_singleton hleft,
    List.splitOn_eq_singleton hright]
  rfl

theorem pointFloat_digits (ds : List (Fin 10)) :
    pointFloat (digits ds) = .ok (value (ds.map Fin.val) / 10 ^ ds.length) := by
  rw [pointFloat, mapM_ofDigit_digits, bind_of_ok, List.length_map]
  rfl

theorem wholeMicroseconds_digits (ds : List (Fin 10)) :
    wholeMicroseconds (value (ds.map Fin.val) / 10 ^ ds.length) = micros ds := by
  have hfloor := Rat.floor_natCast_div_natCast (value (ds.map Fin.val) * 1000000) (10 ^ ds.length)
  push_cast at hfloor
  rw [wholeMicroseconds, div_mul_eq_mul_div, hfloor, micros]
  push_cast
  rfl

/-- What is not a number raises an exception. -/
theorem pointFloat_error {s : List Char} {c : Char} (hmem : c ∈ s) (hc : c.isDigit = false) :
    pointFloat s = .error .valueError := by
  have hmapM : s.mapM ofDigit = .error .valueError := by
    induction s with
    | nil => cases hmem
    | cons c' s ih =>
      rw [List.mapM_cons]
      by_cases hdigit : c'.isDigit = true
      · rcases List.mem_cons.mp hmem with rfl | hrest
        · rw [hdigit] at hc
          cases hc
        · rw [ofDigit, if_pos hdigit, bind_of_ok, ih hrest, bind_of_error]
      · rw [ofDigit, if_neg hdigit, bind_of_error]
  rw [pointFloat, hmapM, bind_of_error]

/-- Only the two parts of a text come out of a split. -/
theorem eq_of_splitTwo {sep : Char} {left right left' right' : List Char} (hleft : sep ∉ left)
    (h : splitTwo sep (left ++ sep :: right) = .ok (left', right')) :
    left' = left ∧ right' = right := by
  rw [splitTwo, List.splitOn_append_cons_self, List.splitOn_eq_singleton hleft] at h
  have hjoin : [sep].intercalate (right.splitOn sep) = right := List.intercalate_splitOn sep
  cases hsplit : right.splitOn sep with
  | nil => exact absurd hsplit (List.splitOn_ne_nil sep right)
  | cons part parts =>
    rw [hsplit] at h hjoin
    cases parts with
    | nil =>
      obtain ⟨rfl, rfl⟩ := Prod.mk.inj (Except.ok.inj h)
      exact ⟨rfl, by simpa using hjoin⟩
    | cons part' parts => cases h

/-- The digits after the second are cut out of a text. -/
theorem parseFractional_append {s : List Char} (h : '.' ∉ s) (ds : List (Fin 10))
    (s_tz : Option (List Char)) : parseFractional (s ++ fractionText ds) s_tz = (do
      let t ← fromisoformat .v310 (putBack s s_tz)
      t.add (micros ds)) := by
  cases ds with
  | nil =>
    rw [fractionText, List.append_nil, parseFractional, if_neg h]
    cases fromisoformat .v310 (putBack s s_tz) with
    | error e => rfl
    | ok t => exact t.add_zero.symm
  | cons d ds =>
    have hdigits : '.' ∉ digits (d :: ds) := not_mem_digits rfl _
    have hmem : '.' ∈ s ++ fractionText (d :: ds) := by simp [fractionText]
    rw [parseFractional, if_pos hmem, fractionText, splitTwo_append h hdigits, bind_of_ok]
    simp only [pointFloat_digits, bind_of_ok, wholeMicroseconds_digits]

/-! ## Timestamps without the digits that are cut out -/

theorem whole_lt {clock : Clock} (h : clock.comps.microseconds < day) :
    clock.whole.comps.microseconds < day := by
  have heq := clock.microseconds_eq
  omega

/-- The time zone without a `Z` and without digits after the second. -/
def wholeZone : Zone → Zone
  | .naive => .naive
  | .utc => .naive
  | .offset negative clock lt => .offset negative clock.whole (whole_lt lt)

/-- The timestamp without a `Z` and without digits after a second. -/
def whole (ts : Timestamp) : Timestamp where
  year := ts.year
  month := ts.month
  dayOfMonth := ts.dayOfMonth
  time := ts.time.map fun t => (t.1.whole, wholeZone t.2)
  valid := by
    obtain ⟨year, month, dayOfMonth, time, hvalid⟩ := ts
    cases time with
    | none => exact hvalid
    | some time =>
      simp only [Option.map_some, Option.getD_some, Clock.comps_whole] at hvalid ⊢
      exact { hvalid with microsecond_lt := by norm_num [partsOf] }

theorem whole_time (ts : Timestamp) :
    (whole ts).time = ts.time.map fun t => (t.1.whole, wholeZone t.2) := rfl

theorem whole_dateText (ts : Timestamp) : (whole ts).dateText = ts.dateText := rfl

/-- The digits after the second. -/
def fraction (ts : Timestamp) : List (Fin 10) := (ts.time.map fun t => t.1.digitsAfter).getD []

/-- The moment in UTC. -/
def utcTime (ts : Timestamp) : ℤ := ts.datetime.microseconds - ts.tzinfo.getD 0

variable {ts : Timestamp}

theorem datetime_eq_add (ts : Timestamp) : ts.datetime.microseconds =
    (whole ts).datetime.microseconds + micros (fraction ts) := by
  obtain ⟨year, month, dayOfMonth, time, hvalid⟩ := ts
  cases time with
  | none => simp [whole, fraction, Timestamp.datetime, micros, value]
  | some time =>
    obtain ⟨clock, zone⟩ := time
    have hdigits : clock.comps.microsecond = micros clock.digitsAfter := by
      cases clock <;> simp [Clock.comps, Clock.digitsAfter, micros, value]
    simp only [whole, fraction, Timestamp.datetime, Option.map_some, Option.getD_some,
      Clock.comps_whole, ← hdigits, ← Nat.cast_add]
    exact congrArg _ (microseconds_partsOf _ _)

theorem toUtc_eq (t : Datetime) :
    toUtc t = Datetime.ofMicroseconds (t.microseconds - t.tzinfo.getD 0) (some 0) := by
  obtain ⟨us, hmem, tzinfo⟩ := t
  cases tzinfo with
  | none => exact (Datetime.ofMicroseconds_eq_ok.mpr ⟨(Int.sub_zero us).symm, rfl⟩).symm
  | some offset => rfl

theorem parseTimestamp_v311 (ts : Timestamp) :
    parseTimestamp .v311 ts.text = Datetime.ofMicroseconds (utcTime ts) (some 0) := by
  rw [parseTimestamp, parseWithOffset, ts.fromisoformat_text (.inl rfl), bind_of_ok]
  exact toUtc_eq ts.datetime

theorem plain_whole (h : ∀ clock negative offset hlt,
    ts.time = some (clock, .offset negative offset hlt) → offset.HasMinutes) : (whole ts).Plain := by
  rintro clock zone htime
  obtain ⟨⟨clock', zone'⟩, htime', hwhole⟩ := Option.map_eq_some_iff.mp htime
  obtain ⟨rfl, rfl⟩ := Prod.mk.inj hwhole
  refine ⟨clock'.digitsAfter_whole, ?_⟩
  cases zone' with
  | naive => trivial
  | utc => trivial
  | offset negative offset hlt =>
    exact ⟨Clock.hasMinutes_whole.mpr (h clock' negative offset hlt htime'), offset.digitsAfter_whole⟩

/-- Digits after a whole second do not lead out of the calendar. -/
theorem whole_add {ds : List (Fin 10)} : ∃ hmem,
    (whole ts).datetime.add (micros ds) =
      .ok ⟨(whole ts).datetime.microseconds + micros ds, hmem, (whole ts).tzinfo⟩ := by
  have hmicros := micros_lt ds
  have hmem := (whole ts).datetime.mem
  have hwhole : (whole ts).comps.microsecond = 0 := by
    obtain ⟨year, month, dayOfMonth, time, hvalid⟩ := ts
    cases time with
    | none => rfl
    | some time =>
      simp only [Timestamp.comps, whole, Option.map_some, Option.getD_some, Clock.comps_whole]
  have hdvd : ((10 ^ 6 : ℕ) : ℤ) ∣ (whole ts).datetime.microseconds :=
    Int.natCast_dvd_natCast.mpr (DateTime.dvd_microseconds ⟨_, (whole ts).valid⟩ hwhole)
  have hmem' : minTime ≤ (whole ts).datetime.microseconds + micros ds ∧
      (whole ts).datetime.microseconds + micros ds < maxTime := by
    simp only [minTime, maxTime, day] at hmem ⊢
    omega
  exact ⟨hmem', dif_pos hmem'⟩

/-- A positive offset is taken away in two steps. -/
theorem add_neg_toUtc {t : Datetime} {whole frac : ℕ} (h : t.tzinfo = some (whole : ℤ)) :
    (do toUtc (← t.add (-frac))) =
      Datetime.ofMicroseconds (t.microseconds - (whole + frac)) (some 0) := by
  have hmem := t.mem
  unfold Datetime.add Datetime.ofMicroseconds
  split_ifs with hstep hboth hboth
  · rw [bind_of_ok, toUtc_eq, h]
    exact Datetime.ofMicroseconds_eq_ok.mpr ⟨by simp only [Option.getD_some]; omega, rfl⟩
  · rw [bind_of_ok, toUtc_eq, h]
    refine dif_neg fun hutc => hboth ?_
    simp only [Option.getD_some] at hutc
    omega
  · omega
  · rfl

/-- No digits after a second are left. -/
theorem point_not_mem_whole (ts : Timestamp) : '.' ∉ (whole ts).text := by
  obtain ⟨year, month, dayOfMonth, time, hvalid⟩ := ts
  have hdate (ts : Timestamp) : '.' ∉ ts.dateText := ts.not_mem_dateText rfl (by decide)
  have hclock (c : Clock) : '.' ∉ c.whole.text := c.not_mem_whole_text rfl (by decide)
  rcases time with - | ⟨clock, - | - | ⟨- | -, offset, hlt⟩⟩ <;>
    simp [Timestamp.text, whole, Timestamp.timeText, wholeZone, Zone.text, Zone.sign, hdate, hclock]

theorem parseWithOffset_of_cut {s body : List Char} {s_tz : Option (List Char)}
    {t_tz_frac : Option ℚ} {t : Datetime}
    (hcut : cutZone (s.rdropWhile (· == 'Z')) = .ok (body, s_tz, t_tz_frac))
    (hread : parseFractional body s_tz = .ok t) :
    parseWithOffset .v310 s = .ok (t, t_tz_frac) := by
  simp only [parseWithOffset, hcut, bind_of_ok, hread]
  rfl

theorem parseTimestamp_of_none {v : Version} {s : List Char} {t : Datetime}
    (h : parseWithOffset v s = .ok (t, none)) : parseTimestamp v s = toUtc t := by
  rw [parseTimestamp, h, bind_of_ok]

theorem parseTimestamp_of_some {v : Version} {s : List Char} {t : Datetime} {x : ℚ}
    (h : parseWithOffset v s = .ok (t, some x)) :
    parseTimestamp v s = (do toUtc (← t.add (-wholeMicroseconds x))) := by
  rw [parseTimestamp, h, bind_of_ok]

/-- A timestamp without a plus sign, from which some digits are cut out. -/
theorem parseTimestamp_of_cut (ds : List (Fin 10)) (hplain : (whole ts).Plain)
    (hcut : ts.text.rdropWhile (· == 'Z') = (whole ts).text ++ fractionText ds)
    (hplus : '+' ∉ (whole ts).text)
    (hutc : (whole ts).datetime.microseconds + micros ds - (whole ts).tzinfo.getD 0 = utcTime ts) :
    parseTimestamp .v310 ts.text = Datetime.ofMicroseconds (utcTime ts) (some 0) := by
  obtain ⟨hmem, hadd⟩ := @whole_add ts ds
  have hzone : '+' ∉ (whole ts).text ++ fractionText ds := by
    rw [List.mem_append, not_or]
    exact ⟨hplus, not_mem_fractionText rfl (by decide) ds⟩
  have hcutZone : cutZone (ts.text.rdropWhile (· == 'Z')) =
      .ok ((whole ts).text ++ fractionText ds, none, none) := by
    rw [hcut, cutZone, if_neg hzone]
  have hread : parseFractional ((whole ts).text ++ fractionText ds) none =
      .ok ⟨_, hmem, (whole ts).tzinfo⟩ := by
    rw [parseFractional_append (point_not_mem_whole ts), putBack,
      (whole ts).fromisoformat_text (.inr hplain), bind_of_ok, hadd]
  rw [parseTimestamp_of_none (parseWithOffset_of_cut hcutZone hread), toUtc_eq, ← hutc]

theorem exists_of_parseTimestamp {s : List Char} {t : Datetime}
    (h : parseTimestamp .v310 s = .ok t) : ∃ body s_tz t_tz_frac t',
      cutZone (s.rdropWhile (· == 'Z')) = .ok (body, s_tz, t_tz_frac) ∧
        parseFractional body s_tz = .ok t' := by
  obtain ⟨⟨t', frac⟩, hparse, -⟩ := bind_eq_ok.mp h
  obtain ⟨⟨body, s_tz, t_tz_frac⟩, hcut, hread⟩ := bind_eq_ok.mp hparse
  obtain ⟨t'', hread, -⟩ := bind_eq_ok.mp hread
  exact ⟨body, s_tz, t_tz_frac, t'', hcut, hread⟩

theorem rstrip_of_not_mem {s : List Char} (h : 'Z' ∉ s) : s.rdropWhile (· == 'Z') = s := by
  refine List.rdropWhile_eq_self_iff.mpr fun hne hlast => h ?_
  rw [← eq_of_beq hlast]
  exact List.getLast_mem hne

/-- The offset of a timestamp has minutes, and a negative one does not come after digits that are
cut out. -/
def Handled (ts : Timestamp) : Prop :=
  ∀ clock negative offset hlt, ts.time = some (clock, .offset negative offset hlt) →
    offset.HasMinutes ∧ (negative = true → clock.digitsAfter = [])

section

variable {clock offset : Clock} {zone : Zone} {hlt : offset.comps.microseconds < day}

/-- The text of a timestamp with digits after the second. -/
theorem text_of_time (htime : ts.time = some (clock, zone)) :
    ts.text = ts.dateText ++ 'T' :: clock.whole.text ++ fractionText clock.digitsAfter ++
      zone.text := by
  rw [Timestamp.text, htime, Timestamp.timeText, clock.text_eq]
  simp only [List.append_assoc, List.cons_append]

theorem whole_text_of_time (htime : ts.time = some (clock, zone)) :
    (whole ts).text = ts.dateText ++ 'T' :: clock.whole.text ++ (wholeZone zone).text := by
  rw [Timestamp.text, whole_dateText, whole_time, htime, Option.map_some, Timestamp.timeText]
  simp only [List.append_assoc, List.cons_append]

theorem whole_text_eq_putBack (htime : ts.time = some (clock, .offset false offset hlt)) :
    (whole ts).text =
      putBack (ts.dateText ++ 'T' :: clock.whole.text) (some offset.whole.text) := by
  rw [whole_text_of_time htime]
  rfl

theorem point_not_mem_body (htime : ts.time = some (clock, zone)) :
    '.' ∉ ts.dateText ++ 'T' :: clock.whole.text := by
  have hwhole := point_not_mem_whole ts
  rw [whole_text_of_time htime] at hwhole
  exact fun hpoint => hwhole (List.mem_append_left _ hpoint)

/-- The text of a date and a time. -/
theorem not_mem_text (ts : Timestamp) (clock : Clock) {m : Char} (hdigit : m.isDigit = false)
    (hother : m ∉ ['-', ':', '.', 'T']) :
    m ∉ ts.dateText ++ 'T' :: clock.whole.text ++ fractionText clock.digitsAfter := by
  simp only [List.mem_cons, List.not_mem_nil, or_false, not_or] at hother
  obtain ⟨hminus, hcolon, hpoint, hseparator⟩ := hother
  have hdate := ts.not_mem_dateText hdigit hminus
  have hclock := clock.not_mem_whole_text hdigit hcolon
  have hfraction := not_mem_fractionText hdigit hpoint clock.digitsAfter
  simp [hdate, hclock, hfraction, hseparator]

theorem parseTimestamp_date (htime : ts.time = none) :
    parseTimestamp .v310 ts.text = Datetime.ofMicroseconds (utcTime ts) (some 0) := by
  have hwhole : (whole ts).time = none := by rw [whole_time, htime, Option.map_none]
  have htext : (whole ts).text = ts.text := by
    rw [Timestamp.text, Timestamp.text, whole_dateText, hwhole, htime]
  have hdate (mark : Char) (hdigit : mark.isDigit = false) (hminus : mark ≠ '-') :
      mark ∉ ts.text := by
    rw [Timestamp.text, htime, Timestamp.timeText, List.append_nil]
    exact ts.not_mem_dateText hdigit hminus
  refine parseTimestamp_of_cut [] (plain_whole fun _ _ _ _ hzone => ?_) ?_ ?_ ?_
  · rw [htime] at hzone
    cases hzone
  · rw [rstrip_of_not_mem (hdate 'Z' rfl (by decide)), fractionText, List.append_nil, htext]
  · rw [htext]
    exact hdate '+' rfl (by decide)
  · rw [utcTime, datetime_eq_add ts, fraction, Timestamp.tzinfo, Timestamp.tzinfo, hwhole, htime,
      Option.map_none, Option.getD_none]

/-- A `Z` is stripped. -/
theorem parseTimestamp_utc (hzone : zone = .naive ∨ zone = .utc)
    (htime : ts.time = some (clock, zone)) :
    parseTimestamp .v310 ts.text = Datetime.ofMicroseconds (utcTime ts) (some 0) := by
  have hwhole : (whole ts).time = some (clock.whole, .naive) := by
    rcases hzone with rfl | rfl <;> rw [whole_time, htime, Option.map_some, wholeZone]
  have htext : (whole ts).text ++ fractionText clock.digitsAfter =
      ts.dateText ++ 'T' :: clock.whole.text ++ fractionText clock.digitsAfter := by
    rcases hzone with rfl | rfl <;> rw [whole_text_of_time htime] <;> simp [wholeZone, Zone.text]
  refine parseTimestamp_of_cut clock.digitsAfter (plain_whole fun _ _ _ _ hoffset => ?_) ?_ ?_ ?_
  · rw [htime] at hoffset
    rcases hzone with rfl | rfl <;> cases hoffset
  · have hzulu := not_mem_text ts clock (m := 'Z') rfl (by decide)
    rw [htext, text_of_time htime]
    rcases hzone with rfl | rfl
    · rw [Zone.text, List.append_nil, rstrip_of_not_mem hzulu]
    · rw [Zone.text, List.rdropWhile_concat_pos _ _ _ (by decide), rstrip_of_not_mem hzulu]
  · have hplus := not_mem_text ts clock (m := '+') rfl (by decide)
    rw [← htext] at hplus
    exact fun hmem => hplus (List.mem_append_left _ hmem)
  · rw [utcTime, datetime_eq_add ts, fraction, Timestamp.tzinfo, Timestamp.tzinfo, hwhole, htime,
      Option.map_some, Option.getD_some]
    rcases hzone with rfl | rfl <;> simp [Zone.tzinfo]

theorem tzinfo_whole {negative : Bool} (htime : ts.time = some (clock, .offset negative offset hlt)) :
    (whole ts).tzinfo =
      some ((if negative then -1 else 1) * (offset.whole.comps.microseconds : ℤ)) := by
  rw [Timestamp.tzinfo, whole_time, htime, Option.map_some, Option.bind_some, wholeZone, Zone.tzinfo]

theorem utcTime_of_offset {negative : Bool}
    (htime : ts.time = some (clock, .offset negative offset hlt)) :
    utcTime ts = (whole ts).datetime.microseconds + micros clock.digitsAfter -
      (if negative then -1 else 1) *
        (offset.whole.comps.microseconds + micros offset.digitsAfter : ℕ) := by
  rw [utcTime, datetime_eq_add ts, fraction, Timestamp.tzinfo, htime, Option.map_some,
    Option.getD_some, Option.bind_some, Zone.tzinfo, Option.getD_some, offset.microseconds_eq]

theorem not_mem_negative {mark : Char} (htime : ts.time = some (clock, .offset true offset hlt))
    (hdigit : mark.isDigit = false) (hother : mark ∉ ['-', ':', '.', 'T']) : mark ∉ ts.text := by
  have hclock := not_mem_text ts clock hdigit hother
  simp only [List.mem_cons, List.not_mem_nil, or_false, not_or] at hother
  have hoffset := offset.not_mem_text hdigit hother.2.1 hother.2.2.1
  rw [text_of_time htime, List.mem_append, not_or]
  exact ⟨hclock, List.not_mem_cons_of_ne_of_not_mem hother.1 hoffset⟩

/-- A negative offset comes with its digits after the second. -/
theorem parseTimestamp_negative (hminutes : offset.HasMinutes) (hdigits : clock.digitsAfter = [])
    (htime : ts.time = some (clock, .offset true offset hlt)) :
    parseTimestamp .v310 ts.text = Datetime.ofMicroseconds (utcTime ts) (some 0) := by
  have htext : ts.text = (whole ts).text ++ fractionText offset.digitsAfter := by
    rw [text_of_time htime, whole_text_of_time htime, hdigits, fractionText, List.append_nil,
      wholeZone, Zone.text, Zone.text, offset.text_eq]
    simp only [List.append_assoc, List.cons_append]
  have hbody (mark : Char) (hdigit : mark.isDigit = false) (hother : mark ∉ ['-', ':', '.', 'T']) :
      mark ∉ ts.text := not_mem_negative htime hdigit hother
  refine parseTimestamp_of_cut offset.digitsAfter (plain_whole fun _ _ _ _ hoffset => ?_) ?_ ?_ ?_
  · rw [htime] at hoffset
    cases hoffset
    exact hminutes
  · rw [rstrip_of_not_mem (hbody 'Z' rfl (by decide)), htext]
  · intro hmem
    refine hbody '+' rfl (by decide) ?_
    rw [htext]
    exact List.mem_append_left _ hmem
  · rw [utcTime_of_offset htime, tzinfo_whole htime, hdigits, micros_nil, Option.getD_some,
      if_pos rfl]
    push_cast
    ring

/-- A positive offset is cut off, and its digits after the second are a number of their own. -/
theorem cutZone_positive (htime : ts.time = some (clock, .offset false offset hlt)) :
    ∃ t_tz_frac, cutZone (ts.text.rdropWhile (· == 'Z')) =
      .ok (ts.dateText ++ 'T' :: clock.whole.text ++ fractionText clock.digitsAfter,
        some offset.whole.text, t_tz_frac) ∧
      (t_tz_frac.map wholeMicroseconds).getD 0 = micros offset.digitsAfter := by
  have htext : ts.text = ts.dateText ++ 'T' :: clock.whole.text ++ fractionText clock.digitsAfter ++
      '+' :: offset.text := text_of_time htime
  have hzulu : 'Z' ∉ ts.text := by
    rw [htext, List.mem_append, not_or]
    exact ⟨not_mem_text ts clock rfl (by decide), List.not_mem_cons_of_ne_of_not_mem (by decide)
      (offset.not_mem_text rfl (by decide) (by decide))⟩
  have hplus : '+' ∈ ts.text := by
    rw [htext]
    exact List.mem_append_right _ List.mem_cons_self
  have hpoint : '.' ∉ offset.whole.text := offset.not_mem_whole_text rfl (by decide)
  have hoffset : '+' ∉ offset.text := offset.not_mem_text rfl (by decide) (by decide)
  have hsplit := splitTwo_append (not_mem_text ts clock rfl (by decide)) hoffset
  rw [← htext] at hsplit
  rw [rstrip_of_not_mem hzulu, cutZone, if_pos hplus, hsplit, bind_of_ok, offset.text_eq]
  cases offset.digitsAfter with
  | nil =>
    refine ⟨none, ?_, by simp [micros, value]⟩
    simp only [fractionText, List.append_nil, if_neg hpoint]
    rfl
  | cons d ds =>
    have hmem : '.' ∈ offset.whole.text ++ fractionText (d :: ds) :=
      List.mem_append_right _ List.mem_cons_self
    have hdigits : '.' ∉ digits (d :: ds) := not_mem_digits rfl _
    refine ⟨some _, ?_, wholeMicroseconds_digits (d :: ds)⟩
    simp only [if_pos hmem]
    rw [fractionText, splitTwo_append hpoint hdigits, bind_of_ok, pointFloat_digits, bind_of_ok]
    rfl

/-- A positive offset is cut. -/
theorem parseTimestamp_positive (hminutes : offset.HasMinutes)
    (htime : ts.time = some (clock, .offset false offset hlt)) :
    parseTimestamp .v310 ts.text = Datetime.ofMicroseconds (utcTime ts) (some 0) := by
  have hplain : (whole ts).Plain := by
    refine plain_whole fun _ _ _ _ hoffset => ?_
    rw [htime] at hoffset
    cases hoffset
    exact hminutes
  have htz : (whole ts).tzinfo = some (offset.whole.comps.microseconds : ℤ) := by
    rw [tzinfo_whole htime, if_neg Bool.false_ne_true, one_mul]
  have hutc : utcTime ts = (whole ts).datetime.microseconds + micros clock.digitsAfter -
      (offset.whole.comps.microseconds + micros offset.digitsAfter) := by
    rw [utcTime_of_offset htime, if_neg Bool.false_ne_true, one_mul, Nat.cast_add]
  obtain ⟨hmem, hadd⟩ := @whole_add ts clock.digitsAfter
  have hread : parseFractional
      (ts.dateText ++ 'T' :: clock.whole.text ++ fractionText clock.digitsAfter)
      (some offset.whole.text) = .ok ⟨_, hmem, (whole ts).tzinfo⟩ := by
    rw [parseFractional_append (point_not_mem_body htime), ← whole_text_eq_putBack htime, (whole ts).fromisoformat_text (.inr hplain),
      bind_of_ok, hadd]
  obtain ⟨t_tz_frac, hcut, hmicros⟩ := cutZone_positive htime
  have hparse := parseWithOffset_of_cut hcut hread
  rw [hutc]
  cases t_tz_frac with
  | none =>
    have hzero : (0 : ℤ) = micros offset.digitsAfter := hmicros
    rw [parseTimestamp_of_none hparse, toUtc_eq, htz, Option.getD_some, ← hzero, add_zero]
  | some x =>
    have hx : wholeMicroseconds x = micros offset.digitsAfter := hmicros
    rw [parseTimestamp_of_some hparse, hx]
    exact add_neg_toUtc htz

/-- A negative offset after digits that are cut out is taken for digits. -/
theorem parseTimestamp_negative_ne_ok (hdigits : clock.digitsAfter ≠ [])
    (htime : ts.time = some (clock, .offset true offset hlt)) (t : Datetime) :
    parseTimestamp .v310 ts.text ≠ .ok t := by
  obtain ⟨d, ds, hcons⟩ := List.exists_cons_of_ne_nil hdigits
  have hbody (mark : Char) (hdigit : mark.isDigit = false) (hother : mark ∉ ['-', ':', '.', 'T']) :
      mark ∉ ts.text := not_mem_negative htime hdigit hother
  have htext : ts.text = ts.dateText ++ 'T' :: clock.whole.text ++
      '.' :: (digits (d :: ds) ++ '-' :: offset.text) := by
    rw [text_of_time htime, hcons, fractionText, List.append_assoc]
    rfl
  have hpoint := point_not_mem_body htime
  intro hparse
  obtain ⟨body, s_tz, frac, t', hcut, hread⟩ := exists_of_parseTimestamp hparse
  rw [rstrip_of_not_mem (hbody 'Z' rfl (by decide)), cutZone, if_neg (hbody '+' rfl (by decide))]
    at hcut
  obtain ⟨rfl, rfl, -⟩ := hcut
  rw [parseFractional, if_pos (htext ▸ List.mem_append_right _ List.mem_cons_self)] at hread
  obtain ⟨⟨s_int, s_frac⟩, hsplit, hread⟩ := bind_eq_ok.mp hread
  obtain ⟨t_int, -, hread⟩ := bind_eq_ok.mp hread
  obtain ⟨t_frac, hfloat, -⟩ := bind_eq_ok.mp hread
  rw [htext] at hsplit
  obtain ⟨-, rfl⟩ := eq_of_splitTwo hpoint hsplit
  rw [pointFloat_error (List.mem_append_right _ List.mem_cons_self) rfl] at hfloat
  cases hfloat

/-- An offset in hours alone is not read. -/
theorem parseTimestamp_hour_ne_ok {negative : Bool} {n : Fin 100}
    {hlt : (Clock.hour n).comps.microseconds < day}
    (htime : ts.time = some (clock, .offset negative (.hour n) hlt)) (t : Datetime) :
    parseTimestamp .v310 ts.text ≠ .ok t := by
  have hwhole : (whole ts).time = some (clock.whole, .offset negative (.hour n) hlt) := by
    rw [whole_time, htime]
    rfl
  have hread : fromisoformat .v310 (whole ts).text = .error .valueError :=
    (whole ts).fromisoformat_hour clock.digitsAfter_whole hwhole
  intro hparse
  obtain ⟨body, s_tz, frac, t', hcut, hparse'⟩ := exists_of_parseTimestamp hparse
  cases negative with
  | false =>
    have hpoint := point_not_mem_body htime
    obtain ⟨frac', hcut', -⟩ := cutZone_positive htime
    rw [hcut] at hcut'
    obtain ⟨rfl, rfl, -⟩ := hcut'
    rw [parseFractional_append hpoint, ← whole_text_eq_putBack htime, hread] at hparse'
    cases hparse'
  | true =>
    by_cases hdigits : clock.digitsAfter = []
    · have htext : (whole ts).text = ts.text := by
        rw [text_of_time htime, whole_text_of_time htime, hdigits, fractionText, List.append_nil]
        rfl
      rw [rstrip_of_not_mem (not_mem_negative htime rfl (by decide)), cutZone,
        if_neg (not_mem_negative htime rfl (by decide))] at hcut
      obtain ⟨rfl, rfl, -⟩ := hcut
      rw [← htext, parseFractional, if_neg (point_not_mem_whole ts), putBack, hread] at hparse'
      cases hparse'
    · exact parseTimestamp_negative_ne_ok hdigits htime t hparse

end

/-- The moment in UTC is in the calendar. -/
def Representable (ts : Timestamp) : Prop := minTime ≤ utcTime ts ∧ utcTime ts < maxTime

theorem parseTimestamp_v310 (h : Handled ts) :
    parseTimestamp .v310 ts.text = Datetime.ofMicroseconds (utcTime ts) (some 0) := by
  rcases htime : ts.time with - | ⟨clock, - | - | ⟨- | -, offset, hlt⟩⟩
  · exact parseTimestamp_date htime
  · exact parseTimestamp_utc (.inl rfl) htime
  · exact parseTimestamp_utc (.inr rfl) htime
  · exact parseTimestamp_positive (h _ _ _ _ htime).1 htime
  · exact parseTimestamp_negative (h _ _ _ _ htime).1 ((h _ _ _ _ htime).2 rfl) htime

/-- Half a second after midnight, with an offset of five hours behind UTC. -/
def halfSecond : Timestamp where
  year := 2023
  month := 1
  dayOfMonth := 1
  time := some (.second 0 0 0 [5], .offset true (.minute 5 0) (by decide))
  valid := by decide

end GrSatellites.Submit
