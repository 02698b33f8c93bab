import GrSatellites.Library.TableCursor
import GrSatellites.Library.Transducer
import Mathlib.Algebra.Order.Field.Rat

/-!
# The Doppler correction

The block of `lib/doppler_correction_impl.cc` over exact rational numbers: the time of a
sample and the frequency at that time. The cursor `d_current_index` is kept from sample to
sample, and goes back when the time is set.
-/

namespace GrSatellites.Doppler

open Interpolation TableCursor

/-- The times and frequencies of `read_doppler_file`, which stores at least one pair, when the
times are strictly increasing. -/
structure DopplerTable where
  points : List (ℚ × ℚ)
  ne_nil : points ≠ []
  sorted : Sorted points

/-- The arguments of the constructor, and the constant `GR_M_PI`. -/
structure Settings where
  sampRate : ℚ
  table : DopplerTable
  timesyncTag : String
  grMPi : ℚ

/-- `times` and `freqs_rad_per_sample`. -/
def Settings.freqsRadPerSample (settings : Settings) : List (ℚ × ℚ) :=
  settings.table.points.map fun p => (p.1, 2 * settings.grMPi * p.2 / settings.sampRate)

/-- The value of a tag: a tuple of an integer and a number, a dictionary with the integers `full`
and `frac` that it has, or anything else. -/
inductive TagValue where
  | tuple (seconds : ℕ) (frac : ℚ)
  | dict (full : Option ℤ) (frac : Option ℕ)
  | other
  deriving DecidableEq

/-- A stream tag, with the reading of the system clock when `work` gets to it. -/
structure Tag where
  offset : ℕ
  key : String
  value : TagValue
  now : ℚ
  deriving DecidableEq

/-- The time that a tag sets. The field `frac` of `pck_n` counts picoseconds. -/
def Settings.time? (settings : Settings) (tag : Tag) : Option ℚ :=
  if tag.key = "rx_time" then
    match tag.value with
    | .tuple seconds frac => some (seconds + frac)
    | _ => none
  else if tag.key = "pck_n" then
    match tag.value with
    | .dict (some full) (some frac) => some (full + frac / 10 ^ 12)
    | _ => none
  else if settings.timesyncTag ≠ "" ∧ tag.key = settings.timesyncTag then some tag.now
  else none

/-- The state of a `doppler_correction`, without the phase of its oscillator. -/
structure State where
  cursor : Cursor ℚ
  nitemsWritten : ℕ
  currentTime : ℚ
  currentFreq : ℚ

/-- The state after construction. -/
def State.init (settings : Settings) (t0 : ℚ) : State where
  cursor := ⟨0, t0, 0⟩
  nitemsWritten := 0
  currentTime := t0
  currentFreq := value settings.freqsRadPerSample 0

/-- `set_time`. -/
def State.setTime (settings : Settings) (s : State) (t : ℚ) : State :=
  { s with cursor := s.cursor.setTime settings.freqsRadPerSample t s.nitemsWritten }

/-- `get_tags_in_window` for `n` items from `first` on. -/
def tagsInWindow (tags : List Tag) (first n : ℕ) : List Tag :=
  tags.filter fun tag => first ≤ tag.offset ∧ tag.offset < first + n

/-- The times that the tags of a window set, each with its sample. -/
def Settings.timeRefs (settings : Settings) (window : List Tag) : List (ℚ × ℕ) :=
  window.filterMap fun tag => (settings.time? tag).map fun t => (t, tag.offset)

/-- The time and the frequency of an output sample, in radians per sample. -/
structure Sample where
  time : ℚ
  freq : ℚ
  deriving DecidableEq

/-- `work` for `n` items, with the tags of the input stream. -/
def State.work (settings : Settings) (s : State) (n : ℕ) (tags : List Tag) :
    State × List Sample :=
  let refs := settings.timeRefs (tagsInWindow tags s.nitemsWritten n)
  let cursor := s.cursor.setTimes settings.freqsRadPerSample refs
  let (cursor', read) :=
    cursor.readAll settings.freqsRadPerSample settings.sampRate s.nitemsWritten n
  let samples := read.map fun sample => (⟨sample.1, sample.2⟩ : Sample)
  let last := samples.getLast?.getD ⟨0, 0⟩
  ({ cursor := cursor'
     nitemsWritten := s.nitemsWritten + n
     currentTime := last.time
     currentFreq := last.freq }, samples)

/-- `frequency`, in hertz. -/
def State.frequency (settings : Settings) (s : State) : ℚ :=
  s.currentFreq * settings.sampRate / (2 * settings.grMPi)

/-- A call to the block. -/
inductive Call where
  | setTime (t : ℚ)
  | work (n : ℕ) (tags : List Tag)

/-- One call, with the samples of the output. -/
def step (settings : Settings) (s : State) : Call → State × List Sample
  | .setTime t => (s.setTime settings t, [])
  | .work n tags => s.work settings n tags

end GrSatellites.Doppler
