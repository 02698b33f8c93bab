import GrSatellites.Library.Interpolation
import GrSatellites.Library.Transducer
import Mathlib.Algebra.Order.Field.Rat
import Mathlib.Data.Rat.Floor

/-!
# The time-dependent delay

The block of `lib/time_dependent_delay_impl.cc` over exact rational numbers: the time of a
sample, the delay at a time, and the tags. The cursor `d_current_index` is kept from sample
to sample, and goes back when the time is set.
-/

namespace GrSatellites.TimeDependentDelay

open Interpolation

/-- The times and delays of `read_delay_file`, which stores at least one pair, when the times
are strictly increasing. -/
structure DelayTable where
  points : List (ℚ × ℚ)
  ne_nil : points ≠ []
  sorted : Sorted points

/-- The sampling rate, and the delays in samples. -/
structure Settings where
  sampRate : ℚ
  table : DelayTable

/-- What a tag says: `rx_time` with a tuple, `pck_n` with a dictionary that has the integers
`full` and `frac`, or anything else. -/
inductive TagValue where
  | rxTime (seconds : ℕ) (frac : ℚ)
  | pckN (full : ℤ) (frac : ℕ)
  | other (key : String)
  deriving DecidableEq

/-- A stream tag. -/
structure Tag where
  offset : ℕ
  value : TagValue
  deriving DecidableEq

/-- The time that a tag sets. The field `frac` of `pck_n` counts picoseconds. -/
def TagValue.time? : TagValue → Option ℚ
  | .rxTime seconds frac => some (seconds + frac)
  | .pckN full frac => some (full + frac / 10 ^ 12)
  | .other _ => none

/-- The state of a `time_dependent_delay`. -/
structure State where
  currentIndex : ℕ
  t0 : ℚ
  sampleT0 : ℕ
  nitemsWritten : ℕ
  futureTags : List Tag
  currentTime : ℚ
  currentDelay : ℚ

/-- The state after construction. -/
def State.init (settings : Settings) (t0 : ℚ) : State where
  currentIndex := 0
  t0 := t0
  sampleT0 := 0
  nitemsWritten := 0
  futureTags := []
  currentTime := t0
  currentDelay := value settings.table.points 0

/-- `set_time` and a tag that sets the time: the time of one sample, after which
`adjust_current_index` moves the cursor back. -/
def State.setTimeAt (settings : Settings) (s : State) (t : ℚ) (sample : ℕ) : State :=
  { s with
    currentIndex := rewind settings.table.points t s.currentIndex
    t0 := t
    sampleT0 := sample }

/-- One round of `update_time_from_tags`. -/
def State.updateFromTag (settings : Settings) (s : State) (tag : Tag) : State :=
  match tag.value.time? with
  | none => s
  | some t => s.setTimeAt settings t tag.offset

/-- `get_tags_in_window` for `n` items from `first` on. -/
def tagsInWindow (tags : List Tag) (first n : ℕ) : List Tag :=
  tags.filter fun tag => first ≤ tag.offset ∧ tag.offset < first + n

/-- `update_time_from_tags`, for the tags of the window. -/
def State.updateTimeFromTags (settings : Settings) (s : State) (tags : List Tag) : State :=
  tags.foldl (fun s tag => s.updateFromTag settings tag) s

/-- `compute_time`. -/
def State.computeTime (settings : Settings) (s : State) (sample : ℕ) : ℚ :=
  s.t0 + ((sample : ℤ) - (s.sampleT0 : ℤ)) / settings.sampRate

/-- `compute_delay`, which moves the cursor forward. -/
def State.computeDelay (settings : Settings) (s : State) (time : ℚ) : State × ℚ :=
  let points := settings.table.points
  let index := advance points time points.length s.currentIndex
  ({ s with currentIndex := index }, segment points index time)

/-- `compute_tag_delay`, which leaves the cursor alone. -/
def State.computeTagDelay (settings : Settings) (s : State) (time : ℚ) : ℚ :=
  let points := settings.table.points
  let index := rewind points time s.currentIndex
  segment points (advance points time points.length index) time

/-- The time and the delay of an output sample. -/
structure Sample where
  time : ℚ
  delay : ℚ
  deriving DecidableEq

/-- The loop over the samples, from the sample `first` on. -/
def State.delaySamples (settings : Settings) : State → ℕ → ℕ → State × List Sample
  | s, _, 0 => (s, [])
  | s, first, n + 1 =>
    let time := s.computeTime settings first
    let (s', delay) := s.computeDelay settings time
    let (s'', samples) := s'.delaySamples settings (first + 1) n
    (s'', ⟨time, delay⟩ :: samples)

/-- `std::round`, to the integer that is nearest, with halves away from zero. -/
def round (x : ℚ) : ℤ := if 0 ≤ x then ⌊x + 1 / 2⌋ else ⌈x - 1 / 2⌉

/-- A tag, moved by the delay of its item. -/
def State.delayTag (settings : Settings) (s : State) (tag : Tag) : Tag :=
  { tag with
    offset := tag.offset +
      (round (s.computeTagDelay settings (s.computeTime settings tag.offset))).toNat }

/-- The propagation of the tags of a window: a tag that is moved past the output stays in
`d_future_tags`, and the tags there go out from the front. -/
def State.propagateTags (settings : Settings) (s : State) (tags : List Tag) (addLimit : ℕ) :
    State × List Tag :=
  let delayed := tags.map (s.delayTag settings)
  let futureTags := s.futureTags ++ delayed.filter fun tag => ¬tag.offset < addLimit
  ({ s with futureTags := futureTags.dropWhile fun tag => tag.offset < addLimit },
    delayed.filter (fun tag => tag.offset < addLimit) ++
      futureTags.takeWhile fun tag => tag.offset < addLimit)

/-- What a call to `work` produces. -/
structure Output where
  samples : List Sample
  tags : List Tag
  deriving DecidableEq

/-- `work` for `n` items, with the tags of the input stream. -/
def State.work (settings : Settings) (s : State) (n : ℕ) (tags : List Tag) : State × Output :=
  let window := tagsInWindow tags s.nitemsWritten n
  let s₁ := s.updateTimeFromTags settings window
  let (s₂, samples) := s₁.delaySamples settings s.nitemsWritten n
  let last := samples.getLast?.getD ⟨0, 0⟩
  let (s₃, out) := s₂.propagateTags settings window (s.nitemsWritten + n)
  ({ s₃ with
      nitemsWritten := s.nitemsWritten + n
      currentTime := last.time
      currentDelay := last.delay },
    ⟨samples, out⟩)

/-- A call to the block. -/
inductive Call where
  | setTime (t : ℚ)
  | work (n : ℕ) (tags : List Tag)

/-- One call. -/
def step (settings : Settings) (s : State) : Call → State × List Output
  | .setTime t => (s.setTimeAt settings t s.nitemsWritten, [])
  | .work n tags =>
    let (s', out) := s.work settings n tags
    (s', [out])

end GrSatellites.TimeDependentDelay
