import GrSatellites.Library.Interpolation
import Mathlib.Algebra.Order.Group.Basic
import Mathlib.Algebra.Order.Ring.Cast

/-!
# A table read sample by sample

A table of values at increasing times is read at the times of evenly spaced samples. The
time of one sample is known, and may be set again. A cursor stays on the segment of the
last sample: it goes back when a time is set, and forward when a sample is read.
-/

namespace GrSatellites.TableCursor

open Interpolation

variable {K : Type} [Field K] [LinearOrder K]

/-- A place in a table, and the time of one sample. -/
structure Cursor (K : Type) where
  index : ℕ
  t0 : K
  sampleT0 : ℕ
  deriving DecidableEq

namespace Cursor

/-- Set the time of a sample, and move back to it. -/
def setTime (table : List (K × K)) (c : Cursor K) (t : K) (sample : ℕ) : Cursor K :=
  ⟨rewind table t c.index, t, sample⟩

/-- Set the times of several samples. -/
def setTimes (table : List (K × K)) (c : Cursor K) (refs : List (K × ℕ)) : Cursor K :=
  refs.foldl (fun c ref => c.setTime table ref.1 ref.2) c

omit [LinearOrder K] in
/-- The time of a sample. -/
def timeOf (rate : K) (c : Cursor K) (sample : ℕ) : K :=
  c.t0 + ((sample : ℤ) - (c.sampleT0 : ℤ)) / rate

/-- Move forward to a time, and read the table there. -/
def read (table : List (K × K)) (c : Cursor K) (t : K) : Cursor K × K :=
  let index := advance table t table.length c.index
  ({ c with index := index }, segment table index t)

/-- Read the samples from `first` on, with their times. -/
def readAll (table : List (K × K)) (rate : K) : Cursor K → ℕ → ℕ → Cursor K × List (K × K)
  | c, _, 0 => (c, [])
  | c, first, n + 1 =>
    let t := c.timeOf rate first
    let (c', v) := c.read table t
    let (c'', samples) := readAll table rate c' (first + 1) n
    (c'', (t, v) :: samples)

/-- The cursor is in the table, and not ahead of a time. -/
structure NotAhead (table : List (K × K)) (c : Cursor K) (t : K) : Prop where
  index_lt : c.index < table.length
  low : c.index = 0 ∨ time table c.index ≤ t

/-- No point that the cursor has reached lies after the sample `first`, and not after the times
that are set. -/
def InStep (table : List (K × K)) (rate : K) (c : Cursor K) (refs : List (K × ℕ)) (first : ℕ) :
    Prop :=
  0 < rate ∧
    (refs ≠ [] → ∀ k ≤ c.index, 0 < k → (∀ ref ∈ refs, time table k ≤ ref.1) →
      time table k ≤ (c.setTimes table refs).timeOf rate first)

variable {table : List (K × K)} {rate : K} {c : Cursor K}

theorem NotAhead.mono {t u : K} (hc : c.NotAhead table t) (htu : t ≤ u) : c.NotAhead table u :=
  ⟨hc.index_lt, hc.low.imp id fun hle => hle.trans htu⟩

theorem setTime_index_le (c : Cursor K) (t : K) (sample : ℕ) :
    (c.setTime table t sample).index ≤ c.index := rewind_le _ _ _

theorem notAhead_setTime (hc : c.index < table.length) (t : K) (sample : ℕ) :
    (c.setTime table t sample).NotAhead table t :=
  ⟨(rewind_le _ _ _).trans_lt hc, rewind_spec _ _ _⟩

omit [LinearOrder K] in
/-- The sample whose time was set has that time. -/
theorem timeOf_self (c : Cursor K) : c.timeOf rate c.sampleT0 = c.t0 := by
  unfold timeOf
  rw [sub_self, zero_div, add_zero]

/-- The cursor is not ahead of the sample whose time was set. -/
theorem notAhead_timeOf_setTime (hc : c.index < table.length) (t : K) (sample : ℕ) :
    (c.setTime table t sample).NotAhead table ((c.setTime table t sample).timeOf rate sample) := by
  have hself : (c.setTime table t sample).timeOf rate sample = t := timeOf_self _
  rw [hself]
  exact notAhead_setTime hc t sample

theorem setTimes_cons (c : Cursor K) (ref : K × ℕ) (refs : List (K × ℕ)) :
    c.setTimes table (ref :: refs) = (c.setTime table ref.1 ref.2).setTimes table refs := rfl

/-- Setting times moves the cursor back to a point that is not after any of them. -/
theorem setTimes_index (hsorted : Sorted table) (refs : List (K × ℕ))
    (hc : c.index < table.length) :
    (c.setTimes table refs).index ≤ c.index ∧
      ((c.setTimes table refs).index = 0 ∨
        ∀ ref ∈ refs, time table (c.setTimes table refs).index ≤ ref.1) := by
  induction refs generalizing c with
  | nil => exact ⟨le_rfl, Or.inr fun ref href => nomatch href⟩
  | cons ref refs ih =>
    rw [setTimes_cons]
    have hback : (c.setTime table ref.1 ref.2).index ≤ c.index := c.setTime_index_le ref.1 ref.2
    obtain ⟨hle, hlow⟩ := ih (hback.trans_lt hc)
    refine ⟨hle.trans hback, ?_⟩
    rcases hlow with hzero | hlow
    · exact Or.inl hzero
    rcases (notAhead_setTime hc ref.1 ref.2).low with hzero | hfirst
    · exact Or.inl (Nat.le_zero.mp (hle.trans_eq hzero))
    · refine Or.inr (List.forall_mem_cons.mpr ⟨?_, hlow⟩)
      exact (hsorted.time_le hle (hback.trans_lt hc)).trans hfirst

theorem setTimes_index_lt (refs : List (K × ℕ)) (hc : c.index < table.length) :
    (c.setTimes table refs).index < table.length := by
  induction refs generalizing c with
  | nil => exact hc
  | cons ref refs ih => exact ih ((c.setTime_index_le ref.1 ref.2).trans_lt hc)

/-- If the times keep in step, the cursor is not ahead of the sample `first` once they are set. -/
theorem InStep.notAhead {refs : List (K × ℕ)} {first : ℕ} (hsorted : Sorted table)
    (hstep : c.InStep table rate refs first) (hc : c.NotAhead table (c.timeOf rate first)) :
    (c.setTimes table refs).NotAhead table ((c.setTimes table refs).timeOf rate first) := by
  obtain ⟨-, hfirst⟩ := hstep
  by_cases hnone : refs = []
  · subst hnone
    exact hc
  · obtain ⟨hle, hlow⟩ := setTimes_index hsorted refs hc.index_lt
    refine ⟨hle.trans_lt hc.index_lt, ?_⟩
    rcases hlow with hzero | hlow
    · exact Or.inl hzero
    rcases Nat.eq_zero_or_pos (c.setTimes table refs).index with hzero | hpos
    · exact Or.inl hzero
    · exact Or.inr (hfirst hnone _ hle hpos hlow)

/-! ## Reading -/

/-- **One sample.** From a cursor that is not ahead, a sample is read as the value of the table. -/
theorem NotAhead.read_snd {t : K} (hsorted : Sorted table) (hc : c.NotAhead table t) :
    (c.read table t).2 = interpolate table t :=
  segment_advance hsorted.ordered hc.index_lt hc.low

theorem NotAhead.read {t : K} (hc : c.NotAhead table t) :
    (c.read table t).1.NotAhead table t :=
  ⟨advance_lt hc.index_lt, advance_low hc.low⟩

theorem readAll_succ (c : Cursor K) (first n : ℕ) :
    c.readAll table rate first (n + 1) =
      (((c.read table (c.timeOf rate first)).1.readAll table rate (first + 1) n).1,
        (c.timeOf rate first, (c.read table (c.timeOf rate first)).2) ::
          ((c.read table (c.timeOf rate first)).1.readAll table rate (first + 1) n).2) := rfl

/-- Reading changes nothing but the place in the table. -/
theorem readAll_fst (c : Cursor K) (first n : ℕ) :
    (c.readAll table rate first n).1 =
      { c with index := (c.readAll table rate first n).1.index } := by
  induction n generalizing c first with
  | zero => rfl
  | succ n ih => exact ih (c.read table (c.timeOf rate first)).1 (first + 1)

theorem timeOf_readAll (c : Cursor K) (first n sample : ℕ) :
    (c.readAll table rate first n).1.timeOf rate sample = c.timeOf rate sample := by
  rw [c.readAll_fst first n]
  rfl

theorem readAll_index_lt (first n : ℕ) (hc : c.index < table.length) :
    (c.readAll table rate first n).1.index < table.length := by
  induction n generalizing c first with
  | zero => exact hc
  | succ n ih => exact ih (first + 1) (advance_lt hc)

/-- The samples that are read are one for each number, in order. -/
theorem length_readAll (c : Cursor K) (first n : ℕ) :
    (c.readAll table rate first n).2.length = n := by
  induction n generalizing c first with
  | zero => rfl
  | succ n ih => rw [readAll_succ, List.length_cons, ih]

/-- Time goes forward. -/
theorem timeOf_le_succ [IsStrictOrderedRing K] (hrate : 0 < rate) (c : Cursor K) (sample : ℕ) :
    c.timeOf rate sample ≤ c.timeOf rate (sample + 1) := by
  unfold timeOf
  have hle : (((sample : ℕ) : ℤ) : K) - ((c.sampleT0 : ℤ) : K) ≤
      (((sample + 1 : ℕ) : ℤ) : K) - ((c.sampleT0 : ℤ) : K) := by
    push_cast
    linarith
  exact add_le_add_right (div_le_div_of_nonneg_right hle hrate.le) _

/-- **A window.** If the cursor is not ahead of the first sample, every sample is read as the
value of the table at its time, and the cursor is not ahead of the sample after the window. -/
theorem NotAhead.readAll [IsStrictOrderedRing K] {first : ℕ} (hsorted : Sorted table)
    (hrate : 0 < rate) (n : ℕ) (hc : c.NotAhead table (c.timeOf rate first)) :
    (c.readAll table rate first n).2 = (List.range' first n).map (fun sample =>
        (c.timeOf rate sample, interpolate table (c.timeOf rate sample))) ∧
      (c.readAll table rate first n).1.NotAhead table (c.timeOf rate (first + n)) := by
  induction n generalizing c first with
  | zero => exact ⟨rfl, hc⟩
  | succ n ih =>
    have hnext := hc.read.mono (c.timeOf_le_succ hrate first)
    obtain ⟨hsamples, hcursor⟩ := ih hnext
    constructor
    · rw [readAll_succ, List.range'_succ, List.map_cons, ← hc.read_snd hsorted]
      exact congrArg _ hsamples
    · rw [Nat.add_right_comm] at hcursor
      exact hcursor

/-- **A call.** If the times that are set keep in step, the samples are read as the values of the
table, and the cursor is not ahead of the next call. -/
theorem InStep.readAll [IsStrictOrderedRing K] {refs : List (K × ℕ)} {first : ℕ}
    (hsorted : Sorted table) (hstep : c.InStep table rate refs first) (n : ℕ)
    (hc : c.NotAhead table (c.timeOf rate first)) :
    let c' := c.setTimes table refs
    let c'' := (c'.readAll table rate first n).1
    (∀ sample ∈ (c'.readAll table rate first n).2, sample.2 = interpolate table sample.1) ∧
      c''.NotAhead table (c''.timeOf rate (first + n)) := by
  intro c' c''
  obtain ⟨hsamples, hcursor⟩ := (hstep.notAhead hsorted hc).readAll hsorted hstep.1 n
  constructor
  · intro sample hsample
    rw [hsamples] at hsample
    obtain ⟨i, -, rfl⟩ := List.mem_map.mp hsample
    rfl
  · rw [timeOf_readAll]
    exact hcursor

end Cursor

end GrSatellites.TableCursor
