import GrSatellites.Library.TableCursor
import GrSatellites.TimeDependentDelay.Model

/-!
# The delays of the samples

The delay of a sample is the value of the table at its time as long as no call finds the
cursor ahead of its first sample. A tag in the middle of a window sets the time of its own
item, and the items before it in the window are earlier: `adjust_current_index` does not
move the cursor back to them.
-/

namespace GrSatellites.TimeDependentDelay

open Interpolation TableCursor Transducer

variable {settings : Settings} {s : State}

/-- The times that the tags of a window set. -/
def timesSet (window : List Tag) : List ℚ := window.filterMap fun tag => tag.value.time?

/-- The condition on a call: no point that the cursor has reached lies after the first sample of
the window and not after the times that its tags set. -/
def State.InStep (settings : Settings) (s : State) : Call → Prop
  | .setTime _ => True
  | .work n tags =>
    let window := tagsInWindow tags s.nitemsWritten n
    let first := (s.updateTimeFromTags settings window).computeTime settings s.nitemsWritten
    0 < settings.sampRate ∧
      (timesSet window ≠ [] → ∀ k ≤ s.currentIndex, 0 < k →
        (∀ t ∈ timesSet window, time settings.table.points k ≤ t) →
          time settings.table.points k ≤ first)

/-- The condition holds for every call of a run. -/
def State.StaysInStep (settings : Settings) : State → List Call → Prop
  | _, [] => True
  | s, c :: calls => s.InStep settings c ∧ (step settings s c).1.StaysInStep settings calls

/-- The cursor is in the table, and not ahead of a time. -/
structure State.CursorAt (settings : Settings) (s : State) (t : ℚ) : Prop where
  index_lt : s.currentIndex < settings.table.points.length
  low : s.currentIndex = 0 ∨ time settings.table.points s.currentIndex ≤ t

/-! ## The cursor of the block -/

/-- The cursor `d_current_index`, with the time reference. -/
def State.cursor (s : State) : Cursor ℚ := ⟨s.currentIndex, s.t0, s.sampleT0⟩

/-- The times that the tags of a window set, each with its sample. -/
def timeRefs (window : List Tag) : List (ℚ × ℕ) :=
  window.filterMap fun tag => tag.value.time?.map fun t => (t, tag.offset)

theorem timesSet_eq_map (window : List Tag) : timesSet window = (timeRefs window).map Prod.fst := by
  induction window with
  | nil => rfl
  | cons tag window ih =>
    unfold timesSet timeRefs at ih ⊢
    rw [List.filterMap_cons, List.filterMap_cons]
    cases tag.value.time? with
    | none => exact ih
    | some t => exact congrArg (t :: ·) ih

theorem State.cursorAt_iff {t : ℚ} :
    s.CursorAt settings t ↔ s.cursor.NotAhead settings.table.points t := by
  constructor
  · exact fun hs => ⟨hs.index_lt, hs.low⟩
  · exact fun hs => ⟨hs.index_lt, hs.low⟩

theorem State.updateTimeFromTags_cons (s : State) (tag : Tag) (window : List Tag) :
    s.updateTimeFromTags settings (tag :: window) =
      (s.updateFromTag settings tag).updateTimeFromTags settings window := rfl

/-- The tags of a window set the times of their samples. -/
theorem State.cursor_updateTimeFromTags (s : State) (window : List Tag) :
    (s.updateTimeFromTags settings window).cursor =
      s.cursor.setTimes settings.table.points (timeRefs window) := by
  induction window generalizing s with
  | nil => rfl
  | cons tag window ih =>
    rw [State.updateTimeFromTags_cons, ih, State.updateFromTag]
    unfold timeRefs
    rw [List.filterMap_cons]
    cases tag.value.time? with
    | none => rfl
    | some t => rfl

/-- The loop over the samples reads the table with the cursor. -/
theorem State.cursor_delaySamples (s : State) (first n : ℕ) :
    (s.delaySamples settings first n).1.cursor =
        (s.cursor.readAll settings.table.points settings.sampRate first n).1 ∧
      (s.delaySamples settings first n).2 =
        (s.cursor.readAll settings.table.points settings.sampRate first n).2.map
          fun sample => ⟨sample.1, sample.2⟩ := by
  induction n generalizing s first with
  | zero => exact ⟨rfl, rfl⟩
  | succ n ih =>
    obtain ⟨hcursor, hsamples⟩ :=
      ih (s.computeDelay settings (s.computeTime settings first)).1 (first + 1)
    constructor
    · exact hcursor
    · exact congrArg (Sample.mk _ _ :: ·) hsamples

/-- The condition on a call is that the cursor keeps in step with the times that are set. -/
theorem State.inStep_work_iff {n : ℕ} {tags : List Tag} :
    s.InStep settings (.work n tags) ↔
      s.cursor.InStep settings.table.points settings.sampRate
        (timeRefs (tagsInWindow tags s.nitemsWritten n)) s.nitemsWritten := by
  unfold State.InStep Cursor.InStep
  rw [← State.cursor_updateTimeFromTags]
  simp only [timesSet_eq_map, Ne, List.map_eq_nil_iff, List.forall_mem_map]
  rfl

/-- **Tag delays.** From anywhere in the table, `compute_tag_delay` is the value of the table. -/
theorem State.computeTagDelay_eq (hs : s.currentIndex < settings.table.points.length) (t : ℚ) :
    s.computeTagDelay settings t = interpolate settings.table.points t :=
  segment_advance settings.table.sorted.ordered ((rewind_le _ _ _).trans_lt hs) (rewind_spec _ _ _)

/-! ## Calls -/

theorem State.work_fst_cursor (s : State) (n : ℕ) (tags : List Tag) :
    (s.work settings n tags).1.cursor =
      ((s.updateTimeFromTags settings (tagsInWindow tags s.nitemsWritten n)).delaySamples settings
        s.nitemsWritten n).1.cursor := rfl

theorem State.work_samples (s : State) (n : ℕ) (tags : List Tag) :
    (s.work settings n tags).2.samples =
      ((s.updateTimeFromTags settings (tagsInWindow tags s.nitemsWritten n)).delaySamples settings
        s.nitemsWritten n).2 := rfl

/-- **One call.** A call that meets the condition gives the delays of the table, and leaves the
cursor where the next call can start from. -/
theorem State.CursorAt.step {c : Call} (hstep : s.InStep settings c)
    (hs : s.CursorAt settings (s.computeTime settings s.nitemsWritten)) :
    (∀ out ∈ (step settings s c).2, ∀ x ∈ out.samples,
        x.delay = interpolate settings.table.points x.time) ∧
      (TimeDependentDelay.step settings s c).1.CursorAt settings
        ((TimeDependentDelay.step settings s c).1.computeTime settings
          (TimeDependentDelay.step settings s c).1.nitemsWritten) := by
  cases c with
  | setTime t =>
    constructor
    · intro out hout
      cases hout
    · have hcursor : s.cursor.index < settings.table.points.length := hs.index_lt
      exact State.cursorAt_iff.mpr (Cursor.notAhead_timeOf_setTime hcursor t s.nitemsWritten)
  | work n tags =>
    obtain ⟨hread, hcursor⟩ := (State.inStep_work_iff.mp hstep).readAll settings.table.sorted n
      (State.cursorAt_iff.mp hs)
    rw [← State.cursor_updateTimeFromTags] at hread hcursor
    obtain ⟨hplace, hsamples⟩ := (s.updateTimeFromTags settings
      (tagsInWindow tags s.nitemsWritten n)).cursor_delaySamples s.nitemsWritten n
    constructor
    · intro out hout x hx
      obtain rfl := List.mem_singleton.mp hout
      have hx' : x ∈ (s.work settings n tags).2.samples := hx
      rw [State.work_samples, hsamples] at hx'
      obtain ⟨sample, hsample, rfl⟩ := List.mem_map.mp hx'
      exact hread sample hsample
    · rw [← hplace, ← State.work_fst_cursor] at hcursor
      exact State.cursorAt_iff.mpr hcursor

/-- **Delays follow the table.** In a run whose calls all meet the condition, the delay of every
sample is the value of the table at its time. In the state reached, the delay of a tag is the
value of the table too. -/
theorem run_delays (settings : Settings) (t0 : ℚ) (calls : List Call)
    (hcalls : (State.init settings t0).StaysInStep settings calls) :
    (∀ out ∈ (run (step settings) (State.init settings t0) calls).2, ∀ x ∈ out.samples,
        x.delay = interpolate settings.table.points x.time) ∧
      ∀ t, (run (step settings) (State.init settings t0) calls).1.computeTagDelay settings t =
        interpolate settings.table.points t := by
  have hinit : (State.init settings t0).CursorAt settings
      ((State.init settings t0).computeTime settings (State.init settings t0).nitemsWritten) :=
    ⟨List.length_pos_of_ne_nil settings.table.ne_nil, Or.inl rfl⟩
  generalize State.init settings t0 = s at hcalls hinit
  induction calls generalizing s with
  | nil => exact ⟨fun out hout => (nomatch hout), s.computeTagDelay_eq hinit.index_lt⟩
  | cons c calls ih =>
    obtain ⟨hnow, hlater⟩ := hinit.step hcalls.1
    obtain ⟨houts, htags⟩ := ih _ hcalls.2 hlater
    rw [run_cons]
    refine ⟨?_, htags⟩
    intro out hout
    rcases List.mem_append.mp hout with hout | hout
    · exact hnow out hout
    · exact houts out hout

/-- A table with a bend. -/
def bentTable : DelayTable where
  points := [(0, 10), (1, 20), (2, 40)]
  ne_nil := List.cons_ne_nil _ _
  sorted := by
    unfold Sorted
    decide

/-- One sample a second, with the delays of `bentTable`. -/
def bentSettings : Settings := ⟨1, bentTable⟩

/-- The time is set by `set_time`, and set back by a tag on the first item of a window. -/
theorem run_delays_set_back :
    (∀ out ∈ (run (step bentSettings) (State.init bentSettings 0)
        [.work 3 [], .setTime 7, .work 2 [⟨3, .rxTime 1 (1 / 2)⟩]]).2,
        ∀ x ∈ out.samples, x.delay = interpolate bentSettings.table.points x.time) ∧
      ∀ t, (run (step bentSettings) (State.init bentSettings 0)
        [.work 3 [], .setTime 7, .work 2 [⟨3, .rxTime 1 (1 / 2)⟩]]).1.computeTagDelay
          bentSettings t = interpolate bentSettings.table.points t :=
  run_delays bentSettings 0 [.work 3 [], .setTime 7, .work 2 [⟨3, .rxTime 1 (1 / 2)⟩]]
    ⟨⟨by decide, fun hset => absurd rfl hset⟩, trivial,
      ⟨by decide +kernel, fun _ => by decide +kernel⟩, trivial⟩

/-- A tag on the second item of a window, which says that its time is two seconds: the item
before it is at one second, and has the delay of two seconds. -/
theorem run_delays_ahead :
    ¬∀ out ∈ (run (step bentSettings) (State.init bentSettings 0)
        [.work 3 [], .work 2 [⟨4, .rxTime 2 0⟩]]).2,
        ∀ x ∈ out.samples, x.delay = interpolate bentSettings.table.points x.time := by
  decide +kernel

end GrSatellites.TimeDependentDelay
