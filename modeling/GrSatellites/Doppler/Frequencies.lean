import GrSatellites.Doppler.Model

/-!
# The frequencies of the samples

The frequency of a sample is the value of the table at its time as long as no call finds the
cursor ahead of its first sample. As in the time-dependent delay, a tag in the middle of a
window moves the cursor back to its own item only, and the items before it are earlier.
-/

namespace GrSatellites.Doppler

open Interpolation TableCursor Transducer

variable {settings : Settings} {s : State}

/-- The condition on a call: no point that the cursor has reached lies after the first sample of
the window and not after the times that its tags set. -/
def State.InStep (settings : Settings) (s : State) : Call → Prop
  | .setTime _ => True
  | .work n tags =>
    s.cursor.InStep settings.freqsRadPerSample settings.sampRate
      (settings.timeRefs (tagsInWindow tags s.nitemsWritten n)) s.nitemsWritten

/-- The condition holds for every call of a run. -/
def State.StaysInStep (settings : Settings) : State → List Call → Prop
  | _, [] => True
  | s, c :: calls => s.InStep settings c ∧ (step settings s c).1.StaysInStep settings calls

/-- The frequency of the table at a time, in radians per sample. -/
def Settings.freqAt (settings : Settings) (t : ℚ) : ℚ :=
  2 * settings.grMPi * interpolate settings.table.points t / settings.sampRate

theorem Settings.freqsRadPerSample_eq (settings : Settings) :
    settings.freqsRadPerSample =
      settings.table.points.map fun p => (p.1, 2 * settings.grMPi / settings.sampRate * p.2) := by
  refine List.map_congr_left fun p _ => ?_
  rw [mul_div_right_comm]

theorem Settings.sorted_freqsRadPerSample (settings : Settings) :
    Sorted settings.freqsRadPerSample := List.pairwise_map.mpr settings.table.sorted

/-- The table in radians per sample is a multiple of the table in hertz. -/
theorem Settings.interpolate_freqsRadPerSample (settings : Settings) (t : ℚ) :
    interpolate settings.freqsRadPerSample t = settings.freqAt t := by
  rw [settings.freqsRadPerSample_eq, interpolate_map_mul, Settings.freqAt]
  ring

/-- The cursor is not ahead of the sample that comes next. -/
def State.Ready (settings : Settings) (s : State) : Prop :=
  s.cursor.NotAhead settings.freqsRadPerSample
    (s.cursor.timeOf settings.sampRate s.nitemsWritten)

theorem ready_init (settings : Settings) (t0 : ℚ) : (State.init settings t0).Ready settings := by
  refine ⟨?_, Or.inl rfl⟩
  rw [Settings.freqsRadPerSample, List.length_map]
  exact List.length_pos_iff.mpr settings.table.ne_nil

/-- **One call.** A call that meets the condition gives the frequencies of the table, and leaves the
cursor where the next call can start from. -/
theorem State.Ready.step {c : Call} (hs : s.Ready settings) (hstep : s.InStep settings c) :
    (∀ x ∈ (step settings s c).2, x.freq = settings.freqAt x.time) ∧
      (Doppler.step settings s c).1.Ready settings := by
  cases c with
  | setTime t =>
    constructor
    · intro x hx
      cases hx
    · exact Cursor.notAhead_timeOf_setTime hs.index_lt t s.nitemsWritten
  | work n tags =>
    obtain ⟨hread, hcursor⟩ := Cursor.InStep.readAll settings.sorted_freqsRadPerSample hstep n hs
    constructor
    · intro x hx
      obtain ⟨sample, hsample, rfl⟩ := List.mem_map.mp hx
      rw [← settings.interpolate_freqsRadPerSample]
      exact hread sample hsample
    · exact hcursor

/-- **Frequencies follow the table.** In a run whose calls all meet the condition, the frequency of
every sample is that of the table at its time. -/
theorem run_frequencies (settings : Settings) (t0 : ℚ) (calls : List Call)
    (hcalls : (State.init settings t0).StaysInStep settings calls) :
    ∀ x ∈ (run (step settings) (State.init settings t0) calls).2,
      x.freq = settings.freqAt x.time := by
  have hinit := ready_init settings t0
  generalize State.init settings t0 = s at hcalls hinit
  induction calls generalizing s with
  | nil => exact fun x hx => nomatch hx
  | cons c calls ih =>
    obtain ⟨hnow, hready⟩ := hinit.step hcalls.1
    rw [run_cons]
    exact List.forall_mem_append.mpr ⟨hnow, ih _ hcalls.2 hready⟩

/-- A pass with a bend, with times in seconds. -/
def pass : DopplerTable where
  points := [(0, 100), (1, 50), (2, -100)]
  ne_nil := List.cons_ne_nil _ _
  sorted := by
    unfold Sorted
    decide

/-- One sample a second, with a time-sync tag, and a rough value of the constant. -/
def passSettings : Settings := ⟨1, pass, "sync", 22 / 7⟩

/-- The time is set by `set_time`, and set back by a time-sync tag on the first item of a
window. -/
theorem run_frequencies_set_back :
    (run (step passSettings) (State.init passSettings 0)
        [.work 3 [], .setTime 7, .work 2 [⟨3, "sync", .other, 1 / 2⟩]]).2.length = 5 ∧
      ∀ x ∈ (run (step passSettings) (State.init passSettings 0)
          [.work 3 [], .setTime 7, .work 2 [⟨3, "sync", .other, 1 / 2⟩]]).2,
        x.freq = passSettings.freqAt x.time := by
  constructor
  · decide
  · exact run_frequencies passSettings 0
      [.work 3 [], .setTime 7, .work 2 [⟨3, "sync", .other, 1 / 2⟩]]
      ⟨⟨by decide, fun hset => absurd rfl hset⟩, trivial,
        ⟨by decide +kernel, fun _ => by decide +kernel⟩, trivial⟩

/-- A tag on the second item of a window, which says that its time is two seconds: the item
before it is at one second, and has the frequency of two seconds. -/
theorem run_frequencies_ahead :
    ¬∀ x ∈ (run (step passSettings) (State.init passSettings 0)
      [.work 3 [], .work 2 [⟨4, "rx_time", .tuple 2 0, 0⟩]]).2,
      x.freq = passSettings.freqAt x.time := by
  decide +kernel

end GrSatellites.Doppler
