import GrSatellites.Library.Interpolation
import GrSatellites.Library.Istream
import GrSatellites.Library.Rounds

/-!
# The files of delays and frequencies

The loops of `read_delay_file` in `lib/time_dependent_delay_impl.cc` and of `read_doppler_file` in
`lib/doppler_correction_impl.cc`, which test for the end of the file before they read a pair. Blanks
after the last pair are only found by another extraction, which leaves the variables as they are: one
function declares them in the loop, the other one before it.
-/

namespace GrSatellites.TableFiles

open Interpolation Istream Rounds

variable {K : Type} [Field K] [LinearOrder K]

/-- What a function can throw, or the use of a variable without a value. -/
inductive ReadError (K : Type) where
  | runtimeError (what : String)
  | delayTooSmall (delaySamples delaySeconds firDelay : K)
  | indeterminate

/-- The pairs stored, with the first value as the current one. -/
structure Table (K : Type) where
  points : List (K × K)
  current : K

/-- The end of both functions. -/
def Table.ofPoints (points : List (K × K)) : Table K := ⟨points, value points 0⟩

/-- The members that the functions read, and the constant `GR_M_PI`. -/
structure Settings (K : Type) where
  sampRate : K
  firDelay : K
  grMPi : K

variable (strtod : List Char → Option K) (settings : Settings K)

/-- `delay_samples`. -/
def delaySamples (delaySeconds : K) : K := delaySeconds * settings.sampRate

/-- A frequency in radians per sample. -/
def freqRadPerSample (frequency : K) : K := 2 * settings.grMPi * frequency / settings.sampRate

/-- A round of the loop of `read_delay_file`. -/
def delayRound (s : Stream × List (K × K)) :
    Except (ReadError K) (Table K) ⊕ (Stream × List (K × K)) :=
  if s.1.eofbit then .inl (.ok (.ofPoints s.2))
  else if !s.1.good then .inl (.error (.runtimeError "format error in delay file"))
  else
    let (stream, time) := extract strtod 0 s.1 none
    let (stream, delaySeconds) := extract strtod 0 stream none
    match delaySeconds, time with
    | none, _ => .inl (.error .indeterminate)
    | some delaySeconds, time =>
      if delaySamples settings delaySeconds < settings.firDelay then
        .inl (.error
          (.delayTooSmall (delaySamples settings delaySeconds) delaySeconds settings.firDelay))
      else
        match time with
        | none => .inl (.error .indeterminate)
        | some time => .inr (stream, s.2 ++ [(time, delaySamples settings delaySeconds)])

/-- The state of the loop of `read_doppler_file`. -/
structure DopplerState (K : Type) where
  stream : Stream
  time : Option K
  frequency : Option K
  points : List (K × K)

/-- A round of the loop of `read_doppler_file`. -/
def dopplerRound (s : DopplerState K) : Except (ReadError K) (Table K) ⊕ DopplerState K :=
  if s.stream.eofbit then .inl (.ok (.ofPoints s.points))
  else if !s.stream.good then .inl (.error (.runtimeError "format error in Doppler file"))
  else
    let (stream, time) := extract strtod 0 s.stream s.time
    let (stream, frequency) := extract strtod 0 stream s.frequency
    match time, frequency with
    | some t, some f => .inr ⟨stream, time, frequency, s.points ++ [(t, freqRadPerSample settings f)]⟩
    | _, _ => .inl (.error .indeterminate)

/-- `read_delay_file`, for the text of the file if it can be opened. -/
def ReadDelayFile (filename : String) (file : Option (List Char))
    (result : Except (ReadError K) (Table K)) : Prop :=
  match file with
  | none => result = .error (.runtimeError ("error opening delay file '" ++ filename ++ "'"))
  | some text => Ends (delayRound strtod settings) (.open text, []) result

/-- `read_doppler_file`, for the text of the file if it can be opened. -/
def ReadDopplerFile (filename : String) (file : Option (List Char))
    (result : Except (ReadError K) (Table K)) : Prop :=
  match file with
  | none => result = .error (.runtimeError ("error opening Doppler file '" ++ filename ++ "'"))
  | some text => Ends (dopplerRound strtod settings) ⟨.open text, none, none, []⟩ result

/-! ## Files -/

/-- A line with a pair. -/
structure Line where
  time : Numeral strtod
  between : List Char
  number : Numeral strtod
  between_ne_nil : between ≠ []
  between_spaces : ∀ c ∈ between, isSpace c = true

variable {strtod}

/-- The text of a line. -/
def Line.text (line : Line strtod) : List Char :=
  line.time.text ++ (line.between ++ line.number.text)

/-- The text of a file, whose last line need not end. -/
def text : List (Line strtod) → List Char → List Char
  | [], trailing => trailing
  | [line], trailing => line.text ++ trailing
  | line :: next :: lines, trailing => line.text ++ '\n' :: text (next :: lines) trailing

/-- The pairs of a file, with a function of the values. -/
def pairs (f : K → K) (lines : List (Line strtod)) : List (K × K) :=
  lines.map fun line => (line.time.value, f line.number.value)

variable (strtod)

/-- A file of pairs with increasing times, whose delays can be realized. -/
structure File where
  lines : List (Line strtod)
  trailing : List Char
  lines_ne_nil : lines ≠ []
  sorted : Sorted (pairs id lines)
  firDelay_le : ∀ line ∈ lines, settings.firDelay ≤ delaySamples settings line.number.value
  trailing_spaces : ∀ c ∈ trailing, isSpace c = true

variable {strtod settings}

/-- A result is a table with the pairs and at most repetitions of the last one, and from any
place that is not ahead of a time the block finds the value of the pairs there. -/
def Parsed (points : List (K × K)) (result : Except (ReadError K) (Table K)) : Prop :=
  ∃ table n, result = .ok table ∧
    table.points = points ++ List.replicate n (points.getLastD (0, 0)) ∧
    table.current = value points 0 ∧
    ∀ k < table.points.length, ∀ t, (k = 0 ∨ time table.points k ≤ t) →
      segment table.points (advance table.points t table.points.length k) t = interpolate points t

/-- Both functions accept a file and store its pairs. -/
def Parses (filename : String) (file : File strtod settings) : Prop :=
  (∃ result, ReadDelayFile strtod settings filename (some (text file.lines file.trailing)) result ∧
      Parsed (pairs (delaySamples settings) file.lines) result) ∧
    ∃ result, ReadDopplerFile strtod settings filename (some (text file.lines file.trailing)) result ∧
      Parsed (pairs (freqRadPerSample settings) file.lines) result

/-! ## Lines -/

variable {line : Line strtod} {lines done : List (Line strtod)} {blank rest trailing : List Char}

omit [Field K] [LinearOrder K] in
theorem stops_between (line : Line strtod) (rest : List Char) : Stops (line.between ++ rest) := by
  obtain ⟨c, between, hbetween⟩ := List.exists_cons_of_ne_nil line.between_ne_nil
  intro d hd
  rw [hbetween, List.cons_append, List.head?_cons, Option.mem_some_iff] at hd
  subst hd
  have hspace : ∀ d ∈ [c], isSpace d = true := by
    simpa using line.between_spaces c (hbetween ▸ List.mem_cons_self)
  exact stops_of_spaces hspace c rfl

omit [LinearOrder K] in
/-- The two extractions of a round read a line. -/
theorem extract_line (line : Line strtod) (hblank : ∀ c ∈ blank, isSpace c = true) (hrest : Stops rest)
    (x y : Option K) : ∃ stream,
      extract strtod 0 (.open (blank ++ (line.text ++ rest))) x = (stream, some line.time.value) ∧
        extract strtod 0 stream y = (⟨rest, rest.isEmpty, false⟩, some line.number.value) := by
  refine ⟨.open (line.between ++ (line.number.text ++ rest)), ?_,
    extract_numeral line.number line.between_spaces hrest y⟩
  have htext : line.text ++ rest =
      line.time.text ++ (line.between ++ (line.number.text ++ rest)) := by
    rw [Line.text, List.append_assoc, List.append_assoc]
  have hempty : (line.between ++ (line.number.text ++ rest)).isEmpty = false := by
    rw [List.isEmpty_eq_false_iff]
    exact List.append_ne_nil_of_left_ne_nil line.between_ne_nil _
  rw [htext, extract_numeral line.time hblank (stops_between line _) x, hempty]
  rfl

omit [Field K] [LinearOrder K] in
/-- A loop whose rounds read a line each comes to the end of the last line. -/
theorem ends_lines_iff {σ ρ : Type} {round : σ → ρ ⊕ σ} {result : ρ}
    (state : Stream → List (Line strtod) → σ)
    (hround : ∀ line ∈ lines, ∀ blank rest done, (∀ c ∈ blank, isSpace c = true) → Stops rest →
      round (state (.open (blank ++ (line.text ++ rest))) done) =
        .inr (state ⟨rest, rest.isEmpty, false⟩ (done ++ [line])))
    (hne : lines ≠ []) (hblank : ∀ c ∈ blank, isSpace c = true)
    (htrailing : ∀ c ∈ trailing, isSpace c = true) :
    Ends round (state (.open (blank ++ text lines trailing)) done) result ↔
      Ends round (state ⟨trailing, trailing.isEmpty, false⟩ (done ++ lines)) result := by
  induction lines generalizing blank done with
  | nil => exact absurd rfl hne
  | cons line lines ih =>
    cases lines with
    | nil =>
      exact ends_iff_of_inr
        (hround line List.mem_cons_self blank trailing done hblank (stops_of_spaces htrailing))
    | cons next lines =>
      have hstops : Stops ('\n' :: text (next :: lines) trailing) := by
        intro c hc
        obtain rfl := Option.mem_some_iff.mp hc
        decide
      have hstep := hround line List.mem_cons_self blank _ done hblank hstops
      have hnext : Ends round (state (.open (['\n'] ++ text (next :: lines) trailing))
            (done ++ [line])) result ↔
          Ends round (state ⟨trailing, trailing.isEmpty, false⟩ (done ++ [line] ++ next :: lines))
            result :=
        ih (fun l hl => hround l (List.mem_cons_of_mem line hl)) (List.cons_ne_nil _ _)
          (List.all_eq_true.mp (by decide))
      rw [List.append_assoc] at hnext
      exact (ends_iff_of_inr hstep).trans hnext

theorem File.exists_concat (file : File strtod settings) :
    ∃ done line, file.lines = done ++ [line] := by
  rcases List.eq_nil_or_concat file.lines with hnil | ⟨done, line, hconcat⟩
  · exact absurd hnil file.lines_ne_nil
  · exact ⟨done, line, hconcat.trans List.concat_eq_append⟩

/-! ## The two loops -/

omit [Field K] [LinearOrder K] in
theorem pairs_concat (f : K → K) (done : List (Line strtod)) (line : Line strtod) :
    pairs f (done ++ [line]) = pairs f done ++ [(line.time.value, f line.number.value)] :=
  List.map_append

theorem delayRound_line (line : Line strtod)
    (hdelay : settings.firDelay ≤ delaySamples settings line.number.value)
    (hblank : ∀ c ∈ blank, isSpace c = true) (hrest : Stops rest) (done : List (Line strtod)) :
    delayRound strtod settings
        (.open (blank ++ (line.text ++ rest)), pairs (delaySamples settings) done) =
      .inr (⟨rest, rest.isEmpty, false⟩, pairs (delaySamples settings) (done ++ [line])) := by
  obtain ⟨stream, htime, hnumber⟩ := extract_line line hblank hrest none none
  rw [delayRound, if_neg (show ¬ (Stream.open _).eofbit = true from Bool.false_ne_true),
    if_neg (show ¬ (!(Stream.open _).good) = true from Bool.false_ne_true)]
  simp only [htime, hnumber, if_neg (not_lt.mpr hdelay), pairs_concat]

/-- A round that finds only blanks uses a variable without a value. -/
theorem delayRound_spaces (htrailing : ∀ c ∈ trailing, isSpace c = true) (points : List (K × K)) :
    delayRound strtod settings (.open trailing, points) = .inl (.error .indeterminate) := by
  rw [delayRound, if_neg (show ¬ (Stream.open _).eofbit = true from Bool.false_ne_true),
    if_neg (show ¬ (!(Stream.open _).good) = true from Bool.false_ne_true)]
  simp only [extract_spaces htrailing, extract_of_eofbit]

/-- What `read_delay_file` does with a file: blanks at the end are an indeterminate value. -/
theorem readDelayFile_iff (filename : String) (file : File strtod settings)
    (result : Except (ReadError K) (Table K)) :
    ReadDelayFile strtod settings filename (some (text file.lines file.trailing)) result ↔
      result = if file.trailing = [] then
          .ok (.ofPoints (pairs (delaySamples settings) file.lines))
        else .error .indeterminate := by
  have hlines : Ends (delayRound strtod settings)
        (.open ([] ++ text file.lines file.trailing), pairs (delaySamples settings) []) result ↔
      Ends (delayRound strtod settings) (⟨file.trailing, file.trailing.isEmpty, false⟩,
        pairs (delaySamples settings) ([] ++ file.lines)) result :=
    ends_lines_iff (fun stream done => (stream, pairs (delaySamples settings) done))
      (fun line hline blank rest done hblank hrest =>
        delayRound_line line (file.firDelay_le line hline) hblank hrest done)
      file.lines_ne_nil (List.forall_mem_nil _) file.trailing_spaces
  refine hlines.trans ?_
  by_cases htrailing : file.trailing = []
  · rw [if_pos htrailing, htrailing]
    exact ends_iff_of_inl rfl
  · have hempty : file.trailing.isEmpty = false := List.isEmpty_eq_false_iff.mpr htrailing
    rw [if_neg htrailing, hempty]
    exact ends_iff_of_inl (delayRound_spaces file.trailing_spaces _)

/-- The variables of `read_doppler_file` after some lines. -/
def dopplerState (settings : Settings K) (stream : Stream) (done : List (Line strtod)) :
    DopplerState K where
  stream := stream
  time := done.getLast?.map fun line => line.time.value
  frequency := done.getLast?.map fun line => line.number.value
  points := pairs (freqRadPerSample settings) done

omit [LinearOrder K] in
/-- A round that gets a time and a frequency stores them. -/
theorem dopplerRound_open {text : List Char} {x y : Option K} {points : List (K × K)}
    {stream last : Stream} {t f : K}
    (htime : extract strtod 0 (.open text) x = (stream, some t))
    (hfrequency : extract strtod 0 stream y = (last, some f)) :
    dopplerRound strtod settings ⟨.open text, x, y, points⟩ =
      .inr ⟨last, some t, some f, points ++ [(t, freqRadPerSample settings f)]⟩ := by
  rw [dopplerRound, if_neg (show ¬ (Stream.open _).eofbit = true from Bool.false_ne_true),
    if_neg (show ¬ (!(Stream.open _).good) = true from Bool.false_ne_true)]
  simp only [htime, hfrequency]

omit [LinearOrder K] in
theorem dopplerState_concat (stream : Stream) (done : List (Line strtod)) (line : Line strtod) :
    dopplerState settings stream (done ++ [line]) =
      ⟨stream, some line.time.value, some line.number.value, pairs (freqRadPerSample settings) done ++
        [(line.time.value, freqRadPerSample settings line.number.value)]⟩ := by
  rw [dopplerState, List.getLast?_concat, pairs_concat]
  rfl

omit [LinearOrder K] in
theorem dopplerRound_line (line : Line strtod) (hblank : ∀ c ∈ blank, isSpace c = true)
    (hrest : Stops rest) (done : List (Line strtod)) :
    dopplerRound strtod settings
        (dopplerState settings (.open (blank ++ (line.text ++ rest))) done) =
      .inr (dopplerState settings ⟨rest, rest.isEmpty, false⟩ (done ++ [line])) := by
  obtain ⟨stream, htime, hnumber⟩ := extract_line line hblank hrest
    (done.getLast?.map fun line => line.time.value)
    (done.getLast?.map fun line => line.number.value)
  rw [dopplerState_concat]
  exact dopplerRound_open htime hnumber

omit [LinearOrder K] in
/-- A round that finds only blanks stores the last pair again. -/
theorem dopplerRound_spaces (htrailing : ∀ c ∈ trailing, isSpace c = true)
    (done : List (Line strtod)) (line : Line strtod) :
    dopplerRound strtod settings (dopplerState settings (.open trailing) (done ++ [line])) =
      .inr ⟨⟨[], true, true⟩, some line.time.value, some line.number.value,
        pairs (freqRadPerSample settings) (done ++ [line]) ++
          [(line.time.value, freqRadPerSample settings line.number.value)]⟩ := by
  rw [dopplerState_concat, pairs_concat]
  exact dopplerRound_open (extract_spaces htrailing _) (extract_of_eofbit rfl _)

/-- What `read_doppler_file` does with a file. -/
theorem readDopplerFile_iff (filename : String) (file : File strtod settings)
    (result : Except (ReadError K) (Table K)) :
    ReadDopplerFile strtod settings filename (some (text file.lines file.trailing)) result ↔
      result = .ok (.ofPoints (pairs (freqRadPerSample settings) file.lines ++
        List.replicate (if file.trailing = [] then 0 else 1)
          ((pairs (freqRadPerSample settings) file.lines).getLastD (0, 0)))) := by
  have hlines : Ends (dopplerRound strtod settings)
        (dopplerState settings (.open ([] ++ text file.lines file.trailing)) []) result ↔
      Ends (dopplerRound strtod settings)
        (dopplerState settings ⟨file.trailing, file.trailing.isEmpty, false⟩
          ([] ++ file.lines)) result :=
    ends_lines_iff (dopplerState settings)
      (fun line _ blank rest done hblank hrest => dopplerRound_line line hblank hrest done)
      file.lines_ne_nil (List.forall_mem_nil _) file.trailing_spaces
  refine hlines.trans ?_
  by_cases htrailing : file.trailing = []
  · rw [if_pos htrailing, htrailing, List.replicate_zero, List.append_nil]
    exact ends_iff_of_inl rfl
  · have hempty : file.trailing.isEmpty = false := List.isEmpty_eq_false_iff.mpr htrailing
    obtain ⟨done, line, hdone⟩ := file.exists_concat
    rw [if_neg htrailing, hempty, hdone, List.replicate_one]
    refine (ends_iff_of_inr (dopplerRound_spaces file.trailing_spaces done line)).trans ?_
    rw [pairs_concat, List.getLastD_concat]
    exact ends_iff_of_inl rfl

/-! ## The tables -/

theorem ordered_pairs (f : K → K) (file : File strtod settings) :
    Ordered (pairs f file.lines) := by
  have hsorted := file.sorted
  rw [pairs, Sorted, List.pairwise_map] at hsorted
  rw [pairs, Ordered, List.pairwise_map]
  exact hsorted.imp le_of_lt

/-- A table with repetitions of the last pair is read as the pairs are. -/
theorem parsed_ofPoints (f : K → K) (file : File strtod settings) (n : ℕ) :
    Parsed (pairs f file.lines)
      (.ok (.ofPoints (pairs f file.lines ++
        List.replicate n ((pairs f file.lines).getLastD (0, 0))))) := by
  obtain ⟨done, line, hdone⟩ := file.exists_concat
  have hordered := ordered_pairs f file
  rw [hdone, pairs_concat] at hordered ⊢
  refine ⟨_, n, rfl, rfl, ?_, fun k hk t hlow => ?_⟩
  · cases pairs f done <;> rfl
  · rw [List.getLastD_concat, Table.ofPoints, List.append_assoc] at hk hlow ⊢
    exact (segment_advance (hordered.append_replicate n) hk hlow).trans
      (interpolate_append_replicate _ _ n t)

/-- **Parsing.** Both functions store the pairs of a file if and only if nothing comes after the
last one. -/
theorem parses_iff (filename : String) (file : File strtod settings) :
    Parses filename file ↔ file.trailing = [] := by
  constructor
  · rintro ⟨⟨result, hresult, table, n, htable, -⟩, -⟩
    by_contra htrailing
    rw [readDelayFile_iff, if_neg htrailing] at hresult
    rw [hresult] at htable
    cases htable
  · intro htrailing
    constructor
    · refine ⟨_, (readDelayFile_iff filename file _).mpr rfl, ?_⟩
      rw [if_pos htrailing]
      have hparsed := parsed_ofPoints (delaySamples settings) file 0
      rwa [List.replicate_zero, List.append_nil] at hparsed
    · exact ⟨_, (readDopplerFile_iff filename file _).mpr rfl, parsed_ofPoints _ file _⟩

/-- Numbers of one digit. -/
def digit : List Char → Option ℚ
  | [c] => if c.isDigit then some (c.toNat - '0'.toNat : ℕ) else none
  | _ => none

/-- A line with a time of zero and a value of one. -/
def zeroOne : Line digit where
  time := ⟨['0'], 0, by decide, List.all_eq_true.mp (by decide), rfl⟩
  between := [' ']
  number := ⟨['1'], 1, by decide, List.all_eq_true.mp (by decide), rfl⟩
  between_ne_nil := by decide
  between_spaces := List.all_eq_true.mp (by decide)

/-- A rate of one sample per second, and no delay of the filter. -/
def unitSettings : Settings ℚ := ⟨1, 0, 3⟩

/-- One line, which ends. -/
def oneLine : File digit unitSettings where
  lines := [zeroOne]
  trailing := ['\n']
  lines_ne_nil := by decide
  sorted := List.pairwise_singleton _ _
  firDelay_le := by
    intro line hline
    obtain rfl := List.mem_singleton.mp hline
    show (0 : ℚ) ≤ 1 * 1
    norm_num
  trailing_spaces := List.all_eq_true.mp (by decide)

/-- `read_delay_file` uses the delay of a pair that is not there. -/
theorem not_parses_oneLine : ¬ Parses "delay.txt" oneLine := by
  rintro ⟨⟨result, hresult, table, n, htable, -⟩, -⟩
  rw [readDelayFile_iff, if_neg (by decide)] at hresult
  rw [hresult] at htable
  cases htable

end GrSatellites.TableFiles
