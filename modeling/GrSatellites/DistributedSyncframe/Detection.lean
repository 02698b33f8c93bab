import GrSatellites.Basic
import GrSatellites.Library.Checked
import GrSatellites.Library.Transducer

/-!
# Distributed syncwords

The block of `lib/distributed_syncframe_soft_impl.cc`, which looks in a stream of soft symbols
for windows in which every `step`-th symbol has the sign that a syncword asks for. A call gets
the history of the block and some new symbols.
-/

namespace GrSatellites.DistributedSyncframe

open Checked Transducer

variable {α : Type} [Zero α] [LT α] [DecidableLT α]

/-- The arguments of the constructor: two values of `int` and the characters of the syncword. -/
structure Settings where
  threshold : ℕ
  syncword : List Byte
  step : ℕ
  threshold_lt : threshold < 2 ^ 31
  syncword_ne_nil : syncword ≠ []
  step_pos : 0 < step
  step_lt : step < 2 ^ 31

namespace Settings

variable (s : Settings)

/-- `d_syncword`: the lowest bits of the characters. -/
def dSyncword : List Bool := s.syncword.map fun c => c.getLsbD 0

/-- `d_syncword.size() * d_step`. -/
def windowSize : ℕ := s.dSyncword.length * s.step

/-- The history that the constructor sets, a value of `unsigned`. -/
def history : ℕ := s.windowSize % 2 ^ 32

/-- The loop of `work` over the syncword. -/
def matchAt (input : List α) (i : ℕ) : Except CxxError ℕ :=
  (List.range s.dSyncword.length).foldlM (fun count j => do
    let symbol ← access .outOfRange input (i + j * s.step)
    let bit ← access .outOfRange s.dSyncword j
    return count + (decide (symbol < 0) ^^ bit).toNat) 0

/-- `init_f32vector` of the symbols from an index on. -/
def initF32vector (input : List α) (i : ℕ) : Except CxxError (List α) :=
  if i + s.windowSize ≤ input.length then .ok ((input.drop i).take s.windowSize)
  else .error .outOfRange

/-- `work`: the windows published. -/
def work (input : List α) (noutputItems : ℕ) : Except CxxError (List (List α)) :=
  (List.range noutputItems).foldlM (fun published i => do
    let count ← s.matchAt input i
    if subSize s.dSyncword.length s.threshold ≤ count then
      return published ++ [← s.initF32vector input i]
    else return published) []

/-- A call with some new symbols, which come after the history. -/
def call (history items : List α) : Except CxxError (List α × List (List α)) := do
  let published ← s.work (history ++ items) items.length
  return ((history ++ items).drop items.length, published)

/-- The history at the start. -/
def zeros : List α := List.replicate (s.history - 1) 0

/-- What the block publishes in a run over some calls. -/
def published (calls : List (List α)) : Except CxxError (List (List α)) :=
  (runE s.call s.zeros calls).map Prod.snd

/-! ## What should be detected -/

/-- The symbol has another sign than a bit of the syncword asks for: a negative one is a zero. -/
def Disagrees (window : List α) (j : ℕ) : Prop :=
  (!decide (window.getD (j * s.step) 0 < 0)) ≠ s.dSyncword.getD j false

instance (window : List α) : DecidablePred (s.Disagrees window) :=
  fun _ => inferInstanceAs (Decidable (_ ≠ _))

/-- The number of positions of the syncword at which a window disagrees. -/
def disagreements (window : List α) : ℕ :=
  (List.range s.dSyncword.length).countP fun j => s.Disagrees window j

/-- A window of a buffer. -/
def window (buffer : List α) (i : ℕ) : List α := (buffer.drop i).take s.windowSize

/-- The first windows of a buffer, without those that disagree too much. -/
def detections (buffer : List α) (n : ℕ) : List (List α) :=
  ((List.range n).map (s.window buffer)).filter fun window => s.disagreements window ≤ s.threshold

/-- In a run over some calls, the windows of the stream that agree well enough are published once
each and in order, where the stream comes after zeros that fill up its first window. -/
def Detects (calls : List (List α)) : Prop :=
  s.published calls =
    .ok (s.detections (List.replicate (s.windowSize - 1) 0 ++ calls.flatten) calls.flatten.length)

/-- The syncword is at least as long as the threshold, and the window fits in `unsigned`. -/
def Fits : Prop := s.threshold ≤ s.dSyncword.length ∧ s.windowSize < 2 ^ 32

/-! ## One window -/

variable {input : List α} {i : ℕ}

theorem dSyncword_length_pos : 0 < s.dSyncword.length := by
  rw [dSyncword, List.length_map]
  exact List.length_pos_iff.mpr s.syncword_ne_nil

theorem dSyncword_length_le : s.dSyncword.length ≤ s.windowSize :=
  Nat.le_mul_of_pos_right _ s.step_pos

/-- The symbols that are compared are in the window. -/
theorem mul_step_lt {j : ℕ} (hj : j < s.dSyncword.length) : j * s.step < s.windowSize :=
  Nat.mul_lt_mul_of_pos_right hj s.step_pos

omit [LT α] [DecidableLT α] in
theorem window_getD {j : ℕ} (hj : j < s.windowSize) (h : i + s.windowSize ≤ input.length) :
    (s.window input i).getD j 0 = input[i + j] := by
  rw [window, List.getD_eq_getElem?_getD, List.getElem?_take_of_lt hj, List.getElem?_drop,
    List.getElem?_eq_getElem (by omega), Option.getD_some]

/-- One comparison counts a symbol that has the sign asked for. -/
theorem toNat_xor_eq (j : ℕ) (window : List α) :
    (decide (window.getD (j * s.step) 0 < 0) ^^ s.dSyncword.getD j false).toNat =
      if ¬ s.Disagrees window j then 1 else 0 := by
  by_cases hdisagrees : s.Disagrees window j
  · rw [if_neg (not_not_intro hdisagrees), ← Bool.not_not_eq.mp hdisagrees, Bool.xor_self]
    rfl
  · rw [if_pos hdisagrees, ← not_not.mp hdisagrees, Bool.xor_not_self]
    rfl

/-- The loop over the syncword counts the positions at which the window does not disagree. -/
theorem matchAt_eq_countP (h : i + s.windowSize ≤ input.length) :
    s.matchAt input i = .ok ((List.range s.dSyncword.length).countP fun j =>
      ¬ s.Disagrees (s.window input i) j) := by
  have hloop : Returns (s.matchAt input i) (· = (List.range s.dSyncword.length).countP fun j =>
      ¬ s.Disagrees (s.window input i) j) := by
    refine Returns.foldlM_range (fun rounds count => count = (List.range rounds).countP fun j =>
      ¬ s.Disagrees (s.window input i) j) (fun j hj count hcount => ?_) rfl
    have hlt := s.mul_step_lt hj
    have hsymbol : access CxxError.outOfRange input (i + j * s.step) =
        .ok ((s.window input i).getD (j * s.step) 0) := by
      rw [access_of_lt (by omega), s.window_getD hlt h]
    have hbit : access CxxError.outOfRange s.dSyncword j = .ok (s.dSyncword.getD j false) := by
      rw [access_of_lt hj, List.getD_eq_getElem _ _ hj]
    refine ⟨_, ?_, rfl⟩
    simp only [hsymbol, hbit, bind, Except.bind, pure, Except.pure, s.toNat_xor_eq, hcount,
      List.range_succ, List.countP_append, List.countP_singleton, decide_eq_true_eq]
  obtain ⟨count, hcount, rfl⟩ := hloop
  exact hcount

/-- At each position the window agrees or disagrees. -/
theorem matchAt_eq (h : i + s.windowSize ≤ input.length) :
    s.matchAt input i = .ok (s.dSyncword.length - s.disagreements (s.window input i)) := by
  have hpositions := List.length_eq_countP_add_countP
    (fun j => decide (s.Disagrees (s.window input i) j)) (l := List.range s.dSyncword.length)
  rw [List.length_range] at hpositions
  rw [s.matchAt_eq_countP h, disagreements]
  simp only [decide_not, decide_eq_true_eq] at hpositions ⊢
  congr 1
  omega

theorem disagreements_le (window : List α) : s.disagreements window ≤ s.dSyncword.length := by
  have hle := List.countP_le_length (p := fun j => decide (s.Disagrees window j))
    (l := List.range s.dSyncword.length)
  rwa [List.length_range] at hle

/-! ## One call -/

/-- The windows among the first of a buffer that a call publishes. -/
def selected (buffer : List α) (n : ℕ) : List (List α) :=
  ((List.range n).map (s.window buffer)).filter fun window =>
    subSize s.dSyncword.length s.threshold ≤ s.dSyncword.length - s.disagreements window

/-- A threshold up to the length of the syncword is compared with the disagreements. -/
theorem selected_eq_detections (hthreshold : s.threshold ≤ s.dSyncword.length)
    (hsize : s.windowSize < 2 ^ 32) (buffer : List α) (n : ℕ) :
    s.selected buffer n = s.detections buffer n := by
  have hlength := s.dSyncword_length_le
  rw [selected, detections, subSize_of_le hthreshold (by omega)]
  refine List.filter_congr fun window _ => ?_
  have hle := s.disagreements_le window
  rw [decide_eq_decide]
  omega

/-- With a larger threshold the difference wraps, and no count is as large. -/
theorem selected_eq_nil (hthreshold : s.dSyncword.length < s.threshold) (buffer : List α)
    (n : ℕ) : s.selected buffer n = [] := by
  have hlt := s.threshold_lt
  rw [selected, subSize_of_lt hthreshold (by omega)]
  refine List.filter_eq_nil_iff.mpr fun window _ => ?_
  rw [decide_eq_true_eq]
  omega

/-- A larger threshold asks for all the windows. -/
theorem detections_length (hthreshold : s.dSyncword.length < s.threshold) (buffer : List α)
    (n : ℕ) : (s.detections buffer n).length = n := by
  have hall : ∀ window ∈ (List.range n).map (s.window buffer),
      decide (s.disagreements window ≤ s.threshold) = true := by
    intro window _
    have hle := s.disagreements_le window
    exact decide_eq_true (by omega)
  rw [detections, List.filter_eq_self.mpr hall, List.length_map, List.length_range]

theorem selected_succ (buffer : List α) (n : ℕ) :
    s.selected buffer (n + 1) = s.selected buffer n ++
      if subSize s.dSyncword.length s.threshold ≤
        s.dSyncword.length - s.disagreements (s.window buffer n) then [s.window buffer n]
      else [] := by
  unfold selected
  rw [List.range_succ, List.map_append, List.filter_append, List.map_singleton,
    List.filter_singleton, Bool.cond_decide]

omit [Zero α] [LT α] [DecidableLT α] in
/-- One round publishes the window if the count is large enough. -/
theorem round_eq (k least : ℕ) (published : List (List α)) (window : List α) :
    (do
      let count ← (.ok k : Except CxxError ℕ)
      if least ≤ count then return published ++ [← .ok window] else return published) =
    .ok (published ++ if least ≤ k then [window] else []) := by
  show (if least ≤ k then pure (published ++ [window]) else pure published) = _
  split
  · rfl
  · rw [List.append_nil]
    rfl

theorem work_eq {n : ℕ} (hinput : n + s.windowSize ≤ input.length + 1) :
    s.work input n = .ok (s.selected input n) := by
  have hloop : Returns (s.work input n) (· = s.selected input n) := by
    refine Returns.foldlM_range (fun rounds published => published = s.selected input rounds)
      (fun i hi published hpublished => ?_) rfl
    have hfits : i + s.windowSize ≤ input.length := by omega
    have hvector : s.initF32vector input i = .ok (s.window input i) := if_pos hfits
    refine ⟨_, ?_, rfl⟩
    rw [s.matchAt_eq hfits, selected_succ, hpublished, hvector]
    exact round_eq _ _ _ _
  obtain ⟨published, hpublished, rfl⟩ := hloop
  exact hpublished

/-! ## A run -/

omit [Zero α] [LT α] [DecidableLT α] in
theorem map_window_add (buffer : List α) (m n : ℕ) :
    (List.range n).map (s.window buffer ∘ fun i => m + i) =
      (List.range n).map (s.window (buffer.drop m)) := by
  refine List.map_congr_left fun i _ => ?_
  rw [Function.comp_apply, window, window, List.drop_drop]

theorem selected_add (buffer : List α) (m n : ℕ) :
    s.selected buffer (m + n) = s.selected buffer m ++ s.selected (buffer.drop m) n := by
  unfold selected
  rw [List.range_add, List.map_append, List.filter_append, List.map_map]
  simp only [map_window_add]

omit [Zero α] [LT α] [DecidableLT α] in
theorem map_window_append {buffer : List α} {n : ℕ} (h : n + s.windowSize ≤ buffer.length + 1)
    (rest : List α) :
    (List.range n).map (s.window (buffer ++ rest)) = (List.range n).map (s.window buffer) := by
  refine List.map_congr_left fun i hi => ?_
  have hlt := List.mem_range.mp hi
  rw [window, window, List.drop_append_of_le_length (by omega),
    List.take_append_of_le_length (by rw [List.length_drop]; omega)]

/-- The first windows of a buffer do not reach into what comes after it. -/
theorem selected_append {buffer : List α} {n : ℕ} (h : n + s.windowSize ≤ buffer.length + 1)
    (rest : List α) : s.selected (buffer ++ rest) n = s.selected buffer n := by
  unfold selected
  rw [s.map_window_append h]

/-- With a full history the calls together publish the windows of the stream. -/
theorem runE_call (calls : List (List α)) {history : List α}
    (h : history.length + 1 = s.windowSize) :
    (runE s.call history calls).map Prod.snd =
      .ok (s.selected (history ++ calls.flatten) calls.flatten.length) := by
  induction calls generalizing history with
  | nil => rfl
  | cons items calls ih =>
    have hbuffer : items.length + s.windowSize ≤ (history ++ items).length + 1 := by
      rw [List.length_append]
      omega
    have hlength : ((history ++ items).drop items.length).length + 1 = s.windowSize := by
      rw [List.length_drop, List.length_append]
      omega
    have hdrop : (history ++ items ++ calls.flatten).drop items.length =
        (history ++ items).drop items.length ++ calls.flatten :=
      List.drop_append_of_le_length (by rw [List.length_append]; omega)
    have hrest := ih hlength
    rw [List.flatten_cons, List.length_append, selected_add, ← List.append_assoc,
      s.selected_append hbuffer, hdrop, runE, call, s.work_eq hbuffer]
    simp only [bind, Except.bind, pure, Except.pure]
    cases hrun : runE s.call ((history ++ items).drop items.length) calls with
    | error e =>
      rw [hrun] at hrest
      cases hrest
    | ok last =>
      rw [hrun] at hrest
      rw [← Except.ok.inj hrest]
      rfl

/-- The block publishes the windows selected if the window fits in `unsigned`. -/
theorem published_eq (hsize : s.windowSize < 2 ^ 32) (calls : List (List α)) :
    s.published calls = .ok (s.selected
      (List.replicate (s.windowSize - 1) 0 ++ calls.flatten) calls.flatten.length) := by
  have hpos := s.dSyncword_length_pos.trans_le s.dSyncword_length_le
  have hhistory : s.history = s.windowSize := Nat.mod_eq_of_lt hsize
  have hzeros : (s.zeros : List α) = List.replicate (s.windowSize - 1) 0 := by
    rw [zeros, hhistory]
  rw [published, hzeros]
  refine s.runE_call calls ?_
  rw [List.length_replicate]
  omega

/-! ## Windows that do not fit -/

/-- If the window does not fit in `unsigned`, the history is too short for its last symbol. -/
theorem history_lt (hsize : 2 ^ 32 ≤ s.windowSize) :
    s.history - 1 < (s.dSyncword.length - 1) * s.step := by
  have hstep := s.step_lt
  have hquotient : 1 ≤ s.windowSize / 2 ^ 32 := Nat.div_pos hsize (by decide)
  have hmod := Nat.div_add_mod s.windowSize (2 ^ 32)
  have hlast : (s.dSyncword.length - 1) * s.step = s.windowSize - s.step := by
    rw [Nat.sub_mul, one_mul, windowSize]
  rw [hlast, history]
  omega

theorem matchAt_ne_ok (h : input.length ≤ i + (s.dSyncword.length - 1) * s.step) (count : ℕ) :
    s.matchAt input i ≠ .ok count := by
  intro hok
  have hlast : s.dSyncword.length - 1 < s.dSyncword.length :=
    Nat.sub_lt s.dSyncword_length_pos Nat.one_pos
  obtain ⟨u, v, hround⟩ := Returns.foldlM_range_ok hok hlast
  rw [access_of_le h] at hround
  cases hround

/-- The last round of such a call reads past the end. -/
theorem work_ne_ok {n : ℕ} (hn : 0 < n)
    (h : input.length ≤ n - 1 + (s.dSyncword.length - 1) * s.step) (published : List (List α)) :
    s.work input n ≠ .ok published := by
  intro hok
  obtain ⟨u, v, hround⟩ := Returns.foldlM_range_ok hok (Nat.sub_lt hn Nat.one_pos)
  cases hmatch : s.matchAt input (n - 1) with
  | error e =>
    rw [hmatch] at hround
    cases hround
  | ok count => exact s.matchAt_ne_ok h count hmatch

theorem runE_call_ne_ok (hsize : 2 ^ 32 ≤ s.windowSize) (calls : List (List α))
    (hcalls : calls.flatten ≠ []) {history : List α} (h : history.length = s.history - 1)
    (last : List α × List (List α)) : runE s.call history calls ≠ .ok last := by
  induction calls generalizing last with
  | nil => exact absurd rfl hcalls
  | cons items calls ih =>
    intro hok
    rw [runE, call] at hok
    cases hwork : s.work (history ++ items) items.length with
    | error e =>
      rw [hwork] at hok
      cases hok
    | ok published =>
      rcases Nat.eq_zero_or_pos items.length with hnil | hpos
      · obtain rfl := List.eq_nil_of_length_eq_zero hnil
        rw [hwork, List.append_nil] at hok
        cases hrun : runE s.call history calls with
        | error e =>
          simp only [List.length_nil, List.drop_zero, bind, Except.bind, pure, Except.pure,
            hrun] at hok
          cases hok
        | ok last' => exact ih hcalls last' hrun
      · have hlt := s.history_lt hsize
        refine s.work_ne_ok hpos ?_ published hwork
        rw [List.length_append]
        omega

theorem published_ne_ok (hsize : 2 ^ 32 ≤ s.windowSize) {calls : List (List α)}
    (hcalls : calls.flatten ≠ []) (windows : List (List α)) :
    s.published calls ≠ .ok windows := by
  intro hok
  rw [published] at hok
  cases hrun : runE s.call s.zeros calls with
  | error e =>
    rw [hrun] at hok
    cases hok
  | ok last =>
    exact s.runE_call_ne_ok hsize calls hcalls (List.length_replicate ..) last hrun

/-- Without symbols there is nothing to publish. -/
theorem published_of_flatten_eq_nil {calls : List (List α)} (hcalls : calls.flatten = []) :
    s.published calls = .ok [] := by
  have hrun : ∀ history : List α, runE s.call history calls = .ok (history, []) := by
    intro history
    induction calls with
    | nil => rfl
    | cons items calls ih =>
      obtain ⟨rfl, hrest⟩ := List.append_eq_nil_iff.mp hcalls
      have hwork : s.work history 0 = .ok [] := rfl
      rw [runE, call, List.append_nil, List.length_nil, hwork, List.drop_zero]
      simp only [bind, Except.bind, pure, Except.pure, ih hrest, List.append_nil]
  rw [published, hrun]
  rfl

/-! ## Detection -/

/-- **Detection.** The block detects in a run with some symbol if and only if the threshold is not
larger than the syncword, whose windows fit in `unsigned`. -/
theorem detects_iff (calls : List (List α)) : s.Detects calls ↔ calls.flatten = [] ∨ s.Fits := by
  constructor
  · intro hdetects
    refine or_iff_not_imp_left.mpr fun hcalls => ?_
    have hsize : s.windowSize < 2 ^ 32 := by
      by_contra hlarge
      exact s.published_ne_ok (Nat.not_lt.mp hlarge) hcalls _ hdetects
    refine ⟨?_, hsize⟩
    by_contra hthreshold
    have hnil := s.selected_eq_nil (Nat.not_le.mp hthreshold)
      (List.replicate (s.windowSize - 1) 0 ++ calls.flatten) calls.flatten.length
    have hall := s.detections_length (Nat.not_le.mp hthreshold)
      (List.replicate (s.windowSize - 1) 0 ++ calls.flatten) calls.flatten.length
    rw [Detects, s.published_eq hsize, hnil] at hdetects
    rw [← Except.ok.inj hdetects, List.length_nil] at hall
    exact hcalls (List.eq_nil_of_length_eq_zero hall.symm)
  · rintro (hcalls | ⟨hthreshold, hsize⟩)
    · rw [Detects, s.published_of_flatten_eq_nil hcalls, hcalls]
      rfl
    · rw [Detects, s.published_eq hsize, s.selected_eq_detections hthreshold hsize]

end Settings

/-- A syncword of one character, with a threshold of two. -/
def oneBit : Settings where
  threshold := 2
  syncword := [1]
  step := 1
  threshold_lt := by decide
  syncword_ne_nil := by decide
  step_pos := by decide
  step_lt := by decide

/-- One symbol cannot disagree at more than two positions, but its window is not published. -/
theorem not_detects_oneBit : ¬ oneBit.Detects [[(1 : ℤ)]] := by
  intro hdetects
  have hpublished : oneBit.published [[(1 : ℤ)]] = .ok [] := rfl
  have hdetections : oneBit.detections [(1 : ℤ)] 1 = [[1]] := by decide
  cases (hpublished.symm.trans hdetects).trans (congrArg Except.ok hdetections)

end GrSatellites.DistributedSyncframe
