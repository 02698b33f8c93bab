import GrSatellites.TimeDependentDelay.Delays
import Mathlib.Algebra.Order.Archimedean.Basic
import Mathlib.Algebra.Order.Floor.Ring

/-!
# The filterbank and the history

Each output sample is interpolated between two filters of a polyphase filterbank, which
read as many input samples as they have taps. The history of the block is set once, from the
largest delay of the file.
-/

namespace GrSatellites.TimeDependentDelay

open Interpolation TableCursor Transducer

/-- `static_cast<int>` of a `double`, towards zero. -/
def truncate (x : ℚ) : ℤ := if 0 ≤ x then ⌊x⌋ else ⌈x⌉

/-- The taps and the number of filters that are given to the constructor. -/
structure FilterBank where
  taps : List ℚ
  numFilters : ℕ
  ne_nil : taps ≠ []
  numFilters_pos : 0 < numFilters

/-- The error of `read_delay_file` for a delay that cannot be realized, with the numbers of its
message. -/
structure DelayTooSmall where
  delaySamples : ℚ
  delaySeconds : ℚ
  firDelay : ℚ
  deriving DecidableEq

/-- The filters and the input samples that one output sample uses. -/
structure Reads where
  filterIdx0 : ℤ
  sampleIdx0 : ℤ
  filterIdx1 : ℤ
  sampleIdx1 : ℤ
  filterIdxFrac : ℚ
  deriving DecidableEq

namespace FilterBank

/-- `d_fir_delay`. -/
def firDelay (bank : FilterBank) : ℚ := ((bank.taps.length : ℚ) - 1) / (2 * bank.numFilters)

/-- `d_taps_per_filter`. -/
def tapsPerFilter (bank : FilterBank) : ℕ :=
  (bank.taps.length + bank.numFilters - 1) / bank.numFilters

/-- `d_filters`. A filter has one tap out of every `numFilters`, and zeros at the end. -/
def filters (bank : FilterBank) : List (List ℚ) :=
  (List.range bank.numFilters).map fun nfilt =>
    (List.range bank.tapsPerFilter).map fun j => bank.taps.getD (j * bank.numFilters + nfilt) 0

/-- `read_delay_file`, for the times and the delays in seconds that it reads. -/
def readDelayFile (bank : FilterBank) (sampRate : ℚ) :
    List (ℚ × ℚ) → Except DelayTooSmall (List (ℚ × ℚ))
  | [] => .ok []
  | (time, delaySeconds) :: pairs =>
    let delaySamples := delaySeconds * sampRate
    if delaySamples < bank.firDelay then .error ⟨delaySamples, delaySeconds, bank.firDelay⟩
    else do
      let points ← bank.readDelayFile sampRate pairs
      return (time, delaySamples) :: points

/-- The largest delay, as the constructor computes it. -/
def maxDelay (points : List (ℚ × ℚ)) : ℚ := points.foldl (fun m p => max m p.2) 0

/-- The history that the constructor sets. -/
def history (bank : FilterBank) (points : List (ℚ × ℚ)) : ℤ :=
  truncate (maxDelay points - bank.firDelay) + 1 + ((bank.tapsPerFilter : ℤ) - 1)

/-- The indices that `work` computes for the output sample `j` of a call. -/
def reads (bank : FilterBank) (history : ℤ) (j : ℕ) (delay : ℚ) : Reads :=
  let delayBeforeFir := delay - bank.firDelay
  let whole := truncate delayBeforeFir
  let advance := 1 - (delayBeforeFir - whole)
  let delayInt := if advance = 1 then whole else whole + 1
  let advanceFrac := if advance = 1 then 0 else advance
  let sampleIdx0 := j + history - 1 - delayInt - ((bank.tapsPerFilter : ℤ) - 1)
  let filterIdxDouble := advanceFrac * bank.filters.length
  let filterIdx0 := truncate filterIdxDouble
  let wraps := filterIdx0 + 1 = bank.filters.length
  { filterIdx0 := filterIdx0
    sampleIdx0 := sampleIdx0
    filterIdx1 := if wraps then 0 else filterIdx0 + 1
    sampleIdx1 := if wraps then sampleIdx0 + 1 else sampleIdx0
    filterIdxFrac := filterIdxDouble - filterIdx0 }

/-- The filters exist, and their taps meet samples of the history or of the `n` items of the
call. -/
def InWindow (bank : FilterBank) (history : ℤ) (n : ℕ) (r : Reads) : Prop :=
  (0 ≤ r.filterIdx0 ∧ r.filterIdx0 < bank.filters.length) ∧
    (0 ≤ r.filterIdx1 ∧ r.filterIdx1 < bank.filters.length) ∧
    (0 ≤ r.sampleIdx0 ∧ r.sampleIdx0 + bank.tapsPerFilter - 1 ≤ n + history - 2) ∧
    0 ≤ r.sampleIdx1 ∧ r.sampleIdx1 + bank.tapsPerFilter - 1 ≤ n + history - 2

instance (bank : FilterBank) (history : ℤ) (n : ℕ) (r : Reads) :
    Decidable (bank.InWindow history n r) :=
  inferInstanceAs (Decidable (_ ∧ _))

/-- What the samples of a call with some delays read. -/
def callReads (bank : FilterBank) (points : List (ℚ × ℚ)) (delays : List ℚ) : List Reads :=
  delays.mapIdx fun j delay => bank.reads (bank.history points) j delay

/-- No call reads outside of its window, wherever the cursor is in the table, and whichever times
the samples of the call have. -/
def ReadsInWindow (bank : FilterBank) (sampRate : ℚ) (points : List (ℚ × ℚ)) : Prop :=
  ∀ c : Cursor ℚ, c.index < points.length → ∀ first n : ℕ,
    ∀ r ∈ bank.callReads points ((c.readAll points sampRate first n).2.map Prod.snd),
      bank.InWindow (bank.history points) n r

/-- The largest delay is a whole number of samples more than the delay of the filters, and with a
single filter every delay is larger than that of the filter. -/
def Fits (bank : FilterBank) (points : List (ℚ × ℚ)) : Prop :=
  (∃ p ∈ points, (∀ q ∈ points, q.2 ≤ p.2) ∧ ∃ m : ℕ, p.2 = bank.firDelay + m) ∧
    (2 ≤ bank.numFilters ∨ ∀ p ∈ points, bank.firDelay < p.2)

variable {bank : FilterBank} {sampRate : ℚ} {pairs points : List (ℚ × ℚ)}

@[simp] theorem length_filters (bank : FilterBank) : bank.filters.length = bank.numFilters := by
  rw [filters, List.length_map, List.length_range]

/-- All filters have as many taps as the samples that they read. -/
theorem length_of_mem_filters {filter : List ℚ} (hfilter : filter ∈ bank.filters) :
    filter.length = bank.tapsPerFilter := by
  obtain ⟨nfilt, -, rfl⟩ := List.mem_map.mp hfilter
  rw [List.length_map, List.length_range]

theorem firDelay_nonneg (bank : FilterBank) : 0 ≤ bank.firDelay := by
  have hlen : (1 : ℚ) ≤ bank.taps.length := by
    exact_mod_cast List.length_pos_of_ne_nil bank.ne_nil
  exact div_nonneg (by linarith) (by positivity)

/-- An accepted file has the times that it was read from, and delays that can be realized. -/
theorem readDelayFile_ok (hread : bank.readDelayFile sampRate pairs = .ok points) :
    points = pairs.map (fun p => (p.1, p.2 * sampRate)) ∧ ∀ p ∈ points, bank.firDelay ≤ p.2 := by
  induction pairs generalizing points with
  | nil =>
    cases hread
    exact ⟨rfl, fun p hp => nomatch hp⟩
  | cons pair pairs ih =>
    obtain ⟨time, delaySeconds⟩ := pair
    rw [readDelayFile] at hread
    split at hread
    case isTrue => cases hread
    case isFalse hlarge =>
      cases hrest : bank.readDelayFile sampRate pairs with
      | error e => simp [hrest, bind, Except.bind] at hread
      | ok rest =>
        obtain ⟨hpoints, hall⟩ := ih hrest
        simp only [hrest, bind, Except.bind, pure, Except.pure, Except.ok.injEq] at hread
        subst hread
        constructor
        · rw [List.map_cons, hpoints]
        · exact List.forall_mem_cons.mpr ⟨not_lt.mp hlarge, hall⟩

/-- The largest delay is one of the file. -/
theorem exists_maxDelay (hne : points ≠ []) (hall : ∀ p ∈ points, 0 ≤ p.2) :
    ∃ p ∈ points, p.2 = maxDelay points ∧ ∀ q ∈ points, q.2 ≤ maxDelay points := by
  have hfold : ∀ (l : List (ℚ × ℚ)) (m : ℚ), let M := l.foldl (fun m p => max m p.2) m
      (M = m ∨ ∃ p ∈ l, p.2 = M) ∧ m ≤ M ∧ ∀ q ∈ l, q.2 ≤ M := by
    intro l
    induction l with
    | nil => exact fun m => ⟨Or.inl rfl, le_rfl, fun q hq => nomatch hq⟩
    | cons p l ih =>
      intro m M
      obtain ⟨hfrom, hle, hbound⟩ := ih (max m p.2)
      refine ⟨?_, (le_max_left _ _).trans hle,
        List.forall_mem_cons.mpr ⟨(le_max_right _ _).trans hle, hbound⟩⟩
      rcases hfrom with hstart | ⟨q, hq, hqM⟩
      · rcases max_choice m p.2 with hmax | hmax
        · exact Or.inl (hstart.trans hmax)
        · exact Or.inr ⟨p, List.mem_cons_self, (hstart.trans hmax).symm⟩
      · exact Or.inr ⟨q, List.mem_cons_of_mem _ hq, hqM⟩
  obtain ⟨hfrom, -, hbound⟩ := hfold points 0
  refine hfrom.elim (fun hzero => ?_) fun ⟨p, hp, hpM⟩ => ⟨p, hp, hpM, hbound⟩
  obtain ⟨p, hp⟩ := List.exists_mem_of_ne_nil points hne
  have hle : p.2 ≤ 0 := (hbound p hp).trans_eq hzero
  exact ⟨p, hp, (le_antisymm hle (hall p hp)).trans hzero.symm, hbound⟩

/-! ## One output sample -/

theorem truncate_of_nonneg {x : ℚ} (hx : 0 ≤ x) : truncate x = ⌊x⌋ := if_pos hx

/-- The delay before the filters is rounded up, and what is missing is left to the filters. -/
theorem reads_eq (history : ℤ) (j : ℕ) {delay : ℚ} (hdelay : bank.firDelay ≤ delay) :
    let rounded := ⌈delay - bank.firDelay⌉
    let filterIdxDouble := (rounded - (delay - bank.firDelay)) * bank.numFilters
    let sampleIdx := j + history - 1 - rounded - ((bank.tapsPerFilter : ℤ) - 1)
    bank.reads history j delay =
      { filterIdx0 := ⌊filterIdxDouble⌋
        sampleIdx0 := sampleIdx
        filterIdx1 := if ⌊filterIdxDouble⌋ + 1 = bank.numFilters then 0
          else ⌊filterIdxDouble⌋ + 1
        sampleIdx1 := if ⌊filterIdxDouble⌋ + 1 = bank.numFilters then sampleIdx + 1
          else sampleIdx
        filterIdxFrac := filterIdxDouble - ⌊filterIdxDouble⌋ } := by
  intro rounded filterIdxDouble sampleIdx
  have hnonneg : 0 ≤ delay - bank.firDelay := by linarith
  have hsplit : (if 1 - (delay - bank.firDelay - (truncate (delay - bank.firDelay) : ℚ)) = 1
        then truncate (delay - bank.firDelay) else truncate (delay - bank.firDelay) + 1) =
        rounded ∧
      (if 1 - (delay - bank.firDelay - (truncate (delay - bank.firDelay) : ℚ)) = 1
        then 0 else 1 - (delay - bank.firDelay - (truncate (delay - bank.firDelay) : ℚ))) =
        (rounded : ℚ) - (delay - bank.firDelay) := by
    rw [truncate_of_nonneg hnonneg]
    by_cases hint : delay - bank.firDelay ∈ Set.range ((↑) : ℤ → ℚ)
    · obtain ⟨z, hz⟩ := hint
      simp [rounded, ← hz]
    · have hceil : rounded = ⌊delay - bank.firDelay⌋ + 1 :=
        (Int.ceil_eq_floor_add_one_iff_notMem _).mpr hint
      have hfrac : ¬1 - (delay - bank.firDelay - (⌊delay - bank.firDelay⌋ : ℚ)) = 1 := by
        intro heq
        exact hint ⟨⌊delay - bank.firDelay⌋, by linarith⟩
      rw [if_neg hfrac, if_neg hfrac, hceil]
      refine ⟨rfl, ?_⟩
      push_cast
      ring
  have hfilter : truncate filterIdxDouble = ⌊filterIdxDouble⌋ := by
    refine truncate_of_nonneg (mul_nonneg ?_ (Nat.cast_nonneg _))
    exact sub_nonneg.mpr (Int.le_ceil _)
  unfold reads
  simp only [hsplit.1, hsplit.2, length_filters]
  rw [← hfilter]

/-- The fraction that is left to the filters, in filters. -/
theorem filterIdx_bounds (bank : FilterBank) (x : ℚ) :
    0 ≤ ⌊((⌈x⌉ : ℚ) - x) * bank.numFilters⌋ ∧
      ⌊((⌈x⌉ : ℚ) - x) * bank.numFilters⌋ < bank.numFilters := by
  have hfraction : (0 : ℚ) ≤ ⌈x⌉ - x := sub_nonneg.mpr (Int.le_ceil _)
  have hfraction_lt : (⌈x⌉ : ℚ) - x < 1 := by
    have := Int.ceil_lt_add_one x
    linarith
  have hfilters : (0 : ℚ) < bank.numFilters := by exact_mod_cast bank.numFilters_pos
  constructor
  · exact Int.floor_nonneg.mpr (mul_nonneg hfraction hfilters.le)
  · refine Int.floor_lt.mpr ?_
    exact_mod_cast mul_lt_of_lt_one_left hfilters hfraction_lt

/-- **One output sample.** The samples before the window are avoided if the rounded delay is at
most the whole part of the largest delay, and the item after the window is avoided unless a
single filter has nothing to delay. -/
theorem inWindow_reads_iff {j n : ℕ} (hj : j < n) {delay : ℚ} (hdelay : bank.firDelay ≤ delay)
    (hmax : bank.firDelay ≤ maxDelay points) :
    bank.InWindow (bank.history points) n (bank.reads (bank.history points) j delay) ↔
      ⌈delay - bank.firDelay⌉ ≤ j + ⌊maxDelay points - bank.firDelay⌋ ∧
        (bank.numFilters = 1 → delay = bank.firDelay → j + 1 < n) := by
  have hrounded : 0 ≤ ⌈delay - bank.firDelay⌉ := Int.ceil_nonneg (by linarith)
  have hzero : ⌈delay - bank.firDelay⌉ = 0 ↔ delay = bank.firDelay := by
    constructor
    · intro h
      have hle : delay - bank.firDelay ≤ ((0 : ℤ) : ℚ) := Int.ceil_le.mp h.le
      push_cast at hle
      linarith
    · intro h
      rw [h, sub_self, Int.ceil_zero]
  -- with nothing to delay, the second filter is the next one if there is one
  have hwrap : delay = bank.firDelay → ⌊((⌈delay - bank.firDelay⌉ : ℚ) -
      (delay - bank.firDelay)) * bank.numFilters⌋ + 1 = bank.numFilters →
        bank.numFilters = 1 := by
    intro heq h
    rw [heq, sub_self, Int.ceil_zero] at h
    simpa using h.symm
  have hpos := bank.numFilters_pos
  obtain ⟨hlow, hhigh⟩ := bank.filterIdx_bounds (delay - bank.firDelay)
  rw [bank.reads_eq _ j hdelay, InWindow, history, truncate_of_nonneg (by linarith)]
  simp only [length_filters]
  generalize ⌊((⌈delay - bank.firDelay⌉ : ℚ) - (delay - bank.firDelay)) * bank.numFilters⌋ = f
    at hlow hhigh hwrap ⊢
  rw [← hzero] at hwrap ⊢
  split
  case isTrue => constructor <;> intro h <;> omega
  case isFalse => constructor <;> intro h <;> omega

/-! ## Calls -/

/-- What a call reads is in the window if this holds for each of its delays. -/
theorem forall_callReads_iff (delays : List ℚ) (P : Reads → Prop) :
    (∀ r ∈ bank.callReads points delays, P r) ↔
      ∀ (j : ℕ) (hj : j < delays.length), P (bank.reads (bank.history points) j delays[j]) := by
  unfold callReads
  constructor
  · intro h j hj
    exact h _ (List.mem_mapIdx.mpr ⟨j, hj, rfl⟩)
  · intro h r hr
    obtain ⟨j, hj, rfl⟩ := List.mem_mapIdx.mp hr
    exact h j hj

/-- A file that fits: the delays between those of the file keep every call in its window. -/
theorem Fits.inWindow (hfits : bank.Fits points) (delays : List ℚ)
    (hnonneg : ∀ p ∈ points, 0 ≤ p.2)
    (hlow : ∀ delay ∈ delays, bank.firDelay ≤ delay)
    (hhigh : ∀ delay ∈ delays, delay ≤ maxDelay points)
    (hsingle : (∀ p ∈ points, bank.firDelay < p.2) → ∀ delay ∈ delays, bank.firDelay < delay) :
    ∀ r ∈ bank.callReads points delays, bank.InWindow (bank.history points) delays.length r := by
  obtain ⟨⟨p, hp, hpmax, m, hm⟩, hmany⟩ := hfits
  obtain ⟨q, hq, hqmax, hbound⟩ := exists_maxDelay (List.ne_nil_of_mem hp) hnonneg
  have hmax : maxDelay points = bank.firDelay + m :=
    (le_antisymm ((hqmax ▸ hpmax q hq)) (hbound p hp)).symm ▸ hm
  have hwhole : maxDelay points - bank.firDelay = (m : ℤ) := by
    rw [hmax]
    push_cast
    ring
  rw [forall_callReads_iff]
  intro j hj
  have hmem := List.getElem_mem hj
  have hle : bank.firDelay ≤ maxDelay points := (hlow _ hmem).trans (hhigh _ hmem)
  rw [inWindow_reads_iff hj (hlow _ hmem) hle, hwhole, Int.floor_intCast]
  constructor
  · have hceil : ⌈delays[j] - bank.firDelay⌉ ≤ (m : ℤ) := by
      refine Int.ceil_le.mpr ?_
      rw [← hwhole]
      linarith [hhigh _ hmem]
    omega
  · intro hone heq
    rcases hmany with htwo | hall
    · omega
    · exact absurd heq (hsingle hall _ hmem).ne'

/-- If a call for one sample with the delay of each point stays in its window, the file fits. -/
theorem fits_of_single (hne : points ≠ []) (hlow : ∀ p ∈ points, bank.firDelay ≤ p.2)
    (hsingle : ∀ p ∈ points, ∀ r ∈ bank.callReads points [p.2],
      bank.InWindow (bank.history points) 1 r) : bank.Fits points := by
  have hnonneg : ∀ p ∈ points, 0 ≤ p.2 := fun p hp => bank.firDelay_nonneg.trans (hlow p hp)
  obtain ⟨q, hq, hqmax, hbound⟩ := exists_maxDelay hne hnonneg
  have hone : ∀ p ∈ points, ⌈p.2 - bank.firDelay⌉ ≤ ⌊maxDelay points - bank.firDelay⌋ ∧
      (bank.numFilters = 1 → p.2 ≠ bank.firDelay) := by
    intro p hp
    have hread := (forall_callReads_iff [p.2] _).mp (hsingle p hp) 0 Nat.one_pos
    have hle : bank.firDelay ≤ maxDelay points := (hlow p hp).trans (hbound p hp)
    obtain ⟨hceil, hlast⟩ := (inWindow_reads_iff Nat.one_pos (hlow p hp) hle).mp hread
    constructor
    · simpa using hceil
    · intro h heq
      exact absurd (hlast h heq) (lt_irrefl _)
  constructor
  · refine ⟨q, hq, fun p hp => hqmax ▸ hbound p hp, ?_⟩
    obtain ⟨hceil, -⟩ := hone q hq
    rw [← hqmax] at hceil
    have hfloor : (⌊q.2 - bank.firDelay⌋ : ℚ) = q.2 - bank.firDelay := by
      refine le_antisymm (Int.floor_le _) ((Int.le_ceil _).trans ?_)
      exact_mod_cast hceil
    have hpos : 0 ≤ ⌊q.2 - bank.firDelay⌋ :=
      Int.floor_nonneg.mpr (by linarith [hlow q hq])
    obtain ⟨m, hm⟩ := Int.eq_ofNat_of_zero_le hpos
    refine ⟨m, ?_⟩
    rw [hm] at hfloor
    push_cast at hfloor
    linarith
  · rcases Nat.lt_or_ge bank.numFilters 2 with hfew | hmany
    · have hfilters : bank.numFilters = 1 := by
        have := bank.numFilters_pos
        omega
      exact Or.inr fun p hp => lt_of_le_of_ne (hlow p hp) ((hone p hp).2 hfilters).symm
    · exact Or.inl hmany

/-- The delays that a cursor reads are between those of the file. -/
theorem mem_readAll_bounds (sampRate : ℚ) (hlow : ∀ p ∈ points, bank.firDelay ≤ p.2) {c : Cursor ℚ}
    (hc : c.index < points.length) (first n : ℕ) :
    ∀ sample ∈ (c.readAll points sampRate first n).2, bank.firDelay ≤ sample.2 ∧
      sample.2 ≤ maxDelay points ∧ ((∀ p ∈ points, bank.firDelay < p.2) →
        bank.firDelay < sample.2) := by
  have hne : points ≠ [] := List.ne_nil_of_length_pos (by omega)
  obtain ⟨-, -, -, hbound⟩ := exists_maxDelay hne fun p hp =>
    bank.firDelay_nonneg.trans (hlow p hp)
  induction n generalizing c first with
  | zero => exact fun sample hsample => nomatch hsample
  | succ n ih =>
    rw [Cursor.readAll_succ]
    refine List.forall_mem_cons.mpr ⟨?_, ih (advance_lt hc) (first + 1)⟩
    have hplace : advance points (c.timeOf sampRate first) points.length c.index <
        points.length := advance_lt hc
    have hhigh : advance points (c.timeOf sampRate first) points.length c.index + 1 <
        points.length → c.timeOf sampRate first <
          time points (advance points (c.timeOf sampRate first) points.length c.index + 1) :=
      advance_high (by omega)
    exact ⟨le_segment hplace hhigh hlow, segment_le hplace hhigh hbound,
      lt_segment hplace hhigh⟩

/-- **The window of the filters.** For a file that is accepted, all calls stay in their windows if
and only if the file fits. -/
theorem readsInWindow_iff (hread : bank.readDelayFile sampRate pairs = .ok points)
    (hne : pairs ≠ []) : bank.ReadsInWindow sampRate points ↔ bank.Fits points := by
  obtain ⟨hpoints, hlow⟩ := readDelayFile_ok hread
  have hne' : points ≠ [] := by
    rw [hpoints]
    exact fun h => hne (List.map_eq_nil_iff.mp h)
  constructor
  · intro hwindow
    refine fits_of_single hne' hlow fun p hp => ?_
    obtain ⟨k, hk, hvalue⟩ := exists_value_eq hp
    -- a time before the point and the next one
    have hsample := hwindow ⟨k, min (time points k) (time points (k + 1)) - 1, 0⟩ hk 0 1
    have htime : (⟨k, min (time points k) (time points (k + 1)) - 1, 0⟩ : Cursor ℚ).timeOf
        sampRate 0 = min (time points k) (time points (k + 1)) - 1 := Cursor.timeOf_self _
    have hbefore := min_le_left (time points k) (time points (k + 1))
    have hnext := min_le_right (time points k) (time points (k + 1))
    rw [Cursor.readAll_succ, htime, Cursor.read,
      segment_advance_of_lt (by linarith) (by linarith), hvalue] at hsample
    exact hsample
  · intro hfits c hc first n
    have hbounds := mem_readAll_bounds sampRate hlow hc first n
    have hlength : ((c.readAll points sampRate first n).2.map Prod.snd).length = n := by
      rw [List.length_map, Cursor.length_readAll]
    have hwindow := hfits.inWindow ((c.readAll points sampRate first n).2.map Prod.snd)
      (fun p hp => bank.firDelay_nonneg.trans (hlow p hp))
      (List.forall_mem_map.mpr fun sample hsample => (hbounds sample hsample).1)
      (List.forall_mem_map.mpr fun sample hsample => (hbounds sample hsample).2.1)
      (fun hall => List.forall_mem_map.mpr fun sample hsample =>
        (hbounds sample hsample).2.2 hall)
    rwa [hlength] at hwindow

/-- Two filters for three taps, which delay by half a sample. -/
def threeTaps : FilterBank := ⟨[1, 1, 1], 2, List.cons_ne_nil _ _, Nat.two_pos⟩

/-- Delays of half a sample and of a sample and a half, from half a second on. -/
theorem readsInWindow_threeTaps : threeTaps.ReadsInWindow 2 [(0, 1 / 2), (1, 3 / 2)] := by
  have hread : threeTaps.readDelayFile 2 [(0, 1 / 4), (1, 3 / 4)] =
      .ok [(0, 1 / 2), (1, 3 / 2)] := by
    decide +kernel
  refine (readsInWindow_iff hread (List.cons_ne_nil _ _)).mpr ⟨?_, Or.inl le_rfl⟩
  exact ⟨(1, 3 / 2), by decide +kernel, by decide +kernel, 1, by decide +kernel⟩

/-- With a largest delay of one sample, of which the filters make one half, the first output
sample reads the sample before the history. -/
theorem not_readsInWindow_threeTaps :
    threeTaps.readDelayFile 1 [(0, 1)] = .ok [(0, 1)] ∧ ¬threeTaps.ReadsInWindow 1 [(0, 1)] := by
  refine ⟨by decide +kernel, fun hwindow => ?_⟩
  have hread := hwindow ⟨0, 0, 0⟩ Nat.one_pos 0 1
  revert hread
  decide +kernel

/-! ## Runs of the block -/

/-- What a call to the block reads is what its cursor reads, from inside the table. -/
theorem callReads_of_mem_run (settings : Settings) (t0 : ℚ) (calls : List Call) :
    ∀ out ∈ (run (step settings) (State.init settings t0) calls).2,
      ∃ c : Cursor ℚ, c.index < settings.table.points.length ∧ ∃ first n : ℕ,
        out.samples = (c.readAll settings.table.points settings.sampRate first n).2.map
          fun sample => ⟨sample.1, sample.2⟩ := by
  have hinit : (State.init settings t0).cursor.index < settings.table.points.length :=
    List.length_pos_of_ne_nil settings.table.ne_nil
  generalize State.init settings t0 = s at hinit
  induction calls generalizing s with
  | nil => exact fun out hout => nomatch hout
  | cons call calls ih =>
    rw [run_cons]
    refine List.forall_mem_append.mpr ?_
    cases call with
    | setTime t =>
      constructor
      · intro out hout
        cases hout
      · exact ih _ (Cursor.notAhead_setTime hinit t s.nitemsWritten).index_lt
    | work n tags =>
      have hset : (s.updateTimeFromTags settings (tagsInWindow tags s.nitemsWritten n)).cursor.index
          < settings.table.points.length := by
        rw [State.cursor_updateTimeFromTags]
        exact Cursor.setTimes_index_lt _ hinit
      obtain ⟨hplace, hsamples⟩ := (s.updateTimeFromTags settings
        (tagsInWindow tags s.nitemsWritten n)).cursor_delaySamples s.nitemsWritten n
      constructor
      · intro out hout
        obtain rfl := List.mem_singleton.mp hout
        exact ⟨_, hset, s.nitemsWritten, n, hsamples⟩
      · refine ih _ ?_
        have hcursor : (step settings s (.work n tags)).1.cursor =
            ((s.updateTimeFromTags settings
              (tagsInWindow tags s.nitemsWritten n)).delaySamples settings s.nitemsWritten n).1.cursor :=
          rfl
        rw [hcursor, hplace]
        exact Cursor.readAll_index_lt s.nitemsWritten n hset

/-- From the state after construction, the block can be made to delay one sample by the delay of
any point. -/
theorem single_sample_run (settings : Settings) (t0 : ℚ) {p : ℚ × ℚ}
    (hp : p ∈ settings.table.points) :
    ∃ calls, ∃ out ∈ (run (step settings) (State.init settings t0) calls).2,
      out.samples.map Sample.delay = [p.2] := by
  obtain ⟨k, hk, hvalue⟩ := exists_value_eq hp
  refine ⟨[.setTime (time settings.table.points k), .work 1 []], _,
    List.mem_append_right _ List.mem_cons_self, ?_⟩
  have htime : (0 : ℕ) < settings.table.points.length := by omega
  have hself : time settings.table.points k +
      (((0 : ℕ) : ℤ) - ((0 : ℕ) : ℤ) : ℚ) / settings.sampRate = time settings.table.points k := by
    simp
  have hdelay : segment settings.table.points (advance settings.table.points
      (time settings.table.points k) settings.table.points.length 0)
        (time settings.table.points k) = p.2 := by
    rw [segment_advance settings.table.sorted.ordered htime (Or.inl rfl),
      interpolate_time settings.table.sorted hk, hvalue]
  rw [← hself] at hdelay
  exact congrArg (· :: []) hdelay

/-- **Runs.** From the state after construction, all calls of all runs stay in their windows if
and only if the file fits. -/
theorem run_inWindow_iff (settings : Settings) (t0 : ℚ)
    (hlow : ∀ p ∈ settings.table.points, bank.firDelay ≤ p.2) :
    (∀ calls, ∀ out ∈ (run (step settings) (State.init settings t0) calls).2,
        ∀ r ∈ bank.callReads settings.table.points (out.samples.map Sample.delay),
          bank.InWindow (bank.history settings.table.points) out.samples.length r) ↔
      bank.Fits settings.table.points := by
  constructor
  · intro hruns
    refine fits_of_single settings.table.ne_nil hlow fun p hp => ?_
    obtain ⟨calls, out, hout, hdelays⟩ := single_sample_run settings t0 hp
    have hread := hruns calls out hout
    have hlength : out.samples.length = 1 := by
      rw [← List.length_map Sample.delay, hdelays]
      rfl
    rwa [hdelays, hlength] at hread
  · intro hfits calls out hout
    obtain ⟨c, hc, first, n, hsamples⟩ := callReads_of_mem_run settings t0 calls out hout
    have hbounds := mem_readAll_bounds settings.sampRate hlow hc first n
    have hdelays : ∀ delay ∈ out.samples.map Sample.delay, bank.firDelay ≤ delay ∧
        delay ≤ maxDelay settings.table.points ∧
          ((∀ p ∈ settings.table.points, bank.firDelay < p.2) → bank.firDelay < delay) := by
      rw [hsamples, List.map_map]
      exact List.forall_mem_map.mpr hbounds
    have hwindow := hfits.inWindow (out.samples.map Sample.delay)
      (fun p hp => bank.firDelay_nonneg.trans (hlow p hp))
      (fun delay hdelay => (hdelays delay hdelay).1)
      (fun delay hdelay => (hdelays delay hdelay).2.1)
      fun hall delay hdelay => (hdelays delay hdelay).2.2 hall
    rwa [List.length_map] at hwindow

end FilterBank

end GrSatellites.TimeDependentDelay
