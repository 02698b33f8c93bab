import Mathlib.Data.List.Forall2
import Mathlib.Data.List.Perm.Basic
import Mathlib.Data.List.TakeWhile

/-!
# A queue of elements with deadlines

Elements arrive in rounds. In each round the elements that are due before its limit leave: at
once if they have just arrived, and from the front of a queue if they arrived before. An element
in the queue waits for those ahead of it, so it leaves on time only if they are due as well.
-/

namespace GrSatellites.TimedQueue

variable {α : Type} (deadline : α → ℕ)

/-- One round: the queue that is left, and the elements that leave. -/
def serve (limit : ℕ) (queue arrivals : List α) : List α × List α :=
  let queue := queue ++ arrivals.filter fun x => ¬deadline x < limit
  (queue.dropWhile fun x => deadline x < limit,
    arrivals.filter (fun x => deadline x < limit) ++ queue.takeWhile fun x => deadline x < limit)

/-- A round is given by the elements that arrive and its limit. -/
abbrev Round (α : Type) := List α × ℕ

/-- What leaves in each of several rounds. -/
def serveAll : List α → List (Round α) → List (List α)
  | _, [] => []
  | queue, (arrivals, limit) :: rounds =>
    (serve deadline limit queue arrivals).2 ::
      serveAll (serve deadline limit queue arrivals).1 rounds

/-- All the elements that arrive. -/
def arrived (rounds : List (Round α)) : List α := rounds.flatMap Prod.fst

/-- The deadlines that belong to each round: from the limit of the round before on. -/
def windows : ℕ → List (Round α) → List (ℕ × ℕ)
  | _, [] => []
  | start, (_, limit) :: rounds => (start, limit) :: windows limit rounds

/-- The limits go up, and no element arrives when it is already late. -/
def Timely : ℕ → List (Round α) → Prop
  | _, [] => True
  | start, (arrivals, limit) :: rounds =>
    start ≤ limit ∧ (∀ x ∈ arrivals, start ≤ deadline x) ∧ Timely limit rounds

/-- The elements that are due come first. -/
def DueFirst (limit : ℕ) (waiting : List α) : Prop :=
  waiting.Pairwise fun x y => deadline y < limit → deadline x < limit

/-- In each round the elements that are due come first among those that arrived before and are
not late, in the order of their arrival. -/
def KeepsOrder : List α → List (Round α) → Prop
  | _, [] => True
  | waiting, (arrivals, limit) :: rounds =>
    DueFirst deadline limit waiting ∧
      KeepsOrder ((waiting ++ arrivals).filter fun x => limit ≤ deadline x) rounds

/-- In each round exactly the elements whose deadlines belong to it leave. -/
def Punctual (start : ℕ) (queue : List α) (rounds : List (Round α)) : Prop :=
  List.Forall₂ (fun window out => out.Perm ((queue ++ arrived rounds).filter fun x =>
      window.1 ≤ deadline x ∧ deadline x < window.2))
    (windows start rounds) (serveAll deadline queue rounds)

variable {deadline} {limit start : ℕ} {queue waiting arrivals : List α} {rounds : List (Round α)}

/-! ## One round -/

/-- From the front, all that is due leaves if and only if it comes first. -/
theorem takeWhile_perm_filter_iff (l : List α) :
    (l.takeWhile fun x => deadline x < limit).Perm (l.filter fun x => deadline x < limit) ↔
      DueFirst deadline limit l := by
  unfold DueFirst
  induction l with
  | nil => simp
  | cons x l ih =>
    rw [List.pairwise_cons]
    by_cases hx : deadline x < limit
    · rw [List.takeWhile_cons_of_pos (by simpa using hx), List.filter_cons_of_pos (by simpa using hx),
        List.perm_cons, ih]
      exact ⟨fun h => ⟨fun _ _ _ => hx, h⟩, fun h => h.2⟩
    · rw [List.takeWhile_cons_of_neg (by simpa using hx),
        List.filter_cons_of_neg (by simpa using hx), List.nil_perm, List.filter_eq_nil_iff]
      constructor
      · intro hnone
        have hlate : ∀ y ∈ l, ¬deadline y < limit := fun y hy => by simpa using hnone y hy
        refine ⟨fun y hy hdue => absurd hdue (hlate y hy), ?_⟩
        exact List.pairwise_of_forall_mem_list fun y _ z hz hdue => absurd hdue (hlate z hz)
      · intro h y hy hdue
        exact hx (h.1 y hy (by simpa using hdue))

/-- If what is due comes first, the rest stays. -/
theorem DueFirst.dropWhile_eq {l : List α} (h : DueFirst deadline limit l) :
    (l.dropWhile fun x => deadline x < limit) = l.filter fun x => limit ≤ deadline x := by
  induction h with
  | nil => rfl
  | @cons x l hx hl ih =>
    by_cases hdue : deadline x < limit
    · rw [List.dropWhile_cons_of_pos (by simpa using hdue),
        List.filter_cons_of_neg (by simpa using hdue), ih]
    · rw [List.dropWhile_cons_of_neg (by simpa using hdue)]
      refine (List.filter_eq_self.mpr (List.forall_mem_cons.mpr ⟨?_, ?_⟩)).symm
      · simpa using hdue
      · intro y hy
        have hlate := mt (hx y hy) hdue
        simpa using hlate

/-- What arrives and is not due makes no difference to the order. -/
theorem dueFirst_append_iff (hlate : ∀ x ∈ arrivals, ¬deadline x < limit) :
    DueFirst deadline limit (waiting ++ arrivals) ↔ DueFirst deadline limit waiting := by
  unfold DueFirst
  rw [List.pairwise_append]
  constructor
  · exact fun h => h.1
  · intro h
    refine ⟨h, ?_, fun x _ y hy hdue => absurd hdue (hlate y hy)⟩
    exact List.pairwise_of_forall_mem_list fun x _ y hy hdue => absurd hdue (hlate y hy)

/-- **One round.** What leaves is what is due if and only if it comes first in the queue. -/
theorem serve_snd_perm_iff :
    (serve deadline limit queue arrivals).2.Perm
        ((queue ++ arrivals).filter fun x => deadline x < limit) ↔
      DueFirst deadline limit queue := by
  have hlate : ∀ x ∈ arrivals.filter fun x => ¬deadline x < limit, ¬deadline x < limit := by
    intro x hx
    simpa using (List.mem_filter.mp hx).2
  have hnone : (arrivals.filter fun x => ¬deadline x < limit).filter
      (fun x => deadline x < limit) = [] := by
    refine List.filter_eq_nil_iff.mpr fun x hx => ?_
    simpa using hlate x hx
  have hqueue : ((queue ++ arrivals.filter fun x => ¬deadline x < limit).takeWhile
      fun x => deadline x < limit).Perm ((queue ++ arrivals.filter fun x =>
        ¬deadline x < limit).filter fun x => deadline x < limit) ↔
      DueFirst deadline limit (queue ++ arrivals.filter fun x => ¬deadline x < limit) :=
    takeWhile_perm_filter_iff _
  rw [dueFirst_append_iff hlate, List.filter_append, hnone, List.append_nil] at hqueue
  rw [← hqueue, serve, List.filter_append]
  constructor
  · intro h
    exact (List.perm_append_left_iff _).mp (h.trans List.perm_append_comm)
  · intro h
    exact (h.append_left _).trans List.perm_append_comm

/-- If what is due comes first, the queue is what is not late after the round. -/
theorem DueFirst.serve_fst (h : DueFirst deadline limit queue) :
    (serve deadline limit queue arrivals).1 =
      (queue ++ arrivals).filter fun x => limit ≤ deadline x := by
  have hlate : ∀ x ∈ arrivals.filter fun x => ¬deadline x < limit, ¬deadline x < limit := by
    intro x hx
    simpa using (List.mem_filter.mp hx).2
  rw [serve, ((dueFirst_append_iff hlate).mpr h).dropWhile_eq, List.filter_append,
    List.filter_append, List.filter_filter]
  refine congrArg _ (List.filter_congr fun x _ => ?_)
  rw [Bool.eq_iff_iff]
  simp

/-! ## Several rounds -/

/-- The windows after a limit start there or later. -/
theorem Timely.le_of_mem_windows (h : Timely deadline start rounds) :
    ∀ window ∈ windows start rounds, start ≤ window.1 := by
  induction rounds generalizing start with
  | nil => exact fun window hwindow => nomatch hwindow
  | cons round rounds ih =>
    obtain ⟨hle, -, hmore⟩ := h
    refine List.forall_mem_cons.mpr ⟨le_rfl, fun window hwindow => ?_⟩
    exact hle.trans (ih hmore window hwindow)

theorem Timely.le_of_mem_arrived (h : Timely deadline start rounds) :
    ∀ x ∈ arrived rounds, start ≤ deadline x := by
  induction rounds generalizing start with
  | nil => exact fun x hx => nomatch hx
  | cons round rounds ih =>
    obtain ⟨hle, hnow, hmore⟩ := h
    exact List.forall_mem_append.mpr ⟨hnow, fun x hx => hle.trans (ih hmore x hx)⟩

/-- For the windows of the later rounds, what was due before does not matter. -/
theorem forall₂_later_iff (h : Timely deadline limit rounds) (outs : List (List α)) :
    List.Forall₂ (fun window out => out.Perm ((queue ++ arrived ((arrivals, start) :: rounds)).filter
        fun x => window.1 ≤ deadline x ∧ deadline x < window.2)) (windows limit rounds) outs ↔
      List.Forall₂ (fun window out =>
        out.Perm ((((queue ++ arrivals).filter fun x => limit ≤ deadline x) ++
          arrived rounds).filter fun x => window.1 ≤ deadline x ∧ deadline x < window.2))
        (windows limit rounds) outs := by
  have hsame : ∀ window ∈ windows limit rounds,
      ((queue ++ arrived ((arrivals, start) :: rounds)).filter fun x =>
        window.1 ≤ deadline x ∧ deadline x < window.2) =
      (((queue ++ arrivals).filter fun x => limit ≤ deadline x) ++ arrived rounds).filter
        fun x => window.1 ≤ deadline x ∧ deadline x < window.2 := by
    intro window hwindow
    have hle := h.le_of_mem_windows window hwindow
    have harrived : queue ++ arrived ((arrivals, start) :: rounds) =
        (queue ++ arrivals) ++ arrived rounds := (List.append_assoc _ _ _).symm
    rw [harrived, List.filter_append, List.filter_append _ (arrived rounds), List.filter_filter]
    refine congrArg (· ++ _) (List.filter_congr fun x _ => ?_)
    rw [Bool.eq_iff_iff]
    simp only [Bool.and_eq_true, decide_eq_true_eq]
    omega
  generalize windows limit rounds = ws at hsame
  induction ws generalizing outs with
  | nil => cases outs <;> simp
  | cons window ws ih =>
    cases outs with
    | nil => simp
    | cons out outs =>
      rw [List.forall₂_cons, List.forall₂_cons, hsame window List.mem_cons_self]
      exact and_congr_right fun _ => ih outs fun w hw => hsame w (List.mem_cons_of_mem _ hw)

/-- **Punctuality.** All elements leave in the round of their deadline if and only if, in each
round, the elements that are due come first among those that wait. -/
theorem punctual_iff (h : Timely deadline start rounds) (hqueue : ∀ x ∈ queue, start ≤ deadline x) :
    Punctual deadline start queue rounds ↔ KeepsOrder deadline queue rounds := by
  induction rounds generalizing start queue with
  | nil => simp [Punctual, windows, serveAll, KeepsOrder]
  | cons round rounds ih =>
    obtain ⟨arrivals, limit⟩ := round
    obtain ⟨-, hnow, hmore⟩ := h
    have hlate := hmore.le_of_mem_arrived
    have hfirst : ((queue ++ arrived ((arrivals, limit) :: rounds)).filter fun x =>
        start ≤ deadline x ∧ deadline x < limit) =
          (queue ++ arrivals).filter fun x => deadline x < limit := by
      have harrived : queue ++ arrived ((arrivals, limit) :: rounds) =
          (queue ++ arrivals) ++ arrived rounds := (List.append_assoc _ _ _).symm
      have hnone : (arrived rounds).filter (fun x => start ≤ deadline x ∧ deadline x < limit) = [] := by
        refine List.filter_eq_nil_iff.mpr fun x hx => ?_
        have := hlate x hx
        simp only [decide_eq_true_eq]
        omega
      rw [harrived, List.filter_append, hnone, List.append_nil]
      refine List.filter_congr fun x hx => ?_
      have hstart : start ≤ deadline x := List.forall_mem_append.mpr ⟨hqueue, hnow⟩ x hx
      simp [hstart]
    unfold Punctual
    rw [windows, serveAll, List.forall₂_cons, hfirst, serve_snd_perm_iff, forall₂_later_iff hmore,
      KeepsOrder]
    refine and_congr_right fun hdue => ?_
    rw [hdue.serve_fst]
    exact ih hmore fun x hx => by simpa using (List.mem_filter.mp hx).2

end GrSatellites.TimedQueue
