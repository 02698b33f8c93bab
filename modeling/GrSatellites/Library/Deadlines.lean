import Mathlib

/-!
# Releasing tasks at cut points

Tasks are listed in the order in which they arrive, and each has a deadline. At each of a
sequence of cut points, the tasks whose deadline has passed since the last one are
released, in the order of the list. Whatever the cut points, the same tasks are released
in the end. They are released in the order of the list exactly if no task has a later
deadline than one that comes after it.
-/

namespace GrSatellites.Deadlines

variable {α : Type} (deadline : α → ℕ)

/-- The tasks with a deadline up to a point. -/
def due (n : ℕ) (tasks : List α) : List α := tasks.filter fun x => deadline x ≤ n

/-- The tasks with a deadline between two points. -/
def newly (n m : ℕ) (tasks : List α) : List α :=
  tasks.filter fun x => n < deadline x ∧ deadline x ≤ m

/-- What is released at some cut points, from a given one on. -/
def released (tasks : List α) (n : ℕ) : List ℕ → List α
  | [] => []
  | m :: cuts => newly deadline n m tasks ++ released tasks m cuts

/-- The last cut point. -/
def lastCut (n : ℕ) : List ℕ → ℕ
  | [] => n
  | m :: cuts => lastCut m cuts

variable {deadline} {tasks : List α}

theorem due_eq_filter {n m : ℕ} (hnm : n ≤ m) (tasks : List α) :
    due deadline n tasks = (due deadline m tasks).filter fun x => deadline x ≤ n := by
  rw [due, due, List.filter_filter]
  refine List.filter_congr fun x _ => ?_
  rw [Bool.eq_iff_iff]
  simp only [Bool.and_eq_true, decide_eq_true_eq]
  omega

theorem newly_eq_filter (n m : ℕ) (tasks : List α) :
    newly deadline n m tasks = (due deadline m tasks).filter fun x => n < deadline x := by
  rw [newly, due, List.filter_filter]
  refine List.filter_congr fun x _ => ?_
  rw [Bool.eq_iff_iff]
  simp only [Bool.and_eq_true, decide_eq_true_eq]

/-- What is due by one point and what is newly due make up what is due by the next one. -/
theorem due_append_newly_perm {n m : ℕ} (hnm : n ≤ m) (tasks : List α) :
    (due deadline n tasks ++ newly deadline n m tasks).Perm (due deadline m tasks) := by
  have hnot : (fun x => decide (n < deadline x)) = fun x => ! decide (deadline x ≤ n) := by
    funext x
    rw [← decide_not, decide_eq_decide]
    exact Nat.not_le.symm
  rw [due_eq_filter hnm, newly_eq_filter, hnot]
  exact List.filter_append_perm _ _

/-- **Nothing is lost or repeated.** What is released in the end does not depend on the cut
points, up to the order. -/
theorem released_perm {n : ℕ} {cuts : List ℕ} (hcuts : (n :: cuts).IsChain (· ≤ ·)) (tasks : List α) :
    (due deadline n tasks ++ released deadline tasks n cuts).Perm
      (due deadline (lastCut n cuts) tasks) := by
  induction cuts generalizing n with
  | nil => simp [released, lastCut]
  | cons m cuts ih =>
    obtain ⟨hnm, hmore⟩ := List.isChain_cons_cons.mp hcuts
    rw [released, lastCut, ← List.append_assoc]
    exact ((due_append_newly_perm hnm tasks).append_right _).trans (ih hmore)

/-- How many elements there have been at the end of each of several chunks. -/
def chunkCuts {β : Type} (n : ℕ) : List (List β) → List ℕ
  | [] => []
  | chunk :: chunks => (n + chunk.length) :: chunkCuts (n + chunk.length) chunks

theorem isChain_chunkCuts {β : Type} (n : ℕ) (chunks : List (List β)) :
    (n :: chunkCuts n chunks).IsChain (· ≤ ·) := by
  induction chunks generalizing n with
  | nil => exact .singleton n
  | cons chunk chunks ih => exact .cons_cons (Nat.le_add_right n chunk.length) (ih _)

theorem lastCut_chunkCuts {β : Type} (n : ℕ) (chunks : List (List β)) :
    lastCut n (chunkCuts n chunks) = n + chunks.flatten.length := by
  induction chunks generalizing n with
  | nil => rfl
  | cons chunk chunks ih =>
    rw [chunkCuts, lastCut, ih, List.flatten_cons, List.length_append, Nat.add_assoc]

/-- From the start on, the tasks with deadlines up to the end of the chunks are released. -/
theorem released_chunkCuts_perm {β : Type} (hpos : ∀ x, 0 < deadline x) (tasks : List α)
    (chunks : List (List β)) :
    (released deadline tasks 0 (chunkCuts 0 chunks)).Perm
      (due deadline chunks.flatten.length tasks) := by
  have hnone : due deadline 0 tasks = [] :=
    List.filter_eq_nil_iff.mpr fun x _ => by simpa using (hpos x).ne'
  have hperm : (due deadline 0 tasks ++ released deadline tasks 0 (chunkCuts 0 chunks)).Perm
      (due deadline (lastCut 0 (chunkCuts 0 chunks)) tasks) :=
    released_perm (isChain_chunkCuts 0 chunks) tasks
  rwa [hnone, List.nil_append, lastCut_chunkCuts, Nat.zero_add] at hperm

/-- With deadlines in order, the tasks due by a point come first. -/
theorem filter_append_filter_of_sorted (hsorted : tasks.Pairwise fun x y => deadline x ≤ deadline y)
    (n : ℕ) :
    tasks.filter (fun x => deadline x ≤ n) ++ tasks.filter (fun x => n < deadline x) = tasks := by
  induction hsorted with
  | nil => rfl
  | @cons x tasks hx hsorted ih =>
    by_cases hdue : deadline x ≤ n
    · rw [List.filter_cons_of_pos (by simpa using hdue),
        List.filter_cons_of_neg (by simpa using hdue), List.cons_append, ih]
    · have hnone : tasks.filter (fun y => deadline y ≤ n) = [] := by
        refine List.filter_eq_nil_iff.mpr fun y hy => ?_
        have hxy := hx y hy
        rw [decide_eq_true_eq]
        omega
      rw [hnone, List.nil_append] at ih
      rw [List.filter_cons_of_neg (by simpa using hdue), hnone, List.nil_append,
        List.filter_cons_of_pos (by simpa using hdue), ih]

theorem le_lastCut {n : ℕ} {cuts : List ℕ} (hcuts : (n :: cuts).IsChain (· ≤ ·)) :
    n ≤ lastCut n cuts := by
  induction cuts generalizing n with
  | nil => exact le_refl n
  | cons m cuts ih =>
    obtain ⟨hnm, hmore⟩ := List.isChain_cons_cons.mp hcuts
    exact hnm.trans (ih hmore)

/-- **Order.** When the tasks released have their deadlines in order, they are released in
order, whatever the cut points. -/
theorem released_of_sorted {n : ℕ} {cuts : List ℕ} (hcuts : (n :: cuts).IsChain (· ≤ ·))
    (hsorted : (due deadline (lastCut n cuts) tasks).Pairwise fun x y => deadline x ≤ deadline y) :
    due deadline n tasks ++ released deadline tasks n cuts =
      due deadline (lastCut n cuts) tasks := by
  induction cuts generalizing n with
  | nil => simp [released, lastCut]
  | cons m cuts ih =>
    obtain ⟨hnm, hmore⟩ := List.isChain_cons_cons.mp hcuts
    rw [lastCut] at hsorted ⊢
    have hnext : (due deadline m tasks).Pairwise fun x y => deadline x ≤ deadline y := by
      rw [due_eq_filter (le_lastCut hmore)]
      exact hsorted.sublist List.filter_sublist
    rw [released, ← List.append_assoc, due_eq_filter hnm, newly_eq_filter,
      filter_append_filter_of_sorted hnext, ih hmore hsorted]

/-- Sizes that come out in order at one cut point: no task that is not due comes before one
that is. -/
theorem pairwise_of_map_size {size : α → ℕ} {n : ℕ}
    (hsize : tasks.Pairwise fun x y => deadline y < deadline x → size y < size x)
    (hcut : (tasks.filter (fun x => deadline x ≤ n) ++ tasks.filter (fun x => n < deadline x)).map
      size = tasks.map size) :
    tasks.Pairwise fun x y => deadline y ≤ n → deadline x ≤ n := by
  induction hsize with
  | nil => exact .nil
  | @cons x tasks hx hsize ih =>
    by_cases hdue : deadline x ≤ n
    · rw [List.filter_cons_of_pos (by simpa using hdue),
        List.filter_cons_of_neg (by simpa using hdue), List.cons_append, List.map_cons,
        List.map_cons] at hcut
      exact .cons (fun _ _ _ => hdue) (ih (List.cons_inj_right _ |>.mp hcut))
    · rw [List.filter_cons_of_neg (by simpa using hdue),
        List.filter_cons_of_pos (by simpa using hdue)] at hcut
      have hnone : ∀ y ∈ tasks, ¬ deadline y ≤ n := by
        cases hfirst : tasks.filter (fun y => deadline y ≤ n) with
        | nil => simpa using List.filter_eq_nil_iff.mp hfirst
        | cons y rest =>
          have hmem : y ∈ tasks.filter (fun y => deadline y ≤ n) := by
            rw [hfirst]
            exact List.mem_cons_self
          obtain ⟨hy, hydue⟩ := List.mem_filter.mp hmem
          have hlt := hx y hy (by simp only [decide_eq_true_eq] at hydue; omega)
          rw [hfirst, List.cons_append, List.map_cons, List.map_cons, List.cons.injEq] at hcut
          omega
      refine .cons (fun y hy hydue => absurd hydue (hnone y hy)) ?_
      exact List.pairwise_of_forall_mem_list fun y _ z hz hzdue => absurd hzdue (hnone z hz)

/-- **Only in order.** When tasks that swap places have different sizes, and the sizes come
out in order at every cut point, the deadlines are in order. -/
theorem sorted_of_map_size {size : α → ℕ} {m : ℕ}
    (hsize : (due deadline m tasks).Pairwise fun x y => deadline y < deadline x → size y < size x)
    (hcuts : ∀ n ≤ m, (due deadline n tasks ++ newly deadline n m tasks).map size =
      (due deadline m tasks).map size) :
    (due deadline m tasks).Pairwise fun x y => deadline x ≤ deadline y := by
  rw [List.pairwise_iff_forall_sublist]
  intro x y hxy
  have hy : deadline y ≤ m := by
    have hmem := hxy.subset (List.mem_cons_of_mem x List.mem_cons_self)
    simpa using (List.mem_filter.mp hmem).2
  have hcut := hcuts (deadline y) hy
  rw [due_eq_filter hy, newly_eq_filter] at hcut
  have hpairs := pairwise_of_map_size hsize hcut
  exact List.pairwise_iff_forall_sublist.mp hpairs hxy (le_refl _)

end GrSatellites.Deadlines
