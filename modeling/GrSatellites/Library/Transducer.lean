import Mathlib.Data.List.Induction

/-!
# Blocks as transducers

A block that keeps a state, takes items in order and publishes messages is a step
function from a state and an item to a new state and the messages published. A
scheduler that cuts the items into calls runs the block on a list of chunks; for a
block that treats its items one by one, the cut does not matter.
-/

namespace GrSatellites.Transducer

variable {σ τ ι ο : Type*}

/-- Run a block over a list of inputs, and collect what it publishes. -/
def run (step : σ → ι → σ × List ο) : σ → List ι → σ × List ο
  | s, [] => (s, [])
  | s, i :: is =>
    let (t, os) := step s i
    ((run step t is).1, os ++ (run step t is).2)

section

variable (step : σ → ι → σ × List ο)

@[simp] theorem run_nil (s : σ) : run step s [] = (s, []) := rfl

theorem run_cons (s : σ) (i : ι) (is : List ι) :
    run step s (i :: is) =
      ((run step (step s i).1 is).1, (step s i).2 ++ (run step (step s i).1 is).2) := rfl

@[simp] theorem run_singleton (s : σ) (i : ι) : run step s [i] = step s i := by
  simp [run_cons]

/-- A run over two lists is the second run continued from where the first ends. -/
theorem run_append (s : σ) (xs ys : List ι) :
    run step s (xs ++ ys) =
      ((run step (run step s xs).1 ys).1,
        (run step s xs).2 ++ (run step (run step s xs).1 ys).2) := by
  induction xs generalizing s with
  | nil => rfl
  | cons x xs ih => rw [List.cons_append, run_cons, run_cons, ih, List.append_assoc]

/-- **Chunk invariance.** Running item by item inside each call is running over all
the items at once. -/
theorem run_chunks (s : σ) (chunks : List (List ι)) :
    run (run step) s chunks = run step s chunks.flatten := by
  induction chunks generalizing s with
  | nil => rfl
  | cons chunk chunks ih => rw [run_cons, ih, List.flatten_cons, run_append]

/-- **Induction along a run.** A relation between the inputs consumed, the messages
published and the state reached holds at the end of a run if it holds at the start
and every input of the run keeps it. -/
theorem run_induction {step : σ → ι → σ × List ο} {I : List ι → List ο → σ → Prop} {s : σ}
    (is : List ι) (hstart : I [] [] s)
    (hstep : ∀ xs i ys t, xs ++ [i] <+: is → I xs ys t →
      I (xs ++ [i]) (ys ++ (step t i).2) (step t i).1) :
    I is (run step s is).2 (run step s is).1 := by
  induction is using List.reverseRecOn with
  | nil => exact hstart
  | append_singleton is i ih =>
    have hpre := ih fun xs i' ys t hxs => hstep xs i' ys t (hxs.trans (List.prefix_append _ _))
    rw [run_append, run_singleton]
    exact hstep is i _ _ (List.prefix_refl _) hpre

/-- **Simulation.** Two blocks whose states stay related and that publish the same
messages in each step publish the same messages in a run. -/
theorem run_simulation {step : σ → ι → σ × List ο} {step' : τ → ι → τ × List ο}
    {R : σ → τ → Prop} {s : σ} {t : τ} (is : List ι) (hstart : R s t)
    (hstep : ∀ i ∈ is, ∀ s t, R s t →
      (step s i).2 = (step' t i).2 ∧ R (step s i).1 (step' t i).1) :
    (run step s is).2 = (run step' t is).2 ∧ R (run step s is).1 (run step' t is).1 := by
  induction is generalizing s t with
  | nil => exact ⟨rfl, hstart⟩
  | cons i is ih =>
    obtain ⟨hout, hnext⟩ := hstep i List.mem_cons_self s t hstart
    obtain ⟨houts, hlast⟩ := ih hnext fun j hj => hstep j (List.mem_cons_of_mem i hj)
    rw [run_cons, run_cons, hout, houts]
    exact ⟨rfl, hlast⟩

end

/-! ## Steps that may fail -/

variable {ε : Type*}

/-- Run a block whose steps may fail. -/
def runE (step : σ → ι → Except ε (σ × List ο)) : σ → List ι → Except ε (σ × List ο)
  | s, [] => .ok (s, [])
  | s, i :: is => do
    let (t, os) ← step s i
    let (u, more) ← runE step t is
    return (u, os ++ more)

section

variable (step : σ → ι → Except ε (σ × List ο))

/-- A run over two lists is the second run continued from where the first ends. -/
theorem runE_append (s : σ) (xs ys : List ι) :
    runE step s (xs ++ ys) = do
      let (t, os) ← runE step s xs
      let (u, more) ← runE step t ys
      return (u, os ++ more) := by
  induction xs generalizing s with
  | nil =>
    simp only [List.nil_append, runE, bind, Except.bind]
    cases runE step s ys <;> rfl
  | cons x xs ih =>
    rw [List.cons_append, runE, runE]
    cases step s x with
    | error e => rfl
    | ok first =>
      obtain ⟨t, os⟩ := first
      simp only [bind, Except.bind, ih]
      cases runE step t xs with
      | error e => rfl
      | ok second =>
        simp only [pure, Except.pure]
        cases runE step second.1 ys with
        | error e => rfl
        | ok third => simp only [List.append_assoc]

/-- **Chunk invariance.** Running item by item inside each call is running over all
the items at once. -/
theorem runE_chunks (s : σ) (chunks : List (List ι)) :
    runE (runE step) s chunks = runE step s chunks.flatten := by
  induction chunks generalizing s with
  | nil => rfl
  | cons chunk chunks ih =>
    rw [runE, List.flatten_cons, runE_append]
    simp only [ih]

variable {step}

/-- A run that succeeds is a step that succeeds, and a run. -/
theorem runE_cons_eq_ok {s u : σ} {i : ι} {is : List ι} {os : List ο}
    (h : runE step s (i :: is) = .ok (u, os)) : ∃ t first rest,
      step s i = .ok (t, first) ∧ runE step t is = .ok (u, rest) ∧ os = first ++ rest := by
  rw [runE] at h
  cases hstep : step s i with
  | error e =>
    rw [hstep] at h
    cases h
  | ok next =>
    obtain ⟨t, first⟩ := next
    cases hrest : runE step t is with
    | error e =>
      simp only [hstep, hrest, bind, Except.bind] at h
      cases h
    | ok last =>
      simp only [hstep, hrest, bind, Except.bind, pure, Except.pure, Except.ok.injEq,
        Prod.mk.injEq] at h
      obtain ⟨rfl, rfl⟩ := h
      exact ⟨t, first, last.2, rfl, hrest, rfl⟩

/-- **Invariants.** What each step that succeeds keeps holds after a run that succeeds. -/
theorem runE_inv {I : σ → Prop} (hstep : ∀ s i t os, I s → step s i = .ok (t, os) → I t)
    {is : List ι} {s t : σ} {os : List ο} (hs : I s) (h : runE step s is = .ok (t, os)) : I t := by
  induction is generalizing s os with
  | nil =>
    obtain ⟨rfl, -⟩ := Prod.mk.inj (Except.ok.inj h)
    exact hs
  | cons i is ih =>
    obtain ⟨u, first, rest, hfirst, hrest, -⟩ := runE_cons_eq_ok h
    exact ih (hstep s i u first hs hfirst) hrest

/-- **Simulation by a total block.** If every step from related states succeeds, publishes what
the total block does and leads to related states, so does a run. -/
theorem runE_simulation {spec : τ → ι → τ × List ο} {R : σ → τ → Prop} {s : σ} {t : τ}
    (is : List ι) (hstart : R s t)
    (hstep : ∀ xs i s', xs ++ [i] <+: is → R s' (run spec t xs).1 →
      ∃ u, step s' i = .ok (u, (spec (run spec t xs).1 i).2) ∧ R u (spec (run spec t xs).1 i).1) :
    ∃ u, runE step s is = .ok (u, (run spec t is).2) ∧ R u (run spec t is).1 := by
  induction is using List.reverseRecOn with
  | nil => exact ⟨s, rfl, hstart⟩
  | append_singleton is i ih =>
    obtain ⟨u, hrun, hrel⟩ := ih fun xs i' s' hxs => hstep xs i' s' (hxs.trans (List.prefix_append _ _))
    obtain ⟨v, hlast, hrel'⟩ := hstep is i u (List.prefix_refl _) hrel
    refine ⟨v, ?_, ?_⟩
    · rw [runE_append, hrun, run_append, run_singleton]
      simp only [bind, Except.bind, runE, hlast, pure, Except.pure, List.append_nil]
    · rwa [run_append, run_singleton]

end

end GrSatellites.Transducer
