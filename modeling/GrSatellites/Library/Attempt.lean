import Mathlib.Data.List.Forall2

/-!
# Programs that succeed

What it means for the steps of a program with exceptions that the whole program succeeds.
-/

namespace GrSatellites.Attempt

variable {ε α β : Type}

/-- The program returns. -/
def Succeeds (x : Except ε α) : Prop := ∃ a, x = .ok a

/-- A check that has to hold, or else an exception is raised. -/
def require (holds : Except ε Bool) (e : ε) : Except ε Unit := do
  if ← holds then return else throw e

@[simp] theorem succeeds_ok (a : α) : Succeeds (.ok a : Except ε α) := ⟨a, rfl⟩

@[simp] theorem succeeds_pure (a : α) : Succeeds (pure a : Except ε α) := ⟨a, rfl⟩

@[simp] theorem not_succeeds_error (e : ε) : ¬Succeeds (.error e : Except ε α) := by
  rintro ⟨a, ha⟩
  cases ha

theorem succeeds_of_toBool {x : Except ε α} (h : x.toBool = true) : Succeeds x := by
  cases x with
  | error e => cases h
  | ok a => exact succeeds_ok a

theorem eq_ok_of_toBool {x : Except ε Unit} (h : x.toBool = true) : x = .ok () := by
  obtain ⟨⟨⟩, hx⟩ := succeeds_of_toBool h
  exact hx

theorem bind_of_ok (a : α) (f : α → Except ε β) : (Except.ok a >>= f) = f a := rfl

theorem bind_of_error (e : ε) (f : α → Except ε β) : (Except.error e >>= f) = .error e := rfl

theorem bind_eq_ok {x : Except ε α} {f : α → Except ε β} {b : β} :
    x >>= f = .ok b ↔ ∃ a, x = .ok a ∧ f a = .ok b := by
  cases x with
  | error e => simp [bind, Except.bind]
  | ok a => simp [bind, Except.bind]

/-- A step with no result comes first. -/
theorem andThen_eq_ok {x : Except ε Unit} {f : Unit → Except ε β} {b : β} :
    x >>= f = .ok b ↔ x = .ok () ∧ f () = .ok b := by
  rw [bind_eq_ok]
  constructor
  · rintro ⟨⟨⟩, hx, hf⟩
    exact ⟨hx, hf⟩
  · exact fun h => ⟨(), h⟩

/-- Two steps succeed if the first does and the second does with its result. -/
theorem succeeds_bind {x : Except ε α} {f : α → Except ε β} :
    Succeeds (x >>= f) ↔ ∃ a, x = .ok a ∧ Succeeds (f a) := by
  cases x with
  | error e => simp [Succeeds, bind, Except.bind]
  | ok a => simp [Succeeds, bind, Except.bind]

/-- What is made of a result does not matter. -/
theorem succeeds_bind_pure {x : Except ε α} {f : α → β} :
    Succeeds (x >>= fun a => pure (f a)) ↔ Succeeds x := by
  rw [succeeds_bind]
  exact exists_congr fun a => and_iff_left (succeeds_pure _)

theorem require_eq_ok {holds : Except ε Bool} {e : ε} :
    require holds e = .ok () ↔ holds = .ok true := by
  rw [require, bind_eq_ok]
  constructor
  · rintro ⟨b, hb, hif⟩
    cases b with
    | false => cases hif
    | true => exact hb
  · intro hb
    exact ⟨true, hb, rfl⟩

theorem forM_eq_ok {xs : List α} {f : α → Except ε Unit} :
    xs.forM f = .ok () ↔ ∀ x ∈ xs, f x = .ok () := by
  induction xs with
  | nil => simp [pure, Except.pure]
  | cons x xs ih =>
    rw [List.forM_eq_forM, List.forM_cons, andThen_eq_ok, List.forall_mem_cons, ← ih]
    rfl

/-- A loop that collects results succeeds if each round does. -/
theorem succeeds_mapM {xs : List α} {f : α → Except ε β} :
    Succeeds (xs.mapM f) ↔ ∀ x ∈ xs, Succeeds (f x) := by
  induction xs with
  | nil => simp
  | cons x xs ih =>
    rw [List.mapM_cons, succeeds_bind, List.forall_mem_cons]
    constructor
    · rintro ⟨b, hx, hrest⟩
      exact ⟨⟨b, hx⟩, ih.mp (succeeds_bind_pure.mp hrest)⟩
    · rintro ⟨⟨b, hx⟩, hxs⟩
      exact ⟨b, hx, succeeds_bind_pure.mpr (ih.mpr hxs)⟩

/-- A loop that collects results returns one for each round. -/
theorem mapM_eq_ok {xs : List α} {f : α → Except ε β} {ys : List β} :
    xs.mapM f = .ok ys ↔ List.Forall₂ (fun x y => f x = .ok y) xs ys := by
  induction xs generalizing ys with
  | nil => simp [pure, Except.pure, eq_comm]
  | cons x xs ih =>
    simp only [List.mapM_cons, bind_eq_ok, ih, List.forall₂_cons_left_iff]
    constructor
    · rintro ⟨y, hy, ys', hys, hlist⟩
      exact ⟨y, ys', hy, hys, (Except.ok.inj hlist).symm⟩
    · rintro ⟨y, ys', hy, hys, rfl⟩
      exact ⟨y, hy, ys', hys, rfl⟩

/-- A loop returns what another one does, if each round does. -/
theorem mapM_eq_ok_of_forall {xs : List α} {f g : α → Except ε β} {ys : List β}
    (h : xs.mapM f = .ok ys) (hround : ∀ x ∈ xs, ∀ y, f x = .ok y → g x = .ok y) :
    xs.mapM g = .ok ys := by
  rw [mapM_eq_ok] at h ⊢
  induction h with
  | nil => exact .nil
  | cons hx _ ih =>
    obtain ⟨hfirst, hrest⟩ := List.forall_mem_cons.mp hround
    exact .cons (hfirst _ hx) (ih hrest)

/-! ## What raises -/

/-- An exception of two steps is one of the first, or one of the second after the first. -/
theorem bind_eq_error {x : Except ε α} {f : α → Except ε β} {e : ε} :
    x >>= f = .error e ↔ x = .error e ∨ ∃ a, x = .ok a ∧ f a = .error e := by
  cases x with
  | error e' => simp [bind, Except.bind]
  | ok a => simp [bind, Except.bind]

/-- Making something of a result raises nothing. -/
theorem map_eq_error {x : Except ε α} {f : α → β} {e : ε} :
    f <$> x = .error e ↔ x = .error e := by
  cases x <;> simp [Functor.map, Except.map]

/-- A loop that collects results raises in its first round that does. -/
theorem mapM_eq_error {xs : List α} {f : α → Except ε β} {e : ε} :
    xs.mapM f = .error e ↔
      ∃ done x rest, xs = done ++ x :: rest ∧ Succeeds (done.mapM f) ∧ f x = .error e := by
  induction xs with
  | nil => simp [pure, Except.pure]
  | cons x xs ih =>
    rw [List.mapM_cons, bind_eq_error]
    constructor
    · rintro (hx | ⟨y, hy, hrest⟩)
      · exact ⟨[], x, xs, rfl, by simp, hx⟩
      · rcases bind_eq_error.mp hrest with hxs | ⟨ys, -, hpure⟩
        · obtain ⟨done, z, rest, rfl, hdone, hz⟩ := ih.mp hxs
          refine ⟨x :: done, z, rest, rfl, ?_, hz⟩
          rw [succeeds_mapM] at hdone ⊢
          exact List.forall_mem_cons.mpr ⟨⟨y, hy⟩, hdone⟩
        · cases hpure
    · rintro ⟨done, z, rest, heq, hdone, hz⟩
      cases done with
      | nil =>
        cases heq
        exact Or.inl hz
      | cons w done =>
        obtain ⟨rfl, rfl⟩ := List.cons.inj heq
        obtain ⟨⟨y, hy⟩, hdone⟩ := List.forall_mem_cons.mp (succeeds_mapM.mp hdone)
        refine Or.inr ⟨y, hy, bind_eq_error.mpr (Or.inl ?_)⟩
        exact ih.mpr ⟨done, z, rest, rfl, succeeds_mapM.mpr hdone, hz⟩

end GrSatellites.Attempt
