import Mathlib.Data.Nat.Notation

/-!
# Routines

A routine reads and changes a state and may raise an exception. What it did to the
state before an exception stays done.
-/

namespace GrSatellites

/-- An imperative program over states `σ` with exceptions `ε`. -/
abbrev Routine (ε σ α : Type) := ExceptT ε (StateM σ) α

namespace Routine

variable {ε σ α β : Type}

/-- Run a routine from a state. -/
def exec (x : Routine ε σ α) (s : σ) : Except ε α × σ := StateT.run (ExceptT.run x) s

@[simp] theorem exec_pure (a : α) (s : σ) : exec (pure a : Routine ε σ α) s = (.ok a, s) := rfl

@[simp] theorem exec_throw (e : ε) (s : σ) :
    exec (throw e : Routine ε σ α) s = (.error e, s) := rfl

theorem exec_bind (x : Routine ε σ α) (f : α → Routine ε σ β) (s : σ) :
    exec (x >>= f) s =
      match exec x s with
      | (.ok a, t) => exec (f a) t
      | (.error e, t) => (.error e, t) := by
  show StateT.run (ExceptT.run x >>= ExceptT.bindCont f) s = _
  rw [StateT.run_bind]
  rcases hx : StateT.run (ExceptT.run x) s with ⟨_ | _, t⟩ <;> simp only [exec, hx] <;> rfl

/-- A routine that returns hands its value and its state to what follows. -/
theorem exec_bind_ok {x : Routine ε σ α} {s t : σ} {a : α} (hx : exec x s = (.ok a, t))
    (f : α → Routine ε σ β) : exec (x >>= f) s = exec (f a) t := by
  rw [exec_bind, hx]

/-- An exception ends the routine. -/
theorem exec_bind_error {x : Routine ε σ α} {s t : σ} {e : ε} (hx : exec x s = (.error e, t))
    (f : α → Routine ε σ β) : exec (x >>= f) s = (.error e, t) := by
  rw [exec_bind, hx]

theorem exec_map (g : α → β) (x : Routine ε σ α) (s : σ) :
    exec (g <$> x) s =
      match exec x s with
      | (.ok a, t) => (.ok (g a), t)
      | (.error e, t) => (.error e, t) := by
  rw [← bind_pure_comp, exec_bind]
  rfl

/-- A handler goes on from the state that the exception leaves. -/
theorem exec_tryCatch (x : Routine ε σ α) (handler : ε → Routine ε σ α) (s : σ) :
    exec (tryCatch x handler) s =
      match exec x s with
      | (.ok a, t) => (.ok a, t)
      | (.error e, t) => exec (handler e) t := by
  show StateT.run (ExceptT.run (ExceptT.tryCatch x handler)) s = _
  unfold ExceptT.tryCatch
  rw [ExceptT.run_mk, StateT.run_bind, exec]
  change StateT.run (ExceptT.run x) s >>= _ = _
  rcases StateT.run (ExceptT.run x) s with ⟨_ | _, t⟩ <;> rfl

@[simp] theorem exec_pure_bind (a : α) (f : α → Routine ε σ β) (s : σ) :
    exec (pure a >>= f) s = exec (f a) s := exec_bind_ok (exec_pure a s) f

@[simp] theorem exec_get (s : σ) : exec (get : Routine ε σ σ) s = (.ok s, s) := rfl

@[simp] theorem exec_get_bind (f : σ → Routine ε σ β) (s : σ) :
    exec (get >>= f) s = exec (f s) s := exec_bind_ok (exec_get s) f

@[simp] theorem exec_modify (g : σ → σ) (s : σ) :
    exec (modify g : Routine ε σ PUnit) s = (.ok ⟨⟩, g s) := rfl

@[simp] theorem exec_modify_bind (g : σ → σ) (f : PUnit → Routine ε σ β) (s : σ) :
    exec (modify g >>= f) s = exec (f ⟨⟩) (g s) := exec_bind_ok (exec_modify g s) f

@[simp] theorem exec_throw_bind (e : ε) (f : α → Routine ε σ β) (s : σ) :
    exec (throw e >>= f) s = (.error e, s) := exec_bind_error (exec_throw e s) f

/-! ## Rules of pre- and postconditions -/

/-- If the routine returns from a state with the precondition, its value and the state that it
leaves have the postcondition. After an exception nothing is claimed. -/
def Ensures (pre : σ → Prop) (x : Routine ε σ α) (post : α → σ → Prop) : Prop :=
  ∀ s, pre s → ∀ a t, exec x s = (.ok a, t) → post a t

namespace Ensures

variable {pre : σ → Prop} {mid : α → σ → Prop} {post : β → σ → Prop} {x : Routine ε σ α}

theorem pure {a : α} (h : ∀ s, pre s → mid a s) :
    Ensures pre (pure a : Routine ε σ α) mid := by
  intro s hs b t hb
  cases hb
  exact h s hs

theorem throw {e : ε} : Ensures pre (throw e : Routine ε σ α) mid := by
  intro s _ a t ha
  cases ha

theorem bind {f : α → Routine ε σ β} (hx : Ensures pre x mid)
    (hf : ∀ a, Ensures (mid a) (f a) post) : Ensures pre (x >>= f) post := by
  intro s hs b u hb
  rw [exec_bind] at hb
  rcases hresult : exec x s with ⟨_ | a, t⟩
  · rw [hresult] at hb
    cases hb
  · rw [hresult] at hb
    exact hf a t (hx s hs a t hresult) b u hb

/-- Reading the state tells the rest of the routine what it is. -/
theorem get {f : σ → Routine ε σ β} (hf : ∀ s, pre s → Ensures (· = s) (f s) post) :
    Ensures pre (get >>= f) post := by
  intro s hs b t hb
  rw [exec_get_bind] at hb
  exact hf s hs s rfl b t hb

theorem modify {g : σ → σ} {result : PUnit → σ → Prop} (h : ∀ s, pre s → result ⟨⟩ (g s)) :
    Ensures pre (modify g : Routine ε σ PUnit) result := by
  intro s hs _ t hb
  cases hb
  exact h s hs

theorem mono {pre' : σ → Prop} (h : Ensures pre x mid) (hpre : ∀ s, pre' s → pre s) :
    Ensures pre' x mid := fun s hs => h s (hpre s hs)

/-- What each step of a loop keeps, the loop keeps. -/
theorem forM {inv : σ → Prop} {f : α → Routine ε σ PUnit} {xs : List α}
    (h : ∀ a ∈ xs, Ensures inv (f a) fun _ => inv) : Ensures inv (forM xs f) fun _ => inv := by
  induction xs with
  | nil => exact Ensures.pure fun _ hs => hs
  | cons a xs ih =>
    rw [List.forM_cons]
    exact Ensures.bind (h a List.mem_cons_self) fun _ =>
      ih fun b hb => h b (List.mem_cons_of_mem _ hb)

end Ensures

end Routine

end GrSatellites
