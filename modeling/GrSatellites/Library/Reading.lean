import Mathlib.Data.List.Forall2

/-!
# Readers

A reader takes symbols from the front of a list and returns a value, or fails. It reads a
value from some symbols if it does so whatever follows them.
-/

namespace GrSatellites.Reading

/-- A reader of symbols of type `τ` that fails with an `ε`. -/
abbrev Reader (τ ε : Type) := StateT (List τ) (Except ε)

variable {τ ε α β : Type}

/-- Take a number of symbols. -/
def take (n : ℕ) (e : ε) : Reader τ ε (List τ) := fun xs =>
  if xs.length < n then .error e else .ok (xs.take n, xs.drop n)

/-- The symbols hold the value, for this reader. -/
def Reads (p : Reader τ ε α) (xs : List τ) (a : α) : Prop :=
  ∀ rest, p.run (xs ++ rest) = .ok (a, rest)

theorem reads_pure (a : α) : Reads (pure a : Reader τ ε α) [] a := fun _ => rfl

theorem reads_take (xs : List τ) (e : ε) : Reads (take xs.length e) xs xs := by
  intro rest
  change take xs.length e (xs ++ rest) = _
  rw [take, if_neg (by rw [List.length_append]; omega), List.take_left, List.drop_left]

theorem run_bind_eq_ok {p : Reader τ ε α} {f : α → Reader τ ε β} {xs zs : List τ} {b : β} :
    (p >>= f).run xs = .ok (b, zs) ↔ ∃ a ys, p.run xs = .ok (a, ys) ∧ (f a).run ys = .ok (b, zs) := by
  rw [StateT.run_bind]
  cases p.run xs with
  | error e => simp [bind, Except.bind]
  | ok pair =>
    obtain ⟨a, ys⟩ := pair
    simp [bind, Except.bind]

/-- One reader after the other. -/
theorem Reads.bind {p : Reader τ ε α} {f : α → Reader τ ε β} {xs ys : List τ} {a : α} {b : β}
    (hp : Reads p xs a) (hf : Reads (f a) ys b) : Reads (p >>= f) (xs ++ ys) b := by
  intro rest
  rw [StateT.run_bind, List.append_assoc, hp]
  exact hf rest

/-- What is made of the value read. -/
theorem Reads.bind_pure {p : Reader τ ε α} {xs : List τ} {a : α} (hp : Reads p xs a) (f : α → β) :
    Reads (p >>= fun x => pure (f x)) xs (f a) := by
  simpa only [List.append_nil] using hp.bind (f := fun x => pure (f x)) (reads_pure (f a))

/-- A list of readers on the symbols of a list of values. -/
theorem reads_mapM {items : List β} {f : β → Reader τ ε α} {pieces : List (List τ × α)}
    (h : List.Forall₂ (fun item piece => Reads (f item) piece.1 piece.2) items pieces) :
    Reads (items.mapM f) (pieces.flatMap Prod.fst) (pieces.map Prod.snd) := by
  induction h with
  | nil => exact reads_pure []
  | @cons item piece items pieces hfirst _ ih =>
    rw [List.mapM_cons, List.flatMap_cons, List.map_cons]
    exact hfirst.bind (ih.bind_pure (fun values => piece.2 :: values))

end GrSatellites.Reading
