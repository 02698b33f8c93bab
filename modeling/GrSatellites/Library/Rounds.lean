import Mathlib.Data.Nat.Notation

/-!
# Loops that end in some round

A loop goes through rounds until one of them has a result. It need not end, so what it returns is
a relation between the state in which it starts and the result.
-/

namespace GrSatellites.Rounds

variable {σ ρ : Type} (round : σ → ρ ⊕ σ)

/-- The first rounds of a loop, with the result if one of them has it. -/
def rounds : ℕ → σ → Option ρ
  | 0, _ => none
  | n + 1, s =>
    match round s with
    | .inl result => some result
    | .inr next => rounds n next

/-- The loop ends with a result. -/
def Ends (s : σ) (result : ρ) : Prop := ∃ n, rounds round n s = some result

variable {round} {s next : σ} {result result' : ρ}

/-- A round with a result is the last one. -/
theorem ends_iff_of_inl (h : round s = .inl result) : Ends round s result' ↔ result' = result := by
  constructor
  · rintro ⟨n, hn⟩
    cases n with
    | zero => cases hn
    | succ n =>
      rw [rounds, h] at hn
      exact (Option.some.inj hn).symm
  · rintro rfl
    exact ⟨1, by rw [rounds, h]⟩

/-- After another round the loop goes on. -/
theorem ends_iff_of_inr (h : round s = .inr next) : Ends round s result ↔ Ends round next result := by
  constructor
  · rintro ⟨n, hn⟩
    cases n with
    | zero => cases hn
    | succ n =>
      rw [rounds, h] at hn
      exact ⟨n, hn⟩
  · rintro ⟨n, hn⟩
    refine ⟨n + 1, ?_⟩
    rw [rounds, h]
    exact hn

end GrSatellites.Rounds
