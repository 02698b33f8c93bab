import GrSatellites.Kiss.RoundTrip

/-!
# KISS after garbage

A FEND drops the packet that was collected, but an escape that was open stays open over it. The
packets that follow are decoded as from the start when no escape was open.
-/

namespace GrSatellites.Kiss

open Transducer

variable {controlByte : Bool}

/-- Frames that follow a FEND: each is closed by one of its own. An empty frame is a FEND more. -/
def frames (bodies : List (List Byte)) : List Byte := bodies.flatMap fun body => kissEscape body ++ [fend]

/-- An escape is open: the bytes that are not FENDs end in an odd number of FESCs. -/
def escapeOpen (garbage : List Byte) : Bool :=
  ((garbage.filter (· ≠ fend)).reverse.takeWhile (· = fesc)).length % 2 = 1

theorem escapeOpen_fend (garbage : List Byte) :
    escapeOpen (garbage ++ [fend]) = escapeOpen garbage := by
  rw [escapeOpen, List.filter_append, List.filter_singleton]
  simp [escapeOpen]

theorem escapeOpen_of_ne {garbage : List Byte} {c : Byte} (hc : c ≠ fend) :
    escapeOpen (garbage ++ [c]) = (decide (c = fesc) && !escapeOpen garbage) := by
  rw [escapeOpen, List.filter_append, List.filter_singleton, decide_eq_true hc, cond_true,
    List.reverse_append, List.reverse_singleton, List.singleton_append, List.takeWhile_cons]
  by_cases hfesc : c = fesc
  · rw [if_pos (decide_eq_true hfesc), List.length_cons, decide_eq_true hfesc, Bool.true_and,
      escapeOpen, ← decide_not, decide_eq_decide]
    omega
  · simp [hfesc]

/-- **Open escapes.** The flag after some bytes. -/
theorem transpose_run (controlByte : Bool) (garbage : List Byte) :
    (run (kissToPdu controlByte) .init garbage).1.transpose = escapeOpen garbage := by
  induction garbage using List.reverseRecOn with
  | nil => rfl
  | append_singleton garbage c ih =>
    rw [run_append, run_singleton]
    by_cases hfend : c = fend
    · rw [hfend, escapeOpen_fend, ← ih]
      rfl
    · rw [escapeOpen_of_ne hfend, ← ih]
      simp only [kissToPdu, if_neg hfend]
      cases htranspose : (run (kissToPdu controlByte) .init garbage).1.transpose
      · by_cases hfesc : c = fesc <;> simp [hfesc]
      · rw [if_pos rfl]
        split_ifs <;> simp

/-- A FEND leaves nothing but the flag. -/
theorem state_after_fend (garbage : List Byte) :
    (run (kissToPdu controlByte) .init (garbage ++ [fend])).1 = ⟨[], escapeOpen garbage⟩ := by
  rw [run_append, run_singleton, ← transpose_run controlByte garbage]
  rfl

/-- The decoder comes back after garbage: what follows a FEND is decoded as from the start,
over all cuts into calls. -/
def Resynchronises (controlByte : Bool) (garbage : List Byte) : Prop :=
  ∀ (bodies : List (List Byte)) (chunks : List (List Byte)),
    chunks.flatten = garbage ++ [fend] ++ frames bodies →
      (run (run (kissToPdu controlByte)) .init chunks).2 =
        (run (kissToPdu controlByte) .init (garbage ++ [fend])).2 ++
          (run (kissToPdu controlByte) .init (frames bodies)).2

/-- **Resynchronisation.** The decoder comes back after garbage exactly when no escape is open. -/
theorem resynchronises_iff (controlByte : Bool) (garbage : List Byte) :
    Resynchronises controlByte garbage ↔ escapeOpen garbage = false := by
  have hrun (bodies : List (List Byte)) :
      (run (kissToPdu controlByte) .init (garbage ++ [fend] ++ frames bodies)).2 =
        (run (kissToPdu controlByte) .init (garbage ++ [fend])).2 ++
          (run (kissToPdu controlByte) ⟨[], escapeOpen garbage⟩ (frames bodies)).2 := by
    rw [run_append, state_after_fend]
  constructor
  · intro h
    have htwo := h [[0, 1]] [garbage ++ [fend] ++ frames [[0, 1]]] List.flatten_singleton
    rw [run_singleton, hrun, List.append_cancel_left_eq] at htwo
    by_contra hopen
    rw [Bool.not_eq_false] at hopen
    rw [hopen] at htwo
    -- with an open escape the first byte is lost
    cases controlByte <;> cases htwo
  · intro hclosed bodies chunks hchunks
    rw [run_chunks, hchunks, hrun, hclosed]
    rfl

/-- Garbage that ends in a FESC: the byte after the FEND is lost. -/
theorem not_resynchronises_fesc : ¬ ∀ controlByte garbage, Resynchronises controlByte garbage := by
  intro h
  have hlost := h true [fesc] [[0, 1]] [[fesc, fend] ++ frames [[0, 1]]] rfl
  cases hlost

end GrSatellites.Kiss
