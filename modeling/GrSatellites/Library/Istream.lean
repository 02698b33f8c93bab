import Mathlib.Data.List.TakeWhile
import Mathlib.Data.Nat.Notation

/-!
# Numbers from input streams

The extraction of a number from a stream of characters, as the operator `>>` of the standard
library does it: blanks are skipped, then the characters that a number can have are converted. A
variable keeps its value if nothing is left after the blanks, so it may stay indeterminate.
-/

namespace GrSatellites.Istream

variable {α : Type}

/-- The characters that are left, and two bits of the state of a stream. -/
structure Stream where
  rest : List Char
  eofbit : Bool
  failbit : Bool
  deriving DecidableEq

/-- A stream that has been opened. -/
def Stream.open (text : List Char) : Stream := ⟨text, false, false⟩

/-- `good`. -/
def Stream.good (s : Stream) : Bool := !s.eofbit && !s.failbit

/-- `isspace`. -/
def isSpace (c : Char) : Bool :=
  c == ' ' || c == '\t' || c == '\n' || c == '\x0b' || c == '\x0c' || c == '\r'

/-- The characters that are accumulated for a number. -/
def isAtom (c : Char) : Bool := "0123456789abcdefxABCDEFX+-.".toList.contains c

/-- The extraction of a number into a variable. -/
def extract (strtod : List Char → Option α) (zero : α) (s : Stream) (x : Option α) :
    Stream × Option α :=
  if s.good then
    let rest := s.rest.dropWhile isSpace
    if rest = [] then (⟨[], true, true⟩, x)
    else
      let left := rest.dropWhile isAtom
      match strtod (rest.takeWhile isAtom) with
      | some value => (⟨left, left.isEmpty, false⟩, some value)
      | none => (⟨left, left.isEmpty, true⟩, some zero)
  else ({ s with failbit := true }, x)

/-- A text that a number can be read from, with its value. -/
structure Numeral (strtod : List Char → Option α) where
  text : List Char
  value : α
  ne_nil : text ≠ []
  atoms : ∀ c ∈ text, isAtom c = true
  strtod_eq : strtod text = some value

variable {strtod : List Char → Option α} {zero : α} {blank rest : List Char}

theorem isSpace_of_isAtom {c : Char} (h : isAtom c = true) : isSpace c = false := by
  have hall : ("0123456789abcdefxABCDEFX+-.".toList.all fun c => isSpace c == false) = true := by
    decide
  exact eq_of_beq (List.all_eq_true.mp hall c (List.contains_iff_mem.mp h))

/-- What comes after a number does not go on with it. -/
def Stops (rest : List Char) : Prop := ∀ c ∈ rest.head?, isAtom c = false

theorem stops_of_spaces (h : ∀ c ∈ rest, isSpace c = true) : Stops rest := by
  intro c hc
  by_contra hatom
  have hspace := h c (List.mem_of_mem_head? hc)
  rw [isSpace_of_isAtom (Bool.not_eq_false _ ▸ hatom)] at hspace
  cases hspace

theorem takeWhile_of_stops {p : Char → Bool} (h : ∀ c ∈ rest.head?, p c = false) :
    rest.takeWhile p = [] := by
  cases rest with
  | nil => rfl
  | cons c rest => rw [List.takeWhile_cons, h c rfl, if_neg Bool.false_ne_true]

theorem dropWhile_of_stops {p : Char → Bool} (h : ∀ c ∈ rest.head?, p c = false) :
    rest.dropWhile p = rest := by
  cases rest with
  | nil => rfl
  | cons c rest => rw [List.dropWhile_cons, h c rfl, if_neg Bool.false_ne_true]

/-- A number that comes after blanks is extracted. -/
theorem extract_numeral (number : Numeral strtod) (hblank : ∀ c ∈ blank, isSpace c = true)
    (hrest : Stops rest) (x : Option α) :
    extract strtod zero (.open (blank ++ (number.text ++ rest))) x =
      (⟨rest, rest.isEmpty, false⟩, some number.value) := by
  have hskip : (blank ++ (number.text ++ rest)).dropWhile isSpace = number.text ++ rest := by
    rw [List.dropWhile_append_of_pos hblank]
    obtain ⟨c, text, htext⟩ := List.exists_cons_of_ne_nil number.ne_nil
    refine dropWhile_of_stops fun d hd => ?_
    rw [htext, List.cons_append, List.head?_cons, Option.mem_some_iff] at hd
    exact isSpace_of_isAtom (number.atoms d (hd ▸ htext ▸ List.mem_cons_self))
  have htake : (number.text ++ rest).takeWhile isAtom = number.text := by
    rw [List.takeWhile_append_of_pos number.atoms, takeWhile_of_stops hrest, List.append_nil]
  have hdrop : (number.text ++ rest).dropWhile isAtom = rest := by
    rw [List.dropWhile_append_of_pos number.atoms, dropWhile_of_stops hrest]
  have hne : number.text ++ rest ≠ [] := List.append_ne_nil_of_left_ne_nil number.ne_nil rest
  have hgood : (Stream.open (blank ++ (number.text ++ rest))).good = true := rfl
  rw [extract, if_pos hgood]
  simp only [Stream.open, hskip, if_neg hne, htake, hdrop, number.strtod_eq]

/-- Nothing is extracted from blanks. -/
theorem extract_spaces (hrest : ∀ c ∈ rest, isSpace c = true) (x : Option α) :
    extract strtod zero (.open rest) x = (⟨[], true, true⟩, x) := by
  have hskip : rest.dropWhile isSpace = [] := List.dropWhile_eq_nil_iff.mpr hrest
  have hgood : (Stream.open rest).good = true := rfl
  rw [extract, if_pos hgood]
  simp only [Stream.open, hskip, if_true]

/-- Nothing is extracted from a stream that is not good. -/
theorem extract_of_eofbit {s : Stream} (h : s.eofbit = true) (x : Option α) :
    extract strtod zero s x = ({ s with failbit := true }, x) := by
  have hgood : ¬ s.good = true := by
    rw [Stream.good, h]
    exact Bool.false_ne_true
  rw [extract, if_neg hgood]

end GrSatellites.Istream
