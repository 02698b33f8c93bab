import Mathlib

/-!
# YAML documents in Python

The values that a YAML document is loaded to, with the operators by which a Python program
looks something up in them. A lookup in a value of another kind is an error.
-/

namespace GrSatellites.Yaml

/-- A value that is not made of others. -/
inductive Scalar where
  | null
  | bool (b : Bool)
  | int (n : ℤ)
  | float (x : ℚ)
  | str (s : String)
  deriving DecidableEq

/-- A value of a document: a scalar, a list or a dictionary. -/
inductive Value where
  | scalar (x : Scalar)
  | seq (items : List Value)
  | map (entries : List (Scalar × Value))

/-- A Python exception: a lookup that fails, or one that is raised with a message and the values
that are put into it. -/
inductive PyError where
  | keyError (key : Scalar)
  | typeError
  | attributeError (name : String)
  | raised (message : String) (values : List Value)

/-- The number that a scalar is equal to. -/
def Scalar.number? : Scalar → Option ℚ
  | .bool b => some (if b then 1 else 0)
  | .int n => some n
  | .float x => some x
  | _ => none

/-- `x == y` for scalars, among which numbers and truth values are equal by their value. -/
def Scalar.same (x y : Scalar) : Bool :=
  match x.number?, y.number? with
  | some a, some b => a = b
  | none, none => x = y
  | _, _ => false

namespace Value

/-- A string. -/
def str (s : String) : Value := .scalar (.str s)

/-- The entry of a dictionary for a key. -/
def lookup {α : Type} (entries : List (Scalar × α)) (key : Scalar) : Option α :=
  (entries.find? fun entry => entry.1.same key).map Prod.snd

mutual

/-- `x == y`. -/
def same : Value → Value → Bool
  | .scalar x, y => match y with
    | .scalar y => x.same y
    | _ => false
  | .seq xs, y => match y with
    | .seq ys => sameItems xs ys
    | _ => false
  | .map xs, y => match y with
    | .map ys => xs.length == ys.length && sameEntries xs ys
    | _ => false

/-- Lists are equal item by item. -/
def sameItems : List Value → List Value → Bool
  | [], ys => ys.isEmpty
  | x :: xs, ys => match ys with
    | [] => false
    | y :: ys => same x y && sameItems xs ys

/-- Dictionaries are equal if the entries of one are those of the other. -/
def sameEntries : List (Scalar × Value) → List (Scalar × Value) → Bool
  | [], _ => true
  | entry :: xs, ys => sameEntry entry ys && sameEntries xs ys

def sameEntry : Scalar × Value → List (Scalar × Value) → Bool
  | (key, x), ys => match lookup ys key with
    | some y => same x y
    | none => false

end

/-- A list of strings. -/
def strings (words : List String) : Value := .seq (words.map str)

/-- `key in c` for a dictionary. -/
def hasKey {α : Type} (entries : List (Scalar × α)) (key : Value) : Except PyError Bool :=
  match key with
  | .scalar key => .ok (lookup entries key).isSome
  | _ => .error .typeError

/-- `x in c`. -/
def contains (c x : Value) : Except PyError Bool :=
  match c with
  | .map entries => hasKey entries x
  | .seq items => .ok (items.any fun item => item.same x)
  | .scalar (.str s) => match x with
    | .scalar (.str t) => .ok (t.toList <:+: s.toList)
    | _ => .error .typeError
  | _ => .error .typeError

/-- `c[key]` in a dictionary. -/
def getKey {α : Type} (entries : List (Scalar × α)) (key : Value) : Except PyError α :=
  match key with
  | .scalar key => match lookup entries key with
    | some x => .ok x
    | none => .error (.keyError key)
  | _ => .error .typeError

/-- `c[key]`, for a key that is a string. -/
def item (c : Value) (key : String) : Except PyError Value :=
  match c with
  | .map entries => getKey entries (str key)
  | _ => .error .typeError

/-- `for x in c`. -/
def iterate : Value → Except PyError (List Value)
  | .map entries => .ok (entries.map fun entry => .scalar entry.1)
  | .seq items => .ok items
  | .scalar (.str s) => .ok (s.toList.map fun char => str (String.singleton char))
  | _ => .error .typeError

/-- `c.items()`. -/
def entries : Value → Except PyError (List (Scalar × Value))
  | .map entries => .ok entries
  | _ => .error (.attributeError "items")

/-- `c.get(key, [])`. -/
def getList (c : Value) (key : String) : Except PyError Value :=
  match c with
  | .map entries => .ok ((lookup entries (.str key)).getD (.seq []))
  | _ => .error (.attributeError "get")

/-- `x.startswith(start)`. -/
def startsWith (x : Value) (start : String) : Except PyError Bool :=
  match x with
  | .scalar (.str s) => .ok (start.toList <+: s.toList)
  | _ => .error (.attributeError "startswith")

/-- `type(x) is int`. -/
def isInt : Value → Bool
  | .scalar (.int _) => true
  | _ => false

/-- `isinstance(x, int)`, which holds for truth values too. -/
def isIntOrBool : Value → Bool
  | .scalar (.int _) => true
  | .scalar (.bool _) => true
  | _ => false

/-- `type(x) in [float, int]`. -/
def isNumber : Value → Bool
  | .scalar (.int _) => true
  | .scalar (.float _) => true
  | _ => false

/-- `isinstance(x, list)`. -/
def isList : Value → Bool
  | .seq _ => true
  | _ => false

/-! ## Fields of dictionaries -/

/-- The value of a field, if there is one. -/
def field? (d : Value) (key : String) : Option Value :=
  match d with
  | .map entries => lookup entries (.str key)
  | _ => none

variable {d v : Value} {key : String}

/-- Only a dictionary has fields to look up. -/
theorem item_eq_ok : d.item key = .ok v ↔ d.field? key = some v := by
  cases d with
  | map entries =>
    unfold item getKey str field?
    cases h : lookup entries (Scalar.str key) <;> simp [h]
  | scalar x => simp [item, field?]
  | seq items => simp [item, field?]

theorem exists_map_of_field? (h : d.field? key = some v) : ∃ fields, d = .map fields := by
  cases d with
  | map fields => exact ⟨fields, rfl⟩
  | scalar x => cases h
  | seq items => cases h

theorem contains_map {fields : List (Scalar × Value)} :
    (Value.map fields).contains (str key) = .ok ((Value.map fields).field? key).isSome := rfl

theorem entries_eq_ok {es : List (Scalar × Value)} : d.entries = .ok es ↔ d = .map es := by
  cases d with
  | map fields => simp [entries]
  | scalar x => simp [entries]
  | seq items => simp [entries]

/-- A value that is among some strings is one of them. -/
theorem contains_strings {words : List String} :
    (strings words).contains v = .ok true ↔ ∃ word ∈ words, v = str word := by
  have hsame (word : String) : (str word).same v = true ↔ v = str word := by
    cases v with
    | scalar x => cases x <;> simp [str, same, Scalar.same, Scalar.number?, eq_comm]
    | seq items => simp [str, same]
    | map fields => simp [str, same]
  rw [strings, contains]
  simp [hsame]

end Value

end GrSatellites.Yaml
