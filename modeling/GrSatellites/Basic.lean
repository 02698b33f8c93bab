import Mathlib

/-!
# Bytes, messages and errors

The values that the blocks of the repository exchange: bytes, 64-bit words, PDUs
(a metadata part and a byte vector) and messages that may carry something else.
-/

namespace GrSatellites

/-- `uint8_t`. -/
abbrev Byte := BitVec 8

/-- `uint64_t`. -/
abbrev Word := BitVec 64

/-- How a C++ function can fail to return: an exception, or an access past the end of
a vector, after which the language defines nothing. -/
inductive CxxError where
  | runtimeError (what : String)
  | lengthError (what : String)
  | wrongType
  | outOfRange
  deriving DecidableEq, Repr

@[simp] theorem ok_bind {α β : Type} (a : α) (f : α → Except CxxError β) :
    (Except.ok a >>= f) = f a := rfl

/-- A PDU: the `car` of the pair is the metadata, the `cdr` a vector of bytes. -/
structure Pdu (M : Type) where
  car : M
  cdr : List Byte
  deriving DecidableEq, Repr

/-- A message on a PDU port. A handler that expects bytes tests with
`pmt.is_u8vector` whether the `cdr` is a byte vector. -/
inductive Msg (M : Type) where
  | u8vector (pdu : Pdu M)
  | other (car : M)

end GrSatellites
