import GrSatellites.Basic
import GrSatellites.Library.BitStruct

/-!
# The ESEO line decoder

The block of `python/eseo_line_decoder.py`: zeros stuffed by the transmitter are removed
from the bits of a PDU, then the bits are descrambled, NRZI-decoded and reflected byte
by byte.
-/

namespace GrSatellites.Eseo

open Bits

variable {M : Type}

/-- `reflect_bytes`: the rows of eight bits, each one flipped. -/
def reflectBytes (x : List Bool) : List Bool :=
  (List.range (x.length / 8)).flatMap fun i => ((x.drop (8 * i)).take 8).reverse

/-- The loop of `destuff`, with the variables `run` and `y`. -/
def destuffLoop : ℕ → List Bool → List Bool → Option (List Bool)
  | _, y, [] => some y
  | run, y, bit :: x =>
    if run = 5 then
      -- an unexpected long run of ones
      if bit then none else destuffLoop 0 y x
    else if bit then destuffLoop (run + 1) (y ++ [bit]) x
    else destuffLoop 0 (y ++ [bit]) x

/-- `destuff`. -/
def destuff (x : List Bool) : Option (List Bool) := destuffLoop 0 [] x

/-- `descramble`: the exclusive or of `y[:-17]`, `y[5:-12]` and `y[17:]`. -/
def descramble (x : List Bool) : List Bool :=
  let y := List.replicate 17 false ++ x
  List.zipWith xor (List.zipWith xor (y.take (y.length - 17)) ((y.take (y.length - 12)).drop 5))
    (y.drop 17)

/-- `nrzi_decode`. -/
def nrziDecode (x : List Bool) : List Bool :=
  (List.zipWith xor x (false :: x.dropLast)).map (xor · true)

/-- The bytes that `handle_msg` makes of the bytes of a PDU, if any. -/
def decodeLine (packet : List Byte) : Option (List Byte) := do
  let bits ← destuff (unpackMsb packet)
  let bits := reflectBytes (nrziDecode (descramble bits))
  let cutbits := bits.length % 8
  let bits := if cutbits ≠ 0 then bits.take (bits.length - cutbits) else bits
  return packMsb bits

/-- `eseo_line_decoder.handle_msg`: what is published. -/
def handleMsg : Msg M → List (Pdu M)
  | .other _ => []
  | .u8vector pdu =>
    match decodeLine pdu.cdr with
    | none => []
    | some packet => [⟨pdu.car, packet⟩]

end GrSatellites.Eseo
