import GrSatellites.Library.Weight

/-!
# The Golay code

The encoder and the decoder of `lib/golay24.c` for the (24,12) code. A codeword has its
parity bits above the twelve bits of data.
-/

namespace GrSatellites.Golay24

open Weight

/-- `N`. -/
def n : ℕ := 12

/-- The matrix `H`. -/
def h : List (BitVec 32) :=
  [0x8008ed, 0x4001db, 0x2003b5, 0x100769, 0x80ed1, 0x40da3,
    0x20b47, 0x1068f, 0x8d1d, 0x4a3b, 0x2477, 0x1ffe]

/-- `B(i)`. -/
def b (i : ℕ) : BitVec 32 := h.getD i 0 &&& 0xfff

/-- `__builtin_parity`. -/
def parity (x : BitVec 32) : Bool := weight x % 2 == 1

/-- `s <<= 1; s |= bit`. -/
def shiftIn {w : ℕ} (s : BitVec w) (bit : Bool) : BitVec w :=
  s <<< 1 ||| (BitVec.ofBool bit).setWidth w

/-- The product of a matrix and a vector, as a loop computes it. -/
def product {w : ℕ} (rows : List (BitVec 32)) (r : BitVec 32) : BitVec w :=
  rows.foldl (fun s row => shiftIn s (parity (row &&& r))) 0

/-- `encode_golay24`. -/
def encodeGolay24 (data : BitVec 32) : BitVec 32 :=
  let r := data &&& 0xfff
  let s : BitVec 32 := product h r
  (0xfff &&& s) <<< n ||| r

/-- The loops of steps 3 and 6: the first row that is near. -/
def nearRow (s : BitVec 16) : Option ℕ :=
  (List.range n).find? fun i => weight (s.setWidth 32 ^^^ b i) ≤ 2

/-- Steps 2 to 7: the estimated error vector. -/
def errorVector (s : BitVec 16) : Option (BitVec 32) :=
  if weight s ≤ 3 then some (s.setWidth 32 <<< n)
  else
    match nearRow s with
    | some i => some ((s.setWidth 32 ^^^ b i) <<< n ||| 1 <<< (n - i - 1))
    | none =>
      let q : BitVec 16 := product ((List.range n).map b) (s.setWidth 32)
      if weight q ≤ 3 then some (q.setWidth 32)
      else
        match nearRow q with
        | some i => some (1 <<< (2 * n - i - 1) ||| (q.setWidth 32 ^^^ b i))
        | none => none

/-- `decode_golay24`: the corrected data and the number of errors, or nothing, and the data
is left as it is. -/
def decodeGolay24 (data : BitVec 32) : Option (BitVec 32 × ℕ) :=
  (errorVector (product h data)).map fun e => (data ^^^ e, weight e)

end GrSatellites.Golay24
