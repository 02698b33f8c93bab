import GrSatellites.Basic

/-!
# The table-driven CRC

The class `crc` of `lib/crc.cc`. Words are 64 bits wide and unsigned. A shift by 64
or more is undefined in the source, so the shifts here take their amount from
`Fin 64`, and the accepted widths carry the bounds that put every amount in range.
-/

namespace GrSatellites

/-- A number of CRC bits that the constructor accepts. -/
structure Width where
  bits : ℕ
  ge : 8 ≤ bits
  le : bits ≤ 64

theorem Width.pred_lt (w : Width) : w.bits - 1 < 64 := by
  have := w.le
  omega

/-- Lets a literal stand for a shift amount. -/
instance neZeroWordBits : NeZero (64 : ℕ) := ⟨by decide⟩

/-- `word << k`, defined for amounts below 64 only. -/
def shl (word : Word) (k : Fin 64) : Word := word <<< k.val

/-- `word >> k`, defined for amounts below 64 only. -/
def shr (word : Word) (k : Fin 64) : Word := word >>> k.val

/-- The 256 entries of `d_table`. -/
abbrev CrcTable := Vector Word 256

/-- `d_table[j]`. -/
def CrcTable.entry (table : CrcTable) (j : ℕ) : Word := table[j]?.getD 0

/-- The members of the class `crc`, in the order of the header. -/
structure Crc where
  table : CrcTable
  numBits : Width
  mask : Word
  initialValue : Word
  finalXor : Word
  inputReflected : Bool
  resultReflected : Bool

namespace Crc

/-- The initialiser of `d_mask`. -/
def maskOf (w : Width) : Word :=
  if h : w.bits = 64 then ~~~(0 : Word)
  else shl 1 ⟨w.bits, by have := w.le; omega⟩ - 1

/-- The loop of `crc::reflect` with the given number of rounds left. -/
def reflectLoop : ℕ → Word → Word → Word
  | 0, _, ret => ret
  | rounds + 1, word, ret => reflectLoop rounds (shr word 1) (shl ret 1 ||| (shr word 1 &&& 1))

/-- `crc::reflect`. -/
def reflect (w : Width) (word : Word) : Word := reflectLoop (w.bits - 1) word (word &&& 1)

/-- The inner loop of both table constructions: entry `i + j` is set from entry `j`
for the listed values of `j` in turn. -/
def fill (mask crc : Word) (i : ℕ) (js : List ℕ) (table : CrcTable) : CrcTable :=
  js.foldl (fun t j => t.setIfInBounds (i + j) ((crc ^^^ t.entry j) &&& mask)) table

/-- The `do ... while (i > 0)` loop of the constructor for reflected input. The
fuel bounds the number of rounds; `i` halves in each. -/
def reflectedLoop (mask poly : Word) : ℕ → ℕ → Word → CrcTable → CrcTable
  | 0, _, _, table => table
  | fuel + 1, i, crc, table =>
    let crc := if crc &&& 1 ≠ 0 then shr crc 1 ^^^ poly else shr crc 1
    let table := fill mask crc i (List.range' 0 ((256 + (2 * i - 1)) / (2 * i)) (2 * i)) table
    if 0 < i / 2 then reflectedLoop mask poly fuel (i / 2) crc table else table

/-- The `do ... while (i < 256)` loop of the constructor for input that is not
reflected; `i` doubles in each round. -/
def directLoop (mask poly msb : Word) : ℕ → ℕ → Word → CrcTable → CrcTable
  | 0, _, _, table => table
  | fuel + 1, i, crc, table =>
    let crc := if crc &&& msb ≠ 0 then shl crc 1 ^^^ poly else shl crc 1
    let table := fill mask crc i (List.range i) table
    if i * 2 < 256 then directLoop mask poly msb fuel (i * 2) crc table else table

/-- The table that the constructor builds. -/
def buildTable (w : Width) (poly : Word) (inputReflected : Bool) : CrcTable :=
  if inputReflected then
    reflectedLoop (maskOf w) (reflect w poly) 8 128 1 (Vector.replicate 256 0)
  else
    let msb := shl 1 ⟨w.bits - 1, w.pred_lt⟩
    directLoop (maskOf w) poly msb 8 1 msb (Vector.replicate 256 0)

/-- The object that the constructor leaves for a width that it accepts. -/
def ofWidth (w : Width) (poly initialValue finalXor : Word)
    (inputReflected resultReflected : Bool) : Crc where
  table := buildTable w poly inputReflected
  numBits := w
  mask := maskOf w
  initialValue := initialValue &&& maskOf w
  finalXor := finalXor &&& maskOf w
  inputReflected := inputReflected
  resultReflected := resultReflected

/-- The constructor `crc::crc`. -/
def crc (numBits : ℕ) (poly initialValue finalXor : Word)
    (inputReflected resultReflected : Bool) : Except CxxError Crc :=
  if h : numBits < 8 ∨ 64 < numBits then
    .error (.runtimeError "CRC number of bits must be between 8 and 64")
  else
    .ok (ofWidth ⟨numBits, by omega, by omega⟩ poly initialValue finalXor
      inputReflected resultReflected)

theorem numBits_of_crc {numBits : ℕ} {poly initialValue finalXor : Word}
    {inputReflected resultReflected : Bool} {c : Crc}
    (h : crc numBits poly initialValue finalXor inputReflected resultReflected = .ok c) :
    c.numBits.bits = numBits := by
  unfold crc at h
  split at h
  · cases h
  · rw [← Except.ok.inj h, ofWidth]

/-- One round of the loop of `compute` for reflected input. -/
def updateReflected (c : Crc) (rem : Word) (byte : Byte) : Word :=
  let idx : Byte := ((rem ^^^ byte.setWidth 64) &&& 0xff).setWidth 8
  c.table.entry idx.toNat ^^^ shr rem 8

/-- One round of the loop of `compute` for input that is not reflected. -/
def updateDirect (c : Crc) (rem : Word) (byte : Byte) : Word :=
  let top := shr rem ⟨c.numBits.bits - 8, by have := c.numBits.le; omega⟩
  let idx : Byte := ((top ^^^ byte.setWidth 64) &&& 0xff).setWidth 8
  (c.table.entry idx.toNat ^^^ shl rem 8) &&& c.mask

/-- `crc::compute`. -/
def compute (c : Crc) (data : List Byte) : Word :=
  let rem :=
    if c.inputReflected then data.foldl c.updateReflected c.initialValue
    else data.foldl c.updateDirect c.initialValue
  let rem := if c.inputReflected ≠ c.resultReflected then reflect c.numBits rem else rem
  rem ^^^ c.finalXor

end Crc

end GrSatellites
