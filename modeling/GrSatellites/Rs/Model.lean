import GrSatellites.Basic
import GrSatellites.Library.Buffer
import GrSatellites.Library.Interleave

/-!
# Reed-Solomon frames

The blocks of `lib/encode_rs_impl.cc` and `lib/decode_rs_impl.cc`, for the CCSDS codes and for a
code of `init_rs_char`. A frame is made of interleaved paths, each one a codeword, with zeros
before it when the code is shortened. What the codec of libfec computes on the symbols of a
codeword is a parameter.
-/

namespace GrSatellites.Rs

open Buffer Interleave

/-- How the constructors and the methods of a block can fail to return. -/
inductive Failure where
  | runtimeError (what : String)
  | divisionByZero
  | outOfBounds
  deriving DecidableEq, Repr

/-! ## Configurations -/

/-- `d_ccsds_nn`. -/
def ccsdsNn : ℕ := 255

/-- `d_ccsds_nroots`. -/
def ccsdsNroots : ℕ := 32

/-- The code of a block. -/
inductive Config where
  | ccsds (dualBasis : Bool)
  | custom (symsize gfpoly fcr prim nroots : ℤ)

/-- The number of bits in a symbol. -/
def Config.symsize : Config → ℕ
  | .ccsds _ => 8
  | .custom symsize _ _ _ _ => symsize.toNat

/-- The size of `d_rs_codeword`. -/
def Config.nn : Config → ℕ
  | .ccsds _ => ccsdsNn
  | .custom symsize _ _ _ _ => 2 ^ symsize.toNat - 1

/-- `d_nroots`. -/
def Config.nroots : Config → ℕ
  | .ccsds _ => ccsdsNroots
  | .custom _ _ _ _ nroots => nroots.toNat

/-- A round of the loop of `init_rs_char` that generates the field. -/
def shiftRegister (symsize : ℕ) (gfpoly sr : BitVec 32) : BitVec 32 :=
  let sr := sr <<< 1
  let sr := if sr &&& 1 <<< symsize ≠ 0 then sr ^^^ gfpoly else sr
  sr &&& BitVec.ofNat 32 (2 ^ symsize - 1)

/-- `init_rs_char` without padding returns a code: the parameters are in their ranges, the
polynomial is primitive, and the search for the `prim`-th root of one ends. -/
def initRsChar (symsize gfpoly fcr prim nroots : ℤ) : Bool :=
  let size : ℤ := 2 ^ symsize.toNat
  decide (0 ≤ symsize ∧ symsize ≤ 8 ∧ 0 ≤ fcr ∧ fcr < size ∧ 0 < prim ∧ prim < size ∧
    0 ≤ nroots ∧ nroots < size ∧ 0 < size - 1 - nroots) &&
  (Nat.iterate (shiftRegister symsize.toNat (BitVec.ofInt 32 gfpoly)) (2 ^ symsize.toNat - 1) 1
    == 1) &&
  Nat.gcd prim.toNat (2 ^ symsize.toNat - 1) == 1

/-- The codec can be set up. -/
def Config.valid : Config → Bool
  | .ccsds _ => true
  | .custom symsize gfpoly fcr prim nroots => initRsChar symsize gfpoly fcr prim nroots

/-- A block after the constructor, which an encoder and a decoder have in common. -/
structure Setup where
  config : Config
  interleave : ℕ
  valid : config.valid = true
  interleave_pos : 0 < interleave

/-- The constructors for messages. -/
def Setup.make (config : Config) (interleave : ℤ) : Except Failure Setup :=
  if hvalid : config.valid = true then
    if hpos : 0 < interleave then
      .ok ⟨config, interleave.toNat, hvalid, Int.lt_toNat.mpr hpos⟩
    else .error (.runtimeError s!"Invalid interleave value = {interleave}")
  else .error (.runtimeError "Unable to initialize Reed-Solomon definition")

/-- An encoder for vector streams. -/
structure StreamSetup extends Setup where
  frameSize : ℤ
  interleave_dvd : (interleave : ℤ) ∣ frameSize

/-- The constructors for vector streams, which run `check_frame_size` first. -/
def StreamSetup.make (frameSize : ℤ) (config : Config) (interleave : ℤ) :
    Except Failure StreamSetup :=
  if interleave = 0 then .error .divisionByZero
  else if frameSize.tmod interleave ≠ 0 then
    .error (.runtimeError "Interleave must divide frame size")
  else do
    let setup ← Setup.make config interleave
    if hdvd : (setup.interleave : ℤ) ∣ frameSize then return ⟨setup, frameSize, hdvd⟩
    else .error (.runtimeError "Interleave must divide frame size")

/-! ## The codec -/

/-- What libfec computes for a code: the parity symbols of some data, and of a word the
corrected one with the number of errors, or nothing. -/
structure Codec (nn nroots : ℕ) where
  encode : List Byte → List Byte
  decode : List Byte → Option (List Byte × ℕ)
  length_encode : ∀ data, (encode data).length = nroots
  length_decode : ∀ {word corrected : List Byte} {count : ℕ},
    decode word = some (corrected, count) → corrected.length = word.length

namespace Codec

variable {nn nroots : ℕ} (codec : Codec nn nroots)

/-- `d_encode_rs`. Without roots, the `memmove` of the encoder moves `0 - 1` bytes. -/
def encodeRs (codeword : List Byte) : Except Failure (List Byte) :=
  let data := codeword.take (nn - nroots)
  if nroots = 0 then .error .outOfBounds else .ok (data ++ codec.encode data)

end Codec

/-! ## The encoder -/

/-- `d_rs_codeword` and `d_output_frame`. -/
structure Buffers where
  codeword : List Byte
  outputFrame : List Byte

/-- `resize`. -/
def resize (buffer : List Byte) (size : ℕ) : List Byte :=
  buffer.take size ++ List.replicate (size - buffer.length) 0

/-- A codeword filled with zeros and with a path. -/
def fillPath (codeword : List Byte) (pad : ℕ) (path : List Byte) : List Byte :=
  writeAt (List.replicate pad 0 ++ codeword.drop pad) pad path

/-- The loop over the paths, which `msg_handler` and `work` have in common. -/
def encodePaths {nn nroots : ℕ} (codec : Codec nn nroots) (interleave rsKk pad : ℕ)
    (input : List Byte) : List ℕ → Buffers → Except Failure Buffers
  | [], b => .ok b
  | j :: js, b => do
    if b.codeword.length < pad + rsKk then .error .outOfBounds
    else
      let codeword ← codec.encodeRs (fillPath b.codeword pad (gather input interleave rsKk j))
      let out := scatter interleave b.outputFrame j ((codeword.drop pad).take (rsKk + nroots))
      encodePaths codec interleave rsKk pad input js ⟨codeword, out⟩

variable {M : Type}

/-- `encode_rs_impl::msg_handler`. -/
def Setup.encodeMsg (setup : Setup) (codec : Codec setup.config.nn setup.config.nroots)
    (b : Buffers) (msg : Pdu M) : Except Failure (Buffers × List (Pdu M)) :=
  let size := msg.cdr.length
  let nroots := setup.config.nroots
  if size % setup.interleave ≠ 0 then .ok (b, [])
  else
    let rsKk := size / setup.interleave
    if setup.config.nn < rsKk + nroots then .ok (b, [])
    else do
      let pad := setup.config.nn - rsKk - nroots
      let b := { b with outputFrame := resize b.outputFrame (size + setup.interleave * nroots) }
      let b ← encodePaths codec setup.interleave rsKk pad msg.cdr (List.range setup.interleave) b
      return (b, [⟨msg.car, b.outputFrame⟩])

/-- A value converted to `size_t`. -/
def toSizeT (n : ℤ) : ℕ := (n % 2 ^ 64).toNat

/-- `rs_kk` in `work`. -/
def StreamSetup.rsKk (setup : StreamSetup) : ℤ := setup.frameSize.tdiv setup.interleave

/-- `pad` in `work`, before it is converted to `size_t`. -/
def StreamSetup.pad (setup : StreamSetup) : ℤ :=
  setup.config.nn - setup.rsKk - setup.config.nroots

/-- `work`, on some input items and on what the output items contain. -/
def StreamSetup.work (setup : StreamSetup) (codec : Codec setup.config.nn setup.config.nroots) :
    List Byte → List (List Byte) → List (List Byte) → Except Failure (List Byte × List (List Byte))
  | codeword, frame :: frames, out :: outs => do
    let b ← encodePaths codec setup.interleave setup.rsKk.toNat (toSizeT setup.pad) frame
      (List.range setup.interleave) ⟨codeword, out⟩
    let (codeword, items) ← work setup codec b.codeword frames outs
    return (codeword, b.outputFrame :: items)
  | codeword, _, _ => .ok (codeword, [])

/-! ## The decoder -/

/-- A value in the metadata. -/
inductive MetaValue where
  | long (n : ℤ)
  | other (text : String)
  deriving DecidableEq

/-- The metadata of a PDU, a dictionary. -/
abbrev Metadata := List (String × MetaValue)

/-- `pmt::dict_add`. -/
def dictAdd (dict : Metadata) (key : String) (value : MetaValue) : Metadata :=
  (key, value) :: dict.filter fun entry => entry.1 ≠ key

/-- The loop over the paths, which stops when a path cannot be decoded: the buffers, and the
number of errors. -/
def decodePaths {nn nroots : ℕ} (codec : Codec nn nroots) (interleave rsNn pad : ℕ)
    (input : List Byte) : List ℕ → Buffers → ℕ → Buffers × Option ℕ
  | [], b, errors => (b, some errors)
  | j :: js, b, errors =>
    let codeword := fillPath b.codeword pad (gather input interleave rsNn j)
    match codec.decode codeword with
    | none => ({ b with codeword := codeword }, none)
    | some (corrected, rsRes) =>
      let out := scatter interleave b.outputFrame j ((corrected.drop pad).take (rsNn - nroots))
      decodePaths codec interleave rsNn pad input js ⟨corrected, out⟩ (errors + rsRes)

/-- `decode_rs_impl::msg_handler`. -/
def Setup.decodeMsg (setup : Setup) (codec : Codec setup.config.nn setup.config.nroots)
    (b : Buffers) (msg : Pdu Metadata) : Buffers × List (Pdu Metadata) :=
  let size := msg.cdr.length
  let nroots := setup.config.nroots
  if size % setup.interleave ≠ 0 then (b, [])
  else
    let rsNn := size / setup.interleave
    if rsNn ≤ nroots ∨ setup.config.nn < rsNn then (b, [])
    else
      let b := { b with outputFrame := resize b.outputFrame (size - setup.interleave * nroots) }
      let pad := setup.config.nn - rsNn
      match decodePaths codec setup.interleave rsNn pad msg.cdr (List.range setup.interleave) b 0
      with
      | (b, none) => (b, [])
      | (b, some errors) =>
        (b, [⟨dictAdd msg.car "rs_errors" (.long errors), b.outputFrame⟩])

end GrSatellites.Rs
