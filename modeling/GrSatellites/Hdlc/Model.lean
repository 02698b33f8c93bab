import GrSatellites.Crc.Model
import GrSatellites.Library.Bits
import GrSatellites.Library.Transducer

/-!
# The HDLC framer and deframer

The blocks of `python/hdlc_framer.py` and `python/hdlc_deframer.py`. A stream item is
one bit. The deframer keeps the bits received since the last flag in a deque of
bounded length and counts consecutive ones.
-/

namespace GrSatellites.Hdlc

variable {M : Type}

/-- The CRC object that both blocks make for themselves. -/
def crcCalc : Crc := Crc.ofWidth ⟨16, by decide, by decide⟩ 0x1021 0xFFFF 0xFFFF true true

/-- `_flag`. -/
def flag : List Bool := [false, true, true, true, true, true, true, false]

/-! ## Framer -/

/-- The parameters of an `hdlc_framer`. -/
structure Framer where
  preambleBytes : ℕ
  postambleBytes : ℕ

/-- Append a data bit to `buff`, and a zero after the fifth one in a row. -/
def pushBit (st : List Bool × ℕ) (x : Bool) : List Bool × ℕ :=
  let buff := st.1 ++ [x]
  let ones := if x then st.2 + 1 else 0
  if ones = 5 then (buff ++ [false], 0) else (buff, ones)

/-- The inner loop of `handle_msg`, with the given number of rounds left: the low bit
of the byte is sent and shifted out. -/
def pushByteLoop : ℕ → Byte → List Bool × ℕ → List Bool × ℕ
  | 0, _, st => st
  | rounds + 1, byte, st => pushByteLoop rounds (byte >>> 1) (pushBit st (byte.getLsbD 0))

/-- The bytes sent for a message: the message and its FCS, low byte first. -/
def appendFcs (data : List Byte) : List Byte :=
  let crcVal := crcCalc.compute data
  data ++ [(crcVal &&& 0xff).setWidth 8, ((crcVal >>> 8) &&& 0xff).setWidth 8]

/-- The buffer that `handle_msg` publishes for the bytes of a message. -/
def Framer.frame (f : Framer) (data : List Byte) : List Bool :=
  let buff := (List.replicate f.preambleBytes flag).flatten
  let (buff, _) := (appendFcs data).foldl (fun st byte => pushByteLoop 8 byte st) (buff, 0)
  buff ++ (List.replicate f.postambleBytes flag).flatten

/-- `hdlc_framer.handle_msg`: what is published, with the metadata passed on. -/
def Framer.handleMsg (f : Framer) : Msg M → List (M × List Bool)
  | .u8vector pdu => [(pdu.car, f.frame pdu.cdr)]
  | .other _ => []

/-! ## Deframer -/

/-- One byte of `pack`: the bits are taken from the last to the first. -/
def packByte (bits : List Bool) : Byte :=
  bits.foldr (fun b x => (x <<< 1) + (if b then 1 else 0)) 0

/-- `pack`, on a string of whole bytes. -/
def pack (s : List Bool) : List Byte := Bits.packWith packByte s

/-- `hdlc_crc_check.fcs_ok`. -/
def fcsOk (frame : List Byte) : Bool :=
  if frame.length ≤ 2 then false
  else
    let out := crcCalc.compute (frame.take (frame.length - 2))
    frame[frame.length - 2]? = some ((out &&& 0xff).setWidth 8) &&
      frame[frame.length - 1]? = some (((out >>> 8) &&& 0xff).setWidth 8)

/-- The parameters of an `hdlc_deframer`. -/
structure Deframer where
  checkFcs : Bool
  maxLength : ℕ
  fcsOk : List Byte → Bool := Hdlc.fcsOk

/-- The state of an `hdlc_deframer`: the deque `bits` and the count `ones`. -/
structure DeframerState where
  bits : List Bool
  ones : ℕ
  deriving DecidableEq

/-- The state after construction. -/
def DeframerState.init : DeframerState := ⟨[], 0⟩

namespace Deframer

variable (d : Deframer)

/-- The bound of the deque. -/
def maxlen : ℕ := (d.maxLength + 2) * 8 + 7

/-- `deque.append`: a full deque drops its first entry. -/
def append (bits : List Bool) (x : Bool) : List Bool :=
  (bits ++ [x]).drop (bits.length + 1 - d.maxlen)

/-- `deque.extendleft` with zeros: a full deque drops its last entries. -/
def extendLeft (bits : List Bool) (zeros : ℕ) : List Bool :=
  (List.replicate zeros false ++ bits).take d.maxlen

/-- What is cut from the deque when a flag ends. -/
def takeFrame (bits : List Bool) : List Byte :=
  let bits := bits.take (bits.length - min 7 bits.length)
  let bits := if bits.length % 8 ≠ 0 then d.extendLeft bits (8 - bits.length % 8) else bits
  pack bits

/-- The loop body of `hdlc_deframer.work`: one bit. -/
def step (s : DeframerState) (x : Bool) : DeframerState × List (List Byte) :=
  if x then (⟨d.append s.bits x, s.ones + 1⟩, [])
  else if s.ones = 5 then (⟨s.bits, 0⟩, [])
  else if 5 < s.ones then
    let frame := d.takeFrame s.bits
    let out :=
      if !frame.isEmpty && (!d.checkFcs || d.fcsOk frame) then [frame.take (frame.length - 2)]
      else []
    (⟨[], 0⟩, out)
  else (⟨d.append s.bits x, 0⟩, [])

/-- `hdlc_deframer.work` on the items of one call. -/
def work : DeframerState → List Bool → DeframerState × List (List Byte) := Transducer.run d.step

end Deframer

end GrSatellites.Hdlc
