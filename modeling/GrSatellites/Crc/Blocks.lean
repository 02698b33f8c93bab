import GrSatellites.Crc.Bitwise
import GrSatellites.Library.Endian

/-!
# The blocks CRC Append and CRC Check

Two blocks that add a CRC to a PDU and check it. Each computes the covered range,
the order of the CRC bytes and the size limits on its own.
-/

namespace GrSatellites

open Endian

variable {M : Type}

/-- The members of `crc_append_impl`. -/
structure CrcAppend where
  numBits : ℕ
  swapEndianness : Bool
  crc : Crc
  headerBytes : BitVec 32
  numBits_eq : crc.numBits.bits = numBits
  dvd : numBits % 8 = 0

namespace CrcAppend

/-- The constructor `crc_append_impl::crc_append_impl`. -/
def crcAppend (numBits : ℕ) (poly initialValue finalXor : Word)
    (inputReflected resultReflected swapEndianness : Bool) (skipHeaderBytes : BitVec 32) :
    Except CxxError CrcAppend :=
  match h : Crc.crc numBits poly initialValue finalXor inputReflected resultReflected with
  | .error e => .error e
  | .ok crc =>
    if hdvd : numBits % 8 = 0 then
      .ok {
        numBits := numBits
        swapEndianness := swapEndianness
        crc := crc
        headerBytes := skipHeaderBytes
        numBits_eq := Crc.numBits_of_crc h
        dvd := hdvd }
    else .error (.runtimeError "CRC number of bits must be divisible by 8")

/-- The CRC bytes with `d_swap_endianness` set: the low byte is pushed and shifted out. -/
def pushSwapped : ℕ → Word → List Byte
  | 0, _ => []
  | numBytes + 1, crc => (crc &&& 0xff).setWidth 8 :: pushSwapped numBytes (shr crc 8)

/-- The CRC bytes in the other case. The shift amount does not wrap, since `8 * (i + 1)`
is at most the number of bits. -/
def push (a : CrcAppend) (numBytes : ℕ) (crc : Word) : List Byte :=
  (List.range numBytes).map fun i =>
    (shr crc ⟨a.numBits - 8 * (i + 1), by have := a.numBits_eq ▸ a.crc.numBits.le; omega⟩ &&&
      0xff).setWidth 8

/-- `crc_append_impl::msg_handler`: the PDU published, or `none` for one that is dropped. -/
def msgHandler (a : CrcAppend) (pdu : Pdu M) : Option (Pdu M) :=
  let msg := pdu.cdr
  if msg.length ≤ a.headerBytes.toNat then none
  else
    let crc := a.crc.compute (msg.drop a.headerBytes.toNat)
    let numBytes := a.numBits / 8
    let crcBytes := if a.swapEndianness then pushSwapped numBytes crc else a.push numBytes crc
    some ⟨pdu.car, msg ++ crcBytes⟩

end CrcAppend

/-- The members of `crc_check_impl`. -/
structure CrcCheck where
  numBits : ℕ
  swapEndianness : Bool
  discardCrc : Bool
  crc : Crc
  headerBytes : BitVec 32
  numBits_eq : crc.numBits.bits = numBits
  dvd : numBits % 8 = 0

/-- The output ports of CRC Check. -/
inductive CrcPort where
  | ok
  | fail
  deriving DecidableEq, Repr

namespace CrcCheck

/-- The constructor `crc_check_impl::crc_check_impl`. -/
def crcCheck (numBits : ℕ) (poly initialValue finalXor : Word)
    (inputReflected resultReflected swapEndianness discardCrc : Bool)
    (skipHeaderBytes : BitVec 32) : Except CxxError CrcCheck :=
  match h : Crc.crc numBits poly initialValue finalXor inputReflected resultReflected with
  | .error e => .error e
  | .ok crc =>
    if hdvd : numBits % 8 = 0 then
      .ok {
        numBits := numBits
        swapEndianness := swapEndianness
        discardCrc := discardCrc
        crc := crc
        headerBytes := skipHeaderBytes
        numBits_eq := Crc.numBits_of_crc h
        dvd := hdvd }
    else .error (.runtimeError "CRC number of bits must be divisible by 8")

/-- One round of the loops that read the CRC from the message. -/
def readByte (msgCrc : Word) (byte : Byte) : Word := shl msgCrc 8 ||| byte.setWidth 64

/-- `crc_check_impl::msg_handler`: the PDUs published with their ports. The sum in the
size test is a 32-bit sum that can wrap; a PDU that passes it although it is
shorter than header and CRC makes the unsigned lengths below wrap in turn, and the reads
leave the vector. -/
def msgHandler (c : CrcCheck) (pdu : Pdu M) : Except CxxError (List (CrcPort × Pdu M)) :=
  let msg := pdu.cdr
  let numBytes := c.numBits / 8
  let size := msg.length
  if size ≤ (c.headerBytes + BitVec.ofNat 32 numBytes).toNat then .ok []
  else if size < c.headerBytes.toNat + numBytes then .error .outOfRange
  else
    let crcBytes := msg.drop (size - numBytes)
    let msgCrc :=
      if c.swapEndianness then crcBytes.reverse.foldl readByte 0 else crcBytes.foldl readByte 0
    let crcComputed := c.crc.compute
      ((msg.drop c.headerBytes.toNat).take (size - c.headerBytes.toNat - numBytes))
    let outSize := if c.discardCrc then size - numBytes else size
    .ok [(if crcComputed = msgCrc then .ok else .fail, ⟨pdu.car, msg.take outSize⟩)]

end CrcCheck

/-! ## The bytes of a CRC -/

/-- A CRC fits into the width it was configured with. -/
theorem Crc.compute_and_maskOf (w : Width) (poly initialValue finalXor : Word)
    (inputReflected resultReflected : Bool) (data : List Byte) :
    let c := Crc.ofWidth w poly initialValue finalXor inputReflected resultReflected
    c.compute data &&& Crc.maskOf w = c.compute data := by
  obtain ⟨r, hr⟩ := Crc.exists_toWord w inputReflected initialValue
  simp only [Crc.compute_eq_finish hr, Crc.finish, Crc.xor_and_distrib, BitVec.and_assoc,
    BitVec.and_self]
  split <;> rw [Crc.toWord_and_maskOf]

theorem and_ff_setWidth (word : Word) : (word &&& 0xff).setWidth 8 = (word.setWidth 8 : Byte) := by
  apply BitVec.eq_of_getLsbD_eq
  intro i hi
  have hff : (0xff : Word).getLsbD i = true := by
    have h : ∀ i : Fin 8, (0xff : Word).getLsbD i = true := by decide
    exact h ⟨i, hi⟩
  simp only [BitVec.getLsbD_setWidth, BitVec.getLsbD_and, hff, Bool.and_true]

theorem CrcAppend.push_eq_bytesBE (a : CrcAppend) (crc : Word) :
    a.push (a.numBits / 8) crc = bytesBE (a.numBits / 8) crc := by
  have hdvd := a.dvd
  unfold CrcAppend.push bytesBE
  apply List.map_congr_left
  intro i hi
  rw [and_ff_setWidth, shr]
  congr 2
  have := List.mem_range.mp hi
  simp only
  omega

theorem CrcAppend.pushSwapped_eq_map (numBytes : ℕ) (crc : Word) :
    CrcAppend.pushSwapped numBytes crc =
      (List.range numBytes).map fun i => (crc >>> (8 * i)).setWidth 8 := by
  induction numBytes generalizing crc with
  | zero => rfl
  | succ numBytes ih =>
    rw [CrcAppend.pushSwapped, ih, and_ff_setWidth, List.range_succ_eq_map, List.map_cons,
      List.map_map]
    congr 1
    apply List.map_congr_left
    intro i _
    simp only [shr, Function.comp, ← BitVec.shiftRight_add]
    congr 2
    simp only [Fin.isValue, Fin.coe_ofNat_eq_mod]
    omega

/-- Pushing the low byte first gives the bytes in the opposite order. -/
theorem CrcAppend.pushSwapped_eq_reverse_bytesBE (numBytes : ℕ) (crc : Word) :
    CrcAppend.pushSwapped numBytes crc = (bytesBE numBytes crc).reverse := by
  rw [pushSwapped_eq_map]
  apply List.ext_getElem
  · simp
  · intro i hi _
    have hi : i < numBytes := by simpa using hi
    simp only [List.getElem_map, List.getElem_range, List.getElem_reverse, bytesBE,
      List.length_map, List.length_range]
    congr 2
    omega

theorem CrcCheck.foldl_readByte (bytes : List Byte) :
    bytes.foldl CrcCheck.readByte 0 = readBE 64 bytes := rfl

/-- A word below the mask has no bits past its bytes. -/
theorem ushiftRight_eq_zero_of_and_maskOf {w : Width} {word : Word} {k : ℕ}
    (h : word &&& Crc.maskOf w = word) (hk : w.bits ≤ k) : word >>> k = 0 := by
  apply BitVec.eq_of_getLsbD_eq
  intro i _
  rw [BitVec.getLsbD_ushiftRight, ← h, BitVec.getLsbD_and, Crc.getLsbD_maskOf]
  simp [show ¬ k + i < w.bits by omega]

/-- A CRC value as bytes, in the order of the configuration. -/
def crcBytes (swapEndianness : Bool) (numBytes : ℕ) (value : Word) : List Byte :=
  if swapEndianness then (bytesBE numBytes value).reverse else bytesBE numBytes value

@[simp] theorem length_crcBytes (swapEndianness : Bool) (numBytes : ℕ) (value : Word) :
    (crcBytes swapEndianness numBytes value).length = numBytes := by
  unfold crcBytes
  split <;> simp

/-- CRC Append publishes the message followed by the CRC of what comes after the header. -/
theorem CrcAppend.msgHandler_eq_some (a : CrcAppend) {pdu : Pdu M}
    (hlen : a.headerBytes.toNat < pdu.cdr.length) :
    a.msgHandler pdu = some ⟨pdu.car, pdu.cdr ++ crcBytes a.swapEndianness (a.numBits / 8)
      (a.crc.compute (pdu.cdr.drop a.headerBytes.toNat))⟩ := by
  unfold CrcAppend.msgHandler crcBytes
  simp only [a.push_eq_bytesBE, CrcAppend.pushSwapped_eq_reverse_bytesBE]
  rw [if_neg (show ¬ pdu.cdr.length ≤ a.headerBytes.toNat by omega)]

/-- CRC Check on a message followed by the bytes of some value compares that value with
the CRC of what comes after the header. -/
theorem CrcCheck.msgHandler_append (c : CrcCheck) (car : M) {body : List Byte}
    (hlen : c.headerBytes.toNat < body.length) {value : Word}
    (hvalue : value &&& Crc.maskOf c.crc.numBits = value) {port : CrcPort}
    (hport : (if c.crc.compute (body.drop c.headerBytes.toNat) = value then .ok else .fail) =
      port) :
    c.msgHandler ⟨car, body ++ crcBytes c.swapEndianness (c.numBits / 8) value⟩ =
      .ok [(port, ⟨car, if c.discardCrc then body
        else body ++ crcBytes c.swapEndianness (c.numBits / 8) value⟩)] := by
  have hdvd := c.dvd
  have hbits := c.numBits_eq
  have hwrap : (c.headerBytes + BitVec.ofNat 32 (c.numBits / 8)).toNat ≤
      c.headerBytes.toNat + c.numBits / 8 := by
    rw [BitVec.toNat_add, BitVec.toNat_ofNat]
    have := Nat.mod_le (c.numBits / 8) (2 ^ 32)
    have := Nat.mod_le (c.headerBytes.toNat + c.numBits / 8 % 2 ^ 32) (2 ^ 32)
    omega
  have hread : (if c.swapEndianness then
      (crcBytes c.swapEndianness (c.numBits / 8) value).reverse.foldl CrcCheck.readByte 0
      else (crcBytes c.swapEndianness (c.numBits / 8) value).foldl CrcCheck.readByte 0) =
      value := by
    have hback : readBE 64 (bytesBE (c.numBits / 8) value) = value :=
      readBE_bytesBE (ushiftRight_eq_zero_of_and_maskOf hvalue (by omega))
    cases c.swapEndianness with
    | true =>
      rw [if_pos rfl, crcBytes, if_pos rfl, List.reverse_reverse, CrcCheck.foldl_readByte, hback]
    | false => exact hback
  unfold CrcCheck.msgHandler
  simp only [List.length_append, length_crcBytes, Nat.add_sub_cancel]
  rw [if_neg (by omega), if_neg (by omega), List.drop_left, hread,
    List.drop_append_of_le_length (by omega), List.take_left' (by rw [List.length_drop]; omega),
    hport]
  cases c.discardCrc with
  | true => simp
  | false => simp [List.take_of_length_le]

/-! ## The round trip -/

section RoundTrip

variable (poly initialValue finalXor : Word)
  (inputReflected resultReflected swapEndianness discardCrc : Bool) (skipHeaderBytes : BitVec 32)

/-- The CRC Append block of a configuration that its constructor accepts. -/
def CrcAppend.ofWidth (w : Width) (hdvd : w.bits % 8 = 0) : CrcAppend where
  numBits := w.bits
  swapEndianness := swapEndianness
  crc := Crc.ofWidth w poly initialValue finalXor inputReflected resultReflected
  headerBytes := skipHeaderBytes
  numBits_eq := rfl
  dvd := hdvd

/-- The CRC Check block of a configuration that its constructor accepts. -/
def CrcCheck.ofWidth (w : Width) (hdvd : w.bits % 8 = 0) : CrcCheck where
  numBits := w.bits
  swapEndianness := swapEndianness
  discardCrc := discardCrc
  crc := Crc.ofWidth w poly initialValue finalXor inputReflected resultReflected
  headerBytes := skipHeaderBytes
  numBits_eq := rfl
  dvd := hdvd

theorem Crc.crc_eq_ok (w : Width) :
    Crc.crc w.bits poly initialValue finalXor inputReflected resultReflected =
      .ok (Crc.ofWidth w poly initialValue finalXor inputReflected resultReflected) := by
  have hge := w.ge
  have hle := w.le
  rw [Crc.crc, dif_neg (by omega)]

theorem CrcAppend.crcAppend_eq_ok (w : Width) (hdvd : w.bits % 8 = 0) :
    CrcAppend.crcAppend w.bits poly initialValue finalXor inputReflected resultReflected
        swapEndianness skipHeaderBytes =
      .ok (CrcAppend.ofWidth poly initialValue finalXor inputReflected resultReflected
        swapEndianness skipHeaderBytes w hdvd) := by
  have hcrc := Crc.crc_eq_ok poly initialValue finalXor inputReflected resultReflected w
  unfold CrcAppend.crcAppend
  split
  · next e he => cases hcrc.symm.trans he
  · next c hc =>
    cases Except.ok.inj (hcrc.symm.trans hc)
    rw [dif_pos hdvd]
    rfl

theorem CrcCheck.crcCheck_eq_ok (w : Width) (hdvd : w.bits % 8 = 0) :
    CrcCheck.crcCheck w.bits poly initialValue finalXor inputReflected resultReflected
        swapEndianness discardCrc skipHeaderBytes =
      .ok (CrcCheck.ofWidth poly initialValue finalXor inputReflected resultReflected
        swapEndianness discardCrc skipHeaderBytes w hdvd) := by
  have hcrc := Crc.crc_eq_ok poly initialValue finalXor inputReflected resultReflected w
  unfold CrcCheck.crcCheck
  split
  · next e he => cases hcrc.symm.trans he
  · next c hc =>
    cases Except.ok.inj (hcrc.symm.trans hc)
    rw [dif_pos hdvd]
    rfl

end RoundTrip

/-- **CRC Append, then CRC Check.** With one configuration on both sides, every PDU longer
than the skipped header comes out on the port `ok`, without its CRC if the CRC is
discarded and with it otherwise, and nothing comes out on `fail`. -/
theorem crcCheck_of_crcAppend {numBits : ℕ} (hge : 8 ≤ numBits) (hle : numBits ≤ 64)
    (hdvd : numBits % 8 = 0) (poly initialValue finalXor : Word)
    (inputReflected resultReflected swapEndianness discardCrc : Bool)
    (skipHeaderBytes : BitVec 32) (pdu : Pdu M)
    (hlen : skipHeaderBytes.toNat < pdu.cdr.length) :
    ∃ a c, CrcAppend.crcAppend numBits poly initialValue finalXor inputReflected resultReflected
        swapEndianness skipHeaderBytes = .ok a ∧
      CrcCheck.crcCheck numBits poly initialValue finalXor inputReflected resultReflected
        swapEndianness discardCrc skipHeaderBytes = .ok c ∧
      ∃ crcBytes : List Byte, crcBytes.length = numBits / 8 ∧
        a.msgHandler pdu = some ⟨pdu.car, pdu.cdr ++ crcBytes⟩ ∧
        c.msgHandler ⟨pdu.car, pdu.cdr ++ crcBytes⟩ =
          .ok [(.ok, ⟨pdu.car, if discardCrc then pdu.cdr else pdu.cdr ++ crcBytes⟩)] := by
  let w : Width := ⟨numBits, hge, hle⟩
  refine ⟨_, _, CrcAppend.crcAppend_eq_ok poly initialValue finalXor inputReflected
      resultReflected swapEndianness skipHeaderBytes w hdvd,
    CrcCheck.crcCheck_eq_ok poly initialValue finalXor inputReflected resultReflected
      swapEndianness discardCrc skipHeaderBytes w hdvd, _, ?_,
    CrcAppend.msgHandler_eq_some _ hlen, ?_⟩
  · exact length_crcBytes _ _ _
  · have hvalue := Crc.compute_and_maskOf w poly initialValue finalXor inputReflected
      resultReflected (pdu.cdr.drop skipHeaderBytes.toNat)
    exact CrcCheck.msgHandler_append (CrcCheck.ofWidth poly initialValue finalXor
      inputReflected resultReflected swapEndianness discardCrc skipHeaderBytes w hdvd)
      pdu.car hlen hvalue (if_pos rfl)

/-- The configuration of the first CRC Check test of the repository. -/
theorem crcCheck_of_crcAppend_ccitt :
    ∃ a c, CrcAppend.crcAppend 16 0x1021 0 0 false false false 5 = .ok a ∧
      CrcCheck.crcCheck 16 0x1021 0 0 false false false true 5 = .ok c ∧
      ∃ crcBytes : List Byte, crcBytes.length = 16 / 8 ∧
        a.msgHandler (⟨(), [0, 1, 2, 3, 4, 5, 6]⟩ : Pdu Unit) =
          some ⟨(), [0, 1, 2, 3, 4, 5, 6] ++ crcBytes⟩ ∧
        c.msgHandler (⟨(), [0, 1, 2, 3, 4, 5, 6] ++ crcBytes⟩ : Pdu Unit) =
          .ok [(.ok, ⟨(), [0, 1, 2, 3, 4, 5, 6]⟩)] :=
  crcCheck_of_crcAppend (by decide) (by decide) (by decide) 0x1021 0 0 false false false true 5
    ⟨(), [0, 1, 2, 3, 4, 5, 6]⟩ (by decide)

end GrSatellites
