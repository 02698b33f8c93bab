import GrSatellites.Crc.Blocks

/-!
# Burst errors

The remainders of a message and of its corrupted copy differ by the remainder of the
error pattern alone. A register whose polynomial has a constant term loses nothing
when it is clocked, so a burst no wider than the register always shows.
-/

namespace GrSatellites

open Lfsr

variable {M : Type}

/-- A message with an error pattern added to the bytes after the header. -/
def addError (headerBytes : ℕ) (msg err : List Byte) : List Byte :=
  msg.take headerBytes ++ List.zipWith (· ^^^ ·) (msg.drop headerBytes) err

namespace Crc

theorem finish_inj {w : Width} {finalXor : Word} {inputReflected resultReflected : Bool}
    {a b : BitVec w.bits} (h : finish w finalXor inputReflected resultReflected a =
      finish w finalXor inputReflected resultReflected b) : a = b := by
  unfold finish at h
  rw [BitVec.xor_left_inj] at h
  split at h <;> exact toWord_inj w.le h

theorem flatMap_byteBits_xor (reflected : Bool) {xs ys : List Byte} (h : xs.length = ys.length) :
    (List.zipWith (· ^^^ ·) xs ys).flatMap (byteBits reflected) =
      List.zipWith xor (xs.flatMap (byteBits reflected)) (ys.flatMap (byteBits reflected)) := by
  induction xs generalizing ys with
  | nil => simp
  | cons x xs ih =>
    cases ys with
    | nil => simp at h
    | cons y ys =>
      rw [List.zipWith_cons_cons, List.flatMap_cons, List.flatMap_cons, List.flatMap_cons,
        byteBits_xor, ih (by simpa using h), List.zipWith_append (by simp)]

theorem length_flatMap_byteBits (reflected : Bool) (data : List Byte) :
    (data.flatMap (byteBits reflected)).length = 8 * data.length := by
  induction data with
  | nil => rfl
  | cons byte data ih =>
    rw [List.flatMap_cons, List.length_append, ih, length_byteBits, List.length_cons]
    omega

/-- Two messages with one CRC differ by a pattern whose remainder is zero. -/
theorem compute_addError_ne {w : Width} {poly : Word} (hpoly : poly.getLsbD 0 = true)
    (initialValue finalXor : Word) (inputReflected resultReflected : Bool)
    {data err : List Byte} (hlen : data.length = err.length) {start : ℕ}
    (hset : true ∈ err.flatMap (byteBits inputReflected))
    (hwindow : ∀ i, (err.flatMap (byteBits inputReflected))[i]? = some true →
      start ≤ i ∧ i < start + w.bits) :
    (ofWidth w poly initialValue finalXor inputReflected resultReflected).compute
        (List.zipWith (· ^^^ ·) data err) ≠
      (ofWidth w poly initialValue finalXor inputReflected resultReflected).compute data := by
  obtain ⟨r, hr⟩ := exists_toWord w inputReflected initialValue
  have hbits : (data.flatMap (byteBits inputReflected)).length =
      (err.flatMap (byteBits inputReflected)).length := by
    rw [length_flatMap_byteBits, length_flatMap_byteBits, hlen]
  intro heq
  rw [compute_eq_finish hr, compute_eq_finish hr, flatMap_byteBits_xor _ hlen] at heq
  have hregister := finish_inj heq
  have hlinear := feedAll_xor (feedback w poly) r 0#_ hbits
  rw [BitVec.xor_zero, hregister] at hlinear
  apply feedAll_window_ne_zero (by rw [msb_feedback, hpoly]) hset hwindow
  have hcancel := congrArg (feedAll (feedback w poly) r
    (data.flatMap (byteBits inputReflected)) ^^^ ·) hlinear
  simpa [← BitVec.xor_assoc] using hcancel.symm

end Crc

/-- **Burst detection.** When the polynomial has a constant term, every nonzero error
pattern in the covered bytes of a PDU whose set bits lie within as many consecutive bits
as the CRC has, in the order in which they are fed, makes CRC Check publish the
corrupted PDU on the port `fail`. -/
theorem crcCheck_burst {numBits : ℕ} (hge : 8 ≤ numBits) (hle : numBits ≤ 64)
    (hdvd : numBits % 8 = 0) {poly : Word} (hpoly : poly.getLsbD 0 = true)
    (initialValue finalXor : Word)
    (inputReflected resultReflected swapEndianness discardCrc : Bool)
    (skipHeaderBytes : BitVec 32) (pdu : Pdu M)
    (hlen : skipHeaderBytes.toNat < pdu.cdr.length) (err : List Byte)
    (herr : err.length = pdu.cdr.length - skipHeaderBytes.toNat)
    (hset : true ∈ err.flatMap (Crc.byteBits inputReflected)) (start : ℕ)
    (hwindow : ∀ i, (err.flatMap (Crc.byteBits inputReflected))[i]? = some true →
      start ≤ i ∧ i < start + numBits) :
    ∃ a c, CrcAppend.crcAppend numBits poly initialValue finalXor inputReflected resultReflected
        swapEndianness skipHeaderBytes = .ok a ∧
      CrcCheck.crcCheck numBits poly initialValue finalXor inputReflected resultReflected
        swapEndianness discardCrc skipHeaderBytes = .ok c ∧
      ∃ crcBytes : List Byte, crcBytes.length = numBits / 8 ∧
        a.msgHandler pdu = some ⟨pdu.car, pdu.cdr ++ crcBytes⟩ ∧
        c.msgHandler ⟨pdu.car, addError skipHeaderBytes.toNat pdu.cdr err ++ crcBytes⟩ =
          .ok [(.fail, ⟨pdu.car, if discardCrc then addError skipHeaderBytes.toNat pdu.cdr err
            else addError skipHeaderBytes.toNat pdu.cdr err ++ crcBytes⟩)] := by
  let w : Width := ⟨numBits, hge, hle⟩
  have hdrop : (addError skipHeaderBytes.toNat pdu.cdr err).drop skipHeaderBytes.toNat =
      List.zipWith (· ^^^ ·) (pdu.cdr.drop skipHeaderBytes.toNat) err := by
    rw [addError, List.drop_left' (by rw [List.length_take]; omega)]
  have hlen' : skipHeaderBytes.toNat < (addError skipHeaderBytes.toNat pdu.cdr err).length := by
    simp only [addError, List.length_append, List.length_take, List.length_zipWith,
      List.length_drop]
    omega
  refine ⟨_, _, CrcAppend.crcAppend_eq_ok poly initialValue finalXor inputReflected
      resultReflected swapEndianness skipHeaderBytes w hdvd,
    CrcCheck.crcCheck_eq_ok poly initialValue finalXor inputReflected resultReflected
      swapEndianness discardCrc skipHeaderBytes w hdvd, _, ?_,
    CrcAppend.msgHandler_eq_some _ hlen, ?_⟩
  · exact length_crcBytes _ _ _
  · have hvalue := Crc.compute_and_maskOf w poly initialValue finalXor inputReflected
      resultReflected (pdu.cdr.drop skipHeaderBytes.toNat)
    have hcovered : (pdu.cdr.drop skipHeaderBytes.toNat).length = err.length := by
      rw [List.length_drop, herr]
    have hne := @Crc.compute_addError_ne w poly hpoly initialValue finalXor inputReflected
      resultReflected _ err hcovered start hset hwindow
    rw [← hdrop] at hne
    exact CrcCheck.msgHandler_append (CrcCheck.ofWidth poly initialValue finalXor
      inputReflected resultReflected swapEndianness discardCrc skipHeaderBytes w hdvd)
      pdu.car hlen' hvalue (if_neg hne)

/-- A burst across the boundary of the two covered bytes of a PDU. -/
theorem crcCheck_burst_two_bytes :
    ∃ a c, CrcAppend.crcAppend 8 0x07 0 0 false false false 1 = .ok a ∧
      CrcCheck.crcCheck 8 0x07 0 0 false false false false 1 = .ok c ∧
      ∃ crcBytes : List Byte, crcBytes.length = 8 / 8 ∧
        a.msgHandler (⟨(), [9, 1, 2]⟩ : Pdu Unit) = some ⟨(), [9, 1, 2] ++ crcBytes⟩ ∧
        c.msgHandler (⟨(), addError 1 [9, 1, 2] [0x05, 0x80] ++ crcBytes⟩ : Pdu Unit) =
          .ok [(.fail, ⟨(), addError 1 [9, 1, 2] [0x05, 0x80] ++ crcBytes⟩)] :=
  crcCheck_burst (by decide) (by decide) (by decide) (by decide) 0 0 false false false false 1
    ⟨(), [9, 1, 2]⟩ (by decide) [0x05, 0x80] (by decide) (by decide) 5 (by
      intro i hi
      have hlt : i < 16 := (List.getElem?_eq_some_iff.mp hi).1
      have h : ∀ i : Fin 16,
          (List.flatMap (Crc.byteBits false) [0x05, 0x80])[i.val]? = some true →
            5 ≤ i.val ∧ i.val < 5 + 8 := by
        decide
      exact h ⟨i, hlt⟩ hi)

end GrSatellites
