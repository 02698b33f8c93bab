import GrSatellites.Library.Checked
import GrSatellites.Rs.Model

/-!
# The NUSAT decoder

The block of `lib/nusat_decoder_impl.cc`. A message is decoded in an array of 255 bytes, then
descrambled as far as its length byte says and checked with a CRC. The scrambling sequence has
64 bytes.
-/

namespace GrSatellites.Nusat

open Checked

variable {M : Type}

/-- `MAX_FRAME_LEN`, the size of `d_data`. -/
def maxFrameLen : ℕ := 255

/-- `d_header_len`. -/
def headerLen : ℕ := 2

/-- `d_len_byte`. -/
def lenByte : ℕ := 0

/-- `d_crc_byte`. -/
def crcByte : ℕ := 1

/-- `d_scrambler_sequence`. -/
def scramblerSequence : List Byte :=
  [
    0x1d, 0x8b, 0x06, 0x0c, 0x54, 0xdf, 0x21, 0xcb, 0x5c, 0x74, 0xe3, 0x15, 0x68, 0x04,
    0x41, 0x91, 0x7a, 0x3d, 0x7a, 0x81, 0x30, 0x57, 0x1a, 0x0a, 0x09, 0xdb, 0x33, 0x57,
    0x1f, 0x86, 0xef, 0x58, 0xe0, 0x16, 0xbd, 0x9b, 0xa6, 0x42, 0xfb, 0x09, 0xd6, 0xcb,
    0xe1, 0x27, 0x8e, 0xe7, 0x95, 0x1b, 0x46, 0x4c, 0xee, 0xc3, 0x75, 0x7d, 0xa6, 0x1c,
    0xf2, 0x45, 0x01, 0x00, 0xfe, 0xaf, 0xfd, 0x03]

/-- `crc8_table`. -/
def crc8Table : List Byte :=
  [
    0x00, 0x07, 0x0e, 0x09, 0x1c, 0x1b, 0x12, 0x15, 0x38, 0x3f, 0x36, 0x31, 0x24, 0x23,
    0x2a, 0x2d, 0x70, 0x77, 0x7e, 0x79, 0x6c, 0x6b, 0x62, 0x65, 0x48, 0x4f, 0x46, 0x41,
    0x54, 0x53, 0x5a, 0x5d, 0xe0, 0xe7, 0xee, 0xe9, 0xfc, 0xfb, 0xf2, 0xf5, 0xd8, 0xdf,
    0xd6, 0xd1, 0xc4, 0xc3, 0xca, 0xcd, 0x90, 0x97, 0x9e, 0x99, 0x8c, 0x8b, 0x82, 0x85,
    0xa8, 0xaf, 0xa6, 0xa1, 0xb4, 0xb3, 0xba, 0xbd, 0xc7, 0xc0, 0xc9, 0xce, 0xdb, 0xdc,
    0xd5, 0xd2, 0xff, 0xf8, 0xf1, 0xf6, 0xe3, 0xe4, 0xed, 0xea, 0xb7, 0xb0, 0xb9, 0xbe,
    0xab, 0xac, 0xa5, 0xa2, 0x8f, 0x88, 0x81, 0x86, 0x93, 0x94, 0x9d, 0x9a, 0x27, 0x20,
    0x29, 0x2e, 0x3b, 0x3c, 0x35, 0x32, 0x1f, 0x18, 0x11, 0x16, 0x03, 0x04, 0x0d, 0x0a,
    0x57, 0x50, 0x59, 0x5e, 0x4b, 0x4c, 0x45, 0x42, 0x6f, 0x68, 0x61, 0x66, 0x73, 0x74,
    0x7d, 0x7a, 0x89, 0x8e, 0x87, 0x80, 0x95, 0x92, 0x9b, 0x9c, 0xb1, 0xb6, 0xbf, 0xb8,
    0xad, 0xaa, 0xa3, 0xa4, 0xf9, 0xfe, 0xf7, 0xf0, 0xe5, 0xe2, 0xeb, 0xec, 0xc1, 0xc6,
    0xcf, 0xc8, 0xdd, 0xda, 0xd3, 0xd4, 0x69, 0x6e, 0x67, 0x60, 0x75, 0x72, 0x7b, 0x7c,
    0x51, 0x56, 0x5f, 0x58, 0x4d, 0x4a, 0x43, 0x44, 0x19, 0x1e, 0x17, 0x10, 0x05, 0x02,
    0x0b, 0x0c, 0x21, 0x26, 0x2f, 0x28, 0x3d, 0x3a, 0x33, 0x34, 0x4e, 0x49, 0x40, 0x47,
    0x52, 0x55, 0x5c, 0x5b, 0x76, 0x71, 0x78, 0x7f, 0x6a, 0x6d, 0x64, 0x63, 0x3e, 0x39,
    0x30, 0x37, 0x22, 0x25, 0x2c, 0x2b, 0x06, 0x01, 0x08, 0x0f, 0x1a, 0x1d, 0x14, 0x13,
    0xae, 0xa9, 0xa0, 0xa7, 0xb2, 0xb5, 0xbc, 0xbb, 0x96, 0x91, 0x98, 0x9f, 0x8a, 0x8d,
    0x84, 0x83, 0xde, 0xd9, 0xd0, 0xd7, 0xc2, 0xc5, 0xcc, 0xcb, 0xe6, 0xe1, 0xe8, 0xef,
    0xfa, 0xfd, 0xf4, 0xf3]

/-- `d_data` before decoding: the bytes of the message, and zeros. -/
def fillData (msg : List Byte) : List Byte :=
  msg.take maxFrameLen ++ List.replicate (maxFrameLen - msg.length) 0

/-- The loop that descrambles the packet, which starts after the header. -/
def descramble (length : ℕ) (data : List Byte) : Except CxxError (List Byte) :=
  (List.range length).foldlM (fun data i => do
    let byte ← access .outOfRange data (headerLen + i)
    let scrambling ← access .outOfRange scramblerSequence i
    store .outOfRange data (headerLen + i) (byte ^^^ scrambling)) data

/-- `crc8` of the packet. -/
def crc8 (data : List Byte) (length : ℕ) : Except CxxError Byte :=
  (List.range length).foldlM (fun crc i => do
    let byte ← access .outOfRange data (headerLen + i)
    access .outOfRange crc8Table (crc ^^^ byte).toNat) 0

/-- `init_u8vector`, which reads the packet. -/
def initU8vector (length : ℕ) (data : List Byte) : Except CxxError (List Byte) :=
  if headerLen + length ≤ data.length then .ok ((data.drop headerLen).take length)
  else .error .outOfRange

/-- `msg_handler`, once Reed-Solomon decoding has left some bytes: the packet published, if
any. -/
def handleDecoded (msgLength : ℕ) (data : List Byte) : Except CxxError (Option (List Byte)) := do
  let length := (← access .outOfRange data lenByte).toNat
  if subSize msgLength headerLen ≤ length then return none
  let data ← descramble length data
  let crc ← crc8 data length
  if crc ≠ (← access .outOfRange data crcByte) then return none
  return some (← initU8vector length data)

/-- `msg_handler`, for a codec of the Reed-Solomon code. -/
def msgHandler (codec : Rs.Codec maxFrameLen 4) : Msg M → Except CxxError (Option (List Byte))
  | .other _ => .error .wrongType
  | .u8vector ⟨_, msg⟩ =>
    match codec.decode (fillData msg) with
    | none => .ok none
    | some (data, _) => handleDecoded (min msg.length maxFrameLen) data

/-- No access is out of range, and the length of the header is not taken from less. -/
structure IndexSafe (codec : Rs.Codec maxFrameLen 4) (pdu : Pdu M) : Prop where
  accesses : Returns (msgHandler codec (.u8vector pdu)) fun _ => True
  noWrap : ∀ data count, codec.decode (fillData pdu.cdr) = some (data, count) →
    headerLen ≤ min pdu.cdr.length maxFrameLen

/-- The length that decoded bytes announce. -/
def lengthField (data : List Byte) : ℕ := (data.headD 0).toNat

/-- The message has a header, and its length byte is refused or within the sequence. -/
def LengthOk (msg data : List Byte) : Prop :=
  headerLen ≤ msg.length ∧
    (min msg.length maxFrameLen ≤ headerLen + lengthField data ∨
      lengthField data ≤ scramblerSequence.length)

/-! ## Steps -/

theorem length_fillData (msg : List Byte) : (fillData msg).length = maxFrameLen := by
  rw [fillData, List.length_append, List.length_take, List.length_replicate]
  omega

theorem length_decoded {codec : Rs.Codec maxFrameLen 4} {msg data : List Byte} {count : ℕ}
    (h : codec.decode (fillData msg) = some (data, count)) : data.length = maxFrameLen := by
  rw [codec.length_decode h, length_fillData]

variable {data : List Byte} {length msgLength : ℕ}

theorem lengthField_le (data : List Byte) : lengthField data ≤ 255 :=
  Nat.le_of_lt_succ (data.headD 0).isLt

/-- A round of the descrambling loop. -/
theorem descrambleRound (hdata : data.length = maxFrameLen) {i : ℕ}
    (hi : i < scramblerSequence.length) :
    Returns (do
      let byte ← access CxxError.outOfRange data (headerLen + i)
      let scrambling ← access CxxError.outOfRange scramblerSequence i
      store CxxError.outOfRange data (headerLen + i) (byte ^^^ scrambling))
        fun data => data.length = maxFrameLen := by
  have hin : headerLen + i < data.length := by
    have : scramblerSequence.length = 64 := rfl
    rw [hdata, headerLen, maxFrameLen]
    omega
  refine (Returns.access hin).bind fun byte _ => (Returns.access hi).bind fun scrambling _ => ?_
  refine (Returns.store hin _).mono fun stored hstored => ?_
  rw [hstored, List.length_set, hdata]

theorem descramble_of_le (hdata : data.length = maxFrameLen)
    (h : length ≤ scramblerSequence.length) :
    Returns (descramble length data) fun data => data.length = maxFrameLen :=
  Returns.foldlM_range (fun _ (data : List Byte) => data.length = maxFrameLen)
    (fun _ hi _ hdata => descrambleRound hdata (hi.trans_le h)) hdata

/-- A longer packet needs more of the sequence than there is. -/
theorem descramble_of_lt (hdata : data.length = maxFrameLen)
    (h : scramblerSequence.length < length) : descramble length data = .error .outOfRange := by
  refine Returns.foldlM_range_error (fun _ (data : List Byte) => data.length = maxFrameLen)
    (fun _ hi _ hdata => descrambleRound hdata hi) (fun data hdata => ?_) h hdata
  have hin : headerLen + scramblerSequence.length < data.length := by
    rw [hdata]
    decide
  rw [access_of_lt hin, access_of_le le_rfl]
  rfl

theorem length_crc8Table : crc8Table.length = 256 := by decide +kernel

theorem crc8_of_le (hdata : headerLen + length ≤ data.length) :
    Returns (crc8 data length) fun _ => True := by
  refine Returns.foldlM_range (fun _ _ => True) (fun i hi crc _ => ?_) trivial
  have hin : headerLen + i < data.length := by omega
  refine (Returns.access hin).bind fun byte _ => ?_
  have htable : (crc ^^^ byte).toNat < crc8Table.length := by
    rw [length_crc8Table]
    exact (crc ^^^ byte).isLt
  exact (Returns.access htable).mono fun _ _ => trivial

/-! ## Handling messages -/

theorem access_lenByte (hdata : data.length = maxFrameLen) :
    access CxxError.outOfRange data lenByte = .ok (data.headD 0) := by
  cases data with
  | nil => cases hdata
  | cons byte data => rfl

theorem handleDecoded_eq (hdata : data.length = maxFrameLen) : handleDecoded msgLength data =
    if subSize msgLength headerLen ≤ lengthField data then .ok none
    else do
      let data' ← descramble (lengthField data) data
      let crc ← crc8 data' (lengthField data)
      if crc ≠ (← access .outOfRange data' crcByte) then return none
      return some (← initU8vector (lengthField data) data') := by
  rw [handleDecoded, access_lenByte hdata, ok_bind]
  rfl

/-- A length that is refused ends the handler. -/
theorem handleDecoded_of_refused (hdata : data.length = maxFrameLen)
    (h : subSize msgLength headerLen ≤ lengthField data) :
    handleDecoded msgLength data = .ok none := by
  rw [handleDecoded_eq hdata, if_pos h]

theorem handleDecoded_of_le (hdata : data.length = maxFrameLen)
    (h : lengthField data ≤ scramblerSequence.length) :
    Returns (handleDecoded msgLength data) fun _ => True := by
  by_cases hrefused : subSize msgLength headerLen ≤ lengthField data
  · rw [handleDecoded_of_refused hdata hrefused]
    exact Returns.ok trivial
  rw [handleDecoded_eq hdata, if_neg hrefused]
  refine (descramble_of_le hdata h).bind fun data' hdata' => ?_
  have hlong : headerLen + lengthField data ≤ data'.length := by
    have : scramblerSequence.length = 64 := rfl
    rw [hdata', headerLen, maxFrameLen]
    omega
  refine (crc8_of_le hlong).bind fun crc _ => ?_
  have hcrc : crcByte < data'.length := by
    rw [hdata']
    decide
  refine (Returns.access hcrc).bind fun byte _ => ?_
  split
  · exact Returns.ok trivial
  · have hinit : initU8vector (lengthField data) data' =
        .ok ((data'.drop headerLen).take (lengthField data)) := if_pos hlong
    show Returns (initU8vector (lengthField data) data' >>= _) _
    rw [hinit]
    exact Returns.ok trivial

theorem handleDecoded_of_lt (hdata : data.length = maxFrameLen)
    (haccepted : lengthField data < subSize msgLength headerLen)
    (h : scramblerSequence.length < lengthField data) :
    handleDecoded msgLength data = .error .outOfRange := by
  rw [handleDecoded_eq hdata, if_neg (Nat.not_le.mpr haccepted), descramble_of_lt hdata h]
  rfl

/-- **Index safety.** The handler is safe for exactly the messages that are not decoded, and
those that have a header and a length byte which is refused or at most 64. -/
theorem indexSafe_iff (codec : Rs.Codec maxFrameLen 4) (pdu : Pdu M) :
    IndexSafe codec pdu ↔ ∀ data count,
      codec.decode (fillData pdu.cdr) = some (data, count) → LengthOk pdu.cdr data := by
  constructor
  · rintro ⟨hreturns, hnoWrap⟩ data count hdecode
    have hdata := length_decoded hdecode
    have hheader := hnoWrap data count hdecode
    have hle : headerLen ≤ pdu.cdr.length := hheader.trans (Nat.min_le_left _ _)
    refine ⟨hle, ?_⟩
    by_contra hbad
    obtain ⟨haccepted, hlong⟩ := not_or.mp hbad
    have hsub : subSize (min pdu.cdr.length maxFrameLen) headerLen =
        min pdu.cdr.length maxFrameLen - headerLen :=
      subSize_of_le hheader (Nat.lt_of_le_of_lt (Nat.min_le_right _ _) (by decide))
    obtain ⟨out, hout, -⟩ := hreturns
    rw [msgHandler, hdecode] at hout
    simp only at hout
    rw [handleDecoded_of_lt hdata (by omega) (Nat.not_le.mp hlong)] at hout
    cases hout
  · intro h
    refine ⟨?_, fun data count hdecode => ?_⟩
    · rw [msgHandler]
      cases hdecode : codec.decode (fillData pdu.cdr) with
      | none => exact Returns.ok trivial
      | some decoded =>
        obtain ⟨data, count⟩ := decoded
        have hdata := length_decoded hdecode
        obtain ⟨hle, hlength⟩ := h data count hdecode
        have hmin : headerLen ≤ min pdu.cdr.length maxFrameLen := le_min hle (by decide)
        have hsub : subSize (min pdu.cdr.length maxFrameLen) headerLen =
            min pdu.cdr.length maxFrameLen - headerLen :=
          subSize_of_le hmin (Nat.lt_of_le_of_lt (Nat.min_le_right _ _) (by decide))
        simp only
        rcases hlength with hrefused | hshort
        · rw [handleDecoded_of_refused hdata (by omega)]
          exact Returns.ok trivial
        · exact handleDecoded_of_le hdata hshort
    · exact le_min (h data count hdecode).1 (by decide)

/-- A codec that finds no error in any word. -/
def noErrors : Rs.Codec maxFrameLen 4 where
  encode _ := List.replicate 4 0
  decode word := some (word, 0)
  length_encode _ := rfl
  length_decode h := by
    obtain ⟨rfl, -⟩ := Prod.mk.inj (Option.some.inj h)
    rfl

/-- A codeword of 255 bytes whose length byte is 65. -/
def longCodeword : List Byte := 65 :: (List.replicate 250 0 ++ [0x31, 0x04, 0xdb, 0x80])

/-- It is decoded without errors, and then descrambled past the end of the sequence. -/
theorem not_indexSafe_long : ¬ ∀ (codec : Rs.Codec maxFrameLen 4) (pdu : Pdu Unit),
    IndexSafe codec pdu := by
  intro h
  obtain ⟨-, hrefused | hshort⟩ := (indexSafe_iff _ _).mp (h noErrors ⟨(), longCodeword⟩) _ _ rfl
  · have hlength : longCodeword.length = 255 := by
      rw [longCodeword, List.length_cons, List.length_append, List.length_replicate]
      rfl
    rw [hlength] at hrefused
    exact absurd hrefused (by decide)
  · exact absurd hshort (by decide)

end GrSatellites.Nusat
