import GrSatellites.Mobitex.Callsign
import GrSatellites.Mobitex.Fec

/-!
# Frames with errors

A frame is decoded when there is at most one wrong bit in each codeword of the control bytes, in
the callsign with its CRC, and in each codeword of the data blocks, all at once.
-/

namespace GrSatellites.Mobitex

open Bits BitFlips Endian

variable {M : Type}

/-- What is sent in a frame. The first control byte has the number of data blocks. -/
structure Frame where
  control0 : Byte
  control1 : Byte
  callsign : List Byte
  blocks : List (List Byte)
  length_callsign : callsign.length = 6
  ascii : ∀ byte ∈ callsign, byte.toNat < 128
  length_blocks : blocks.length = control0.toNat % 32 + 1
  length_block : ∀ block ∈ blocks, block.length = 20

/-- The bits of a frame that are wrong when it is received: at most one in each codeword of the
control bytes, in the callsign with its CRC, and in each codeword of the data blocks. -/
structure FrameErrors (frame : Frame) where
  control0 : Option (Fin 12)
  control1 : Option (Fin 12)
  callsign : Option (Fin 64)
  blocks : List (List (Option (Fin 12)))
  length_blocks : blocks.length = frame.blocks.length
  length_block : ∀ block ∈ blocks, block.length = 20

/-- The codewords of the control bytes in a frame: the control bytes, and a byte for the FEC bits
of both. -/
def controlBytes (codeword0 codeword1 : ℕ) : List Byte :=
  [BitVec.ofNat 8 (codeword0 >>> 4), BitVec.ofNat 8 (codeword1 >>> 4),
    BitVec.ofNat 8 (((codeword0 &&& 0x0F) <<< 4) ||| (codeword1 &&& 0x0F))]

/-- A byte string in which one bit is flipped, or none. -/
def flipPair (pair : List Byte) : Option (Fin 64) → List Byte
  | none => pair
  | some place => flipBit pair place.val

namespace Frame

variable (frame : Frame)

/-- The header that is sent. -/
def header : List Byte :=
  [frame.control0, frame.control1,
    BitVec.ofNat 8 (encodeControl frame.control0.toNat frame.control1.toNat)] ++
      (frame.callsign ++ callsignCrc frame.callsign)

/-- The data blocks, each with the bits of it that are wrong. -/
def blocksWith (errors : FrameErrors frame) : List (List Byte × List (Option (Fin 12))) :=
  frame.blocks.zip errors.blocks

/-- The data blocks that are received. -/
def receivedBlocks (errors : FrameErrors frame) : List (List Byte) :=
  (frame.blocksWith errors).map fun (data, flips) => blockBytes data flips

/-- The bytes that are received, with noise behind the frame. -/
def received (errors : FrameErrors frame) (noise : List Byte) : List Byte :=
  controlBytes (flipCodeword (encode frame.control0.toNat) errors.control0)
      (flipCodeword (encode frame.control1.toNat) errors.control1) ++
    (flipPair (frame.callsign ++ callsignCrc frame.callsign) errors.callsign ++
      ((frame.receivedBlocks errors).flatten ++ noise))

end Frame

/-- What a PDU says about a data block. -/
structure Decoded where
  data : List Byte
  blockId : Option Value
  correctedErrors : Option Value
  uncorrectedErrors : Option Value
  frameHeader : Option Value

/-- The data and the metadata of a PDU. -/
def Decoded.ofPdu (pdu : Pdu Meta) : Decoded where
  data := pdu.cdr
  blockId := pdu.car.get? "block_id"
  correctedErrors := pdu.car.get? "corrected_errors"
  uncorrectedErrors := pdu.car.get? "uncorrected_errors"
  frameHeader := pdu.car.get? "frame_header"

/-- What should be published for a data block: its number, its data, and how many of its bits were
wrong; the first block has the header too. -/
def Decoded.expected (header : List Byte) (data : List Byte) (flips : List (Option (Fin 12)))
    (blockIdx : ℕ) : Decoded where
  data := data
  blockId := some (.long blockIdx)
  correctedErrors := some (.long (flips.countP Option.isSome))
  uncorrectedErrors := some (.long 0)
  frameHeader := if blockIdx = 0 then some (.u8vector header) else none

/-- The two blocks one behind the other. -/
def ToDatablocks.receive (b : ToDatablocks) (msg : Msg M) : Except PyError (List (Pdu Meta)) := do
  let blocks ← b.handleMsg msg
  let decoded ← blocks.mapM fun pdu => fecHandleMsg (.u8vector pdu)
  return decoded.flatten

/-! ## Control bytes -/

/-- Without errors the control codewords are the bytes of the header. -/
theorem controlBytes_encode (control0 control1 : Byte) :
    controlBytes (encode control0.toNat) (encode control1.toNat) =
      [control0, control1, BitVec.ofNat 8 (encodeControl control0.toNat control1.toNat)] := by
  rw [controlBytes, encode_shiftRight, encode_shiftRight, BitVec.ofNat_toNat, BitVec.ofNat_toNat,
    BitVec.setWidth_eq, BitVec.setWidth_eq]
  rfl

/-- The codewords are read back from the control bytes. -/
theorem decodeControl_controlBytes {codeword0 codeword1 : ℕ} (h0 : codeword0 < 2 ^ 12)
    (h1 : codeword1 < 2 ^ 12) :
    decodeControl (BitVec.ofNat 8 (codeword0 >>> 4)) (BitVec.ofNat 8 (codeword1 >>> 4))
      (BitVec.ofNat 8 (((codeword0 &&& 0x0F) <<< 4) ||| (codeword1 &&& 0x0F))) = do
    let (control0, fec0, status0) ← decode codeword0
    let (control1, fec1, status1) ← decode codeword1
    if status0 = .errorUncorrectable ∨ status1 = .errorUncorrectable then return none
    else
      return some ⟨control0, control1, (fec0 <<< 4) ||| fec1,
        [status0, status1].countP (· = .errorCorrected)⟩ := by
  have hfec : (BitVec.ofNat 8 (((codeword0 &&& 0x0F) <<< 4) ||| (codeword1 &&& 0x0F))).toNat =
      codeword0 % 16 * 16 + codeword1 % 16 := by
    rw [and_0x0F, and_0x0F, shiftLeft_or (by omega), BitVec.toNat_ofNat]
    omega
  have hhigh (codeword : ℕ) (h : codeword < 2 ^ 12) :
      (BitVec.ofNat 8 (codeword >>> 4)).toNat = codeword / 16 := by
    rw [shiftRight_four, BitVec.toNat_ofNat]
    omega
  have hfirst : ((BitVec.ofNat 8 (codeword0 >>> 4)).toNat <<< 4) |||
      ((BitVec.ofNat 8 (((codeword0 &&& 0x0F) <<< 4) ||| (codeword1 &&& 0x0F))).toNat >>> 4) =
        codeword0 := by
    rw [hfec, hhigh codeword0 h0, shiftRight_four, shiftLeft_or (by omega)]
    omega
  have hsecond : ((BitVec.ofNat 8 (codeword1 >>> 4)).toNat <<< 4) |||
      ((BitVec.ofNat 8 (((codeword0 &&& 0x0F) <<< 4) ||| (codeword1 &&& 0x0F))).toNat &&& 0x0F) =
        codeword1 := by
    rw [hfec, hhigh codeword1 h1, and_0x0F, shiftLeft_or (by omega)]
    omega
  rw [decodeControl, hfirst, hsecond]

theorem decodeControl_flipCodeword (control0 control1 : Byte) (error0 error1 : Option (Fin 12)) :
    ∃ bitErrors, decodeControl
      (BitVec.ofNat 8 (flipCodeword (encode control0.toNat) error0 >>> 4))
      (BitVec.ofNat 8 (flipCodeword (encode control1.toNat) error1 >>> 4))
      (BitVec.ofNat 8 (((flipCodeword (encode control0.toNat) error0 &&& 0x0F) <<< 4) |||
        (flipCodeword (encode control1.toNat) error1 &&& 0x0F))) =
      .ok (some ⟨control0.toNat, control1.toNat, encodeControl control0.toNat control1.toNat,
        bitErrors⟩) := by
  have hstatus (error : Option (Fin 12)) : statusOf error ≠ .errorUncorrectable := by
    cases error <;> simp [statusOf]
  refine ⟨[statusOf error0, statusOf error1].countP (· = .errorCorrected), ?_⟩
  rw [decodeControl_controlBytes (flipCodeword_lt _ _) (flipCodeword_lt _ _),
    decode_flipCodeword, decode_flipCodeword]
  simp only [bind, Except.bind, pure, Except.pure]
  rw [if_neg (not_or.mpr ⟨hstatus error0, hstatus error1⟩)]
  rfl

/-! ## Callsign -/

@[simp] theorem length_flipPair (pair : List Byte) (error : Option (Fin 64)) :
    (flipPair pair error).length = pair.length := by
  cases error with
  | none => rfl
  | some place => exact length_flipBit _ _

theorem distance_flipPair_le {pair : List Byte} (hpair : pair.length = 8)
    (error : Option (Fin 64)) : distance (flipPair pair error) pair ≤ 1 := by
  rw [distance_comm (length_flipPair pair error)]
  cases error with
  | none =>
    have hzero : distance pair (flipAll pair []) = 0 :=
      distance_flipAll (fun _ h => absurd h List.not_mem_nil) List.nodup_nil
    exact hzero.le.trans (Nat.zero_le 1)
  | some place =>
    have hone : distance pair (flipAll pair [place.val]) = 1 := by
      refine distance_flipAll (fun i hi => ?_) (List.nodup_singleton _)
      rw [List.mem_singleton.mp hi, hpair]
      exact place.isLt
    exact hone.le

theorem setSlice_append {before old new after : List Byte} {start stop : ℕ}
    (hstart : before.length = start) (hstop : start + old.length = stop) :
    setSlice (before ++ (old ++ after)) start stop new = before ++ (new ++ after) := by
  rw [setSlice, List.take_left' hstart, ← List.append_assoc before old after,
    List.drop_left' (by rw [List.length_append, hstart, hstop]), List.append_assoc]

/-- The callsign and its CRC are put right in the packet. -/
theorem correctCallsign_flipPair {b : ToDatablocks} (hcallsignRef : b.callsignRef = none)
    (hthreshold : 1 ≤ b.callsignThreshold) {callsign : List Byte} (hcallsign : callsign.length = 6)
    (hascii : ∀ byte ∈ callsign, byte.toNat < 128) (error : Option (Fin 64))
    {control : List Byte} (hcontrol : control.length = 3) (rest : List Byte) :
    ∃ bitErrors, b.correctCallsign
      (control ++ (flipPair (callsign ++ callsignCrc callsign) error ++ rest)) =
        .ok (some (control ++ ((callsign ++ callsignCrc callsign) ++ rest), bitErrors)) := by
  have hcrc : (callsignCrc callsign).length = 2 := length_bytesBE 2 _
  have hpair : (callsign ++ callsignCrc callsign).length = 8 := by
    rw [List.length_append, hcallsign, hcrc]
  generalize hflipped : flipPair (callsign ++ callsignCrc callsign) error = flipped
  have hlength : flipped.length = 8 := by rw [← hflipped, length_flipPair, hpair]
  have hnear := distance_flipPair_le hpair error
  rw [hflipped, ← List.take_append_drop 6 flipped] at hnear
  have htake : (flipped.take 6).length = 6 := by rw [List.length_take, hlength]; rfl
  have hdrop : (flipped.drop 6).length = 2 := by rw [List.length_drop, hlength]
  have hdecode := @decodeUnknownCallsign_of_near callsign (callsignCrc callsign)
    b.callsignThreshold _ _ hcallsign (decide_eq_true rfl) htake hdrop hnear (by omega)
  have hsplit : control ++ (flipped ++ rest) =
      control ++ (flipped.take 6 ++ (flipped.drop 6 ++ rest)) := by
    rw [← List.append_assoc (flipped.take 6), List.take_append_drop]
  have hreceived : ((control ++ (flipped ++ rest)).drop 3).take 6 = flipped.take 6 := by
    rw [List.drop_left' hcontrol, List.take_append_of_le_length (by omega)]
  have hreceivedCrc : ((control ++ (flipped ++ rest)).drop 9).take 2 = flipped.drop 6 := by
    rw [hsplit, ← List.append_assoc, List.drop_left' (by rw [List.length_append, hcontrol, htake]),
      List.take_left' hdrop]
  have hset : setSlice (setSlice (control ++ (flipped ++ rest)) 3 9 callsign) 9 11
      (callsignCrc callsign) = control ++ ((callsign ++ callsignCrc callsign) ++ rest) := by
    rw [hsplit, setSlice_append hcontrol (by rw [htake]), ← List.append_assoc,
      setSlice_append (by rw [List.length_append, hcontrol, hcallsign]) (by rw [hdrop]),
      List.append_assoc, List.append_assoc]
  refine ⟨distance (flipped.take 6 ++ flipped.drop 6) (callsign ++ callsignCrc callsign), ?_⟩
  rw [ToDatablocks.correctCallsign, hcallsignRef, hreceived, hreceivedCrc, hdecode]
  simp only [bind, Except.bind, pure, Except.pure, hset]
  rw [if_neg]
  rintro ⟨byte, hbyte, hlarge⟩
  exact absurd (hascii byte hbyte) (Nat.not_lt.mpr hlarge)

/-! ## Frames -/

namespace Frame

variable {frame : Frame}

theorem length_header (frame : Frame) : frame.header.length = 11 := by
  rw [header, List.length_append, List.length_append, frame.length_callsign, callsignCrc,
    length_bytesBE]
  rfl

/-- The data blocks that are received have the size of a block. -/
theorem length_of_mem_blocksWith {errors : FrameErrors frame} {data : List Byte}
    {flips : List (Option (Fin 12))} (h : (data, flips) ∈ frame.blocksWith errors) :
    data.length = 20 ∧ flips.length = 20 := by
  obtain ⟨hdata, hflips⟩ := List.of_mem_zip h
  exact ⟨frame.length_block data hdata, errors.length_block flips hflips⟩

theorem length_of_mem_receivedBlocks {errors : FrameErrors frame} {block : List Byte}
    (h : block ∈ frame.receivedBlocks errors) : block.length = blockSize := by
  obtain ⟨⟨data, flips⟩, hmem, rfl⟩ := List.mem_map.mp h
  obtain ⟨hdata, hflips⟩ := length_of_mem_blocksWith hmem
  exact length_blockBytes hdata hflips

theorem length_blocksWith (errors : FrameErrors frame) :
    (frame.blocksWith errors).length = frame.control0.toNat % 32 + 1 := by
  rw [blocksWith, List.length_zip, errors.length_blocks, Nat.min_self, frame.length_blocks]

theorem length_flatten_receivedBlocks (errors : FrameErrors frame) :
    (frame.receivedBlocks errors).flatten.length = blockSize * (frame.control0.toNat % 32 + 1) := by
  have hlengths : (frame.receivedBlocks errors).map List.length =
      (frame.receivedBlocks errors).map fun _ => blockSize :=
    List.map_congr_left fun _ h => length_of_mem_receivedBlocks h
  rw [List.length_flatten, hlengths, List.map_const', List.sum_replicate, receivedBlocks,
    List.length_map, length_blocksWith, smul_eq_mul, Nat.mul_comm]

end Frame

/-- The metadata of a data block, with what the FEC adds to it. -/
theorem ofPdu_blockMeta (b : ToDatablocks) (controlFecValid : Bool) (controlBitErrors : ℤ)
    (callsignBitErrors numBlocks : ℕ) (frameHeader : List Byte) (blockIdx : ℕ)
    (data : List Byte) (flips : List (Option (Fin 12))) :
    Decoded.ofPdu ⟨((b.blockMeta controlFecValid controlBitErrors callsignBitErrors numBlocks
      frameHeader blockIdx).set "corrected_errors" (.long (flips.countP Option.isSome))).set
        "uncorrected_errors" (.long 0), data⟩ = .expected frameHeader data flips blockIdx := by
  have hne {i k : String} (d : Meta) (a : Value) (h : i ≠ k) : (d.set k a).get? i = d.get? i :=
    Dict.get?_set_of_ne h
  unfold Decoded.ofPdu Decoded.expected
  congr 1
  · rw [hne _ _ (by decide), hne _ _ (by decide), ToDatablocks.blockMeta, Dict.get?_set_self]
  · rw [hne _ _ (by decide), Dict.get?_set_self]
  · exact Dict.get?_set_self
  · rw [hne _ _ (by decide), hne _ _ (by decide), ToDatablocks.blockMeta, hne _ _ (by decide)]
    by_cases hfirst : blockIdx = 0
    · rw [if_pos hfirst, if_pos hfirst, hne _ _ (by decide), Dict.get?_set_self]
    · rw [if_neg hfirst, if_neg hfirst]
      rfl

/-- What the FEC publishes for a data block. -/
def decodedPdu (car : Meta) (data : List Byte) (flips : List (Option (Fin 12))) : Pdu Meta :=
  ⟨(car.set "corrected_errors" (.long (flips.countP Option.isSome))).set
    "uncorrected_errors" (.long 0), data⟩

/-- The FEC decodes data blocks one by one. -/
theorem mapM_fecHandleMsg (car : ℕ → Meta)
    {blocks : List ((List Byte × List (Option (Fin 12))) × ℕ)}
    (hblocks : ∀ block ∈ blocks, block.1.1.length = 20 ∧ block.1.2.length = 20) :
    (blocks.map fun ((data, flips), k) => (⟨car k, blockBytes data flips⟩ : Pdu Meta)).mapM
        (fun pdu => fecHandleMsg (.u8vector pdu)) =
      .ok (blocks.map fun ((data, flips), k) => [decodedPdu (car k) data flips]) := by
  induction blocks with
  | nil => rfl
  | cons block blocks ih =>
    obtain ⟨⟨data, flips⟩, k⟩ := block
    obtain ⟨hdata, hflips⟩ := hblocks _ List.mem_cons_self
    rw [List.map_cons, List.mapM_cons, fecHandleMsg_blockBytes _ hdata hflips,
      ih fun other hother => hblocks other (List.mem_cons_of_mem _ hother)]
    rfl

/-- The header of a frame is put right, and its data blocks are cut out. -/
theorem handleMsg_received {b : ToDatablocks} (hvariant : b.variant = .other)
    (hcallsignRef : b.callsignRef = none) (hthreshold : 1 ≤ b.callsignThreshold) (car : M)
    (frame : Frame) (errors : FrameErrors frame) (noise : List Byte) :
    ∃ controlBitErrors callsignBitErrors,
      b.handleMsg (.u8vector ⟨car, frame.received errors noise⟩) =
        .ok ((frame.blocksWith errors).zipIdx.map fun ((data, flips), k) =>
          ⟨b.blockMeta true controlBitErrors callsignBitErrors (frame.control0.toNat % 32 + 1)
            frame.header k, blockBytes data flips⟩) := by
  obtain ⟨controlBitErrors, hcontrol⟩ :=
    decodeControl_flipCodeword frame.control0 frame.control1 errors.control0 errors.control1
  obtain ⟨callsignBitErrors, hcallsign⟩ := @correctCallsign_flipPair b hcallsignRef hthreshold
    frame.callsign frame.length_callsign frame.ascii errors.callsign
    [frame.control0, frame.control1,
      BitVec.ofNat 8 (encodeControl frame.control0.toNat frame.control1.toNat)] rfl
    ((frame.receivedBlocks errors).flatten ++ noise)
  refine ⟨controlBitErrors, callsignBitErrors, ?_⟩
  have hparse : b.parseCallsign = true := by rw [ToDatablocks.parseCallsign, hvariant]; rfl
  have hnum : frame.control0.toNat &&& 0b00011111 = frame.control0.toNat % 32 :=
    Nat.and_two_pow_sub_one_eq_mod _ 5
  have hslice (x y z control0 control1 fec : Byte) (rest : List Byte) :
      setSlice (setSlice (x :: y :: z :: rest) 0 2 [control0, control1]) 2 3 [fec] =
        [control0, control1, fec] ++ rest := rfl
  have hpacket : [frame.control0, frame.control1,
      BitVec.ofNat 8 (encodeControl frame.control0.toNat frame.control1.toNat)] ++
        (frame.callsign ++ callsignCrc frame.callsign ++
          ((frame.receivedBlocks errors).flatten ++ noise)) =
      frame.header ++ ((frame.receivedBlocks errors).flatten ++ noise) := by
    exact (List.append_assoc _ _ _).symm
  have hheader : b.headerLength = frame.header.length := by
    rw [ToDatablocks.headerLength, hparse, Frame.length_header]
    rfl
  have hother : ¬Variant.other = .beesat9 := by decide
  rw [Frame.received, controlBytes, List.cons_append, List.cons_append, List.cons_append,
    List.nil_append]
  simp only [ToDatablocks.handleMsg, hcontrol, bind, Except.bind, pure, Except.pure,
    BitVec.ofNat_toNat, BitVec.setWidth_eq, hslice, hparse, if_true, hvariant]
  rw [if_neg fun h => h.2 trivial, hcallsign]
  simp only [hpacket, hheader, List.take_left, List.drop_left, if_neg hother, hnum]
  rw [List.take_left' (Frame.length_flatten_receivedBlocks errors),
    slices_flatten (by decide) fun _ h => Frame.length_of_mem_receivedBlocks h,
    Frame.receivedBlocks, List.zipIdx_map, List.map_map]
  rfl

/-- **Frames with errors.** A frame with at most one wrong bit in each codeword of the control
bytes, in the callsign with its CRC, and in each codeword of the data, is decoded: one PDU is
published for each data block, in order, with the data, the number of wrong bits, and the header
on the first one, whatever noise is behind the frame. -/
theorem receive_received (dropInvalidControl : Bool) {callsignThreshold : ℤ}
    (hthreshold : 1 ≤ callsignThreshold) (car : M) (frame : Frame) (errors : FrameErrors frame)
    (noise : List Byte) :
    ∃ pdus, ToDatablocks.receive ⟨.other, none, dropInvalidControl, callsignThreshold⟩
        (.u8vector ⟨car, frame.received errors noise⟩) = .ok pdus ∧
      pdus.length = frame.control0.toNat % 32 + 1 ∧
      pdus.map Decoded.ofPdu = (frame.blocksWith errors).zipIdx.map fun ((data, flips), k) =>
        .expected frame.header data flips k := by
  obtain ⟨controlBitErrors, callsignBitErrors, hblocks⟩ := @handleMsg_received M
    ⟨.other, none, dropInvalidControl, callsignThreshold⟩ rfl rfl hthreshold car frame errors noise
  have hlength : ∀ block ∈ (frame.blocksWith errors).zipIdx,
      block.1.1.length = 20 ∧ block.1.2.length = 20 := by
    rintro ⟨⟨data, flips⟩, k⟩ hmem
    have hget := (List.mem_zipIdx' hmem).2
    exact Frame.length_of_mem_blocksWith (hget ▸ List.getElem_mem _)
  have hfec := mapM_fecHandleMsg (ToDatablocks.blockMeta
    ⟨.other, none, dropInvalidControl, callsignThreshold⟩ true controlBitErrors callsignBitErrors
      (frame.control0.toNat % 32 + 1) frame.header) hlength
  refine ⟨(frame.blocksWith errors).zipIdx.map fun ((data, flips), k) => decodedPdu
    (ToDatablocks.blockMeta ⟨.other, none, dropInvalidControl, callsignThreshold⟩ true
      controlBitErrors callsignBitErrors (frame.control0.toNat % 32 + 1) frame.header k) data flips,
    ?_, ?_, ?_⟩
  · rw [ToDatablocks.receive, hblocks]
    simp only [bind, Except.bind, hfec, pure, Except.pure]
    rw [← List.flatMap_def, ← List.map_eq_flatMap]
  · rw [List.length_map, List.length_zipIdx, Frame.length_blocksWith]
  · rw [List.map_map]
    exact List.map_congr_left fun _ _ => ofPdu_blockMeta _ _ _ _ _ _ _ _ _

/-- A frame with one block, and an error in each part of it. -/
def exampleFrame : Frame where
  control0 := 0x40
  control1 := 0x07
  callsign := [0x44, 0x50, 0x30, 0x42, 0x45, 0x4d]
  blocks := [(List.range 20).map (BitVec.ofNat 8)]
  length_callsign := rfl
  ascii := by decide
  length_blocks := rfl
  length_block := by decide

/-- The errors of the example. -/
def exampleErrors : FrameErrors exampleFrame where
  control0 := some 11
  control1 := some 2
  callsign := some 63
  blocks := [(some 5) :: none :: List.replicate 18 (some 0)]
  length_blocks := rfl
  length_block := by decide

theorem receive_received_example :
    ∃ pdus, ToDatablocks.receive ⟨.other, none, true, 1⟩
        (.u8vector ⟨(), exampleFrame.received exampleErrors [0xff]⟩) = .ok pdus ∧
      pdus.length = exampleFrame.control0.toNat % 32 + 1 ∧
      pdus.map Decoded.ofPdu = (exampleFrame.blocksWith exampleErrors).zipIdx.map
        fun ((data, flips), k) => .expected exampleFrame.header data flips k :=
  receive_received true le_rfl () exampleFrame exampleErrors [0xff]

end GrSatellites.Mobitex
