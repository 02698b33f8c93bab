import GrSatellites.Library.Attempt
import GrSatellites.Mobitex.Model

/-!
# Codewords and data blocks

Each codeword of twelve bits is decoded when at most one of its bits is wrong. A data block packs
the codewords of its bytes in pairs.
-/

namespace GrSatellites.Mobitex

open Bits

/-- A codeword in which one bit is flipped, or none. -/
def flipCodeword (codeword : ℕ) : Option (Fin 12) → ℕ
  | none => codeword
  | some place => codeword ^^^ (1 <<< place.val)

/-- What `decode` says about a codeword in which one bit is flipped, or none. -/
def statusOf (error : Option (Fin 12)) : Status :=
  if error.isSome then .errorCorrected else .noError

/-- The codewords of some bytes, packed in pairs. -/
def packWords : List ℕ → List Byte
  | codeword0 :: codeword1 :: rest => pack2b codeword0 codeword1 ++ packWords rest
  | _ => []

/-- A data block as it is received, with at most one bit flipped in each codeword. -/
def blockBytes (data : List Byte) (errors : List (Option (Fin 12))) : List Byte :=
  packWords (List.zipWith flipCodeword (data.map fun byte => encode byte.toNat) errors)

/-! ## Codewords -/

/-- The outcome of `decode` is a message, its FEC bits and a status. -/
def decodesTo (codeword message : ℕ) (status : Status) : Bool :=
  match decode codeword with
  | .ok (message', fec, status') =>
    message' = message && fec = encode message &&& 0x0F && status' = status
  | .error _ => false

theorem decode_of_decodesTo {codeword message : ℕ} {status : Status}
    (h : decodesTo codeword message status = true) :
    decode codeword = .ok (message, encode message &&& 0x0F, status) := by
  unfold decodesTo at h
  split at h
  case h_1 message' fec status' hdecode =>
    simp only [Bool.and_eq_true, decide_eq_true_eq] at h
    obtain ⟨⟨rfl, rfl⟩, rfl⟩ := h
    exact hdecode
  case h_2 => cases h

theorem decodesTo_encode :
    ∀ message : Fin 256, decodesTo (encode message.val) message.val .noError = true := by
  decide +kernel

theorem decodesTo_encode_flip : ∀ (message : Fin 256) (place : Fin 12),
    decodesTo (encode message.val ^^^ (1 <<< place.val)) message.val .errorCorrected = true := by
  decide +kernel

/-- One wrong bit of a codeword is corrected. -/
theorem decode_flipCodeword (message : Byte) (error : Option (Fin 12)) :
    decode (flipCodeword (encode message.toNat) error) =
      .ok (message.toNat, encode message.toNat &&& 0x0F, statusOf error) := by
  refine decode_of_decodesTo ?_
  cases error with
  | none => exact decodesTo_encode ⟨message.toNat, message.isLt⟩
  | some place => exact decodesTo_encode_flip ⟨message.toNat, message.isLt⟩ place

theorem decode_lt {codeword : ℕ} {result : ℕ × ℕ × Status} (h : decode codeword = .ok result) :
    codeword < 2 ^ 12 := by
  unfold decode at h
  split at h
  case isTrue => cases h
  case isFalse hle => omega

theorem flipCodeword_lt (message : Byte) (error : Option (Fin 12)) :
    flipCodeword (encode message.toNat) error < 2 ^ 12 :=
  decode_lt (decode_flipCodeword message error)

theorem encode_lt (message : Byte) : encode message.toNat < 2 ^ 12 := flipCodeword_lt message none

theorem encode_shiftRight (message : Byte) : encode message.toNat >>> 4 = message.toNat := by
  have h : ∀ message : Fin 256, encode message.val >>> 4 = message.val := by decide +kernel
  exact h ⟨message.toNat, message.isLt⟩

/-! ## Packing -/

theorem shiftLeft_or {a b k : ℕ} (hb : b < 2 ^ k) : (a <<< k) ||| b = a * 2 ^ k + b := by
  rw [← Nat.shiftLeft_add_eq_or_of_lt hb, Nat.shiftLeft_eq]

theorem and_0x0F (a : ℕ) : a &&& 0x0F = a % 16 := Nat.and_two_pow_sub_one_eq_mod a 4

theorem shiftRight_four (a : ℕ) : a >>> 4 = a / 16 := Nat.shiftRight_eq_div_pow a 4

/-- Two codewords come back from the bytes that they are packed into. -/
theorem unpack2b_pack2b {codeword0 codeword1 : ℕ} (h0 : codeword0 < 2 ^ 12)
    (h1 : codeword1 < 2 ^ 12) :
    unpack2b (pack2b codeword0 codeword1) = .ok [codeword0, codeword1] := by
  have hhigh : codeword1 >>> 8 = codeword1 / 256 := Nat.shiftRight_eq_div_pow codeword1 8
  have hlow : codeword1 &&& 0xFF = codeword1 % 256 := Nat.and_two_pow_sub_one_eq_mod codeword1 8
  have hmiddle : ((codeword0 &&& 0x0F) <<< 4) ||| (codeword1 >>> 8) =
      codeword0 % 16 * 16 + codeword1 / 256 := by
    rw [hhigh, and_0x0F, shiftLeft_or (by omega)]
    rfl
  rw [pack2b, unpack2b, hmiddle, hlow, shiftRight_four]
  simp only [BitVec.toNat_ofNat]
  rw [and_0x0F, shiftRight_four, shiftLeft_or (by omega), shiftLeft_or (by omega)]
  congr 2
  · omega
  · congr 1
    omega

theorem length_pack2b (codeword0 codeword1 : ℕ) : (pack2b codeword0 codeword1).length = 3 := rfl

/-! ## Slices -/

theorem slices_nil (size : ℕ) : slices size [] = [] := by
  rcases Nat.eq_zero_or_pos size with rfl | hsize
  · rfl
  · rw [slices, List.length_nil, Nat.div_eq_of_lt (by omega)]
    rfl

theorem slices_append {size : ℕ} (hsize : 0 < size) {block : List Byte}
    (hblock : block.length = size) (rest : List Byte) :
    slices size (block ++ rest) = block :: slices size rest := by
  have hcount : ((block ++ rest).length + (size - 1)) / size =
      (rest.length + (size - 1)) / size + 1 := by
    rw [List.length_append, hblock, Nat.add_assoc, Nat.add_div_left _ hsize]
  unfold slices
  rw [hcount, List.range_succ_eq_map, List.map_cons, List.map_map]
  congr 1
  · rw [Nat.mul_zero, List.drop_zero, List.take_left' hblock]
  · refine List.map_congr_left fun i _ => ?_
    have hdrop : size * (i + 1) = block.length + size * i := by rw [hblock]; ring
    simp only [Function.comp, hdrop, List.drop_length_add_append]

/-- Blocks of one size are the slices of what they make up. -/
theorem slices_flatten {size : ℕ} (hsize : 0 < size) {blocks : List (List Byte)}
    (hblocks : ∀ block ∈ blocks, block.length = size) : slices size blocks.flatten = blocks := by
  induction blocks with
  | nil => exact slices_nil size
  | cons block blocks ih =>
    rw [List.flatten_cons, slices_append hsize (hblocks block List.mem_cons_self),
      ih fun other hother => hblocks other (List.mem_cons_of_mem block hother)]

/-! ## Data blocks -/

/-- The codewords of a block come back, if their number is even. -/
theorem mapM_unpack2b_packWords {codewords : List ℕ} (hlt : ∀ codeword ∈ codewords, codeword < 2 ^ 12)
    (heven : codewords.length % 2 = 0) :
    ∃ pairs, (slices 3 (packWords codewords)).mapM unpack2b = .ok pairs ∧
      pairs.flatten = codewords := by
  induction codewords using packWords.induct with
  | case1 codeword0 codeword1 rest ih =>
    obtain ⟨pairs, hpairs, hflatten⟩ := ih
      (fun codeword h => hlt codeword (List.mem_cons_of_mem _ (List.mem_cons_of_mem _ h)))
      (by rw [List.length_cons, List.length_cons] at heven; omega)
    refine ⟨[codeword0, codeword1] :: pairs, ?_, by rw [List.flatten_cons, hflatten]; rfl⟩
    rw [packWords, slices_append (by decide) (length_pack2b codeword0 codeword1), List.mapM_cons,
      unpack2b_pack2b (hlt _ List.mem_cons_self)
        (hlt _ (List.mem_cons_of_mem _ List.mem_cons_self)), hpairs]
    rfl
  | case2 codewords hshort =>
    cases codewords with
    | nil => exact ⟨[], congrArg (List.mapM unpack2b) (slices_nil 3), rfl⟩
    | cons codeword rest =>
      cases rest with
      | nil => cases heven
      | cons other rest => exact absurd rfl (hshort codeword other rest)

theorem length_packWords {codewords : List ℕ} (heven : codewords.length % 2 = 0) :
    (packWords codewords).length * 2 = codewords.length * 3 := by
  induction codewords using packWords.induct with
  | case1 codeword0 codeword1 rest ih =>
    rw [List.length_cons, List.length_cons] at heven ⊢
    have hrest := ih (by omega)
    rw [packWords, List.length_append, length_pack2b]
    omega
  | case2 codewords hshort =>
    cases codewords with
    | nil => rfl
    | cons codeword rest =>
      cases rest with
      | nil => cases heven
      | cons other rest => exact absurd rfl (hshort codeword other rest)

section

variable {data : List Byte} {errors : List (Option (Fin 12))}

theorem length_blockBytes (hdata : data.length = 20) (herrors : errors.length = 20) :
    (blockBytes data errors).length = 30 := by
  have hlength : (List.zipWith flipCodeword (data.map fun byte => encode byte.toNat) errors).length
      = 20 := by
    rw [List.length_zipWith, List.length_map, hdata, herrors]
    rfl
  have hpack := length_packWords (by rw [hlength] : _ % 2 = 0)
  rw [hlength] at hpack
  rw [blockBytes]
  omega

/-- Every codeword of a block is decoded to its byte. -/
theorem mapM_decode (hlength : data.length = errors.length) :
    (List.zipWith flipCodeword (data.map fun byte => encode byte.toNat) errors).mapM decode =
      .ok (List.zipWith (fun (byte : Byte) error =>
        (byte.toNat, encode byte.toNat &&& 0x0F, statusOf error)) data errors) := by
  induction data generalizing errors with
  | nil => rfl
  | cons byte data ih =>
    cases errors with
    | nil => cases hlength
    | cons error errors =>
      rw [List.map_cons, List.zipWith_cons_cons, List.mapM_cons, decode_flipCodeword,
        ih (Nat.succ.inj hlength)]
      rfl

theorem countP_statusOf (hlength : data.length = errors.length) (p : Status → Bool) :
    (List.zipWith (fun (byte : Byte) error =>
      (byte.toNat, encode byte.toNat &&& 0x0F, statusOf error)) data errors).countP
        (fun (_, _, status) => p status) = errors.countP fun error => p (statusOf error) := by
  induction data generalizing errors with
  | nil => rw [List.length_eq_zero_iff.mp hlength.symm]; rfl
  | cons byte data ih =>
    cases errors with
    | nil => cases hlength
    | cons error errors =>
      rw [List.zipWith_cons_cons, List.countP_cons, List.countP_cons, ih (Nat.succ.inj hlength)]

/-- The data of a block comes back, with the number of bits that were flipped. -/
theorem fecHandleMsg_blockBytes (car : Meta) (hdata : data.length = 20)
    (herrors : errors.length = 20) :
    fecHandleMsg (.u8vector ⟨car, blockBytes data errors⟩) =
      .ok [⟨(car.set "corrected_errors" (.long (errors.countP Option.isSome))).set
        "uncorrected_errors" (.long 0), data⟩] := by
  have hlength : data.length = errors.length := hdata.trans herrors.symm
  have hlt : ∀ codeword ∈ List.zipWith flipCodeword (data.map fun byte => encode byte.toNat) errors,
      codeword < 2 ^ 12 := by
    intro codeword hmem
    obtain ⟨i, hi, rfl⟩ := List.mem_iff_getElem.mp hmem
    rw [List.getElem_zipWith, List.getElem_map]
    exact flipCodeword_lt _ _
  have heven : (List.zipWith flipCodeword (data.map fun byte => encode byte.toNat) errors).length
      % 2 = 0 := by
    rw [List.length_zipWith, List.length_map, hdata, herrors]
    rfl
  obtain ⟨pairs, hpairs, hflatten⟩ := mapM_unpack2b_packWords hlt heven
  have hbytes : (List.zipWith (fun (byte : Byte) error =>
      (byte.toNat, encode byte.toNat &&& 0x0F, statusOf error)) data errors).map
        (fun (corrected, _, _) => BitVec.ofNat 8 corrected) = data := by
    rw [List.map_zipWith]
    simp only [BitVec.ofNat_toNat, BitVec.setWidth_eq]
    refine List.ext_getElem ?_ fun i _ _ => List.getElem_zipWith ..
    rw [List.length_zipWith, ← hlength, Nat.min_self]
  have hcorrected := countP_statusOf hlength fun status => status = .errorCorrected
  have huncorrected := countP_statusOf hlength fun status => status = .errorUncorrectable
  have hsome (error : Option (Fin 12)) :
      decide (statusOf error = .errorCorrected) = error.isSome := by cases error <;> rfl
  have hnone (error : Option (Fin 12)) :
      decide (statusOf error = .errorUncorrectable) = false := by cases error <;> rfl
  rw [fecHandleMsg, if_neg (not_not.mpr (length_blockBytes hdata herrors)), blockBytes, hpairs]
  simp only [bind, Except.bind, pure, Except.pure, hflatten, mapM_decode hlength, hbytes,
    hcorrected, huncorrected, hsome, hnone, List.countP_false]
  rfl

end

end GrSatellites.Mobitex
