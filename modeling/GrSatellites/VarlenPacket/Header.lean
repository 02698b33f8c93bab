import GrSatellites.Golay24.Correction
import GrSatellites.Library.BitStruct
import GrSatellites.VarlenPacket.Model

/-!
# The length header

What the tagger reads from the first items of a header of the framer, in both orders.
-/

namespace GrSatellites.VarlenPacket

open Bits Golay24

/-- A bit as an item. -/
def bitItem (bit : Bool) : Byte := (BitVec.ofBool bit).setWidth 8

@[simp] theorem toNat_bitItem (bit : Bool) : (bitItem bit).toNat = bit.toNat := by
  cases bit <;> rfl

theorem headerBit_eq (header : BitVec 32) (i : ℕ) :
    headerBit header i = bitItem (header.toNat.testBit i) := by
  ext j hj
  rw [headerBit, bitItem, BitVec.testBit_toNat]
  simp only [BitVec.getElem_setWidth, BitVec.getLsbD_and, BitVec.getLsbD_ushiftRight,
    BitVec.getLsbD_ofBool]
  cases j <;> simp

/-! ## The two orders -/

theorem headerBits_msbFirst (n : ℕ) (header : BitVec 32) :
    headerBits .msbFirst n header = (toBits n header.toNat).map bitItem := by
  induction n with
  | zero => rfl
  | succ n ih =>
    rw [toBits, List.map_cons, ← ih, ← headerBit_eq, headerBits, List.range_succ_eq_map,
      List.map_cons, List.map_map, headerBits]
    congr 1
    exact List.map_congr_left fun i _ => congrArg (headerBit header) (by simp)

theorem headerBits_lsbFirst (n : ℕ) (header : BitVec 32) :
    headerBits .lsbFirst n header = (headerBits .msbFirst n header).reverse := by
  rw [headerBits_msbFirst]
  induction n with
  | zero => rfl
  | succ n ih =>
    rw [toBits, List.map_cons, List.reverse_cons, ← ih, ← headerBit_eq, headerBits,
      List.range_succ, List.map_append, List.map_singleton, headerBits]

@[simp] theorem length_headerBits (endianness : Endianness) (n : ℕ) (header : BitVec 32) :
    (headerBits endianness n header).length = n := by
  cases endianness <;> simp [headerBits]

/-! ## Reading a number -/

/-- The loop of `bits2len` over bits computes the number they make if it fits in an `int`. -/
theorem foldlM_shiftIn_eq (bits : List Bool) {ret : ℕ} (hret : ret < 2 ^ 31) :
    (bits.map bitItem).foldlM shiftIn ret = toInt (ret * 2 ^ bits.length + ofBits bits) := by
  induction bits generalizing ret with
  | nil =>
    rw [List.length_nil, pow_zero, Nat.mul_one, ofBits, Nat.add_zero, toInt, if_pos hret]
    rfl
  | cons bit bits ih =>
    have hnext : (2 * ret + bit.toNat) * 2 ^ bits.length + ofBits bits =
        ret * 2 ^ (bit :: bits).length + ofBits (bit :: bits) := by
      rw [ofBits, List.length_cons]
      ring
    rw [List.map_cons, List.foldlM_cons, shiftIn, toNat_bitItem, ← hnext]
    by_cases hsmall : 2 * ret + bit.toNat < 2 ^ 31
    · rw [toInt, if_pos hsmall]
      exact ih hsmall
    · have hle := Nat.le_mul_of_pos_right (2 * ret + bit.toNat) (Nat.two_pow_pos bits.length)
      rw [toInt, if_neg hsmall, toInt, if_neg (by omega)]
      rfl

theorem foldlM_shiftIn (bits : List Bool) (ret : ℕ)
    (hfits : ret * 2 ^ bits.length + ofBits bits < 2 ^ 31) :
    (bits.map bitItem).foldlM shiftIn ret = .ok (ret * 2 ^ bits.length + ofBits bits) := by
  have hle := Nat.le_mul_of_pos_right ret (Nat.two_pow_pos bits.length)
  rw [foldlM_shiftIn_eq bits (by omega), toInt, if_pos hfits]

theorem foldlM_shiftIn_toBits {w n : ℕ} (hfits : n % 2 ^ w < 2 ^ 31) :
    ((toBits w n).map bitItem).foldlM shiftIn 0 = .ok (n % 2 ^ w) := by
  have hread := foldlM_shiftIn (toBits w n) 0
  rw [Nat.zero_mul, Nat.zero_add, ofBits_toBits] at hread
  exact hread hfits

/-- Most significant bit first, some of the items are the high bits of the header. -/
theorem bits2len_take_msbFirst {w k : ℕ} {header : BitVec 32} (hfits : header.toNat < 2 ^ 31) :
    bits2len .msbFirst ((headerBits .msbFirst (k + w) header).take k) =
      .ok (header.toNat / 2 ^ w % 2 ^ k) := by
  have hsmall : header.toNat / 2 ^ w % 2 ^ k < 2 ^ 31 :=
    ((Nat.mod_le _ _).trans (Nat.div_le_self _ _)).trans_lt hfits
  rw [bits2len, headerBits_msbFirst, toBits_add, List.map_append, List.take_left' (by simp)]
  exact foldlM_shiftIn_toBits hsmall

/-- Least significant bit first, some of the items are the low bits of the header. -/
theorem bits2len_take_lsbFirst {w k : ℕ} {header : BitVec 32} (hfits : header.toNat < 2 ^ 31) :
    bits2len .lsbFirst ((headerBits .lsbFirst (w + k) header).take k) =
      .ok (header.toNat % 2 ^ k) := by
  have hsmall : header.toNat % 2 ^ k < 2 ^ 31 := (Nat.mod_le _ _).trans_lt hfits
  rw [bits2len, headerBits_lsbFirst, headerBits_msbFirst, toBits_add, List.map_append,
    List.reverse_append, List.take_left' (by simp), List.reverse_reverse]
  exact foldlM_shiftIn_toBits hsmall

/-- A whole header, in either order. -/
theorem bits2len_headerBits (endianness : Endianness) {n : ℕ} {header : BitVec 32}
    (hheader : header.toNat < 2 ^ n) (hn : n ≤ 31) :
    bits2len endianness (headerBits endianness n header) = .ok header.toNat := by
  have hfits : header.toNat < 2 ^ 31 :=
    hheader.trans_le (Nat.pow_le_pow_right (by norm_num) hn)
  have hwhole : (headerBits endianness n header).take n = headerBits endianness n header :=
    List.take_of_length_le (length_headerBits _ _ _).le
  cases endianness with
  | msbFirst =>
    have hread := bits2len_take_msbFirst (w := 0) (k := n) hfits
    rw [Nat.add_zero, hwhole, pow_zero, Nat.div_one, Nat.mod_eq_of_lt hheader] at hread
    exact hread
  | lsbFirst =>
    have hread := bits2len_take_lsbFirst (w := 0) (k := n) hfits
    rw [Nat.zero_add, hwhole, Nat.mod_eq_of_lt hheader] at hread
    exact hread

/-! ## Announced lengths -/

variable {tagger : Tagger} {header : List Byte} {n : ℕ}

theorem packetLen_of_field (hgolay : tagger.useGolay = false)
    (hread : bits2len tagger.endianness header = .ok n) (hn : 8 * n < 2 ^ 31) :
    tagger.packetLen header = .ok (some (8 * n)) := by
  simp only [Tagger.packetLen, hread, hgolay, toInt, if_pos hn, bind, Except.bind, pure,
    Except.pure, Bool.false_eq_true, if_false]

/-- A Golay header with a length of twelve bits. -/
theorem packetLen_golay (hgolay : tagger.useGolay = true) (hn : n < 2 ^ 12) :
    tagger.packetLen (headerBits tagger.endianness 24 (encodeGolay24 (BitVec.ofNat 32 n))) =
      .ok (some (8 * n)) := by
  have hfits : (encodeGolay24 (BitVec.ofNat 32 n)).toNat < 2 ^ 24 := by
    rw [encodeGolay24_eq, word, BitVec.toNat_setWidth]
    exact (Nat.mod_le _ _).trans_lt (BitVec.isLt _)
  have hdecode := decodeGolay24_encodeGolay24 (BitVec.ofNat 32 n) (e := 0#24) (by decide)
  rw [BitVec.setWidth_zero, BitVec.xor_zero] at hdecode
  have hlow : (0xfff &&& encodeGolay24 (BitVec.ofNat 32 n)).toNat = n := by
    have hdata := congrArg BitVec.toNat (encodeGolay24_low (BitVec.ofNat 32 n))
    rw [BitVec.toNat_setWidth, BitVec.toNat_setWidth, BitVec.toNat_ofNat,
      Nat.mod_eq_of_lt (hn.trans (by norm_num)), Nat.mod_eq_of_lt hn] at hdata
    rw [BitVec.and_comm, BitVec.toNat_and]
    exact (Nat.and_two_pow_sub_one_eq_mod _ 12).trans hdata
  rw [Tagger.packetLen, bits2len_headerBits _ hfits (by norm_num), hgolay]
  simp only [bind, Except.bind, if_true, BitVec.ofNat_toNat, BitVec.setWidth_eq, hdecode,
    Option.map_some, hlow, pure, Except.pure]

end GrSatellites.VarlenPacket
