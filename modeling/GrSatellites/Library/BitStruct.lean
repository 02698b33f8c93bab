import GrSatellites.Library.Bits
import Mathlib

/-!
# Bit structures

A bit structure is a list of unsigned fields of given widths, laid out one after the
other with the most significant bit first and packed into bytes. Every field that fits
its width reads back from what was built.
-/

namespace GrSatellites.Bits

/-! ## Numbers and bits -/

/-- The number that some bits spell, most significant first. -/
def ofBits : List Bool → ℕ
  | [] => 0
  | b :: bits => b.toNat * 2 ^ bits.length + ofBits bits

/-- The low `w` bits of a number, most significant first. -/
def toBits : ℕ → ℕ → List Bool
  | 0, _ => []
  | w + 1, n => n.testBit w :: toBits w n

@[simp] theorem length_toBits (w n : ℕ) : (toBits w n).length = w := by
  induction w with
  | zero => rfl
  | succ w ih => rw [toBits, List.length_cons, ih]

theorem ofBits_toBits (w n : ℕ) : ofBits (toBits w n) = n % 2 ^ w := by
  induction w with
  | zero => rw [toBits, ofBits, Nat.pow_zero, Nat.mod_one]
  | succ w ih =>
    rw [toBits, ofBits, ih, length_toBits, Nat.toNat_testBit, Nat.mod_pow_succ, Nat.mul_comm,
      Nat.add_comm]

theorem toBits_congr {w m n : ℕ} (h : ∀ i < w, m.testBit i = n.testBit i) :
    toBits w m = toBits w n := by
  induction w with
  | zero => rfl
  | succ w ih => rw [toBits, toBits, h w (by omega), ih fun i hi => h i (by omega)]

theorem toBits_zero (w : ℕ) : toBits w 0 = List.replicate w false := by
  induction w with
  | zero => rfl
  | succ w ih => rw [toBits, Nat.zero_testBit, ih, List.replicate_succ]

/-- The high bits of a number and its low bits. -/
theorem toBits_add (v w n : ℕ) : toBits (v + w) n = toBits v (n / 2 ^ w) ++ toBits w n := by
  induction v with
  | zero => rw [Nat.zero_add, toBits, List.nil_append]
  | succ v ih =>
    rw [Nat.add_right_comm, toBits, toBits, ih, Nat.testBit_div_two_pow, Nat.add_comm v w,
      List.cons_append]

theorem ofBits_lt (bits : List Bool) : ofBits bits < 2 ^ bits.length := by
  induction bits with
  | nil => simp [ofBits]
  | cons b bits ih =>
    rw [ofBits, List.length_cons, Nat.pow_succ]
    cases b <;> simp <;> omega

theorem toBits_ofBits (bits : List Bool) : toBits bits.length (ofBits bits) = bits := by
  induction bits with
  | nil => rfl
  | cons b bits ih =>
    have hlt := ofBits_lt bits
    rw [List.length_cons, toBits, ofBits]
    congr 1
    · rw [Nat.mul_comm, Nat.testBit_two_pow_mul_add _ hlt]
      cases b <;> simp
    · conv_rhs => rw [← ih]
      refine toBits_congr fun i hi => ?_
      rw [Nat.mul_comm, Nat.testBit_two_pow_mul_add _ hlt, if_pos hi]

/-! ## Bytes -/

/-- The bits of some bytes, each most significant bit first. -/
def unpackMsb (bytes : List (BitVec 8)) : List Bool := bytes.flatMap msbBits

/-- One byte from eight bits, most significant first. -/
def packByteMsb (bits : List Bool) : BitVec 8 := BitVec.ofNat 8 (ofBits bits)

/-- Pack whole bytes, each most significant bit first. -/
def packMsb (bits : List Bool) : List (BitVec 8) := packWith packByteMsb bits

theorem msbBits_eq_toBits (byte : BitVec 8) : msbBits byte = toBits 8 byte.toNat := by
  have h : ∀ byte : BitVec 8, msbBits byte = toBits 8 byte.toNat := by decide
  exact h byte

theorem packByteMsb_msbBits (byte : BitVec 8) : packByteMsb (msbBits byte) = byte := by
  rw [packByteMsb, msbBits_eq_toBits, ofBits_toBits, Nat.mod_eq_of_lt byte.isLt,
    BitVec.ofNat_toNat, BitVec.setWidth_eq]

theorem msbBits_packByteMsb {bits : List Bool} (hbits : bits.length = 8) :
    msbBits (packByteMsb bits) = bits := by
  have hlt := ofBits_lt bits
  rw [hbits] at hlt
  rw [msbBits_eq_toBits, packByteMsb, BitVec.toNat_ofNat, Nat.mod_eq_of_lt hlt]
  simpa only [hbits] using toBits_ofBits bits

theorem length_packMsb (bits : List Bool) : (packMsb bits).length = bits.length / 8 := by
  simp [packMsb, packWith]

theorem length_unpackMsb (bytes : List (BitVec 8)) :
    (unpackMsb bytes).length = bytes.length * 8 :=
  length_flatMap_eight length_msbBits bytes

theorem unpackMsb_append (xs ys : List (BitVec 8)) :
    unpackMsb (xs ++ ys) = unpackMsb xs ++ unpackMsb ys := List.flatMap_append

theorem packMsb_unpackMsb (bytes : List (BitVec 8)) : packMsb (unpackMsb bytes) = bytes :=
  packWith_flatMap packByteMsb length_msbBits packByteMsb_msbBits bytes

theorem unpackMsb_packMsb {bits : List Bool} {k : ℕ} (hbits : bits.length = k * 8) :
    unpackMsb (packMsb bits) = bits :=
  flatMap_packWith packByteMsb (fun _ => msbBits_packByteMsb) hbits

/-! ## One byte of a bit string -/

/-- A byte of a bit string, most significant bit first. Bits past the end are zero. -/
def byteAt (bits : List Bool) (j : ℕ) : BitVec 8 :=
  packByteMsb ((List.range 8).map fun i => bits.getD (8 * j + i) false)

theorem getMsbD_byteAt (bits : List Bool) (j : ℕ) {i : ℕ} (hi : i < 8) :
    (byteAt bits j).getMsbD i = bits.getD (8 * j + i) false := by
  have hbits := congrArg (fun l => l[i]?) (msbBits_packByteMsb
    (by simp : ((List.range 8).map fun i => bits.getD (8 * j + i) false).length = 8))
  simpa [msbBits, hi, byteAt] using hbits

/-- The bytes past the end of a bit string are zero. -/
theorem byteAt_of_le {bits : List Bool} {j : ℕ} (h : bits.length ≤ 8 * j) : byteAt bits j = 0 := by
  apply BitVec.eq_of_getMsbD_eq
  intro i hi
  rw [getMsbD_byteAt bits j hi, List.getD_eq_default _ _ (by omega)]
  exact BitVec.getMsbD_zero.symm

/-- The low bit of a byte, shifted to a place. -/
theorem getMsbD_and_one_shiftLeft (x : BitVec 8) {m i : ℕ} (hm : m < 8) (hi : i < 8) :
    ((x &&& 1) <<< (7 - m)).getMsbD i = (decide (i = m) && x.getLsbD 0) := by
  have hone : ∀ x : BitVec 8, x &&& 1 = BitVec.ofNat 8 (x.getLsbD 0).toNat := by decide
  have hplace : ∀ low : Bool, ∀ m < 8, ∀ i < 8,
      ((BitVec.ofNat 8 low.toNat) <<< (7 - m)).getMsbD i = (decide (i = m) && low) := by
    decide
  rw [hone]
  exact hplace _ m hm i hi

/-- One more bit, at its place in its byte. -/
theorem byteAt_append_bit (bits : List Bool) (x : BitVec 8) (j : ℕ) :
    byteAt (bits ++ [x.getLsbD 0]) j =
      if j = bits.length / 8 then
        byteAt bits j ||| ((x &&& 1) <<< (7 - bits.length % 8))
      else byteAt bits j := by
  apply BitVec.eq_of_getMsbD_eq
  intro i hi
  have hmod : bits.length % 8 < 8 := Nat.mod_lt _ (by norm_num)
  rw [getMsbD_byteAt _ _ hi]
  by_cases hj : j = bits.length / 8
  · rw [if_pos hj, BitVec.getMsbD_or, getMsbD_byteAt _ _ hi, getMsbD_and_one_shiftLeft x hmod hi]
    rcases Nat.lt_trichotomy (8 * j + i) bits.length with hlt | heq | hgt
    · have hne : i ≠ bits.length % 8 := by omega
      rw [List.getD_append _ _ _ _ hlt, decide_eq_false hne, Bool.false_and, Bool.or_false]
    · have hplace : i = bits.length % 8 := by omega
      rw [List.getD_append_right _ _ _ _ heq.ge, List.getD_eq_default bits _ heq.ge, heq,
        Nat.sub_self, hplace]
      simp
    · have hne : i ≠ bits.length % 8 := by omega
      rw [List.getD_eq_default _ _ (by rw [List.length_append, List.length_singleton]; omega),
        List.getD_eq_default _ _ hgt.le]
      simp [hne]
  · rw [if_neg hj, getMsbD_byteAt _ _ hi]
    by_cases hlt : 8 * j + i < bits.length
    · rw [List.getD_append _ _ _ _ hlt]
    · rw [List.getD_eq_default _ _ (by rw [List.length_append, List.length_singleton]; omega),
        List.getD_eq_default _ _ (by omega)]

/-! ## Fields -/

/-- How a number is turned into the bits of a field. A number that fits the width is
written most significant bit first. One that does not fit is refused, or leaves some
bits of the same number. -/
structure FieldEncoder where
  encode : ℕ → ℤ → Option (List Bool)
  encode_of_fits : ∀ {w n : ℕ}, n < 2 ^ w → encode w n = some (toBits w n)
  length_of_encode : ∀ {w : ℕ} {n : ℤ} {bits : List Bool}, encode w n = some bits → bits.length = w

/-- The encoder that refuses a number that does not fit. -/
def FieldEncoder.refusing : FieldEncoder where
  encode w n := if 0 ≤ n ∧ n < 2 ^ w then some (toBits w n.toNat) else none
  encode_of_fits {w n} hn := by
    have hfits : (0 : ℤ) ≤ n ∧ (n : ℤ) < 2 ^ w := ⟨Int.natCast_nonneg n, by exact_mod_cast hn⟩
    rw [if_pos hfits, Int.toNat_natCast]
  length_of_encode {w n bits} h := by
    split at h
    · rw [← Option.some.inj h, length_toBits]
    · cases h

/-- The encoder that drops the bits that do not fit. -/
def FieldEncoder.truncating : FieldEncoder where
  encode w n := some (toBits w (n % 2 ^ w).toNat)
  encode_of_fits {w n} hn := by
    have hmod : (n : ℤ) % 2 ^ w = n := Int.emod_eq_of_lt (Int.natCast_nonneg n) (by exact_mod_cast hn)
    rw [hmod, Int.toNat_natCast]
  length_of_encode {w n bits} h := by rw [← Option.some.inj h, length_toBits]

/-- The bits of a list of fields, each a width and a number. -/
def FieldEncoder.encodeFields (enc : FieldEncoder) : List (ℕ × ℤ) → Option (List Bool)
  | [] => some []
  | (w, n) :: fields => do
    let bits ← enc.encode w n
    let rest ← enc.encodeFields fields
    return bits ++ rest

/-- The bytes of a bit structure. -/
def FieldEncoder.build (enc : FieldEncoder) (fields : List (ℕ × ℤ)) : Option (List (BitVec 8)) :=
  (enc.encodeFields fields).map packMsb

/-- The number of bytes of a bit structure with fields of the given widths. -/
def sizeof (widths : List ℕ) : ℕ := widths.sum / 8

/-- Cut bits into numbers of given widths. -/
def splitFields : List ℕ → List Bool → List ℕ
  | [], _ => []
  | w :: widths, bits => ofBits (bits.take w) :: splitFields widths (bits.drop w)

/-- The fields of a bit structure at the start of some bytes. -/
def parse (widths : List ℕ) (bytes : List (BitVec 8)) : Option (List ℕ) :=
  if bytes.length < sizeof widths then none
  else some (splitFields widths (unpackMsb (bytes.take (sizeof widths))))

/-- Every number fits its field. -/
def Fits (fields : List (ℕ × ℤ)) : Prop := ∀ field ∈ fields, 0 ≤ field.2 ∧ field.2 < 2 ^ field.1

@[simp] theorem fits_nil : Fits [] := by simp [Fits]

@[simp] theorem fits_cons {field : ℕ × ℤ} {fields : List (ℕ × ℤ)} :
    Fits (field :: fields) ↔ (0 ≤ field.2 ∧ field.2 < 2 ^ field.1) ∧ Fits fields :=
  List.forall_mem_cons

theorem natCast_fits_iff {w n : ℕ} : (0 : ℤ) ≤ n ∧ (n : ℤ) < 2 ^ w ↔ n < 2 ^ w := by
  rw [and_iff_right (Int.natCast_nonneg n)]
  exact_mod_cast Iff.rfl

/-- A number read is the number built, if that one fits its field. -/
def ReadsBack (field : ℕ × ℤ) (value : ℕ) : Prop :=
  0 ≤ field.2 → field.2 < 2 ^ field.1 → (value : ℤ) = field.2

namespace FieldEncoder

variable (enc : FieldEncoder) {fields : List (ℕ × ℤ)}

theorem readsBack_of_encode {w : ℕ} {n : ℤ} {bits : List Bool} (h : enc.encode w n = some bits) :
    ReadsBack (w, n) (ofBits bits) := by
  rintro (hnonneg : 0 ≤ n) (hlt : n < 2 ^ w)
  obtain ⟨m, rfl⟩ := Int.eq_ofNat_of_zero_le hnonneg
  have hm : m < 2 ^ w := by exact_mod_cast hlt
  have hbits : toBits w m = bits := Option.some.inj ((enc.encode_of_fits hm).symm.trans h)
  rw [← hbits, ofBits_toBits, Nat.mod_eq_of_lt hm]

theorem encodeFields_cons {field : ℕ × ℤ} {all : List Bool}
    (h : enc.encodeFields (field :: fields) = some all) :
    ∃ bits rest, enc.encode field.1 field.2 = some bits ∧ enc.encodeFields fields = some rest ∧
      all = bits ++ rest := by
  obtain ⟨w, n⟩ := field
  simp only [encodeFields, Option.bind_eq_bind, Option.bind_eq_some_iff] at h
  obtain ⟨bits, hbits, rest, hrest, hall⟩ := h
  exact ⟨bits, rest, hbits, hrest, (Option.some.inj hall).symm⟩

theorem length_encodeFields {all : List Bool} (h : enc.encodeFields fields = some all) :
    all.length = (fields.map Prod.fst).sum := by
  induction fields generalizing all with
  | nil => rw [← Option.some.inj h]; rfl
  | cons field fields ih =>
    obtain ⟨bits, rest, hbits, hrest, rfl⟩ := enc.encodeFields_cons h
    rw [List.length_append, enc.length_of_encode hbits, ih hrest, List.map_cons, List.sum_cons]

theorem readsBack_encodeFields {all : List Bool} (h : enc.encodeFields fields = some all) :
    List.Forall₂ ReadsBack fields (splitFields (fields.map Prod.fst) all) := by
  induction fields generalizing all with
  | nil => exact .nil
  | cons field fields ih =>
    obtain ⟨bits, rest, hbits, hrest, rfl⟩ := enc.encodeFields_cons h
    have hlength := enc.length_of_encode hbits
    rw [List.map_cons, splitFields, List.take_left' hlength, List.drop_left' hlength]
    exact .cons (enc.readsBack_of_encode hbits) (ih hrest)

theorem length_build {bytes : List (BitVec 8)} (h : enc.build fields = some bytes) :
    bytes.length = sizeof (fields.map Prod.fst) := by
  obtain ⟨all, hall, rfl⟩ := Option.map_eq_some_iff.mp h
  rw [length_packMsb, enc.length_encodeFields hall, sizeof]

/-- **Round trip.** From the bytes built, whatever follows them, every field that fits
its width reads back. -/
theorem parse_build {bytes : List (BitVec 8)} (h : enc.build fields = some bytes)
    (hdvd : 8 ∣ (fields.map Prod.fst).sum) (rest : List (BitVec 8)) :
    ∃ values, parse (fields.map Prod.fst) (bytes ++ rest) = some values ∧
      List.Forall₂ ReadsBack fields values := by
  have hlength := enc.length_build h
  obtain ⟨all, hall, rfl⟩ := Option.map_eq_some_iff.mp h
  have hbits : all.length = sizeof (fields.map Prod.fst) * 8 := by
    rw [enc.length_encodeFields hall, sizeof, Nat.div_mul_cancel hdvd]
  refine ⟨splitFields (fields.map Prod.fst) all, ?_, enc.readsBack_encodeFields hall⟩
  rw [parse, if_neg (by rw [List.length_append, hlength]; omega), List.take_left' hlength,
    unpackMsb_packMsb hbits]

/-- **Round trip of fields that fit.** The fields read are the fields built. -/
theorem parse_build_of_fits {bytes : List (BitVec 8)} (h : enc.build fields = some bytes)
    (hdvd : 8 ∣ (fields.map Prod.fst).sum) (hfits : Fits fields) (rest : List (BitVec 8)) :
    parse (fields.map Prod.fst) (bytes ++ rest) = some (fields.map fun field => field.2.toNat) := by
  obtain ⟨values, hparse, hread⟩ := enc.parse_build h hdvd rest
  rw [hparse, Option.some.injEq]
  clear h hdvd hparse
  induction hread with
  | nil => rfl
  | @cons field value fields values hvalue _ ih =>
    obtain ⟨hnonneg, hlt⟩ := hfits field List.mem_cons_self
    have hvalue' := hvalue hnonneg hlt
    rw [List.map_cons, ih fun f hf => hfits f (List.mem_cons_of_mem _ hf), ← hvalue',
      Int.toNat_natCast]

theorem encodeFields_refusing_isSome :
    (refusing.encodeFields fields).isSome ↔ Fits fields := by
  induction fields with
  | nil => simp [encodeFields, Fits]
  | cons field fields ih =>
    have hfield : (refusing.encode field.1 field.2).isSome ↔ 0 ≤ field.2 ∧ field.2 < 2 ^ field.1 := by
      simp only [refusing]
      split_ifs with h <;> simp [h]
    have hsplit : (refusing.encodeFields (field :: fields)).isSome ↔
        (refusing.encode field.1 field.2).isSome ∧ (refusing.encodeFields fields).isSome := by
      obtain ⟨w, n⟩ := field
      rw [encodeFields]
      cases refusing.encode w n <;> cases refusing.encodeFields fields <;> simp
    rw [hsplit, hfield, ih, fits_cons]

/-- The encoder that refuses builds exactly the fields that fit. -/
theorem build_refusing_isSome : (refusing.build fields).isSome ↔ Fits fields := by
  rw [build, Option.isSome_map, encodeFields_refusing_isSome]

end FieldEncoder

end GrSatellites.Bits
