import GrSatellites.Crc.Blocks
import GrSatellites.K2sat.Deframer
import GrSatellites.Nusat.Decoder

/-!
# CRCs with tables of their own

Two blocks do not use the class `crc`: `lib/nusat_decoder_impl.cc` lists the 256 entries of a
CRC-8, and `python/k2sat_deframer.py` makes the entries of a CRC-16 from the bits of the index.
Entry for entry these are the tables that the class builds, and their loops take the same steps.
-/

namespace GrSatellites.Crc

open Bits Checked Endian Lfsr

/-- The entries of a table that is not reflected, from the bitwise definition. -/
theorem entry_eq_foldl (w : Width) (poly : Word) (byte : Byte) :
    (buildTable w poly false).entry byte.toNat =
      (byteBits false byte).foldl (shiftBit w.bits poly false) 0 := by
  have hfold := foldl_shiftBit_toWord w poly false (byteBits false byte) 0#w.bits
  rw [toWord_zero] at hfold
  rw [entry_buildTable false byte.isLt, remainder, BitVec.ofNat_toNat, BitVec.setWidth_eq,
    hfold]

/-- Without reflections and without a final value, `compute` is its loop. -/
theorem compute_direct (w : Width) (poly initialValue : Word) (data : List Byte) :
    (ofWidth w poly initialValue 0 false false).compute data =
      data.foldl (ofWidth w poly initialValue 0 false false).updateDirect
        (initialValue &&& maskOf w) := by
  have hcompute : (ofWidth w poly initialValue 0 false false).compute data =
      data.foldl (ofWidth w poly initialValue 0 false false).updateDirect
        (initialValue &&& maskOf w) ^^^ (0#64 &&& maskOf w) := rfl
  rw [hcompute, BitVec.zero_and, BitVec.xor_zero]

/-! ## NUSAT -/

theorem nusatBits_ge : 8 ≤ 8 := by decide

theorem nusatBits_le : 8 ≤ 64 := by decide

/-- The CRC-8 with polynomial 0x07, from the class `crc`. -/
def nusatCrc : Crc := ofWidth ⟨8, nusatBits_ge, nusatBits_le⟩ 0x07 0 0 false false

/-- All the entries of `crc8_table` at once. -/
theorem crc8Table_eq_map : Nusat.crc8Table.map (BitVec.setWidth 64) =
    (List.range 256).map fun k =>
      (byteBits false (BitVec.ofNat 8 k)).foldl (shiftBit 8 0x07 false) 0 := by
  decide +kernel

theorem length_crc8Table : Nusat.crc8Table.length = 256 := by
  have hlength := congrArg List.length crc8Table_eq_map
  rwa [List.length_map, List.length_map, List.length_range] at hlength

theorem access_crc8Table (byte : Byte) : ∃ entry,
    access CxxError.outOfRange Nusat.crc8Table byte.toNat = .ok entry ∧
      nusatCrc.table.entry byte.toNat = entry.setWidth 64 := by
  have hlt : byte.toNat < Nusat.crc8Table.length := by
    rw [length_crc8Table]
    exact byte.isLt
  refine ⟨_, access_of_lt hlt, ?_⟩
  have hentry := congrArg (·[byte.toNat]?) crc8Table_eq_map
  simp only [List.getElem?_map, List.getElem?_eq_getElem hlt, List.getElem?_range byte.isLt,
    Option.map_some, Option.some.injEq, BitVec.ofNat_toNat, BitVec.setWidth_eq] at hentry
  have htable : nusatCrc.table = buildTable ⟨8, nusatBits_ge, nusatBits_le⟩ 0x07 false := rfl
  rw [hentry, htable, entry_eq_foldl]

/-- The index that a step for eight bits looks up. -/
theorem index_eight (crc byte : Byte) :
    ((crc.setWidth 64 >>> 0 ^^^ byte.setWidth 64) &&& (0xff : Word)).setWidth 8 = crc ^^^ byte := by
  rw [and_ff_setWidth, BitVec.ushiftRight_zero, BitVec.setWidth_xor, BitVec.setWidth_setWidth_of_le,
    BitVec.setWidth_setWidth_of_le] <;> simp

/-- A step for eight bits keeps nothing but the entry. -/
theorem xor_shiftLeft_and_ff (entry crc : Byte) :
    (entry.setWidth 64 ^^^ crc.setWidth 64 <<< 8) &&& (0xff : Word) = entry.setWidth 64 := by
  have hff : (0xff : Word) = maskOf ⟨8, nusatBits_ge, nusatBits_le⟩ := by decide
  apply BitVec.eq_of_getLsbD_eq
  intro i hi
  rw [hff, BitVec.getLsbD_and, getLsbD_maskOf, BitVec.getLsbD_xor, BitVec.getLsbD_shiftLeft]
  by_cases hlow : i < 8
  · simp [hlow]
  · simp [hlow, BitVec.getLsbD_of_ge entry i (by omega)]

/-- A step of the class for eight bits looks the sum of the register and the byte up. -/
theorem updateDirect_nusatCrc (crc byte : Byte) {entry : Byte}
    (hentry : nusatCrc.table.entry (crc ^^^ byte).toNat = entry.setWidth 64) :
    nusatCrc.updateDirect (crc.setWidth 64) byte = entry.setWidth 64 := by
  have hmask : nusatCrc.mask = 0xff := by decide
  rw [updateDirect, hmask]
  show (nusatCrc.table.entry (BitVec.setWidth 8
    ((crc.setWidth 64 >>> 0 ^^^ byte.setWidth 64) &&& (0xff : Word))).toNat ^^^
      crc.setWidth 64 <<< 8) &&& 0xff = _
  rw [index_eight, hentry, xor_shiftLeft_and_ff]

/-- `crc8` of the bytes after a header is the CRC of the class. -/
theorem crc8_eq_foldl (a b : Byte) (bytes rest : List Byte) : ∃ crc : Byte,
    Nusat.crc8 (a :: b :: (bytes ++ rest)) bytes.length = .ok crc ∧
      crc.setWidth 64 = bytes.foldl nusatCrc.updateDirect 0 := by
  have hloop : Returns (Nusat.crc8 (a :: b :: (bytes ++ rest)) bytes.length) fun crc : Byte =>
      crc.setWidth 64 = (bytes.take bytes.length).foldl nusatCrc.updateDirect 0 := by
    refine Returns.foldlM_range
      (fun i (crc : Byte) => crc.setWidth 64 = (bytes.take i).foldl nusatCrc.updateDirect 0)
      (fun i hi crc hcrc => ?_) rfl
    have hbyte : access CxxError.outOfRange (a :: b :: (bytes ++ rest)) (Nusat.headerLen + i) =
        .ok bytes[i] := by
      rw [access, Nusat.headerLen, Nat.add_comm, List.getElem?_cons_succ, List.getElem?_cons_succ,
        List.getElem?_append_left hi, List.getElem?_eq_getElem hi]
    obtain ⟨entry, haccess, hentry⟩ := access_crc8Table (crc ^^^ bytes[i])
    refine ⟨entry, ?_, ?_⟩
    · rw [hbyte, ok_bind, haccess]
    · rw [List.take_add_one, List.getElem?_eq_getElem hi, Option.toList_some, List.foldl_append,
        ← hcrc, List.foldl_cons, List.foldl_nil, updateDirect_nusatCrc crc _ hentry]
  rwa [List.take_length] at hloop

/-! ## K2SAT -/

theorem k2satBits_ge : 8 ≤ 16 := by decide

theorem k2satBits_le : 16 ≤ 64 := by decide

/-- The CRC-16 with polynomial 0x1021 and initial value 0xFFFF, from the class `crc`. -/
def k2satCrc : Crc := ofWidth ⟨16, k2satBits_ge, k2satBits_le⟩ 0x1021 0xFFFF 0 false false

/-- All the entries of `crc_table` at once. -/
theorem crcTable_eq_map : ((List.range 256).map fun k =>
      (K2sat.crcTable (BitVec.ofNat 8 k)).setWidth 64) =
    (List.range 256).map fun k =>
      (byteBits false (BitVec.ofNat 8 k)).foldl (shiftBit 16 0x1021 false) 0 := by
  decide +kernel

theorem entry_k2satCrc (byte : Byte) :
    k2satCrc.table.entry byte.toNat = (K2sat.crcTable byte).setWidth 64 := by
  have hentry := List.map_inj_left.mp crcTable_eq_map byte.toNat (List.mem_range.mpr byte.isLt)
  have htable : k2satCrc.table = buildTable ⟨16, k2satBits_ge, k2satBits_le⟩ 0x1021 false := rfl
  rw [BitVec.ofNat_toNat, BitVec.setWidth_eq] at hentry
  rw [hentry, htable, entry_eq_foldl]

/-- The index that a step for sixteen bits looks up. -/
theorem index_sixteen (checksum : BitVec 16) (d : Byte) :
    ((checksum.setWidth 64 >>> 8 ^^^ d.setWidth 64) &&& (0xff : Word)).setWidth 8 =
      (checksum >>> 8).setWidth 8 ^^^ d := by
  rw [and_ff_setWidth]
  apply BitVec.eq_of_getLsbD_eq
  intro i hi
  simp only [BitVec.getLsbD_setWidth, BitVec.getLsbD_xor, BitVec.getLsbD_ushiftRight,
    show i < 64 by omega, show 8 + i < 64 by omega, hi, decide_true, Bool.true_and]

theorem getLsbD_ff00 (i : ℕ) :
    (0xFF00 : BitVec 16).getLsbD i = (decide (i < 16) && !decide (i < 8)) := by
  by_cases hlow : i < 16
  · have hbit : ∀ i : Fin 16, (0xFF00 : BitVec 16).getLsbD i =
        (decide (i.val < 16) && !decide (i.val < 8)) := by decide
    exact hbit ⟨i, hlow⟩
  · rw [BitVec.getLsbD_of_ge _ i (Nat.not_lt.mp hlow), decide_eq_false hlow, Bool.false_and]

/-- A step for sixteen bits keeps the low byte of the register. -/
theorem xor_shiftLeft_and_ffff (entry checksum : BitVec 16) :
    (entry.setWidth 64 ^^^ checksum.setWidth 64 <<< 8) &&& (0xffff : Word) =
      (((checksum <<< 8) &&& 0xFF00) ^^^ entry).setWidth 64 := by
  have hffff : (0xffff : Word) = maskOf ⟨16, k2satBits_ge, k2satBits_le⟩ := by decide
  apply BitVec.eq_of_getLsbD_eq
  intro i hi
  rw [hffff, BitVec.getLsbD_and, getLsbD_maskOf]
  simp only [BitVec.getLsbD_xor, BitVec.getLsbD_shiftLeft, BitVec.getLsbD_setWidth,
    BitVec.getLsbD_and, getLsbD_ff00, hi, decide_true, Bool.true_and]
  by_cases hlow : i < 16
  · have hshift : i - 8 < 64 := by omega
    by_cases hbyte : i < 8
    · simp [hlow, hbyte]
    · simp [hlow, hbyte, hshift, Bool.xor_comm]
  · simp [hlow, BitVec.getLsbD_of_ge entry i (by omega)]

/-- A round of `check_packet` is a step of the class. -/
theorem updateDirect_k2satCrc (checksum : BitVec 16) (d : Byte) :
    k2satCrc.updateDirect (checksum.setWidth 64) d = (K2sat.crcStep checksum d).setWidth 64 := by
  have hmask : k2satCrc.mask = 0xffff := by decide
  rw [updateDirect, hmask]
  show (k2satCrc.table.entry (BitVec.setWidth 8
    ((checksum.setWidth 64 >>> 8 ^^^ d.setWidth 64) &&& (0xff : Word))).toNat ^^^
      checksum.setWidth 64 <<< 8) &&& 0xffff = _
  rw [index_sixteen, entry_k2satCrc, xor_shiftLeft_and_ffff]
  rfl

theorem foldl_crcStep (data : List Byte) :
    (data.foldl K2sat.crcStep 0xFFFF).setWidth 64 = data.foldl k2satCrc.updateDirect 0xFFFF := by
  induction data using List.reverseRecOn with
  | nil => rfl
  | append_singleton data d ih =>
    rw [List.foldl_append, List.foldl_append, ← ih, List.foldl_cons, List.foldl_nil,
      List.foldl_cons, List.foldl_nil, updateDirect_k2satCrc]

/-- Only the index zero has an entry whose low byte is zero. -/
theorem crcTable_low_eq_zero : ∀ i : Byte, (K2sat.crcTable i).setWidth 8 = 0#8 → i = 0#8 := by
  decide +kernel

section Rounds

variable (checksum : BitVec 16)

/-- Nothing is left in the low byte of a shifted checksum. -/
theorem setWidth_shiftLeft : (checksum <<< 8).setWidth 8 = 0#8 := by
  apply BitVec.eq_of_getLsbD_eq
  intro i hi
  simp [hi]

/-- The low byte of a checksum becomes the high one. -/
theorem setWidth_shiftRight_shiftLeft :
    ((checksum <<< 8) >>> 8).setWidth 8 = checksum.setWidth 8 := by
  apply BitVec.eq_of_getLsbD_eq
  intro i hi
  have hhigh : 8 + i < 16 := by omega
  have hlow : i < 16 := by omega
  simp [hi, hhigh, BitVec.getLsbD_eq_getElem hlow]

theorem crcStep_eq (d : Byte) : K2sat.crcStep checksum d =
    (checksum <<< 8) ^^^ K2sat.crcTable ((checksum >>> 8).setWidth 8 ^^^ d) := by
  have hmask : (checksum <<< 8) &&& (0xFF00 : BitVec 16) = checksum <<< 8 := by
    apply BitVec.eq_of_getLsbD_eq
    intro i hi
    rw [BitVec.getLsbD_and, getLsbD_ff00, BitVec.getLsbD_shiftLeft]
    cases decide (i < 8) <;> simp [hi]
  exact congrArg (· ^^^ _) hmask

/-- A round with the high byte of the checksum shifts it out. -/
theorem crcStep_high :
    K2sat.crcStep checksum ((checksum >>> 8).setWidth 8) = checksum <<< 8 := by
  have hzero : K2sat.crcTable 0#8 = 0#16 := by decide
  rw [crcStep_eq, BitVec.xor_self, hzero, BitVec.xor_zero]

/-- A round with another byte leaves something in the low byte. -/
theorem eq_of_setWidth_crcStep {d : Byte} (h : (K2sat.crcStep checksum d).setWidth 8 = 0#8) :
    d = (checksum >>> 8).setWidth 8 := by
  rw [crcStep_eq, BitVec.setWidth_xor, setWidth_shiftLeft, BitVec.zero_xor] at h
  exact (BitVec.xor_eq_zero_iff.mp (crcTable_low_eq_zero _ h)).symm

/-- Two rounds end at zero if and only if they get the two bytes of the checksum. -/
theorem crcStep_crcStep_eq_zero_iff (high low : Byte) :
    K2sat.crcStep (K2sat.crcStep checksum high) low = 0 ↔ [high, low] = bytesBE 2 checksum := by
  have hbytes : bytesBE 2 checksum = [(checksum >>> 8).setWidth 8, checksum.setWidth 8] := by
    simp [bytesBE, List.range_succ]
  rw [hbytes]
  constructor
  · intro hzero
    have hlow := eq_of_setWidth_crcStep (K2sat.crcStep checksum high) (d := low) (by rw [hzero]; rfl)
    have hshift := hzero
    rw [hlow, crcStep_high] at hshift
    have hhigh := eq_of_setWidth_crcStep checksum (d := high) (by
      rw [← setWidth_shiftRight_shiftLeft, hshift]
      rfl)
    rw [hlow, hhigh, crcStep_high, setWidth_shiftRight_shiftLeft]
  · intro hlist
    obtain ⟨rfl, hrest⟩ := List.cons_eq_cons.mp hlist
    obtain ⟨rfl, -⟩ := List.cons_eq_cons.mp hrest
    rw [crcStep_high, ← setWidth_shiftRight_shiftLeft, crcStep_high, ← BitVec.shiftLeft_add]
    simp

end Rounds

theorem k2satCrc_compute (data : List Byte) :
    k2satCrc.compute data = (data.foldl K2sat.crcStep 0xFFFF).setWidth 64 := by
  have hinitial : 0xFFFF &&& maskOf ⟨16, k2satBits_ge, k2satBits_le⟩ = 0xFFFF := by decide
  have hcompute := compute_direct ⟨16, k2satBits_ge, k2satBits_le⟩ 0x1021 0xFFFF data
  rw [hinitial] at hcompute
  rw [foldl_crcStep]
  exact hcompute

theorem bytesBE_setWidth (checksum : BitVec 16) :
    bytesBE 2 (checksum.setWidth 64) = bytesBE 2 checksum := by
  refine List.map_congr_left fun i hi => ?_
  apply BitVec.eq_of_getLsbD_eq
  intro j hj
  have hlt := List.mem_range.mp hi
  have hplace : 8 * (2 - (i + 1)) + j < 64 := by omega
  simp only [BitVec.getLsbD_setWidth, BitVec.getLsbD_ushiftRight, hplace, decide_true,
    Bool.true_and]

/-- `check_packet` accepts the packets that end with the CRC of the flag and what precedes. -/
theorem checkPacket_iff (packet : List Byte) : K2sat.checkPacket packet = true ↔
    ∃ body, packet = body ++ bytesBE 2 (k2satCrc.compute (0x7e :: body)) := by
  simp only [k2satCrc_compute, bytesBE_setWidth]
  rw [K2sat.checkPacket, decide_eq_true_eq]
  constructor
  · intro hzero
    rcases List.eq_nil_or_concat packet with rfl | ⟨front, low, rfl⟩
    · exact absurd hzero (by decide)
    rcases List.eq_nil_or_concat front with rfl | ⟨body, high, rfl⟩
    · have htwo := (crcStep_crcStep_eq_zero_iff 0xFFFF 0x7e low).mp hzero
      exact absurd (List.cons_eq_cons.mp htwo).1 (by decide)
    · rw [List.concat_eq_append, List.concat_eq_append, List.append_assoc, ← List.cons_append,
        List.foldl_append] at hzero
      refine ⟨body, ?_⟩
      rw [← (crcStep_crcStep_eq_zero_iff _ high low).mp hzero, List.concat_eq_append,
        List.concat_eq_append, List.append_assoc]
      rfl
  · rintro ⟨body, hpacket⟩
    rw [hpacket, ← List.cons_append, List.foldl_append]
    exact (crcStep_crcStep_eq_zero_iff _ _ _).mpr (by simp [bytesBE, List.range_succ])

/-- **The tables agree.** On every byte string the CRC-8 of NUSAT is the one with polynomial 0x07, by
bits and from the class; and the packets that `check_packet` accepts are those that end with the
CRC-16 with polynomial 0x1021 and initial value 0xFFFF of the flag and what precedes. -/
theorem handWritten_agree :
    (∃ c, crc 8 0x07 0 0 false false = .ok c ∧ ∀ (a b : Byte) (bytes rest : List Byte),
      ∃ value : Byte, Nusat.crc8 (a :: b :: (bytes ++ rest)) bytes.length = .ok value ∧
        value.setWidth 64 = c.compute bytes ∧
        value.setWidth 64 = bitwiseCrc 8 0x07 0 0 false false bytes) ∧
    ∃ c, crc 16 0x1021 0xFFFF 0 false false = .ok c ∧ ∀ packet : List Byte,
      (K2sat.checkPacket packet = true ↔
        ∃ body, packet = body ++ bytesBE 2 (c.compute (0x7e :: body))) ∧
      c.compute packet = bitwiseCrc 16 0x1021 0xFFFF 0 false false packet := by
  constructor
  · refine ⟨nusatCrc, crc_eq_ok _ _ _ _ _ ⟨8, nusatBits_ge, nusatBits_le⟩, fun a b bytes rest => ?_⟩
    obtain ⟨value, hvalue, hfoldl⟩ := crc8_eq_foldl a b bytes rest
    have hcompute : value.setWidth 64 = nusatCrc.compute bytes := by
      rw [hfoldl]
      exact (compute_direct ⟨8, nusatBits_ge, nusatBits_le⟩ 0x07 0 bytes).symm
    refine ⟨value, hvalue, hcompute, hcompute.trans ?_⟩
    exact ofWidth_compute ⟨8, nusatBits_ge, nusatBits_le⟩ 0x07 0 0 false false bytes
  · refine ⟨k2satCrc, crc_eq_ok _ _ _ _ _ ⟨16, k2satBits_ge, k2satBits_le⟩, fun packet => ?_⟩
    exact ⟨checkPacket_iff packet,
      ofWidth_compute ⟨16, k2satBits_ge, k2satBits_le⟩ 0x1021 0xFFFF 0 false false packet⟩

end GrSatellites.Crc
