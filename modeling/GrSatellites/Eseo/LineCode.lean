import GrSatellites.Eseo.Model
import GrSatellites.Library.Feedback

/-!
# The ESEO line code

The decoder undoes the line code of the satellite for every byte string, and it drops
a PDU exactly when its bits have six ones in a row, which no encoder sends.
-/

namespace GrSatellites.Eseo

open Bits

variable {M : Type}

/-! ## The transmitter -/

/-- NRZI: a one keeps the level of the line, a zero changes it. -/
def nrziEncode : Bool → List Bool → List Bool
  | _, [] => []
  | level, x :: xs => (if x then level else !level) :: nrziEncode (if x then level else !level) xs

/-- The feedback of the polynomial `1 + x^12 + x^17`, where `sent` has the latest bit first
and what was before it is zero. -/
def feedback (sent : List Bool) : Bool := sent.getD 11 false ^^ sent.getD 16 false

/-- The self-synchronous scrambler, from the zero state. -/
def scramble (bits : List Bool) : List Bool := Feedback.encode feedback [] bits

/-- Send a zero after every five ones in a row, where `run` ones in a row have been sent. -/
def stuff : ℕ → List Bool → List Bool
  | _, [] => []
  | _, false :: xs => false :: stuff 0 xs
  | run, true :: xs => if run + 1 = 5 then true :: false :: stuff 0 xs else true :: stuff (run + 1) xs

/-- Fill the last byte with zeros. -/
def padBytes (bits : List Bool) : List Bool :=
  bits ++ List.replicate ((8 - bits.length % 8) % 8) false

/-- The bytes that the satellite sends for a byte string. -/
def encodeLine (data : List Byte) : List Byte :=
  packMsb (padBytes (stuff 0 (scramble (nrziEncode false (data.flatMap lsbBits)))))

/-! ## Stuffing -/

/-- Destuffing reads the stuffed bits back, and is then in the middle of no run of five. -/
theorem exists_destuffLoop_stuff {run : ℕ} (hrun : run < 5) (y bits : List Bool) :
    ∃ run' < 5, ∀ rest, destuffLoop run y (stuff run bits ++ rest) =
      destuffLoop run' (y ++ bits) rest := by
  induction bits generalizing run y with
  | nil => exact ⟨run, hrun, fun rest => by rw [stuff, List.append_nil, List.nil_append]⟩
  | cons bit bits ih =>
    have happend : y ++ bit :: bits = y ++ [bit] ++ bits := by rw [List.append_assoc]; rfl
    have hne : run ≠ 5 := hrun.ne
    rw [happend]
    cases bit with
    | false =>
      obtain ⟨run', hrun', h⟩ := ih (by decide : 0 < 5) (y ++ [false])
      refine ⟨run', hrun', fun rest => ?_⟩
      rw [stuff, List.cons_append, destuffLoop, if_neg hne, if_neg Bool.false_ne_true, h]
    | true =>
      by_cases hfive : run + 1 = 5
      · obtain ⟨run', hrun', h⟩ := ih (by decide : 0 < 5) (y ++ [true])
        refine ⟨run', hrun', fun rest => ?_⟩
        rw [stuff, if_pos hfive, List.cons_append, List.cons_append, destuffLoop, if_neg hne,
          if_pos rfl, destuffLoop, if_pos hfive, if_neg Bool.false_ne_true, h]
      · obtain ⟨run', hrun', h⟩ := ih (by omega : run + 1 < 5) (y ++ [true])
        refine ⟨run', hrun', fun rest => ?_⟩
        rw [stuff, if_neg hfive, List.cons_append, destuffLoop, if_neg hne, if_pos rfl, h]

theorem destuffLoop_zeros {run : ℕ} (hrun : run < 5) (y : List Bool) (k : ℕ) :
    destuffLoop run y (List.replicate k false) = some (y ++ List.replicate k false) := by
  induction k generalizing run y with
  | zero => rw [List.replicate_zero, destuffLoop, List.append_nil]
  | succ k ih =>
    rw [List.replicate_succ, destuffLoop, if_neg hrun.ne, if_neg Bool.false_ne_true,
      ih (by decide), List.append_assoc]
    rfl

theorem destuff_stuff (bits : List Bool) (k : ℕ) :
    destuff (stuff 0 bits ++ List.replicate k false) = some (bits ++ List.replicate k false) := by
  obtain ⟨run, hrun, h⟩ := exists_destuffLoop_stuff (by decide : 0 < 5) [] bits
  rw [destuff, h, destuffLoop_zeros hrun, List.nil_append]

/-- A zero ends a run of fewer than six ones. -/
theorem six_infix_run_iff {run : ℕ} (hrun : run < 6) (x : List Bool) :
    List.replicate 6 true <:+: List.replicate run true ++ false :: x ↔
      List.replicate 6 true <:+: x := by
  induction run with
  | zero =>
    rw [List.replicate_zero, List.nil_append, List.infix_cons_iff]
    refine or_iff_right fun h => ?_
    rw [List.replicate_succ, List.cons_prefix_cons] at h
    exact Bool.noConfusion h.1
  | succ run ih =>
    rw [List.replicate_succ (n := run), List.cons_append, List.infix_cons_iff, ih (by omega)]
    refine or_iff_right fun h => ?_
    have hlen : run + 1 < (List.replicate 6 true).length := by rwa [List.length_replicate]
    have hget := h.getElem hlen
    rw [List.getElem_replicate, List.getElem_cons_succ,
      List.getElem_append_right (List.length_replicate.le)] at hget
    simp at hget

/-- The run counter holds the ones since the last zero, so it meets a sixth one exactly
when the bits have six ones in a row. -/
theorem destuffLoop_eq_none_iff {run : ℕ} (hrun : run ≤ 5) (y x : List Bool) :
    destuffLoop run y x = none ↔ List.replicate 6 true <:+: List.replicate run true ++ x := by
  induction x generalizing run y with
  | nil =>
    have hshort : ¬List.replicate 6 true <:+: List.replicate run true ++ [] := fun h => by
      have hle := h.length_le
      rw [List.append_nil, List.length_replicate, List.length_replicate] at hle
      omega
    rw [destuffLoop]
    exact iff_of_false (Option.some_ne_none y) hshort
  | cons bit x ih =>
    have hone : List.replicate run true ++ true :: x = List.replicate (run + 1) true ++ x := by
      rw [List.replicate_succ', List.append_assoc]
      rfl
    rw [destuffLoop]
    cases bit with
    | false =>
      rw [six_infix_run_iff (by omega)]
      split
      · rw [if_neg Bool.false_ne_true]
        exact ih (by decide) y
      · rw [if_neg Bool.false_ne_true]
        exact ih (by decide) _
    | true =>
      rw [hone]
      split
      case isTrue hfive =>
        subst hfive
        rw [if_pos rfl]
        exact iff_of_true rfl (List.prefix_append _ x).isInfix
      case isFalse hfive =>
        rw [if_pos rfl]
        exact ih (by omega) _

/-! ## Scrambling and NRZI -/

/-- The level of the line is the latest bit sent, and a bit that is one keeps it. -/
def level (sent : List Bool) : Bool := sent.headD false ^^ true

theorem nrziEncode_eq (sent bits : List Bool) :
    nrziEncode (sent.headD false) bits = Feedback.encode level sent bits := by
  induction bits generalizing sent with
  | nil => rfl
  | cons x bits ih =>
    have hx : (if x then sent.headD false else !sent.headD false) = (x ^^ level sent) := by
      unfold level
      cases x <;> cases sent.headD false <;> rfl
    rw [nrziEncode, hx, Feedback.encode, ← ih]
    rfl

theorem nrziDecode_eq (x : List Bool) : nrziDecode x = Feedback.decode level [] x := by
  have hlen : (nrziDecode x).length = x.length := by
    simp only [nrziDecode, List.length_map, List.length_zipWith, List.length_cons,
      List.length_dropLast]
    omega
  refine List.ext_getElem (by rw [hlen, Feedback.length_decode]) fun i hi _ => ?_
  rw [hlen] at hi
  rw [Feedback.getElem_decode level [] x i _ hi, List.append_nil]
  simp only [nrziDecode, level, List.getElem_map, List.getElem_zipWith, Bool.xor_assoc]
  congr 2
  cases i with
  | zero => simp
  | succ i =>
    rw [List.getElem_cons_succ, List.getElem_dropLast, List.headD_eq_head?_getD,
      List.head?_reverse, List.getLast?_take]
    simp [Nat.lt_of_succ_lt hi]

theorem descramble_eq (x : List Bool) : descramble x = Feedback.decode feedback [] x := by
  have hlen : (descramble x).length = x.length := by
    simp only [descramble, List.length_zipWith, List.length_take, List.length_drop,
      List.length_append, List.length_replicate]
    omega
  refine List.ext_getElem (by rw [hlen, Feedback.length_decode]) fun i hi _ => ?_
  rw [hlen] at hi
  have hdelay (d : ℕ) (hd : d < 17)
      (hbound : i + (16 - d) < (List.replicate 17 false ++ x).length) :
      (List.replicate 17 false ++ x)[i + (16 - d)] = ((x.take i).reverse).getD d false := by
    by_cases hdi : d < i
    · rw [List.getElem_append_right (by simp; omega),
        List.getD_eq_getElem _ _ (by simpa [hi.le] using hdi), List.getElem_reverse,
        List.getElem_take]
      congr 1
      simp
      omega
    · rw [List.getElem_append_left (by simp; omega), List.getElem_replicate,
        List.getD_eq_default _ _ (by simp; omega)]
  rw [Feedback.getElem_decode feedback [] x i _ hi, List.append_nil]
  simp only [descramble, feedback, List.getElem_zipWith, List.getElem_take, List.getElem_drop]
  have h16 := hdelay 16 (by decide) (by simp; omega)
  have h11 := hdelay 11 (by decide) (by simp; omega)
  simp only [Nat.sub_self, Nat.add_zero] at h16
  simp only [Nat.reduceSub, Nat.add_comm i 5] at h11
  rw [h16, h11, List.getElem_append_right (by simp)]
  simp only [List.length_replicate, Nat.add_sub_cancel_left]
  rw [Bool.xor_comm, Bool.xor_comm (List.getD _ 16 _)]

/-! ## Reflection -/

theorem reflectBytes_append {row : List Bool} (hrow : row.length = 8) (rest : List Bool) :
    reflectBytes (row ++ rest) = row.reverse ++ reflectBytes rest := by
  have hcount : (row ++ rest).length / 8 = rest.length / 8 + 1 := by
    rw [List.length_append]
    omega
  unfold reflectBytes
  rw [hcount, List.range_succ_eq_map, List.flatMap_cons, List.flatMap_map]
  congr 1
  · rw [Nat.mul_zero, List.drop_zero, List.take_left' hrow]
  · refine List.flatMap_congr fun i _ => ?_
    have hdrop : 8 * (i + 1) = row.length + 8 * i := by omega
    simp only [hdrop, List.drop_length_add_append]

theorem reverse_lsbBits (byte : Byte) : (lsbBits byte).reverse = msbBits byte := by
  have h : ∀ byte : Byte, (lsbBits byte).reverse = msbBits byte := by decide
  exact h byte

/-- Fewer than eight bits after the bytes are left out. -/
theorem reflectBytes_flatMap (data : List Byte) {rest : List Bool} (hrest : rest.length < 8) :
    reflectBytes (data.flatMap lsbBits ++ rest) = unpackMsb data := by
  induction data with
  | nil =>
    rw [List.flatMap_nil, List.nil_append, reflectBytes, Nat.div_eq_of_lt hrest]
    rfl
  | cons byte data ih =>
    rw [List.flatMap_cons, List.append_assoc, reflectBytes_append (length_lsbBits byte), ih,
      reverse_lsbBits]
    rfl

/-! ## The line code -/

theorem unpackMsb_encodeLine (data : List Byte) : ∃ k < 8, unpackMsb (encodeLine data) =
    stuff 0 (scramble (nrziEncode false (data.flatMap lsbBits))) ++ List.replicate k false := by
  generalize hbits : stuff 0 (scramble (nrziEncode false (data.flatMap lsbBits))) = bits
  refine ⟨(8 - bits.length % 8) % 8, Nat.mod_lt _ (by decide), ?_⟩
  have hlen : (padBytes bits).length = (bits.length + 7) / 8 * 8 := by
    rw [padBytes, List.length_append, List.length_replicate]
    omega
  rw [encodeLine, hbits, unpackMsb_packMsb hlen]
  rfl

/-- The padding is decoded to fewer than eight bits after the bits of the byte string. -/
theorem exists_nrziDecode_descramble (bits pad : List Bool) : ∃ rest : List Bool,
    rest.length = pad.length ∧
      nrziDecode (descramble (scramble (nrziEncode false bits) ++ pad)) = bits ++ rest := by
  have hnrzi : nrziEncode false bits = Feedback.encode level [] bits := nrziEncode_eq [] bits
  have hdescramble : descramble (scramble (nrziEncode false bits) ++ pad) = nrziEncode false bits ++
      Feedback.decode feedback ((scramble (nrziEncode false bits)).reverse ++ []) pad := by
    rw [descramble_eq, scramble, Feedback.decode_encode_append]
  have hdecode (pad : List Bool) : nrziDecode (nrziEncode false bits ++ pad) =
      bits ++ Feedback.decode level ((nrziEncode false bits).reverse ++ []) pad := by
    rw [nrziDecode_eq, hnrzi, Feedback.decode_encode_append]
  rw [hdescramble, hdecode]
  exact ⟨_, by rw [Feedback.length_decode, Feedback.length_decode], rfl⟩

theorem decodeLine_encodeLine (data : List Byte) : decodeLine (encodeLine data) = some data := by
  obtain ⟨k, hk, hunpack⟩ := unpackMsb_encodeLine data
  obtain ⟨rest, hrest, hdecode⟩ :=
    exists_nrziDecode_descramble (data.flatMap lsbBits) (List.replicate k false)
  have hwhole : (unpackMsb data).length % 8 = 0 := by
    rw [length_unpackMsb]
    omega
  rw [List.length_replicate] at hrest
  rw [decodeLine, hunpack, destuff_stuff]
  simp only [Option.bind_eq_bind, Option.bind_some, hdecode,
    reflectBytes_flatMap data (hrest.trans_lt hk), hwhole, ne_eq, not_true_eq_false, if_false]
  exact congrArg some (packMsb_unpackMsb data)

theorem decodeLine_eq_none_iff (packet : List Byte) :
    decodeLine packet = none ↔ List.replicate 6 true <:+: unpackMsb packet := by
  have hdestuff := destuffLoop_eq_none_iff (by decide : 0 ≤ 5) [] (unpackMsb packet)
  rw [List.replicate_zero, List.nil_append] at hdestuff
  rw [← hdestuff, decodeLine, destuff]
  cases destuffLoop 0 [] (unpackMsb packet) with
  | none => exact iff_of_true rfl rfl
  | some bits => exact iff_of_false (Option.some_ne_none _) (Option.some_ne_none _)

theorem handleMsg_u8vector (pdu : Pdu M) : handleMsg (.u8vector pdu) =
    ((decodeLine pdu.cdr).map fun packet => ⟨pdu.car, packet⟩).toList := by
  rw [handleMsg]
  cases decodeLine pdu.cdr with
  | none => rfl
  | some packet => rfl

/-- The decoder publishes every byte string that was sent in the line code, with the metadata
of the PDU, and it publishes nothing exactly when a PDU has six ones in a row. -/
theorem handleMsg_inverts (car : M) :
    (∀ data : List Byte, handleMsg (.u8vector ⟨car, encodeLine data⟩) = [⟨car, data⟩]) ∧
      ∀ packet : List Byte, handleMsg (.u8vector ⟨car, packet⟩) = [] ↔
        List.replicate 6 true <:+: unpackMsb packet := by
  constructor
  · intro data
    rw [handleMsg_u8vector, decodeLine_encodeLine]
    rfl
  · intro packet
    rw [← decodeLine_eq_none_iff, handleMsg_u8vector, Option.toList_eq_nil_iff,
      Option.map_eq_none_iff]

end GrSatellites.Eseo
