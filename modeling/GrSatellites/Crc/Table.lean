import GrSatellites.Crc.Register
import GrSatellites.Library.Bits

/-!
# The lookup table

Both constructions of `d_table` double the known part of the table in each round:
entry `i + j` is the sum of entries `i` and `j`, and the word shifted along is
entry `i`. Entry `k` is the remainder of the byte `k` fed to the zero register.
-/

namespace GrSatellites.Crc

open Bits Lfsr

/-- The bits of a byte in the order in which the configuration feeds them. -/
def byteBits (reflected : Bool) (byte : Byte) : List Bool :=
  if reflected then lsbBits byte else msbBits byte

@[simp] theorem length_byteBits (reflected : Bool) (byte : Byte) :
    (byteBits reflected byte).length = 8 := by
  cases reflected <;> simp [byteBits]

theorem byteBits_xor (reflected : Bool) (a b : Byte) :
    byteBits reflected (a ^^^ b) = List.zipWith xor (byteBits reflected a) (byteBits reflected b) := by
  apply List.ext_getElem
  · simp
  · intro i _ _
    cases reflected <;> simp [byteBits, lsbBits, msbBits, BitVec.getMsbD_xor]

/-- A byte with one bit set feeds that bit among zeros. -/
theorem byteBits_two_pow (reflected : Bool) {m : ℕ} (hm : m < 8) :
    byteBits reflected (BitVec.ofNat 8 (2 ^ m)) =
      List.replicate (if reflected then m else 7 - m) false ++
        true :: List.replicate (if reflected then 7 - m else m) false := by
  have h : ∀ m : Fin 8, ∀ reflected, byteBits reflected (BitVec.ofNat 8 (2 ^ m.val)) =
      List.replicate (if reflected then m.val else 7 - m.val) false ++
        true :: List.replicate (if reflected then 7 - m.val else m.val) false := by
    decide
  exact h ⟨m, hm⟩ reflected

/-- A number without the bit `2 ^ m` gains it by exclusive or as by addition. -/
theorem two_pow_add_eq_xor {m j : ℕ} (hm : m < 8) (hj : j < 256) (hbit : j.testBit m = false) :
    2 ^ m + j = 2 ^ m ^^^ j := by
  have h : ∀ m : Fin 8, ∀ j : Fin 256, j.val.testBit m = false →
      2 ^ m.val + j.val = 2 ^ m.val ^^^ j.val := by
    decide +kernel
  exact h ⟨m, hm⟩ ⟨j, hj⟩ hbit

variable (w : Width) (poly : Word)

/-- What entry `k` of the table must hold. -/
def remainder (reflected : Bool) (k : ℕ) : Word :=
  toWord reflected (feedAll (feedback w poly) 0#_ (byteBits reflected (BitVec.ofNat 8 k)))

theorem remainder_zero (reflected : Bool) : remainder w poly reflected 0 = 0 := by
  have hbits : byteBits reflected (BitVec.ofNat 8 0) = List.replicate 8 false := by
    cases reflected <;> decide
  rw [remainder, hbits, feedAll_replicate_false, clock_iterate_zero, toWord_zero]

theorem clock_one : clock (feedback w poly) 1#_ = feedback w poly := by
  have hge := w.ge
  have hshift : (1#w.bits >>> 1) = 0#_ := by
    apply BitVec.eq_of_getLsbD_eq
    intro i _
    simp
  simp [clock, hshift, show 0 < w.bits by omega]

/-- The entry of a power of two is the polynomial clocked on: its only set bit
arrives after the clear ones before it. -/
theorem remainder_two_pow (reflected : Bool) {m : ℕ} (hm : m < 8) :
    remainder w poly reflected (2 ^ m) =
      toWord reflected ((clock (feedback w poly))^[if reflected then 8 - m else m + 1] 1#_) := by
  have hfeed : feed (feedback w poly) 0#_ true = feedback w poly := by simp [feed]
  have hcount : (if reflected then 8 - m else m + 1) = (if reflected then 7 - m else m) + 1 := by
    cases reflected
    · simp
    · simp only [if_true]
      omega
  rw [remainder, byteBits_two_pow reflected hm, feedAll_append, feedAll_replicate_false,
    clock_iterate_zero, feedAll_cons, hfeed, feedAll_replicate_false, hcount,
    Function.iterate_succ_apply, clock_one]

theorem remainder_add (reflected : Bool) {m j : ℕ} (hm : m < 8) (hj : j < 256)
    (hbit : j.testBit m = false) :
    remainder w poly reflected (2 ^ m + j) =
      remainder w poly reflected (2 ^ m) ^^^ remainder w poly reflected j := by
  rw [two_pow_add_eq_xor hm hj hbit]
  unfold remainder
  rw [← toWord_xor, ← feedAll_xor _ _ _ (by simp), BitVec.xor_zero, ← byteBits_xor,
    BitVec.ofNat_xor]

theorem remainder_and_maskOf (reflected : Bool) (k : ℕ) :
    remainder w poly reflected k &&& maskOf w = remainder w poly reflected k :=
  toWord_and_maskOf w reflected _

section Fill

variable {w poly} {reflected : Bool}

/-- The table holds the right remainder at every index of a set. -/
def Agrees (w : Width) (poly : Word) (reflected : Bool) (table : CrcTable) (S : ℕ → Prop) : Prop :=
  ∀ k < 256, S k → table.entry k = remainder w poly reflected k

theorem entry_setIfInBounds (table : CrcTable) {i k : ℕ} (hk : k < 256) (word : Word) :
    (CrcTable.entry (table.setIfInBounds i word) k) = if i = k then word else table.entry k := by
  unfold CrcTable.entry
  rw [Vector.getElem?_setIfInBounds]
  by_cases h : i = k
  · simp [h, hk]
  · simp [h]

/-- The inner loop extends the known part of the table by `i + j` for the listed `j`.
Writing a right value at a known index does no harm, so the order does not matter. -/
theorem Agrees.fill {table : CrcTable} {S : ℕ → Prop} {crc : Word} {i : ℕ} {js : List ℕ}
    (h : Agrees w poly reflected table S) (hjs : ∀ j ∈ js, j < 256 ∧ S j)
    (hcrc : ∀ j ∈ js, (crc ^^^ remainder w poly reflected j) &&& maskOf w =
      remainder w poly reflected (i + j)) :
    Agrees w poly reflected (fill (maskOf w) crc i js table)
      (fun k => S k ∨ ∃ j ∈ js, k = i + j) := by
  induction js generalizing table S with
  | nil => simpa [Crc.fill, Agrees] using h
  | cons j js ih =>
    have hj := hjs j List.mem_cons_self
    have hstep : Agrees w poly reflected
        (table.setIfInBounds (i + j) ((crc ^^^ table.entry j) &&& maskOf w))
        (fun k => S k ∨ k = i + j) := by
      intro k hk hS
      rw [entry_setIfInBounds table hk]
      split
      · next heq => rw [h j hj.1 hj.2, hcrc j List.mem_cons_self, heq]
      · next hne => exact h k hk (hS.resolve_right fun heq => hne heq.symm)
    have hrest := ih hstep
      (fun j' hj' => ⟨(hjs j' (List.mem_cons_of_mem _ hj')).1,
        Or.inl (hjs j' (List.mem_cons_of_mem _ hj')).2⟩)
      (fun j' hj' => hcrc j' (List.mem_cons_of_mem _ hj'))
    intro k hk hS
    apply hrest k hk
    rcases hS with hS | ⟨j', hj', rfl⟩
    · exact Or.inl (Or.inl hS)
    · rcases List.mem_cons.mp hj' with rfl | hj'
      · exact Or.inl (Or.inr rfl)
      · exact Or.inr ⟨j', hj', rfl⟩

end Fill

/-- The step word of the reflected construction is one clock. -/
theorem reflected_step (r : BitVec w.bits) :
    (if toWord true r &&& 1 ≠ 0 then shr (toWord true r) 1 ^^^ reflect w poly
      else shr (toWord true r) 1) = toWord true (clock (feedback w poly) r) := by
  have hbit : toWord true r &&& 1 ≠ 0 ↔ (toWord true r).getLsbD 0 = true :=
    and_bit_ne_zero (toWord true r) 0
  rw [← feed_false, ← feed_reflected, Bool.xor_false]
  by_cases h : (toWord true r).getLsbD 0 = true
  · rw [if_pos (hbit.mpr h), if_pos h]
    rfl
  · rw [if_neg (mt hbit.mp h), if_neg h]
    simp [shr]

/-- The step word of the other construction is one clock, below the mask. -/
theorem direct_step {crc : Word} {r : BitVec w.bits} (hcrc : crc &&& maskOf w = toWord false r) :
    (if crc &&& shl 1 ⟨w.bits - 1, w.pred_lt⟩ ≠ 0 then shl crc 1 ^^^ poly
      else shl crc 1) &&& maskOf w = toWord false (clock (feedback w poly) r) := by
  have hle := w.le
  have hge := w.ge
  have hbit := and_bit_ne_zero crc ⟨w.bits - 1, by omega⟩
  rw [← feed_false, ← feed_direct w poly hcrc, Bool.xor_false]
  by_cases h : crc.getLsbD (w.bits - 1) = true
  · rw [if_pos (hbit.mpr h), if_pos h]
    rfl
  · rw [if_neg (mt hbit.mp h), if_neg h]
    simp [shl]

/-- A round of the reflected construction: from the multiples of `2 * i` to the
multiples of `i`, where `i = 2 ^ m`. -/
theorem Agrees.reflected_round {table : CrcTable} {m : ℕ} (hm : m < 8)
    (h : Agrees w poly true table (2 ^ (m + 1) ∣ ·)) :
    Agrees w poly true (Crc.fill (maskOf w) (remainder w poly true (2 ^ m)) (2 ^ m)
      (List.range' 0 ((256 + (2 * 2 ^ m - 1)) / (2 * 2 ^ m)) (2 * 2 ^ m)) table) (2 ^ m ∣ ·) := by
  have hpos : 0 < 2 * 2 ^ m := by positivity
  have hmem {j : ℕ} (hj : j ∈ List.range' 0 ((256 + (2 * 2 ^ m - 1)) / (2 * 2 ^ m)) (2 * 2 ^ m)) :
      j < 256 ∧ 2 ^ (m + 1) ∣ j := by
    obtain ⟨c, hc, rfl⟩ := List.mem_range'.mp hj
    have hle : (c + 1) * (2 * 2 ^ m) ≤ 256 + (2 * 2 ^ m - 1) :=
      (Nat.le_div_iff_mul_le hpos).mp hc
    rw [Nat.succ_mul] at hle
    refine ⟨?_, ⟨c, by ring⟩⟩
    rw [Nat.zero_add, Nat.mul_comm]
    omega
  have hcrc : ∀ j ∈ List.range' 0 ((256 + (2 * 2 ^ m - 1)) / (2 * 2 ^ m)) (2 * 2 ^ m),
      (remainder w poly true (2 ^ m) ^^^ remainder w poly true j) &&& maskOf w =
        remainder w poly true (2 ^ m + j) := by
    intro j hj
    obtain ⟨hlt, c, rfl⟩ := hmem hj
    have hbit : (2 ^ (m + 1) * c).testBit m = false := by
      rw [Nat.testBit_two_pow_mul]
      simp
    rw [← remainder_add w poly true hm hlt hbit, remainder_and_maskOf]
  intro k hk hdvd
  refine h.fill (fun j hj => hmem hj) hcrc k hk ?_
  obtain ⟨c, rfl⟩ := hdvd
  rcases Nat.even_or_odd' c with ⟨d, rfl | rfl⟩
  · exact Or.inl ⟨d, by ring⟩
  · refine Or.inr ⟨2 * 2 ^ m * d, ?_, by ring⟩
    rw [List.mem_range']
    refine ⟨d, ?_, by ring⟩
    rw [Nat.lt_div_iff_mul_lt hpos]
    have hexp : 2 ^ m * (2 * d + 1) = d * (2 * 2 ^ m) + 2 ^ m := by ring
    omega

/-- The reflected construction halves `i`: a round with `i = 2 ^ m` starts with the
multiples of `2 * i` known, and the last one ends with every entry. -/
theorem agrees_reflectedLoop (m : ℕ) {table : CrcTable} (hm : m < 8)
    (h : Agrees w poly true table (2 ^ (m + 1) ∣ ·)) :
    Agrees w poly true (reflectedLoop (maskOf w) (reflect w poly) (m + 1) (2 ^ m)
      (toWord true ((clock (feedback w poly))^[7 - m] 1#_)) table) (fun _ => True) := by
  induction m generalizing table with
  | zero =>
    have hround := h.reflected_round w poly hm
    have hlast := remainder_two_pow w poly true hm
    rw [if_pos rfl, Function.iterate_succ_apply'] at hlast
    simp only [reflectedLoop, reflected_step, ← hlast]
    rw [if_neg (by simp)]
    exact fun k hk _ => hround k hk (by simp)
  | succ m ih =>
    have hround := h.reflected_round w poly hm
    have hnext := remainder_two_pow w poly true hm
    rw [if_pos rfl, show 8 - (m + 1) = 7 - (m + 1) + 1 by omega,
      Function.iterate_succ_apply'] at hnext
    have hhalf : 2 ^ (m + 1) / 2 = 2 ^ m := by rw [Nat.pow_succ]; omega
    have hrec := ih (by omega) hround
    rw [show 7 - m = 7 - (m + 1) + 1 by omega, Function.iterate_succ_apply', ← hnext] at hrec
    rw [reflectedLoop]
    simp only [reflected_step, ← hnext, hhalf, Nat.two_pow_pos, if_true]
    exact hrec

/-- A round of the other construction: from the entries below `i = 2 ^ m` to the
entries below `2 * i`. The step word counts only below the mask. -/
theorem Agrees.direct_round {table : CrcTable} {m : ℕ} {crc : Word} (hm : m < 8)
    (h : Agrees w poly false table (· < 2 ^ m))
    (hcrc : crc &&& maskOf w = remainder w poly false (2 ^ m)) :
    Agrees w poly false (Crc.fill (maskOf w) crc (2 ^ m) (List.range (2 ^ m)) table)
      (· < 2 ^ (m + 1)) := by
  have hle : 2 ^ m ≤ 128 := Nat.pow_le_pow_right (by omega) (show m ≤ 7 by omega)
  have hmem : ∀ j ∈ List.range (2 ^ m), j < 256 ∧ j < 2 ^ m := by
    intro j hj
    have hlt := List.mem_range.mp hj
    omega
  have hadd : ∀ j ∈ List.range (2 ^ m), (crc ^^^ remainder w poly false j) &&& maskOf w =
      remainder w poly false (2 ^ m + j) := by
    intro j hj
    obtain ⟨hsmall, hlt⟩ := hmem j hj
    rw [remainder_add w poly false hm hsmall (Nat.testBit_lt_two_pow hlt), ← hcrc,
      xor_and_distrib, remainder_and_maskOf]
  intro k hk hlt
  refine h.fill hmem hadd k hk ?_
  rw [Nat.pow_succ] at hlt
  by_cases hknown : k < 2 ^ m
  · exact Or.inl hknown
  · exact Or.inr ⟨k - 2 ^ m, List.mem_range.mpr (by omega), by omega⟩

/-- The other construction doubles `i`: a round with `i = 2 ^ m` starts with the
entries below `i` known, and the last one ends with every entry. -/
theorem agrees_directLoop (rounds : ℕ) {m : ℕ} {table : CrcTable} {crc : Word}
    (hm : m + (rounds + 1) = 8) (h : Agrees w poly false table (· < 2 ^ m))
    (hcrc : crc &&& maskOf w = toWord false ((clock (feedback w poly))^[m] 1#_)) :
    Agrees w poly false (directLoop (maskOf w) poly
      (shl 1 ⟨w.bits - 1, w.pred_lt⟩) (rounds + 1) (2 ^ m) crc table)
      (fun _ => True) := by
  induction rounds generalizing m table crc with
  | zero =>
    have hstep := direct_step w poly hcrc
    rw [← Function.iterate_succ_apply' (clock (feedback w poly))] at hstep
    have hround := h.direct_round w poly (by omega)
      (hstep.trans (remainder_two_pow w poly false (by omega)).symm)
    have hm7 : m = 7 := by omega
    subst hm7
    rw [directLoop]
    simp only [show ¬ (2 ^ 7 * 2 < 256) by decide, if_false]
    exact fun k hk _ => hround k hk hk
  | succ rounds ih =>
    have hstep := direct_step w poly hcrc
    rw [← Function.iterate_succ_apply' (clock (feedback w poly))] at hstep
    have hround := h.direct_round w poly (by omega)
      (hstep.trans (remainder_two_pow w poly false (by omega)).symm)
    have hpow : 2 ^ (m + 1) ≤ 128 := Nat.pow_le_pow_right (by omega) (show m + 1 ≤ 7 by omega)
    rw [directLoop]
    simp only [← Nat.pow_succ, show 2 ^ (m + 1) < 256 by omega, if_true]
    exact ih (by omega) hround hstep

section Build

variable {w poly}

theorem toWord_one_true : toWord true 1#w.bits = 1 := by
  have hge := w.ge
  apply BitVec.eq_of_getLsbD_eq
  intro i _
  rw [getLsbD_toWord_true w.le]
  simp [show 0 < w.bits by omega]

theorem msb_and_maskOf :
    shl 1 ⟨w.bits - 1, w.pred_lt⟩ &&& maskOf w = toWord false 1#w.bits := by
  have hle := w.le
  have hge := w.ge
  apply BitVec.eq_of_getLsbD_eq
  intro i hi
  rw [BitVec.getLsbD_and, getLsbD_maskOf, getLsbD_toWord_false hle, shl, BitVec.getLsbD_shiftLeft]
  by_cases hlt : i < w.bits
  · simp only [hlt, decide_true, Bool.and_true, Bool.true_and, BitVec.getLsbD_one, hi,
      BitVec.ofNat_eq_ofNat, show 0 < w.bits by omega]
    by_cases hlast : i = w.bits - 1
    · simp [hlast]
    · simp [show i < w.bits - 1 by omega, show w.bits - 1 - i ≠ 0 by omega]
  · simp [hlt]

/-- Before the loops only `d_table[0]` is set. -/
theorem agrees_initial {reflected : Bool} {S : ℕ → Prop} (hS : ∀ k < 256, S k → k = 0) :
    Agrees w poly reflected (Vector.replicate 256 0) S := by
  intro k hk hmem
  rw [hS k hk hmem, remainder_zero, CrcTable.entry, Vector.getElem?_replicate, if_pos (by omega),
    Option.getD_some]

/-- **The table.** Entry `k` is the remainder of byte `k`, for both constructions. -/
theorem entry_buildTable (reflected : Bool) {k : ℕ} (hk : k < 256) :
    (buildTable w poly reflected).entry k = remainder w poly reflected k := by
  cases reflected with
  | true =>
    have hstart : Agrees w poly true (Vector.replicate 256 0) (2 ^ (7 + 1) ∣ ·) :=
      agrees_initial fun k hk hdvd => Nat.eq_zero_of_dvd_of_lt hdvd hk
    have h := agrees_reflectedLoop w poly 7 (by omega) hstart
    rw [Nat.sub_self, Function.iterate_zero_apply, toWord_one_true] at h
    rw [buildTable, if_pos rfl]
    exact h k hk trivial
  | false =>
    have hstart : Agrees w poly false (Vector.replicate 256 0) (· < 2 ^ 0) :=
      agrees_initial fun k _ hlt => by simpa using hlt
    have h := agrees_directLoop w poly 7 (m := 0) (by omega) hstart msb_and_maskOf
    rw [buildTable, if_neg Bool.false_ne_true]
    exact h k hk trivial

end Build

end GrSatellites.Crc
