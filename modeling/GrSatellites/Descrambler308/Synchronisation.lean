import GrSatellites.Basic
import GrSatellites.Library.Transducer

/-!
# The descrambler 308

The block of `lib/descrambler308_impl.cc`: a shift register of 20 bits, and a counter of adverse
states that the register sets back. After 20 bits the register holds nothing but input, so two
descramblers on one stream have the same register, and the same counter once it has been set back.
-/

namespace GrSatellites.Descrambler308

open Transducer

/-- The members of the block, two values of `uint32_t` that stay in their ranges. -/
@[ext] structure State where
  counter : BitVec 32
  shiftRegister : BitVec 32
  counter_lt : counter.toNat < 32
  shiftRegister_lt : ∀ i, 20 ≤ i → shiftRegister.getLsbD i = false

/-- The state that the constructor leaves. -/
def State.init : State where
  counter := 0
  shiftRegister := 0
  counter_lt := by decide
  shiftRegister_lt := fun _ _ => BitVec.getLsbD_zero

namespace State

variable (s t : State)

/-- The condition of `d_scramble_bit` under which the counter is set back. -/
def Resets : Prop := ((s.shiftRegister >>> 19) ^^^ (s.shiftRegister >>> 11)) &&& 1 ≠ 0

instance : Decidable s.Resets := inferInstanceAs (Decidable (_ ≠ _))

/-- The counter is at its largest value. -/
def Full : Prop := s.counter = 0x1f

instance : Decidable s.Full := inferInstanceAs (Decidable (_ = _))

/-- `outbit`. -/
def outbit (inbit : Byte) : Byte :=
  (~~~(inbit.setWidth 32 ^^^ s.shiftRegister ^^^ (s.shiftRegister >>> 17) ^^^
    (if s.Full then 1 else 0)) &&& 1).setWidth 8

/-- The counter after a bit. -/
def nextCounter : BitVec 32 := if s.Resets then 0 else (s.counter + 1) &&& 0x1f

/-- The shift register after a bit. -/
def nextShiftRegister (inbit : Byte) : BitVec 32 :=
  (s.shiftRegister >>> 1) ||| ((inbit.setWidth 32 &&& 1) <<< 19)

theorem nextCounter_lt : s.nextCounter.toNat < 32 := by
  rw [nextCounter]
  split
  · decide
  · rw [BitVec.toNat_and]
    exact Nat.lt_succ_of_le Nat.and_le_right

theorem getLsbD_nextShiftRegister (inbit : Byte) {i : ℕ} (hi : i < 32) :
    (s.nextShiftRegister inbit).getLsbD i =
      (s.shiftRegister.getLsbD (i + 1) || (decide (i = 19) && inbit.getLsbD 0)) := by
  have hbit : ((inbit.setWidth 32 &&& 1#32) <<< 19).getLsbD i =
      (decide (i = 19) && inbit.getLsbD 0) := by
    rw [BitVec.getLsbD_shiftLeft, BitVec.getLsbD_and, BitVec.getLsbD_one, BitVec.getLsbD_setWidth]
    rcases Nat.lt_trichotomy i 19 with hlt | rfl | hgt
    · simp [hlt, hlt.ne]
    · simp
    · simp [hgt.ne', show i - 19 ≠ 0 by omega]
  rw [nextShiftRegister, BitVec.getLsbD_or, BitVec.getLsbD_ushiftRight, Nat.add_comm 1 i]
  exact congrArg (s.shiftRegister.getLsbD (i + 1) || ·) hbit

theorem nextShiftRegister_lt (inbit : Byte) (i : ℕ) (hi : 20 ≤ i) :
    (s.nextShiftRegister inbit).getLsbD i = false := by
  rcases Nat.lt_or_ge i 32 with hlt | hge
  · rw [s.getLsbD_nextShiftRegister inbit hlt, s.shiftRegister_lt _ (by omega),
      decide_eq_false (by omega), Bool.false_and, Bool.or_false]
  · exact BitVec.getLsbD_of_ge _ _ hge

/-- `d_scramble_bit`. -/
def dScrambleBit (inbit : Byte) : State × List Byte :=
  ({ counter := s.nextCounter
     shiftRegister := s.nextShiftRegister inbit
     counter_lt := s.nextCounter_lt
     shiftRegister_lt := s.nextShiftRegister_lt inbit }, [s.outbit inbit])

/-- `work`. -/
def work : State → List Byte → State × List Byte := run dScrambleBit

/-- The output of some calls of `work`. -/
def output (calls : List (List Byte)) : List Byte := (run work s calls).2

/-- The state in which some calls of `work` get to an item. -/
def atItem : State → List (List Byte) → ℕ → State
  | s, [], _ => s
  | s, items :: calls, n =>
    if n < items.length then (work s (items.take n)).1
    else (work s items).1.atItem calls (n - items.length)

end State

/-! ## Two descramblers -/

/-- What two descramblers on one stream have in common. The stream is cut into calls for each of
them, and items are numbered along the stream. -/
structure Synchronise (s t : State) (calls calls' : List (List Byte)) : Prop where
  /-- The shift registers are equal after 20 bits. -/
  shiftRegister_eq : ∀ n, 20 ≤ n → n ≤ calls.flatten.length →
    (s.atItem calls n).shiftRegister = (t.atItem calls' n).shiftRegister
  /-- The counters are set back at the same bits from then on. -/
  resets_iff : ∀ n, 20 ≤ n → n < calls.flatten.length →
    ((s.atItem calls n).Resets ↔ (t.atItem calls' n).Resets)
  /-- The outputs are equal after the first of these bits. -/
  output_eq : ∀ m n, 20 ≤ m → (s.atItem calls m).Resets → m < n → n < calls.flatten.length →
    (s.output calls)[n]? = (t.output calls')[n]?
  /-- Before, they differ where one of the counters is at its largest value and the other one
  is not. -/
  output_ne_iff : ∀ n, 20 ≤ n → n < calls.flatten.length →
    ((s.output calls)[n]? ≠ (t.output calls')[n]? ↔
      ¬ ((s.atItem calls n).Full ↔ (t.atItem calls' n).Full))

namespace State

variable {s t : State}

/-! ### One item -/

/-- The state after some items. -/
def after (s : State) (items : List Byte) : State := (run dScrambleBit s items).1

theorem after_take_succ {items : List Byte} {n : ℕ} (hn : n < items.length) :
    s.after (items.take (n + 1)) = ((s.after (items.take n)).dScrambleBit items[n]).1 := by
  rw [after, List.take_add_one, List.getElem?_eq_getElem hn, Option.toList_some, run_append,
    run_singleton]
  rfl

theorem atItem_eq (calls : List (List Byte)) (n : ℕ) :
    s.atItem calls n = s.after (calls.flatten.take n) := by
  induction calls generalizing s n with
  | nil => rw [List.flatten_nil, List.take_nil]; rfl
  | cons items calls ih =>
    rw [atItem, List.flatten_cons]
    split
    · next hlt => rw [List.take_append_of_le_length hlt.le]; rfl
    · next hge =>
      rw [ih, List.take_append, List.take_of_length_le (Nat.not_lt.mp hge), after, after,
        run_append]
      rfl

/-- Every item gives one bit, from the state in which it is processed. -/
theorem getElem?_output (items : List Byte) {n : ℕ} (hn : n < items.length) :
    (run dScrambleBit s items).2[n]? = some ((s.after (items.take n)).outbit items[n]) := by
  induction items generalizing s n with
  | nil => exact absurd hn (Nat.not_lt_zero n)
  | cons item items ih =>
    rw [run_cons]
    cases n with
    | zero => rfl
    | succ n => exact ih (Nat.lt_of_succ_lt_succ hn)

theorem output_getElem? (calls : List (List Byte)) {n : ℕ} (hn : n < calls.flatten.length) :
    (s.output calls)[n]? = some ((s.atItem calls n).outbit calls.flatten[n]) := by
  have hrun : s.output calls = (run dScrambleBit s calls.flatten).2 :=
    congrArg Prod.snd (run_chunks dScrambleBit s calls)
  rw [hrun, getElem?_output _ hn, atItem_eq]

/-! ### The same items in two states -/

/-- After some items, the registers are equal but for the lowest bits. -/
theorem getLsbD_after_eq {items : List Byte} {n : ℕ} (hn : n ≤ items.length) {i : ℕ}
    (hi : 20 ≤ i + n) :
    (s.after (items.take n)).shiftRegister.getLsbD i =
      (t.after (items.take n)).shiftRegister.getLsbD i := by
  induction n generalizing i with
  | zero =>
    rw [Nat.add_zero] at hi
    rw [shiftRegister_lt _ _ hi, shiftRegister_lt _ _ hi]
  | succ n ih =>
    rcases Nat.lt_or_ge i 32 with hlt | hge
    · rw [after_take_succ hn, after_take_succ hn]
      show (nextShiftRegister _ _).getLsbD i = (nextShiftRegister _ _).getLsbD i
      rw [getLsbD_nextShiftRegister _ _ hlt, getLsbD_nextShiftRegister _ _ hlt,
        ih (Nat.le_of_succ_le hn) (by omega)]
    · rw [BitVec.getLsbD_of_ge _ _ hge, BitVec.getLsbD_of_ge _ _ hge]

/-- After 20 items the registers are equal. -/
theorem shiftRegister_after_eq {items : List Byte} {n : ℕ} (h : 20 ≤ n) (hn : n ≤ items.length) :
    (s.after (items.take n)).shiftRegister = (t.after (items.take n)).shiftRegister := by
  apply BitVec.eq_of_getLsbD_eq
  intro i _
  exact getLsbD_after_eq hn (by omega)

theorem resets_iff (h : s.shiftRegister = t.shiftRegister) : s.Resets ↔ t.Resets := by
  rw [Resets, h]
  rfl

/-- Once both counters have been set back, the states are equal for good. -/
theorem after_eq_of_resets {items : List Byte} {m n : ℕ} (hm : 20 ≤ m)
    (hreset : (s.after (items.take m)).Resets) (hlt : m < n) (hn : n ≤ items.length) :
    s.after (items.take n) = t.after (items.take n) := by
  induction n, hlt using Nat.le_induction with
  | base =>
    have hregister := shiftRegister_after_eq (s := s) (t := t) hm (Nat.le_of_succ_le hn)
    have hreset' := (resets_iff hregister).mp hreset
    rw [after_take_succ hn, after_take_succ hn]
    ext1
    · show nextCounter _ = nextCounter _
      rw [nextCounter, nextCounter, if_pos hreset, if_pos hreset']
    · show nextShiftRegister _ _ = nextShiftRegister _ _
      rw [nextShiftRegister, nextShiftRegister, hregister]
  | succ n hlt ih => rw [after_take_succ hn, after_take_succ hn, ih (Nat.le_of_succ_le hn)]

/-- A bit of the output, with the taps of the register. -/
theorem getLsbD_outbit (inbit : Byte) : (s.outbit inbit).getLsbD 0 =
    !((inbit.setWidth 32 ^^^ s.shiftRegister ^^^ s.shiftRegister >>> 17).getLsbD 0 ^^
      decide s.Full) := by
  rw [outbit, BitVec.getLsbD_setWidth, BitVec.getLsbD_and, BitVec.getLsbD_not, BitVec.getLsbD_xor]
  by_cases hfull : s.Full <;> simp [hfull]

/-- With equal registers, the bits of the output differ with the largest value of a counter. -/
theorem outbit_ne_iff (h : s.shiftRegister = t.shiftRegister) (inbit : Byte) :
    s.outbit inbit ≠ t.outbit inbit ↔ ¬ (s.Full ↔ t.Full) := by
  refine not_congr ⟨fun houtbit => ?_, fun hfull => ?_⟩
  · have hbit := congrArg (BitVec.getLsbD · 0) houtbit
    simp only [getLsbD_outbit, h] at hbit
    exact decide_eq_decide.mp (Bool.xor_right_inj.mp (Bool.not_inj hbit))
  · rw [outbit, outbit, h]
    simp only [hfull]

end State

/-- **Self-synchronisation.** Two descramblers in any states synchronise on a stream, however it is
cut into calls for each of them. -/
theorem synchronise (s t : State) {calls calls' : List (List Byte)}
    (h : calls.flatten = calls'.flatten) : Synchronise s t calls calls' := by
  have hregister : ∀ n, 20 ≤ n → n ≤ calls.flatten.length →
      (s.atItem calls n).shiftRegister = (t.atItem calls' n).shiftRegister := by
    intro n hn hle
    rw [State.atItem_eq, State.atItem_eq, ← h]
    exact State.shiftRegister_after_eq hn hle
  have houtput : ∀ {n}, (hn : n < calls.flatten.length) → (t.output calls')[n]? =
      some ((t.atItem calls' n).outbit calls.flatten[n]) := by
    intro n hn
    rw [State.output_getElem? calls' (h ▸ hn)]
    simp only [h]
  constructor
  · exact hregister
  · exact fun n hn hlt => State.resets_iff (hregister n hn hlt.le)
  · intro m n hm hreset hlt hn
    rw [State.output_getElem? calls hn, houtput hn]
    rw [State.atItem_eq] at hreset
    rw [State.atItem_eq, State.atItem_eq, ← h, State.after_eq_of_resets hm hreset hlt hn.le]
  · intro n hn hlt
    rw [State.output_getElem? calls hlt, houtput hlt, Ne, Option.some.injEq]
    exact State.outbit_ne_iff (hregister n hn hlt.le) _

/-- A state with every bit of the register set. -/
def State.ones : State where
  counter := 0x1f
  shiftRegister := 0xfffff
  counter_lt := by decide
  shiftRegister_lt := fun i hi => by
    have hones : (0xfffff : BitVec 32) = (BitVec.allOnes 20).setWidth 32 := by decide
    rw [hones, BitVec.getLsbD_setWidth, BitVec.getLsbD_of_ge _ _ hi, Bool.and_false]

/-- Two descramblers get 24 ones, in one call and in two. -/
theorem synchronise_ones : Synchronise State.init State.ones [List.replicate 24 1]
    [List.replicate 10 1, List.replicate 14 1] :=
  synchronise State.init State.ones (by decide)

end GrSatellites.Descrambler308
