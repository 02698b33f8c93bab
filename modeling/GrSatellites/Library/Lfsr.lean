import Mathlib.Logic.Function.Iterate

/-!
# Galois shift registers

A register of `n` bits is a `BitVec n` whose bit 0 leaves first. One clock moves
every bit one place down and adds the feedback word when the bit that left was
set. The results here need nothing but linearity over exclusive or: feeding a
message bit by bit equals loading the bits into the register first, and a
register whose feedback word has its top bit set loses no information.
-/

namespace GrSatellites.Lfsr

variable {n : ℕ}

/-- One clock of the register without input. -/
def clock (p r : BitVec n) : BitVec n :=
  (r >>> 1) ^^^ (if r.getLsbD 0 then p else 0#n)

/-- One clock with an input bit added to the bit that leaves. -/
def feed (p r : BitVec n) (b : Bool) : BitVec n :=
  (r >>> 1) ^^^ (if r.getLsbD 0 ^^ b then p else 0#n)

/-- Feed a message, first bit first. -/
def feedAll (p r : BitVec n) (bits : List Bool) : BitVec n := bits.foldl (feed p) r

/-- The word whose bit `i` is the `i`-th bit of the list. -/
def load : List Bool → BitVec n
  | [] => 0#n
  | b :: bs => (load bs <<< 1) ^^^ (if b then 1#n else 0#n)

@[simp] theorem feedAll_nil (p r : BitVec n) : feedAll p r [] = r := rfl

@[simp] theorem feedAll_cons (p r : BitVec n) (b : Bool) (bits : List Bool) :
    feedAll p r (b :: bits) = feedAll p (feed p r b) bits := rfl

theorem feedAll_append (p r : BitVec n) (xs ys : List Bool) :
    feedAll p r (xs ++ ys) = feedAll p (feedAll p r xs) ys := List.foldl_append

/-- Two feedback words cancel unless exactly one of the two selecting bits is set. -/
theorem ite_xor_ite (p : BitVec n) (a b : Bool) :
    (if a then p else 0#n) ^^^ (if b then p else 0#n) = if a ^^ b then p else 0#n := by
  cases a <;> cases b <;> simp

theorem xor_xor_xor_comm (a b c d : BitVec n) : a ^^^ b ^^^ (c ^^^ d) = a ^^^ c ^^^ (b ^^^ d) := by
  ac_rfl

/-- Feeding is linear in the register and the input bit together. -/
theorem feed_xor (p a b : BitVec n) (x y : Bool) :
    feed p (a ^^^ b) (x ^^ y) = feed p a x ^^^ feed p b y := by
  unfold feed
  rw [xor_xor_xor_comm, ite_xor_ite, BitVec.ushiftRight_xor_distrib, BitVec.getLsbD_xor]
  congr 2
  cases a.getLsbD 0 <;> cases b.getLsbD 0 <;> cases x <;> cases y <;> rfl

theorem feed_false (p r : BitVec n) : feed p r false = clock p r := by
  simp [feed, clock]

@[simp] theorem clock_zero (p : BitVec n) : clock p 0#n = 0#n := by
  simp [clock]

theorem clock_xor (p a b : BitVec n) : clock p (a ^^^ b) = clock p a ^^^ clock p b := by
  simpa only [feed_false, Bool.xor_false] using feed_xor p a b false false

/-- Any number of clocks is linear. -/
theorem clock_iterate_xor (p : BitVec n) (k : ℕ) (a b : BitVec n) :
    (clock p)^[k] (a ^^^ b) = (clock p)^[k] a ^^^ (clock p)^[k] b := by
  induction k generalizing a b with
  | zero => rfl
  | succ k ih => simp only [Function.iterate_succ_apply, clock_xor, ih]

@[simp] theorem clock_iterate_zero (p : BitVec n) (k : ℕ) : (clock p)^[k] 0#n = 0#n :=
  Function.iterate_fixed (clock_zero p) k

/-- Feeding two messages of one length and adding the registers is feeding the
sum of the messages to the sum of the registers. -/
theorem feedAll_xor (p a b : BitVec n) {xs ys : List Bool} (h : xs.length = ys.length) :
    feedAll p (a ^^^ b) (List.zipWith xor xs ys) = feedAll p a xs ^^^ feedAll p b ys := by
  induction xs generalizing a b ys with
  | nil =>
    have hys : ys = [] := List.length_eq_zero_iff.mp h.symm
    simp [hys]
  | cons x xs ih =>
    cases ys with
    | nil => simp at h
    | cons y ys =>
      simp only [List.zipWith_cons_cons, feedAll_cons, feed_xor]
      exact ih _ _ (by simpa using h)

/-- Feeding zeros only clocks the register. -/
theorem feedAll_replicate_false (p r : BitVec n) (k : ℕ) :
    feedAll p r (List.replicate k false) = (clock p)^[k] r := by
  induction k generalizing r with
  | zero => rfl
  | succ k ih => rw [List.replicate_succ, feedAll_cons, feed_false, ih, Function.iterate_succ_apply]

/-- Bit `i` of a loaded word is the list's bit `i`, as far as the register is wide. -/
theorem getLsbD_load (bits : List Bool) (i : ℕ) :
    (load bits : BitVec n).getLsbD i = (decide (i < n) && (bits[i]?.getD false)) := by
  induction bits generalizing i with
  | nil => simp [load]
  | cons b bs ih =>
    cases i with
    | zero => cases b <;> simp [load]
    | succ i =>
      have hone : (if b then 1#n else 0#n).getLsbD (i + 1) = false := by cases b <;> simp
      simp only [load, BitVec.getLsbD_xor, BitVec.getLsbD_shiftLeft, hone, ih, Bool.xor_false,
        List.getElem?_cons_succ]
      by_cases hi : i + 1 < n
      · simp [hi, show i < n by omega]
      · simp [hi]

/-- Loading a message that fits into the register and clocking it through is the
same as feeding it bit by bit. -/
theorem feedAll_eq_clock_load (p r : BitVec n) {bits : List Bool} (h : bits.length ≤ n) :
    feedAll p r bits = (clock p)^[bits.length] (r ^^^ load bits) := by
  induction bits generalizing r with
  | nil => simp [load]
  | cons b bs ih =>
    have hn : 0 < n := by simp only [List.length_cons] at h; omega
    have hbit : clock p (if b then 1#n else 0#n) = if b then p else 0#n := by
      cases b
      · simp
      · have hshift : (1#n >>> 1) = 0#n := by
          apply BitVec.eq_of_getLsbD_eq
          intro i _
          simp
        simp [clock, hn, hshift]
    have htop : clock p (load bs <<< 1 : BitVec n) = load bs := by
      apply BitVec.eq_of_getLsbD_eq
      intro i hi
      have hlow : (load bs <<< 1 : BitVec n).getLsbD 0 = false := by simp
      simp only [clock, hlow, Bool.false_eq_true, if_false, BitVec.xor_zero,
        BitVec.getLsbD_ushiftRight, BitVec.getLsbD_shiftLeft, getLsbD_load]
      by_cases hlen : i < bs.length
      · simp only [List.length_cons] at h
        simp [show 1 + i < n by omega, hi]
      · simp [List.getElem?_eq_none (Nat.not_lt.mp hlen)]
    have hfeed : feed p r b = clock p (r ^^^ (if b then 1#n else 0#n)) := by
      rw [clock_xor, hbit]
      unfold feed clock
      rw [BitVec.xor_assoc, ite_xor_ite]
    rw [feedAll_cons, ih _ (by simp only [List.length_cons] at h; omega), List.length_cons,
      Function.iterate_succ_apply, hfeed, load, clock_xor, clock_xor, clock_xor, htop,
      BitVec.xor_assoc]
    congr 2
    exact BitVec.xor_comm _ _

/-- Clocking a word whose lowest `k` bits are clear `k` times only shifts it. -/
theorem clock_iterate_of_low_clear (p : BitVec n) {r : BitVec n} {k : ℕ}
    (h : ∀ i < k, r.getLsbD i = false) : (clock p)^[k] r = r >>> k := by
  induction k with
  | zero => simp
  | succ k ih =>
    rw [Function.iterate_succ_apply', ih fun i hi => h i (by omega)]
    have hlow : (r >>> k).getLsbD 0 = false := by simpa using h k (by omega)
    simp only [clock, hlow, Bool.false_eq_true, if_false, BitVec.xor_zero, BitVec.shiftRight_add]

/-- The `k` bits of a register that leave next. -/
def lowBits (r : BitVec n) (k : ℕ) : List Bool := (List.range k).map r.getLsbD

@[simp] theorem length_lowBits (r : BitVec n) (k : ℕ) : (lowBits r k).length = k := by
  simp [lowBits]

/-- Feeding a register the bits it is about to give out only shifts it. -/
theorem feedAll_lowBits (p r : BitVec n) {k : ℕ} (hk : k ≤ n) :
    feedAll p r (lowBits r k) = r >>> k := by
  rw [feedAll_eq_clock_load p r (by simpa using hk), length_lowBits,
    clock_iterate_of_low_clear]
  · apply BitVec.eq_of_getLsbD_eq
    intro i _
    simp [getLsbD_load, lowBits]
  · intro i hi
    have hbit : (load (lowBits r k) : BitVec n).getLsbD i = r.getLsbD i := by
      rw [getLsbD_load]
      simp only [lowBits, List.getElem?_map, List.getElem?_range hi, Option.map_some,
        Option.getD_some, show i < n by omega, decide_true, Bool.true_and]
    rw [BitVec.getLsbD_xor, hbit, Bool.xor_self]

/-- **Lookup.** Feeding `k` bits is looking up the sum of the input with the `k`
bits about to leave, and adding the rest of the register moved down. -/
theorem feedAll_eq_lookup (p r : BitVec n) {bits : List Bool} (h : bits.length ≤ n) :
    feedAll p r bits =
      feedAll p 0#n (List.zipWith xor (lowBits r bits.length) bits) ^^^ (r >>> bits.length) := by
  have hcancel : List.zipWith xor (List.zipWith xor (lowBits r bits.length) bits)
      (lowBits r bits.length) = bits := by
    apply List.ext_getElem
    · simp
    · intro i _ _
      simp [Bool.xor_comm]
  rw [← feedAll_lowBits p r h, ← feedAll_xor p _ _ (by simp), hcancel, BitVec.zero_xor]

section Invertible

variable {p : BitVec n}

/-- With the top feedback bit set, only the zero register clocks to zero. -/
theorem eq_zero_of_clock_eq_zero (hp : p.msb = true) {r : BitVec n} (h : clock p r = 0#n) :
    r = 0#n := by
  have htop : p.getLsbD (n - 1) = true ∧ 0 < n := by
    rw [BitVec.msb_eq_getLsbD_last] at hp
    exact ⟨hp, Nat.pos_of_ne_zero fun hn => by subst hn; simp at hp⟩
  have hout : r.getLsbD 0 = false := by
    by_contra hset
    have hbit := congrArg (fun w : BitVec n => w.getLsbD (n - 1)) h
    simp only [Bool.not_eq_false] at hset
    simp only [clock, hset, if_true, BitVec.getLsbD_xor, BitVec.getLsbD_ushiftRight, htop.1,
      BitVec.getLsbD_zero] at hbit
    rw [BitVec.getLsbD_of_ge r _ (by omega)] at hbit
    simp at hbit
  apply BitVec.eq_of_getLsbD_eq
  intro i hi
  rw [BitVec.getLsbD_zero]
  cases i with
  | zero => exact hout
  | succ i =>
    have hbit := congrArg (fun w : BitVec n => w.getLsbD i) h
    simpa [clock, hout, Nat.add_comm] using hbit

theorem eq_zero_of_clock_iterate_eq_zero (hp : p.msb = true) {k : ℕ} {r : BitVec n}
    (h : (clock p)^[k] r = 0#n) : r = 0#n := by
  induction k generalizing r with
  | zero => exact h
  | succ k ih => exact eq_zero_of_clock_eq_zero hp (ih (by rwa [Function.iterate_succ_apply] at h))

/-- A message no longer than the register that is not all zero leaves a nonzero
remainder. -/
theorem feedAll_zero_ne_zero (hp : p.msb = true) {bits : List Bool} (hlen : bits.length ≤ n)
    (hset : true ∈ bits) : feedAll p 0#n bits ≠ 0#n := by
  rw [feedAll_eq_clock_load p _ hlen, BitVec.zero_xor]
  intro hzero
  have hload := eq_zero_of_clock_iterate_eq_zero hp hzero
  obtain ⟨i, hi, hbit⟩ := List.mem_iff_getElem.mp hset
  have h := getLsbD_load (n := n) bits i
  rw [hload, List.getElem?_eq_getElem hi, hbit] at h
  simp only [BitVec.getLsbD_zero, Option.getD_some, Bool.and_true] at h
  exact absurd (show i < n by omega) (of_decide_eq_false h.symm)

/-- **Burst detection.** An error confined to a window no wider than the register
leaves a nonzero remainder, wherever the window lies in the message. -/
theorem feedAll_burst_ne_zero (hp : p.msb = true) {window : List Bool} (hlen : window.length ≤ n)
    (hset : true ∈ window) (before after : ℕ) :
    feedAll p 0#n (List.replicate before false ++ window ++ List.replicate after false) ≠ 0#n := by
  rw [feedAll_append, feedAll_append, feedAll_replicate_false, feedAll_replicate_false,
    clock_iterate_zero]
  intro hzero
  exact feedAll_zero_ne_zero hp hlen hset (eq_zero_of_clock_iterate_eq_zero hp hzero)

/-- The same for a message given by the places of its set bits. -/
theorem feedAll_window_ne_zero (hp : p.msb = true) {bits : List Bool} {start : ℕ}
    (hset : true ∈ bits) (hwindow : ∀ i, bits[i]? = some true → start ≤ i ∧ i < start + n) :
    feedAll p 0#n bits ≠ 0#n := by
  have hclear (xs : List Bool) (h : ∀ i : ℕ, xs[i]? ≠ some true) :
      xs = List.replicate xs.length false := by
    refine List.eq_replicate_iff.mpr ⟨rfl, fun b hb => ?_⟩
    obtain ⟨i, hi, rfl⟩ := List.mem_iff_getElem.mp hb
    have hne := h i
    rw [List.getElem?_eq_getElem hi] at hne
    simpa using hne
  have hbefore := hclear (bits.take start) fun i hi => by
    rw [List.getElem?_take] at hi
    split at hi
    · have := (hwindow i hi).1
      omega
    · cases hi
  have hafter := hclear ((bits.drop start).drop n) fun i hi => by
    rw [List.drop_drop, List.getElem?_drop] at hi
    have := (hwindow _ hi).2
    omega
  have hsplit : bits = bits.take start ++ (bits.drop start).take n ++ (bits.drop start).drop n := by
    rw [List.append_assoc, List.take_append_drop, List.take_append_drop]
  rw [hbefore, hafter] at hsplit
  have hmem : true ∈ (bits.drop start).take n := by
    rw [hsplit] at hset
    simpa [List.mem_replicate] using hset
  rw [hsplit]
  exact feedAll_burst_ne_zero hp (by rw [List.length_take]; omega) hmem _ _

end Invertible

end GrSatellites.Lfsr
