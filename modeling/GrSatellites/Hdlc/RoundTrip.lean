import GrSatellites.Hdlc.Model

/-!
# From the framer to the deframer

The deframer undoes bit stuffing while both sides count the same ones, and a flag
closes what it has collected. After the first flag of a framed stream the deframer is
in its initial state whatever it saw before, so earlier bits cannot matter.
-/

namespace GrSatellites.Hdlc

open Bits Transducer

/-! ## Packing -/

theorem packByte_lsbBits (byte : Byte) : packByte (lsbBits byte) = byte := by
  have h : ∀ byte : Byte, packByte (lsbBits byte) = byte := by decide
  exact h byte

/-- Packing undoes sending bytes least significant bit first. -/
theorem pack_flatMap_lsbBits (data : List Byte) : pack (data.flatMap lsbBits) = data :=
  packWith_flatMap packByte length_lsbBits packByte_lsbBits data

theorem length_flatMap_lsbBits (data : List Byte) :
    (data.flatMap lsbBits).length = data.length * 8 :=
  length_flatMap_eight length_lsbBits data

/-! ## Stuffing -/

/-- What the framer sends for some data bits when it has sent `ones` ones in a row, and
the count it ends with. -/
def stuff (ones : ℕ) (bits : List Bool) : List Bool × ℕ := bits.foldl pushBit ([], ones)

theorem pushByteLoop_eq_foldl (rounds : ℕ) (byte : Byte) (st : List Bool × ℕ) :
    pushByteLoop rounds byte st = ((List.range rounds).map byte.getLsbD).foldl pushBit st := by
  induction rounds generalizing byte st with
  | zero => rfl
  | succ rounds ih =>
    rw [pushByteLoop, ih, List.range_succ_eq_map, List.map_cons, List.map_map, List.foldl_cons]
    congr 2
    funext i
    simp only [Function.comp, BitVec.getLsbD_ushiftRight, Nat.add_comm, Nat.succ_eq_add_one]

theorem foldl_pushBit_append (buff : List Bool) (ones : ℕ) (bits : List Bool) :
    bits.foldl pushBit (buff, ones) = (buff ++ (stuff ones bits).1, (stuff ones bits).2) := by
  have hstep (buff : List Bool) (st : List Bool × ℕ) (b : Bool) :
      pushBit (buff ++ st.1, st.2) b = (buff ++ (pushBit st b).1, (pushBit st b).2) := by
    unfold pushBit
    split
    all_goals
      simp only
      split <;> simp
  unfold stuff
  induction bits using List.reverseRecOn with
  | nil => simp
  | append_singleton bits b ih =>
    rw [List.foldl_append, List.foldl_append, ih, List.foldl_cons, List.foldl_nil,
      List.foldl_cons, List.foldl_nil, hstep]

theorem stuff_cons (ones : ℕ) (b : Bool) (bits : List Bool) :
    stuff ones (b :: bits) =
      ((pushBit ([], ones) b).1 ++ (stuff (pushBit ([], ones) b).2 bits).1,
        (stuff (pushBit ([], ones) b).2 bits).2) := by
  rw [stuff, List.foldl_cons, ← foldl_pushBit_append]

theorem Framer.frame_eq (f : Framer) (data : List Byte) :
    f.frame data = (List.replicate f.preambleBytes flag).flatten ++
      (stuff 0 ((appendFcs data).flatMap lsbBits)).1 ++
        (List.replicate f.postambleBytes flag).flatten := by
  have hbytes (buff : List Bool) (ones : ℕ) (data : List Byte) :
      data.foldl (fun st byte => pushByteLoop 8 byte st) (buff, ones) =
        (data.flatMap lsbBits).foldl pushBit (buff, ones) := by
    rw [List.foldl_flatMap]
    simp only [pushByteLoop_eq_foldl, lsbBits]
  simp only [frame, hbytes, foldl_pushBit_append]

/-! ## Destuffing -/

namespace Deframer

variable (d : Deframer)

theorem append_eq {bits : List Bool} (h : bits.length < d.maxlen) (x : Bool) :
    d.append bits x = bits ++ [x] := by
  rw [append, Nat.sub_eq_zero_of_le (by omega), List.drop_zero]

/-- One data bit, with the zero that may be stuffed after it. -/
theorem run_pushBit {bits : List Bool} {ones : ℕ} (hones : ones < 5)
    (hbits : bits.length < d.maxlen) (b : Bool) :
    run d.step ⟨bits, ones⟩ (pushBit ([], ones) b).1 =
      (⟨bits ++ [b], (pushBit ([], ones) b).2⟩, []) ∧ (pushBit ([], ones) b).2 < 5 := by
  cases b with
  | false =>
    have hne : ones ≠ 5 := by omega
    have hle : ¬ 5 < ones := by omega
    simp [pushBit, step, hne, hle, d.append_eq hbits]
  | true =>
    by_cases hfour : ones = 4
    · subst hfour
      simp [pushBit, step, run_cons, d.append_eq hbits]
    · have hne : ones + 1 ≠ 5 := by omega
      have hlt : ones + 1 < 5 := by omega
      simp [pushBit, step, hne, hlt, d.append_eq hbits]

/-- The deframer collects exactly the data bits of a stuffed string. -/
theorem run_stuff {bits acc : List Bool} {ones : ℕ} (hones : ones < 5)
    (hlen : acc.length + bits.length ≤ d.maxlen) :
    run d.step ⟨acc, ones⟩ (stuff ones bits).1 = (⟨acc ++ bits, (stuff ones bits).2⟩, []) ∧
      (stuff ones bits).2 < 5 := by
  induction bits generalizing acc ones with
  | nil => exact ⟨by simp [stuff], hones⟩
  | cons b bits ih =>
    rw [List.length_cons] at hlen
    obtain ⟨hbit, hones'⟩ := d.run_pushBit hones (show acc.length < d.maxlen by omega) b
    have hlen' : (acc ++ [b]).length + bits.length ≤ d.maxlen := by
      rw [List.length_append, List.length_singleton]
      omega
    obtain ⟨hrest, hlast⟩ := ih hones' hlen'
    rw [stuff_cons, run_append, hbit]
    refine ⟨?_, hlast⟩
    rw [hrest, List.append_assoc, List.singleton_append, List.append_nil]

/-! ## Flags -/

theorem flag_eq : flag = false :: (List.replicate 6 true ++ [false]) := rfl

/-- What the end of a flag publishes when the deque holds the bits of a frame. -/
def published (frame : List Byte) : List (List Byte) :=
  if !frame.isEmpty && (!d.checkFcs || d.fcsOk frame) then [frame.take (frame.length - 2)] else []

theorem step_flag_end (bits : List Bool) :
    d.step ⟨bits, 6⟩ false = (DeframerState.init, d.published (d.takeFrame bits)) := by
  simp [step, DeframerState.init, published]

/-- Ones are counted, and kept as long as the deque has room. -/
theorem run_ones (k : ℕ) (s : DeframerState) :
    (run d.step s (List.replicate k true)).1.ones = s.ones + k ∧
      (run d.step s (List.replicate k true)).2 = [] ∧
      (s.bits.length + k ≤ d.maxlen →
        (run d.step s (List.replicate k true)).1.bits = s.bits ++ List.replicate k true) := by
  induction k generalizing s with
  | zero => simp
  | succ k ih =>
    obtain ⟨hones, hout, hbits⟩ := ih ⟨d.append s.bits true, s.ones + 1⟩
    dsimp only at hones hbits
    rw [List.replicate_succ, run_cons]
    simp only [step, if_true, List.nil_append]
    refine ⟨by rw [hones]; omega, hout, fun hlen => ?_⟩
    have happend := d.append_eq (show s.bits.length < d.maxlen by omega) true
    rw [happend] at hbits ⊢
    rw [hbits (by rw [List.length_append, List.length_singleton]; omega), List.append_assoc,
      List.singleton_append]

/-- A flag after whole bytes closes the frame that they form. -/
theorem run_flag {bits : List Bool} {ones : ℕ} (hones : ones < 5)
    (hlen : bits.length + 7 ≤ d.maxlen) (hbytes : bits.length % 8 = 0) :
    run d.step ⟨bits, ones⟩ flag = (DeframerState.init, d.published (pack bits)) := by
  have hne : ones ≠ 5 := by omega
  have hle : ¬ 5 < ones := by omega
  have hzero : d.step ⟨bits, ones⟩ false = (⟨bits ++ [false], 0⟩, []) := by
    simp [step, hne, hle, d.append_eq (show bits.length < d.maxlen by omega)]
  obtain ⟨hcount, hout, hbits⟩ := d.run_ones 6 ⟨bits ++ [false], 0⟩
  have hstate : run d.step ⟨bits ++ [false], 0⟩ (List.replicate 6 true) =
      (⟨bits ++ [false] ++ List.replicate 6 true, 6⟩, []) := by
    refine Prod.ext ?_ hout
    rw [DeframerState.mk.injEq]
    exact ⟨hbits (by simp only [List.length_append, List.length_singleton]; omega), hcount⟩
  have hframe : d.takeFrame (bits ++ [false] ++ List.replicate 6 true) = pack bits := by
    have hpop : (bits ++ [false] ++ List.replicate 6 true).take
        ((bits ++ [false] ++ List.replicate 6 true).length -
          min 7 (bits ++ [false] ++ List.replicate 6 true).length) = bits := by
      rw [List.append_assoc]
      refine List.take_left' ?_
      simp only [List.length_append, List.length_singleton, List.length_replicate]
      omega
    unfold takeFrame
    simp only [hpop, hbytes, ne_eq, not_true_eq_false, if_false]
  rw [flag_eq, run_cons, hzero, run_append, hstate, run_singleton, step_flag_end, hframe]
  simp

/-- A flag resets the deframer from every state. -/
theorem run_flag_fst (s : DeframerState) : (run d.step s flag).1 = DeframerState.init := by
  have hzero : (d.step s false).1.ones = 0 := by
    unfold step
    split
    · contradiction
    · split
      · rfl
      · split <;> rfl
  have hcount := (d.run_ones 6 (d.step s false).1).1
  rw [hzero] at hcount
  have hlast (t : DeframerState) (ht : t.ones = 0 + 6) : (d.step t false).1 = .init := by
    rw [show t = ⟨t.bits, 6⟩ from congrArg (DeframerState.mk t.bits) ht, step_flag_end]
  rw [flag_eq, run_cons, run_append, run_singleton, hlast _ hcount]

/-- A flag in the initial state publishes nothing. -/
theorem run_flag_init : run d.step .init flag = (DeframerState.init, []) := by
  rw [DeframerState.init, d.run_flag (by omega) (by simp [maxlen]) rfl]
  rfl

theorem run_flags_init (k : ℕ) :
    run d.step .init (List.replicate k flag).flatten = (DeframerState.init, []) := by
  induction k with
  | zero => rfl
  | succ k ih =>
    rw [List.replicate_succ, List.flatten_cons, run_append, run_flag_init, ih, List.append_nil]

end Deframer

/-! ## The FCS -/

theorem length_appendFcs (data : List Byte) : (appendFcs data).length = data.length + 2 := by
  simp [appendFcs]

/-- The deframer accepts the FCS that the framer appends. -/
theorem fcsOk_appendFcs {data : List Byte} (hdata : data ≠ []) : fcsOk (appendFcs data) = true := by
  have hpos : 0 < data.length := List.length_pos_iff.mpr hdata
  have htake : (appendFcs data).take data.length = data := by
    rw [appendFcs, List.take_left]
  unfold fcsOk
  rw [length_appendFcs, if_neg (by omega), Nat.add_sub_cancel, htake]
  simp [appendFcs]

/-! ## The round trip -/

section RoundTrip

variable (f : Framer) {d : Deframer}

/-- One framed message, read from the initial state. -/
theorem run_frame (hcheck : d.checkFcs = true) (hfcs : d.fcsOk = fcsOk)
    (hpost : 0 < f.postambleBytes) {data : List Byte} (hdata : data ≠ [])
    (hlen : data.length ≤ d.maxLength) :
    run d.step .init (f.frame data) = (DeframerState.init, [data]) := by
  have hbits : ((appendFcs data).flatMap lsbBits).length = (data.length + 2) * 8 := by
    rw [length_flatMap_lsbBits, length_appendFcs]
  have hroom : ((appendFcs data).flatMap lsbBits).length + 7 ≤ d.maxlen := by
    rw [hbits, Deframer.maxlen]
    omega
  obtain ⟨hstuff, hones⟩ := d.run_stuff (show 0 < 5 by omega)
    (show ([] : List Bool).length + ((appendFcs data).flatMap lsbBits).length ≤ d.maxlen by
      rw [List.length_nil]; omega)
  have hpublished : d.published (pack ((appendFcs data).flatMap lsbBits)) = [data] := by
    rw [pack_flatMap_lsbBits, Deframer.published, hcheck, hfcs, fcsOk_appendFcs hdata,
      length_appendFcs, Nat.add_sub_cancel, appendFcs]
    simp
  have hclose := d.run_flag hones hroom (by rw [hbits]; omega)
  rw [hpublished] at hclose
  obtain ⟨post, hpost⟩ : ∃ post, f.postambleBytes = post + 1 := ⟨_, (Nat.sub_add_cancel hpost).symm⟩
  rw [Framer.frame_eq, hpost, List.replicate_succ, List.flatten_cons, run_append, run_append,
    run_append, d.run_flags_init, DeframerState.init, hstuff, List.nil_append, hclose,
    ← DeframerState.init, d.run_flags_init]
  rfl

/-- Framed messages in a row, read from the initial state. -/
theorem run_frames (hcheck : d.checkFcs = true) (hfcs : d.fcsOk = fcsOk)
    (hpost : 0 < f.postambleBytes) {payloads : List (List Byte)}
    (hpayloads : ∀ data ∈ payloads, data ≠ [] ∧ data.length ≤ d.maxLength) :
    run d.step .init (payloads.flatMap f.frame) = (DeframerState.init, payloads) := by
  induction payloads with
  | nil => rfl
  | cons data payloads ih =>
    obtain ⟨hdata, hlen⟩ := hpayloads data List.mem_cons_self
    rw [List.flatMap_cons, run_append, run_frame f hcheck hfcs hpost hdata hlen,
      ih fun data' h => hpayloads data' (List.mem_cons_of_mem _ h)]
    rfl

/-- A framed stream begins with a flag. -/
theorem exists_flag_append (hpre : 0 < f.preambleBytes) {payloads : List (List Byte)}
    (hne : payloads ≠ []) : ∃ rest, payloads.flatMap f.frame = flag ++ rest := by
  obtain ⟨pre, hpre⟩ : ∃ pre, f.preambleBytes = pre + 1 := ⟨_, (Nat.sub_add_cancel hpre).symm⟩
  cases payloads with
  | nil => contradiction
  | cons data payloads =>
    refine ⟨(List.replicate pre flag).flatten ++ (stuff 0 ((appendFcs data).flatMap lsbBits)).1 ++
      (List.replicate f.postambleBytes flag).flatten ++ payloads.flatMap f.frame, ?_⟩
    rw [List.flatMap_cons, Framer.frame_eq, hpre, List.replicate_succ, List.flatten_cons]
    simp only [List.append_assoc]

end RoundTrip

/-- **HDLC round trip.** After any earlier bits, in any cut of the framed stream into calls,
the deframer publishes what the first flag of the stream may still close of the earlier
bits, and then exactly the payloads, in order and without their FCS. -/
theorem deframer_of_framer (f : Framer) (hpre : 1 ≤ f.preambleBytes) (hpost : 1 ≤ f.postambleBytes)
    (maxLength : ℕ) (payloads : List (List Byte))
    (hpayloads : ∀ data ∈ payloads, 1 ≤ data.length ∧ data.length ≤ maxLength)
    (before chunks : List (List Bool)) (hchunks : chunks.flatten = payloads.flatMap f.frame) :
    let d : Deframer := { checkFcs := true, maxLength := maxLength }
    let s := (run d.work .init before).1
    (run d.work s chunks).2 =
      (run d.work s [(payloads.flatMap f.frame).take flag.length]).2 ++ payloads := by
  intro d s
  have hclean : run d.step .init (payloads.flatMap f.frame) = (DeframerState.init, payloads) :=
    run_frames f rfl rfl hpost fun data h =>
      ⟨List.length_pos_iff.mp (hpayloads data h).1, (hpayloads data h).2⟩
  rw [Deframer.work, run_chunks, hchunks, run_singleton]
  by_cases hne : payloads = []
  · simp [hne]
  · obtain ⟨rest, hrest⟩ := exists_flag_append f hpre hne
    rw [hrest, run_append, d.run_flag_init] at hclean
    have hrun : (run d.step .init rest).2 = payloads := (Prod.mk.inj hclean).2
    rw [hrest, List.take_left, run_append, d.run_flag_fst, hrun]

/-- The round trip for one payload of eight ones, after a run of ones that is cut short. -/
theorem deframer_of_framer_ones :
    let d : Deframer := { checkFcs := true, maxLength := 2 }
    let f : Framer := ⟨1, 1⟩
    let s := (run d.work .init [[true, true, true], [true, true, true, false]]).1
    (run d.work s [f.frame [0xff]]).2 =
      (run d.work s [([[0xff]].flatMap f.frame).take flag.length]).2 ++ [[0xff]] :=
  deframer_of_framer ⟨1, 1⟩ (by decide) (by decide) 2 [[0xff]] (by simp) _ _ (by simp)

end GrSatellites.Hdlc
