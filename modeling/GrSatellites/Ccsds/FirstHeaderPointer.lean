import GrSatellites.Ccsds.RoundTrip

/-!
# First header pointers

A frame carries the offset of the first packet that starts in it, as its field can hold it. A
frame in which no packet starts carries `0x3ff`, which is an offset as well.
-/

namespace GrSatellites.Ccsds

open Bits Segmentation

/-! ## Where packets start -/

/-- The places in the stream where packets start, when the first one starts at a place. -/
def starts : ℕ → List (List Byte) → List ℕ
  | _, [] => []
  | pos, packet :: packets => pos :: starts (pos + packet.length) packets

/-- The offset of the first of some places in a frame, for the size of the frames. -/
def firstStart (n i : ℕ) (places : List ℕ) : Option ℕ :=
  (places.find? fun b => n * i ≤ b ∧ b < n * (i + 1)).map (· - n * i)

/-- The pointer that the block gives a frame. -/
def pointerFor (n i : ℕ) (places : List ℕ) : ℤ :=
  match firstStart n i places with
  | some offset => offset
  | none => 0x3ff

theorem firstStart_append_of_ge {n i : ℕ} {places more : List ℕ} (h : ∀ b ∈ more, n * (i + 1) ≤ b) :
    firstStart n i (places ++ more) = firstStart n i places := by
  have hnone : more.find? (fun b => n * i ≤ b ∧ b < n * (i + 1)) = none := by
    rw [List.find?_eq_none]
    intro b hb
    have := h b hb
    simp only [decide_eq_true_eq]
    omega
  rw [firstStart, List.find?_append, hnone, Option.or_none, firstStart]

/-- A place in the frame makes later ones irrelevant. -/
theorem firstStart_append_of_mem {n i e : ℕ} {places : List ℕ} (more : List ℕ)
    (he : n * i ≤ e ∧ e < n * (i + 1)) :
    firstStart n i (places ++ [e] ++ more) = firstStart n i (places ++ [e]) := by
  have hsome : ((places ++ [e]).find? fun b => n * i ≤ b ∧ b < n * (i + 1)).isSome := by
    rw [List.find?_isSome]
    exact ⟨e, by simp, by simpa using he⟩
  rw [firstStart, List.find?_append, Option.or_of_isSome hsome, firstStart]

theorem firstStart_of_lt {n i e : ℕ} {places : List ℕ} (h : ∀ b ∈ places, b < n * i) :
    firstStart n i (places ++ [e]) =
      if n * i ≤ e ∧ e < n * (i + 1) then some (e - n * i) else none := by
  have hnone : places.find? (fun b => n * i ≤ b ∧ b < n * (i + 1)) = none := by
    rw [List.find?_eq_none]
    intro b hb
    have := h b hb
    simp only [decide_eq_true_eq]
    omega
  rw [firstStart, List.find?_append, hnone, Option.none_or, List.find?_singleton]
  split_ifs with hin hin <;> simp_all

theorem le_of_mem_starts {pos b : ℕ} {packets : List (List Byte)} (h : b ∈ starts pos packets) :
    pos ≤ b := by
  induction packets generalizing pos with
  | nil => cases h
  | cons packet packets ih =>
    rcases List.mem_cons.mp h with rfl | h
    · exact le_rfl
    · exact (Nat.le_add_right _ _).trans (ih h)

/-! ## The pointer of the next frame -/

namespace PrimaryHeaderAdder

variable {enc : FieldEncoder} {a : PrimaryHeaderAdder} {n : ℕ}

/-- A frame that is full leaves the pointer of the next one, for the end of the packet. -/
theorem nextPointer_eq (hn : a.size = n) {k pos room : ℕ} {places : List ℕ} {packet : List Byte}
    (pointer : ℤ) (hend : pos + room = n * (k + 1)) (hroom : room ≤ packet.length) (hpos : 0 < room)
    (hplaces : ∀ b ∈ places, b ≤ pos) :
    a.nextPointer room packet pointer = pointerFor n (k + 1) (places ++ [pos + packet.length]) := by
  have hnext : n * (k + 1 + 1) = n * (k + 1) + n := by ring
  rw [pointerFor, firstStart_of_lt fun b hb => by have := hplaces b hb; omega, nextPointer, hn]
  rcases hroom.lt_or_eq with hlt | heq
  · rw [if_pos (by exact_mod_cast hlt)]
    by_cases hcovered : room + n ≤ packet.length
    · rw [if_pos (by exact_mod_cast hcovered), if_neg (by omega)]
    · rw [if_neg (by exact_mod_cast hcovered), if_pos (by omega)]
      simp only
      omega
  · rw [if_neg (by omega), if_pos (by omega)]
    have hnpos : 0 < n := by
      rcases Nat.eq_zero_or_pos n with rfl | hnpos
      · rw [Nat.zero_mul] at hend
        omega
      · exact hnpos
    rw [if_pos (by omega)]
    simp only
    omega

/-- A frame whose header was built with a pointer. -/
def HasPointer (enc : FieldEncoder) (a : PrimaryHeaderAdder) (pointer : ℤ) (frame : List Byte) : Prop :=
  ∃ header block, enc.build (a.headerFields pointer) = some header ∧ frame = header ++ block

/-- What the block holds at a place of the stream: the list is the part of a frame, with its
pointer. -/
structure At (n k pos : ℕ) (places : List ℕ) (s : AdderState) : Prop where
  length : n * k + s.list.length = pos
  before : pos < n * (k + 1)
  pointer : s.firstHeaderPointer = pointerFor n k places

theorem firstStart_lt {i offset : ℕ} {places : List ℕ} (h : firstStart n i places = some offset) :
    offset < n := by
  obtain ⟨b, hb, rfl⟩ := Option.map_eq_some_iff.mp h
  have hin := List.find?_some hb
  have hnext : n * (i + 1) = n * i + n := by ring
  simp only [decide_eq_true_eq] at hin
  omega

theorem pointerOk_pointerFor (hn : a.size = n) (i : ℕ) (places : List ℕ) :
    a.PointerOk (pointerFor n i places) := by
  rw [pointerFor]
  cases hstart : firstStart n i places with
  | none => exact ⟨by norm_num, .inl (by norm_num)⟩
  | some offset =>
    have := firstStart_lt hstart
    exact ⟨by simp, .inr (by simp only; omega)⟩

/-- **One packet.** The frames that the loop sends have the pointers of their places, and so has
the frame that is left, unless building a header has raised. -/
theorem segmentLoop_pointers (hn : a.size = n) (hpos : 0 < n) {rounds k pos : ℕ} {places : List ℕ}
    {s : AdderState} (pointer : ℤ) {packet : List Byte} (hrounds : packet.length ≤ rounds)
    (hplaces : ∀ b ∈ places, b ≤ pos)
    (hat : At n k pos (places ++ [pos + packet.length]) s) :
    ∃ t frames raised, a.segmentLoop enc rounds s pointer packet = some (t, frames, raised) ∧
      (∀ i frame, frames[i]? = some frame → n * (k + i + 1) ≤ pos + packet.length ∧
        HasPointer enc a (pointerFor n (k + i) (places ++ [pos + packet.length])) frame) ∧
      (At n (k + frames.length) (pos + packet.length) (places ++ [pos + packet.length]) t ∨
        Stuck enc a t) := by
  induction rounds generalizing s k pos pointer packet with
  | zero =>
    obtain rfl := List.length_eq_zero_iff.mp (Nat.le_zero.mp hrounds)
    exact ⟨s, [], false, rfl, by simp, .inl hat⟩
  | succ rounds ih =>
    cases packet with
    | nil => exact ⟨s, [], false, rfl, by simp, .inl hat⟩
    | cons byte bytes =>
      generalize hpacket : byte :: bytes = packet at *
      have hne : 0 < packet.length := by simp [← hpacket]
      have hnext : n * (k + 1) = n * k + n := by ring
      have hlength := hat.length
      have hbefore := hat.before
      obtain ⟨room, hroom, hend⟩ : ∃ room : ℕ, a.size - s.list.length = room ∧
          pos + room = n * (k + 1) := ⟨n * (k + 1) - pos, by omega, by omega⟩
      have hlist : (s.list ++ packet.take room).length = s.list.length + min room packet.length := by
        rw [List.length_append, List.length_take]
      rw [← hpacket, segmentLoop, hpacket]
      simp only [hroom, sliceTo_natCast, sliceFrom_natCast]
      by_cases hfull : room ≤ packet.length
      · have hsize : ((s.list ++ packet.take room).length : ℤ) = a.size := by omega
        rw [if_pos hsize]
        cases hheader : a.calculateFinalHeader enc ⟨s.list ++ packet.take room, s.firstHeaderPointer⟩ with
        | none =>
          refine ⟨_, [], true, rfl, by simp, .inr ⟨hsize, ?_, hheader⟩⟩
          exact hat.pointer ▸ pointerOk_pointerFor hn k _
        | some header =>
          have hrest : pos + room + (packet.drop room).length = pos + packet.length := by
            rw [List.length_drop]
            omega
          have hfewer : (packet.drop room).length ≤ rounds := by
            rw [List.length_drop]
            omega
          have hplaces' : ∀ b ∈ places, b ≤ pos + room := fun b hb => (hplaces b hb).trans (by omega)
          have hat' : At n (k + 1) (pos + room) (places ++ [pos + room + (packet.drop room).length])
              ⟨[], a.nextPointer room packet pointer⟩ := by
            refine ⟨by simp only [List.length_nil]; omega, ?_, ?_⟩
            · rw [hend]
              exact Nat.mul_lt_mul_of_pos_left (by omega) hpos
            · rw [hrest]
              exact nextPointer_eq hn pointer hend hfull (by omega) hplaces
          have hlater := ih (a.nextPointer room packet pointer) hfewer hplaces' hat'
          rw [hrest] at hlater
          obtain ⟨t, frames, raised, hloop, hframes, hleft⟩ := hlater
          refine ⟨t, (header ++ (s.list ++ packet.take room)) :: frames, raised, ?_, ?_, ?_⟩
          · simp only [hloop, Option.bind_eq_bind, Option.bind_some, Option.pure_def]
          · intro i frame hi
            cases i with
            | zero =>
              obtain rfl := Option.some.inj hi
              exact ⟨by rw [Nat.add_zero, ← hend]; omega, header, _, hat.pointer ▸ hheader, rfl⟩
            | succ i =>
              have hsucc : k + (i + 1) = k + 1 + i := by ring
              rw [hsucc]
              exact hframes i frame hi
          · have hsucc : k + (frames.length + 1) = k + 1 + frames.length := by ring
            rwa [List.length_cons, hsucc]
      · have hsize : ((s.list ++ packet.take room).length : ℤ) ≠ a.size := by omega
        rw [if_neg hsize, List.take_of_length_le (by omega), List.drop_eq_nil_of_le (by omega)]
        refine ⟨⟨s.list ++ packet, s.firstHeaderPointer⟩, [], false, ?_, by simp,
          .inl ⟨?_, ?_, hat.pointer⟩⟩
        · cases rounds <;> rfl
        · simp only [List.length_nil, Nat.add_zero, List.length_append]
          omega
        · simp only [List.length_nil, Nat.add_zero]
          omega

/-- **All packets.** Every frame has the pointer of its place. -/
theorem handleAll_pointers (hn : a.size = n) (hpos : 0 < n) {k pos : ℕ} {places : List ℕ}
    {s : AdderState} (packets : List (List Byte)) (hplaces : ∀ b ∈ places, b ≤ pos)
    (hat : At n k pos (places ++ [pos]) s ∨ Stuck enc a s) :
    ∃ t frames, a.handleAll enc s packets = some (t, frames) ∧
      ∀ i frame, frames[i]? = some frame →
        HasPointer enc a (pointerFor n (k + i) (places ++ starts pos packets)) frame := by
  induction packets generalizing s k pos places with
  | nil => exact ⟨s, [], rfl, by simp⟩
  | cons packet packets ih =>
    have hplaces' : ∀ b ∈ places ++ [pos], b ≤ pos := by
      intro b hb
      rcases List.mem_append.mp hb with hb | hb
      · exact hplaces b hb
      · exact (List.mem_singleton.mp hb).le
    have hone : ∃ t frames raised,
        a.segmentLoop enc packet.length s 0 packet = some (t, frames, raised) ∧
        (∀ i frame, frames[i]? = some frame → n * (k + i + 1) ≤ pos + packet.length ∧
          HasPointer enc a (pointerFor n (k + i) (places ++ [pos] ++ [pos + packet.length])) frame) ∧
        (At n (k + frames.length) (pos + packet.length) (places ++ [pos] ++ [pos + packet.length]) t ∨
          Stuck enc a t) := by
      rcases hat with hat | hstuck
      · refine segmentLoop_pointers hn hpos 0 le_rfl hplaces' ⟨hat.length, hat.before, ?_⟩
        have hin : n * k ≤ pos := by
          have := hat.length
          omega
        rw [hat.pointer, pointerFor, pointerFor, firstStart_append_of_mem _ ⟨hin, hat.before⟩]
      · obtain ⟨raised, hloop⟩ := segmentLoop_stuck 0 (le_refl packet.length) hstuck
        exact ⟨s, [], raised, hloop, by simp, .inr hstuck⟩
    obtain ⟨t, frames, raised, hloop, hframes, hleft⟩ := hone
    have hlater : ∀ b ∈ places ++ [pos], b ≤ pos + packet.length :=
      fun b hb => (hplaces' b hb).trans (Nat.le_add_right _ _)
    obtain ⟨u, more, hmore, hmoreFrames⟩ := ih hlater hleft
    refine ⟨u, frames ++ more, ?_, fun i frame hi => ?_⟩
    · simp only [handleAll, handleMsg, hloop, hmore, Option.bind_eq_bind, Option.bind_some,
        Option.pure_def]
    rw [starts, ← List.singleton_append, ← List.append_assoc]
    rcases Nat.lt_or_ge i frames.length with hlt | hge
    · rw [List.getElem?_append_left hlt] at hi
      obtain ⟨hend, hpointer⟩ := hframes i frame hi
      -- what comes after the frame does not matter
      have hsame (rest : List ℕ) (hrest : ∀ b ∈ rest, pos + packet.length ≤ b) :
          pointerFor n (k + i) (places ++ [pos] ++ rest) = pointerFor n (k + i) (places ++ [pos]) := by
        rw [pointerFor, pointerFor, firstStart_append_of_ge fun b hb => hend.trans (hrest b hb)]
      rw [hsame _ fun b hb => (List.mem_singleton.mp hb).ge] at hpointer
      rwa [hsame _ fun b hb => le_of_mem_starts hb]
    · rw [List.getElem?_append_right hge] at hi
      have hindex : k + i = k + frames.length + (i - frames.length) := by omega
      rw [hindex]
      exact hmoreFrames _ frame hi

end PrimaryHeaderAdder

/-! ## The field -/

theorem lt_of_mem_splitFields {widths : List ℕ} {bits : List Bool} :
    List.Forall₂ (fun w v => v < 2 ^ w) widths (splitFields widths bits) := by
  induction widths generalizing bits with
  | nil => exact .nil
  | cons w widths ih =>
    refine .cons ?_ ih
    exact (ofBits_lt _).trans_le (Nat.pow_le_pow_right (by norm_num) (List.length_take_le w bits))

/-- The first header pointer that a frame carries. -/
def carriedPointer (frame : List Byte) : Option ℕ := do
  let header ← parse primaryHeader frame
  header[10]?

/-- A pointer built into a header is carried if it fits the field, and nothing above is. -/
theorem carriedPointer_eq {enc : FieldEncoder} {a : PrimaryHeaderAdder} {pointer : ℤ}
    {frame : List Byte} (h : PrimaryHeaderAdder.HasPointer enc a pointer frame) :
    ∃ v, carriedPointer frame = some v ∧ v < 2 ^ 11 ∧
      (0 ≤ pointer → pointer < 2 ^ 11 → (v : ℤ) = pointer) := by
  obtain ⟨header, block, hbuild, rfl⟩ := h
  have hdvd : 8 ∣ ((a.headerFields pointer).map Prod.fst).sum := by
    rw [headerFields_widths]
    decide
  obtain ⟨values, hparse, hread⟩ := enc.parse_build hbuild hdvd block
  rw [headerFields_widths] at hparse
  have hvalues : List.Forall₂ (fun w v => v < 2 ^ w) primaryHeader values := by
    rw [parse] at hparse
    split_ifs at hparse
    rw [← Option.some.inj hparse]
    exact lt_of_mem_splitFields
  have hlength : values.length = 11 := hvalues.length_eq.symm
  have hlast : values[10]? = some values[10] := List.getElem?_eq_getElem (by omega)
  refine ⟨values[10], ?_, ?_, ?_⟩
  · rw [carriedPointer, hparse]
    exact hlast
  · exact hvalues.get (by decide) (by omega)
  · have hfields : (a.headerFields pointer).length = 11 := rfl
    exact hread.get (i := 10) (by omega) (by omega)

/-- A frame carries the offset of the first packet that starts in it, and the value of all ones
exactly when there is none. -/
def CarriesFirstStart (n i : ℕ) (packets : List (List Byte)) (frame : List Byte) : Prop :=
  ∃ v, carriedPointer frame = some v ∧
    match firstStart n i (starts 0 packets) with
    | some offset => v = offset ∧ v ≠ 2047
    | none => v = 2047

/-- **First header pointer.** A frame carries the right pointer exactly when a packet starts in it,
at an offset that the field can tell from all ones. -/
theorem carriesFirstStart_iff (enc : FieldEncoder) (a : PrimaryHeaderAdder) (hsize : 0 < a.size)
    (packets : List (List Byte)) :
    ∃ t frames, a.handleAll enc .init packets = some (t, frames) ∧
      ∀ i frame, frames[i]? = some frame →
        (CarriesFirstStart a.size.toNat i packets frame ↔
          ∃ offset, firstStart a.size.toNat i (starts 0 packets) = some offset ∧ offset < 2047) := by
  have hn : a.size = (a.size.toNat : ℤ) := by omega
  have hpos : 0 < a.size.toNat := by omega
  have hinit : PrimaryHeaderAdder.At a.size.toNat 0 0 ([] ++ [0]) AdderState.init := by
    refine ⟨rfl, by omega, ?_⟩
    rw [pointerFor, firstStart_of_lt (by simp), if_pos (by omega)]
    simp [AdderState.init]
  obtain ⟨t, frames, hall, hframes⟩ : ∃ t frames, a.handleAll enc .init packets = some (t, frames) ∧
      ∀ i frame, frames[i]? = some frame → PrimaryHeaderAdder.HasPointer enc a
        (pointerFor a.size.toNat (0 + i) ([] ++ starts 0 packets)) frame :=
    PrimaryHeaderAdder.handleAll_pointers hn hpos packets (by simp) (.inl hinit)
  refine ⟨t, frames, hall, fun i frame hi => ?_⟩
  have hpointer := hframes i frame hi
  rw [Nat.zero_add, List.nil_append] at hpointer
  obtain ⟨v, hv, hlt, hcarried⟩ := carriedPointer_eq hpointer
  rw [pointerFor] at hcarried
  have hiff : CarriesFirstStart a.size.toNat i packets frame ↔
      match firstStart a.size.toNat i (starts 0 packets) with
      | some offset => v = offset ∧ v ≠ 2047
      | none => v = 2047 := by
    rw [CarriesFirstStart, hv]
    simp
  rw [hiff]
  cases hstart : firstStart a.size.toNat i (starts 0 packets) with
  | none =>
    rw [hstart] at hcarried
    have hnone : (v : ℤ) = 0x3ff := hcarried (by norm_num) (by norm_num)
    simp only [reduceCtorEq, false_and, exists_false, iff_false]
    omega
  | some offset =>
    rw [hstart] at hcarried
    simp only [Option.some.injEq, exists_eq_left']
    constructor
    · rintro ⟨rfl, hne⟩
      omega
    · intro hoffset
      have heq : (v : ℤ) = offset := hcarried (by simp) (by simp only; omega)
      omega

/-- The parameters of a block for frames with three bytes of data. -/
def threeBytes : PrimaryHeaderAdder :=
  ⟨0, 0, false, 0, 0, false, false, false, 0, 1, 0, 0, 0, 0, 0, 0, 2⟩

theorem carriesFirstStart_two_packets :
    ∃ t frames, threeBytes.handleAll .refusing .init [[1, 2], [3, 4]] = some (t, frames) ∧
      ∀ i frame, frames[i]? = some frame →
        (CarriesFirstStart threeBytes.size.toNat i [[1, 2], [3, 4]] frame ↔
          ∃ offset, firstStart threeBytes.size.toNat i (starts 0 [[1, 2], [3, 4]]) = some offset ∧
            offset < 2047) :=
  carriesFirstStart_iff .refusing threeBytes (by decide) [[1, 2], [3, 4]]

/-- A frame in the middle of a packet carries `0x3ff`. -/
theorem not_carriesFirstStart_long_packet :
    ¬ ∀ (enc : FieldEncoder) (a : PrimaryHeaderAdder), 0 < a.size → ∀ packets t frames,
      a.handleAll enc .init packets = some (t, frames) → ∀ i frame, frames[i]? = some frame →
        CarriesFirstStart a.size.toNat i packets frame := by
  intro h
  have hmiddle := h .refusing threeBytes (by decide) [[0, 1, 2, 3, 4, 5, 6, 7, 8]] ⟨[], 0⟩
    [[0, 0, 0, 0, 0, 0, 0, 1, 2], [0, 0, 0, 0, 3, 0xff, 3, 4, 5], [0, 0, 0, 0, 3, 0xff, 6, 7, 8]]
    rfl 1 [0, 0, 0, 0, 3, 0xff, 3, 4, 5] rfl
  obtain ⟨v, hv, heq⟩ := hmiddle
  have hnone : firstStart threeBytes.size.toNat 1 (starts 0 [[0, 1, 2, 3, 4, 5, 6, 7, 8]]) = none := by
    decide
  rw [hnone] at heq
  have hcarried : carriedPointer [0, 0, 0, 0, 3, 0xff, 3, 4, 5] = some 1023 := by decide
  rw [hcarried] at hv
  cases hv
  cases heq

end GrSatellites.Ccsds
