import GrSatellites.Ccsds.Model

/-!
# The frames that are emitted

The data fields of the frames are consecutive blocks of the stream of space packets.
What has not been sent waits in the list, unless building a header has raised: then the
list stays full, and every later packet raises again.
-/

namespace GrSatellites.Ccsds

open Bits Segmentation

variable (enc : FieldEncoder) (a : PrimaryHeaderAdder)

namespace PrimaryHeaderAdder

/-- A frame is a header followed by a block of the frame data size. -/
def IsFrame (frame block : List Byte) : Prop :=
  block.length = a.size ∧
    ∃ pointer header, enc.build (a.headerFields pointer) = some header ∧ frame = header ++ block

/-- The values that the first header pointer may take. -/
def PointerOk (pointer : ℤ) : Prop := 0 ≤ pointer ∧ (pointer < 0x400 ∨ pointer < a.size)

/-- The list is full and building its header raises. -/
def Stuck (s : AdderState) : Prop :=
  s.list.length = a.size ∧ a.PointerOk s.firstHeaderPointer ∧ a.calculateFinalHeader enc s = none

/-- What the block holds after some bytes: the blocks sent and the list make up the bytes,
or building a header has raised. -/
def Holds (blocks : List (List Byte)) (t : AdderState) (bytes : List Byte) : Prop :=
  (t.list.length < a.size ∧ a.PointerOk t.firstHeaderPointer ∧ blocks.flatten ++ t.list = bytes) ∨
    (Stuck enc a t ∧ blocks.flatten ++ t.list <+: bytes)

variable {enc a}

theorem pointerOk_zero : a.PointerOk 0 := ⟨le_refl 0, .inl (by norm_num)⟩

theorem pointerOk_nextPointer (limit : ℤ) (packet : List Byte) {pointer : ℤ} (hpointer : a.PointerOk pointer) :
    a.PointerOk (a.nextPointer limit packet pointer) := by
  unfold nextPointer
  split_ifs with hmore hfull
  · exact ⟨by norm_num, .inl (by norm_num)⟩
  · exact ⟨by omega, .inr (by omega)⟩
  · exact pointerOk_zero
  · exact hpointer

/-- **Segmentation of one packet.** The loop ends, and it sends the blocks that are full. -/
theorem segmentLoop_spec {rounds : ℕ} {s : AdderState} (pointer : ℤ) {packet : List Byte}
    (hrounds : packet.length ≤ rounds) (hlist : s.list.length < a.size)
    (hfirst : a.PointerOk s.firstHeaderPointer) (hpointer : a.PointerOk pointer) :
    ∃ t frames raised, a.segmentLoop enc rounds s pointer packet = some (t, frames, raised) ∧
      ∃ blocks, List.Forall₂ (IsFrame enc a) frames blocks ∧
        Holds enc a blocks t (s.list ++ packet) := by
  induction rounds generalizing s pointer packet with
  | zero =>
    obtain rfl := List.length_eq_zero_iff.mp (Nat.le_zero.mp hrounds)
    exact ⟨s, [], false, rfl, [], .nil, .inl ⟨hlist, hfirst, by simp⟩⟩
  | succ rounds ih =>
    cases packet with
    | nil => exact ⟨s, [], false, rfl, [], .nil, .inl ⟨hlist, hfirst, by simp⟩⟩
    | cons byte bytes =>
      generalize hpacket : byte :: bytes = packet at *
      have hpos : 0 < packet.length := by simp [← hpacket]
      obtain ⟨room, hroom, hroomPos⟩ : ∃ room : ℕ, a.size - s.list.length = room ∧ 0 < room :=
        ⟨(a.size - s.list.length).toNat, by omega, by omega⟩
      have hnext := pointerOk_nextPointer (a.size - s.list.length) packet hpointer
      have htake : (s.list ++ packet.take room).length = s.list.length + min room packet.length := by
        rw [List.length_append, List.length_take]
      have hrest : (packet.drop room).length ≤ rounds := by
        rw [List.length_drop]
        omega
      rw [← hpacket, segmentLoop, hpacket]
      simp only [hroom, sliceTo_natCast, sliceFrom_natCast] at hnext ⊢
      by_cases hfull : ((s.list ++ packet.take room).length : ℤ) = a.size
      · rw [if_pos hfull]
        cases hheader : a.calculateFinalHeader enc ⟨s.list ++ packet.take room, s.firstHeaderPointer⟩ with
        | none =>
          refine ⟨_, [], true, rfl, [], .nil, .inr ⟨⟨hfull, hfirst, hheader⟩, ?_⟩⟩
          rw [List.flatten_nil, List.nil_append]
          exact (List.prefix_append_right_inj _).mpr (List.take_prefix _ _)
        | some header =>
          have hempty : (([] : List Byte).length : ℤ) < a.size := by
            rw [List.length_nil]
            omega
          obtain ⟨t, frames, raised, hloop, blocks, hframes, hholds⟩ :=
            ih (s := ⟨[], a.nextPointer room packet pointer⟩) _ hrest hempty hnext hnext
          refine ⟨t, (header ++ (s.list ++ packet.take room)) :: frames, raised, ?_,
            (s.list ++ packet.take room) :: blocks,
            .cons ⟨hfull, s.firstHeaderPointer, header, hheader, rfl⟩ hframes, ?_⟩
          · simp only [hloop, Option.bind_eq_bind, Option.bind_some, Option.pure_def]
          · have hbytes : s.list ++ packet = (s.list ++ packet.take room) ++ packet.drop room := by
              rw [List.append_assoc, List.take_append_drop]
            rw [hbytes]
            rcases hholds with ⟨hlen, hptr, heq⟩ | ⟨hstuck, hstart⟩
            · refine .inl ⟨hlen, hptr, ?_⟩
              rw [List.flatten_cons, List.append_assoc, heq, List.nil_append]
            · refine .inr ⟨hstuck, ?_⟩
              rw [List.flatten_cons, List.append_assoc]
              exact (List.prefix_append_right_inj _).mpr hstart
      · rw [if_neg hfull]
        have hlen : ((s.list ++ packet.take room).length : ℤ) < a.size := by omega
        obtain ⟨t, frames, raised, hloop, blocks, hframes, hholds⟩ :=
          ih (s := ⟨s.list ++ packet.take room, s.firstHeaderPointer⟩) _ hrest hlen hfirst hnext
        refine ⟨t, frames, raised, hloop, blocks, hframes, ?_⟩
        rwa [List.append_assoc, List.take_append_drop] at hholds

/-- A block that is stuck stays so. -/
theorem segmentLoop_stuck {rounds : ℕ} {s : AdderState} (pointer : ℤ) {packet : List Byte}
    (hrounds : packet.length ≤ rounds) (hstuck : Stuck enc a s) :
    ∃ raised, a.segmentLoop enc rounds s pointer packet = some (s, [], raised) := by
  obtain ⟨hfull, -, hheader⟩ := hstuck
  cases packet with
  | nil => exact ⟨false, by simp [segmentLoop]⟩
  | cons byte bytes =>
    obtain ⟨rounds, rfl⟩ : ∃ n, rounds = n + 1 :=
      ⟨rounds - 1, by rw [List.length_cons] at hrounds; omega⟩
    have hlimit : a.size - s.list.length = (0 : ℕ) := by
      rw [hfull]
      simp
    refine ⟨true, ?_⟩
    rw [segmentLoop]
    simp only [hlimit, sliceTo_natCast, List.take_zero, List.append_nil, if_pos hfull, hheader]

/-- **Segmentation.** The handling of all packets ends, and the blocks of the frames are
the start of the stream. -/
theorem handleAll_spec {s : AdderState} (packets : List (List Byte)) {sent : List (List Byte)}
    {bytes : List Byte} (h : Holds enc a sent s bytes) :
    ∃ t frames, a.handleAll enc s packets = some (t, frames) ∧
      ∃ blocks, List.Forall₂ (IsFrame enc a) frames blocks ∧
        Holds enc a (sent ++ blocks) t (bytes ++ packets.flatten) := by
  induction packets generalizing s sent bytes with
  | nil => exact ⟨s, [], rfl, [], .nil, by simpa using h⟩
  | cons packet packets ih =>
    have hone : ∃ t frames raised, a.segmentLoop enc packet.length s 0 packet = some (t, frames, raised) ∧
        ∃ blocks, List.Forall₂ (IsFrame enc a) frames blocks ∧
          Holds enc a (sent ++ blocks) t (bytes ++ packet) := by
      rcases h with ⟨hlen, hpointer, rfl⟩ | ⟨hstuck, hbytes⟩
      · obtain ⟨t, frames, raised, hloop, blocks, hframes, hholds⟩ :=
          segmentLoop_spec 0 (le_refl packet.length) hlen hpointer pointerOk_zero
        refine ⟨t, frames, raised, hloop, blocks, hframes, ?_⟩
        rcases hholds with ⟨hlen', hpointer', heq⟩ | ⟨hstuck, hbytes⟩
        · refine .inl ⟨hlen', hpointer', ?_⟩
          rw [List.flatten_append, List.append_assoc, heq, List.append_assoc]
        · refine .inr ⟨hstuck, ?_⟩
          rw [List.flatten_append, List.append_assoc, List.append_assoc]
          exact (List.prefix_append_right_inj _).mpr hbytes
      · obtain ⟨raised, hloop⟩ :=
          segmentLoop_stuck 0 (le_refl packet.length) hstuck
        refine ⟨s, [], raised, hloop, [], .nil, .inr ⟨hstuck, ?_⟩⟩
        rw [List.append_nil]
        exact hbytes.trans (List.prefix_append _ _)
    obtain ⟨t, frames, raised, hloop, blocks, hframes, hholds⟩ := hone
    obtain ⟨u, more, hmore, blocks', hmoreFrames, hlast⟩ := ih hholds
    refine ⟨u, frames ++ more, ?_, blocks ++ blocks', List.rel_append hframes hmoreFrames, ?_⟩
    · simp only [handleAll, handleMsg, hloop, hmore, Option.bind_eq_bind, Option.bind_some,
        Option.pure_def]
    · rwa [List.append_assoc, List.append_assoc, ← List.flatten_cons] at hlast

end PrimaryHeaderAdder

end GrSatellites.Ccsds
