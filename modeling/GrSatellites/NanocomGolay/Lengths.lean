import GrSatellites.Golay24.Correction
import GrSatellites.Library.Deadlines
import GrSatellites.NanocomGolay.Model

/-!
# The length tags

However the stream is cut into calls, the block puts out the delayed stream with its tags, and
one length tag for each Golay field that has arrived, from the 24 bits of that field.
-/

namespace GrSatellites.NanocomGolay

open Deadlines Golay24 Transducer Weight

variable {settings : Settings} {tags : List Tag}

/-- The bits of the Golay field that starts at an offset. -/
def fieldAt (stream : List Byte) (offset : ℕ) : List Byte := (stream.drop offset).take kGolayN

/-- The stream after as many zeros as the block delays it by. -/
def delayed (stream : List Byte) : List Byte := List.replicate delay 0 ++ stream

/-- The state after some items. -/
def State.after (past : List Byte) : State := ⟨past.length, (delayed past).drop past.length⟩

/-- The number of items after which a tag is propagated. -/
def tagDeadline (tag : Tag) : ℕ := tag.offset + 1

/-- The number of items after which a Golay field has arrived. -/
def fieldDeadline (tag : Tag) : ℕ := tag.offset + kGolayN

theorem tagDeadline_pos (tag : Tag) : 0 < tagDeadline tag := Nat.succ_pos _

theorem fieldDeadline_pos (tag : Tag) : 0 < fieldDeadline tag := Nat.succ_pos _

theorem length_delayed (stream : List Byte) : (delayed stream).length = delay + stream.length := by
  rw [delayed, List.length_append, List.length_replicate]

theorem delayed_append (past chunk : List Byte) :
    delayed (past ++ chunk) = delayed past ++ chunk := (List.append_assoc _ _ _).symm

/-- The input of a call is the delayed stream from the items read on. -/
theorem input_eq (past chunk : List Byte) :
    (State.after past).history ++ chunk = (delayed (past ++ chunk)).drop past.length := by
  have hlength : past.length ≤ (delayed past).length := by
    rw [length_delayed]
    exact Nat.le_add_left _ _
  rw [delayed_append, List.drop_append_of_le_length hlength]
  rfl

/-- The items of a call are those of the delayed stream. -/
theorem take_input (past chunk rest : List Byte) :
    ((State.after past).history ++ chunk).take chunk.length =
      ((delayed (past ++ chunk ++ rest)).drop past.length).take chunk.length := by
  have hlength : past.length ≤ (delayed (past ++ chunk)).length := by
    rw [length_delayed, List.length_append]
    omega
  have henough : chunk.length ≤ ((delayed (past ++ chunk)).drop past.length).length := by
    rw [List.length_drop, length_delayed, List.length_append]
    omega
  rw [input_eq, delayed_append (past ++ chunk), List.drop_append_of_le_length hlength,
    List.take_append_of_le_length henough]

/-- The 24 items that a Golay field is read from are those of the stream. -/
theorem fieldAt_input {past chunk : List Byte} (rest : List Byte) {offset : ℕ}
    (hlow : past.length ≤ offset + delay) (hhigh : offset + kGolayN ≤ past.length + chunk.length) :
    (((State.after past).history ++ chunk).drop (offset + delay - past.length)).take kGolayN =
      fieldAt (past ++ chunk ++ rest) offset := by
  have hzeros : (List.replicate delay (0 : Byte)).length = delay := List.length_replicate
  have hoffset : offset ≤ (past ++ chunk).length := by
    rw [List.length_append]
    omega
  have henough : kGolayN ≤ ((past ++ chunk).drop offset).length := by
    rw [List.length_drop, List.length_append]
    omega
  rw [input_eq, List.drop_drop, Nat.add_sub_cancel' hlow, Nat.add_comm offset delay, ← List.drop_drop,
    delayed, List.drop_left' hzeros, fieldAt, List.drop_append_of_le_length hoffset,
    List.take_append_of_le_length henough]

/-- The tags that a call propagates are those whose time comes in it. -/
theorem tagsInRange_eq_newly (tags : List Tag) (n m : ℕ) :
    tagsInRange tags n m = newly tagDeadline n m tags := by
  refine List.filter_congr fun tag _ => ?_
  rw [Bool.eq_iff_iff]
  simp only [decide_eq_true_eq]
  unfold tagDeadline
  omega

/-- The Golay fields that a call reads are those whose time comes in it. -/
theorem starts_eq_newly (key : String) (tags : List Tag) (n m : ℕ) :
    (tagsInRange tags (n - delay) (m - delay)).filter (fun tag => tag.key = key) =
      newly fieldDeadline n m (tags.filter fun tag => tag.key = key) := by
  rw [tagsInRange, newly, List.filter_filter, List.filter_filter]
  refine List.filter_congr fun tag _ => ?_
  rw [Bool.eq_iff_iff]
  simp only [Bool.and_eq_true, decide_eq_true_eq]
  rw [and_comm]
  refine and_congr_left' ?_
  unfold fieldDeadline delay kGolayN
  omega

/-- **One call.** The tags and the Golay fields whose time has come are those that were not due
before the call and are after it. -/
theorem work_after (settings : Settings) (tags : List Tag) (past chunk rest : List Byte) :
    work settings tags (State.after past) chunk = (State.after (past ++ chunk),
      { items := ((delayed (past ++ chunk ++ rest)).drop past.length).take chunk.length
        lengthTags := (newly fieldDeadline past.length (past.length + chunk.length)
          (tags.filter fun tag => tag.key = settings.golayStartTagKey)).map fun tag =>
            settings.lengthTag tag.offset (fieldAt (past ++ chunk ++ rest) tag.offset)
        tags := (newly tagDeadline past.length (past.length + chunk.length) tags).map
          Tag.delayed }) := by
  have hhistory : ((State.after past).history ++ chunk).drop chunk.length =
      (State.after (past ++ chunk)).history := by
    rw [input_eq, List.drop_drop, State.after, List.length_append]
  have hstate : (⟨past.length + chunk.length, ((State.after past).history ++ chunk).drop
      chunk.length⟩ : State) = State.after (past ++ chunk) := by
    rw [hhistory, ← List.length_append]
    rfl
  have hfields : ((tagsInRange tags (past.length - delay) (past.length + chunk.length - delay)).filter
      (fun tag => tag.key = settings.golayStartTagKey)).map (fun tag =>
        settings.lengthTag tag.offset ((((State.after past).history ++ chunk).drop
          (tag.offset + delay - past.length)).take kGolayN)) =
      (newly fieldDeadline past.length (past.length + chunk.length)
        (tags.filter fun tag => tag.key = settings.golayStartTagKey)).map fun tag =>
          settings.lengthTag tag.offset (fieldAt (past ++ chunk ++ rest) tag.offset) := by
    rw [starts_eq_newly]
    refine List.map_congr_left fun tag htag => ?_
    have hwindow := of_decide_eq_true (List.mem_filter.mp htag).2
    rw [fieldDeadline] at hwindow
    have hlow : past.length ≤ tag.offset + delay := by
      have hone : kGolayN = delay + 1 := rfl
      omega
    rw [fieldAt_input rest hlow hwindow.2]
  refine Prod.ext hstate ?_
  rw [← hfields, ← take_input, ← tagsInRange_eq_newly]
  rfl

/-! ## Runs -/

/-- **A run.** The calls release the tags and the Golay fields as their time comes. -/
theorem run_after (settings : Settings) (tags : List Tag) (past : List Byte)
    (chunks : List (List Byte)) (rest : List Byte) :
    let outs := (run (step settings tags) (State.after past) chunks).2
    let stream := past ++ chunks.flatten ++ rest
    let cuts := chunkCuts past.length chunks
    outs.flatMap Output.items =
        ((delayed stream).drop past.length).take chunks.flatten.length ∧
      outs.flatMap Output.tags = (released tagDeadline tags past.length cuts).map Tag.delayed ∧
      outs.flatMap Output.lengthTags = (released fieldDeadline
        (tags.filter fun tag => tag.key = settings.golayStartTagKey) past.length cuts).map
          fun tag => settings.lengthTag tag.offset (fieldAt stream tag.offset) := by
  induction chunks generalizing past with
  | nil => exact ⟨rfl, rfl, rfl⟩
  | cons chunk chunks ih =>
    intro outs stream cuts
    have hstream : stream = past ++ chunk ++ (chunks.flatten ++ rest) := by
      simp only [stream, List.flatten_cons, List.append_assoc]
    obtain ⟨hitems, htags, hlengths⟩ := ih (past ++ chunk)
    rw [List.append_assoc (past ++ chunk), ← hstream, List.length_append] at hitems hlengths
    rw [List.length_append] at htags
    have hstep := work_after settings tags past chunk (chunks.flatten ++ rest)
    rw [← hstream] at hstep
    have houts : outs = (work settings tags (State.after past) chunk).2 ::
        (run (step settings tags) (work settings tags (State.after past) chunk).1 chunks).2 := rfl
    rw [houts, hstep, List.flatMap_cons, List.flatMap_cons, List.flatMap_cons, hitems, htags, hlengths]
    refine ⟨?_, ?_, ?_⟩
    · rw [List.flatten_cons, List.length_append, List.take_add, List.drop_drop]
    · exact (List.map_append ..).symm
    · exact (List.map_append ..).symm

/-- The length of a Golay field within three errors of a codeword. -/
theorem frameLenBits_of_near {bits : List Byte} {data : BitVec 32} {e : BitVec 24}
    (he : weight e ≤ 3) (hbits : golayField bits = encodeGolay24 data ^^^ e.setWidth 32) :
    frameLenBits bits = 8 * (encodeGolay24 data &&& 0xff).toNat + kGolayN := by
  rw [frameLenBits, hbits, decodeGolay24_encodeGolay24 data he]

/-- Each Golay field that has arrived gives one length tag. -/
theorem lengthTags_perm (settings : Settings) (tags : List Tag) (chunks : List (List Byte)) :
    ((run (step settings tags) State.init chunks).2.flatMap Output.lengthTags).Perm
      ((tags.filter fun tag => tag.key = settings.golayStartTagKey ∧
        tag.offset + kGolayN ≤ chunks.flatten.length).map fun tag =>
          settings.lengthTag tag.offset (fieldAt chunks.flatten tag.offset)) := by
  obtain ⟨-, -, hlengths⟩ := run_after settings tags [] chunks []
  rw [List.nil_append, List.append_nil] at hlengths
  have hall : tags.filter (fun tag => tag.key = settings.golayStartTagKey ∧
      tag.offset + kGolayN ≤ chunks.flatten.length) = due fieldDeadline chunks.flatten.length
        (tags.filter fun tag => tag.key = settings.golayStartTagKey) := by
    rw [due, List.filter_filter]
    refine List.filter_congr fun tag _ => ?_
    rw [Bool.eq_iff_iff]
    simp only [Bool.and_eq_true, decide_eq_true_eq]
    exact and_comm
  have hinit : State.init = State.after [] := rfl
  rw [hall, hinit, hlengths]
  exact (released_chunkCuts_perm fieldDeadline_pos _ chunks).map _

end GrSatellites.NanocomGolay
