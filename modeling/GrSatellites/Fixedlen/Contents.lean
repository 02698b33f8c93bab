import GrSatellites.Fixedlen.Call
import GrSatellites.Library.Deadlines

/-!
# The PDUs of a run

Each sync tag is a task whose deadline is the end of its packet, but not before the item
with the tag has been consumed. A run releases the tasks at the ends of its calls.
-/

namespace GrSatellites.Fixedlen.FixedlenToPdu

open Bits Deadlines

variable (b : FixedlenToPdu)

/-- How many items must have been consumed for the PDU of a sync tag. -/
def deadline (tag : ℕ × ℕ) : ℕ := tag.1 + max 1 tag.2

/-- The state once some items have been consumed: what the buffers hold, and the packets
that end later. -/
structure Consumed (stream : List (Item b.itemsize)) (s : State) : Prop where
  holds : b.Holds stream s
  packetInfos_eq : s.packetInfos =
    ((b.syncTags 0 stream).filter fun tag => ¬ EndsBy stream.length tag).map toInfo

theorem consumed_init : b.Consumed [] b.init := ⟨b.holds_init, rfl⟩

variable {b}

/-- What comes after the end of a packet does not matter. -/
theorem pdu_append {stream : List (Item b.itemsize)} {tag : ℕ × ℕ}
    (hend : EndsBy stream.length tag) (more : List (Item b.itemsize)) :
    b.pdu (stream ++ more) tag = b.pdu stream tag := by
  have hend' : tag.1 + tag.2 ≤ stream.length := hend
  have hcontents : contents (stream ++ more) tag.1 tag.2 = contents stream tag.1 tag.2 := by
    rw [contents, contents, List.drop_append_of_le_length (by omega),
      List.take_append_of_le_length (by rw [List.length_drop]; omega)]
  rw [pdu, pdu, hcontents]

/-- The packets that end within a call are those whose deadline passes in it. -/
theorem newly_syncTags (stream chunk rest : List (Item b.itemsize)) :
    ((b.syncTags 0 stream).filter (fun tag => ¬ EndsBy stream.length tag) ++
        b.syncTags stream.length chunk).filter (EndsBy (stream.length + chunk.length)) =
      newly deadline stream.length (stream.length + chunk.length)
        (b.syncTags 0 (stream ++ (chunk ++ rest))) := by
  rw [syncTags_append, syncTags_append, Nat.zero_add, newly, List.filter_append, List.filter_append,
    List.filter_append, List.filter_filter]
  have hrest : (b.syncTags (stream.length + chunk.length) rest).filter (fun tag =>
      stream.length < deadline tag ∧ deadline tag ≤ stream.length + chunk.length) = [] := by
    refine List.filter_eq_nil_iff.mpr fun tag htag => ?_
    have hmem := (mem_syncTags htag).1
    rw [decide_eq_true_eq, deadline]
    omega
  rw [hrest, List.append_nil]
  congr 1
  · refine List.filter_congr fun tag htag => ?_
    have hmem := (mem_syncTags htag).2.1
    rw [Bool.eq_iff_iff]
    rw [Bool.and_eq_true, decide_eq_true_eq, decide_eq_true_eq, decide_eq_true_eq, deadline]
    omega
  · refine List.filter_congr fun tag htag => ?_
    have hmem := mem_syncTags htag
    rw [Bool.eq_iff_iff]
    rw [decide_eq_true_eq, decide_eq_true_eq, deadline]
    omega

/-- The packets kept by a call are those that end later. -/
theorem filter_not_endsBy (stream chunk : List (Item b.itemsize)) :
    ((b.syncTags 0 stream).filter (fun tag => ¬ EndsBy stream.length tag) ++
        b.syncTags stream.length chunk).filter
          (fun tag => ¬ EndsBy (stream.length + chunk.length) tag) =
      (b.syncTags 0 (stream ++ chunk)).filter fun tag => ¬ EndsBy (stream ++ chunk).length tag := by
  rw [syncTags_append, Nat.zero_add, List.filter_append, List.filter_append, List.filter_filter,
    List.length_append]
  congr 1
  refine List.filter_congr fun tag _ => ?_
  rw [Bool.eq_iff_iff, Bool.and_eq_true, decide_eq_true_eq, decide_eq_true_eq]
  omega

/-- **One call.** It publishes the PDUs of the sync tags whose deadline passes in it. -/
theorem work_spec {stream chunk : List (Item b.itemsize)} {s : State} (h : b.Consumed stream s)
    (hlengths : b.LengthsOk chunk) (rest : List (Item b.itemsize)) :
    ∃ s', b.work stream.length s chunk =
        .ok (s', (newly deadline stream.length (stream.length + chunk.length)
          (b.syncTags 0 (stream ++ (chunk ++ rest)))).map (b.pdu (stream ++ (chunk ++ rest)))) ∧
      b.Consumed (stream ++ chunk) s' := by
  have hpos := b.packetLen_pos
  have htags : ∀ tag ∈ (b.syncTags 0 stream).filter (fun tag => ¬ EndsBy stream.length tag) ++
      b.syncTags stream.length chunk,
      tag.2 ≤ b.packetLen ∧ stream.length ≤ tag.1 + (b.packetLen - 1) := by
    intro tag htag
    rcases List.mem_append.mp htag with htag | htag
    · obtain ⟨hmem, hlater⟩ := List.mem_filter.mp htag
      have hlength := (mem_syncTags hmem).2.2
      rw [decide_eq_true_eq] at hlater
      exact ⟨hlength, by omega⟩
    · have hmem := mem_syncTags htag
      exact ⟨hmem.2.2, by omega⟩
  obtain ⟨t, hloop, ht⟩ := handleInfos_spec chunk htags h.holds
  obtain ⟨s', hupdate, hholds, hinfos⟩ := updateHistory_spec (ht.with_packetInfos _) chunk
  refine ⟨s', ?_, hholds, hinfos.trans (congrArg (List.map toInfo) (filter_not_endsBy stream chunk))⟩
  unfold work
  rw [newPacketInfos_eq hlengths, ok_bind, h.packetInfos_eq, ← List.map_append, hloop, ok_bind]
  simp only
  rw [hupdate, ok_bind, ← newly_syncTags stream chunk rest]
  refine congrArg (fun pdus => Except.ok (s', pdus)) (List.map_congr_left fun tag htag => ?_)
  have hend : EndsBy (stream ++ chunk).length tag := by
    rw [List.length_append]
    exact of_decide_eq_true (List.mem_filter.mp htag).2
  rw [← List.append_assoc, pdu_append hend]

/-! ## Runs -/

/-- How many items have been consumed after each call. -/
def cuts {size : ℕ} (n : ℕ) : List (List (Item size)) → List ℕ
  | [] => []
  | chunk :: chunks => (n + chunk.length) :: cuts (n + chunk.length) chunks

theorem cuts_eq_chunkCuts {size : ℕ} (n : ℕ) (chunks : List (List (Item size))) :
    cuts n chunks = chunkCuts n chunks := by
  induction chunks generalizing n with
  | nil => rfl
  | cons chunk chunks ih => exact congrArg (_ :: ·) (ih _)

theorem isChain_cuts {size : ℕ} (n : ℕ) (chunks : List (List (Item size))) :
    (n :: cuts n chunks).IsChain (· ≤ ·) := by
  rw [cuts_eq_chunkCuts]
  exact isChain_chunkCuts n chunks

theorem lastCut_cuts {size : ℕ} (n : ℕ) (chunks : List (List (Item size))) :
    lastCut n (cuts n chunks) = n + chunks.flatten.length := by
  rw [cuts_eq_chunkCuts, lastCut_chunkCuts]

/-- **A run.** The sync tags are released as their deadlines pass. -/
theorem runCalls_spec {stream : List (Item b.itemsize)} {s : State} (h : b.Consumed stream s)
    {chunks : List (List (Item b.itemsize))} (hlengths : b.LengthsOk chunks.flatten)
    (rest : List (Item b.itemsize)) :
    ∃ s', b.runCalls stream.length s chunks =
        .ok (s', (released deadline (b.syncTags 0 (stream ++ (chunks.flatten ++ rest))) stream.length
          (cuts stream.length chunks)).map (b.pdu (stream ++ (chunks.flatten ++ rest)))) ∧
      b.Consumed (stream ++ chunks.flatten) s' := by
  induction chunks generalizing stream s with
  | nil => exact ⟨s, rfl, by rwa [List.flatten_nil, List.append_nil]⟩
  | cons chunk chunks ih =>
    rw [List.flatten_cons] at hlengths ⊢
    have hchunk : b.LengthsOk chunk := fun item hitem =>
      hlengths item (List.mem_append_left _ hitem)
    have hmore : b.LengthsOk chunks.flatten := fun item hitem =>
      hlengths item (List.mem_append_right _ hitem)
    obtain ⟨t, hwork, ht⟩ := work_spec h hchunk (chunks.flatten ++ rest)
    obtain ⟨s', hrun, hs'⟩ := ih ht hmore
    rw [List.append_assoc] at hrun hs'
    refine ⟨s', ?_, hs'⟩
    rw [runCalls, List.append_assoc, hwork, ok_bind]
    simp only
    rw [← List.length_append, hrun, ok_bind, cuts, released, List.map_append, List.length_append]
    rfl

theorem deadline_pos (tag : ℕ × ℕ) : 0 < deadline tag := by
  rw [deadline]
  omega

/-- Nothing is due at the start. -/
theorem due_zero (tags : List (ℕ × ℕ)) : due deadline 0 tags = [] :=
  List.filter_eq_nil_iff.mpr fun tag _ => by simpa using (deadline_pos tag).ne'

/-- What has been released at the end of a run, from the start on. -/
theorem runCalls_init (stream : List (Item b.itemsize)) {chunks : List (List (Item b.itemsize))}
    (hchunks : chunks.flatten <+: stream) (hlengths : b.LengthsOk chunks.flatten) :
    ∃ s, b.runCalls 0 b.init chunks = .ok (s, (due deadline 0 (b.syncTags 0 stream) ++
      released deadline (b.syncTags 0 stream) 0 (cuts 0 chunks)).map (b.pdu stream)) := by
  obtain ⟨rest, rfl⟩ := hchunks
  obtain ⟨s, hrun, -⟩ := runCalls_spec b.consumed_init hlengths rest
  rw [due_zero, List.nil_append]
  exact ⟨s, hrun⟩

/-- **Contents.** However the stream is cut into calls, the PDUs published once some items have
been consumed are those of the sync tags consumed whose packets have ended. -/
theorem runCalls_published (b : FixedlenToPdu) (stream : List (Item b.itemsize))
    (chunks : List (List (Item b.itemsize))) (hchunks : chunks.flatten <+: stream)
    (hlengths : b.LengthsOk chunks.flatten) :
    ∃ s pdus, b.runCalls 0 b.init chunks = .ok (s, pdus) ∧
      pdus.Perm (((b.syncTags 0 stream).filter fun tag =>
        tag.1 < chunks.flatten.length ∧ EndsBy chunks.flatten.length tag).map (b.pdu stream)) := by
  obtain ⟨s, hrun⟩ := runCalls_init stream hchunks hlengths
  refine ⟨s, _, hrun, List.Perm.map _ ?_⟩
  have hdue : (b.syncTags 0 stream).filter (fun tag =>
      tag.1 < chunks.flatten.length ∧ EndsBy chunks.flatten.length tag) =
        due deadline (lastCut 0 (cuts 0 chunks)) (b.syncTags 0 stream) := by
    refine List.filter_congr fun tag _ => ?_
    rw [decide_eq_decide, lastCut_cuts, Nat.zero_add, deadline]
    omega
  rw [hdue]
  exact released_perm (isChain_cuts 0 chunks) _

/-- A block for bytes, with packets of at most three bytes. -/
def threeBytes : FixedlenToPdu :=
  ⟨.byte, "syncword", 3, false, some "packet_len", Nat.succ_pos 2, nofun, nofun⟩

/-- An item of one byte with a sync tag and a length tag. -/
def taggedByte (byte : Byte) (length : ℕ) : Item 1 :=
  ⟨[byte], rfl, [⟨"syncword", .other⟩, ⟨"packet_len", .long (BitVec.ofNat 64 length)⟩]⟩

/-- An item of one byte without tags. -/
def plainByte (byte : Byte) : Item 1 := ⟨[byte], rfl, []⟩

theorem lengthsOk_threeBytes {items : List (Item threeBytes.itemsize)}
    (hitems : ∀ item ∈ items, ∀ tag, threeBytes.lengthTag item.tags = some tag → tag.value ≠ .other) :
    threeBytes.LengthsOk items := fun item hitem _ =>
  ⟨hitems item hitem, (effectiveLength_le item.tags).trans_lt (by decide)⟩

/-- The second packet ends later than the third item and is not published yet. -/
theorem runCalls_published_three_items :
    ∃ s pdus, threeBytes.runCalls 0 threeBytes.init
        [[taggedByte 1 2], [plainByte 2, taggedByte 3 3]] = .ok (s, pdus) ∧
      pdus.Perm (((threeBytes.syncTags 0 [taggedByte 1 2, plainByte 2, taggedByte 3 3]).filter
        fun tag => tag.1 < 3 ∧ EndsBy 3 tag).map
          (threeBytes.pdu [taggedByte 1 2, plainByte 2, taggedByte 3 3])) := by
  refine runCalls_published threeBytes [taggedByte 1 2, plainByte 2, taggedByte 3 3]
    [[taggedByte 1 2], [plainByte 2, taggedByte 3 3]] (List.prefix_refl _)
    (lengthsOk_threeBytes fun item hitem tag htag => ?_)
  rcases List.mem_cons.mp hitem with rfl | hitem
  · cases htag
    nofun
  rcases List.mem_cons.mp hitem with rfl | hitem
  · cases htag
  rcases List.mem_cons.mp hitem with rfl | hitem
  · cases htag
    nofun
  · cases hitem

/-- A packet without items ends before the item with its sync tag has been consumed, and it
is not published then. -/
theorem runCalls_empty_packet :
    ¬ ∃ s pdus, threeBytes.runCalls 0 threeBytes.init [[plainByte 1]] = .ok (s, pdus) ∧
      pdus.Perm (((threeBytes.syncTags 0 [plainByte 1, taggedByte 2 0]).filter (EndsBy 1)).map
        (threeBytes.pdu [plainByte 1, taggedByte 2 0])) := by
  rintro ⟨s, pdus, hrun, hperm⟩
  have hnone : threeBytes.runCalls 0 threeBytes.init [[plainByte 1]] =
      .ok (⟨[1, 0], 1, 1, [0, 0, 0], []⟩, []) := rfl
  rw [hnone] at hrun
  cases hrun
  exact absurd hperm.length_eq (by decide)

end GrSatellites.Fixedlen.FixedlenToPdu
