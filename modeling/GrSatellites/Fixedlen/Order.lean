import GrSatellites.Fixedlen.Contents

/-!
# The order of the PDUs

A short packet that starts later may end in an earlier call than a long one that started
before, and is then published first. Whether this can happen depends on the tags alone.
-/

namespace GrSatellites.Fixedlen.FixedlenToPdu

open Bits Deadlines

variable {b : FixedlenToPdu}

/-- The sync tags are listed by their position. -/
theorem pairwise_syncTags (offset : ℕ) (items : List (Item b.itemsize)) :
    (b.syncTags offset items).Pairwise fun x y => x.1 ≤ y.1 := by
  induction items generalizing offset with
  | nil => exact .nil
  | cons item items ih =>
    rw [syncTags, List.pairwise_append]
    refine ⟨?_, ih _, ?_⟩
    · rw [List.pairwise_map]
      exact List.pairwise_of_forall fun _ _ => le_refl offset
    · intro x hx y hy
      obtain ⟨_, _, rfl⟩ := List.mem_map.mp hx
      exact (Nat.le_succ offset).trans (mem_syncTags hy).1

theorem length_pdu_of_not_pack (hpack : b.pack = false) {stream : List (Item b.itemsize)}
    {tag : ℕ × ℕ} (hend : EndsBy stream.length tag) :
    (b.pdu stream tag).length = tag.2 * b.itemsize := by
  rw [pdu, hpack, if_neg Bool.false_ne_true]
  exact length_contents hend

/-- The PDUs for a stream that is cut into two calls. -/
theorem runCalls_two (stream : List (Item b.itemsize)) (hlengths : b.LengthsOk stream) {n : ℕ}
    (hn : n ≤ stream.length) :
    ∃ s, b.runCalls 0 b.init [stream.take n, stream.drop n] =
      .ok (s, (due deadline n (b.syncTags 0 stream) ++
        newly deadline n stream.length (b.syncTags 0 stream)).map (b.pdu stream)) := by
  have hflatten : [stream.take n, stream.drop n].flatten = stream := by simp
  have hcuts : cuts 0 [stream.take n, stream.drop n] = [n, stream.length] := by
    simp only [cuts, Nat.zero_add, List.length_take_of_le hn, List.length_drop]
    rw [Nat.add_sub_cancel' hn]
  have hall : newly deadline 0 n (b.syncTags 0 stream) = due deadline n (b.syncTags 0 stream) := by
    rw [newly_eq_filter]
    exact List.filter_eq_self.mpr fun tag _ => decide_eq_true (deadline_pos tag)
  obtain ⟨s, hrun⟩ := runCalls_init stream (by rw [hflatten]) (by rwa [hflatten])
  rw [due_zero, List.nil_append, hcuts, released, released, released, List.append_nil, hall] at hrun
  exact ⟨s, hrun⟩

/-- Without packing, a PDU that is due before an earlier one is the shorter one. -/
theorem pairwise_length_pdu (hpack : b.pack = false) (stream : List (Item b.itemsize)) :
    (due deadline stream.length (b.syncTags 0 stream)).Pairwise fun x y =>
      deadline y < deadline x → (b.pdu stream y).length < (b.pdu stream x).length := by
  refine ((pairwise_syncTags 0 stream).sublist List.filter_sublist).imp_of_mem ?_
  intro x y hx hy hxy hlt
  have hxdue := of_decide_eq_true (List.mem_filter.mp hx).2
  have hydue := of_decide_eq_true (List.mem_filter.mp hy).2
  rw [deadline] at hxdue hydue
  rw [deadline, deadline] at hlt
  rw [length_pdu_of_not_pack hpack (by omega), length_pdu_of_not_pack hpack (by omega)]
  exact Nat.mul_lt_mul_of_pos_right (by omega) b.itemsize_pos

/-- **Order.** When no PDU is due earlier than that of a sync tag before it, every way of cutting
the stream into calls publishes the PDUs in the order of the sync tags. Without packing, this
is the only case in which every way does. -/
theorem runCalls_in_order (b : FixedlenToPdu) (stream : List (Item b.itemsize))
    (hlengths : b.LengthsOk stream) :
    ((due deadline stream.length (b.syncTags 0 stream)).Pairwise
        (fun x y => deadline x ≤ deadline y) →
      ∀ chunks, chunks.flatten = stream → ∃ s, b.runCalls 0 b.init chunks =
        .ok (s, (due deadline stream.length (b.syncTags 0 stream)).map (b.pdu stream))) ∧
    (b.pack = false →
      (∀ chunks, chunks.flatten = stream → ∃ s, b.runCalls 0 b.init chunks =
        .ok (s, (due deadline stream.length (b.syncTags 0 stream)).map (b.pdu stream))) →
      (due deadline stream.length (b.syncTags 0 stream)).Pairwise
        (fun x y => deadline x ≤ deadline y)) := by
  constructor
  · rintro hsorted chunks rfl
    obtain ⟨s, hrun⟩ := runCalls_init chunks.flatten (List.prefix_refl _) hlengths
    have hlast : lastCut 0 (cuts 0 chunks) = chunks.flatten.length := by
      rw [lastCut_cuts, Nat.zero_add]
    rw [released_of_sorted (isChain_cuts 0 chunks) (by rwa [hlast]), hlast] at hrun
    exact ⟨s, hrun⟩
  · intro hpack horder
    refine sorted_of_map_size (pairwise_length_pdu hpack stream) fun n hn => ?_
    obtain ⟨s, htwo⟩ := runCalls_two stream hlengths hn
    obtain ⟨t, hall⟩ := horder [stream.take n, stream.drop n] (by simp)
    have hpdus := congrArg (List.map List.length) (Prod.mk.inj (Except.ok.inj (htwo.symm.trans hall))).2
    rwa [List.map_map, List.map_map] at hpdus

/-- Two packets of the same length, in calls of one item and of two. -/
theorem runCalls_in_order_two_packets : ∃ s,
    threeBytes.runCalls 0 threeBytes.init [[taggedByte 1 2], [taggedByte 2 2, plainByte 3]] =
      .ok (s, (due deadline 3
        (threeBytes.syncTags 0 [taggedByte 1 2, taggedByte 2 2, plainByte 3])).map
          (threeBytes.pdu [taggedByte 1 2, taggedByte 2 2, plainByte 3])) := by
  refine (runCalls_in_order threeBytes [taggedByte 1 2, taggedByte 2 2, plainByte 3]
    (lengthsOk_threeBytes fun item hitem tag htag => ?_)).1 (by decide) _ rfl
  rcases List.mem_cons.mp hitem with rfl | hitem
  · cases htag
    nofun
  rcases List.mem_cons.mp hitem with rfl | hitem
  · cases htag
    nofun
  rcases List.mem_cons.mp hitem with rfl | hitem
  · cases htag
  · cases hitem

/-- The second packet starts later and ends first. In one call, the packets are published in the
order of their sync tags, and in two calls, the one that ends first is published first. -/
theorem runCalls_nested_packets : ∃ s t,
    threeBytes.runCalls 0 threeBytes.init [[taggedByte 1 3, taggedByte 2 1, plainByte 3]] =
      .ok (s, [[1, 2, 3], [2]]) ∧
    threeBytes.runCalls 0 threeBytes.init [[taggedByte 1 3, taggedByte 2 1], [plainByte 3]] =
      .ok (t, [[2], [1, 2, 3]]) := ⟨_, _, rfl, rfl⟩

end GrSatellites.Fixedlen.FixedlenToPdu
