import GrSatellites.VarlenPacket.RoundTrip

/-!
# Streams with several packets

The framer finds the first tag that is in its input, but it copies a packet from the start of
its input and consumes as many items as the packet has. It frames the tagged packets for all
contents of a stream exactly when the packets follow one another without a gap.
-/

namespace GrSatellites.VarlenPacket

open Transducer

/-- Where the tagged packets of a stream are: the tags, with offsets and lengths, and the number
of items of the stream. The packets are in the stream and do not overlap. -/
structure Layout where
  tags : List (ℕ × ℕ)
  total : ℕ
  disjoint : tags.Pairwise fun t u => t.1 + t.2 ≤ u.1
  inside : ∀ t ∈ tags, t.1 < total ∧ t.1 + t.2 ≤ total

/-- A call by the scheduler, which offers no more items than there are. -/
def Framer.step (framer : Framer) (stream : Stream ℕ) (s : FramerState) (call : Call) :
    FramerState × List Packet :=
  framer.generalWork stream s
    { call with ninputItems := min call.ninputItems (stream.items.length - s.nitemsRead) }

/-- The items of the packets that the framer puts out in some calls. -/
def Framer.output (framer : Framer) (stream : Stream ℕ) (calls : List Call) : List (List Byte) :=
  (run (framer.step stream) .init calls).2.map Packet.items

/-- What the framer should put out: for each tag the sync word, the header, and the items that
start at the tag. -/
def Framer.expected (framer : Framer) (stream : Stream ℕ) : List (List Byte) :=
  stream.tags.map fun t =>
    framer.syncWord ++ framer.body ((stream.items.drop t.1).take t.2)

/-- A call with all the items of the stream, and room for every packet. -/
def Framer.ample (framer : Framer) (stream : Stream ℕ) (call : Call) : Bool :=
  stream.items.length ≤ call.ninputItems && stream.tags.all fun t =>
    t.2 + framer.headerLength.toNat + framer.syncWord.length ≤ call.noutputItems

/-- The framer frames the tagged packets of a layout: for all contents of the stream and all
calls it has put out the first packets, each one once, and it has put out all of them after
enough calls that are ample. -/
def Framer.FramesTagged (framer : Framer) (layout : Layout) : Prop :=
  ∀ items : List Byte, items.length = layout.total → ∀ calls : List Call,
    framer.output ⟨items, layout.tags⟩ calls <+: framer.expected ⟨items, layout.tags⟩ ∧
      (layout.tags.length ≤ calls.countP (framer.ample ⟨items, layout.tags⟩) →
        framer.output ⟨items, layout.tags⟩ calls = framer.expected ⟨items, layout.tags⟩)

/-- The number of items of the first `j` packets. -/
def Layout.itemsBefore (layout : Layout) (j : ℕ) : ℕ := ((layout.tags.take j).map Prod.snd).sum

/-- A packet starts where the packets before it end, or at the start of the stream, and it is
not empty. -/
def Layout.Follows (layout : Layout) (j : ℕ) (hj : j < layout.tags.length) : Prop :=
  layout.tags[j].1 = layout.itemsBefore j ∧ 0 < layout.tags[j].2

/-- There is no item between two packets or before the first one, and no packet is empty. -/
def Layout.Gapless (layout : Layout) : Prop :=
  ∀ (j : ℕ) (hj : j < layout.tags.length), layout.Follows j hj

/-! ## Layouts -/

namespace Layout

variable {layout : Layout} {j : ℕ}

theorem itemsBefore_succ (hj : j < layout.tags.length) :
    layout.itemsBefore (j + 1) = layout.itemsBefore j + layout.tags[j].2 := by
  rw [itemsBefore, List.take_add_one, List.getElem?_eq_getElem hj, List.map_append, List.sum_append]
  rfl

theorem itemsBefore_mono {i : ℕ} (hij : i ≤ j) (hj : j ≤ layout.tags.length) :
    layout.itemsBefore i ≤ layout.itemsBefore j := by
  induction j, hij using Nat.le_induction with
  | base => exact le_rfl
  | succ j hij ih =>
    rw [itemsBefore_succ (by omega)]
    exact (ih (by omega)).trans (Nat.le_add_right _ _)

/-- When the first packets follow one another, their tags are before the items they leave. -/
theorem lt_itemsBefore (hj : j ≤ layout.tags.length)
    (hfollow : ∀ (i : ℕ) (hi : i < j), layout.Follows i (hi.trans_le hj)) {i : ℕ} (hi : i < j)
    (htag : i < layout.tags.length) : layout.tags[i].1 < layout.itemsBefore j := by
  obtain ⟨hstart, hpos⟩ := hfollow i hi
  have hsucc := itemsBefore_succ (hi.trans_le hj)
  have hmono := itemsBefore_mono (Nat.succ_le_of_lt hi) hj
  rw [Nat.succ_eq_add_one] at hmono
  omega

/-- When the packets before a packet follow one another, they end at its tag or before. -/
theorem itemsBefore_le (hj : j < layout.tags.length)
    (hfollow : ∀ (i : ℕ) (hi : i < j), layout.Follows i (hi.trans hj)) :
    layout.itemsBefore j ≤ layout.tags[j].1 := by
  cases j with
  | zero => exact Nat.zero_le _
  | succ i =>
    have hlast := (hfollow i (Nat.lt_succ_self i)).1
    have hdisjoint := List.pairwise_iff_getElem.mp layout.disjoint i (i + 1) (by omega) hj
      (Nat.lt_succ_self i)
    rw [itemsBefore_succ (by omega)]
    omega

end Layout

/-! ## Steps -/

variable {framer : Framer} {layout : Layout} {items : List Byte} {s : FramerState} {j : ℕ}

/-- The packet with the number `j` is the next one for a framer that has read some items. -/
structure Next (layout : Layout) (j : ℕ) (hj : j < layout.tags.length) (s : FramerState) :
    Prop where
  before : ∀ i < j, ∀ (htag : i < layout.tags.length), layout.tags[i].1 < s.nitemsRead
  le : s.nitemsRead ≤ layout.tags[j].1

theorem Next.firstTag {hj : j < layout.tags.length} (hnext : Next layout j hj s) (last : ℕ) :
    Stream.firstTag ⟨items, layout.tags⟩ s.nitemsRead last =
      if layout.tags[j].1 < last then some layout.tags[j] else none := by
  rw [Stream.firstTag]
  split
  case isTrue hlt =>
    refine List.find?_eq_some_iff_getElem.mpr
      ⟨decide_eq_true ⟨hnext.le, hlt⟩, j, hj, rfl, fun i hi => ?_⟩
    rw [Bool.not_eq_true', decide_eq_false_iff_not]
    exact fun h => absurd h.1 (Nat.not_le.mpr (hnext.before i hi _))
  case isFalse hge =>
    refine List.find?_eq_none.mpr fun t ht => ?_
    obtain ⟨i, hi, rfl⟩ := List.mem_iff_getElem.mp ht
    rw [decide_eq_true_eq]
    rintro ⟨hfirst, hlast⟩
    rcases Nat.lt_trichotomy i j with hij | rfl | hji
    · exact absurd hfirst (Nat.not_le.mpr (hnext.before i hij _))
    · exact hge hlast
    · have hoffset : layout.tags[i].1 < last := hlast
      have hdisjoint := List.pairwise_iff_getElem.mp layout.disjoint j i hj hi hji
      omega

theorem Framer.ample_iff {stream : Stream ℕ} {call : Call} : framer.ample stream call = true ↔
    stream.items.length ≤ call.ninputItems ∧ ∀ t ∈ stream.tags,
      t.2 + framer.headerLength.toNat + framer.syncWord.length ≤ call.noutputItems := by
  rw [Framer.ample, Bool.and_eq_true, List.all_eq_true]
  simp only [decide_eq_true_eq]

/-- A call puts out nothing, or a packet that starts with the next item that has not been read,
whatever the offset of the next tag is. -/
theorem step_next (framer : Framer) {hj : j < layout.tags.length} (hnext : Next layout j hj s)
    (hitems : items.length = layout.total) (call : Call) :
    ((framer.step ⟨items, layout.tags⟩ s call).1.nitemsRead = s.nitemsRead ∧
      (framer.step ⟨items, layout.tags⟩ s call).2 = [] ∧
        framer.ample ⟨items, layout.tags⟩ call = false) ∨
    ((framer.step ⟨items, layout.tags⟩ s call).1.nitemsRead =
        s.nitemsRead + layout.tags[j].2 ∧
      (framer.step ⟨items, layout.tags⟩ s call).2.map Packet.items =
        [framer.syncWord ++ framer.body ((items.drop s.nitemsRead).take layout.tags[j].2)]) := by
  obtain ⟨hstart, hend⟩ := layout.inside layout.tags[j] (List.getElem_mem hj)
  have hle := hnext.le
  rw [Framer.step, Framer.generalWork, hnext.firstTag, ← Bool.not_eq_true, Framer.ample_iff]
  generalize htag : layout.tags[j] = tag at *
  obtain ⟨offset, packetLen⟩ := tag
  have hmem : (offset, packetLen) ∈ layout.tags := htag ▸ List.getElem_mem hj
  simp only at hstart hend hle ⊢
  by_cases hfound : offset < s.nitemsRead + min call.ninputItems (items.length - s.nitemsRead)
  · rw [if_pos hfound]
    simp only
    by_cases hroom : call.noutputItems <
        packetLen + framer.headerLength.toNat + framer.syncWord.length
    · rw [if_pos hroom]
      exact Or.inl ⟨rfl, rfl, fun h => absurd (h.2 _ hmem) (Nat.not_le.mpr hroom)⟩
    · rw [if_neg hroom]
      by_cases hcomplete : (offset : ℤ) - s.nitemsRead + packetLen ≤
          (min call.ninputItems (items.length - s.nitemsRead) : ℕ)
      · have hlength : ((items.drop s.nitemsRead).take packetLen).length = packetLen := by
          rw [List.length_take, List.length_drop]
          omega
        rw [if_pos hcomplete]
        refine Or.inr ⟨rfl, ?_⟩
        rw [List.map_singleton, Framer.body, hlength, List.append_assoc]
      · rw [if_neg hcomplete]
        refine Or.inl ⟨rfl, rfl, fun h => hcomplete ?_⟩
        have hall := h.1
        omega
  · rw [if_neg hfound]
    refine Or.inl ⟨rfl, rfl, fun h => hfound ?_⟩
    have hall := h.1
    omega

/-- When there is no tag left, nothing happens. -/
theorem step_nothing (stream : Stream ℕ) (hread : ∀ t ∈ stream.tags, t.1 < s.nitemsRead)
    (call : Call) : framer.step stream s call = (s, []) := by
  have hnone (last : ℕ) : stream.firstTag s.nitemsRead last = none := by
    refine List.find?_eq_none.mpr fun t ht => ?_
    rw [decide_eq_true_eq]
    exact fun h => absurd h.1 (Nat.not_le.mpr (hread t ht))
  rw [Framer.step, Framer.generalWork, hnone]

/-! ## Runs -/

/-- A framer has put out the first `j` packets as it should, and has read their items only. -/
structure Reached (framer : Framer) (layout : Layout) (items : List Byte) (j : ℕ)
    (out : List Packet) (s : FramerState) : Prop where
  le : j ≤ layout.tags.length
  read : s.nitemsRead = layout.itemsBefore j
  out : out.map Packet.items = (framer.expected ⟨items, layout.tags⟩).take j

variable {out : List Packet}

theorem Reached.next (hreached : Reached framer layout items j out s)
    (hj : j < layout.tags.length)
    (hfollow : ∀ (i : ℕ) (hi : i < j), layout.Follows i (hi.trans hj)) : Next layout j hj s where
  before _ hi htag :=
    hreached.read ▸ Layout.lt_itemsBefore hj.le (fun i hi => hfollow i hi) hi htag
  le := hreached.read ▸ Layout.itemsBefore_le hj hfollow

theorem Framer.take_expected_succ (hj : j < layout.tags.length) :
    (framer.expected ⟨items, layout.tags⟩).take (j + 1) =
      (framer.expected ⟨items, layout.tags⟩).take j ++ [framer.syncWord ++
        framer.body ((items.drop layout.tags[j].1).take layout.tags[j].2)] := by
  rw [List.take_add_one, Framer.expected, List.getElem?_map, List.getElem?_eq_getElem hj]
  rfl

/-- A packet that follows the ones before it is put out by an ample call, or by an earlier one. -/
theorem Reached.step (hreached : Reached framer layout items j out s)
    (hitems : items.length = layout.total) (hj : j < layout.tags.length)
    (hfollow : ∀ (i : ℕ) (hi : i < j + 1), layout.Follows i (hi.trans_le hj)) (call : Call) :
    ∃ k, Reached framer layout items k
        (out ++ (framer.step ⟨items, layout.tags⟩ s call).2)
        (framer.step ⟨items, layout.tags⟩ s call).1 ∧ k ≤ j + 1 ∧
      j + (framer.ample ⟨items, layout.tags⟩ call).toNat ≤ k := by
  have hnext := hreached.next hj fun i hi => hfollow i (Nat.lt_succ_of_lt hi)
  rcases step_next framer hnext hitems call with ⟨hread, hout, hpart⟩ | ⟨hread, hout⟩
  · refine ⟨j, ⟨hreached.le, hread.trans hreached.read, ?_⟩, Nat.le_succ j, ?_⟩
    · rw [hout, List.append_nil, hreached.out]
    · rw [hpart, Bool.toNat_false, Nat.add_zero]
  · refine ⟨j + 1, ⟨hj, ?_, ?_⟩, le_rfl, Nat.add_le_add_left (Bool.toNat_le _) j⟩
    · rw [hread, hreached.read, Layout.itemsBefore_succ hj]
    · have hoffset : layout.tags[j].1 = s.nitemsRead :=
        (hfollow j (Nat.lt_succ_self j)).1.trans hreached.read.symm
      rw [List.map_append, hout, hreached.out, Framer.take_expected_succ hj, hoffset]

theorem reached_init : Reached framer layout items 0 [] .init := ⟨Nat.zero_le _, rfl, rfl⟩

/-- In a layout without gaps, every ample call puts out a packet until there is none left. -/
theorem Layout.Gapless.reached (framer : Framer) (hgapless : layout.Gapless)
    (hitems : items.length = layout.total) (calls : List Call) :
    ∃ k, Reached framer layout items k (run (framer.step ⟨items, layout.tags⟩) .init calls).2
        (run (framer.step ⟨items, layout.tags⟩) .init calls).1 ∧
      min layout.tags.length (calls.countP (framer.ample ⟨items, layout.tags⟩)) ≤ k := by
  refine run_induction (I := fun calls out s => ∃ k, Reached framer layout items k out s ∧
    min layout.tags.length (calls.countP (framer.ample ⟨items, layout.tags⟩)) ≤ k) calls
    ⟨0, reached_init, Nat.min_le_right _ _⟩ fun calls call out s _ => ?_
  rintro ⟨j, hreached, hcount⟩
  rw [List.countP_append, List.countP_singleton]
  rcases hreached.le.lt_or_eq with hj | rfl
  · obtain ⟨k, hstep, -, hk⟩ := hreached.step hitems hj
      (fun i hi => hgapless i (hi.trans_le hj)) call
    refine ⟨k, hstep, ?_⟩
    cases hample : framer.ample ⟨items, layout.tags⟩ call with
    | false =>
      rw [hample, Bool.toNat_false] at hk
      simp only [Bool.false_eq_true, if_false]
      omega
    | true =>
      rw [hample, Bool.toNat_true] at hk
      simp only [if_true]
      omega
  · have hread : ∀ t ∈ layout.tags, t.1 < s.nitemsRead := fun t ht => by
      obtain ⟨i, hi, rfl⟩ := List.mem_iff_getElem.mp ht
      rw [hreached.read]
      exact Layout.lt_itemsBefore le_rfl hgapless hi hi
    rw [step_nothing ⟨items, layout.tags⟩ hread call, List.append_nil]
    exact ⟨_, hreached, Nat.min_le_left _ _⟩

theorem Framer.length_expected (stream : Stream ℕ) :
    (framer.expected stream).length = stream.tags.length := List.length_map _

theorem Layout.Gapless.framesTagged (hgapless : layout.Gapless) (framer : Framer) :
    framer.FramesTagged layout := by
  intro items hitems calls
  obtain ⟨k, hreached, hk⟩ := hgapless.reached framer hitems calls
  rw [Framer.output, hreached.out]
  refine ⟨List.take_prefix _ _, fun henough => List.take_of_length_le ?_⟩
  rw [Framer.length_expected]
  simp only
  omega

/-! ## Gaps -/

/-- A call that is ample for every stream with a layout. -/
def Framer.ampleCall (framer : Framer) (layout : Layout) : Call :=
  ⟨(layout.tags.map Prod.snd).sum + framer.headerLength.toNat + framer.syncWord.length,
    layout.total⟩

theorem Framer.ample_ampleCall (hitems : items.length = layout.total) :
    framer.ample ⟨items, layout.tags⟩ (framer.ampleCall layout) = true := by
  refine Framer.ample_iff.mpr ⟨hitems.le, fun t ht => ?_⟩
  have hle : t.2 ≤ (layout.tags.map Prod.snd).sum :=
    List.single_le_sum (fun _ _ => Nat.zero_le _) _ (List.mem_map_of_mem ht)
  exact Nat.add_le_add_right (Nat.add_le_add_right hle _) _

/-- An ample call puts out a packet from the items that have not been read, as long as there is
a tag. -/
theorem step_ampleCall (framer : Framer) {hj : j < layout.tags.length}
    (hnext : Next layout j hj s) (hitems : items.length = layout.total) :
    (framer.step ⟨items, layout.tags⟩ s (framer.ampleCall layout)).1.nitemsRead =
        s.nitemsRead + layout.tags[j].2 ∧
      (framer.step ⟨items, layout.tags⟩ s (framer.ampleCall layout)).2.map Packet.items =
        [framer.syncWord ++ framer.body ((items.drop s.nitemsRead).take layout.tags[j].2)] := by
  rcases step_next framer hnext hitems (framer.ampleCall layout) with ⟨-, -, hpart⟩ | hstep
  · rw [Framer.ample_ampleCall hitems] at hpart
    exact Bool.noConfusion hpart
  · exact hstep

/-- The first packets are put out as they should as long as they follow one another. -/
theorem reached_ampleCalls (framer : Framer) (hitems : items.length = layout.total)
    (hj : j ≤ layout.tags.length)
    (hfollow : ∀ (i : ℕ) (hi : i < j), layout.Follows i (hi.trans_le hj)) :
    Reached framer layout items j
      (run (framer.step ⟨items, layout.tags⟩) .init (List.replicate j (framer.ampleCall layout))).2
      (run (framer.step ⟨items, layout.tags⟩) .init
        (List.replicate j (framer.ampleCall layout))).1 := by
  induction j with
  | zero => exact reached_init
  | succ j ih =>
    have hreached := ih (by omega) fun i hi => hfollow i (Nat.lt_succ_of_lt hi)
    obtain ⟨k, hstep, hle, hge⟩ :=
      hreached.step hitems hj hfollow (framer.ampleCall layout)
    rw [Framer.ample_ampleCall hitems, Bool.toNat_true] at hge
    obtain rfl : k = j + 1 := Nat.le_antisymm hle hge
    rw [List.replicate_succ', run_append, run_singleton]
    exact hstep

/-- The tag of an empty packet is found again in every call. -/
theorem run_empty {hj : j < layout.tags.length} (hnext : Next layout j hj s)
    (hempty : layout.tags[j].2 = 0) (hitems : items.length = layout.total) (k : ℕ) :
    (run (framer.step ⟨items, layout.tags⟩) s
      (List.replicate k (framer.ampleCall layout))).2.length = k := by
  induction k generalizing s with
  | zero => rfl
  | succ k ih =>
    obtain ⟨hread, hout⟩ := step_ampleCall framer hnext hitems
    rw [hempty, Nat.add_zero] at hread
    have hone := congrArg List.length hout
    rw [List.length_map, List.length_singleton] at hone
    rw [List.replicate_succ, run_cons, List.length_append, hone,
      ih ⟨by rw [hread]; exact hnext.before, by rw [hread]; exact hnext.le⟩, Nat.add_comm]

theorem body_injective {packet packet' : List Byte} (hlength : packet.length = packet'.length)
    (h : framer.syncWord ++ framer.body packet = framer.syncWord ++ framer.body packet') :
    packet = packet' := by
  rw [List.append_cancel_left_eq, Framer.body, Framer.body, hlength,
    List.append_cancel_left_eq] at h
  exact h

/-- The contents of a stream in which one item is set. -/
def oneItem (total place : ℕ) : List Byte :=
  (List.range total).map fun i => if i = place then 1 else 0

theorem getElem?_oneItem {total place i : ℕ} (hi : i < total) :
    (oneItem total place)[i]? = some (if i = place then 1 else 0) := by
  rw [oneItem, List.getElem?_map, List.getElem?_range hi]
  rfl

/-- A first packet that does not follow the ones before it is not put out as it should. -/
theorem not_framesTagged_of_not_follows (framer : Framer) (hj : j < layout.tags.length)
    (hfollow : ∀ (i : ℕ) (hi : i < j), layout.Follows i (hi.trans hj))
    (hgap : ¬layout.Follows j hj) : ¬framer.FramesTagged layout := by
  intro hframes
  obtain ⟨hinside, hend⟩ := layout.inside layout.tags[j] (List.getElem_mem hj)
  have hle := Layout.itemsBefore_le hj hfollow
  have hitems : (oneItem layout.total (layout.itemsBefore j)).length = layout.total := by
    rw [oneItem, List.length_map, List.length_range]
  have hreached := reached_ampleCalls framer hitems hj.le hfollow
  have hnext := hreached.next hj hfollow
  by_cases hempty : layout.tags[j].2 = 0
  · have hprefix := (hframes _ hitems (List.replicate j (framer.ampleCall layout) ++
      List.replicate (layout.tags.length + 1) (framer.ampleCall layout))).1.length_le
    rw [Framer.output, List.length_map, run_append, List.length_append,
      run_empty hnext hempty hitems, Framer.length_expected] at hprefix
    simp only at hprefix
    omega
  · obtain ⟨-, hout⟩ := step_ampleCall framer hnext hitems
    have hprefix := (hframes _ hitems
      (List.replicate j (framer.ampleCall layout) ++ [framer.ampleCall layout])).1
    rw [Framer.output, run_append, run_singleton, List.map_append, hreached.out, hout,
      List.prefix_iff_eq_take, List.length_append, List.length_take, List.length_singleton,
      Framer.length_expected, Nat.min_eq_left hj.le, Framer.take_expected_succ hj,
      List.append_cancel_left_eq, List.cons.injEq] at hprefix
    have hpacket := body_injective
      (by simp only [List.length_take, List.length_drop, hreached.read, hitems]; omega) hprefix.1
    have hhead := congrArg (fun packet : List Byte => packet[0]?) hpacket
    simp only [List.getElem?_take_of_lt (Nat.pos_of_ne_zero hempty), List.getElem?_drop,
      Nat.add_zero, hreached.read, getElem?_oneItem (hle.trans_lt hinside),
      getElem?_oneItem hinside] at hhead
    have hne : layout.tags[j].1 ≠ layout.itemsBefore j := fun h =>
      hgap ⟨h, Nat.pos_of_ne_zero hempty⟩
    rw [if_pos trivial, if_neg hne] at hhead
    exact absurd hhead (by decide)

/-- **Tagged packets.** The framer frames the tagged packets of a stream, whatever its contents
and the calls are, exactly when there is no gap before a packet and no packet is empty. -/
theorem framesTagged_iff (framer : Framer) (layout : Layout) :
    framer.FramesTagged layout ↔ layout.Gapless := by
  refine ⟨fun hframes => ?_, fun hgapless => hgapless.framesTagged framer⟩
  by_contra hgap
  have hexists : ∃ j, ∃ hj : j < layout.tags.length, ¬layout.Follows j hj := by
    simpa only [Layout.Gapless, not_forall] using hgap
  classical
  obtain ⟨hj, hfirst⟩ := Nat.find_spec hexists
  refine not_framesTagged_of_not_follows framer hj (fun i hi => ?_) hfirst hframes
  by_contra hbad
  exact Nat.find_min hexists hi ⟨hi.trans hj, hbad⟩

/-- Eight items without a tag, and a packet of eight items. -/
def gapLayout : Layout where
  tags := [(8, 8)]
  total := 16
  disjoint := List.pairwise_singleton _ _
  inside := by decide

/-- The framer makes a packet of the items before the tag. -/
theorem not_framesTagged_gap :
    ¬∀ (framer : Framer) (layout : Layout), framer.FramesTagged layout := by
  intro h
  have hprefix := (h (.make ⟨32, .msbFirst, false⟩ []) gapLayout
    (List.replicate 8 0 ++ List.replicate 8 1) rfl [⟨40, 16⟩]).1
  revert hprefix
  decide

end GrSatellites.VarlenPacket
