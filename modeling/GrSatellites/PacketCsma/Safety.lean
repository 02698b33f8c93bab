import GrSatellites.PacketCsma.Model

/-!
# Safety of the CSMA block

The counter of the block is the number of items left of the packet in progress. A call
that starts within a packet reaches the next packet only after the end of this one.
-/

namespace GrSatellites.PacketCsma

open TaggedStream

variable {α : Type}

theorem numPropagate_le (backToBackPriority : Bool) (s : CsmaState) (items : ℕ) :
    numPropagate backToBackPriority s items ≤ items := by
  unfold numPropagate
  split_ifs <;> omega

/-- The arithmetic of the last tag, in 64-bit words. -/
theorem toNat_remaining {offset length nitems num left : ℕ} (hleft : left < 2 ^ 64)
    (h : left + (nitems + num) = offset + length) :
    (BitVec.ofNat 64 offset + BitVec.ofNat 64 length -
      (BitVec.ofNat 64 nitems + BitVec.ofNat 64 num)).toNat = left := by
  have hsum : BitVec.ofNat 64 offset + BitVec.ofNat 64 length =
      BitVec.ofNat 64 left + (BitVec.ofNat 64 nitems + BitVec.ofNat 64 num) := by
    rw [← BitVec.ofNat_add, ← BitVec.ofNat_add, ← BitVec.ofNat_add, h]
  rw [hsum, BitVec.add_sub_cancel, BitVec.toNat_ofNat, Nat.mod_eq_of_lt hleft]

/-- Items propagated from a well-formed window: the block does not throw, copies them and
counts what is left of the packet in progress after them. -/
theorem propagate_ok (nitems : ℕ) {num : ℕ} {input : List (TaggedItem α)} {s : CsmaState}
    (hnum : num ≤ input.length) (hinput : WellFormed s.remainingItems.toNat (input.take num))
    (hleft : itemsLeft s.remainingItems.toNat (input.take num) < 2 ^ 64) :
    ∃ t, propagate nitems num input s = .ok (t, input.take num) ∧
      t.remainingItems.toNat = itemsLeft s.remainingItems.toNat (input.take num) := by
  have hlength : (input.take num).length = num := by
    rw [List.length_take]
    omega
  have hcount := hinput.itemsLeft_eq nitems
  unfold propagate
  cases htag : (tagsFrom nitems (input.take num)).getLast? with
  | some tag =>
    obtain ⟨offset, length⟩ := tag
    rw [htag] at hcount
    simp only [hlength] at hcount
    exact ⟨_, rfl, toNat_remaining hleft hcount⟩
  | none =>
    rw [htag] at hcount
    simp only [hlength] at hcount
    have hle : ¬ s.remainingItems.toNat < num := by omega
    have hlt := s.remainingItems.isLt
    have hmod : (BitVec.ofNat 64 num).toNat = num := by
      rw [BitVec.toNat_ofNat, Nat.mod_eq_of_lt (by omega)]
    refine ⟨_, if_neg hle, ?_⟩
    rw [BitVec.toNat_sub_of_le (by rw [BitVec.le_def, hmod]; omega), hmod]
    omega

/-! ## Runs -/

/-- The invariant: the output is what has been read, and the counter is the number of
items left of the packet in progress. -/
structure Inv (packets : List (List α)) (s : System α) : Prop where
  output_eq : s.output = (stream packets).take s.nitems
  remaining_eq : s.block.remainingItems.toNat = itemsLeft 0 ((stream packets).take s.nitems)

theorem leftInPacket_lt {lengths : List ℕ} {bound : ℕ} (hpos : 0 < bound)
    (hbound : ∀ n ∈ lengths, n < bound) (position : ℕ) : leftInPacket lengths position < bound := by
  induction lengths generalizing position with
  | nil => exact hpos
  | cons n lengths ih =>
    have hn := hbound n List.mem_cons_self
    have hrest := ih (fun m hm => hbound m (List.mem_cons_of_mem n hm)) (position - n)
    rw [leftInPacket]
    split_ifs <;> omega

theorem step_work_eq (backToBackPriority : Bool) (input : List (TaggedItem α)) (s : System α)
    (noutputItems ninputItems : ℕ) :
    step backToBackPriority input s (.work noutputItems ninputItems) =
      match propagate s.nitems (numPropagate backToBackPriority s.block
        (min noutputItems ((input.drop s.nitems).take ninputItems).length))
          ((input.drop s.nitems).take ninputItems) s.block with
      | .error e => .error e
      | .ok (block, produced) => .ok ⟨block, s.nitems + produced.length, s.output ++ produced⟩ := rfl

section Step

variable {packets : List (List α)} {s : System α} (hbound : ∀ p ∈ packets, p.length < 2 ^ 64)

/-- The items after the read position, as far as a window reaches, are well formed. -/
theorem wellFormed_window (h : Inv packets s) (num : ℕ) :
    WellFormed s.block.remainingItems.toNat (((stream packets).drop s.nitems).take num) := by
  have hall := wellFormed_stream packets
  rw [← List.take_append_drop s.nitems (stream packets), wellFormed_append, ← h.remaining_eq,
    ← List.take_append_drop num ((stream packets).drop s.nitems), wellFormed_append] at hall
  exact hall.2.1

/-- The items that a call may copy are those of the stream after the read position. -/
theorem take_window {ninputItems num : ℕ}
    (hnum : num ≤ (((stream packets).drop s.nitems).take ninputItems).length) :
    (((stream packets).drop s.nitems).take ninputItems).take num =
      ((stream packets).drop s.nitems).take num := by
  rw [List.length_take] at hnum
  rw [List.take_take, Nat.min_eq_left (by omega)]

include hbound in
/-- **One call in the flowgraph.** A call copies the number of items that may be
propagated, keeps the invariant and does not throw. -/
theorem step_work (backToBackPriority : Bool) (h : Inv packets s) (noutputItems ninputItems : ℕ) :
    ∃ t, step backToBackPriority (stream packets) s (.work noutputItems ninputItems) = .ok t ∧
      Inv packets t ∧
      t.nitems = s.nitems + numPropagate backToBackPriority s.block
        (min noutputItems (((stream packets).drop s.nitems).take ninputItems).length) := by
  have hnum := (numPropagate_le backToBackPriority s.block
    (min noutputItems (((stream packets).drop s.nitems).take ninputItems).length)).trans
      (Nat.min_le_right _ _)
  rw [step_work_eq]
  generalize numPropagate backToBackPriority s.block
    (min noutputItems (((stream packets).drop s.nitems).take ninputItems).length) = num at hnum ⊢
  have htake := take_window hnum
  have hafter : itemsLeft s.block.remainingItems.toNat (((stream packets).drop s.nitems).take num) =
      itemsLeft 0 ((stream packets).take (s.nitems + num)) := by
    rw [List.take_add, itemsLeft_append, h.remaining_eq]
  have hleft : itemsLeft s.block.remainingItems.toNat
      (((stream packets).drop s.nitems).take num) < 2 ^ 64 := by
    rw [hafter, itemsLeft_take_stream]
    refine leftInPacket_lt (by norm_num) ?_ _
    rintro n hn
    obtain ⟨p, hp, rfl⟩ := List.mem_map.mp hn
    exact hbound p hp
  obtain ⟨block, hblock, hremaining⟩ := propagate_ok s.nitems hnum
    (htake ▸ wellFormed_window h num) (htake ▸ hleft)
  rw [htake] at hblock hremaining
  have hlength : (((stream packets).drop s.nitems).take num).length = num := by
    rw [← htake, List.length_take]
    omega
  refine ⟨⟨block, s.nitems + num, s.output ++ ((stream packets).drop s.nitems).take num⟩, ?_, ⟨?_, ?_⟩,
    rfl⟩
  · rw [hblock]
    simp only [hlength]
  · rw [List.take_add, h.output_eq]
  · rw [hremaining, hafter]

/-- A call that sees carrier sense copies the first item of a packet only after items of
the packet before it, and only with priority for back-to-back packets. -/
theorem start_of_carrierSense {backToBackPriority : Bool} (h : Inv packets s)
    (hne : ∀ p ∈ packets, p ≠ []) (hcarrier : s.block.carrierSense = true) {items k : ℕ}
    (hk : IsStart packets k) (hlow : s.nitems ≤ k)
    (hhigh : k < s.nitems + numPropagate backToBackPriority s.block items) :
    backToBackPriority = true ∧ s.nitems < k := by
  obtain ⟨x, n, htag⟩ := hk.exists_tag hne
  have hall : WellFormed s.block.remainingItems.toNat ((stream packets).drop s.nitems) := by
    have hstream := wellFormed_stream packets
    rw [← List.take_append_drop s.nitems (stream packets), wellFormed_append, ← h.remaining_eq]
      at hstream
    exact hstream.2
  have hreach : s.block.remainingItems.toNat ≤ k - s.nitems := by
    refine hall.le_of_tag (i := k - s.nitems) (x := x) (n := n) ?_
    rw [List.getElem?_drop, Nat.add_sub_cancel' hlow, htag]
  unfold numPropagate at hhigh
  rw [if_pos hcarrier] at hhigh
  by_cases hzero : s.block.remainingItems = 0
  · rw [if_pos hzero] at hhigh
    omega
  · have hpos : 0 < s.block.remainingItems.toNat := by
      refine Nat.pos_of_ne_zero fun hnat => hzero (BitVec.eq_of_toNat_eq ?_)
      rw [hnat]
      rfl
    rw [if_neg hzero] at hhigh
    cases backToBackPriority with
    | true => exact ⟨rfl, by omega⟩
    | false =>
      rw [if_neg (by simp)] at hhigh
      omega

end Step

/-- **Safety.** For a stream of packets and any sequence of calls and messages: the output
is a prefix of the input with its tags, the counter is the number of items left of the
packet in progress, and the next call does not throw. If it sees carrier sense, it copies
the first item of a packet only when back-to-back packets have priority and it also
copies the item before, the end of the preceding packet. -/
theorem packetCsma_safe (backToBackPriority : Bool) (packets : List (List α))
    (hpackets : ∀ p ∈ packets, p ≠ [] ∧ p.length < 2 ^ 64) (events : List Event) :
    ∃ s, runEvents backToBackPriority (stream packets) .init events = .ok s ∧
      s.output = (stream packets).take s.nitems ∧
      s.block.remainingItems.toNat = leftInPacket (packets.map List.length) s.nitems ∧
      ∀ noutputItems ninputItems, ∃ t,
        step backToBackPriority (stream packets) s (.work noutputItems ninputItems) = .ok t ∧
        (s.block.carrierSense = true → ∀ k, IsStart packets k → s.nitems ≤ k → k < t.nitems →
          backToBackPriority = true ∧ s.nitems < k) := by
  have hbound : ∀ p ∈ packets, p.length < 2 ^ 64 := fun p hp => (hpackets p hp).2
  have hrun : ∃ s, runEvents backToBackPriority (stream packets) .init events = .ok s ∧
      Inv packets s := by
    induction events using List.reverseRecOn with
    | nil => exact ⟨.init, rfl, ⟨rfl, rfl⟩⟩
    | append_singleton events event ih =>
      obtain ⟨s, hs, hinv⟩ := ih
      have hlast : runEvents backToBackPriority (stream packets) .init (events ++ [event]) =
          step backToBackPriority (stream packets) s event := by
        rw [runEvents, List.foldlM_append, ← runEvents, hs]
        simp only [List.foldlM_cons, List.foldlM_nil, bind_pure]
        rfl
      rw [hlast]
      cases event with
      | carrierSense msg => exact ⟨_, rfl, ⟨hinv.output_eq, hinv.remaining_eq⟩⟩
      | work noutputItems ninputItems =>
        obtain ⟨t, ht, hnext, -⟩ := step_work hbound backToBackPriority hinv noutputItems ninputItems
        exact ⟨t, ht, hnext⟩
  obtain ⟨s, hs, hinv⟩ := hrun
  refine ⟨s, hs, hinv.output_eq, ?_, ?_⟩
  · rw [hinv.remaining_eq, itemsLeft_take_stream]
  · rintro noutputItems ninputItems
    obtain ⟨t, ht, -, hnitems⟩ := step_work hbound backToBackPriority hinv noutputItems ninputItems
    refine ⟨t, ht, fun hcarrier k hk hlow hhigh => ?_⟩
    exact start_of_carrierSense hinv (fun p hp => (hpackets p hp).1) hcarrier hk hlow
      (hnitems ▸ hhigh)

/-- Two packets, when carrier sense is seen after the first item. -/
theorem packetCsma_safe_two_packets :
    ∃ s, runEvents true (stream [[1, 2], [3]]) .init [.work 1 9, .carrierSense true] = .ok s ∧
      s.output = (stream [[1, 2], [3]]).take s.nitems ∧
      s.block.remainingItems.toNat = leftInPacket [2, 1] s.nitems ∧
      ∀ noutputItems ninputItems, ∃ t,
        step true (stream [[1, 2], [3]]) s (.work noutputItems ninputItems) = .ok t ∧
        (s.block.carrierSense = true → ∀ k, IsStart [[1, 2], [3]] k → s.nitems ≤ k →
          k < t.nitems → true = true ∧ s.nitems < k) :=
  packetCsma_safe true [[1, 2], [3]] (by simp) _

end GrSatellites.PacketCsma
