import GrSatellites.Fixedlen.Packing

/-!
# One call of `work`

A call publishes the packets that end in its input, keeps the ones that end later, and
moves the history on. It does so for the packets left from earlier calls and for those
with a sync tag in its input alike.
-/

namespace GrSatellites.Fixedlen.FixedlenToPdu

open Bits RingBuffer

variable (b : FixedlenToPdu)

/-! ## What the tags ask for -/

/-- The effective length of the packet of a sync tag: the length tag there, if any, but no
more than the packet length. -/
def effectiveLength (tags : List Tag) : ℕ :=
  match b.lengthTag tags with
  | none => b.packetLen
  | some tag =>
    match tag.value.toLength with
    | .ok length => min length b.packetLen
    | .error _ => b.packetLen

/-- A length tag next to a sync tag is an integer, and the effective length is an `int`. -/
def LengthsOk (items : List (Item b.itemsize)) : Prop :=
  ∀ item ∈ items, (∃ tag ∈ item.tags, tag.key = b.syncwordTag) →
    (∀ tag, b.lengthTag item.tags = some tag → tag.value ≠ .other) ∧
      b.effectiveLength item.tags < 2 ^ 31

/-- The sync tags of some items, each with its position and the effective length there. The
first item has the given position. -/
def syncTags (offset : ℕ) : List (Item b.itemsize) → List (ℕ × ℕ)
  | [] => []
  | item :: items =>
    (item.tags.filter fun tag => tag.key = b.syncwordTag).map
        (fun _ => (offset, b.effectiveLength item.tags)) ++ syncTags (offset + 1) items

/-- The PDU for a sync tag. -/
def pdu (stream : List (Item b.itemsize)) (tag : ℕ × ℕ) : List Byte :=
  if b.pack then packMsb ((contents stream tag.1 tag.2).map lowBit)
  else contents stream tag.1 tag.2

/-- The packet of a sync tag ends within the first items of the stream. -/
abbrev EndsBy (n : ℕ) (tag : ℕ × ℕ) : Prop := tag.1 + tag.2 ≤ n

/-- The `packet_info` for a sync tag. -/
def toInfo (tag : ℕ × ℕ) : PacketInfo := ⟨tag.1, tag.2⟩

variable {b}

theorem effectiveLength_le (tags : List Tag) : b.effectiveLength tags ≤ b.packetLen := by
  unfold effectiveLength
  split
  · exact le_refl _
  · split
    · exact Nat.min_le_right _ _
    · exact le_refl _

theorem syncTags_append (offset : ℕ) (xs ys : List (Item b.itemsize)) :
    b.syncTags offset (xs ++ ys) = b.syncTags offset xs ++ b.syncTags (offset + xs.length) ys := by
  induction xs generalizing offset with
  | nil => rfl
  | cons item xs ih =>
    rw [List.cons_append, syncTags, ih, syncTags, List.append_assoc, List.length_cons,
      Nat.add_assoc, Nat.add_comm 1]

/-- A sync tag belongs to one of the items, and its packet is not too long. -/
theorem mem_syncTags {offset : ℕ} {items : List (Item b.itemsize)} {tag : ℕ × ℕ}
    (h : tag ∈ b.syncTags offset items) :
    offset ≤ tag.1 ∧ tag.1 < offset + items.length ∧ tag.2 ≤ b.packetLen := by
  induction items generalizing offset with
  | nil => cases h
  | cons item items ih =>
    rw [syncTags, List.mem_append] at h
    rcases h with h | h
    · obtain ⟨_, _, rfl⟩ := List.mem_map.mp h
      exact ⟨le_refl _, by simp, effectiveLength_le _⟩
    · obtain ⟨hlow, hhigh, hlength⟩ := ih h
      rw [List.length_cons]
      exact ⟨by omega, by omega, hlength⟩

theorem toInt_of_lt {n : ℕ} (h : n < 2 ^ 31) : toInt n = n := by
  refine Int.bmod_eq_of_le ?_ ?_ <;> omega

/-- The `packet_info` has the effective length. -/
theorem packetInfo_eq {tags : List Tag}
    (hint : ∀ tag, b.lengthTag tags = some tag → tag.value ≠ .other)
    (hlength : b.effectiveLength tags < 2 ^ 31) (offset : ℕ) :
    b.packetInfo offset tags = .ok (toInfo (offset, b.effectiveLength tags)) := by
  unfold packetInfo effectiveLength at *
  cases htag : b.lengthTag tags with
  | none =>
    rw [htag] at hlength
    simp only at hlength ⊢
    rw [toInt_of_lt hlength]
    rfl
  | some tag =>
    obtain ⟨length, hvalue⟩ : ∃ length, tag.value.toLength = .ok length := by
      have hne := hint tag htag
      cases hcase : tag.value with
      | uint64 n => exact ⟨n.toNat, rfl⟩
      | long n => exact ⟨n.toNat, rfl⟩
      | other => exact absurd hcase hne
    rw [htag] at hlength
    simp only [hvalue] at hlength ⊢
    rw [ok_bind]
    by_cases hlt : b.packetLen < length
    · rw [Nat.min_eq_right hlt.le] at hlength ⊢
      rw [if_pos hlt, toInt_of_lt hlength]
      rfl
    · rw [Nat.min_eq_left (Nat.not_lt.mp hlt)] at hlength ⊢
      rw [if_neg hlt, toInt_of_lt hlength]
      rfl

theorem mapM_const {α β : Type} (xs : List α) (y : β) :
    (xs.mapM fun _ => (.ok y : Except CxxError β)) = .ok (xs.map fun _ => y) := by
  induction xs with
  | nil => rfl
  | cons x xs ih => rw [List.mapM_cons, ok_bind, ih, ok_bind]; rfl

/-- **The tags in the input.** Each sync tag gives a `packet_info`, in their order. -/
theorem newPacketInfos_eq {items : List (Item b.itemsize)} (hlengths : b.LengthsOk items)
    (offset : ℕ) :
    b.newPacketInfos offset items = .ok ((b.syncTags offset items).map toInfo) := by
  induction items generalizing offset with
  | nil => rfl
  | cons item items ih =>
    have hmore := ih (fun x hx => hlengths x (List.mem_cons_of_mem _ hx)) (offset + 1)
    rw [newPacketInfos, hmore, syncTags]
    cases hsync : item.tags.filter (fun tag => tag.key = b.syncwordTag) with
    | nil => rfl
    | cons tag tags =>
      have hmem : tag ∈ item.tags.filter fun tag => tag.key = b.syncwordTag := by
        rw [hsync]
        exact List.mem_cons_self
      obtain ⟨htag, hkey⟩ := List.mem_filter.mp hmem
      obtain ⟨hint, hlength⟩ :=
        hlengths item List.mem_cons_self ⟨tag, htag, of_decide_eq_true hkey⟩
      rw [packetInfo_eq hint hlength, mapM_const, ok_bind, ok_bind, List.map_append, List.map_map]
      rfl

/-! ## Publishing -/

section Publishing

variable {stream : List (Item b.itemsize)} {s : State}

/-- The packet buffer may hold anything. -/
theorem Holds.with_packet (h : b.Holds stream s) {packet : List Byte}
    (hpacket : packet.length = s.packet.length) : b.Holds stream { s with packet } :=
  ⟨h.length_history, hpacket.trans h.length_packet, h.writePtr_le, h.writePtrByte_eq,
    h.recent_history⟩

/-- The packets that are kept do not matter to the buffers. -/
theorem Holds.with_packetInfos (h : b.Holds stream s) (packetInfos : List PacketInfo) :
    b.Holds stream { s with packetInfos } :=
  ⟨h.length_history, h.length_packet, h.writePtr_le, h.writePtrByte_eq, h.recent_history⟩

theorem makePduVector_eq {packet data : List Byte} {items : ℕ} (hdata : data <+: packet)
    (hlength : data.length = items * b.itemsize) : b.makePduVector packet items = .ok data := by
  have hle := hdata.length_le
  rw [makePduVector, if_pos (by omega), ← hlength, ← List.prefix_iff_eq_take.mp hdata]

/-- **One PDU.** A packet that ends in the current input, and is not too old, is published. -/
theorem publish_spec (h : b.Holds stream s) (chunk : List (Item b.itemsize)) {tag : ℕ × ℕ}
    (hend : EndsBy (stream.length + chunk.length) tag) (hlength : tag.2 ≤ b.packetLen)
    (hold : stream.length ≤ tag.1 + (b.packetLen - 1)) :
    ∃ packet, b.publish s stream.length (bytesOf chunk) (toInfo tag) =
      .ok (packet, b.pdu (stream ++ chunk) tag) ∧ packet.length = s.packet.length := by
  obtain ⟨offset, length⟩ := tag
  obtain ⟨packet, hcopy, hsame, hpre⟩ := copyPacket_spec h chunk hend hlength hold
  have hcontents : (contents (stream ++ chunk) offset length).length = length * b.itemsize :=
    length_contents (by rwa [List.length_append])
  have hneg : ¬ ((length : ℤ) < 0) := Int.not_lt.mpr (Int.natCast_nonneg length)
  unfold publish toInfo pdu
  simp only [if_neg hneg, Int.toNat_natCast, hcopy, ok_bind]
  by_cases hpack : b.pack = true
  · have hone : b.itemsize = 1 := by rw [itemsize, b.pack_type hpack]; rfl
    have hbits : (contents (stream ++ chunk) offset length).length = length := by
      rw [hcontents, hone, Nat.mul_one]
    obtain ⟨packet', hpacked, hsame', hpre'⟩ := packPacket_spec hpre
    rw [hbits] at hpacked
    have hvector : b.makePduVector packet' (length / 8) = .ok _ := makePduVector_eq hpre'
      (by rw [length_packMsb, List.length_map, hbits, hone, Nat.mul_one])
    refine ⟨packet', ?_, hsame'.trans hsame⟩
    simp only [hpack, if_true, hpacked, ok_bind, hvector]
    rfl
  · have hvector := makePduVector_eq hpre hcontents
    refine ⟨packet, ?_, hsame⟩
    simp only [hpack]
    exact congrArg (· >>= fun pdu => pure (packet, pdu)) hvector

/-- **The loop over the packets.** The PDUs are those of the sync tags whose packets end in
the current input, in the order of the tags, and the other packets are kept in this order. -/
theorem handleInfos_spec (chunk : List (Item b.itemsize)) {tags : List (ℕ × ℕ)}
    (htags : ∀ tag ∈ tags, tag.2 ≤ b.packetLen ∧ stream.length ≤ tag.1 + (b.packetLen - 1))
    (h : b.Holds stream s) :
    ∃ s', b.handleInfos stream.length (bytesOf chunk) chunk.length s (tags.map toInfo) =
        .ok (s', (tags.filter (EndsBy (stream.length + chunk.length))).map (b.pdu (stream ++ chunk)),
          (tags.filter fun tag => ¬ EndsBy (stream.length + chunk.length) tag).map toInfo) ∧
      b.Holds stream s' := by
  induction tags generalizing s with
  | nil => exact ⟨s, rfl, h⟩
  | cons tag tags ih =>
    obtain ⟨hlength, hold⟩ := htags tag List.mem_cons_self
    have hmore := fun tag htag => htags tag (List.mem_cons_of_mem _ htag)
    have hends : (0 ≤ ((toInfo tag).offset : ℤ) + (toInfo tag).length ∧
        ((toInfo tag).offset : ℤ) + (toInfo tag).length ≤ stream.length + chunk.length) ↔
          EndsBy (stream.length + chunk.length) tag := by
      simp only [toInfo, EndsBy]
      omega
    rw [List.map_cons, handleInfos]
    by_cases hend : EndsBy (stream.length + chunk.length) tag
    · obtain ⟨packet, hpublish, hpacket⟩ := publish_spec h chunk hend hlength hold
      obtain ⟨s', hloop, hholds⟩ := ih hmore (h.with_packet hpacket)
      refine ⟨s', ?_, hholds⟩
      rw [if_pos (hends.mpr hend), hpublish, ok_bind]
      simp only [hloop, ok_bind]
      rw [List.filter_cons_of_pos (by simpa using hend), List.filter_cons_of_neg (by simpa using hend)]
      rfl
    · obtain ⟨s', hloop, hholds⟩ := ih hmore h
      refine ⟨s', ?_, hholds⟩
      rw [if_neg fun hin => hend (hends.mp hin), hloop, ok_bind, List.filter_cons_of_neg
        (by simpa using hend), List.filter_cons_of_pos (by simpa using hend)]
      rfl

end Publishing

/-! ## The history -/

section History

variable {stream : List (Item b.itemsize)} {s : State}

theorem itemsize_pos (b : FixedlenToPdu) : 0 < b.itemsize := by
  rw [itemsize]
  cases b.type <;> decide

/-- The part of the input that goes into the history: where it starts, its size in bytes and
in items. -/
def newest (b : FixedlenToPdu) (s : State) (noutputItems : ℕ) : ℕ × ℕ × ℕ :=
  if b.packetLen - 1 < noutputItems then
    ((noutputItems - (b.packetLen - 1)) * b.itemsize, s.history.length, b.packetLen - 1)
  else (0, noutputItems * b.itemsize, noutputItems)

theorem newest_spec (h : b.Holds stream s) (chunk : List (Item b.itemsize)) :
    ∃ start lenItems, b.newest s chunk.length = (start, lenItems * b.itemsize, lenItems) ∧
      lenItems ≤ b.packetLen - 1 ∧ start + lenItems * b.itemsize = (bytesOf chunk).length ∧
      (recent s.history s.writePtrByte ++ (bytesOf chunk).drop start).drop (lenItems * b.itemsize) =
        lastItems (List.replicate ((b.packetLen - 1) * b.itemsize) 0) (bytesOf (stream ++ chunk)) := by
  have hinput := length_bytesOf chunk
  rw [bytesOf_append, lastItems_append, ← h.recent_history]
  have hrecent := length_recent s.history s.writePtrByte
  rw [h.length_history] at hrecent
  unfold newest
  by_cases hlong : b.packetLen - 1 < chunk.length
  · have hle : (b.packetLen - 1) * b.itemsize ≤ (bytesOf chunk).length := by
      rw [hinput]
      exact Nat.mul_le_mul_right _ hlong.le
    refine ⟨(chunk.length - (b.packetLen - 1)) * b.itemsize, b.packetLen - 1, ?_, le_refl _, ?_, ?_⟩
    · rw [if_pos hlong, h.length_history]
    · rw [hinput, ← Nat.add_mul, Nat.sub_add_cancel hlong.le]
    · rw [drop_append_of_long (by omega), hrecent, hinput, ← hrecent,
        List.drop_left, Nat.sub_mul, hrecent]
  · refine ⟨0, chunk.length, by rw [if_neg hlong], Nat.not_lt.mp hlong, ?_, ?_⟩
    · rw [hinput, Nat.zero_add]
    · rw [List.drop_zero, hinput]

/-- **The history moves on.** It holds the last items of the longer stream. -/
theorem updateHistory_spec (h : b.Holds stream s) (chunk : List (Item b.itemsize)) :
    ∃ s', b.updateHistory s (bytesOf chunk) chunk.length = .ok s' ∧
      b.Holds (stream ++ chunk) s' ∧ s'.packetInfos = s.packetInfos := by
  obtain ⟨start, lenItems, hnewest, hle, hstart, hrecent⟩ := newest_spec h chunk
  have hbyte := h.writePtrByte_le
  have hptr := h.writePtr_le
  have hhistory := h.length_history
  have hlenle : lenItems * b.itemsize ≤ s.history.length := by
    rw [hhistory]
    exact Nat.mul_le_mul_right _ hle
  unfold updateHistory
  unfold newest at hnewest
  simp only [hnewest]
  generalize hdata : (bytesOf chunk).drop start = data at hrecent
  have hlength : data.length = lenItems * b.itemsize := by
    rw [← hdata, List.length_drop]
    omega
  by_cases hfit : s.writePtrByte + lenItems * b.itemsize ≤ s.history.length
  · have hall : ((bytesOf chunk).drop start).take (lenItems * b.itemsize) = data := by
      rw [hdata, ← hlength, List.take_length]
    have hwrite := recent_overwrite (by rwa [hlength] : s.writePtrByte + data.length ≤ s.history.length)
    have hsame := length_overwrite (by rwa [hlength] : s.writePtrByte + data.length ≤ s.history.length)
    rw [hlength] at hwrite
    simp only [if_pos hfit, lt_irrefl, if_false]
    rw [memcpy_eq hfit (by omega), hall, ok_bind]
    by_cases hwrap : s.writePtrByte + lenItems * b.itemsize = s.history.length
    · rw [if_pos hwrap]
      refine ⟨_, rfl, ⟨hsame.trans hhistory, h.length_packet, Nat.zero_le _, (Nat.zero_mul _).symm, ?_⟩,
        rfl⟩
      rw [hwrap, ← hsame, recent_length] at hwrite
      exact hwrite.trans hrecent
    · rw [if_neg hwrap]
      refine ⟨_, rfl, ⟨hsame.trans hhistory, h.length_packet, ?_, ?_, hwrite.trans hrecent⟩, rfl⟩
      · refine Nat.le_of_mul_le_mul_right ?_ b.itemsize_pos
        rw [Nat.add_mul, ← h.writePtrByte_eq, ← hhistory]
        exact hfit
      · rw [h.writePtrByte_eq, Nat.add_mul]
  · have hsplit : s.writePtrByte + (s.history.length - s.writePtrByte) = s.history.length := by omega
    have hshort : s.history.length - s.writePtrByte < lenItems * b.itemsize := by omega
    have hitems : s.history.length - s.writePtrByte =
        (b.packetLen - 1 - s.writePtrItem) * b.itemsize := by
      rw [hhistory, h.writePtrByte_eq, ← Nat.sub_mul]
    have hwrite := recent_overwrite_wrap hbyte hsplit (by omega) (by omega : data.length ≤ _)
    simp only [if_neg hfit]
    generalize s.history.length - s.writePtrByte = len2 at *
    have hfirst : ((bytesOf chunk).drop start).take len2 = data.take len2 := by rw [hdata]
    have hsecond : ((bytesOf chunk).drop (start + len2)).take (lenItems * b.itemsize - len2) =
        data.drop len2 := by
      rw [← List.drop_drop, hdata, ← hlength, ← List.length_drop, List.take_length]
    have htake : (data.take len2).length = len2 := List.length_take_of_le (by omega)
    have hsame := length_overwrite (by rw [htake]; exact hsplit.le :
      s.writePtrByte + (data.take len2).length ≤ s.history.length)
    have hsame' := length_overwrite (by rw [Nat.zero_add, List.length_drop, hsame]; omega :
      0 + (data.drop len2).length ≤ (overwrite s.history s.writePtrByte (data.take len2)).length)
    rw [memcpy_eq hsplit.le (by omega), hfirst, ok_bind, if_pos hshort, memcpy_eq (by omega) (by omega),
      hsecond, ok_bind]
    rw [hlength] at hwrite
    refine ⟨_, rfl, ⟨(hsame'.trans hsame).trans hhistory, h.length_packet, ?_, ?_,
      hwrite.trans hrecent⟩, rfl⟩
    · exact (Nat.sub_le _ _).trans hle
    · simp only [hitems, Nat.sub_mul]

end History

end GrSatellites.Fixedlen.FixedlenToPdu
