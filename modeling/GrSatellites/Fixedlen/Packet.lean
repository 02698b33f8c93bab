import GrSatellites.Fixedlen.Model
import GrSatellites.Library.BitStruct

/-!
# One packet

Between two calls, the history holds the last items of the stream. With it, a packet that
ends in the current input is put together in the packet buffer, wherever it starts, and
packing writes over the bytes that it has read.
-/

namespace GrSatellites.Fixedlen

open Bits RingBuffer

/-! ## Bytes of items -/

section Bytes

variable {size : ℕ}

theorem length_bytesOf (items : List (Item size)) : (bytesOf items).length = items.length * size := by
  induction items with
  | nil => simp [bytesOf]
  | cons item items ih =>
    rw [bytesOf, List.flatMap_cons, List.length_append, item.length_bytes, ← bytesOf, ih,
      List.length_cons, Nat.succ_mul, Nat.add_comm]

theorem bytesOf_append (xs ys : List (Item size)) : bytesOf (xs ++ ys) = bytesOf xs ++ bytesOf ys :=
  List.flatMap_append

theorem drop_bytesOf (items : List (Item size)) {k : ℕ} (hk : k ≤ items.length) :
    (bytesOf items).drop (k * size) = bytesOf (items.drop k) := by
  have hlength : (bytesOf (items.take k)).length = k * size := by
    rw [length_bytesOf, List.length_take_of_le hk]
  conv_lhs => rw [← List.take_append_drop k items, bytesOf_append]
  exact List.drop_left' hlength

theorem take_bytesOf (items : List (Item size)) {k : ℕ} (hk : k ≤ items.length) :
    (bytesOf items).take (k * size) = bytesOf (items.take k) := by
  have hlength : (bytesOf (items.take k)).length = k * size := by
    rw [length_bytesOf, List.length_take_of_le hk]
  conv_lhs => rw [← List.take_append_drop k items, bytesOf_append]
  exact List.take_left' hlength

end Bytes

/-- The bytes of the items from a position on. -/
def contents {size : ℕ} (stream : List (Item size)) (offset length : ℕ) : List Byte :=
  bytesOf ((stream.drop offset).take length)

/-- Within the stream, the contents are a slice of its bytes. -/
theorem contents_eq {size : ℕ} {stream : List (Item size)} {offset length : ℕ}
    (hend : offset + length ≤ stream.length) :
    contents stream offset length =
      ((bytesOf stream).drop (offset * size)).take (length * size) := by
  have hle : length ≤ (stream.drop offset).length := by
    rw [List.length_drop]
    omega
  rw [contents, drop_bytesOf stream (by omega), take_bytesOf _ hle]

theorem length_contents {size : ℕ} {stream : List (Item size)} {offset length : ℕ}
    (hend : offset + length ≤ stream.length) :
    (contents stream offset length).length = length * size := by
  rw [contents, length_bytesOf, List.length_take, List.length_drop, Nat.min_eq_left (by omega)]

/-- Items consumed before the packet starts do not matter. -/
theorem contents_append_of_le {size : ℕ} {stream : List (Item size)} {offset : ℕ}
    (hoffset : stream.length ≤ offset) (chunk : List (Item size)) (length : ℕ) :
    contents (stream ++ chunk) offset length = contents chunk (offset - stream.length) length := by
  rw [contents, contents, List.drop_append, List.drop_eq_nil_of_le hoffset, List.nil_append]

/-! ## Copying -/

theorem memcpy_eq {dest src : List Byte} {position start len : ℕ}
    (hdest : position + len ≤ dest.length) (hsrc : start + len ≤ src.length) :
    memcpy dest position src start len =
      .ok (overwrite dest position ((src.drop start).take len)) := by
  rw [memcpy, if_pos ⟨hdest, hsrc⟩]

theorem length_slice {src : List Byte} {start len : ℕ} (hsrc : start + len ≤ src.length) :
    ((src.drop start).take len).length = len := by
  rw [List.length_take, List.length_drop]
  omega

/-- **Copying.** What is copied to behind the data at the start of a buffer comes next. -/
theorem memcpy_spec (data : List Byte) {dest src : List Byte} {start len : ℕ} (hdata : data <+: dest)
    (hdest : data.length + len ≤ dest.length) (hsrc : start + len ≤ src.length) :
    ∃ dest', memcpy dest data.length src start len = .ok dest' ∧ dest'.length = dest.length ∧
      data ++ (src.drop start).take len <+: dest' := by
  have hlength := length_slice hsrc
  refine ⟨_, memcpy_eq hdest hsrc, length_overwrite (by omega), ?_⟩
  rw [overwrite, ← List.prefix_iff_eq_take.mp hdata]
  exact List.prefix_append _ _

/-- Copying from the start of a buffer, unless there is nothing left to copy. -/
theorem memcpy_remain {dest src data : List Byte} {position remain : ℕ} (hdata : data <+: dest)
    (hposition : data.length = position) (hdest : position + remain ≤ dest.length)
    (hsrc : remain ≤ src.length) :
    ∃ dest', (if 0 < remain then memcpy dest position src 0 remain else .ok dest) = .ok dest' ∧
      dest'.length = dest.length ∧ data ++ src.take remain <+: dest' := by
  by_cases hremain : 0 < remain
  · subst hposition
    have hall : 0 + remain ≤ src.length := by omega
    obtain ⟨dest', hcopy, hsame, hpre⟩ := memcpy_spec data hdata hdest hall
    exact ⟨dest', by rw [if_pos hremain, hcopy], hsame, hpre⟩
  · refine ⟨dest, if_neg hremain, rfl, ?_⟩
    rwa [Nat.eq_zero_of_not_pos hremain, List.take_zero, List.append_nil]

/-- What is taken of a list is as long as asked if the list is long enough. -/
theorem le_length_of_take {xs : List Byte} {n : ℕ} (h : (xs.take n).length = n) : n ≤ xs.length := by
  rw [List.length_take] at h
  omega

/-! ## The history -/

namespace FixedlenToPdu

variable (b : FixedlenToPdu)

/-- What the buffers hold once some items have been consumed. -/
structure Holds (stream : List (Item b.itemsize)) (s : State) : Prop where
  length_history : s.history.length = (b.packetLen - 1) * b.itemsize
  length_packet : s.packet.length = b.packetLen * b.itemsize
  writePtr_le : s.writePtrItem ≤ b.packetLen - 1
  writePtrByte_eq : s.writePtrByte = s.writePtrItem * b.itemsize
  recent_history : recent s.history s.writePtrByte =
    lastItems (List.replicate ((b.packetLen - 1) * b.itemsize) 0) (bytesOf stream)

theorem holds_init : b.Holds [] b.init where
  length_history := List.length_replicate
  length_packet := List.length_replicate
  writePtr_le := Nat.zero_le _
  writePtrByte_eq := (Nat.zero_mul _).symm
  recent_history := by simp [init, recent, lastItems, bytesOf]

variable {b} {stream : List (Item b.itemsize)} {s : State}

theorem Holds.writePtrByte_le (h : b.Holds stream s) : s.writePtrByte ≤ s.history.length := by
  rw [h.writePtrByte_eq, h.length_history]
  exact Nat.mul_le_mul_right _ h.writePtr_le

/-- The history and the current input hold the contents of a packet that is not too old. -/
theorem Holds.contents_eq_read (h : b.Holds stream s) (chunk : List (Item b.itemsize))
    {offset length : ℕ} (hend : offset + length ≤ stream.length + chunk.length)
    (hold : stream.length ≤ offset + (b.packetLen - 1)) :
    contents (stream ++ chunk) offset length =
      ((recent s.history s.writePtrByte ++ bytesOf chunk).drop
        ((offset + (b.packetLen - 1) - stream.length) * b.itemsize)).take (length * b.itemsize) := by
  have hfits : offset + length ≤ (stream ++ chunk).length := by rwa [List.length_append]
  have hplace : (bytesOf stream).length + (offset + (b.packetLen - 1) - stream.length) * b.itemsize =
      (List.replicate ((b.packetLen - 1) * b.itemsize) (0 : Byte)).length + offset * b.itemsize := by
    have hsum : stream.length + (offset + (b.packetLen - 1) - stream.length) =
        (b.packetLen - 1) + offset := by omega
    rw [length_bytesOf, List.length_replicate, ← Nat.add_mul, hsum, Nat.add_mul]
  rw [contents_eq hfits, h.recent_history, drop_lastItems_append,
    ← bytesOf_append, hplace, List.drop_length_add_append]

/-- **A packet from before the write pointer.** -/
theorem copyPacket_new (h : b.Holds stream s) (chunk : List (Item b.itemsize)) {offset length : ℕ}
    (hend : offset + length ≤ stream.length + chunk.length) (hlength : length ≤ b.packetLen)
    (hcurrent : ¬ stream.length ≤ offset) (hnew : stream.length ≤ s.writePtrItem + offset) :
    ∃ packet, b.copyPacket s stream.length (bytesOf chunk) offset length = .ok packet ∧
      packet.length = s.packet.length ∧ contents (stream ++ chunk) offset length <+: packet := by
  have hptr := h.writePtr_le
  have hbyte := h.writePtrByte_le
  have hread := h.contents_eq_read chunk hend (by omega)
  have htotal : (contents (stream ++ chunk) offset length).length = length * b.itemsize :=
    length_contents (by rwa [List.length_append])
  have hsize : length * b.itemsize ≤ s.packet.length := by
    rw [h.length_packet]
    exact Nat.mul_le_mul_right _ hlength
  unfold copyPacket
  simp only [if_neg hcurrent, if_pos hnew]
  generalize hstartEq : (s.writePtrItem + offset - stream.length) * b.itemsize = start
  have hstart : start ≤ s.writePtrByte := by
    rw [← hstartEq, h.writePtrByte_eq]
    exact Nat.mul_le_mul_right _ (by omega)
  have hplace : (offset + (b.packetLen - 1) - stream.length) * b.itemsize =
      s.history.length - s.writePtrByte + start := by
    rw [← hstartEq, h.writePtrByte_eq, h.length_history, ← Nat.sub_mul, ← Nat.add_mul]
    congr 1
    omega
  rw [hplace, take_drop_recent_new _ _ hbyte hstart] at hread
  rw [hread] at htotal ⊢
  generalize length * b.itemsize = size at *
  generalize hlenEq : min (s.writePtrByte - start) size = len at *
  have hfits : start + len ≤ s.history.length := by omega
  have hslice : ((s.history.drop start).take len).length = len := length_slice hfits
  rw [List.length_append, hslice] at htotal
  have hremain : size - len ≤ (bytesOf chunk).length := le_length_of_take (by omega)
  obtain ⟨packet, hcopy, hsame, hpre⟩ :=
    memcpy_spec [] List.nil_prefix (by rw [List.length_nil]; omega : _ + len ≤ s.packet.length) hfits
  obtain ⟨packet', hcopy', hsame', hpre'⟩ :=
    memcpy_remain hpre hslice (by omega : len + (size - len) ≤ packet.length) hremain
  refine ⟨packet', ?_, hsame'.trans hsame, hpre'⟩
  rw [List.length_nil] at hcopy
  rw [hcopy]
  exact hcopy'

/-- **A packet from behind the write pointer.** -/
theorem copyPacket_old (h : b.Holds stream s) (chunk : List (Item b.itemsize)) {offset length : ℕ}
    (hend : offset + length ≤ stream.length + chunk.length) (hlength : length ≤ b.packetLen)
    (hcurrent : ¬ stream.length ≤ offset) (hold : stream.length ≤ offset + (b.packetLen - 1))
    (hnew : ¬ stream.length ≤ s.writePtrItem + offset) :
    ∃ packet, b.copyPacket s stream.length (bytesOf chunk) offset length = .ok packet ∧
      packet.length = s.packet.length ∧ contents (stream ++ chunk) offset length <+: packet := by
  have hpos := b.packetLen_pos
  have hbyte := h.writePtrByte_le
  have hread := h.contents_eq_read chunk hend hold
  have htotal : (contents (stream ++ chunk) offset length).length = length * b.itemsize :=
    length_contents (by rwa [List.length_append])
  have hsize : length * b.itemsize ≤ s.packet.length := by
    rw [h.length_packet]
    exact Nat.mul_le_mul_right _ hlength
  unfold copyPacket
  simp only [if_neg hcurrent, if_neg hnew]
  generalize hstartEq :
    (s.writePtrItem + offset + b.packetLen - 1 - stream.length) * b.itemsize = start
  have hstart : s.writePtrByte ≤ start := by
    rw [← hstartEq, h.writePtrByte_eq]
    exact Nat.mul_le_mul_right _ (by omega)
  have hlast : start ≤ s.history.length := by
    rw [← hstartEq, h.length_history]
    exact Nat.mul_le_mul_right _ (by omega)
  have hplace : (offset + (b.packetLen - 1) - stream.length) * b.itemsize =
      start - s.writePtrByte := by
    rw [← hstartEq, h.writePtrByte_eq, ← Nat.sub_mul]
    congr 1
    omega
  rw [hplace, take_drop_recent_old _ _ hbyte hstart hlast] at hread
  rw [hread] at htotal ⊢
  generalize length * b.itemsize = size at *
  generalize hlenEq : min (s.history.length - start) size = len at *
  have hfits : start + len ≤ s.history.length := by omega
  have hslice : ((s.history.drop start).take len).length = len := length_slice hfits
  obtain ⟨packet, hcopy, hsame, hpre⟩ :=
    memcpy_spec [] List.nil_prefix (by rw [List.length_nil]; omega : _ + len ≤ s.packet.length) hfits
  rw [List.length_nil] at hcopy
  rw [hcopy]
  simp only [ok_bind]
  by_cases hremain : 0 < size - len
  · rw [if_pos hremain]
    generalize hlenEq2 : min s.writePtrByte (size - len) = len2 at *
    have hfits2 : 0 + len2 ≤ s.history.length := by omega
    have hslice2 : (s.history.take len2).length = len2 := List.length_take_of_le (by omega)
    rw [List.length_append, List.length_append, hslice, hslice2] at htotal
    have hremain2 : size - len - len2 ≤ (bytesOf chunk).length := le_length_of_take (by omega)
    obtain ⟨packet', hcopy', hsame', hpre'⟩ :=
      memcpy_spec _ hpre (by rw [List.nil_append, hslice]; omega : _ + len2 ≤ packet.length) hfits2
    rw [List.nil_append, List.drop_zero] at hpre'
    rw [List.nil_append, hslice] at hcopy'
    have hlength' : ((s.history.drop start).take len ++ s.history.take len2).length = len + len2 := by
      rw [List.length_append, hslice, hslice2]
    obtain ⟨packet'', hcopy'', hsame'', hpre''⟩ :=
      memcpy_remain hpre' hlength' (by omega : len + len2 + (size - len - len2) ≤ packet'.length)
        hremain2
    refine ⟨packet'', ?_, hsame''.trans (hsame'.trans hsame), ?_⟩
    · rw [hcopy']
      exact hcopy''
    · rwa [List.append_assoc] at hpre''
  · have hnone : size - len = 0 := by omega
    refine ⟨packet, if_neg hremain, hsame, ?_⟩
    simpa [hnone] using hpre

/-- **Putting a packet together.** A packet that ends in the current input, and starts
there or in the history, is copied to the start of the packet buffer. -/
theorem copyPacket_spec (h : b.Holds stream s) (chunk : List (Item b.itemsize)) {offset length : ℕ}
    (hend : offset + length ≤ stream.length + chunk.length) (hlength : length ≤ b.packetLen)
    (hold : stream.length ≤ offset + (b.packetLen - 1)) :
    ∃ packet, b.copyPacket s stream.length (bytesOf chunk) offset length = .ok packet ∧
      packet.length = s.packet.length ∧ contents (stream ++ chunk) offset length <+: packet := by
  have hpos := b.packetLen_pos
  have hsize : length * b.itemsize ≤ s.packet.length := by
    rw [h.length_packet]
    exact Nat.mul_le_mul_right _ hlength
  have hinput := length_bytesOf chunk
  by_cases hcurrent : stream.length ≤ offset
  · have hfits : (offset - stream.length) * b.itemsize + length * b.itemsize ≤
        (bytesOf chunk).length := by
      rw [hinput, ← Nat.add_mul]
      exact Nat.mul_le_mul_right _ (by omega)
    obtain ⟨packet, hcopy, hsame, hpre⟩ :=
      memcpy_spec [] List.nil_prefix (by simpa using hsize) hfits
    refine ⟨packet, ?_, hsame, ?_⟩
    · unfold copyPacket
      simp only [if_pos hcurrent]
      exact hcopy
    · rwa [contents_append_of_le hcurrent, contents_eq (by omega)]
  · by_cases hnew : stream.length ≤ s.writePtrItem + offset
    · exact copyPacket_new h chunk hend hlength hcurrent hnew
    · exact copyPacket_old h chunk hend hlength hcurrent hold hnew

end FixedlenToPdu

end GrSatellites.Fixedlen
