import Mathlib

/-!
# Ring buffers

A buffer of fixed size and a write position hold the last items of a stream. Writing
wraps around at the end of the buffer, and reading back starts at any of the items
held and goes on with items that are not in the buffer yet.
-/

namespace GrSatellites.RingBuffer

variable {α : Type}

/-- Overwrite a part of a buffer. -/
def overwrite (buffer : List α) (position : ℕ) (data : List α) : List α :=
  buffer.take position ++ data ++ buffer.drop (position + data.length)

theorem length_overwrite {buffer : List α} {position : ℕ} {data : List α}
    (h : position + data.length ≤ buffer.length) :
    (overwrite buffer position data).length = buffer.length := by
  rw [overwrite, List.length_append, List.length_append, List.length_take, List.length_drop]
  omega

/-- What a buffer with a write position holds, oldest item first. -/
def recent (buffer : List α) (position : ℕ) : List α := buffer.drop position ++ buffer.take position

theorem length_recent (buffer : List α) (position : ℕ) :
    (recent buffer position).length = buffer.length := by
  rw [recent, List.length_append, List.length_drop, List.length_take]
  omega

/-- The last items of a stream, as many as there are initial ones. -/
def lastItems (initial stream : List α) : List α := (initial ++ stream).drop stream.length

theorem length_lastItems (initial stream : List α) :
    (lastItems initial stream).length = initial.length := by
  rw [lastItems, List.length_drop, List.length_append, Nat.add_sub_cancel]

/-- More items push out as many of the oldest ones. -/
theorem lastItems_append (initial stream more : List α) :
    lastItems initial (stream ++ more) = (lastItems initial stream ++ more).drop more.length := by
  have hle : stream.length ≤ (initial ++ stream).length := by simp
  rw [lastItems, lastItems, List.length_append, ← List.append_assoc, ← List.drop_drop,
    List.drop_append_of_le_length hle]

/-- What comes after the last items of a stream, from one of them on. -/
theorem drop_lastItems_append (initial stream more : List α) (k : ℕ) :
    (lastItems initial stream ++ more).drop k =
      (initial ++ (stream ++ more)).drop (stream.length + k) := by
  have hle : stream.length ≤ (initial ++ stream).length := by simp
  rw [lastItems, ← List.append_assoc, ← List.drop_drop, List.drop_append_of_le_length hle]

/-- Only the end of a long stream matters. -/
theorem drop_append_of_long {xs ys : List α} (h : xs.length ≤ ys.length) :
    (xs ++ ys).drop ys.length = ys.drop (ys.length - xs.length) := by
  rw [List.drop_append, List.drop_eq_nil_of_le h, List.nil_append]

/-! ## Writing -/

section Writing

variable {buffer data : List α} {position : ℕ}

/-- **Writing without a wrap.** The items written are the newest ones. -/
theorem recent_overwrite (hfit : position + data.length ≤ buffer.length) :
    recent (overwrite buffer position data) (position + data.length) =
      (recent buffer position ++ data).drop data.length := by
  have hlength : (buffer.take position ++ data).length = position + data.length := by
    rw [List.length_append, List.length_take]
    omega
  have hdrop : data.length ≤ (buffer.drop position).length := by
    rw [List.length_drop]
    omega
  rw [recent, recent, overwrite, List.drop_left' hlength, List.take_left' hlength,
    List.append_assoc (buffer.drop position), List.drop_append_of_le_length hdrop, List.drop_drop]

/-- A write position at the end of the buffer is the same as one at the start. -/
theorem recent_length (buffer : List α) : recent buffer buffer.length = recent buffer 0 := by
  simp [recent]

/-- **Writing with a wrap.** The items go up to the end of the buffer, and the rest of
them to its start. -/
theorem recent_overwrite_wrap {len : ℕ} (hposition : position ≤ buffer.length)
    (hlen : position + len = buffer.length) (hle : len ≤ data.length)
    (hdata : data.length ≤ buffer.length) :
    recent (overwrite (overwrite buffer position (data.take len)) 0 (data.drop len))
        (data.length - len) =
      (recent buffer position ++ data).drop data.length := by
  have htake : (data.take len).length = len := List.length_take_of_le hle
  have hrest : (data.drop len).length = data.length - len := List.length_drop
  have hpre : (buffer.take position).length = position := List.length_take_of_le hposition
  have hend : (buffer.drop position).length = len := by
    rw [List.length_drop]
    omega
  have hfirst : overwrite buffer position (data.take len) = buffer.take position ++ data.take len := by
    rw [overwrite, htake, hlen, List.drop_length, List.append_nil]
  have hsecond : overwrite (buffer.take position ++ data.take len) 0 (data.drop len) =
      data.drop len ++ ((buffer.take position).drop (data.length - len) ++ data.take len) := by
    rw [overwrite, List.take_zero, List.nil_append, Nat.zero_add, hrest,
      List.drop_append_of_le_length (by omega)]
  have hsplit : data.length = len + (data.length - len) := by omega
  rw [hfirst, hsecond, recent, List.drop_left' hrest, List.take_left' hrest, List.append_assoc,
    List.take_append_drop, recent]
  conv_rhs => rw [List.append_assoc, hsplit, ← List.drop_drop, List.drop_left' hend,
    List.drop_append_of_le_length (by omega)]

end Writing

/-! ## Reading -/

/-- Taking from two lists, when the number taken from the first one is capped. -/
theorem take_append_min (xs ys : List α) (size : ℕ) :
    (xs ++ ys).take size =
      xs.take (min xs.length size) ++ ys.take (size - min xs.length size) := by
  have hsub : size - xs.length = size - min xs.length size := by omega
  rw [List.take_append, hsub]
  congr 1
  rcases Nat.le_total xs.length size with hle | hle
  · rw [Nat.min_eq_left hle, List.take_length, List.take_of_length_le hle]
  · rw [Nat.min_eq_right hle]

section Reading

variable (buffer input : List α) {position : ℕ}

/-- **Reading from before the write position.** The newest items are there, and the ones
that come next are not in the buffer yet. -/
theorem take_drop_recent_new (hposition : position ≤ buffer.length) {start : ℕ}
    (hstart : start ≤ position) (size : ℕ) :
    ((recent buffer position ++ input).drop (buffer.length - position + start)).take size =
      (buffer.drop start).take (min (position - start) size) ++
        input.take (size - min (position - start) size) := by
  have hold : (buffer.drop position).length = buffer.length - position := List.length_drop
  have hpre : (buffer.take position).length = position := List.length_take_of_le hposition
  have hnew : ((buffer.take position).drop start).length = position - start := by
    rw [List.length_drop, hpre]
  have hcap : min (min (position - start) size) (position - start) = min (position - start) size := by
    omega
  rw [recent, ← List.drop_drop, List.append_assoc, List.drop_left' hold,
    List.drop_append_of_le_length (by omega), take_append_min, hnew, List.drop_take,
    List.take_take, hcap]

/-- **Reading from behind the write position.** The oldest items are there, the newer
ones at the start of the buffer, and the ones that come next are not in the buffer yet. -/
theorem take_drop_recent_old (hposition : position ≤ buffer.length) {start : ℕ}
    (hstart : position ≤ start) (hend : start ≤ buffer.length) (size : ℕ) :
    ((recent buffer position ++ input).drop (start - position)).take size =
      (buffer.drop start).take (min (buffer.length - start) size) ++
        (buffer.take (min position (size - min (buffer.length - start) size)) ++
          input.take (size - min (buffer.length - start) size -
            min position (size - min (buffer.length - start) size))) := by
  have hle : start - position ≤ (buffer.drop position).length := by
    rw [List.length_drop]
    omega
  have hback : position + (start - position) = start := by omega
  have hold : (buffer.drop start).length = buffer.length - start := List.length_drop
  have hnew : (buffer.take position).length = position := List.length_take_of_le hposition
  rw [recent, List.append_assoc, List.drop_append_of_le_length hle, List.drop_drop, hback,
    take_append_min, hold, take_append_min, hnew, List.take_take,
    Nat.min_eq_left (Nat.min_le_left position _)]

end Reading

end GrSatellites.RingBuffer
