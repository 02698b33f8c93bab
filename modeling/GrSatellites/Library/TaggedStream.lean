import Mathlib

/-!
# Streams of packets with length tags

A stream of back-to-back packets, in which the first item of a packet carries the length
of the packet as a tag. A reader that has consumed some items knows from the tags alone
how many items are left of the packet in progress.
-/

namespace GrSatellites.TaggedStream

/-- An item of a stream, with the length tag that it may carry. -/
structure TaggedItem (α : Type) where
  item : α
  packetLen : Option ℕ

variable {α : Type}

/-- The items of a packet, the first one tagged with the length. -/
def mark : List α → List (TaggedItem α)
  | [] => []
  | x :: xs => ⟨x, some (xs.length + 1)⟩ :: xs.map fun y => ⟨y, none⟩

/-- Packets sent back to back. -/
def stream (packets : List (List α)) : List (TaggedItem α) := packets.flatMap mark

/-- The length tags of some items, with their offsets; the first item has the given one. -/
def tagsFrom (offset : ℕ) (items : List (TaggedItem α)) : List (ℕ × ℕ) :=
  (items.zipIdx offset).filterMap fun (x, k) => x.packetLen.map fun n => (k, n)

@[simp] theorem length_mark (packet : List α) : (mark packet).length = packet.length := by
  cases packet <;> simp [mark]

theorem length_stream (packets : List (List α)) :
    (stream packets).length = (packets.map List.length).sum := by
  simp [stream, List.length_flatMap]

theorem stream_append (xs ys : List (List α)) : stream (xs ++ ys) = stream xs ++ stream ys :=
  List.flatMap_append

/-! ## What is left of a packet -/

/-- The number of items left of the packet in progress, after one more item. -/
def leftAfter (left : ℕ) (x : TaggedItem α) : ℕ :=
  match x.packetLen with
  | some n => n - 1
  | none => left - 1

/-- The number of items left of the packet in progress after some items. -/
def itemsLeft (left : ℕ) (items : List (TaggedItem α)) : ℕ := items.foldl leftAfter left

/-- Some items that may follow when a number of items is left of the packet in progress:
a packet starts with a tag when nothing is left, and only then. -/
inductive WellFormed : ℕ → List (TaggedItem α) → Prop
  | nil (left : ℕ) : WellFormed left []
  | start {n : ℕ} {items : List (TaggedItem α)} (x : α) (hpos : 0 < n)
      (hitems : WellFormed (n - 1) items) : WellFormed 0 (⟨x, some n⟩ :: items)
  | inside {left : ℕ} {items : List (TaggedItem α)} (x : α) (hitems : WellFormed left items) :
      WellFormed (left + 1) (⟨x, none⟩ :: items)

theorem WellFormed.pos_of_tagged {left n : ℕ} {x : α} {items : List (TaggedItem α)}
    (h : WellFormed left (⟨x, some n⟩ :: items)) : 0 < n := by
  cases h with
  | start _ hpos => exact hpos

theorem WellFormed.pos_of_untagged {left : ℕ} {x : α} {items : List (TaggedItem α)}
    (h : WellFormed left (⟨x, none⟩ :: items)) : 0 < left := by
  cases h with
  | inside => exact Nat.succ_pos _

theorem itemsLeft_append (left : ℕ) (xs ys : List (TaggedItem α)) :
    itemsLeft left (xs ++ ys) = itemsLeft (itemsLeft left xs) ys := List.foldl_append

theorem wellFormed_append {left : ℕ} {xs ys : List (TaggedItem α)} :
    WellFormed left (xs ++ ys) ↔ WellFormed left xs ∧ WellFormed (itemsLeft left xs) ys := by
  induction xs generalizing left with
  | nil => exact ⟨fun h => ⟨.nil left, h⟩, fun h => h.2⟩
  | cons x xs ih =>
    constructor
    · intro h
      cases h with
      | start y hpos hitems => exact ⟨.start y hpos (ih.mp hitems).1, (ih.mp hitems).2⟩
      | inside y hitems => exact ⟨.inside y (ih.mp hitems).1, (ih.mp hitems).2⟩
    · rintro ⟨hxs, hys⟩
      cases hxs with
      | start y hpos hitems => exact .start y hpos (ih.mpr ⟨hitems, hys⟩)
      | inside y hitems => exact .inside y (ih.mpr ⟨hitems, hys⟩)

theorem tagsFrom_append (offset : ℕ) (xs ys : List (TaggedItem α)) :
    tagsFrom offset (xs ++ ys) = tagsFrom offset xs ++ tagsFrom (offset + xs.length) ys := by
  rw [tagsFrom, List.zipIdx_append, List.filterMap_append]
  rfl

/-- **The last tag.** The last tag among some items gives what is left after them. Without
a tag, the items all belong to the packet in progress. -/
theorem WellFormed.itemsLeft_eq {left : ℕ} {items : List (TaggedItem α)}
    (h : WellFormed left items) (offset : ℕ) :
    match (tagsFrom offset items).getLast? with
    | some (k, n) => itemsLeft left items + (offset + items.length) = k + n
    | none => itemsLeft left items + items.length = left := by
  induction items using List.reverseRecOn with
  | nil => rfl
  | append_singleton items x ih =>
    obtain ⟨hitems, hlast⟩ := wellFormed_append.mp h
    have hbefore := ih hitems
    obtain ⟨y, tag⟩ := x
    rw [tagsFrom_append, itemsLeft_append, List.length_append, List.length_singleton]
    cases tag with
    | some n =>
      have hpos := hlast.pos_of_tagged
      have htag : tagsFrom (offset + items.length) [(⟨y, some n⟩ : TaggedItem α)] =
          [(offset + items.length, n)] := rfl
      have hone : itemsLeft (itemsLeft left items) [(⟨y, some n⟩ : TaggedItem α)] = n - 1 := rfl
      rw [htag, hone, List.getLast?_append, List.getLast?_singleton, Option.some_or]
      simp only
      omega
    | none =>
      have hinside := hlast.pos_of_untagged
      have hnone : tagsFrom (offset + items.length) [(⟨y, none⟩ : TaggedItem α)] = [] := rfl
      rw [hnone, List.append_nil]
      have hone : itemsLeft (itemsLeft left items) [(⟨y, none⟩ : TaggedItem α)] =
          itemsLeft left items - 1 := rfl
      rw [hone]
      cases hlastTag : (tagsFrom offset items).getLast? with
      | none =>
        rw [hlastTag] at hbefore
        simp only at hbefore ⊢
        omega
      | some tag =>
        rw [hlastTag] at hbefore
        simp only at hbefore ⊢
        omega

/-- No packet starts before the packet in progress ends. -/
theorem WellFormed.le_of_tag {left i n : ℕ} {x : α} {items : List (TaggedItem α)}
    (h : WellFormed left items) (hi : items[i]? = some ⟨x, some n⟩) : left ≤ i := by
  induction h generalizing i with
  | nil => cases hi
  | start => omega
  | inside y hitems ih =>
    cases i with
    | zero => cases hi
    | succ i => exact Nat.succ_le_succ (ih hi)

/-! ## Streams of packets -/

theorem wellFormed_untagged (xs : List α) :
    WellFormed xs.length (xs.map fun y => (⟨y, none⟩ : TaggedItem α)) := by
  induction xs with
  | nil => exact .nil 0
  | cons x xs ih => exact .inside x ih

theorem itemsLeft_untagged (left : ℕ) (xs : List α) :
    itemsLeft left (xs.map fun y => (⟨y, none⟩ : TaggedItem α)) = left - xs.length := by
  induction xs generalizing left with
  | nil => rfl
  | cons x xs ih =>
    rw [List.map_cons, List.length_cons]
    exact (ih (left - 1)).trans (by omega)

theorem wellFormed_mark (packet : List α) : WellFormed 0 (mark packet) := by
  cases packet with
  | nil => exact .nil 0
  | cons x xs => exact .start x (Nat.succ_pos _) (wellFormed_untagged xs)

/-- What is left after the first items of a packet. -/
theorem itemsLeft_take_mark (packet : List α) (k : ℕ) :
    itemsLeft 0 ((mark packet).take k) = if k = 0 then 0 else packet.length - k := by
  cases k with
  | zero => simp [itemsLeft]
  | succ k =>
    cases packet with
    | nil => simp [mark, itemsLeft]
    | cons x xs =>
      rw [mark, List.take_succ_cons, ← List.map_take, if_neg (Nat.succ_ne_zero k)]
      refine (itemsLeft_untagged xs.length (xs.take k)).trans ?_
      rw [List.length_take, List.length_cons]
      omega

theorem itemsLeft_mark (packet : List α) : itemsLeft 0 (mark packet) = 0 := by
  have h := itemsLeft_take_mark packet packet.length
  rw [List.take_of_length_le (length_mark packet).le] at h
  rw [h]
  simp

theorem wellFormed_stream (packets : List (List α)) : WellFormed 0 (stream packets) := by
  induction packets with
  | nil => exact .nil 0
  | cons packet packets ih =>
    rw [stream, List.flatMap_cons, wellFormed_append, itemsLeft_mark]
    exact ⟨wellFormed_mark packet, ih⟩

/-- The number of items left of the packet in progress at a position of a stream of
packets of the given lengths; none between two packets. -/
def leftInPacket : List ℕ → ℕ → ℕ
  | [], _ => 0
  | n :: lengths, position =>
    if position < n then if position = 0 then 0 else n - position
    else leftInPacket lengths (position - n)

theorem itemsLeft_take_stream (packets : List (List α)) (position : ℕ) :
    itemsLeft 0 ((stream packets).take position) =
      leftInPacket (packets.map List.length) position := by
  induction packets generalizing position with
  | nil => simp [stream, itemsLeft, leftInPacket]
  | cons packet packets ih =>
    rw [stream, List.flatMap_cons, List.take_append, itemsLeft_append, ← stream, length_mark,
      List.map_cons, leftInPacket]
    by_cases hlt : position < packet.length
    · rw [if_pos hlt, itemsLeft_take_mark, Nat.sub_eq_zero_of_le hlt.le, List.take_zero]
      rfl
    · have hle : packet.length ≤ position := Nat.not_lt.mp hlt
      rw [if_neg hlt, List.take_of_length_le ((length_mark packet).le.trans hle), itemsLeft_mark, ih]

/-- A position of a stream of packets is the first item of one of them. -/
def IsStart (packets : List (List α)) (position : ℕ) : Prop :=
  ∃ earlier packet later, packets = earlier ++ packet :: later ∧
    position = (earlier.map List.length).sum

theorem IsStart.exists_tag {packets : List (List α)} {position : ℕ}
    (hne : ∀ packet ∈ packets, packet ≠ []) (h : IsStart packets position) :
    ∃ x n, (stream packets)[position]? = some ⟨x, some n⟩ := by
  obtain ⟨earlier, packet, later, rfl, rfl⟩ := h
  obtain ⟨x, xs, rfl⟩ := List.exists_cons_of_ne_nil (hne packet (by simp))
  refine ⟨x, xs.length + 1, ?_⟩
  rw [stream_append, ← length_stream, List.getElem?_append_right (le_refl _), Nat.sub_self]
  rfl

end GrSatellites.TaggedStream
