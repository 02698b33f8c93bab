import GrSatellites.Tubix20.Frames

/-!
# Frames of TUBiX20 within a window of messages

A frame that is published should hold only blocks received since the last block 0 and since the
last frame was published or discarded.
-/

namespace GrSatellites.Tubix20

open Routine

variable {M : Type}

/-! ## The property -/

/-- A block of a frame of 1 to 32 blocks. Block 0 has the number of blocks and the header. -/
structure IsBlock (msg : Msg M) : Prop where
  blockId_lt : msg.tags.blockId < 32
  first : msg.tags.blockId = 0 → ∃ n header, msg.tags.numBlocks = some n ∧ 1 ≤ n ∧ n ≤ 32 ∧
    msg.tags.frameHeader = some header

/-- An event that ends the reception of a frame. -/
def Event.closes : Event M → Bool
  | .unhandledBlocks => false
  | .unexpectedNumber => true
  | .noCorrectBlock => true
  | .frame _ => true

/-- The messages since the last block 0 and the last frame that was published or discarded,
together with the next message. -/
def received (window : List (Msg M)) (msg : Msg M) : List (Msg M) :=
  if msg.tags.blockId = 0 then [msg] else window ++ [msg]

/-- The window after a message, given what the block reports of it. -/
def windowAfter (window : List (Msg M)) (msg : Msg M) (result : Except PyError (List (Event M))) :
    List (Msg M) :=
  match result with
  | .ok events => if events.any Event.closes then [] else received window msg
  | .error _ => received window msg

/-- The state and the window after some messages. -/
def observe (msgs : List (Msg M)) : Reframer M × List (Msg M) :=
  msgs.foldl (fun sw msg =>
    let result := exec (handleMsg msg) sw.1
    (result.2, windowAfter sw.2 msg result.1)) (.reset, [])

/-- A frame with the header of the block 0 in a window, its blocks in order, and a marker of
those that failed their CRC. -/
def ConsistsOf (window : List (Msg M)) (f : Frame M) : Prop :=
  ∃ first rest n header, window = first :: rest ∧ first.tags.blockId = 0 ∧
    first.tags.numBlocks = some n ∧ first.tags.frameHeader = some header ∧
    ∃ block : ℕ → Msg M, (∀ i < n, block i ∈ window ∧ (block i).tags.blockId = i) ∧
      ∃ marker : List Byte, marker.length = 4 ∧
        (∀ i < 32, markerBit marker i = true ↔ i < n ∧ (block i).tags.crcValid = false) ∧
        f.packet = masterHeader header ++ ((List.range n).map fun i => (block i).packet).flatten ++
          [0xAA] ++ marker ++ [0xBB]

/-- A message is handled without an exception, and publishes only a frame of the window. -/
def Isolates (window : List (Msg M)) (s : Reframer M) (msg : Msg M) : Prop :=
  ∃ events, (exec (handleMsg msg) s).1 = .ok events ∧
    ∀ f, Event.frame f ∈ events → ConsistsOf (received window msg) f

/-- The property of a run. -/
def Isolated (msgs : List (Msg M)) : Prop :=
  ∀ earlier msg, earlier ++ [msg] <+: msgs →
    Isolates (observe earlier).2 (observe earlier).1 msg

/-! ## The condition -/

/-- A block stored in the buffer. -/
def Reframer.store (s : Reframer M) (msg : Msg M) : Reframer M :=
  { s with
    blocks := s.blocks.set msg.tags.blockId msg.packet
    tags := s.tags.set msg.tags.blockId msg.tags }

/-- A last block makes the buffer hold as many blocks as expected, with a correct one. -/
def Completes (s : Reframer M) (msg : Msg M) : Prop :=
  msg.tags.blockId + 1 = s.numBlocksExpected ∧
    (s.store msg).blocks.size = s.numBlocksExpected ∧
    0 < (s.store msg).tags.values.countP Tags.crcValid

/-- The last block has not been received before, and no block beyond it. -/
def Fresh (s : Reframer M) (msg : Msg M) : Prop :=
  msg.tags.blockId ∉ s.blocks.keys ∧ ∀ k ∈ s.blocks.keys, k < s.numBlocksExpected

/-- A last block that completes the buffer is a fresh one. -/
def CompletesFresh (s : Reframer M) (msg : Msg M) : Prop :=
  msg.tags.blockId ≠ 0 → Completes s msg → Fresh s msg

/-! ## What a message does -/

theorem handleMsg_of_ne_zero (s : Reframer M) {msg : Msg M} (hid : msg.tags.blockId ≠ 0) :
    exec (handleMsg msg) s =
      if msg.tags.blockId + 1 = s.numBlocksExpected then
        if (s.store msg).blocks.size ≠ s.numBlocksExpected ∨ s.frameHeader = none then
          (.ok [.unexpectedNumber], s.store msg)
        else
          match publishFrame (s.store msg) with
          | .error e => (.error e, s.store msg)
          | .ok event => (.ok [event], .reset)
      else (.ok [], s.store msg) := by
  have hlast : (msg.tags.blockId : ℤ) = s.numBlocksExpected - 1 ↔
      msg.tags.blockId + 1 = s.numBlocksExpected := by omega
  unfold handleMsg
  rw [if_neg hid, exec_pure_bind, exec_modify_bind, exec_get_bind]
  simp only [List.nil_append]
  rw [← Reframer.store]
  by_cases hend : msg.tags.blockId + 1 = s.numBlocksExpected
  · rw [if_pos (hlast.mpr hend), if_pos hend]
    by_cases hcount : (s.store msg).blocks.size ≠ s.numBlocksExpected ∨ s.frameHeader = none
    · rw [if_pos hcount]
      exact (congrArg (exec · _) (if_pos hcount)).trans (exec_pure _ _)
    · rw [if_neg hcount]
      refine (congrArg (exec · _) (if_neg hcount)).trans ?_
      cases publishFrame (s.store msg) with
      | error e => exact exec_throw _ _
      | ok event => rfl
  · rw [if_neg (hlast.not.mpr hend), if_neg hend, exec_pure]

/-- The state after a block 0. -/
def opened (msg : Msg M) (n : ℕ) (header : List Byte) : Reframer M :=
  ⟨n, some header, some msg.tags.rest, Dict.empty.set 0 msg.packet, Dict.empty.set 0 msg.tags⟩

/-- What is printed when a block 0 finds blocks in the buffer. -/
def early (s : Reframer M) : List (Event M) := if s.blocks.size ≠ 0 then [.unhandledBlocks] else []

theorem startFrame_eq (s : Reframer M) {msg : Msg M} {n : ℕ} {header : List Byte}
    (hn : msg.tags.numBlocks = some n) (hheader : msg.tags.frameHeader = some header)
    (hkeys : s.tags.keys = s.blocks.keys) :
    exec (startFrame msg.tags) s =
      (.ok (early s), ⟨n, some header, some msg.tags.rest, .empty, .empty⟩) := by
  unfold startFrame early
  rw [exec_get_bind, hn, hheader]
  by_cases hsize : s.blocks.size ≠ 0
  · exact congrArg (exec · _) (if_pos hsize)
  · have hblocks : s.blocks = .empty := Dict.eq_empty_of_size (not_not.mp hsize)
    have htags : s.tags = .empty := by
      refine Dict.eq_empty_of_size ?_
      rw [← Dict.length_keys, hkeys, hblocks]
      rfl
    rw [← hblocks, ← htags]
    exact congrArg (exec · _) (if_neg hsize)

theorem handleMsg_of_zero (s : Reframer M) {msg : Msg M} (hid : msg.tags.blockId = 0) {n : ℕ}
    {header : List Byte} (hn : msg.tags.numBlocks = some n)
    (hheader : msg.tags.frameHeader = some header) (hkeys : s.tags.keys = s.blocks.keys) :
    exec (handleMsg msg) s =
      if n = 1 then
        match publishFrame (opened msg n header) with
        | .error e => (.error e, opened msg n header)
        | .ok event => (.ok (early s ++ [event]), .reset)
      else (.ok (early s), opened msg n header) := by
  unfold handleMsg
  rw [if_pos hid, exec_bind_ok (startFrame_eq s hn hheader hkeys), exec_modify_bind, exec_get_bind,
    hid]
  by_cases hone : n = 1
  · subst hone
    rw [if_pos rfl]
    show exec (match publishFrame (opened msg 1 header) with
      | .error e => throw e
      | .ok event => do
        set (Reframer.reset : Reframer M)
        return early s ++ [event] : Routine PyError (Reframer M) (List (Event M)))
      (opened msg 1 header) = _
    cases publishFrame (opened msg 1 header) with
    | error e => exact exec_throw _ _
    | ok event => rfl
  · have hlast : ¬ ((0 : ℕ) : ℤ) = n - 1 := by omega
    rw [if_neg hone]
    exact (congrArg (exec · _) (if_neg hlast)).trans (exec_pure _ _)

end GrSatellites.Tubix20
