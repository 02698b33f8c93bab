import GrSatellites.Library.TimedQueue
import GrSatellites.TimeDependentDelay.Model

/-!
# The tags of the delayed stream

A tag goes out at the offset of its item plus the rounded delay. One that goes past the
items of the call stays in `d_future_tags`, which is read from the front up to the first tag
that is not due.
-/

namespace GrSatellites.TimeDependentDelay

open TimedQueue Transducer

/-- A call to `work` for `n` items, with the tags of the input stream and the delays of their
items. -/
structure TagCall where
  n : ℕ
  tags : List (Tag × ℚ)

/-- What `work` remembers of the tags. -/
structure TagQueue where
  nitemsWritten : ℕ
  futureTags : List Tag

/-- A tag at its offset plus its rounded delay. -/
def moveTag (tag : Tag) (delay : ℚ) : Tag :=
  { tag with offset := tag.offset + (round delay).toNat }

/-- The tags of the window of a call, moved. -/
def TagCall.moved (c : TagCall) (first : ℕ) : List Tag :=
  (c.tags.filter fun tag => first ≤ tag.1.offset ∧ tag.1.offset < first + c.n).map fun tag =>
    moveTag tag.1 tag.2

/-- The tags in a call to `work`, and those that it puts out. -/
def tagStep (s : TagQueue) (c : TagCall) : TagQueue × List (List Tag) :=
  let addLimit := s.nitemsWritten + c.n
  let (futureTags, out) := serve Tag.offset addLimit s.futureTags (c.moved s.nitemsWritten)
  (⟨addLimit, futureTags⟩, [out])

/-- The moved tags of each call, with the end of its window. -/
def tagRounds : ℕ → List TagCall → List (Round Tag)
  | _, [] => []
  | first, c :: calls => (c.moved first, first + c.n) :: tagRounds (first + c.n) calls

/-- Each call puts out exactly the tags that go to the offsets of its window. -/
def TagsOnTime (calls : List TagCall) : Prop :=
  List.Forall₂ (fun window out => out.Perm ((arrived (tagRounds 0 calls)).filter fun tag =>
      window.1 ≤ tag.offset ∧ tag.offset < window.2))
    (windows 0 (tagRounds 0 calls)) (run tagStep ⟨0, []⟩ calls).2

/-- A tag does not go back. -/
theorem le_of_mem_moved {c : TagCall} {first : ℕ} : ∀ tag ∈ c.moved first, first ≤ tag.offset := by
  refine List.forall_mem_map.mpr fun tag htag => ?_
  have hfirst := (of_decide_eq_true (List.mem_filter.mp htag).2).1
  exact hfirst.trans (Nat.le_add_right _ _)

theorem timely_tagRounds (first : ℕ) (calls : List TagCall) :
    Timely Tag.offset first (tagRounds first calls) := by
  induction calls generalizing first with
  | nil => trivial
  | cons c calls ih => exact ⟨Nat.le_add_right _ _, le_of_mem_moved, ih _⟩

theorem run_tagStep (s : TagQueue) (calls : List TagCall) :
    (run tagStep s calls).2 =
      serveAll Tag.offset s.futureTags (tagRounds s.nitemsWritten calls) := by
  induction calls generalizing s with
  | nil => rfl
  | cons c calls ih =>
    rw [run_cons, ih]
    rfl

/-- **Tags on time.** All tags go out in the call whose window has their offset if and only if in
each call the tags that go to its window come first among those that arrived before and have
not gone out. -/
theorem tagsOnTime_iff (calls : List TagCall) :
    TagsOnTime calls ↔ KeepsOrder Tag.offset [] (tagRounds 0 calls) := by
  rw [← punctual_iff (timely_tagRounds 0 calls) (List.forall_mem_nil _)]
  unfold TagsOnTime Punctual
  rw [run_tagStep]
  rfl

/-- A delay of 30 samples, and one of 7 samples five items later: the second tag goes to the
window of the second call, and does not go out in it. -/
theorem not_tagsOnTime_shrinking :
    ¬TagsOnTime [⟨10, [(⟨0, .other "a"⟩, 30), (⟨5, .other "b"⟩, 7)]⟩, ⟨10, []⟩] := by
  intro hontime
  have hsecond := (List.forall₂_cons.mp (List.forall₂_cons.mp hontime).2).1
  revert hsecond
  decide +kernel

/-! ## The tags of the block -/

variable {settings : Settings}

/-- What the block remembers of the tags. -/
def State.tagQueue (s : State) : TagQueue := ⟨s.nitemsWritten, s.futureTags⟩

/-- The state after the samples of a call, with which the delays of its tags are computed. -/
def State.afterSamples (settings : Settings) (s : State) (n : ℕ) (tags : List Tag) : State :=
  ((s.updateTimeFromTags settings (tagsInWindow tags s.nitemsWritten n)).delaySamples settings
    s.nitemsWritten n).1

/-- A call to `work`, with the delays that the block computes for the tags. -/
def State.tagCall (settings : Settings) (s : State) (n : ℕ) (tags : List Tag) : TagCall :=
  let s' := s.afterSamples settings n tags
  ⟨n, tags.map fun tag =>
    (tag, s'.computeTagDelay settings (s'.computeTime settings tag.offset))⟩

/-- The calls to `work` in a run. -/
def tagCalls (settings : Settings) : State → List Call → List TagCall
  | _, [] => []
  | s, .setTime t :: calls => tagCalls settings (step settings s (.setTime t)).1 calls
  | s, .work n tags :: calls =>
    s.tagCall settings n tags :: tagCalls settings (step settings s (.work n tags)).1 calls

theorem State.updateTimeFromTags_tagQueue (s : State) (window : List Tag) :
    (s.updateTimeFromTags settings window).tagQueue = s.tagQueue := by
  induction window generalizing s with
  | nil => rfl
  | cons tag window ih =>
    have hone : (s.updateFromTag settings tag).tagQueue = s.tagQueue := by
      unfold State.updateFromTag
      cases tag.value.time? <;> rfl
    exact (ih (s.updateFromTag settings tag)).trans hone

theorem State.delaySamples_tagQueue (s : State) (first n : ℕ) :
    (s.delaySamples settings first n).1.tagQueue = s.tagQueue := by
  induction n generalizing s first with
  | zero => rfl
  | succ n ih => exact ih (s.computeDelay settings (s.computeTime settings first)).1 (first + 1)

theorem State.afterSamples_futureTags (s : State) (n : ℕ) (tags : List Tag) :
    (s.afterSamples settings n tags).futureTags = s.futureTags := by
  have hset : (s.updateTimeFromTags settings
      (tagsInWindow tags s.nitemsWritten n)).tagQueue = s.tagQueue :=
    s.updateTimeFromTags_tagQueue _
  have hsamples : (s.afterSamples settings n tags).tagQueue =
      (s.updateTimeFromTags settings (tagsInWindow tags s.nitemsWritten n)).tagQueue :=
    State.delaySamples_tagQueue _ s.nitemsWritten n
  exact congrArg TagQueue.futureTags (hsamples.trans hset)

theorem State.moved_tagCall (s : State) (n : ℕ) (tags : List Tag) :
    (s.tagCall settings n tags).moved s.nitemsWritten =
      (tagsInWindow tags s.nitemsWritten n).map
        ((s.afterSamples settings n tags).delayTag settings) := by
  rw [TagCall.moved, State.tagCall, List.filter_map, List.map_map]
  rfl

/-- The propagation of the tags is one round of the queue. -/
theorem State.propagateTags_eq (settings : Settings) (s : State) (tags : List Tag) (addLimit : ℕ) :
    s.propagateTags settings tags addLimit =
      ({ s with futureTags :=
          (serve Tag.offset addLimit s.futureTags (tags.map (s.delayTag settings))).1 },
        (serve Tag.offset addLimit s.futureTags (tags.map (s.delayTag settings))).2) := rfl

/-- A call to `work` treats its tags as `tagStep` does. -/
theorem State.tagStep_tagCall (s : State) (n : ℕ) (tags : List Tag) :
    tagStep s.tagQueue (s.tagCall settings n tags) =
      ((s.work settings n tags).1.tagQueue, [(s.work settings n tags).2.tags]) := by
  have hpropagate := (s.afterSamples settings n tags).propagateTags_eq settings
    (tagsInWindow tags s.nitemsWritten n) (s.nitemsWritten + n)
  rw [s.afterSamples_futureTags, ← s.moved_tagCall] at hpropagate
  have hstate := congrArg (fun p : State × List Tag => p.1.futureTags) hpropagate
  have hout := congrArg Prod.snd hpropagate
  exact Prod.ext (congrArg (TagQueue.mk _) hstate.symm) (congrArg (· :: []) hout.symm)

/-- **The block.** The tags that the block puts out are those of `tagStep`, with the delays that
it computes. -/
theorem run_tags (settings : Settings) (s : State) (calls : List Call) :
    (run (step settings) s calls).2.map Output.tags =
      (run tagStep s.tagQueue (tagCalls settings s calls)).2 := by
  induction calls generalizing s with
  | nil => rfl
  | cons c calls ih =>
    rw [run_cons, List.map_append, ih]
    cases c with
    | setTime t => rfl
    | work n tags =>
      rw [tagCalls, run_cons, State.tagStep_tagCall]
      rfl

end GrSatellites.TimeDependentDelay
