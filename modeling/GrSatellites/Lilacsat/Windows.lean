import GrSatellites.Lilacsat.Model

/-!
# The demultiplexer and the windows of its stream

The buffers of a demultiplexer hold the bytes of the current window that have not been
published, as long as no sync tag comes while a set bit waits in one of them.
-/

namespace GrSatellites.Lilacsat

open Bits Transducer

variable {s t : DemuxState} {window : List Bool}

/-! ## The layout of a window -/

/-- The place in the window of a byte of the frame. -/
def frameByte (f : ℕ) : ℕ :=
  (f + headerLen) / (chunkLen - codec2FrameLen) * chunkLen +
    (f + headerLen) % (chunkLen - codec2FrameLen) - headerLen

/-- The chunk that a bit of the window lies in. -/
def chunkAt (position : ℕ) : ℕ := (position / bitsPerByte + headerLen) / chunkLen

/-- Nothing of the window waits in a buffer: its frame has been published, or all that has
come of its frame and of its codec2 frame is zero. -/
def Settled (window : List Bool) : Prop :=
  packetLen * bitsPerByte < window.length ∨
    window.length < packetLen * bitsPerByte ∧ frameOf window = List.replicate frameLen 0 ∧
      codec2Of window (chunkAt window.length) = List.replicate codec2FrameLen 0

theorem frame_places :
    ((List.range packetLen).filter fun j =>
      (j + headerLen) % chunkLen < chunkLen - codec2FrameLen) =
        (List.range frameLen).map frameByte := by decide

theorem frameOf_eq (window : List Bool) :
    frameOf window = (List.range frameLen).map fun f => byteAt window (frameByte f) := by
  rw [frameOf, frame_places, List.map_map]
  rfl

theorem frameOf_nil : frameOf [] = List.replicate frameLen 0 := by decide

/-- A chunk that the window has not reached is zero. -/
theorem codec2Of_of_le {chunk : ℕ}
    (h : window.length ≤
      bitsPerByte * (chunk * chunkLen + (chunkLen - codec2FrameLen - headerLen))) :
    codec2Of window chunk = List.replicate codec2FrameLen 0 := by
  rw [codec2Of, ← List.length_range (n := codec2FrameLen), ← List.map_const', List.length_range]
  refine List.map_congr_left fun i _ => byteAt_of_le ?_
  simp only [bitsPerByte, chunkLen, codec2FrameLen, headerLen] at h ⊢
  omega

/-! ## One bit -/

/-- Setting bits in one byte of a buffer, where the bytes are given by their places. -/
theorem orAt_map {n i : ℕ} {x : Byte} {g g' : ℕ → Byte} (hi : i < n) (hset : g' i = g i ||| x)
    (hkeep : ∀ k < n, k ≠ i → g' k = g k) :
    orAt ((List.range n).map g) i x = .ok ((List.range n).map g') := by
  rw [orAt, List.getElem?_map, List.getElem?_range hi]
  refine congrArg Except.ok (List.ext_getElem (by simp) fun k hk hk' => ?_)
  have hkn : k < n := by simpa using hk'
  rw [List.getElem_set, List.getElem_map, List.getElem_map, List.getElem_range]
  split
  case isTrue heq => rw [← heq, hset]
  case isFalse hne => exact (hkeep k hkn (Ne.symm hne)).symm

/-- A demultiplexer in the middle of a window: its buffers hold what has come. -/
structure Filling (s : DemuxState) (window : List Bool) : Prop where
  position : s.position = window.length
  frame : s.frame = frameOf window
  codec2 : s.codec2 = codec2Of window (chunkAt window.length)

/-- A demultiplexer that waits for a sync tag. -/
structure Waiting (s : DemuxState) : Prop where
  position : s.position = -1
  frame : s.frame = List.replicate frameLen 0
  codec2 : s.codec2 = List.replicate codec2FrameLen 0

theorem filling_nil {s : DemuxState} (hposition : s.position = 0)
    (hframe : s.frame = List.replicate frameLen 0)
    (hcodec2 : s.codec2 = List.replicate codec2FrameLen 0) : Filling s [] := by
  constructor
  · exact hposition
  · rw [hframe, frameOf_nil]
  · rw [hcodec2, codec2Of_of_le (Nat.zero_le _)]

theorem completed_eq (chunk : ℕ) (hchunk : chunk < 5)
    (h : window.length = ((chunk + 1) * chunkLen - headerLen) * bitsPerByte) :
    completed window = [.codec2 (codec2Of window chunk)] := by
  rw [completed, h]
  interval_cases chunk <;> rfl

theorem completed_eq_nil
    (h : ∀ chunk < 5, window.length ≠ ((chunk + 1) * chunkLen - headerLen) * bitsPerByte) :
    completed window = [] := by
  rw [completed, List.filter_eq_nil_iff.mpr, List.map_nil]
  intro chunk hchunk
  simpa using h chunk (List.mem_range.mp hchunk)

/-- A bit of a codec2 frame. -/
theorem placeBit_codec2 (value : Byte) (h : Filling s window)
    (hlength : window.length < packetLen * bitsPerByte)
    (hplace : chunkLen - codec2FrameLen ≤ (window.length / bitsPerByte + headerLen) % chunkLen) :
    ∃ t, placeBit s value = .ok (t, completed (window ++ [value.getLsbD 0])) ∧
      Filling t (window ++ [value.getLsbD 0]) := by
  obtain ⟨hposition, hframe, hcodec2⟩ := h
  simp only [packetLen, bitsPerByte, headerLen, chunkLen, codec2FrameLen] at hlength hplace
  have hor : orAt s.codec2 ((window.length / 8 + 4) % 24 - 17)
      ((value &&& 1) <<< (7 - window.length % 8)) =
        .ok (codec2Of (window ++ [value.getLsbD 0]) (chunkAt window.length)) := by
    rw [hcodec2]
    refine orAt_map (by rw [codec2FrameLen]; omega) ?_ fun k _ hk => ?_
    · rw [byteAt_append_bit, if_pos]
      simp only [chunkAt, chunkLen, codec2FrameLen, headerLen, bitsPerByte]
      omega
    · rw [byteAt_append_bit, if_neg]
      simp only [chunkAt, chunkLen, codec2FrameLen, headerLen, bitsPerByte]
      omega
  have hframe' : s.frame = frameOf (window ++ [value.getLsbD 0]) := by
    rw [hframe, frameOf_eq, frameOf_eq]
    refine List.map_congr_left fun f hf => ?_
    rw [byteAt_append_bit, if_neg]
    have hlt := List.mem_range.mp hf
    simp only [frameByte, chunkLen, codec2FrameLen, headerLen, frameLen] at hlt ⊢
    omega
  have hposition' : (window.length + 1 : ℤ) = (window ++ [value.getLsbD 0]).length := by
    rw [List.length_append, List.length_singleton, Nat.cast_add, Nat.cast_one]
  rw [placeBit, if_pos (by simpa [hposition, bitsPerByte, headerLen, chunkLen, codec2FrameLen])]
  simp only [hposition, Int.toNat_natCast, bitsPerByte, headerLen, chunkLen, codec2FrameLen,
    Nat.reduceSub, hor, bind, Except.bind, pure, Except.pure]
  have hlen : (codec2Of (window ++ [value.getLsbD 0]) (chunkAt window.length)).length = 7 := by
    rw [codec2Of, List.length_map, List.length_range, codec2FrameLen]
  rw [hlen]
  by_cases hlast : (window.length / 8 + 4) % 24 - 17 = 7 - 1 ∧ 7 - window.length % 8 = 0
  · obtain ⟨hbyte, hbit⟩ := hlast
    have hchunk : (window ++ [value.getLsbD 0]).length =
        ((chunkAt window.length + 1) * chunkLen - headerLen) * bitsPerByte := by
      rw [List.length_append, List.length_singleton]
      simp only [chunkAt, bitsPerByte, headerLen, chunkLen]
      omega
    have hlt : chunkAt window.length < 5 := by
      simp only [chunkAt, bitsPerByte, headerLen, chunkLen]
      omega
    rw [if_pos ⟨hbyte, hbit⟩, completed_eq _ hlt hchunk]
    refine ⟨_, rfl, ?_⟩
    constructor
    · exact hposition'
    · exact hframe'
    · refine (codec2Of_of_le ?_).symm
      rw [hchunk]
      simp only [chunkAt, bitsPerByte, headerLen, chunkLen, codec2FrameLen]
      omega
  · rw [if_neg hlast, completed_eq_nil]
    · refine ⟨_, rfl, ?_⟩
      constructor
      · exact hposition'
      · exact hframe'
      · have hchunk : chunkAt (window ++ [value.getLsbD 0]).length = chunkAt window.length := by
          rw [List.length_append, List.length_singleton]
          simp only [chunkAt, bitsPerByte, headerLen, chunkLen]
          omega
        rw [hchunk]
    · intro chunk _
      rw [List.length_append, List.length_singleton]
      simp only [bitsPerByte, headerLen, chunkLen]
      omega

/-- A bit of the frame. -/
theorem placeBit_frame (value : Byte) (h : Filling s window)
    (hlength : window.length < packetLen * bitsPerByte)
    (hplace : (window.length / bitsPerByte + headerLen) % chunkLen < chunkLen - codec2FrameLen) :
    ∃ t, placeBit s value = .ok (t, completed (window ++ [value.getLsbD 0])) ∧
      Filling t (window ++ [value.getLsbD 0]) := by
  obtain ⟨hposition, hframe, hcodec2⟩ := h
  simp only [packetLen, bitsPerByte, headerLen, chunkLen, codec2FrameLen] at hlength hplace
  have hor : orAt s.frame
      ((window.length / 8 + 4) / 24 * 17 + (window.length / 8 + 4) % 24 - 4)
      ((value &&& 1) <<< (7 - window.length % 8)) =
        .ok (frameOf (window ++ [value.getLsbD 0])) := by
    rw [hframe, frameOf_eq, frameOf_eq]
    refine orAt_map (by simp only [frameLen, chunkLen, codec2FrameLen, headerLen]; omega) ?_
      fun k hk hne => ?_
    · rw [byteAt_append_bit, if_pos]
      simp only [frameByte, chunkLen, codec2FrameLen, headerLen]
      omega
    · rw [byteAt_append_bit, if_neg]
      simp only [frameByte, chunkLen, codec2FrameLen, headerLen, frameLen] at hk ⊢
      omega
  have hchunk : codec2Of (window ++ [value.getLsbD 0])
      (chunkAt (window ++ [value.getLsbD 0]).length) = s.codec2 := by
    have hle : window.length + 1 ≤ 8 * (chunkAt (window.length + 1) * 24 + 13) := by
      simp only [chunkAt, bitsPerByte, headerLen, chunkLen]
      omega
    have hle' : window.length ≤ 8 * (chunkAt window.length * 24 + 13) := by
      simp only [chunkAt, bitsPerByte, headerLen, chunkLen]
      omega
    rw [hcodec2, codec2Of_of_le hle', codec2Of_of_le]
    rw [List.length_append, List.length_singleton]
    exact hle
  rw [placeBit, if_neg (by simpa [hposition, bitsPerByte, headerLen, chunkLen, codec2FrameLen])]
  simp only [hposition, Int.toNat_natCast, bitsPerByte, headerLen, chunkLen, codec2FrameLen,
    Nat.reduceSub, hor, bind, Except.bind, pure, Except.pure]
  rw [completed_eq_nil]
  · refine ⟨_, rfl, ?_⟩
    constructor
    · simp
    · rfl
    · exact hchunk.symm
  · intro chunk _
    rw [List.length_append, List.length_singleton]
    simp only [bitsPerByte, headerLen, chunkLen]
    omega

/-- A bit of a window that is not full. -/
theorem placeBit_eq (value : Byte) (h : Filling s window)
    (hlength : window.length < packetLen * bitsPerByte) :
    ∃ t, placeBit s value = .ok (t, completed (window ++ [value.getLsbD 0])) ∧
      Filling t (window ++ [value.getLsbD 0]) := by
  rcases Nat.lt_or_ge ((window.length / bitsPerByte + headerLen) % chunkLen)
    (chunkLen - codec2FrameLen) with hlt | hge
  · exact placeBit_frame value h hlength hlt
  · exact placeBit_codec2 value h hlength hge

/-! ## One item -/

/-- What a demultiplexer has of the window since the last sync tag. -/
inductive Tracks : DemuxState → Option (List Bool) → Prop where
  | start (s : DemuxState) : Waiting s → Tracks s none
  | inside (s : DemuxState) (window : List Bool) : window.length ≤ packetLen * bitsPerByte →
      Filling s window → Tracks s (some window)
  | after (s : DemuxState) (window : List Bool) : packetLen * bitsPerByte < window.length →
      Waiting s → Tracks s (some window)

/-- An item that is skipped. -/
theorem demux_skip {item : Item} (h : Waiting s) (htag : item.tagged = false) :
    demux s item = .ok (s, []) := by
  simp [demux, beforeBit, h.position, htag, packetLen, bitsPerByte]

/-- An item that belongs to a window. -/
theorem demux_place {item : Item} {s' : DemuxState} (h : Filling s' window)
    (hlength : window.length < packetLen * bitsPerByte)
    (hbefore : beforeBit s item.tagged = (s', [])) :
    ∃ t, demux s item = .ok (t, completed (window ++ [item.value.getLsbD 0])) ∧
      Filling t (window ++ [item.value.getLsbD 0]) := by
  obtain ⟨t, hplace, ht⟩ := placeBit_eq item.value h hlength
  refine ⟨t, ?_, ht⟩
  have hne : s'.position ≠ -1 := by
    rw [h.position]
    omega
  simp only [demux, hbefore, if_neg hne, hplace, bind, Except.bind, pure, Except.pure,
    List.nil_append]

/-- The item after a full window. -/
theorem demux_full {item : Item} (h : Filling s window)
    (hlength : window.length = packetLen * bitsPerByte) (htag : item.tagged = false) :
    ∃ t, demux s item = .ok (t, [.frame (frameOf window)]) ∧ Waiting t := by
  obtain ⟨hposition, hframe, hcodec2⟩ := h
  refine ⟨⟨-1, List.replicate frameLen 0, s.codec2⟩, ?_, rfl, rfl, ?_⟩
  · have hpos : s.position = packetLen * bitsPerByte := by
      rw [hposition, hlength, Nat.cast_mul]
    simp [demux, beforeBit, htag, hpos, hframe]
  · rw [hcodec2, codec2Of_of_le]
    rw [hlength]
    decide

/-- A sync tag after which nothing of the window before it is left over. -/
theorem beforeBit_tagged (h : Tracks s (some window)) (hsettled : Settled window) :
    ∃ t, beforeBit s true = (t, []) ∧ Filling t [] := by
  refine ⟨{ s with position := 0 }, by simp [beforeBit, packetLen, bitsPerByte], ?_⟩
  cases h with
  | inside _ hle hfilling =>
    rcases hsettled with hlt | ⟨_, hframe, hcodec2⟩
    · omega
    · exact filling_nil rfl (hfilling.frame.trans hframe) (hfilling.codec2.trans hcodec2)
  | after _ _ hwaiting => exact filling_nil rfl hwaiting.frame hwaiting.codec2

theorem demux_tagged {item : Item} {s' : DemuxState} (htag : item.tagged = true)
    (hbefore : beforeBit s true = (s', [])) (h : Filling s' []) :
    ∃ t, demux s item = .ok (t, []) ∧ Tracks t (some [item.value.getLsbD 0]) := by
  rw [← htag] at hbefore
  obtain ⟨t, hdemux, ht⟩ := demux_place h (by decide) hbefore
  refine ⟨t, ?_, .inside _ _ (by simp [packetLen, bitsPerByte]) ht⟩
  rw [hdemux, completed_eq_nil]
  intro chunk _
  simp only [List.nil_append, List.length_singleton, chunkLen, headerLen, bitsPerByte]
  omega

theorem due_full (item : Item) (h : window.length = packetLen * bitsPerByte) :
    due (some window) item = [.frame (frameOf window)] := if_pos h

theorem due_tagged {item : Item} (h : window.length ≠ packetLen * bitsPerByte)
    (htag : item.tagged = true) : due (some window) item = [] := by
  rw [due, if_neg h, if_pos (Or.inl htag)]

theorem due_after (item : Item) (h : packetLen * bitsPerByte < window.length) :
    due (some window) item = [] := by
  rw [due, if_neg h.ne', if_pos (Or.inr h)]

theorem due_inside {item : Item} (h : window.length < packetLen * bitsPerByte)
    (htag : item.tagged = false) :
    due (some window) item = completed (window ++ [item.value.getLsbD 0]) := by
  rw [due, if_neg h.ne, if_neg (by simpa [htag] using h.le)]

/-- **Step.** Unless a sync tag comes while a set bit waits, an item publishes what is due. -/
theorem demux_step {since : Option (List Bool)} (item : Item) (h : Tracks s since)
    (hsettled : item.tagged → ∀ window, since = some window → Settled window) :
    ∃ t, demux s item = .ok (t, (windows since item).2) ∧ Tracks t (windows since item).1 := by
  cases htag : item.tagged with
  | true =>
    rw [windows, if_pos htag]
    cases since with
    | none =>
      cases h with
      | start hwaiting =>
        have hbefore : beforeBit s true = ({ s with position := 0 }, []) := by
          simp [beforeBit, packetLen, bitsPerByte]
        exact demux_tagged htag hbefore (filling_nil rfl hwaiting.frame hwaiting.codec2)
    | some window =>
      have hdone := hsettled htag window rfl
      obtain ⟨s', hbefore, hs'⟩ := beforeBit_tagged h hdone
      rw [due_tagged (by rcases hdone with hlt | ⟨hlt, _⟩ <;> omega) htag]
      exact demux_tagged htag hbefore hs'
  | false =>
    rw [windows, if_neg (by rw [htag]; decide)]
    cases h with
    | start hwaiting => exact ⟨s, demux_skip hwaiting htag, .start s hwaiting⟩
    | inside window hle hfilling =>
      rcases hle.lt_or_eq with hlt | heq
      · have hbefore : beforeBit s item.tagged = (s, []) := by
          have hne : s.position ≠ packetLen * bitsPerByte := by
            rw [hfilling.position]
            omega
          simp [beforeBit, htag, hne]
        obtain ⟨t, hdemux, ht⟩ := demux_place hfilling hlt hbefore
        rw [due_inside hlt htag]
        refine ⟨t, hdemux, .inside _ _ ?_ ht⟩
        simpa using hlt
      · obtain ⟨t, hdemux, ht⟩ := demux_full hfilling heq htag
        rw [due_full item heq]
        refine ⟨t, hdemux, .after _ _ ?_ ht⟩
        simp [heq]
    | after window hlt hwaiting =>
      rw [due_after item hlt]
      refine ⟨s, demux_skip hwaiting htag, .after _ _ ?_ hwaiting⟩
      rw [List.length_append]
      omega

/-! ## Runs -/

/-- The bits of some items. -/
def bitsOf (items : List Item) : List Bool := items.map fun item => item.value.getLsbD 0

/-- The codec2 frames of the chunks that a window has come to the end of. -/
def completedUpTo (window : List Bool) : List DemuxPdu :=
  (List.range (chunkAt window.length)).map fun chunk => .codec2 (codec2Of window chunk)

/-- A chunk that is complete does not change. -/
theorem codec2Of_append_bit (window : List Bool) (value : Byte) {chunk : ℕ}
    (h : chunk < chunkAt window.length) :
    codec2Of (window ++ [value.getLsbD 0]) chunk = codec2Of window chunk := by
  refine List.map_congr_left fun i hi => ?_
  rw [byteAt_append_bit, if_neg]
  have hlt := List.mem_range.mp hi
  simp only [chunkAt, bitsPerByte, headerLen, chunkLen, codec2FrameLen] at h hlt ⊢
  omega

theorem completedUpTo_append_bit (window : List Bool) (value : Byte)
    (hlength : window.length < packetLen * bitsPerByte) :
    completedUpTo (window ++ [value.getLsbD 0]) =
      completedUpTo window ++ completed (window ++ [value.getLsbD 0]) := by
  have hkeep : completedUpTo window = (List.range (chunkAt window.length)).map fun chunk =>
      .codec2 (codec2Of (window ++ [value.getLsbD 0]) chunk) :=
    List.map_congr_left fun chunk hchunk => by
      rw [codec2Of_append_bit _ _ (List.mem_range.mp hchunk)]
  have hlen : (window ++ [value.getLsbD 0]).length = window.length + 1 := by simp
  simp only [packetLen, bitsPerByte] at hlength
  rw [hkeep, completedUpTo, hlen]
  by_cases hlast : chunkAt (window.length + 1) = chunkAt window.length
  · rw [hlast, completed_eq_nil, List.append_nil]
    intro chunk _
    rw [hlen]
    simp only [chunkAt, bitsPerByte, headerLen, chunkLen] at hlast ⊢
    omega
  · have hnext : chunkAt (window.length + 1) = chunkAt window.length + 1 := by
      simp only [chunkAt, bitsPerByte, headerLen, chunkLen] at hlast ⊢
      omega
    rw [hnext, List.range_succ, List.map_append, List.map_singleton,
      completed_eq (chunkAt window.length)]
    · simp only [chunkAt, bitsPerByte, headerLen, chunkLen]
      omega
    · rw [hlen]
      simp only [chunkAt, bitsPerByte, headerLen, chunkLen] at hnext ⊢
      omega

/-- Untagged items extend the window, and complete its codec2 frames one by one. -/
theorem run_windows_untagged (value : Byte) {items : List Item}
    (hlength : items.length < packetLen * bitsPerByte)
    (huntagged : ∀ item ∈ items, item.tagged = false) :
    run windows (some [value.getLsbD 0]) items =
      (some (value.getLsbD 0 :: bitsOf items), completedUpTo (value.getLsbD 0 :: bitsOf items)) := by
  induction items using List.reverseRecOn with
  | nil =>
    have hnone : completedUpTo (value.getLsbD 0 :: bitsOf []) = [] := by
      simp [completedUpTo, bitsOf, chunkAt, bitsPerByte, headerLen, chunkLen]
    rw [run_nil, hnone]
    rfl
  | append_singleton items item ih =>
    rw [List.length_append, List.length_singleton] at hlength
    have htag : item.tagged = false := huntagged item (by simp)
    have hlt : (value.getLsbD 0 :: bitsOf items).length < packetLen * bitsPerByte := by
      rw [List.length_cons, bitsOf, List.length_map]
      exact hlength
    rw [run_append, run_singleton, ih (by omega) fun item hitem => huntagged item (by simp [hitem]),
      windows, due_inside hlt htag, if_neg (by rw [htag]; decide)]
    have hcons : value.getLsbD 0 :: bitsOf (items ++ [item]) =
        value.getLsbD 0 :: bitsOf items ++ [item.value.getLsbD 0] := by
      rw [bitsOf, List.map_append, List.map_singleton, List.cons_append, bitsOf]
    rw [Option.map_some, hcons, completedUpTo_append_bit _ _ hlt]

/-- **A whole window.** A window of which all items come before the next tag has its five codec2
frames and its frame published once, by the end of the item that follows it. -/
theorem run_windows_whole (since : Option (List Bool)) {first item : Item} {rest : List Item}
    (hfirst : first.tagged = true) (hrest : ∀ item ∈ rest, item.tagged = false)
    (hlength : (first :: rest).length = packetLen * bitsPerByte) :
    (run windows since (first :: rest ++ [item])).2 =
      due since first ++ (List.range 5).map (fun chunk =>
        .codec2 (codec2Of (bitsOf (first :: rest)) chunk)) ++
        [.frame (frameOf (bitsOf (first :: rest)))] := by
  have hcons : first.value.getLsbD 0 :: bitsOf rest = bitsOf (first :: rest) := rfl
  have hfull : (bitsOf (first :: rest)).length = packetLen * bitsPerByte := by
    rw [bitsOf, List.length_map, hlength]
  have hnext : windows since first = (some [first.value.getLsbD 0], due since first) := by
    rw [windows, if_pos hfirst]
  rw [run_append, run_singleton, run_cons windows since first rest, hnext,
    run_windows_untagged _ _ hrest, hcons, windows, due_full item hfull, completedUpTo, hfull]
  · rfl
  · rw [List.length_cons] at hlength
    omega

/-- **The windows of a stream.** If nothing waits in the buffers at any sync tag, a run of `work`
over any chunks of the stream succeeds and publishes what is due at each item, in order. So by
the end of the item after a whole window, its PDUs have been published once each. -/
theorem runDemux_windows (chunks : List (List Item))
    (hsettled : ∀ before item after, chunks.flatten = before ++ item :: after → item.tagged →
      ∀ window, (run windows none before).1 = some window → Settled window) :
    ∃ s, runE (runE demux) .init chunks = .ok (s, (run windows none chunks.flatten).2) ∧
      ∀ before first rest item, chunks.flatten = before ++ (first :: rest ++ [item]) →
        first.tagged → (∀ item ∈ rest, item.tagged = false) →
        (first :: rest).length = packetLen * bitsPerByte →
        (run windows none chunks.flatten).2 = (run windows none (before ++ [first])).2 ++
          (List.range 5).map (fun chunk => .codec2 (codec2Of (bitsOf (first :: rest)) chunk)) ++
          [.frame (frameOf (bitsOf (first :: rest)))] := by
  have hinit : Tracks .init none := by
    constructor
    constructor <;> rfl
  obtain ⟨s, hrun, _⟩ := runE_simulation chunks.flatten hinit
    fun before item s ⟨after, hstream⟩ htracks =>
      demux_step item htracks (hsettled before item after (by simpa using hstream.symm))
  refine ⟨s, by rw [runE_chunks, hrun], ?_⟩
  intro before first rest item hstream hfirst hrest hlength
  have hbefore : (run windows none (before ++ [first])).2 =
      (run windows none before).2 ++ due (run windows none before).1 first := by
    rw [run_append, run_singleton]
    rfl
  rw [hstream, run_append, run_windows_whole _ hfirst hrest hlength, hbefore]
  simp only [List.append_assoc]

/-- A stream of one window and one more item, in two calls. -/
theorem runDemux_windows_one_window :
    let chunks := [[⟨1, true⟩], List.replicate 928 ⟨0, false⟩]
    ∃ s, runE (runE demux) .init chunks = .ok (s, (run windows none chunks.flatten).2) := by
  obtain ⟨s, hrun, _⟩ := runDemux_windows [[⟨1, true⟩], List.replicate 928 ⟨0, false⟩] (by
    intro before item after hstream htag window hwindow
    cases before with
    | nil => cases hwindow
    | cons first before =>
      obtain ⟨_, hrest⟩ := List.cons_eq_cons.mp hstream
      have hmem : item ∈ List.replicate 928 (⟨0, false⟩ : Item) ++ [] := by
        rw [show List.replicate 928 ⟨0, false⟩ ++ [] = before ++ item :: after from hrest]
        exact List.mem_append_right _ List.mem_cons_self
      rw [List.append_nil] at hmem
      rw [List.eq_of_mem_replicate hmem] at htag
      cases htag)
  exact ⟨s, hrun⟩

/-- A sync tag after 105 set bits leaves them in the codec2 buffer, and they come out in the
first codec2 frame of the next window, which is zero. -/
theorem runDemux_tag_in_window :
    let stream := ⟨1, true⟩ :: List.replicate 104 ⟨1, false⟩ ++
      ⟨0, true⟩ :: List.replicate 159 ⟨0, false⟩
    (runE demux .init stream).map Prod.snd = .ok [.codec2 [0x80, 0, 0, 0, 0, 0, 0]] ∧
      (run windows none stream).2 = [.codec2 [0, 0, 0, 0, 0, 0, 0]] := by
  constructor <;> decide +kernel

end GrSatellites.Lilacsat
