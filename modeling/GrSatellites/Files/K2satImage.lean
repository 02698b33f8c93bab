import GrSatellites.Files.Sequential

/-!
# Images of K2SAT

The class `ImageReceiverK2SAT` of `python/filereceiver/k2sat.py`. A frame has a counter in one byte,
and a first header pointer that is zero in the first frame of an image and `ff` in the last one.
The counter is unwrapped each time that the sequence number is asked for.
-/

namespace GrSatellites.Files.K2sat

open Routine SequenceChunk

variable {P : Type}

/-- The attributes `_last_frame_count`, `_unwrap` and `_first_header_frame_count`. -/
structure Counters where
  lastFrameCount : Option ℤ
  unwrap : ℤ
  firstHeaderFrameCount : Option ℤ

/-- The counters after construction. -/
def Counters.init : Counters := ⟨none, 0, none⟩

/-- `chunk[i]`. -/
def byteOf (chunk : List Byte) (i : ℕ) : Method P Counters ℕ :=
  match chunk[i]? with
  | none => throw (.exception "IndexError")
  | some byte => return byte.toNat

/-- `_first_header_pointer`. -/
def firstHeaderPointer (chunk : List Byte) : Method P Counters ℕ := byteOf chunk (16 + 3)

/-- `_virtual_channel_frame_count`. -/
def virtualChannelFrameCount (chunk : List Byte) : Method P Counters ℕ := byteOf chunk (16 + 2)

/-- The unwrapped count and the counters, once a frame with the given count has been seen. -/
def Counters.unwrapCount (h : Counters) (count : ℕ) : ℤ × Counters :=
  let fc := count + h.unwrap
  if h.lastFrameCount.any (fc < ·) then
    (fc + 256, { h with lastFrameCount := some (fc + 256), unwrap := h.unwrap + 256 })
  else (fc, { h with lastFrameCount := some fc })

/-- `_unwrapped_frame_count`. -/
def unwrappedFrameCount (chunk : List Byte) : Method P Counters ℤ := do
  let count ← virtualChannelFrameCount chunk
  let (fc, h) := (← get).hooks.unwrapCount count
  modify fun s => { s with hooks := h }
  return fc

/-- `chunk_sequence`. The count is not unwrapped before the first frame of an image is known. -/
def chunkSequence (chunk : List Byte) : Method P Counters (Option ℤ) := do
  if (← firstHeaderPointer chunk) = 0 then
    let fc ← unwrappedFrameCount chunk
    modify fun s => { s with hooks := { s.hooks with firstHeaderFrameCount := some fc } }
    return some 0
  match (← get).hooks.firstHeaderFrameCount with
  | none => return none
  | some first => return some ((← unwrappedFrameCount chunk) - first)

/-- The receiver. -/
def receiver (lib : Pathlib P) (path : P) : FileReceiver P Counters (List Byte) (List Byte) where
  lib := lib
  path := path
  parseChunk chunk := pure (if 16 + 4 + 1 < chunk.length then some chunk else none)
  fileId _ := pure none
  chunkSequence := chunkSequence
  chunkOffset := defaultChunkOffset (pure none) chunkSequence fun _ => none
  chunkData chunk := pure (chunk.drop 20).dropLast
  fileChunks _ := pure none
  fileSize _ := pure none
  isLastChunk chunk := do return some ((← firstHeaderPointer chunk) = 0xff)
  filename fid := pure (fid.toStr ++ ".jpg")
  onCompletion _ := pure ()

/-! ## Frames -/

/-- A frame of an image with its true count. The header ends before the count. -/
structure Frame where
  header : List Byte
  count : ℕ
  pointer : Byte
  data : List Byte
  trailer : Byte
  length_header : header.length = 16 + 2
  data_ne_nil : data ≠ []

namespace Frame

/-- The frame as it is received: the count is sent modulo 256. -/
def bytes (f : Frame) : List Byte :=
  f.header ++ BitVec.ofNat 8 f.count :: f.pointer :: (f.data ++ [f.trailer])

/-- The frame in an image whose first frame has the given count. -/
def sequenceChunk (first : ℕ) (f : Frame) : SequenceChunk :=
  ⟨f.count - first, f.data, some (f.pointer.toNat = 0xff)⟩

end Frame

/-- The frames of an image as they are received, with their chunks, counted from the first one. -/
def numbered : List Frame → List (List Byte × SequenceChunk)
  | [] => []
  | first :: frames => (first :: frames).map fun f => (f.bytes, f.sequenceChunk first.count)

/-- The frames received of an image: the first one, and some of the others. -/
structure IsImage (image : List Frame) : Prop where
  first : ∃ f ∈ image.head?, f.pointer = 0
  later : ∀ f ∈ image.tail, f.pointer ≠ 0
  last : ∀ f ∈ image.dropLast, f.pointer ≠ 0xff

/-- The next frame that is received comes less than 256 frames later. -/
def Next (f g : Frame) : Prop := f.count < g.count ∧ g.count < f.count + 256

/-! ## The counters -/

/-- The last frame had the count `n`, and the counter started `k` frames late, at the last wrap
before the first frame. -/
structure Counts (h : Counters) (k n : ℕ) : Prop where
  dvd : 256 ∣ k
  le : k ≤ n
  last : h.lastFrameCount = some ((n : ℤ) - k)
  unwrap : h.unwrap = ((n - k) / 256 * 256 : ℕ)

theorem Counts.eq {h h' : Counters} {k n : ℕ} (hh : Counts h k n) (hh' : Counts h' k n)
    (hfirst : h.firstHeaderFrameCount = h'.firstHeaderFrameCount) : h = h' := by
  obtain ⟨last, unwrap, first⟩ := h
  obtain ⟨last', unwrap', first'⟩ := h'
  obtain rfl : last = last' := hh.last.trans hh'.last.symm
  obtain rfl : unwrap = unwrap' := hh.unwrap.trans hh'.unwrap.symm
  obtain rfl : first = first' := hfirst
  rfl

/-- A frame with the count `m` is unwrapped to it, from where the counter has started. -/
def Unwraps (h : Counters) (k m : ℕ) : Prop :=
  ∃ h', h.unwrapCount (m % 256) = ((m : ℤ) - k, h') ∧ Counts h' k m ∧
    h'.firstHeaderFrameCount = h.firstHeaderFrameCount

theorem unwraps_init (m : ℕ) : Unwraps .init (m / 256 * 256) m := by
  have hsplit : ((m % 256 : ℕ) : ℤ) = (m : ℤ) - (m / 256 * 256 : ℕ) := by omega
  refine ⟨⟨some (m % 256 : ℕ), 0, none⟩, ?_, ⟨Nat.dvd_mul_left _ _, by omega, ?_, ?_⟩, rfl⟩
  · rw [← hsplit]
    simp [Counters.unwrapCount, Counters.init]
  · rw [hsplit]
  · simp only [eq_comm (a := (0 : ℤ)), Nat.cast_eq_zero]
    omega

/-- The next frame, or the same one again. -/
theorem Counts.unwraps {h : Counters} {k n m : ℕ} (hh : Counts h k n) (hle : n ≤ m)
    (hlt : m < n + 256) : Unwraps h k m := by
  obtain ⟨⟨q, rfl⟩, hk, hlast, hunwrap⟩ := hh
  refine ⟨⟨some ((m : ℤ) - (256 * q : ℕ)), ((m - 256 * q) / 256 * 256 : ℕ),
    h.firstHeaderFrameCount⟩, ?_, ⟨Nat.dvd_mul_right _ _, by omega, rfl, rfl⟩, rfl⟩
  rw [Counters.unwrapCount, hlast, hunwrap]
  simp only [Option.any_some, decide_eq_true_eq]
  -- a wrap is seen when the low byte of the count is below that of the last count
  by_cases hwrap : m % 256 + (n - 256 * q) / 256 * 256 < n - 256 * q
  · have hvalue : ((m % 256 : ℕ) : ℤ) + ((n - 256 * q) / 256 * 256 : ℕ) + 256 =
        (m : ℤ) - (256 * q : ℕ) := by omega
    have hunwrapped : (((n - 256 * q) / 256 * 256 : ℕ) : ℤ) + 256 =
        ((m - 256 * q) / 256 * 256 : ℕ) := by omega
    rw [if_pos (by omega), hvalue, hunwrapped]
  · have hvalue : ((m % 256 : ℕ) : ℤ) + ((n - 256 * q) / 256 * 256 : ℕ) =
        (m : ℤ) - (256 * q : ℕ) := by omega
    have hunwrapped : (((n - 256 * q) / 256 * 256 : ℕ) : ℤ) =
        ((m - 256 * q) / 256 * 256 : ℕ) := by omega
    rw [if_neg (by omega), hvalue, hunwrapped]

/-! ## One frame -/

namespace Frame

variable (f : Frame) {h h' : Counters} {k first : ℕ}

theorem bytes_count : f.bytes[16 + 2]? = some (BitVec.ofNat 8 f.count) := by
  rw [bytes, List.getElem?_append_right f.length_header.le, f.length_header]
  rfl

theorem bytes_pointer : f.bytes[16 + 3]? = some f.pointer := by
  rw [bytes, List.getElem?_append_right (by rw [f.length_header]; omega), f.length_header]
  rfl

theorem bytes_data : (f.bytes.drop 20).dropLast = f.data := by
  have hdrop : f.bytes.drop 20 = f.data ++ [f.trailer] := by
    rw [bytes, List.drop_append, f.length_header,
      List.drop_eq_nil_of_le (by rw [f.length_header]; omega)]
    rfl
  rw [hdrop, List.dropLast_concat]

theorem lt_length_bytes : 16 + 4 + 1 < f.bytes.length := by
  have hdata := List.length_pos_iff.mpr f.data_ne_nil
  simp only [bytes, List.length_append, List.length_cons, List.length_nil, f.length_header]
  omega

variable {f}

theorem answers_firstHeaderPointer :
    Answers (firstHeaderPointer f.bytes : Method P Counters ℕ) h f.pointer.toNat h := by
  rintro s rfl
  rw [firstHeaderPointer, byteOf, f.bytes_pointer]
  rfl

theorem answers_unwrappedFrameCount (hh : Unwraps h k f.count) :
    ∃ h', Answers (unwrappedFrameCount f.bytes : Method P Counters ℤ) h ((f.count : ℤ) - k) h' ∧
      Counts h' k f.count ∧ h'.firstHeaderFrameCount = h.firstHeaderFrameCount := by
  obtain ⟨h', hunwrap, hcounts, hfirst⟩ := hh
  refine ⟨h', ?_, hcounts, hfirst⟩
  rintro s rfl
  have hbyte : (BitVec.ofNat 8 f.count).toNat = f.count % 256 := BitVec.toNat_ofNat _ _
  have hcount : exec (virtualChannelFrameCount f.bytes : Method P Counters ℕ) s =
      (.ok (f.count % 256), s) := by
    rw [virtualChannelFrameCount, byteOf, f.bytes_count]
    dsimp only
    rw [hbyte, exec_pure]
  rw [unwrappedFrameCount, exec_bind_ok hcount, exec_get_bind, hunwrap]
  rfl

/-- The first frame of an image. -/
theorem answers_chunkSequence_first (hpointer : f.pointer = 0) (hh : Unwraps h k f.count) :
    ∃ h', Answers (chunkSequence f.bytes : Method P Counters (Option ℤ)) h (some 0) h' ∧
      Counts h' k f.count ∧ h'.firstHeaderFrameCount = some ((f.count : ℤ) - k) := by
  obtain ⟨h', hanswers, hcounts, -⟩ := answers_unwrappedFrameCount (P := P) hh
  refine ⟨{ h' with firstHeaderFrameCount := some ((f.count : ℤ) - k) }, ?_,
    ⟨hcounts.dvd, hcounts.le, hcounts.last, hcounts.unwrap⟩, rfl⟩
  intro s hs
  rw [chunkSequence, exec_bind_ok (answers_firstHeaderPointer.exec_self hs), hpointer,
    if_pos (show (0 : Byte).toNat = 0 from rfl), exec_bind_ok (hanswers s hs)]
  rfl

/-- A later frame of an image. -/
theorem answers_chunkSequence_later (hpointer : f.pointer ≠ 0) (hh : Unwraps h k f.count)
    (hfirst : h.firstHeaderFrameCount = some ((first : ℤ) - k)) :
    ∃ h', Answers (chunkSequence f.bytes : Method P Counters (Option ℤ)) h
        (some ((f.count : ℤ) - first)) h' ∧
      Counts h' k f.count ∧ h'.firstHeaderFrameCount = some ((first : ℤ) - k) := by
  obtain ⟨h', hanswers, hcounts, hfirst'⟩ := answers_unwrappedFrameCount (P := P) hh
  refine ⟨h', ?_, hcounts, hfirst'.trans hfirst⟩
  intro s hs
  have hnonzero : ¬f.pointer.toNat = 0 := fun h => hpointer (BitVec.eq_of_toNat_eq h)
  rw [chunkSequence, exec_bind_ok (answers_firstHeaderPointer.exec_self hs), if_neg hnonzero,
    exec_get_bind, hs, hfirst]
  dsimp only
  rw [exec_bind_ok (hanswers s hs)]
  have hvalue : (f.count : ℤ) - k - (first - k) = f.count - first := by ring
  rw [hvalue]
  rfl

/-- Asking for the sequence number again does not change it. -/
theorem hears (lib : Pathlib P) (path : P) {c : SequenceChunk} (hdata : c.data = f.data)
    (hlast : c.isLast = some (decide (f.pointer.toNat = 0xff)))
    (hseq : Answers (chunkSequence f.bytes : Method P Counters (Option ℤ)) h (some c.number) h')
    (hagain : Answers (chunkSequence f.bytes : Method P Counters (Option ℤ)) h' (some c.number) h') :
    Hears (receiver lib path) f.bytes h h h' h' c.chunk c.isLast where
  parse := by
    refine ⟨f.bytes, ?_, .pure _ _, hseq, .pure _ _, .pure _ _, .pure _ _, ?_, ?_, ?_⟩
    · rintro s rfl
      show exec (pure (if 16 + 4 + 1 < f.bytes.length then some f.bytes else none)) s = _
      rw [if_pos f.lt_length_bytes, exec_pure]
    · intro s hs
      show exec (defaultChunkOffset (pure none) chunkSequence (fun _ => none) f.bytes) s = _
      rw [defaultChunkOffset]
      dsimp only
      rw [exec_pure_bind, exec_bind_ok (hagain s hs)]
      rfl
    · rintro s rfl
      show exec (pure (f.bytes.drop 20).dropLast) s = _
      rw [f.bytes_data, ← hdata]
      rfl
    · intro s hs
      show exec (firstHeaderPointer f.bytes >>= fun fh => pure (some (decide (fh = 0xff)))) s = _
      rw [exec_bind_ok (answers_firstHeaderPointer.exec_self hs), hlast, ← hs]
      rfl
  filename fid := ⟨_, rfl⟩
  onCompletion _ := rfl

theorem hears_first (lib : Pathlib P) (path : P) (hpointer : f.pointer = 0)
    (hh : Unwraps h k f.count) :
    ∃ h', Hears (receiver lib path) f.bytes h h h' h' (f.sequenceChunk f.count).chunk
        (f.sequenceChunk f.count).isLast ∧
      Counts h' k f.count ∧ h'.firstHeaderFrameCount = some ((f.count : ℤ) - k) := by
  obtain ⟨h', hseq, hcounts, hfirst⟩ := answers_chunkSequence_first (P := P) hpointer hh
  obtain ⟨h'', hseq', hcounts', hfirst'⟩ :=
    answers_chunkSequence_first (P := P) hpointer (hcounts.unwraps le_rfl (by omega))
  obtain rfl := hcounts.eq hcounts' (hfirst.trans hfirst'.symm)
  have hnumber : (f.sequenceChunk f.count).number = 0 := Nat.sub_self _
  refine ⟨h', hears lib path rfl rfl ?_ ?_, hcounts, hfirst⟩
  · rw [hnumber]
    exact hseq
  · rw [hnumber]
    exact hseq'

theorem hears_later (lib : Pathlib P) (path : P) (hpointer : f.pointer ≠ 0)
    (hh : Unwraps h k f.count) (hfirst : h.firstHeaderFrameCount = some ((first : ℤ) - k))
    (hle : first ≤ f.count) :
    ∃ h', Hears (receiver lib path) f.bytes h h h' h' (f.sequenceChunk first).chunk
        (f.sequenceChunk first).isLast ∧
      Counts h' k f.count ∧ h'.firstHeaderFrameCount = some ((first : ℤ) - k) := by
  obtain ⟨h', hseq, hcounts, hfirst'⟩ := answers_chunkSequence_later (P := P) hpointer hh hfirst
  obtain ⟨h'', hseq', hcounts', hfirst''⟩ :=
    answers_chunkSequence_later (P := P) hpointer (hcounts.unwraps le_rfl (by omega)) hfirst'
  obtain rfl := hcounts.eq hcounts' (hfirst'.trans hfirst''.symm)
  have hnumber : (((f.sequenceChunk first).number : ℕ) : ℤ) = f.count - first := Nat.cast_sub hle
  refine ⟨h', hears lib path rfl rfl ?_ ?_, hcounts, hfirst'⟩
  · rw [hnumber]
    exact hseq
  · rw [hnumber]
    exact hseq'

end Frame

/-! ## Runs -/

section Runs

variable (lib : Pathlib P) (path : P) {h h' : Counters} {k n first : ℕ}

/-- The frames of an image after the first one. -/
theorem hearsAll_later {frames : List Frame} {last : Frame} (hpointers : ∀ f ∈ frames, f.pointer ≠ 0)
    (hcounts : Counts h k last.count) (hfirst : h.firstHeaderFrameCount = some ((first : ℤ) - k))
    (hle : first ≤ last.count) (hnext : (last :: frames).IsChain Next) :
    ∃ h', HearsAll (receiver lib path) h (frames.map fun f => (f.bytes, f.sequenceChunk first)) h' ∧
      ∀ f ∈ (last :: frames).getLast?, Counts h' k f.count := by
  induction frames generalizing h last with
  | nil =>
    refine ⟨h, .nil h, fun f hf => ?_⟩
    obtain rfl := Option.some.inj hf
    exact hcounts
  | cons f frames ih =>
    obtain ⟨⟨hlt, hbound⟩, hrest⟩ := List.isChain_cons_cons.mp hnext
    obtain ⟨h₁, hhears, hcounts₁, hfirst₁⟩ := Frame.hears_later lib path
      (hpointers f List.mem_cons_self) (hcounts.unwraps hlt.le hbound) hfirst (hle.trans hlt.le)
    obtain ⟨h', hall, hlast⟩ := ih (fun g hg => hpointers g (List.mem_cons_of_mem _ hg)) hcounts₁
      hfirst₁ (hle.trans hlt.le) hrest
    exact ⟨h', .cons hhears hall, by rwa [List.getLast?_cons_cons]⟩

theorem hearsAll_image {image : List Frame} (himage : IsImage image) (hnext : image.IsChain Next)
    (hstart : ∀ f ∈ image.head?, ∃ k, Unwraps h k f.count) :
    ∃ h', HearsAll (receiver lib path) h (numbered image) h' ∧
      ∀ f ∈ image.getLast?, ∃ k, Counts h' k f.count := by
  cases image with
  | nil => exact ⟨h, .nil h, fun f hf => nomatch hf⟩
  | cons first frames =>
    obtain ⟨f, hf, hpointer⟩ := himage.first
    obtain rfl : first = f := Option.some.inj hf
    obtain ⟨k, hunwraps⟩ := hstart first hf
    obtain ⟨h₁, hhears, hcounts, hfirst⟩ := Frame.hears_first lib path hpointer hunwraps
    obtain ⟨h', hall, hlast⟩ := hearsAll_later lib path himage.later hcounts hfirst le_rfl hnext
    exact ⟨h', .cons hhears hall, fun f hf => ⟨k, hlast f hf⟩⟩

/-- **The counter.** Each frame is given its distance from the first frame of its image. -/
theorem hearsAll_images {images : List (List Frame)} (himages : ∀ image ∈ images, IsImage image)
    (hnext : images.flatten.IsChain Next)
    (hstart : ∀ f ∈ images.flatten.head?, ∃ k, Unwraps h k f.count) :
    ∃ h', HearsAll (receiver lib path) h (images.map numbered).flatten h' := by
  induction images generalizing h with
  | nil => exact ⟨h, .nil h⟩
  | cons image images ih =>
    rw [List.flatten_cons] at hnext hstart
    obtain ⟨hnext₁, hnext₂, hbetween⟩ := List.isChain_append.mp hnext
    have himage := himages image List.mem_cons_self
    obtain ⟨first, hfirst, -⟩ := himage.first
    obtain ⟨h₁, hhears, hlast⟩ := hearsAll_image lib path himage hnext₁ fun f hf =>
      hstart f (by rw [List.head?_append, hf]; rfl)
    obtain ⟨h', hall⟩ := ih (h := h₁)
      (fun image' himage' => himages image' (List.mem_cons_of_mem _ himage'))
      hnext₂ fun g hg => by
        have hne : image ≠ [] := by
          rintro rfl
          cases hfirst
        have hmem := List.getLast?_eq_some_getLast hne
        obtain ⟨k, hcounts⟩ := hlast _ hmem
        obtain ⟨hlt, hbound⟩ := hbetween _ hmem g hg
        exact ⟨k, hcounts.unwraps hlt.le hbound⟩
    exact ⟨h', hhears.append hall⟩

end Runs

/-- The first frame of an image has the lowest count. -/
theorem first_le_of_next {image : List Frame} (hnext : image.IsChain Next) {first : Frame}
    (hfirst : image.head? = some first) : ∀ f ∈ image, first.count ≤ f.count := by
  cases image with
  | nil => cases hfirst
  | cons g frames =>
    obtain rfl := Option.some.inj hfirst
    intro f hf
    rcases List.mem_cons.mp hf with rfl | hf
    · exact le_rfl
    · have hincreasing : (g :: frames).Pairwise (·.count < ·.count) :=
        (hnext.imp fun _ _ h => h.1).pairwise
      exact ((List.pairwise_cons.mp hincreasing).1 f hf).le

/-- The chunks of an image are in order. -/
theorem IsImage.isSequence {image : List Frame} (himage : IsImage image)
    (hnext : image.IsChain Next) : IsSequence ((numbered image).map Prod.snd) := by
  obtain ⟨first, hfirst, hpointer⟩ := himage.first
  cases image with
  | nil => cases hfirst
  | cons f frames =>
    obtain rfl := Option.some.inj hfirst
    have hmap : (numbered (f :: frames)).map Prod.snd =
        (f :: frames).map (·.sequenceChunk f.count) := by
      rw [numbered, List.map_map]
      rfl
    have hincreasing : (f :: frames).Pairwise (·.count < ·.count) :=
      (hnext.imp fun _ _ h => h.1).pairwise
    rw [hmap]
    refine ⟨⟨_, rfl, Nat.sub_self _, by simp [Frame.sequenceChunk, hpointer]⟩, ?_, ?_⟩
    · rw [List.pairwise_map]
      refine hincreasing.imp_of_mem fun {a b} ha _ hab => ?_
      exact Nat.sub_lt_sub_right (first_le_of_next hnext rfl a ha) hab
    · rw [← List.map_dropLast]
      intro c hc
      obtain ⟨g, hg, rfl⟩ := List.mem_map.mp hc
      have hlast := himage.last g hg
      simpa [Frame.sequenceChunk] using fun h => hlast (BitVec.eq_of_toNat_eq h)

/-- Without a gap, the chunks are those that are expected. -/
theorem beforeGap_sequenceChunk {first n : ℕ} {frames : List Frame}
    (hstart : ∀ f ∈ frames.head?, f.count = first + n)
    (hgapless : frames.IsChain fun f g => g.count = f.count + 1) :
    beforeGap n (frames.map (·.sequenceChunk first)) = frames.map (·.sequenceChunk first) := by
  induction frames generalizing n with
  | nil => rfl
  | cons f frames ih =>
    have hf : f.count = first + n := hstart f rfl
    have hnumber : (f.sequenceChunk first).number = n := by
      rw [Frame.sequenceChunk, hf, Nat.add_sub_cancel_left]
    rw [List.map_cons, beforeGap, if_pos hnumber, ih (fun g hg => ?_) hgapless.of_cons]
    cases frames with
    | nil => cases hg
    | cons g' frames =>
      obtain rfl := Option.some.inj hg
      have := (List.isChain_cons_cons.mp hgapless).1
      omega

theorem reassemble_numbered {image : List Frame}
    (hgapless : image.IsChain fun f g => g.count = f.count + 1) :
    reassemble ((numbered image).map Prod.snd) = image.flatMap Frame.data := by
  cases image with
  | nil => rfl
  | cons first frames =>
    have hmap : (numbered (first :: frames)).map Prod.snd =
        (first :: frames).map (·.sequenceChunk first.count) := by
      rw [numbered, List.map_map]
      rfl
    rw [hmap, reassemble, beforeGap_sequenceChunk (fun f hf => ?_) hgapless, List.flatMap_map]
    · rfl
    · obtain rfl := Option.some.inj hf
      rfl

theorem map_fst_numbered (images : List (List Frame)) :
    (images.map numbered).flatten.map Prod.fst = images.flatten.map Frame.bytes := by
  have hfst (image : List Frame) : (numbered image).map Prod.fst = image.map Frame.bytes := by
    cases image with
    | nil => rfl
    | cons first frames => simp [numbered]
  rw [List.map_flatten, List.map_map, List.map_flatten]
  exact congrArg List.flatten (List.map_congr_left fun image _ => hfst image)

/-- **Images of K2SAT.** What the receiver does with some frames of successive images. -/
structure Reassembles [DecidableEq P] (r : FileReceiver P Counters (List Byte) (List Byte))
    (s : Receiver P Counters) (images : List (List Frame)) : Prop where
  number : ∀ before image later part f rest, images = before ++ image :: later →
    image = part ++ f :: rest → ∀ first ∈ image.head?,
      let t := r.pushAll s ((before.flatten ++ part).map Frame.bytes)
      ∃ h, Hears r f.bytes t.hooks t.hooks h h
        ⟨none, some ((f.count : ℤ) - first.count), none, f.data, none, none⟩
        (some (decide (f.pointer.toNat = 0xff)))
  stored : Reassembled (images.map fun image => (numbered image).map Prod.snd)
    (r.pushAll s (images.flatten.map Frame.bytes))
  whole : ∀ (j : ℕ) image, images[j]? = some image →
    (image.IsChain fun f g => g.count = f.count + 1) →
    let t := r.pushAll s (images.flatten.map Frame.bytes)
    ∃ f, t.files (.int j) = some f ∧ t.disk f.path = some (image.flatMap Frame.data)

/-- **Images of K2SAT.** Whatever the counter does, each frame is given its distance from the first
frame of its image, and the images are reassembled up to their first gap. -/
theorem reassembles [DecidableEq P] (lib : Pathlib P) (path : P) {d : Directory P}
    (hr : (receiver lib path).Creates d) (hids : ∀ n, .int n ∈ d.ids)
    {disk : P → Option (List Byte)} (hdisk : d.Vacant disk) (uuids : ℕ → String)
    {images : List (List Frame)} (himages : ∀ image ∈ images, IsImage image)
    (hnext : images.flatten.IsChain Next) :
    Reassembles (receiver lib path) (.init disk uuids .init) images := by
  obtain ⟨h', hears⟩ := hearsAll_images lib path himages hnext fun f _ => ⟨_, unwraps_init f.count⟩
  have hready := readySequence_init hdisk uuids Counters.init
  have hsequence : ∀ image ∈ images, IsSequence ((numbered image).map Prod.snd) := fun image himage =>
    (himages image himage).isSequence <| List.IsChain.infix hnext (List.infix_of_mem_flatten himage)
  have hmapped : ∀ image ∈ images.map numbered, IsSequence (image.map Prod.snd) := by
    intro chunks hchunks
    obtain ⟨image, himage, rfl⟩ := List.mem_map.mp hchunks
    exact hsequence image himage
  have hstored := (hready.pushAll hr hids hears hmapped).reassembled
  rw [map_fst_numbered, List.nil_append, List.map_map] at hstored
  refine ⟨?_, hstored, fun j image hj hgapless => ?_⟩
  · rintro before image later part f rest rfl rfl first hfirst
    -- the frame is one of an image, whose first frame is known
    obtain ⟨frames, hframes⟩ : ∃ frames, part ++ f :: rest = first :: frames := by
      cases part with
      | nil => exact ⟨rest, by rw [← Option.some.inj hfirst]; rfl⟩
      | cons g part => exact ⟨part ++ f :: rest, by rw [← Option.some.inj hfirst]; rfl⟩
    have hnumbered : numbered (part ++ f :: rest) =
        part.map (fun g => (g.bytes, g.sequenceChunk first.count)) ++
          (f.bytes, f.sequenceChunk first.count) ::
            rest.map fun g => (g.bytes, g.sequenceChunk first.count) := by
      rw [hframes, numbered, ← hframes, List.map_append, List.map_cons]
    have himage := hsequence (part ++ f :: rest) (by simp)
    rw [List.map_append, List.map_cons, hnumbered] at hears
    rw [hnumbered] at himage
    obtain ⟨h₁, hnext₁⟩ := hready.hears_next hr hids hears
      (fun chunks hchunks =>
        hmapped chunks (by rw [List.map_append]; exact List.mem_append_left _ hchunks))
      himage
    have hraws : ((before.map numbered).flatten ++
        part.map fun g => (g.bytes, g.sequenceChunk first.count)).map Prod.fst =
          (before.flatten ++ part).map Frame.bytes := by
      rw [List.map_append, map_fst_numbered, List.map_map, List.map_append]
      rfl
    have hle : first.count ≤ f.count := by
      have hchain : (part ++ f :: rest).IsChain Next :=
        List.IsChain.infix hnext (List.infix_of_mem_flatten (by simp))
      exact first_le_of_next hchain hfirst f (by simp)
    rw [hraws] at hnext₁
    dsimp only
    rw [← Nat.cast_sub hle]
    exact ⟨h₁, hnext₁⟩
  · obtain ⟨f, hf, hdisk⟩ := hstored.stored j _ (by rw [List.getElem?_map, hj]; rfl)
    exact ⟨f, hf, hdisk.trans (congrArg some (reassemble_numbered hgapless))⟩

theorem length_blank : (List.replicate 18 (0 : Byte)).length = 16 + 2 := List.length_replicate

theorem singleton_ne_nil (byte : Byte) : [byte] ≠ [] := List.cons_ne_nil byte []

/-- A frame with one byte of an image. -/
def shortFrame (count : ℕ) (pointer byte : Byte) : Frame :=
  ⟨List.replicate 18 0, count, pointer, [byte], 0, length_blank, singleton_ne_nil byte⟩

/-- Two images; the counter wraps in the first one, after a frame that is lost. -/
theorem reassembles_wrapped :
    Reassembles (receiver plainNames "files") (.init (fun _ => none) (fun _ => "") .init)
      [[shortFrame 254 0 1, shortFrame 255 9 2, shortFrame 257 0xff 3],
        [shortFrame 258 0 4, shortFrame 259 0xff 5]] := by
  refine reassembles plainNames "files"
    (FileReceiver.creates_plain rfl rfl fun _ => rfl) (fun n => ⟨n, rfl⟩)
    (fun _ _ => rfl) (fun _ => "") (fun image himage => ?_) ?_
  · rcases List.mem_cons.mp himage with rfl | himage
    · exact ⟨⟨_, rfl, rfl⟩, by simp [shortFrame], by simp [shortFrame]⟩
    · obtain rfl := List.mem_singleton.mp himage
      exact ⟨⟨_, rfl, rfl⟩, by simp [shortFrame], by simp [shortFrame]⟩
  · simp [Next, shortFrame]

end GrSatellites.Files.K2sat
