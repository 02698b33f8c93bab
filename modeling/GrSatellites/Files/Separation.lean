import GrSatellites.Files.Archive
import Mathlib.Data.List.Chain

/-!
# Images without file ids

A receiver whose chunks have a fixed size and no file id: the class `ImageReceiverSwiatowid` of
`python/filereceiver/swiatowid.py`, and the base class with `chunk_sequence` and `chunk_size`. A new
image is noticed when the sequence number has decreased. What is kept through a run is that the
last file expects a number above all those of its image.
-/

namespace GrSatellites.Files

open ByteFile Function Routine

variable {P σ R C : Type}

/-- The base class, with `chunk_size` defined. -/
def sizedReceiver (lib : Pathlib P) (path : P) (size : ℤ) : FileReceiver P Unit Chunk Chunk :=
  { defaultReceiver lib path with
    chunkOffset :=
      defaultChunkOffset (pure (some size)) (fun chunk => pure chunk.sequence) Chunk.offset }

namespace Swiatowid

/-- `block_size`. -/
def blockSize : ℕ := 46

/-- `swiatowid_image_block`. -/
structure ImageBlock where
  sequence : ℕ
  data : List Byte

/-- `swiatowid_image_block.parse`. -/
def ImageBlock.parse : List Byte → Option ImageBlock
  | low :: high :: data =>
    if data.length < blockSize then none
    else some ⟨low.toNat + 256 * high.toNat, data.take blockSize⟩
  | _ => none

/-- `parse_chunk`. -/
def parseChunk (chunk : List Byte) : Method P Unit (Option ImageBlock) := do
  if chunk.length ≠ 2 + blockSize then return none
  return ImageBlock.parse chunk

/-- The receiver. -/
def receiver (lib : Pathlib P) (path : P) : FileReceiver P Unit (List Byte) ImageBlock where
  lib := lib
  path := path
  parseChunk := parseChunk
  fileId _ := pure none
  chunkSequence block := pure (some block.sequence)
  chunkOffset := defaultChunkOffset (pure (some blockSize))
    (fun block => pure (some block.sequence)) fun _ => none
  chunkData block := pure block.data
  fileChunks _ := pure none
  fileSize _ := pure none
  isLastChunk _ := pure none
  filename fid := pure (fid.toStr ++ ".jpg")
  onCompletion _ := pure ()

end Swiatowid

/-! ## Images -/

/-- A chunk of an image: its number and its data, and what it says of the image. -/
structure ImageChunk where
  number : ℕ
  data : List Byte
  chunks : Option ℤ
  filesize : Option ℤ

namespace ImageChunk

/-- The chunk as the base class gets it. -/
def raw (c : ImageChunk) : Chunk := ⟨none, some c.number, none, c.data, c.chunks, c.filesize⟩

/-- What the hooks read from the chunk. -/
def chunk (size : ℕ) (c : ImageChunk) : Chunk :=
  ⟨none, some c.number, some ((size * c.number : ℕ) : ℤ), c.data, c.chunks, c.filesize⟩

/-- Where the data of the chunk belong. -/
def place (size : ℕ) (c : ImageChunk) : ℕ × List Byte := (size * c.number, c.data)

end ImageChunk

/-- Some chunks of one image in order, none of them larger than the chunk size. What they say of
the number of chunks and of the size of the image is so. -/
structure IsImage (size : ℕ) (image : List ImageChunk) : Prop where
  ne_nil : image ≠ []
  increasing : image.Pairwise (·.number < ·.number)
  data : ∀ c ∈ image, c.data ≠ [] ∧ c.data.length ≤ size
  chunks : ∃ total : ℤ, ∀ c ∈ image, c.number < total ∧ ∀ n, c.chunks = some n → n = total
  filesize : ∃ total : ℤ, ∀ c ∈ image, ((size * c.number + c.data.length : ℕ) : ℤ) ≤ total ∧
    ∀ n, c.filesize = some n → n = total

/-- The next image starts with a number that is not above the last one of this image. -/
def StartsBelow (image next : List ImageChunk) : Prop :=
  ∀ last ∈ image.getLast?, ∀ first ∈ next.head?, first.number ≤ last.number

/-- Each image has a file of its own, made of its chunks at their places and of nothing else. -/
structure Separated (size : ℕ) (images : List (List ImageChunk)) (s : Receiver P σ) : Prop where
  stored : ∀ (j : ℕ) image, images[j]? = some image → ∃ f content, s.files (.int j) = some f ∧
    s.disk f.path = some content ∧ MadeOf (image.map (·.place size)) content
  distinct : ∀ i j f g, s.files i = some f → s.files j = some g → f.path = g.path → i = j

/-! ## The last file -/

/-- A file of an image without a hook for the last chunk: whether it is complete. -/
theorem File.complete_none {f : File P} {seq : ℤ} (hseq : f.expectedSeq = some seq) :
    f.complete none = .ok (f.size.any (· ≤ f.writePointer) || f.chunks.any (· ≤ seq)) := by
  unfold complete
  cases f.size.any (· ≤ f.writePointer) with
  | true => rfl
  | false =>
    cases f.chunks with
    | none => rfl
    | some chunks => by_cases hle : chunks ≤ seq <;> simp [hseq, hle]

/-- The object of a file whose image has been received in part. -/
structure File.IsOf (f : File P) (size : ℕ) (image : List ImageChunk) : Prop where
  broken : f.broken = false
  expectedSeq : ∃ last ∈ image.getLast?, f.expectedSeq = some (last.number + 1)
  writePointer : ∃ last ∈ image.getLast?,
    f.writePointer = ((size * last.number + last.data.length : ℕ) : ℤ)
  chunks : ∀ n, f.chunks = some n → ∃ c ∈ image, c.chunks = some n
  filesize : ∀ n, f.size = some n → ∃ c ∈ image, c.filesize = some n

/-- The next chunk has been written. -/
theorem File.IsOf.advance {f : File P} {size : ℕ} {image : List ImageChunk} {c : ImageChunk}
    (hbroken : f.broken = false) (hchunks : ∀ n, f.chunks = some n → ∃ c ∈ image, c.chunks = some n)
    (hfilesize : ∀ n, f.size = some n → ∃ c ∈ image, c.filesize = some n) :
    ((f.fill (c.chunk size)).advance (c.chunk size) ((size * c.number : ℕ) : ℤ)).IsOf size
      (image ++ [c]) where
  broken := hbroken
  expectedSeq := ⟨c, by simp, rfl⟩
  writePointer := ⟨c, by simp, by simp [File.advance, ImageChunk.chunk]⟩
  chunks n hn := by
    simp only [File.advance, File.fill, ImageChunk.chunk] at hn
    split at hn
    · exact ⟨c, by simp, hn⟩
    · obtain ⟨d, hd, hdn⟩ := hchunks n hn
      exact ⟨d, List.mem_append_left _ hd, hdn⟩
  filesize n hn := by
    simp only [File.advance, File.fill, ImageChunk.chunk] at hn
    split at hn
    · exact ⟨c, by simp, hn⟩
    · obtain ⟨d, hd, hdn⟩ := hfilesize n hn
      exact ⟨d, List.mem_append_left _ hd, hdn⟩

/-- A file that says that it is complete has got the last chunk of its image. -/
theorem File.IsOf.not_isImage_of_complete {f : File P} {size : ℕ} {image : List ImageChunk}
    (hf : f.IsOf size image) (hcomplete : f.complete none = .ok true) (c : ImageChunk)
    (rest : List ImageChunk) : ¬IsImage size (image ++ c :: rest) := by
  intro himage
  obtain ⟨last, hlast, hexpected⟩ := hf.expectedSeq
  obtain ⟨last', hlast', hpointer⟩ := hf.writePointer
  obtain rfl : last = last' := Option.some.inj (hlast.symm.trans hlast')
  have hmem : last ∈ image := List.mem_of_getLast? hlast
  have hc : c ∈ image ++ c :: rest := by simp
  have hlt : last.number < c.number :=
    (List.pairwise_append.mp himage.increasing).2.2 last hmem c (List.mem_cons_self)
  rw [File.complete_none hexpected, Except.ok.injEq, Bool.or_eq_true] at hcomplete
  rcases hcomplete with hsize | hchunks
  · obtain ⟨n, hn, hle⟩ := (Option.any_eq_true _ _).mp hsize
    obtain ⟨d, hd, hdn⟩ := hf.filesize n hn
    obtain ⟨total, htotal⟩ := himage.filesize
    obtain rfl := (htotal d (List.mem_append_left _ hd)).2 n hdn
    have hend := (htotal c hc).1
    have hpos := List.length_pos_iff.mpr (himage.data c hc).1
    have hlength := (himage.data last (List.mem_append_left _ hmem)).2
    have hplace : size * last.number + size ≤ size * c.number := by
      rw [← Nat.mul_succ]
      exact Nat.mul_le_mul_left _ hlt
    rw [hpointer] at hle
    simp only [decide_eq_true_eq] at hle
    omega
  · obtain ⟨n, hn, hle⟩ := (Option.any_eq_true _ _).mp hchunks
    obtain ⟨d, hd, hdn⟩ := hf.chunks n hn
    obtain ⟨total, htotal⟩ := himage.chunks
    obtain rfl := (htotal d (List.mem_append_left _ hd)).2 n hdn
    have hnumber := (htotal c hc).1
    simp only [decide_eq_true_eq] at hle
    omega

/-- A chunk of an image does not end past the size that its file knows. -/
theorem File.IsOf.not_lt_size {f : File P} {size : ℕ} {image rest : List ImageChunk} {c : ImageChunk}
    (hf : f.IsOf size (image ++ [c])) (himage : IsImage size (image ++ c :: rest)) :
    ¬f.size.any (· < ((size * c.number : ℕ) : ℤ) + c.data.length) := by
  intro hlt
  obtain ⟨n, hn, hlt⟩ := (Option.any_eq_true _ _).mp hlt
  obtain ⟨d, hd, hdn⟩ := hf.filesize n hn
  obtain ⟨total, htotal⟩ := himage.filesize
  have hd' : d ∈ image ++ c :: rest := by
    rcases List.mem_append.mp hd with hd | hd
    · exact List.mem_append_left _ hd
    · simp [List.mem_singleton.mp hd]
  obtain rfl := (htotal d hd').2 n hdn
  have hend := (htotal c (by simp)).1
  simp only [decide_eq_true_eq] at hlt
  omega

/-! ## Runs -/

/-- A content is made of the chunks of an image. -/
def Stores (size : ℕ) (image : List ImageChunk) (content : List Byte) : Prop :=
  MadeOf (image.map (·.place size)) content

/-- Some images have been received, and then some chunks of another one. -/
structure Receiving (d : Directory P) (size : ℕ) (h : σ) (before : List (List ImageChunk))
    (image : List ImageChunk) (s : Receiver P σ) : Prop where
  state : ∃ contents content f complete,
    Shows d s (shelf (contents ++ [content])) (.int before.length) f
      (if complete then none else some (.int before.length)) (before.length + 1) h ∧
      List.Forall₂ (Stores size) before contents ∧ Stores size image content ∧ f.IsOf size image ∧
      f.complete none = .ok complete

/-- Some images have been received, and a chunk with the given number starts another one. -/
structure Ready (d : Directory P) (size : ℕ) (h : σ) (before : List (List ImageChunk)) (number : ℕ)
    (s : Receiver P σ) : Prop where
  stored : ∃ contents, Keeps d s (shelf contents) ∧ s.nextFid = contents.length ∧
    List.Forall₂ (Stores size) before contents
  ends : ∀ fid, s.currentFile = some fid →
    ∃ f e, s.files fid = some f ∧ f.expectedSeq = some e ∧ (number : ℤ) < e
  hooks : s.hooks = h

section Runs

variable {d : Directory P} {r : FileReceiver P σ R C} {raw : R} {size : ℕ} {h : σ}
variable {s : Receiver P σ} {before : List (List ImageChunk)} {image rest : List ImageChunk}
variable {c : ImageChunk}

theorem ready_init {disk : P → Option (List Byte)} (hdisk : d.Vacant disk) (uuids : ℕ → String)
    (size : ℕ) (h : σ) (number : ℕ) : Ready d size h [] number (Receiver.init disk uuids h) where
  stored := ⟨[], by rw [shelf_nil]; exact keeps_init hdisk uuids h, rfl, .nil⟩
  ends _ h := nomatch h
  hooks := rfl

/-- The image is over when a chunk with a lower number comes. -/
theorem Receiving.ready (hs : Receiving d size h before image s) {number : ℕ}
    (hbelow : ∀ last ∈ image.getLast?, number ≤ last.number) :
    Ready d size h (before ++ [image]) number s := by
  obtain ⟨contents, content, f, complete, hshows, hbefore, hcontent, hof, -⟩ := hs
  have hlength : before.length = contents.length := hbefore.length_eq
  refine ⟨⟨contents ++ [content], hshows.keeps, ?_, ?_⟩, fun fid hfid => ?_, hshows.hooks⟩
  · rw [hshows.next, hlength, List.length_append, List.length_singleton, Nat.cast_succ]
  · exact List.rel_append hbefore (.cons hcontent .nil)
  · rw [hshows.current] at hfid
    split at hfid
    · cases hfid
    · obtain rfl := Option.some.inj hfid
      obtain ⟨last, hlast, hexpected⟩ := hof.expectedSeq
      have := hbelow last hlast
      exact ⟨f, _, hshows.file, hexpected, by omega⟩

theorem Ready.separated {number : ℕ} (hs : Ready d size h before number s) :
    Separated size before s := by
  obtain ⟨contents, hkeeps, -, hstored⟩ := hs.stored
  refine ⟨fun j image hj => ?_, fun i j f g hf hg hpath => hkeeps.distinct hf hg hpath⟩
  obtain ⟨hlength, hrelated⟩ := List.forall₂_iff_get.mp hstored
  obtain ⟨hj', rfl⟩ := List.getElem?_eq_some_iff.mp hj
  have hcontent := hrelated j hj' (hlength ▸ hj')
  obtain ⟨-, f, hf, hpath, hdisk⟩ := hkeeps.stored (.int j) _
    ((shelf_natCast contents j).trans (List.getElem?_eq_getElem (hlength ▸ hj')))
  exact ⟨f, _, hf, hpath ▸ hdisk, hcontent⟩

variable [DecidableEq P]

/-- **The first chunk.** It is written into a new file. -/
theorem Ready.begin (hs : Ready d size h before c.number s) (hr : r.Creates d)
    (hids : ∀ n, .int n ∈ d.ids) (hears : Hears r raw h h h h (c.chunk size) none)
    (himage : IsImage size (c :: rest)) :
    Receiving d size h before [c] (exec (r.pushChunk raw) s).2 := by
  obtain ⟨⟨contents, hkeeps, hnext, hbefore⟩, hends, hhooks⟩ := hs
  have hlength : before.length = contents.length := hbefore.length_eq
  have hvacant := shelf_length contents
  rw [← hnext] at hvacant
  have hnew := Shows.create hkeeps (hids s.nextFid) (s.nextFid + 1) h
  have hof : (((File.created (d.place (.int s.nextFid))).fill (c.chunk size)).advance
      (c.chunk size) ((size * c.number : ℕ) : ℤ)).IsOf size ([] ++ [c]) :=
    File.IsOf.advance rfl (fun n hn => nomatch hn) fun n hn => nomatch hn
  have hcomplete := File.complete_none (f := ((File.created (d.place (.int s.nextFid))).fill
    (c.chunk size)).advance (c.chunk size) ((size * c.number : ℕ) : ℤ)) rfl
  rw [hears.push_new hhooks rfl rfl (Int.natCast_nonneg _) hends (hkeeps.absent _ hvacant)
    (hkeeps.canCreate hr (hids _) hvacant)]
  have hdone := hnew.finish_offset (k := h) rfl (update_self ..) rfl (Int.natCast_nonneg _)
    (hof.not_lt_size himage) hcomplete
  rw [update_idem, Int.toNat_natCast] at hdone
  rw [hnext, update_shelf_length, ← hlength] at hdone
  rw [hnext, ← hlength] at hof hcomplete ⊢
  exact ⟨_, _, _, _, hdone, hbefore, madeOf_nil.writeAt _ (by simp), hof, hcomplete⟩

/-- **The next chunk.** It is written at its place into the last file. -/
theorem Receiving.next (hs : Receiving d size h before image s)
    (hears : Hears r raw h h h h (c.chunk size) none) (himage : IsImage size (image ++ c :: rest)) :
    Receiving d size h before (image ++ [c]) (exec (r.pushChunk raw) s).2 := by
  obtain ⟨contents, content, f, complete, hshows, hbefore, hcontent, hof, hcomplete⟩ := hs
  have hlength : before.length = contents.length := hbefore.length_eq
  obtain ⟨last, hlast, hexpected⟩ := hof.expectedSeq
  have hlater : ∀ d ∈ image, d.number < c.number := fun d hd =>
    (List.pairwise_append.mp himage.increasing).2.2 d hd c List.mem_cons_self
  have hincomplete : complete = false := by
    by_contra hcompleted
    rw [Bool.not_eq_false] at hcompleted
    exact hof.not_isImage_of_complete (by rw [hcomplete, hcompleted]) c rest himage
  have hof' : ((f.fill (c.chunk size)).advance (c.chunk size) ((size * c.number : ℕ) : ℤ)).IsOf size
      (image ++ [c]) := File.IsOf.advance hof.broken hof.chunks hof.filesize
  have hcomplete' := File.complete_none (f := (f.fill (c.chunk size)).advance (c.chunk size)
    ((size * c.number : ℕ) : ℤ)) rfl
  subst hincomplete
  rw [if_neg Bool.false_ne_true] at hshows
  have hheld : (shelf (contents ++ [content])) (.int before.length) = some content := by
    rw [hlength]
    exact shelf_last ..
  have hdone := (hshows.withHooks h).finish_offset (k := h) hof.broken hheld rfl
    (Int.natCast_nonneg _) (hof'.not_lt_size himage) hcomplete'
  rw [hears.push_current hshows.hooks rfl hshows.current hshows.file]
  · rw [hlength, update_shelf_last, Int.toNat_natCast, ← hlength] at hdone
    refine ⟨_, _, _, _, hdone, hbefore, ?_, hof', hcomplete'⟩
    rw [Stores, List.map_append]
    refine hcontent.writeAt _ fun p hp => ?_
    obtain ⟨d, hd, rfl⟩ := List.mem_map.mp hp
    have hdata := (himage.data d (List.mem_append_left _ hd)).2
    have hplace : size * d.number + size ≤ size * c.number := by
      rw [← Nat.mul_succ]
      exact Nat.mul_le_mul_left _ (hlater d hd)
    exact (Nat.add_le_add_left hdata _).trans hplace
  · intro seq hseq
    have hnumber := hlater last (List.mem_of_getLast? hlast)
    obtain rfl := Option.some.inj hseq
    exact ⟨_, hexpected, by omega⟩

variable {T : Type} {raw : T → R} {view : T → ImageChunk}

/-- The chunks of an image that come after some of them. -/
theorem Receiving.pushAll (hs : Receiving d size h before image s) (chunks : List T)
    (hears : ∀ c, Hears r (raw c) h h h h ((view c).chunk size) none)
    (himage : IsImage size (image ++ chunks.map view)) :
    Receiving d size h before (image ++ chunks.map view) (r.pushAll s (chunks.map raw)) := by
  induction chunks generalizing image s with
  | nil =>
    rw [List.map_nil, List.append_nil]
    exact hs
  | cons c chunks ih =>
    have hc := hs.next (hears c) himage
    have hrun := ih hc (by simpa using himage)
    rwa [List.append_assoc] at hrun

/-- The chunks of an image. -/
theorem Ready.pushAll (hr : r.Creates d) (hids : ∀ n, .int n ∈ d.ids)
    (hears : ∀ c, Hears r (raw c) h h h h ((view c).chunk size) none) (image : List T)
    (hs : ∀ first ∈ image.head?, Ready d size h before (view first).number s)
    (himage : IsImage size (image.map view)) :
    Receiving d size h before (image.map view) (r.pushAll s (image.map raw)) := by
  cases image with
  | nil => exact absurd rfl himage.ne_nil
  | cons c chunks =>
    have hc := (hs c rfl).begin hr hids (hears c) himage
    exact hc.pushAll chunks hears himage

/-- **Runs.** One image after the other. -/
theorem Ready.separated_pushAll (hr : r.Creates d) (hids : ∀ n, .int n ∈ d.ids)
    (hears : ∀ c, Hears r (raw c) h h h h ((view c).chunk size) none)
    (image : List T) (images : List (List T))
    (hs : ∀ first ∈ image.head?, Ready d size h before (view first).number s)
    (himages : ∀ image' ∈ image :: images, IsImage size (image'.map view))
    (hchain : ((image :: images).map (·.map view)).IsChain StartsBelow) :
    Separated size (before ++ (image :: images).map (·.map view))
      (r.pushAll s ((image :: images).flatten.map raw)) := by
  induction images generalizing image before s with
  | nil =>
    have hlast := Ready.pushAll hr hids hears image hs (himages image List.mem_cons_self)
    rw [List.flatten_singleton]
    have hready : Ready d size h (before ++ [image.map view]) 0 (r.pushAll s (image.map raw)) :=
      hlast.ready fun _ _ => Nat.zero_le _
    exact hready.separated
  | cons next images ih =>
    have hlast := Ready.pushAll hr hids hears image hs (himages image List.mem_cons_self)
    rw [List.map_cons, List.map_cons, List.isChain_cons_cons] at hchain
    have hready : ∀ first ∈ next.head?,
        Ready d size h (before ++ [image.map view]) (view first).number
          (r.pushAll s (image.map raw)) := by
      intro first hfirst
      refine hlast.ready fun last hmem => hchain.1 last hmem (view first) ?_
      rw [List.head?_map]
      exact Option.mem_map_of_mem view hfirst
    have hrest := ih next hready
      (fun image' himage' => himages image' (List.mem_cons_of_mem _ himage')) hchain.2
    rw [List.append_assoc, List.singleton_append] at hrest
    rw [List.flatten_cons, List.map_append, FileReceiver.pushAll_append]
    exact hrest

end Runs

/-! ## The receivers -/

theorem hears_sizedReceiver (lib : Pathlib P) (path : P) (size : ℕ) (c : ImageChunk) :
    Hears (sizedReceiver lib path size) c.raw () () () () (c.chunk size) none where
  parse := ⟨c.raw, .pure _ _, .pure _ _, .pure _ _, .pure _ _, .pure _ _, .pure _ _,
    fun s _ => by simp [sizedReceiver, defaultChunkOffset, ImageChunk.raw, ImageChunk.chunk],
    .pure _ _, .pure _ _⟩
  filename fid := ⟨_, rfl⟩
  onCompletion _ := rfl

namespace Swiatowid

/-- A frame with a chunk of an image. -/
structure Frame where
  bytes : List Byte
  length_bytes : bytes.length = 2 + blockSize

/-- The chunk in a frame: its number has its low byte first. -/
def Frame.imageChunk (frame : Frame) : ImageChunk :=
  ⟨(frame.bytes.getD 0 0).toNat + 256 * (frame.bytes.getD 1 0).toNat, frame.bytes.drop 2, none, none⟩

theorem hears_receiver (lib : Pathlib P) (path : P) (frame : Frame) :
    Hears (receiver lib path) frame.bytes () () () () (frame.imageChunk.chunk blockSize) none := by
  obtain ⟨bytes, hbytes⟩ := frame
  obtain ⟨low, high, data, rfl⟩ : ∃ low high data, bytes = low :: high :: data :=
    match bytes, hbytes with
    | low :: high :: data, _ => ⟨low, high, data, rfl⟩
  have hdata : data.length = blockSize := by
    rw [List.length_cons, List.length_cons] at hbytes
    omega
  have hparse : ImageBlock.parse (low :: high :: data) =
      some ⟨low.toNat + 256 * high.toNat, data⟩ := by
    rw [ImageBlock.parse, if_neg (by omega), List.take_of_length_le hdata.le]
  refine ⟨⟨⟨low.toNat + 256 * high.toNat, data⟩, ?_, .pure _ _, .pure _ _, .pure _ _, .pure _ _,
    .pure _ _, ?_, .pure _ _, .pure _ _⟩, fun fid => ⟨_, rfl⟩, fun _ => rfl⟩
  · intro s _
    show exec (parseChunk _) s = _
    rw [parseChunk, if_neg (not_not.mpr hbytes), hparse]
    rfl
  · intro s _
    simp [receiver, defaultChunkOffset, Frame.imageChunk, ImageChunk.chunk]

end Swiatowid

/-- A receiver without file ids puts each image in a file of its own, whichever of its chunks are
lost. -/
def Separates [DecidableEq P] {T : Type} (r : FileReceiver P σ R C) (size : ℕ) (h : σ) (raw : T → R)
    (view : T → ImageChunk) : Prop :=
  ∀ (d : Directory P) disk uuids (images : List (List T)), r.Creates d → (∀ n, .int n ∈ d.ids) →
    d.Vacant disk → (∀ image ∈ images, IsImage size (image.map view)) →
    (images.map (·.map view)).IsChain StartsBelow →
    Separated size (images.map (·.map view)) (r.pushAll (.init disk uuids h) (images.flatten.map raw))

theorem separates_of_hears [DecidableEq P] {T : Type} {r : FileReceiver P σ R C} {size : ℕ} {h : σ}
    {raw : T → R} {view : T → ImageChunk}
    (hears : ∀ c, Hears r (raw c) h h h h ((view c).chunk size) none) :
    Separates r size h raw view := by
  intro d disk uuids images hr hids hdisk himages hchain
  have hready (number : ℕ) := ready_init hdisk uuids size h number
  cases images with
  | nil => exact (hready 0).separated
  | cons image images =>
    exact Ready.separated_pushAll hr hids hears image images (fun c _ => hready _) himages hchain

/-- **Images without file ids.** The base class with a chunk size and the Swiatowid receiver put
each image in a file of its own, whichever of its chunks are lost. -/
theorem separates [DecidableEq P] (lib : Pathlib P) (path : P) :
    (∀ size : ℕ, Separates (sizedReceiver lib path size) size () ImageChunk.raw id) ∧
      Separates (Swiatowid.receiver lib path) Swiatowid.blockSize () Swiatowid.Frame.bytes
        Swiatowid.Frame.imageChunk :=
  ⟨fun size => separates_of_hears (hears_sizedReceiver lib path size),
    separates_of_hears (Swiatowid.hears_receiver lib path)⟩

/-- Two images, the second of which has only the number that the first one lacks. -/
theorem separates_two_images :
    let images : List (List ImageChunk) := [[⟨0, [1, 2], none, none⟩, ⟨2, [3], none, none⟩],
      [⟨1, [4, 5], none, none⟩]]
    Separated 2 images ((sizedReceiver plainNames "files" 2).pushAll
      (.init (fun _ => none) (fun _ => "") ()) (images.flatten.map ImageChunk.raw)) := by
  intro images
  have hrun := (separates plainNames "files").1 2 (.plain "files" "") (fun _ => none) (fun _ => "")
    images (FileReceiver.creates_plain rfl rfl fun _ => by simp [sizedReceiver, defaultReceiver])
    (fun n => ⟨n, rfl⟩) (fun _ _ => rfl) ?_ ?_
  · simpa using hrun
  · intro image himage
    rw [List.map_id]
    rcases List.mem_cons.mp himage with rfl | himage
    · exact ⟨by simp, by simp, by simp, ⟨3, by simp⟩, ⟨5, by simp⟩⟩
    · obtain rfl := List.mem_singleton.mp himage
      exact ⟨by simp, by simp, by simp, ⟨3, by simp⟩, ⟨5, by simp⟩⟩
  · simp [images, StartsBelow]

end GrSatellites.Files
