import GrSatellites.Files.Archive
import Mathlib.Data.List.Chain

/-!
# Images whose chunks have a number only

Without offsets and chunk sizes, a chunk goes to the end of its file, if it is the one expected
there. The first chunk that is lost breaks the file, and a chunk with the number zero starts
another one. The hooks may keep a state: a run is told from what they read on the way.
-/

namespace GrSatellites.Files

open ByteFile Function Routine

variable {P σ R C : Type}

/-- What the hooks read from a chunk that has a number and no offset. -/
structure SequenceChunk where
  number : ℕ
  data : List Byte
  isLast : Option Bool
  deriving DecidableEq

namespace SequenceChunk

def chunk (c : SequenceChunk) : Chunk := ⟨none, some c.number, none, c.data, none, none⟩

/-- The chunks that come before the first one that is lost, from a given number on. -/
def beforeGap : ℕ → List SequenceChunk → List SequenceChunk
  | _, [] => []
  | n, c :: cs => if c.number = n then c :: beforeGap (n + 1) cs else []

theorem beforeGap_isPrefix (n : ℕ) (cs : List SequenceChunk) : beforeGap n cs <+: cs := by
  induction cs generalizing n with
  | nil => exact List.prefix_rfl
  | cons c cs ih =>
    rw [beforeGap]
    split
    · exact List.cons_prefix_cons.mpr ⟨rfl, ih (n + 1)⟩
    · exact List.nil_prefix

/-- One more chunk comes before the first loss if nothing has been lost, and it is the next one. -/
theorem beforeGap_append_singleton (n : ℕ) (cs : List SequenceChunk) (c : SequenceChunk) :
    beforeGap n (cs ++ [c]) =
      if beforeGap n cs = cs ∧ c.number = n + cs.length then cs ++ [c] else beforeGap n cs := by
  induction cs generalizing n with
  | nil => simp [beforeGap]
  | cons d cs ih =>
    rw [List.cons_append, beforeGap, beforeGap]
    by_cases hd : d.number = n
    · have hlength : n + 1 + cs.length = n + (cs.length + 1) := by omega
      simp only [if_pos hd, ih, List.length_cons, List.cons_inj_right, hlength]
      split <;> rfl
    · rw [if_neg hd, if_neg hd, if_neg (by simp)]

/-- The number of a chunk is at least the number of chunks before it. -/
theorem length_le_of_increasing {cs : List SequenceChunk} {c : SequenceChunk}
    (h : (cs ++ [c]).Pairwise (·.number < ·.number)) : cs.length ≤ c.number := by
  induction cs using List.reverseRecOn generalizing c with
  | nil => exact Nat.zero_le _
  | append_singleton cs d ih =>
    obtain ⟨hcs, -, hlast⟩ := List.pairwise_append.mp h
    have hd := hlast d (by simp) c List.mem_cons_self
    have := ih hcs
    rw [List.length_append, List.length_singleton]
    omega

/-- The data before the first loss. -/
def reassemble (image : List SequenceChunk) : List Byte := (beforeGap 0 image).flatMap data

end SequenceChunk

open SequenceChunk

/-- The chunks received of one image: the first one, and some of the others in order. Only the last
one may say that it is the last. -/
structure IsSequence (image : List SequenceChunk) : Prop where
  first : ∃ c ∈ image.head?, c.number = 0 ∧ c.isLast ≠ some true
  increasing : image.Pairwise (·.number < ·.number)
  isLast : ∀ c ∈ image.dropLast, c.isLast ≠ some true

/-- The hooks read some chunks one after the other. -/
inductive HearsAll (r : FileReceiver P σ R C) : σ → List (R × SequenceChunk) → σ → Prop
  | nil (h : σ) : HearsAll r h [] h
  | cons {raw : R} {c : SequenceChunk} {cs : List (R × SequenceChunk)} {h h' h'' : σ}
    (head : Hears r raw h h h' h' c.chunk c.isLast) (tail : HearsAll r h' cs h'') :
    HearsAll r h ((raw, c) :: cs) h''

theorem HearsAll.split {r : FileReceiver P σ R C} {cs cs' : List (R × SequenceChunk)} {h h'' : σ}
    (hears : HearsAll r h (cs ++ cs') h'') : ∃ h', HearsAll r h cs h' ∧ HearsAll r h' cs' h'' := by
  induction cs generalizing h with
  | nil => exact ⟨h, .nil h, hears⟩
  | cons c cs ih =>
    cases hears with
    | cons head tail =>
      obtain ⟨h', hcs, hcs'⟩ := ih tail
      exact ⟨h', .cons head hcs, hcs'⟩

theorem HearsAll.append {r : FileReceiver P σ R C} {cs cs' : List (R × SequenceChunk)}
    {h h' h'' : σ}
    (hcs : HearsAll r h cs h') (hcs' : HearsAll r h' cs' h'') : HearsAll r h (cs ++ cs') h'' := by
  induction hcs with
  | nil => exact hcs'
  | cons head _ ih => exact .cons head (ih hcs')

/-- Each image has a file of its own, which holds its chunks before the first one that is lost. -/
structure Reassembled (images : List (List SequenceChunk)) (s : Receiver P σ) : Prop where
  stored : ∀ (j : ℕ) image, images[j]? = some image → ∃ f, s.files (.int j) = some f ∧
    s.disk f.path = some (reassemble image)
  distinct : ∀ i j f g, s.files i = some f → s.files j = some g → f.path = g.path → i = j

/-! ## Runs -/

/-- The object of the file of an image that has been received in part. -/
structure File.IsAt (f : File P) (image : List SequenceChunk) : Prop where
  size : f.size = none
  chunks : f.chunks = none
  broken : f.broken = decide (beforeGap 0 image ≠ image)
  expectedSeq : f.expectedSeq = some ((beforeGap 0 image).length : ℤ)
  writePointer : f.writePointer = (reassemble image).length

/-- The last chunk received of an image says so, and is not dropped. -/
def Complete (image : List SequenceChunk) : Prop :=
  beforeGap 0 image = image ∧ ∃ c ∈ image.getLast?, c.isLast = some true

instance (image : List SequenceChunk) : Decidable (Complete image) :=
  inferInstanceAs (Decidable (_ ∧ _))

/-- Some images have been received, and then some chunks of another one. -/
structure ReceivingSequence (d : Directory P) (h : σ) (before : List (List SequenceChunk))
    (image : List SequenceChunk) (s : Receiver P σ) : Prop where
  state : ∃ f : File P,
    Shows d s (shelf (before.map reassemble ++ [reassemble image])) (.int before.length) f
      (if Complete image then none else some (.int before.length)) (before.length + 1) h ∧
      f.IsAt image

/-- Some images have been received, and a chunk with the number zero starts another one. -/
structure ReadySequence (d : Directory P) (h : σ) (before : List (List SequenceChunk))
    (s : Receiver P σ) : Prop where
  keeps : Keeps d s (shelf (before.map reassemble))
  next : s.nextFid = before.length
  ends : ∀ fid, s.currentFile = some fid →
    ∃ f e, s.files fid = some f ∧ f.expectedSeq = some e ∧ 0 < e
  hooks : s.hooks = h

section Runs

variable {d : Directory P} {r : FileReceiver P σ R C} {raw : R} {h h' : σ}
variable {s : Receiver P σ} {before : List (List SequenceChunk)} {image rest : List SequenceChunk}
variable {c : SequenceChunk}

theorem readySequence_init {disk : P → Option (List Byte)} (hdisk : d.Vacant disk)
    (uuids : ℕ → String) (h : σ) : ReadySequence d h [] (Receiver.init disk uuids h) where
  keeps := by
    rw [List.map_nil, shelf_nil]
    exact keeps_init hdisk uuids h
  next := rfl
  ends _ h := nomatch h
  hooks := rfl

theorem IsSequence.beforeGap_ne_nil (himage : IsSequence (image ++ rest)) (hne : image ≠ []) :
    0 < (beforeGap 0 image).length := by
  cases image with
  | nil => exact absurd rfl hne
  | cons c cs =>
    obtain ⟨first, hfirst, hnumber, -⟩ := himage.first
    obtain rfl : c = first := Option.some.inj hfirst
    rw [beforeGap, if_pos hnumber]
    exact Nat.succ_pos _

/-- An image is over when the next one starts. -/
theorem ReceivingSequence.ready (hs : ReceivingSequence d h before image s)
    (himage : IsSequence image) : ReadySequence d h (before ++ [image]) s := by
  obtain ⟨f, hshows, hat⟩ := hs
  refine ⟨?_, ?_, fun fid hfid => ?_, hshows.hooks⟩
  · rw [List.map_append]
    exact hshows.keeps
  · rw [hshows.next, List.length_append, List.length_singleton, Nat.cast_succ]
  · rw [hshows.current] at hfid
    split at hfid
    · cases hfid
    · obtain rfl := Option.some.inj hfid
      have hpos : 0 < (beforeGap 0 image).length := by
        have himage' : IsSequence (image ++ []) := by rwa [List.append_nil]
        refine himage'.beforeGap_ne_nil ?_
        rintro rfl
        obtain ⟨c, hc, -⟩ := himage.first
        cases hc
      exact ⟨f, _, hshows.file, hat.expectedSeq, Int.natCast_pos.mpr hpos⟩

theorem ReadySequence.reassembled (hs : ReadySequence d h before s) : Reassembled before s := by
  refine ⟨fun j image hj => ?_, fun i j f g hf hg hpath => hs.keeps.distinct hf hg hpath⟩
  obtain ⟨-, f, hf, hpath, hdisk⟩ := hs.keeps.stored (.int j) (reassemble image)
    (by rw [shelf_natCast, List.getElem?_map, hj, Option.map_some])
  exact ⟨f, hf, hpath ▸ hdisk⟩

variable [DecidableEq P]

variable {f : File P} {current : Option FileId} {nextFid : ℤ} {contents : List (List Byte)}

/-- The chunk that is expected goes to the end of the file. -/
theorem Shows.finish_expected
    (hs : Shows d s (shelf (contents ++ [reassemble image])) (.int contents.length) f current
      nextFid h)
    (hat : f.IsAt image) (hall : beforeGap 0 image = image) (hnumber : c.number = image.length) :
    Shows d (s.finish (.int contents.length) f c.chunk c.isLast h).2
        (shelf (contents ++ [reassemble (image ++ [c])])) (.int contents.length)
        ((f.fill c.chunk).advance c.chunk f.writePointer)
        (if Complete (image ++ [c]) then none else some (.int contents.length)) nextFid h ∧
      ((f.fill c.chunk).advance c.chunk f.writePointer).IsAt (image ++ [c]) := by
  have hlater : beforeGap 0 (image ++ [c]) = image ++ [c] := by
    rw [beforeGap_append_singleton, if_pos ⟨hall, by rw [hnumber, Nat.zero_add]⟩]
  have hdata : reassemble (image ++ [c]) = reassemble image ++ c.data := by
    rw [reassemble, reassemble, hlater, hall, List.flatMap_append, List.flatMap_singleton]
  have hsize : (f.fill c.chunk).size = none := by simp [File.fill, hat.size, chunk]
  have hchunks : (f.fill c.chunk).chunks = none := by simp [File.fill, hat.chunks, chunk]
  have hcomplete : ((f.fill c.chunk).advance c.chunk f.writePointer).complete c.isLast =
      .ok (decide (c.isLast = some true)) := by
    have hadvance : ((f.fill c.chunk).advance c.chunk f.writePointer).size = none := hsize
    have hadvance' : ((f.fill c.chunk).advance c.chunk f.writePointer).chunks = none := hchunks
    simp [File.complete, hadvance, hadvance']
  have hexpected : f.expectedSeq = some (c.number : ℤ) := by rw [hat.expectedSeq, hall, hnumber]
  have hdone := hs.finish_next (k := h) (by simp [hat.broken, hall]) (shelf_last ..) rfl rfl hexpected
    (hat.writePointer ▸ Int.natCast_nonneg _) (by simp [hsize]) hcomplete
  rw [hat.writePointer, Int.toNat_natCast, update_shelf_last] at hdone
  have hwritten : writeAt (reassemble image) (reassemble image).length c.chunk.data =
      reassemble (image ++ [c]) := by rw [writeAt_length, hdata, chunk]
  have hiff : (decide (c.isLast = some true) = true) = Complete (image ++ [c]) := by
    simp [Complete, hlater]
  rw [hwritten] at hdone
  simp only [hiff] at hdone
  refine ⟨hat.writePointer ▸ hdone, hsize, hchunks, ?_, ?_, ?_⟩
  · simp [File.advance, File.fill, hat.broken, hall, hlater]
  · simp [File.advance, chunk, hlater, hnumber]
  · simp [File.advance, chunk, hat.writePointer, hdata]

/-- **One chunk of the last file.** -/
theorem Shows.finish_sequence
    (hs : Shows d s (shelf (contents ++ [reassemble image])) (.int contents.length) f current
      nextFid h)
    (hat : f.IsAt image) :
    ∃ f', Shows d (s.finish (.int contents.length) f c.chunk c.isLast h).2
        (shelf (contents ++ [reassemble (image ++ [c])])) (.int contents.length) f'
        (if Complete (image ++ [c]) then none else some (.int contents.length)) nextFid h ∧
      f'.IsAt (image ++ [c]) := by
  by_cases hexpected : beforeGap 0 image = image ∧ c.number = image.length
  · exact ⟨_, hs.finish_expected hat hexpected.1 hexpected.2⟩
  -- the file is broken, and keeps what it holds
  have hgap : beforeGap 0 (image ++ [c]) = beforeGap 0 image := by
    rw [beforeGap_append_singleton, if_neg (by simpa using hexpected)]
  have hdata : reassemble (image ++ [c]) = reassemble image := by rw [reassemble, hgap, reassemble]
  have hlost : beforeGap 0 (image ++ [c]) ≠ image ++ [c] := by
    intro hall
    have hlength := congrArg List.length (hgap.symm.trans hall)
    have hle := (beforeGap_isPrefix 0 image).length_le
    rw [List.length_append, List.length_singleton] at hlength
    omega
  have hbroken (f' : File P) (hsize : f'.size = none) (hchunks : f'.chunks = none)
      (hbroken : f'.broken = true) (hseq : f'.expectedSeq = f.expectedSeq)
      (hpointer : f'.writePointer = f.writePointer) : f'.IsAt (image ++ [c]) :=
    ⟨hsize, hchunks, by simp [hbroken, hlost], by rw [hseq, hat.expectedSeq, hgap],
      by rw [hpointer, hat.writePointer, hdata]⟩
  have hsize : (f.fill c.chunk).size = none := by simp [File.fill, hat.size, chunk]
  have hchunks : (f.fill c.chunk).chunks = none := by simp [File.fill, hat.chunks, chunk]
  rw [hdata, if_neg fun hcomplete => hlost hcomplete.1]
  by_cases hall : beforeGap 0 image = image
  · have hne : f.expectedSeq ≠ some (c.number : ℤ) := by
      rw [hat.expectedSeq, hall]
      intro hsame
      exact hexpected ⟨hall, by have := Option.some.inj hsame; omega⟩
    exact ⟨_, hs.finish_gap (by simp [hat.broken, hall]) rfl rfl hne,
      hbroken _ hsize hchunks rfl rfl rfl⟩
  · have hf : f.broken = true := by simp [hat.broken, hall]
    exact ⟨_, hs.finish_broken hf, hbroken _ hsize hchunks hf rfl rfl⟩

/-- **The first chunk.** -/
theorem ReadySequence.begin (hs : ReadySequence d h before s) (hr : r.Creates d)
    (hids : ∀ n, .int n ∈ d.ids) (hears : Hears r raw h h h' h' c.chunk c.isLast)
    (hzero : c.number = 0) :
    ReceivingSequence d h' before [c] (exec (r.pushChunk raw) s).2 := by
  have hlength : (before.map reassemble).length = before.length := List.length_map _
  have hvacant : shelf (before.map reassemble) (.int s.nextFid) = none := by
    rw [hs.next, ← hlength]
    exact shelf_length _
  rw [hears.push_new hs.hooks rfl rfl (Int.natCast_nonneg _) (by rw [hzero]; exact hs.ends)
    (hs.keeps.absent _ hvacant) (hs.keeps.canCreate hr (hids _) hvacant)]
  have hnew := Shows.create hs.keeps (hids s.nextFid) (s.nextFid + 1) h'
  rw [hs.next] at hnew ⊢
  rw [← hlength, update_shelf_length] at hnew
  have hempty : (File.created (d.place (.int (before.map reassemble).length))).IsAt [] :=
    ⟨rfl, rfl, rfl, rfl, rfl⟩
  obtain ⟨f, hdone, hat⟩ := hnew.finish_sequence (c := c) hempty
  rw [hlength] at hdone
  exact ⟨f, hdone, hat⟩

/-- **The next chunk.** -/
theorem ReceivingSequence.next (hs : ReceivingSequence d h before image s)
    (hears : Hears r raw h h h' h' c.chunk c.isLast) (himage : IsSequence (image ++ c :: rest)) :
    ReceivingSequence d h' before (image ++ [c]) (exec (r.pushChunk raw) s).2 := by
  obtain ⟨f, hshows, hat⟩ := hs
  have hincomplete : ¬Complete image := by
    rintro ⟨-, last, hlast, hislast⟩
    refine himage.isLast last ?_ hislast
    rw [List.dropLast_append_of_ne_nil (List.cons_ne_nil c rest)]
    exact List.mem_append_left _ (List.mem_of_getLast? hlast)
  rw [if_neg hincomplete] at hshows
  rw [hears.push_current hshows.hooks rfl hshows.current hshows.file]
  · have hlater := hshows.withHooks h'
    have hlength : (before.map reassemble).length = before.length := List.length_map _
    rw [← hlength] at hlater ⊢
    obtain ⟨f', hdone, hat'⟩ := hlater.finish_sequence (c := c) hat
    rw [hlength] at hdone ⊢
    exact ⟨f', hdone, hat'⟩
  · intro seq hseq
    obtain rfl := Option.some.inj hseq
    have hlength := (beforeGap_isPrefix 0 image).length_le
    have hnumber := length_le_of_increasing
      (himage.increasing.sublist (List.Sublist.append_left (List.singleton_sublist.mpr
        List.mem_cons_self) image))
    exact ⟨_, hat.expectedSeq, by omega⟩

/-- The chunks of an image that come after some of them. -/
theorem ReceivingSequence.pushAll (hs : ReceivingSequence d h before image s)
    {chunks : List (R × SequenceChunk)} (hears : HearsAll r h chunks h')
    (himage : IsSequence (image ++ chunks.map Prod.snd ++ rest)) :
    ReceivingSequence d h' before (image ++ chunks.map Prod.snd)
      (r.pushAll s (chunks.map Prod.fst)) := by
  induction hears generalizing image s with
  | nil h =>
    rw [List.map_nil, List.append_nil]
    exact hs
  | @cons raw c cs h h' h'' head tail ih =>
    have himage' : IsSequence (image ++ c :: (cs.map Prod.snd ++ rest)) := by simpa using himage
    have hc := hs.next head himage'
    have hrun := ih hc (by simpa using himage)
    rwa [List.append_assoc] at hrun

/-- The chunks of an image, or of a first part of it. -/
theorem ReadySequence.pushAll_part (hs : ReadySequence d h before s) (hr : r.Creates d)
    (hids : ∀ n, .int n ∈ d.ids) {part : List (R × SequenceChunk)} (hpart : part ≠ [])
    (hears : HearsAll r h part h') (himage : IsSequence (part.map Prod.snd ++ rest)) :
    ReceivingSequence d h' before (part.map Prod.snd) (r.pushAll s (part.map Prod.fst)) := by
  cases hears with
  | nil => exact absurd rfl hpart
  | cons head tail =>
    obtain ⟨first, hfirst, hzero, -⟩ := himage.first
    obtain rfl := Option.some.inj hfirst
    exact (hs.begin hr hids head hzero).pushAll tail himage

/-- **Runs.** One image after the other. -/
theorem ReadySequence.pushAll (hs : ReadySequence d h before s) (hr : r.Creates d)
    (hids : ∀ n, .int n ∈ d.ids) {images : List (List (R × SequenceChunk))}
    (hears : HearsAll r h images.flatten h')
    (himages : ∀ image ∈ images, IsSequence (image.map Prod.snd)) :
    ReadySequence d h' (before ++ images.map (·.map Prod.snd))
      (r.pushAll s (images.flatten.map Prod.fst)) := by
  induction images generalizing h before s with
  | nil =>
    cases hears
    rw [List.map_nil, List.append_nil]
    exact hs
  | cons image images ih =>
    obtain ⟨h₁, hfirst, hrest⟩ := hears.split
    have himage := himages image List.mem_cons_self
    have hne : image ≠ [] := by
      rintro rfl
      obtain ⟨c, hc, -⟩ := himage.first
      cases hc
    have hlast := (hs.pushAll_part hr hids hne hfirst (by rwa [List.append_nil])).ready himage
    have hrun := ih hlast hrest fun image' himage' => himages image' (List.mem_cons_of_mem _ himage')
    rw [List.append_assoc, List.singleton_append] at hrun
    rw [List.flatten_cons, List.map_append, FileReceiver.pushAll_append]
    exact hrun

/-- What the hooks read from a chunk in the middle of a run. -/
theorem ReadySequence.hears_next (hs : ReadySequence d h before s) (hr : r.Creates d)
    (hids : ∀ n, .int n ∈ d.ids) {images later : List (List (R × SequenceChunk))}
    {part rest : List (R × SequenceChunk)}
    (hears : HearsAll r h (images ++ (part ++ (raw, c) :: rest) :: later).flatten h')
    (himages : ∀ image ∈ images, IsSequence (image.map Prod.snd))
    (himage : IsSequence ((part ++ (raw, c) :: rest).map Prod.snd)) :
    ∃ h₁, Hears r raw (r.pushAll s ((images.flatten ++ part).map Prod.fst)).hooks
      (r.pushAll s ((images.flatten ++ part).map Prod.fst)).hooks h₁ h₁ c.chunk c.isLast := by
  rw [List.flatten_append, List.flatten_cons] at hears
  obtain ⟨h₁, himages₁, hears⟩ := hears.split
  rw [List.append_assoc] at hears
  obtain ⟨h₂, hpart, hears⟩ := hears.split
  have hready := hs.pushAll hr hids himages₁ himages
  have hhooks : (r.pushAll s ((images.flatten ++ part).map Prod.fst)).hooks = h₂ := by
    rw [List.map_append, FileReceiver.pushAll_append]
    cases part with
    | nil =>
      cases hpart
      exact hready.hooks
    | cons first part =>
      rw [List.map_append] at himage
      obtain ⟨f, hshows, -⟩ := hready.pushAll_part hr hids (List.cons_ne_nil _ _) hpart himage
      exact hshows.hooks
  rw [hhooks]
  cases hears with
  | cons head _ => exact ⟨_, head⟩

end Runs

end GrSatellites.Files
