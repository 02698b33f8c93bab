import GrSatellites.Files.Archive
import Mathlib.Data.List.Destutter

/-!
# Images of CAS-5A

The class `ImageReceiverCAS5A` of `python/filereceiver/cas5a.py`. The file id and the offset of a
chunk are told from the chunks before it: a chunk that starts a JPEG file and is not the one that
started the last file starts a new one, and a chunk that equals the last one is written where the
last one was.
-/

namespace GrSatellites.Files.Cas5a

open Function Routine

variable {P : Type}

/-- What the hooks remember of the chunks. -/
structure Memory where
  currentFid : ℤ
  firstChunk : Option (List Byte)
  currentOffset : ℤ
  currentChunk : Option (List Byte)
  nextOffset : ℤ

/-- The memory after construction. -/
def Memory.init : Memory := ⟨-1, none, 0, none, 0⟩

/-- A JPEG file starts with `ff d8`. -/
def StartsFile (chunk : List Byte) : Prop := [0xff, 0xd8] <+: chunk

instance (chunk : List Byte) : Decidable (StartsFile chunk) := inferInstanceAs (Decidable (_ <+: _))

/-- The memory once `file_id` has seen a chunk. -/
def Memory.identify (m : Memory) (chunk : List Byte) : Memory :=
  if StartsFile chunk ∧ some chunk ≠ m.firstChunk then
    ⟨m.currentFid + 1, some chunk, 0, some chunk, 0⟩
  else m

/-- The memory once `chunk_offset` has seen a chunk. -/
def Memory.locate (m : Memory) (chunk : List Byte) : Memory :=
  let m := if m.currentChunk ≠ some chunk then
    { m with currentChunk := some chunk, currentOffset := m.nextOffset } else m
  { m with nextOffset := m.currentOffset + chunk.length }

/-- `file_id`. -/
def fileId (chunk : List Byte) : Method P Memory (Option FileId) := do
  modify fun s => { s with hooks := s.hooks.identify chunk }
  return some (.int (← get).hooks.currentFid)

/-- `chunk_offset`. -/
def chunkOffset (chunk : List Byte) : Method P Memory (Option ℤ) := do
  modify fun s => { s with hooks := s.hooks.locate chunk }
  return some (← get).hooks.currentOffset

/-- Telemetry frames start with `01 00 01 00 01 00`. -/
def IsTelemetry (chunk : List Byte) : Prop := [0x01, 0x00, 0x01, 0x00, 0x01, 0x00] <+: chunk

instance (chunk : List Byte) : Decidable (IsTelemetry chunk) :=
  inferInstanceAs (Decidable (_ <+: _))

/-- `parse_chunk`. The AX.25 header takes 16 bytes. -/
def parseChunk (chunk : List Byte) : Option (List Byte) :=
  if chunk.length ≤ 16 then none
  else if IsTelemetry (chunk.drop 16) then none
  else some (chunk.drop 16)

/-- The receiver. -/
def receiver (lib : Pathlib P) (path : P) : FileReceiver P Memory (List Byte) (List Byte) where
  lib := lib
  path := path
  parseChunk chunk := pure (parseChunk chunk)
  fileId := fileId
  chunkSequence _ := pure none
  chunkOffset := chunkOffset
  chunkData chunk := pure chunk
  fileChunks _ := pure none
  fileSize _ := pure none
  isLastChunk _ := pure none
  filename fid := pure (fid.toStr ++ ".jpg")
  onCompletion _ := pure ()

/-! ## Frames -/

/-- An image frame: a header and a chunk that is not telemetry. -/
structure Frame where
  header : List Byte
  chunk : List Byte
  length_header : header.length = 16
  chunk_ne_nil : chunk ≠ []
  not_isTelemetry : ¬IsTelemetry chunk

/-- The frame as it is received. -/
def Frame.bytes (f : Frame) : List Byte := f.header ++ f.chunk

theorem Frame.parseChunk_bytes (f : Frame) : parseChunk f.bytes = some f.chunk := by
  have hdrop : f.bytes.drop 16 = f.chunk := List.drop_left' f.length_header
  have hpos := List.length_pos_iff.mpr f.chunk_ne_nil
  have hlength : ¬f.bytes.length ≤ 16 := by
    rw [bytes, List.length_append, f.length_header]
    omega
  rw [parseChunk, if_neg hlength, hdrop, if_neg f.not_isTelemetry]

theorem Memory.identify_identify (m : Memory) (chunk : List Byte) :
    (m.identify chunk).identify chunk = m.identify chunk := by
  unfold identify
  split
  · rw [if_neg (by simp)]
  · rfl

/-- What the hooks read from a chunk that comes after what they remember. -/
def Memory.chunk (m : Memory) (chunk : List Byte) : Chunk :=
  ⟨some (.int (m.identify chunk).currentFid), none,
    some ((m.identify chunk).locate chunk).currentOffset, chunk, none, none⟩

theorem hears (lib : Pathlib P) (path : P) (m : Memory) (f : Frame) :
    Hears (receiver lib path) f.bytes m (m.identify f.chunk) (m.identify f.chunk)
      ((m.identify f.chunk).locate f.chunk) (m.chunk f.chunk) none where
  parse := by
    refine ⟨f.chunk, ?_, ?_, .pure _ _, ?_, .pure _ _, .pure _ _, ?_, .pure _ _, .pure _ _⟩
    · rintro s rfl
      show exec (pure (parseChunk f.bytes)) s = _
      rw [f.parseChunk_bytes, exec_pure]
    · rintro s rfl
      rfl
    · rintro s hs
      show exec (fileId f.chunk) s = _
      rw [fileId, exec_modify_bind, exec_get_bind, exec_pure]
      simp only [hs, Memory.identify_identify]
      rfl
    · rintro s hs
      show exec (chunkOffset f.chunk) s = _
      rw [chunkOffset, exec_modify_bind, exec_get_bind, exec_pure]
      simp only [hs]
      rfl
  filename fid := ⟨_, rfl⟩
  onCompletion _ := rfl

/-! ## Sorted chunks -/

/-- What the chunks are sorted into: the files before the last one, what the last one holds before
the last chunk, this chunk, and the chunk that has started the file. -/
structure Sorted where
  before : List (List Byte)
  pre : List Byte
  chunk : List Byte
  first : List Byte

namespace Sorted

/-- The files. -/
def contents (b : Sorted) : List (List Byte) := b.before ++ [b.pre ++ b.chunk]

/-- One more chunk. -/
def add (b : Sorted) (chunk : List Byte) : Sorted :=
  if StartsFile chunk ∧ chunk ≠ b.first then ⟨b.contents, [], chunk, chunk⟩
  else if chunk = b.chunk then b
  else { b with pre := b.pre ++ b.chunk, chunk := chunk }

/-- What the hooks remember. -/
def memory (b : Sorted) : Memory :=
  ⟨b.before.length, some b.first, b.pre.length, some b.chunk, (b.pre ++ b.chunk).length⟩

variable {b : Sorted} {chunk : List Byte}

theorem length_contents : b.contents.length = b.before.length + 1 := by simp [contents]

theorem add_chunk : (b.add chunk).chunk = chunk := by
  unfold add
  split
  · rfl
  split
  · exact Eq.symm ‹_›
  · rfl

theorem before_add (hold : ¬(StartsFile chunk ∧ chunk ≠ b.first)) :
    (b.add chunk).before = b.before := by
  rw [add, if_neg hold]
  split <;> rfl

theorem first_add (hold : ¬(StartsFile chunk ∧ chunk ≠ b.first)) :
    (b.add chunk).first = b.first := by
  rw [add, if_neg hold]
  split <;> rfl

/-- A chunk that comes again changes nothing. -/
theorem add_add : (b.add chunk).add chunk = b.add chunk := by
  have hfirst : ¬(StartsFile chunk ∧ chunk ≠ (b.add chunk).first) := by
    by_cases hnew : StartsFile chunk ∧ chunk ≠ b.first
    · rw [add, if_pos hnew]
      simp
    · rwa [first_add hnew]
  rw [add, if_neg hfirst, if_pos add_chunk.symm]

theorem identify_memory_new (hnew : StartsFile chunk ∧ chunk ≠ b.first) :
    b.memory.identify chunk = ⟨b.contents.length, some chunk, 0, some chunk, 0⟩ := by
  have hne : some chunk ≠ b.memory.firstChunk := fun h => hnew.2 (Option.some.inj h)
  rw [Memory.identify, if_pos ⟨hnew.1, hne⟩, length_contents]
  rfl

theorem identify_memory (hold : ¬(StartsFile chunk ∧ chunk ≠ b.first)) :
    b.memory.identify chunk = b.memory := by
  rw [Memory.identify, if_neg]
  rintro ⟨hstarts, hne⟩
  exact hold ⟨hstarts, fun h => hne (congrArg some h)⟩

/-- What the hooks remember after a chunk of the last file. -/
theorem locate_memory (hold : ¬(StartsFile chunk ∧ chunk ≠ b.first)) :
    b.memory.locate chunk = (b.add chunk).memory := by
  rw [add, if_neg hold]
  by_cases hagain : chunk = b.chunk
  · subst hagain
    simp [Memory.locate, memory]
  · have hne : b.chunk ≠ chunk := fun h => hagain h.symm
    simp [Memory.locate, memory, hne, hagain, add_assoc]

end Sorted

/-! ## One chunk -/

/-- Nothing is known of the size of a file. -/
structure IsOpen (f : File P) : Prop where
  broken : f.broken = false
  size : f.size = none
  chunks : f.chunks = none

/-- The receiver holds the files that the chunks are sorted into. -/
structure Holds (d : Directory P) (s : Receiver P Memory) (b : Sorted) : Prop where
  state : ∃ f, Shows d s (shelf b.contents) (.int b.before.length) f
    (some (.int b.before.length)) 0 b.memory ∧ IsOpen f

section Steps

variable {d : Directory P} {s : Receiver P Memory} {b : Sorted} {f : Frame}
variable {contents : List (List Byte)}

variable [DecidableEq P] (lib : Pathlib P) (path : P)

/-- A chunk is written into the last file. -/
theorem finish_chunk {content : List Byte} {current : Option FileId} {next : ℤ} {h k : Memory}
    {g : File P}
    (hs : Shows d s (shelf (contents ++ [content])) (.int contents.length) g current next h)
    (hg : IsOpen g) {v : Chunk} {o : ℕ} (hoffset : v.offset = some (o : ℤ))
    (hsize : v.filesize = none) (hchunks : v.chunks = none) :
    ∃ g', Shows d (s.finish (.int contents.length) g v none k).2
        (shelf (contents ++ [ByteFile.writeAt content o v.data])) (.int contents.length) g'
        (some (.int contents.length)) next k ∧ IsOpen g' := by
  have hopen : IsOpen ((g.fill v).advance v o) :=
    ⟨hg.broken, by simp [File.advance, File.fill, hg.size, hsize],
      by simp [File.advance, File.fill, hg.chunks, hchunks]⟩
  have hcomplete : ((g.fill v).advance v o).complete none = .ok false := by
    simp [File.complete, hopen.size, hopen.chunks]
  have hfill : (g.fill v).size = none := hopen.size
  have hdone := hs.finish_offset (k := k) hg.broken (shelf_last ..) hoffset
    (Int.natCast_nonneg _) (by simp [hfill]) hcomplete
  rw [Int.toNat_natCast, update_shelf_last] at hdone
  exact ⟨_, hdone, hopen⟩

/-- **A new file.** -/
theorem start_file (hr : (receiver lib path).Creates d) (hids : ∀ n, .int n ∈ d.ids)
    (hs : Keeps d s (shelf contents)) (hnext : s.nextFid = 0)
    (hidentify : s.hooks.identify f.chunk =
      ⟨contents.length, some f.chunk, 0, some f.chunk, 0⟩) :
    Holds d (exec ((receiver lib path).pushChunk f.bytes) s).2
      ⟨contents, [], f.chunk, f.chunk⟩ := by
  have hlocate : (⟨contents.length, some f.chunk, 0, some f.chunk, 0⟩ : Memory).locate f.chunk =
      (⟨contents, [], f.chunk, f.chunk⟩ : Sorted).memory := by
    simp [Memory.locate, Sorted.memory]
  have hears := hears lib path s.hooks f
  rw [Memory.chunk, hidentify, hlocate] at hears
  have hvacant := shelf_length contents
  rw [hears.push_created rfl rfl (hs.absent _ hvacant) (hs.canCreate hr (hids _) hvacant)]
  have hnew := Shows.create hs (hids contents.length) s.nextFid
    ⟨contents.length, some f.chunk, 0, some f.chunk, 0⟩
  rw [update_shelf_length] at hnew
  obtain ⟨g, hdone, hopen⟩ := finish_chunk (o := 0)
    (v := ⟨some (.int contents.length), none, some 0, f.chunk, none, none⟩)
    (k := (⟨contents, [], f.chunk, f.chunk⟩ : Sorted).memory) hnew ⟨rfl, rfl, rfl⟩
    rfl rfl rfl
  have hdata : ByteFile.writeAt [] 0 f.chunk = [] ++ f.chunk :=
    ByteFile.writeAt_length [] f.chunk
  rw [hdata] at hdone
  exact ⟨g, ⟨hdone.keeps, hdone.file, hdone.current, hdone.next.trans hnext, hdone.hooks⟩, hopen⟩

/-- **A chunk of the last file.** -/
theorem Holds.continue_file (hs : Holds d s b)
    (hold : ¬(StartsFile f.chunk ∧ f.chunk ≠ b.first)) :
    Holds d (exec ((receiver lib path).pushChunk f.bytes) s).2 (b.add f.chunk) := by
  obtain ⟨g, hshows, hopen⟩ := hs
  have hears := hears lib path s.hooks f
  rw [Memory.chunk, hshows.hooks, Sorted.identify_memory hold, Sorted.locate_memory hold] at hears
  rw [hears.push_known hshows.hooks rfl hshows.file]
  obtain ⟨g', hdone, hopen'⟩ := finish_chunk (o := (b.add f.chunk).pre.length)
    (v := ⟨some (.int b.before.length), none, some (b.add f.chunk).pre.length, f.chunk, none, none⟩)
    (k := (b.add f.chunk).memory) (hshows.withHooks b.memory) hopen rfl rfl rfl
  have hdata : ByteFile.writeAt (b.pre ++ b.chunk) (b.add f.chunk).pre.length f.chunk =
      (b.add f.chunk).pre ++ (b.add f.chunk).chunk := by
    rw [Sorted.add, if_neg hold]
    split
    · rw [‹f.chunk = b.chunk›, ByteFile.writeAt_append]
    · exact ByteFile.writeAt_length _ _
  rw [hdata] at hdone
  refine ⟨g', ?_, hopen'⟩
  rw [Sorted.contents, Sorted.before_add hold]
  exact hdone

/-- **One chunk.** -/
theorem Holds.push (hr : (receiver lib path).Creates d) (hids : ∀ n, .int n ∈ d.ids)
    (hs : Holds d s b) :
    Holds d (exec ((receiver lib path).pushChunk f.bytes) s).2 (b.add f.chunk) := by
  by_cases hnew : StartsFile f.chunk ∧ f.chunk ≠ b.first
  · obtain ⟨g, hshows, -⟩ := hs
    rw [Sorted.add, if_pos hnew]
    refine start_file lib path hr hids hshows.keeps hshows.next ?_
    rw [hshows.hooks, Sorted.identify_memory_new hnew]
  · exact hs.continue_file lib path hnew

/-- **The first chunk.** -/
theorem holds_first (hr : (receiver lib path).Creates d) (hids : ∀ n, .int n ∈ d.ids)
    {disk : P → Option (List Byte)} (hdisk : d.Vacant disk) (uuids : ℕ → String)
    (hstarts : StartsFile f.chunk) :
    Holds d (exec ((receiver lib path).pushChunk f.bytes) (.init disk uuids .init)).2
      ⟨[], [], f.chunk, f.chunk⟩ := by
  refine start_file lib path hr hids ?_ rfl ?_
  · rw [shelf_nil]
    exact keeps_init hdisk uuids _
  · exact if_pos ⟨hstarts, Option.some_ne_none _⟩

/-- **Runs.** -/
theorem Holds.pushAll (hr : (receiver lib path).Creates d) (hids : ∀ n, .int n ∈ d.ids)
    (hs : Holds d s b) (frames : List Frame) :
    Holds d ((receiver lib path).pushAll s (frames.map Frame.bytes))
      ((frames.map Frame.chunk).foldl Sorted.add b) := by
  induction frames generalizing s b with
  | nil => exact hs
  | cons f frames ih => exact ih (hs.push lib path hr hids)

end Steps

/-! ## Whole files -/

/-- A JPEG file cut into chunks: the first one starts with `ff d8`, and no other does. -/
structure IsFile (file : List (List Byte)) : Prop where
  first : ∃ chunk ∈ file.head?, StartsFile chunk
  rest : ∀ chunk ∈ file.tail, ¬StartsFile chunk

/-- What is left of a file when a chunk that equals the one before it is taken for the same. -/
def kept (file : List (List Byte)) : List Byte := (file.destutter (· ≠ ·)).flatten

/-- A sublist without empty chunks has the same bytes only if it leaves out no chunk. -/
theorem eq_of_flatten_eq {part file : List (List Byte)} (hpart : part.Sublist file)
    (hne : ∀ chunk ∈ file, chunk ≠ []) (hflatten : part.flatten = file.flatten) : part = file := by
  have hlength := congrArg List.length hflatten
  clear hflatten
  induction hpart with
  | slnil => rfl
  | @cons part file chunk hpart ih =>
    have hpos := List.length_pos_iff.mpr (hne chunk List.mem_cons_self)
    have hle := hpart.flatten.length_le
    rw [List.flatten_cons, List.length_append] at hlength
    omega
  | @cons_cons part file chunk hpart ih =>
    rw [List.flatten_cons, List.flatten_cons, List.length_append, List.length_append] at hlength
    rw [ih (fun c hc => hne c (List.mem_cons_of_mem _ hc)) (by omega)]

/-- Nothing of a file is left out if no chunk equals the one before it. -/
theorem kept_eq_flatten_iff {file : List (List Byte)} (hne : ∀ chunk ∈ file, chunk ≠ []) :
    kept file = file.flatten ↔ file.IsChain (· ≠ ·) := by
  rw [← List.destutter_eq_self_iff]
  exact ⟨eq_of_flatten_eq (List.destutter_sublist _ file) hne, congrArg List.flatten⟩

namespace Sorted

variable {b : Sorted} {file : List (List Byte)}

/-- The chunks of a file after the first one. -/
theorem foldl_add_rest {rest : List (List Byte)} (hrest : ∀ chunk ∈ rest, ¬StartsFile chunk) :
    (rest.foldl add b).before = b.before ∧ (rest.foldl add b).first = b.first ∧
      (rest.foldl add b).pre ++ (rest.foldl add b).chunk =
        b.pre ++ (rest.destutter' (· ≠ ·) b.chunk).flatten := by
  induction rest generalizing b with
  | nil => exact ⟨rfl, rfl, by simp⟩
  | cons chunk rest ih =>
    have hold : ¬(StartsFile chunk ∧ chunk ≠ b.first) :=
      fun h => hrest chunk List.mem_cons_self h.1
    obtain ⟨hbefore, hfirst, hdata⟩ :=
      ih (b := b.add chunk) fun c hc => hrest c (List.mem_cons_of_mem _ hc)
    rw [List.foldl_cons, hbefore, hfirst, hdata, before_add hold, first_add hold]
    refine ⟨rfl, rfl, ?_⟩
    rw [add, if_neg hold]
    split
    · rw [List.destutter'_cons_neg _ (by simpa using Eq.symm ‹_›)]
    · rw [List.destutter'_cons_pos _ (Ne.symm ‹_›), List.flatten_cons, List.append_assoc]

/-- The first file. -/
theorem foldl_add_first {chunk : List Byte} {rest : List (List Byte)} (before : List (List Byte))
    (hfile : IsFile (chunk :: rest)) :
    (rest.foldl add ⟨before, [], chunk, chunk⟩).contents = before ++ [kept (chunk :: rest)] ∧
      (rest.foldl add ⟨before, [], chunk, chunk⟩).first = chunk := by
  have hrest : ∀ c ∈ rest, ¬StartsFile c := hfile.rest
  obtain ⟨hbefore, hfirst, hdata⟩ := foldl_add_rest (b := ⟨before, [], chunk, chunk⟩) hrest
  refine ⟨?_, hfirst⟩
  rw [contents, hbefore, hdata]
  rfl

/-- A file that does not start as the file before it is put after it. -/
theorem foldl_add_new (hfile : IsFile file) (hnew : file.head? ≠ some b.first) :
    (file.foldl add b).contents = b.contents ++ [kept file] ∧
      some (file.foldl add b).first = file.head? := by
  obtain ⟨chunk, hchunk, hstarts⟩ := hfile.first
  cases file with
  | nil => cases hchunk
  | cons c rest =>
    obtain rfl := Option.some.inj hchunk
    have hadd : b.add c = ⟨b.contents, [], c, c⟩ :=
      if_pos ⟨hstarts, fun h => hnew (congrArg some h)⟩
    obtain ⟨hcontents, hfirst⟩ := foldl_add_first b.contents hfile
    rw [List.foldl_cons, hadd, hfirst]
    exact ⟨hcontents, rfl⟩

/-- A file that starts as the file before it is not told apart from it. -/
theorem foldl_add_same (hfile : IsFile file) (hsame : file.head? = some b.first) :
    (file.foldl add b).before = b.before ∧ (file.foldl add b).first = b.first := by
  cases file with
  | nil => cases hsame
  | cons c rest =>
    obtain rfl := Option.some.inj hsame
    have hold : ¬(StartsFile b.first ∧ b.first ≠ b.first) := fun h => h.2 rfl
    have hrest : ∀ chunk ∈ rest, ¬StartsFile chunk := hfile.rest
    obtain ⟨hbefore, hfirst, -⟩ := foldl_add_rest (b := b.add b.first) hrest
    exact ⟨hbefore.trans (before_add hold), hfirst.trans (first_add hold)⟩

variable {files : List (List (List Byte))}

/-- Each file is put in a file of its own exactly if none starts as the one before it. -/
theorem length_foldl_add (hfiles : ∀ file ∈ files, IsFile file) :
    (files.flatten.foldl add b).contents.length ≤ b.contents.length + files.length ∧
      ((files.flatten.foldl add b).contents.length = b.contents.length + files.length ↔
        (some b.first :: files.map List.head?).IsChain (· ≠ ·)) := by
  induction files generalizing b with
  | nil => simp
  | cons file files ih =>
    have hfile := hfiles file List.mem_cons_self
    obtain ⟨hle, hiff⟩ := ih (b := file.foldl add b)
      fun file hfile => hfiles file (List.mem_cons_of_mem _ hfile)
    rw [List.flatten_cons, List.foldl_append, List.map_cons, List.isChain_cons_cons,
      List.length_cons]
    by_cases hnew : file.head? = some b.first
    · obtain ⟨hbefore, -⟩ := foldl_add_same hfile hnew
      have hlength : (file.foldl add b).contents.length = b.contents.length := by
        rw [length_contents, length_contents, hbefore]
      exact ⟨by omega, fun h => by omega, fun h => absurd hnew.symm h.1⟩
    · obtain ⟨hcontents, hfirst⟩ := foldl_add_new hfile hnew
      have hlength : (file.foldl add b).contents.length = b.contents.length + 1 := by
        rw [hcontents, List.length_append, List.length_singleton]
      rw [← hfirst, ← hiff]
      refine ⟨by omega, fun h => ⟨fun h' => hnew ?_, by omega⟩, fun h => by omega⟩
      rw [← hfirst, ← h']

/-- The files when none starts as the one before it. -/
theorem contents_foldl_add (hfiles : ∀ file ∈ files, IsFile file)
    (hstarts : (some b.first :: files.map List.head?).IsChain (· ≠ ·)) :
    (files.flatten.foldl add b).contents = b.contents ++ files.map kept := by
  induction files generalizing b with
  | nil => simp
  | cons file files ih =>
    rw [List.map_cons, List.isChain_cons_cons] at hstarts
    obtain ⟨hcontents, hfirst⟩ := foldl_add_new (hfiles file List.mem_cons_self) (Ne.symm hstarts.1)
    rw [← hfirst] at hstarts
    rw [List.flatten_cons, List.foldl_append,
      ih (fun file hfile => hfiles file (List.mem_cons_of_mem _ hfile)) hstarts.2, hcontents]
    simp

end Sorted

/-- The files can be told apart: none starts with the chunk that the one before it starts with, and
no chunk of a file equals the one before it. -/
structure Distinguishable (files : List (List (List Byte))) : Prop where
  starts : (files.map List.head?).IsChain (· ≠ ·)
  chunks : ∀ file ∈ files, file.IsChain (· ≠ ·)

/-- The files that are sorted out are those that have been sent. -/
theorem contents_eq_iff {chunk : List Byte} {rest : List (List Byte)}
    {files : List (List (List Byte))} (hfiles : ∀ file ∈ (chunk :: rest) :: files, IsFile file)
    (hne : ∀ file ∈ (chunk :: rest) :: files, ∀ chunk ∈ file, chunk ≠ []) :
    ((rest ++ files.flatten).foldl Sorted.add ⟨[], [], chunk, chunk⟩).contents.length ≤
        files.length + 1 ∧
      (((rest ++ files.flatten).foldl Sorted.add ⟨[], [], chunk, chunk⟩).contents =
          ((chunk :: rest) :: files).map List.flatten ↔
        Distinguishable ((chunk :: rest) :: files)) := by
  have hlater : ∀ file ∈ files, IsFile file := fun file h => hfiles file (List.mem_cons_of_mem _ h)
  obtain ⟨hcontents, hfirst⟩ :=
    Sorted.foldl_add_first [] (hfiles (chunk :: rest) List.mem_cons_self)
  obtain ⟨hle, hiff⟩ := Sorted.length_foldl_add (b := rest.foldl Sorted.add ⟨[], [], chunk, chunk⟩)
    hlater
  have hone : (rest.foldl Sorted.add ⟨[], [], chunk, chunk⟩).contents.length = 1 := by
    rw [hcontents]
    rfl
  have hall (hstarts : (some chunk :: files.map List.head?).IsChain (· ≠ ·)) :
      (files.flatten.foldl Sorted.add (rest.foldl Sorted.add ⟨[], [], chunk, chunk⟩)).contents =
        ((chunk :: rest) :: files).map kept := by
    rw [Sorted.contents_foldl_add hlater (by rwa [hfirst]), hcontents]
    rfl
  rw [hfirst] at hiff
  rw [List.foldl_append]
  refine ⟨by omega, fun h => ?_, fun h => ?_⟩
  · have hstarts := hiff.mp (by rw [h, hone]; simp [Nat.add_comm])
    rw [hall hstarts, List.map_inj_left] at h
    exact ⟨hstarts, fun file hfile => (kept_eq_flatten_iff (hne file hfile)).mp (h file hfile)⟩
  · rw [hall h.starts, List.map_inj_left]
    exact fun file hfile => (kept_eq_flatten_iff (hne file hfile)).mpr (h.chunks file hfile)

/-! ## Files as they are received -/

/-- The chunks of a file, from its frames and how often each comes again. -/
def chunks (file : List (Frame × ℕ)) : List (List Byte) := file.map (·.1.chunk)

/-- The frames of a file in the order of delivery. -/
def deliver (file : List (Frame × ℕ)) : List Frame :=
  file.flatMap fun p => List.replicate (p.2 + 1) p.1

/-- Frames that come again change nothing. -/
theorem foldl_deliver (b : Sorted) (file : List (Frame × ℕ)) :
    ((deliver file).map Frame.chunk).foldl Sorted.add b = (chunks file).foldl Sorted.add b := by
  induction file generalizing b with
  | nil => rfl
  | cons p file ih =>
    have hagain (n : ℕ) : (List.replicate n p.1.chunk).foldl Sorted.add (b.add p.1.chunk) =
        b.add p.1.chunk := by
      induction n with
      | zero => rfl
      | succ n ih => rw [List.replicate_succ, List.foldl_cons, Sorted.add_add, ih]
    have hdeliver : (deliver (p :: file)).map Frame.chunk =
        p.1.chunk :: (List.replicate p.2 p.1.chunk ++ (deliver file).map Frame.chunk) := by
      simp [deliver, List.replicate_succ]
    rw [hdeliver, List.foldl_cons, List.foldl_append, hagain, ih]
    rfl

theorem foldl_deliver_files (b : Sorted) (files : List (List (Frame × ℕ))) :
    ((files.flatMap deliver).map Frame.chunk).foldl Sorted.add b =
      (files.map chunks).flatten.foldl Sorted.add b := by
  induction files generalizing b with
  | nil => rfl
  | cons file files ih =>
    rw [List.flatMap_cons, List.map_append, List.foldl_append, foldl_deliver, ih, List.map_cons,
      List.flatten_cons, List.foldl_append]

/-- Each file has an id of its own, under which the bytes that have been sent are stored. -/
structure Received (files : List (List (List Byte))) (s : Receiver P Memory) : Prop where
  stored : ∀ (j : ℕ) file, files[j]? = some file → ∃ f, s.files (.int j) = some f ∧
    s.disk f.path = some file.flatten
  distinct : ∀ i j f g, s.files i = some f → s.files j = some g → f.path = g.path → i = j

theorem Holds.received_iff {d : Directory P} {s : Receiver P Memory} {b : Sorted}
    (hs : Holds d s b) {files : List (List (List Byte))} (hle : b.contents.length ≤ files.length) :
    Received files s ↔ b.contents = files.map List.flatten := by
  obtain ⟨g, hshows, -⟩ := hs
  constructor
  · intro hreceived
    refine List.ext_getElem? fun j => ?_
    rw [List.getElem?_map]
    cases hfile : files[j]? with
    | none =>
      have := List.getElem?_eq_none_iff.mp hfile
      rw [Option.map_none, List.getElem?_eq_none (by omega)]
    | some file =>
      obtain ⟨f, hf, hdisk⟩ := hreceived.stored j file hfile
      obtain ⟨content, hcontent, -, hdisk'⟩ := hshows.keeps.exists_of_files hf
      rw [shelf_natCast] at hcontent
      rw [hcontent, Option.map_some, ← hdisk, hdisk']
  · intro hcontents
    refine ⟨fun j file hfile => ?_, fun i j f g => hshows.keeps.distinct⟩
    obtain ⟨-, f, hf, hpath, hdisk⟩ := hshows.keeps.stored (.int j) file.flatten
      (by rw [shelf_natCast, hcontents, List.getElem?_map, hfile, Option.map_some])
    exact ⟨f, hf, hpath ▸ hdisk⟩

/-- What is held after a run that starts with a file. -/
theorem holds_deliver [DecidableEq P] (lib : Pathlib P) (path : P) {d : Directory P}
    (hr : (receiver lib path).Creates d) (hids : ∀ n, .int n ∈ d.ids)
    {disk : P → Option (List Byte)} (hdisk : d.Vacant disk) (uuids : ℕ → String)
    {f : Frame} (hstarts : StartsFile f.chunk) (again : ℕ) (rest : List (Frame × ℕ))
    (files : List (List (Frame × ℕ))) :
    Holds d ((receiver lib path).pushAll (.init disk uuids .init)
        (((((f, again) :: rest) :: files).flatMap deliver).map Frame.bytes))
      ((chunks rest ++ (files.map chunks).flatten).foldl Sorted.add
        ⟨[], [], f.chunk, f.chunk⟩) := by
  have hfirst := holds_first lib path hr hids hdisk uuids hstarts
  have hrun := hfirst.pushAll lib path hr hids
    (List.replicate again f ++ deliver rest ++ files.flatMap deliver)
  have hadd : (⟨[], [], f.chunk, f.chunk⟩ : Sorted).add f.chunk = ⟨[], [], f.chunk, f.chunk⟩ := by
    simp [Sorted.add]
  have hdeliver : (((f, again) :: rest) :: files).flatMap deliver =
      f :: (List.replicate again f ++ deliver rest ++ files.flatMap deliver) := by
    simp [deliver, List.replicate_succ]
  have hsorted := foldl_deliver_files ⟨[], [], f.chunk, f.chunk⟩ (((f, again) :: rest) :: files)
  rw [hdeliver, List.map_cons, List.foldl_cons, hadd, List.map_cons, List.flatten_cons, chunks,
    List.map_cons, List.cons_append, List.foldl_cons, hadd] at hsorted
  rw [hsorted] at hrun
  rw [hdeliver]
  exact hrun

/-- **Files of CAS-5A.** The receiver puts each file in a file of its own, with the bytes that have
been sent, if and only if no file starts with the chunk that the one before it starts with, and no
chunk of a file equals the one before it. -/
theorem received_iff_distinguishable [DecidableEq P] (lib : Pathlib P) (path : P)
    {d : Directory P} (hr : (receiver lib path).Creates d) (hids : ∀ n, .int n ∈ d.ids)
    {disk : P → Option (List Byte)} (hdisk : d.Vacant disk) (uuids : ℕ → String)
    {files : List (List (Frame × ℕ))} (hfiles : ∀ file ∈ files, IsFile (chunks file)) :
    Received (files.map chunks) ((receiver lib path).pushAll (.init disk uuids .init)
        ((files.flatMap deliver).map Frame.bytes)) ↔
      Distinguishable (files.map chunks) := by
  cases files with
  | nil =>
    have hkeeps := keeps_init hdisk uuids Memory.init
    exact ⟨fun _ => ⟨.nil, fun _ h => nomatch h⟩,
      fun _ => ⟨fun _ _ h => (nomatch h), fun _ _ _ _ => hkeeps.distinct⟩⟩
  | cons file files =>
    obtain ⟨chunk, hchunk, hstarts⟩ := (hfiles file List.mem_cons_self).first
    cases file with
    | nil => cases hchunk
    | cons p rest =>
      obtain ⟨f, again⟩ := p
      obtain rfl : f.chunk = chunk := Option.some.inj hchunk
      have hrun := holds_deliver lib path hr hids hdisk uuids hstarts again rest files
      have hfiles' : ∀ file ∈ (f.chunk :: chunks rest) :: files.map chunks, IsFile file := by
        rw [← List.forall_mem_map (f := chunks)] at hfiles
        exact hfiles
      have hne : ∀ file ∈ (f.chunk :: chunks rest) :: files.map chunks, ∀ chunk ∈ file,
          chunk ≠ [] := by
        have hfile : ∀ file : List (Frame × ℕ), ∀ chunk ∈ chunks file, chunk ≠ [] := by
          intro file chunk hchunk
          obtain ⟨p, -, rfl⟩ := List.mem_map.mp hchunk
          exact p.1.chunk_ne_nil
        intro file hmem
        rcases List.mem_cons.mp hmem with rfl | hmem
        · exact hfile ((f, again) :: rest)
        · obtain ⟨file, -, rfl⟩ := List.mem_map.mp hmem
          exact hfile file
      obtain ⟨hle, hiff⟩ := contents_eq_iff hfiles' hne
      rw [← show (((f, again) :: rest) :: files).map chunks =
        (f.chunk :: chunks rest) :: files.map chunks from rfl] at hiff
      refine (hrun.received_iff ?_).trans hiff
      simpa using hle

theorem length_blank : (List.replicate 16 (0 : Byte)).length = 16 := List.length_replicate

theorem start_ne_nil (byte : Byte) : [0xff, 0xd8, byte] ≠ [] := List.cons_ne_nil _ _

theorem singleton_ne_nil (byte : Byte) : [byte] ≠ [] := List.cons_ne_nil _ _

theorem not_isTelemetry_of_short {chunk : List Byte} (hshort : chunk.length < 6) :
    ¬IsTelemetry chunk := fun h => absurd h.length_le (not_le.mpr hshort)

theorem not_isTelemetry_start (byte : Byte) : ¬IsTelemetry [0xff, 0xd8, byte] :=
  not_isTelemetry_of_short (by simp)

theorem not_isTelemetry_singleton (byte : Byte) : ¬IsTelemetry [byte] :=
  not_isTelemetry_of_short (by simp)

/-- A frame that starts a file. -/
def startFrame (byte : Byte) : Frame :=
  ⟨List.replicate 16 0, [0xff, 0xd8, byte], length_blank, start_ne_nil byte,
    not_isTelemetry_start byte⟩

/-- A frame with one byte. -/
def byteFrame (byte : Byte) : Frame :=
  ⟨List.replicate 16 0, [byte], length_blank, singleton_ne_nil byte, not_isTelemetry_singleton byte⟩

/-- Two files, and a frame that is delivered twice. -/
theorem received_two_files :
    Received ([[(startFrame 1, 0), (byteFrame 2, 1)], [(startFrame 3, 0)]].map chunks)
        ((receiver plainNames "files").pushAll (.init (fun _ => none) (fun _ => "") .init)
          (([[(startFrame 1, 0), (byteFrame 2, 1)], [(startFrame 3, 0)]].flatMap deliver).map
            Frame.bytes)) := by
  refine (received_iff_distinguishable plainNames "files"
    (FileReceiver.creates_plain rfl rfl fun _ => rfl) (fun n => ⟨n, rfl⟩) (fun _ _ => rfl)
    (fun _ => "") fun file hfile => ?_).mpr ⟨by decide, by decide⟩
  rcases List.mem_cons.mp hfile with rfl | hfile
  · exact ⟨⟨_, rfl, by decide⟩, by decide⟩
  · obtain rfl := List.mem_singleton.mp hfile
    exact ⟨⟨_, rfl, by decide⟩, by decide⟩

/-- Two files that start with the same chunk become one, and the second of two equal chunks is left
out. -/
theorem not_received_equal_chunks :
    (¬Received ([[(startFrame 1, 0)], [(startFrame 1, 0)]].map chunks)
      ((receiver plainNames "files").pushAll (.init (fun _ => none) (fun _ => "") .init)
        (([[(startFrame 1, 0)], [(startFrame 1, 0)]].flatMap deliver).map Frame.bytes))) ∧
    ¬Received ([[(startFrame 1, 0), (byteFrame 2, 0), (byteFrame 2, 0)]].map chunks)
      ((receiver plainNames "files").pushAll (.init (fun _ => none) (fun _ => "") .init)
        (([[(startFrame 1, 0), (byteFrame 2, 0), (byteFrame 2, 0)]].flatMap deliver).map
          Frame.bytes)) := by
  have hvacant : (Directory.plain "files" ".jpg").Vacant fun _ => none := fun _ _ => rfl
  have hstarts : StartsFile (startFrame 1).chunk := by decide
  have hrun := holds_deliver plainNames "files" (FileReceiver.creates_plain rfl rfl fun _ => rfl)
    (fun n => ⟨n, rfl⟩) hvacant (fun _ => "") hstarts 0
  constructor
  · rw [(hrun [] [[(startFrame 1, 0)]]).received_iff (by decide)]
    decide
  · rw [(hrun [(byteFrame 2, 0), (byteFrame 2, 0)] []).received_iff (by decide)]
    decide

end GrSatellites.Files.Cas5a
