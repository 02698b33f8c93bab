import GrSatellites.Files.Archive
import GrSatellites.Library.Endian

/-!
# Images of D-SAT

The class `ImageReceiverDSAT` of `python/filereceiver/dsat.py`. A file is announced with its id and
its length, and is sent in segments. A chunk has its offset in its segment and the size of the
segment, and a new segment is told from an offset that is lower than the one before it.
-/

namespace GrSatellites.Files.Dsat

open Endian Function Routine

variable {P : Type}

/-- `struct.unpack('>I', ...)`. -/
def unpackI (bytes : List Byte) : ℕ := (readBE 32 bytes).toNat

/-- `CSPHeader.parse(...).destination_port`. -/
def destinationPort (chunk : List Byte) : BitVec 6 := (readBE 32 (chunk.take 4) >>> 14).setWidth 6

/-- What the hooks remember: the `_dsat_` attributes, and the id and the length of the file that has
been announced. -/
structure Memory where
  oldOffset : ℕ
  currentSegment : ℕ
  currentSegmentSize : Option ℕ
  announced : Option (ℕ × ℕ)

/-- The memory after construction. -/
def Memory.init : Memory := ⟨0, 0, none, none⟩

/-- `_dsat_reset_segments`. -/
def Memory.resetSegments (m : Memory) : Memory :=
  { m with oldOffset := 0, currentSegment := 0, currentSegmentSize := none }

/-- The offset of a chunk in its segment. -/
def offset (chunk : List Byte) : ℕ := unpackI ((chunk.drop (chunk.length - 8)).take 4)

/-- `_dsat_segment_size`. -/
def segmentSize (chunk : List Byte) : ℕ := unpackI (chunk.drop (chunk.length - 4))

/-- The memory once a chunk with the given offset and segment size has been located. -/
def Memory.locate (m : Memory) (offset size : ℕ) : Memory :=
  -- when the offset rolls over and the size of the last segment is not known, that of the chunk
  -- is taken
  let m := if offset < m.oldOffset then
    { m with currentSegment := m.currentSegment + m.currentSegmentSize.getD size } else m
  { m with oldOffset := offset, currentSegmentSize := some size }

/-- `chunk_offset`. -/
def chunkOffset (chunk : List Byte) : Method P Memory (Option ℤ) := do
  modify fun s => { s with hooks := s.hooks.locate (offset chunk) (segmentSize chunk) }
  return some (((← get).hooks.currentSegment + offset chunk : ℕ) : ℤ)

/-- `chunk_data`. -/
def chunkData (chunk : List Byte) : List Byte := (chunk.take (chunk.length - 8)).drop 4

/-- `parse_chunk`. Port 30 is used for JPEG blocks. -/
def parseChunk (chunk : List Byte) : Option (List Byte) :=
  if chunk.length ≤ 15 + 8 then none
  else if destinationPort chunk ≠ 30 then none
  else some chunk

/-- The receiver. -/
def receiver (lib : Pathlib P) (path : P) : FileReceiver P Memory (List Byte) (List Byte) where
  lib := lib
  path := path
  parseChunk chunk := pure (parseChunk chunk)
  fileId _ := do return (← get).hooks.announced.map fun a => .int a.1
  chunkSequence _ := pure none
  chunkOffset := chunkOffset
  chunkData chunk := pure (chunkData chunk)
  fileChunks _ := pure none
  fileSize _ := do return (← get).hooks.announced.map fun a => (a.2 : ℤ)
  isLastChunk _ := pure none
  filename fid := pure (fid.toStr ++ ".jpg")
  onCompletion _ := pure ()

/-- The id of the file that is announced. -/
def announcedFid (chunk : List Byte) : ℕ := unpackI ((chunk.drop 8).take 4).reverse

/-- The length of the file that is announced. -/
def announcedLength (chunk : List Byte) : ℕ := unpackI ((chunk.drop 21).take 4).reverse

/-- `_watch_file_announcements`. Port 12 is used for announcements. -/
def watchFileAnnouncements (chunk : List Byte) : Method P Memory Unit := do
  if chunk.length < 25 then return
  if destinationPort chunk ≠ 12 then return
  modify fun s => { s with hooks :=
    { s.hooks.resetSegments with announced := some (announcedFid chunk, announcedLength chunk) } }

variable [DecidableEq P]

/-- `push_chunk`. -/
def pushChunk (lib : Pathlib P) (path : P) (chunk : List Byte) : Method P Memory Unit := do
  watchFileAnnouncements chunk
  (receiver lib path).pushChunk chunk

/-- Push some chunks one after the other. -/
def pushAll (lib : Pathlib P) (path : P) (s : Receiver P Memory) (chunks : List (List Byte)) :
    Receiver P Memory :=
  chunks.foldl (fun s chunk => (exec (pushChunk lib path chunk) s).2) s

/-! ## Frames -/

/-- A chunk of a file with its header. -/
structure Piece where
  header : List Byte
  data : List Byte
  length_header : header.length = 4
  port : destinationPort header = 30
  data_ne_nil : data ≠ []

/-- A chunk with its place: where its segment starts, its offset there, and the size of the
segment. -/
structure Placed where
  start : ℕ
  offset : ℕ
  size : ℕ
  piece : Piece

namespace Placed

/-- Where the chunk is in the file. -/
def position (c : Placed) : ℕ := c.start + c.offset

/-- The frame. -/
def bytes (c : Placed) : List Byte :=
  c.piece.header ++ (c.piece.data ++
    (bytesBE 4 (BitVec.ofNat 32 c.offset) ++ bytesBE 4 (BitVec.ofNat 32 c.size)))

theorem length_bytes (c : Placed) : c.bytes.length = c.piece.data.length + 12 := by
  simp [bytes, c.piece.length_header]
  omega

theorem destinationPort_bytes (c : Placed) : destinationPort c.bytes = 30 := by
  have htake : c.bytes.take 4 = c.piece.header.take 4 :=
    List.take_append_of_le_length c.piece.length_header.ge
  rw [destinationPort, htake]
  exact c.piece.port

theorem unpackI_bytesBE {n : ℕ} (hn : n < 2 ^ 32) :
    unpackI (bytesBE 4 (BitVec.ofNat 32 n)) = n := by
  have hfits : BitVec.ofNat 32 n >>> (8 * 4) = 0#32 := BitVec.ushiftRight_eq_zero le_rfl
  rw [unpackI, readBE_bytesBE hfits, BitVec.toNat_ofNat, Nat.mod_eq_of_lt hn]

theorem offset_bytes {c : Placed} (hoffset : c.offset < 2 ^ 32) :
    Dsat.offset c.bytes = c.offset := by
  have hdrop : c.bytes.drop (c.bytes.length - 8) =
      bytesBE 4 (BitVec.ofNat 32 c.offset) ++ bytesBE 4 (BitVec.ofNat 32 c.size) := by
    rw [bytes, ← List.append_assoc]
    exact List.drop_left' (by simp only [List.length_append, length_bytesBE]; omega)
  rw [Dsat.offset, hdrop, List.take_left' (length_bytesBE 4 _), unpackI_bytesBE hoffset]

theorem segmentSize_bytes {c : Placed} (hsize : c.size < 2 ^ 32) :
    segmentSize c.bytes = c.size := by
  have hdrop : c.bytes.drop (c.bytes.length - 4) = bytesBE 4 (BitVec.ofNat 32 c.size) := by
    rw [bytes, ← List.append_assoc, ← List.append_assoc]
    exact List.drop_left' (by simp only [List.length_append, length_bytesBE]; omega)
  rw [segmentSize, hdrop, unpackI_bytesBE hsize]

theorem chunkData_bytes (c : Placed) : chunkData c.bytes = c.piece.data := by
  have htake : c.bytes.take (c.bytes.length - 8) = c.piece.header ++ c.piece.data := by
    rw [bytes, ← List.append_assoc]
    exact List.take_left' (by simp only [List.length_append, length_bytesBE]; omega)
  rw [chunkData, htake, List.drop_left' c.piece.length_header]

theorem parseChunk_bytes {c : Placed} (hlong : 12 ≤ c.piece.data.length) :
    parseChunk c.bytes = some c.bytes := by
  have := c.length_bytes
  rw [parseChunk, if_neg (by omega), if_neg (not_not.mpr c.destinationPort_bytes)]

/-- What the hooks remember after the chunk. -/
def memory (c : Placed) (announced : ℕ × ℕ) : Memory :=
  ⟨c.offset, c.start, some c.size, some announced⟩

/-- What the hooks read from the chunk. -/
def chunk (c : Placed) (announced : ℕ × ℕ) : Chunk :=
  ⟨some (.int announced.1), none, some c.position, c.piece.data, none, some announced.2⟩

end Placed

/-- The hooks tell the place of a chunk, and the chunk is neither too short nor past the end. -/
structure Placed.Told (c : Placed) (announced : ℕ × ℕ) (m : Memory) : Prop where
  long : 12 ≤ c.piece.data.length
  offset : c.offset < 2 ^ 32
  size : c.size < 2 ^ 32
  locate : m.locate c.offset c.size = c.memory announced
  fits : c.position + c.piece.data.length ≤ announced.2

theorem Memory.locate_announced (m : Memory) (offset size : ℕ) :
    (m.locate offset size).announced = m.announced := by
  unfold locate
  split <;> rfl

theorem Placed.Told.announced {c : Placed} {announced : ℕ × ℕ} {m : Memory}
    (h : c.Told announced m) : m.announced = some announced := by
  rw [← m.locate_announced c.offset c.size, h.locate]
  rfl

omit [DecidableEq P] in
theorem Placed.Told.answers {α : Type} {c : Placed} {announced : ℕ × ℕ} {m : Memory}
    (htold : c.Told announced m) (g : ℕ × ℕ → α) :
    Answers (do return (← get).hooks.announced.map g : Method P Memory (Option α)) m
      (some (g announced)) m := by
  rintro s rfl
  rw [exec_get_bind, exec_pure, htold.announced]
  rfl

omit [DecidableEq P] in
theorem hears (lib : Pathlib P) (path : P) {c : Placed} {m : Memory} {announced : ℕ × ℕ}
    (htold : c.Told announced m) :
    Hears (receiver lib path) c.bytes m m m (c.memory announced) (c.chunk announced) none where
  parse := by
    refine ⟨c.bytes, ?_, htold.answers _, .pure _ _, htold.answers _, htold.answers _, .pure _ _,
      ?_, ?_, .pure _ _⟩
    · rintro s rfl
      show exec (pure (parseChunk c.bytes)) s = _
      rw [Placed.parseChunk_bytes htold.long, exec_pure]
    · rintro s rfl
      show exec (chunkOffset c.bytes) s = _
      rw [chunkOffset, exec_modify_bind, exec_get_bind, exec_pure, Placed.offset_bytes htold.offset,
        Placed.segmentSize_bytes htold.size, htold.locate]
      rfl
    · rintro s hs
      show exec (pure (chunkData c.bytes)) s = _
      rw [Placed.chunkData_bytes, exec_pure, ← hs]
      rfl
  filename fid := ⟨_, rfl⟩
  onCompletion _ := rfl

/-! ## One chunk -/

section Steps

variable (lib : Pathlib P) (path : P) {d : Directory P} {s : Receiver P Memory} {a : Archive}
variable {announced : ℕ × ℕ} {m : Memory} {content : List Byte} {c : Placed}

/-- A chunk is no announcement. -/
theorem exec_pushChunk (s : Receiver P Memory) (c : Placed) :
    exec (pushChunk lib path c.bytes) s = exec ((receiver lib path).pushChunk c.bytes) s := by
  have hwatch : exec (watchFileAnnouncements c.bytes) s = (.ok (), s) := by
    rw [watchFileAnnouncements]
    split
    · rfl
    · rw [c.destinationPort_bytes, if_pos (by decide)]
      rfl
  rw [pushChunk, exec_bind_ok hwatch]

/-- A file of which some bytes are stored. -/
structure Receiving (d : Directory P) (s : Receiver P Memory) (a : Archive) (announced : ℕ × ℕ)
    (content : List Byte) (m : Memory) : Prop where
  state : ∃ f current next, Shows d s (update a (.int announced.1) (some content))
    (.int announced.1) f current next m ∧ f.broken = false ∧ f.size = some (announced.2 : ℤ) ∧
      f.chunks = none

/-- A chunk is written into its file. -/
theorem finish_chunk {f : File P} {current : Option FileId} {next : ℤ}
    (hs : Shows d s (update a (.int announced.1) (some content)) (.int announced.1) f current next
      m)
    (hbroken : f.broken = false)
    (hsize : (f.fill (c.chunk announced)).size = some (announced.2 : ℤ))
    (hchunks : f.chunks = none) (hfits : c.position + c.piece.data.length ≤ announced.2) :
    Receiving d
      (s.finish (.int announced.1) f (c.chunk announced) none (c.memory announced)).2 a announced
      (ByteFile.writeAt content c.position c.piece.data) (c.memory announced) := by
  have hchunks' : (f.fill (c.chunk announced)).chunks = none := by
    simp [File.fill, hchunks, Placed.chunk]
  have hfits' : ¬(f.fill (c.chunk announced)).size.any
      (· < (c.position : ℤ) + (c.chunk announced).data.length) := by
    rw [hsize]
    intro hlt
    have hlt' : (announced.2 : ℤ) < c.position + c.piece.data.length := of_decide_eq_true hlt
    omega
  obtain ⟨complete, hcomplete⟩ : ∃ complete,
      ((f.fill (c.chunk announced)).advance (c.chunk announced) c.position).complete none =
        .ok complete := by
    have hnone : ((f.fill (c.chunk announced)).advance (c.chunk announced) c.position).chunks =
        none := hchunks'
    rw [File.complete, hnone]
    split
    · exact ⟨_, rfl⟩
    · exact ⟨_, rfl⟩
  have hdone := hs.finish_offset (k := c.memory announced) hbroken (update_self ..) rfl
    (Int.natCast_nonneg _) hfits' hcomplete
  rw [Int.toNat_natCast, update_idem] at hdone
  exact ⟨_, _, _, hdone, hbroken, hsize, hchunks'⟩

/-- **The first chunk.** -/
theorem receiving_first (hr : (receiver lib path).Creates d) (hids : .int announced.1 ∈ d.ids)
    (hs : Keeps d s a) (hnew : a (.int announced.1) = none)
    (htold : c.Told announced s.hooks) :
    Receiving d (exec (pushChunk lib path c.bytes) s).2 a announced
      (ByteFile.writeAt [] c.position c.piece.data) (c.memory announced) := by
  have hears := hears lib path htold
  rw [exec_pushChunk, hears.push_created rfl rfl (hs.absent _ hnew) (hs.canCreate hr hids hnew)]
  have hcreated := Shows.create hs hids s.nextFid s.hooks
  exact finish_chunk hcreated rfl (by simp [File.fill, File.created, Placed.chunk]) rfl
    htold.fits

/-- **The next chunk.** -/
theorem Receiving.next (hs : Receiving d s a announced content m) (htold : c.Told announced m) :
    Receiving d (exec (pushChunk lib path c.bytes) s).2 a announced
      (ByteFile.writeAt content c.position c.piece.data) (c.memory announced) := by
  obtain ⟨f, current, next, hshows, hbroken, hlength, hchunks⟩ := hs
  have hears := hears lib path htold
  rw [exec_pushChunk, hears.push_known hshows.hooks rfl hshows.file]
  exact finish_chunk (hshows.withHooks m) hbroken (by simp [File.fill, hlength]) hchunks htold.fits

end Steps

/-! ## Chunks in order -/

/-- Chunks whose places are told one after the other: what the hooks remember and what the file
holds, before and after them. -/
inductive Delivers (announced : ℕ × ℕ) :
    Memory → List Byte → List Placed → Memory → List Byte → Prop
  | nil (m : Memory) (content : List Byte) : Delivers announced m content [] m content
  | cons {m m' : Memory} {content content' : List Byte} {c : Placed} {cs : List Placed}
    (head : c.Told announced m)
    (tail : Delivers announced (c.memory announced)
      (ByteFile.writeAt content c.position c.piece.data) cs m' content') :
    Delivers announced m content (c :: cs) m' content'

section Delivers

variable {announced : ℕ × ℕ} {m m' m'' : Memory} {content content' content'' : List Byte}
variable {c : Placed} {cs cs' : List Placed}

theorem Delivers.append (h : Delivers announced m content cs m' content')
    (h' : Delivers announced m' content' cs' m'' content'') :
    Delivers announced m content (cs ++ cs') m'' content'' := by
  induction h with
  | nil => exact h'
  | cons head _ ih => exact .cons head (ih h')

theorem Delivers.split (h : Delivers announced m content (cs ++ cs') m'' content'') :
    ∃ m' content', Delivers announced m content cs m' content' ∧
      Delivers announced m' content' cs' m'' content'' := by
  induction cs generalizing m content with
  | nil => exact ⟨m, content, .nil m content, h⟩
  | cons c cs ih =>
    cases h with
    | cons head tail =>
      obtain ⟨m', content', hcs, hcs'⟩ := ih tail
      exact ⟨m', content', .cons head hcs, hcs'⟩

theorem Delivers.memory_eq (h : Delivers announced m content (cs ++ [c]) m' content') :
    m' = c.memory announced := by
  obtain ⟨m₁, content₁, -, hlast⟩ := h.split
  cases hlast with
  | cons _ tail =>
    cases tail
    rfl

/-- The same chunk again. -/
theorem Placed.Told.again (h : c.Told announced m) : c.Told announced (c.memory announced) where
  long := h.long
  offset := h.offset
  size := h.size
  locate := by simp [Memory.locate, memory]
  fits := h.fits

/-- A chunk at the end of the file, delivered once or several times in a row. -/
theorem delivers_replicate (htold : c.Told announced m) (hend : content.length = c.position)
    (again : ℕ) :
    Delivers announced m content (List.replicate (again + 1) c) (c.memory announced)
      (content ++ c.piece.data) := by
  have hagain (n : ℕ) : Delivers announced (c.memory announced) (content ++ c.piece.data)
      (List.replicate n c) (c.memory announced) (content ++ c.piece.data) := by
    induction n with
    | zero => exact .nil _ _
    | succ n ih =>
      refine .cons htold.again ?_
      rwa [← hend, ByteFile.writeAt_append]
  refine .cons htold ?_
  rw [← hend, ByteFile.writeAt_length]
  exact hagain again

end Delivers

/-! ## Segments -/

/-- The bytes of a segment. Its chunks come with how often each is repeated. -/
def segmentData (segment : List (Piece × ℕ)) : List Byte := segment.flatMap (·.1.data)

/-- The chunks of a segment from an offset on, in the order of delivery. -/
def placeSegment (start size : ℕ) : ℕ → List (Piece × ℕ) → List Placed
  | _, [] => []
  | offset, (p, again) :: segment =>
    List.replicate (again + 1) ⟨start, offset, size, p⟩ ++
      placeSegment start size (offset + p.data.length) segment

/-- The chunks of some segments, the first of which starts at the given place. -/
def placeSegments : ℕ → List (List (Piece × ℕ)) → List Placed
  | _, [] => []
  | start, segment :: segments =>
    placeSegment start (segmentData segment).length 0 segment ++
      placeSegments (start + (segmentData segment).length) segments

section Segments

variable {announced : ℕ × ℕ}

/-- The chunks of a segment are put in their places. Afterwards the offset has grown if there is
more than one. -/
theorem delivers_segment (hlength : announced.2 < 2 ^ 32) {start size : ℕ}
    {segment : List (Piece × ℕ)} (hne : segment ≠ [])
    (hlong : ∀ p ∈ segment, 12 ≤ p.1.data.length) {offset : ℕ} {m : Memory} {content : List Byte}
    (hend : content.length = start + offset)
    (hsize : offset + (segmentData segment).length = size) (hfits : start + size ≤ announced.2)
    (hlocate : m.locate offset size = ⟨offset, start, some size, some announced⟩) :
    ∃ last, offset ≤ last ∧ (2 ≤ segment.length → offset < last) ∧
      Delivers announced m content (placeSegment start size offset segment)
        ⟨last, start, some size, some announced⟩ (content ++ segmentData segment) := by
  induction segment generalizing offset m content with
  | nil => exact absurd rfl hne
  | cons p segment ih =>
    obtain ⟨p, again⟩ := p
    have hdata : segmentData ((p, again) :: segment) = p.data ++ segmentData segment := rfl
    rw [hdata, List.length_append] at hsize
    have htold : (⟨start, offset, size, p⟩ : Placed).Told announced m :=
      ⟨hlong _ List.mem_cons_self, by show offset < _; omega, by show size < _; omega, hlocate, by
        show start + offset + p.data.length ≤ _
        omega⟩
    have hhead := delivers_replicate htold hend again
    have hpos := List.length_pos_iff.mpr p.data_ne_nil
    by_cases hlast : segment = []
    · subst hlast
      refine ⟨offset, le_rfl, fun h => absurd h (by simp), ?_⟩
      rw [placeSegment, placeSegment, List.append_nil]
      rwa [hdata, segmentData, List.flatMap_nil, List.append_nil]
    · have hend' : (content ++ p.data).length = start + (offset + p.data.length) := by
        rw [List.length_append, hend, Nat.add_assoc]
      have hlocate' : ((⟨start, offset, size, p⟩ : Placed).memory announced).locate
          (offset + p.data.length) size =
            ⟨offset + p.data.length, start, some size, some announced⟩ := by
        simp [Memory.locate, Placed.memory]
      obtain ⟨last, hle, -, htail⟩ := ih hlast (fun q hq => hlong q (List.mem_cons_of_mem _ hq))
        hend' (by omega) hlocate'
      refine ⟨last, by omega, fun _ => by omega, ?_⟩
      rw [hdata, ← List.append_assoc]
      exact hhead.append htail

/-- The chunks of all segments are put in their places, if each segment but the last one has more
than one chunk. -/
theorem delivers_segments (hlength : announced.2 < 2 ^ 32) {segments : List (List (Piece × ℕ))}
    (hne : ∀ segment ∈ segments, segment ≠ [])
    (hlong : ∀ segment ∈ segments, ∀ p ∈ segment, 12 ≤ p.1.data.length)
    (hmany : ∀ segment ∈ segments.dropLast, 2 ≤ segment.length) {start : ℕ} {m : Memory}
    {content : List Byte} (hend : content.length = start)
    (hfits : start + (segments.flatMap segmentData).length ≤ announced.2)
    (hlocate : ∀ size, m.locate 0 size = ⟨0, start, some size, some announced⟩) :
    ∃ m', Delivers announced m content (placeSegments start segments) m'
      (content ++ segments.flatMap segmentData) := by
  induction segments generalizing start m content with
  | nil =>
    refine ⟨m, ?_⟩
    rw [List.flatMap_nil, List.append_nil]
    exact .nil m content
  | cons segment segments ih =>
    rw [List.flatMap_cons, List.length_append] at hfits
    obtain ⟨last, -, hgrown, hsegment⟩ := delivers_segment hlength
      (hne segment List.mem_cons_self) (hlong segment List.mem_cons_self) (m := m) hend
      (Nat.zero_add _) (by omega) (hlocate _)
    by_cases hlast : segments = []
    · subst hlast
      refine ⟨⟨last, start, some (segmentData segment).length, some announced⟩, ?_⟩
      rw [placeSegments, placeSegments, List.append_nil, List.flatMap_cons, List.flatMap_nil,
        List.append_nil]
      exact hsegment
    · have hdropLast : (segment :: segments).dropLast = segment :: segments.dropLast :=
        List.dropLast_cons_of_ne_nil hlast
      rw [hdropLast] at hmany
      have hpos : 0 < last := hgrown (hmany segment List.mem_cons_self)
      have hend' : (content ++ segmentData segment).length =
          start + (segmentData segment).length := by rw [List.length_append, hend]
      -- the offset of the next segment is lower, and the size of this one is added
      have hlocate' (size : ℕ) :
          (⟨last, start, some (segmentData segment).length, some announced⟩ : Memory).locate 0
            size = ⟨0, start + (segmentData segment).length, some size, some announced⟩ := by
        simp [Memory.locate, hpos]
      obtain ⟨m', hsegments⟩ := ih (fun s hs => hne s (List.mem_cons_of_mem _ hs))
        (fun s hs => hlong s (List.mem_cons_of_mem _ hs))
        (fun s hs => hmany s (List.mem_cons_of_mem _ hs)) hend' (by omega) hlocate'
      refine ⟨m', ?_⟩
      rw [placeSegments, List.flatMap_cons, ← List.append_assoc]
      exact hsegment.append hsegments

theorem placeSegments_append (start : ℕ) (segments segments' : List (List (Piece × ℕ))) :
    placeSegments start (segments ++ segments') = placeSegments start segments ++
      placeSegments (start + (segments.flatMap segmentData).length) segments' := by
  induction segments generalizing start with
  | nil => rfl
  | cons segment segments ih =>
    rw [List.cons_append, placeSegments, placeSegments, ih, List.flatMap_cons, List.length_append,
      Nat.add_assoc, List.append_assoc]

theorem exists_mem_placeSegment {start size offset : ℕ} {segment : List (Piece × ℕ)}
    {p : Piece × ℕ} (hp : p ∈ segment) :
    ∃ c ∈ placeSegment start size offset segment, c.piece = p.1 := by
  induction segment generalizing offset with
  | nil => cases hp
  | cons q segment ih =>
    rcases List.mem_cons.mp hp with rfl | hp
    · exact ⟨⟨start, offset, size, p.1⟩, by simp [placeSegment], rfl⟩
    · obtain ⟨c, hc, hpiece⟩ := ih hp
      exact ⟨c, List.mem_append_right _ hc, hpiece⟩

theorem exists_mem_placeSegments {start : ℕ} {segments : List (List (Piece × ℕ))}
    {segment : List (Piece × ℕ)} (hsegment : segment ∈ segments) {p : Piece × ℕ}
    (hp : p ∈ segment) : ∃ c ∈ placeSegments start segments, c.piece = p.1 := by
  induction segments generalizing start with
  | nil => cases hsegment
  | cons segment' segments ih =>
    rcases List.mem_cons.mp hsegment with rfl | hsegment
    · obtain ⟨c, hc, hpiece⟩ := exists_mem_placeSegment hp
      exact ⟨c, List.mem_append_left _ hc, hpiece⟩
    · obtain ⟨c, hc, hpiece⟩ := ih hsegment
      exact ⟨c, List.mem_append_right _ hc, hpiece⟩

end Segments

/-! ## Files -/

/-- The announcement of a file. -/
structure Announcement where
  bytes : List Byte
  length_bytes : 25 ≤ bytes.length
  port : destinationPort bytes = 12

/-- The id and the length that are announced. -/
def Announcement.announced (n : Announcement) : ℕ × ℕ :=
  (announcedFid n.bytes, announcedLength n.bytes)

/-- A file: its announcement, and its segments. -/
structure Transfer where
  announcement : Announcement
  segments : List (List (Piece × ℕ))

namespace Transfer

variable (f : Transfer)

/-- The id of the file. -/
def fid : FileId := .int f.announcement.announced.1

/-- The bytes of the file. -/
def data : List Byte := f.segments.flatMap segmentData

/-- The chunks in the order of delivery. -/
def placed : List Placed := placeSegments 0 f.segments

/-- The frames in the order of delivery. -/
def frames : List (List Byte) := f.announcement.bytes :: f.placed.map Placed.bytes

/-- The length is the one announced, there are one or more segments, and each has one or more
chunks. -/
structure IsSent : Prop where
  length : f.data.length = f.announcement.announced.2
  segments_ne_nil : f.segments ≠ []
  ne_nil : ∀ segment ∈ f.segments, segment ≠ []

/-- Each segment but the last one has two chunks or more, and each chunk has 12 bytes or more. -/
structure IsTold : Prop where
  many : ∀ segment ∈ f.segments.dropLast, 2 ≤ segment.length
  long : ∀ segment ∈ f.segments, ∀ p ∈ segment, 12 ≤ p.1.data.length

end Transfer

theorem unpackI_lt (bytes : List Byte) : unpackI bytes < 2 ^ 32 := BitVec.isLt _

/-- What the hooks remember after an announcement. -/
def Announcement.memory (n : Announcement) : Memory := ⟨0, 0, none, some n.announced⟩

theorem Announcement.locate_memory (n : Announcement) (size : ℕ) :
    n.memory.locate 0 size = ⟨0, 0, some size, some n.announced⟩ := by
  simp [Memory.locate, memory]

theorem Transfer.delivers {f : Transfer} (hsent : f.IsSent) (htold : f.IsTold) :
    ∃ m, Delivers f.announcement.announced f.announcement.memory [] f.placed m f.data :=
  delivers_segments (unpackI_lt _) hsent.ne_nil htold.long htold.many rfl
    (by rw [Nat.zero_add]; exact hsent.length.le) f.announcement.locate_memory

theorem Transfer.placed_ne_nil {f : Transfer} (hsent : f.IsSent) : f.placed ≠ [] := by
  obtain ⟨segment, segments, hsegments⟩ := List.exists_cons_of_ne_nil hsent.segments_ne_nil
  obtain ⟨p, rest, hsegment⟩ := List.exists_cons_of_ne_nil
    (hsent.ne_nil segment (by rw [hsegments]; exact List.mem_cons_self))
  rw [placed, hsegments, hsegment, placeSegments, placeSegment]
  simp [List.replicate_succ]

theorem length_single (first : List (List (Piece × ℕ))) (p : Piece × ℕ) :
    ((first ++ [[p]]).flatMap segmentData).length =
      (first.flatMap segmentData).length + p.1.data.length := by
  simp [segmentData]

/-- The last delivery of the chunk of a segment that has no other. -/
theorem placeSegments_single (first : List (List (Piece × ℕ))) (p : Piece × ℕ) :
    ∃ earlier, placeSegments 0 (first ++ [[p]]) =
      earlier ++ [⟨(first.flatMap segmentData).length, 0, p.1.data.length, p.1⟩] := by
  have hdata : segmentData [p] = p.1.data := by simp [segmentData]
  refine ⟨placeSegments 0 first ++
    List.replicate p.2 ⟨(first.flatMap segmentData).length, 0, p.1.data.length, p.1⟩, ?_⟩
  rw [placeSegments_append, placeSegments, placeSegments, placeSegment, placeSegment, hdata,
    Nat.zero_add, List.append_nil, List.append_nil, List.replicate_succ', List.append_assoc]

theorem placeSegments_single_ne_nil (first : List (List (Piece × ℕ))) (p : Piece × ℕ) :
    placeSegments 0 (first ++ [[p]]) ≠ [] := by
  obtain ⟨earlier, hearlier⟩ := placeSegments_single first p
  rw [hearlier]
  simp

/-- What the hooks remember after a segment of one chunk. -/
theorem Transfer.delivers_single {f : Transfer} (hsent : f.IsSent)
    (hlong : ∀ segment ∈ f.segments, ∀ p ∈ segment, 12 ≤ p.1.data.length)
    {first later : List (List (Piece × ℕ))} {p : Piece × ℕ}
    (hsegments : f.segments = (first ++ [[p]]) ++ later)
    (hmany : ∀ segment ∈ first, 2 ≤ segment.length) :
    ∃ content, Delivers f.announcement.announced f.announcement.memory []
      (placeSegments 0 (first ++ [[p]]))
      ⟨0, (first.flatMap segmentData).length, some p.1.data.length,
        some f.announcement.announced⟩ content := by
  have hmem : ∀ segment ∈ first ++ [[p]], segment ∈ f.segments := fun segment h =>
    hsegments ▸ List.mem_append_left _ h
  have htotal : f.data = (first ++ [[p]]).flatMap segmentData ++ later.flatMap segmentData := by
    rw [data, hsegments]
    exact List.flatMap_append
  have hfits : 0 + ((first ++ [[p]]).flatMap segmentData).length ≤ f.announcement.announced.2 := by
    rw [← hsent.length, htotal, List.length_append]
    omega
  have hend : ([] : List Byte).length = 0 := rfl
  obtain ⟨m, hdelivers⟩ := delivers_segments (unpackI_lt _) (fun t ht => hsent.ne_nil t (hmem t ht))
    (fun t ht => hlong t (hmem t ht)) (by rwa [List.dropLast_concat]) hend hfits
    f.announcement.locate_memory
  obtain ⟨earlier, hearlier⟩ := placeSegments_single first p
  have hmemory := (hearlier ▸ hdelivers).memory_eq
  exact ⟨_, hmemory ▸ hdelivers⟩

/-! ## Runs -/

section Runs

variable (lib : Pathlib P) (path : P) {d : Directory P} {s : Receiver P Memory} {a : Archive}
variable {announced : ℕ × ℕ} {m m' : Memory} {content content' : List Byte} {c : Placed}
variable {cs : List Placed} {f : Transfer}

theorem pushAll_cons (s : Receiver P Memory) (chunk : List Byte) (chunks : List (List Byte)) :
    pushAll lib path s (chunk :: chunks) =
      pushAll lib path (exec (pushChunk lib path chunk) s).2 chunks := rfl

theorem pushAll_append (s : Receiver P Memory) (chunks chunks' : List (List Byte)) :
    pushAll lib path s (chunks ++ chunks') =
      pushAll lib path (pushAll lib path s chunks) chunks' := List.foldl_append

/-- An announcement is no chunk, and is remembered. -/
theorem exec_announcement (s : Receiver P Memory) (n : Announcement) :
    (exec (pushChunk lib path n.bytes) s).2 = { s with hooks := n.memory } := by
  have hlength := n.length_bytes
  have hwatch : exec (watchFileAnnouncements n.bytes) s =
      (.ok (), { s with hooks := n.memory }) := by
    rw [watchFileAnnouncements, if_neg (by omega), if_neg (not_not.mpr n.port)]
    rfl
  have hparse : parseChunk n.bytes = none := by
    rw [parseChunk, if_neg (by omega), n.port, if_pos (by decide)]
  have hpush : exec ((receiver lib path).pushChunk n.bytes) { s with hooks := n.memory } =
      (.ok (), { s with hooks := n.memory }) := by
    rw [FileReceiver.pushChunk_eq]
    show exec (pure (parseChunk n.bytes) >>= _) _ = _
    rw [hparse, pure_bind]
    rfl
  rw [pushChunk, exec_bind_ok hwatch, hpush]

/-- The chunks of a file that come after some of them. -/
theorem Receiving.pushAll (hs : Receiving d s a announced content m)
    (hdelivers : Delivers announced m content cs m' content') :
    Receiving d (pushAll lib path s (cs.map Placed.bytes)) a announced content' m' := by
  induction hdelivers generalizing s with
  | nil => exact hs
  | cons head _ ih => exact ih (hs.next lib path head)

/-- The chunks of a new file, or a first part of them. -/
theorem receiving_part (hr : (receiver lib path).Creates d) (hids : .int announced.1 ∈ d.ids)
    (hs : Keeps d s a) (hnew : a (.int announced.1) = none) (hcs : cs ≠ [])
    (hdelivers : Delivers announced s.hooks [] cs m' content') :
    Receiving d (pushAll lib path s (cs.map Placed.bytes)) a announced content' m' := by
  cases hdelivers with
  | nil => exact absurd rfl hcs
  | cons head tail => exact (receiving_first lib path hr hids hs hnew head).pushAll lib path tail

/-- The hooks of a state tell the place of a chunk. -/
def TellsOffset (s : Receiver P Memory) (c : Placed) : Prop :=
  exec ((receiver lib path).parseChunk c.bytes) s = (.ok (some c.bytes), s) ∧
    (exec ((receiver lib path).chunkOffset c.bytes) s).1 = .ok (some (c.position : ℤ))

omit [DecidableEq P] in
theorem tellsOffset (htold : c.Told announced s.hooks) : TellsOffset lib path s c := by
  constructor
  · show exec (pure (parseChunk c.bytes)) s = _
    rw [Placed.parseChunk_bytes htold.long, exec_pure]
  · show (exec (chunkOffset c.bytes) s).1 = _
    rw [chunkOffset, exec_modify_bind, exec_get_bind, exec_pure, Placed.offset_bytes htold.offset,
      Placed.segmentSize_bytes htold.size, htold.locate]
    rfl

/-- **One file.** -/
theorem keeps_frames (hr : (receiver lib path).Creates d) (hids : f.fid ∈ d.ids)
    (hs : Keeps d s a) (hnew : a f.fid = none) (hsent : f.IsSent) (htold : f.IsTold) :
    Keeps d (pushAll lib path s f.frames) (update a f.fid (some f.data)) := by
  obtain ⟨m, hdelivers⟩ := Transfer.delivers hsent htold
  rw [Transfer.frames, pushAll_cons, exec_announcement]
  have hs' := hs.withHooks f.announcement.memory
  obtain ⟨g, current, next, hshows, -⟩ :=
    receiving_part lib path hr hids hs' hnew (Transfer.placed_ne_nil hsent) hdelivers
  exact hshows.keeps

/-- The place of each chunk of a file is told. -/
theorem tellsOffset_frames (hr : (receiver lib path).Creates d) (hids : f.fid ∈ d.ids)
    (hs : Keeps d s a) (hnew : a f.fid = none) (hsent : f.IsSent) (htold : f.IsTold)
    {earlier later : List Placed} (hplaced : f.placed = earlier ++ c :: later) :
    TellsOffset lib path
      (pushAll lib path s (f.announcement.bytes :: earlier.map Placed.bytes)) c := by
  obtain ⟨m, hdelivers⟩ := Transfer.delivers hsent htold
  rw [hplaced] at hdelivers
  obtain ⟨m', content', hearlier, hlater⟩ := hdelivers.split
  rw [pushAll_cons, exec_announcement]
  have hs' := hs.withHooks f.announcement.memory
  cases hlater with
  | cons head _ =>
    by_cases hfirst : earlier = []
    · subst hfirst
      cases hearlier
      exact tellsOffset lib path head
    · obtain ⟨g, current, next, hshows, -⟩ :=
        receiving_part lib path hr hids hs' hnew hfirst hearlier
      rw [← hshows.hooks] at head
      exact tellsOffset lib path head

omit [DecidableEq P] in
/-- Where the hooks think that a chunk is, if its offset is not lower than the one before it. -/
theorem TellsOffset.position_eq (h : TellsOffset lib path s c) (hoffset : c.offset < 2 ^ 32)
    (hle : s.hooks.oldOffset ≤ c.offset) : c.position = s.hooks.currentSegment + c.offset := by
  have hanswer : (exec (chunkOffset c.bytes) s).1 = .ok (some (c.position : ℤ)) := h.2
  rw [chunkOffset, exec_modify_bind, exec_get_bind, exec_pure, Placed.offset_bytes hoffset]
    at hanswer
  have hlocate : (s.hooks.locate c.offset (segmentSize c.bytes)).currentSegment =
      s.hooks.currentSegment := by
    rw [Memory.locate, if_neg (not_lt.mpr hle)]
  simp only [hlocate, Except.ok.injEq, Option.some.injEq, Nat.cast_inj] at hanswer
  exact hanswer.symm

omit [DecidableEq P] in
theorem TellsOffset.long (h : TellsOffset lib path s c) : 12 ≤ c.piece.data.length := by
  have hparse : exec (pure (parseChunk c.bytes)) s = (.ok (some c.bytes), s) := h.1
  have hlength := c.length_bytes
  rw [exec_pure, parseChunk] at hparse
  split at hparse
  · cases hparse
  · omega

/-- After a segment of one chunk, the place of the next chunk is not told. -/
theorem not_tellsOffset_single (hr : (receiver lib path).Creates d) (hids : f.fid ∈ d.ids)
    (hs : Keeps d s a) (hnew : a f.fid = none) (hsent : f.IsSent)
    (hlong : ∀ segment ∈ f.segments, ∀ p ∈ segment, 12 ≤ p.1.data.length)
    {first others : List (List (Piece × ℕ))} {p q : Piece × ℕ} {rest : List (Piece × ℕ)}
    (hsegments : f.segments = (first ++ [[p]]) ++ (q :: rest) :: others)
    (hmany : ∀ segment ∈ first, 2 ≤ segment.length) :
    ∃ earlier c later, f.placed = earlier ++ c :: later ∧
      ¬TellsOffset lib path
        (pushAll lib path s (f.announcement.bytes :: earlier.map Placed.bytes)) c := by
  have hpos := List.length_pos_iff.mpr p.1.data_ne_nil
  obtain ⟨content, hdelivers⟩ := Transfer.delivers_single hsent hlong hsegments hmany
  obtain ⟨g, current, next, hshows, -⟩ := receiving_part lib path hr hids
    (hs.withHooks f.announcement.memory) hnew (placeSegments_single_ne_nil first p) hdelivers
  have hplaced : f.placed = placeSegments 0 (first ++ [[p]]) ++
      placeSegments ((first.flatMap segmentData).length + p.1.data.length)
        ((q :: rest) :: others) := by
    rw [Transfer.placed, hsegments, placeSegments_append, length_single, Nat.zero_add]
  rw [placeSegments, placeSegment, List.replicate_succ, List.cons_append, List.cons_append]
    at hplaced
  refine ⟨_, _, _, hplaced, fun htells => ?_⟩
  rw [pushAll_cons, exec_announcement] at htells
  have hposition := htells.position_eq lib path (Nat.two_pow_pos 32)
    (by rw [hshows.hooks])
  rw [hshows.hooks] at hposition
  have : (first.flatMap segmentData).length + p.1.data.length + 0 =
      (first.flatMap segmentData).length + 0 := hposition
  omega

/-- If the place of each chunk is told, the segments can be told apart. -/
theorem isTold_of_tellsOffset (hr : (receiver lib path).Creates d) (hids : f.fid ∈ d.ids)
    (hs : Keeps d s a) (hnew : a f.fid = none) (hsent : f.IsSent)
    (htells : ∀ earlier c later, f.placed = earlier ++ c :: later →
      TellsOffset lib path
        (pushAll lib path s (f.announcement.bytes :: earlier.map Placed.bytes)) c) :
    f.IsTold := by
  have hlong : ∀ segment ∈ f.segments, ∀ p ∈ segment, 12 ≤ p.1.data.length := by
    intro segment hsegment p hp
    obtain ⟨c, hc, hpiece⟩ := exists_mem_placeSegments hsegment hp
    obtain ⟨earlier, later, hplaced⟩ := List.append_of_mem hc
    rw [← hpiece]
    exact (htells earlier c later hplaced).long lib path
  -- the segments before some others, from the first one on
  have hmany : ∀ first others, f.segments = first ++ others → others ≠ [] →
      ∀ segment ∈ first, 2 ≤ segment.length := by
    intro first
    induction first using List.reverseRecOn with
    | nil => exact fun _ _ _ _ h => nomatch h
    | append_singleton first segment ih =>
      intro others hsegments hothers
      have hfirst := ih (segment :: others) (by rw [hsegments]; simp) (List.cons_ne_nil _ _)
      intro segment' hsegment'
      rcases List.mem_append.mp hsegment' with hmem | hmem
      · exact hfirst segment' hmem
      obtain rfl := List.mem_singleton.mp hmem
      by_contra hshort
      have hmem' : segment' ∈ f.segments := by simp [hsegments]
      -- a segment of one chunk, and the first chunk of the next one
      obtain ⟨p, rfl⟩ : ∃ p, segment' = [p] := by
        have hpos := List.length_pos_iff.mpr (hsent.ne_nil segment' hmem')
        exact List.length_eq_one_iff.mp (by omega)
      obtain ⟨next, others, rfl⟩ := List.exists_cons_of_ne_nil hothers
      obtain ⟨q, rest, rfl⟩ :=
        List.exists_cons_of_ne_nil (hsent.ne_nil next (by simp [hsegments]))
      obtain ⟨earlier, c, later, hplaced, hnot⟩ := not_tellsOffset_single lib path hr hids hs hnew
        hsent hlong hsegments hfirst
      exact hnot (htells earlier c later hplaced)
  refine ⟨fun segment hsegment => ?_, hlong⟩
  have hsplit := List.dropLast_append_getLast hsent.segments_ne_nil
  exact hmany f.segments.dropLast [f.segments.getLast hsent.segments_ne_nil] hsplit.symm
    (List.cons_ne_nil _ _) segment hsegment

/-- Files with ids of their own, one after the other. -/
theorem keeps_files (hr : (receiver lib path).Creates d) (hids : ∀ n, .int n ∈ d.ids)
    {files : List Transfer} (hs : Keeps d s a) (hnew : ∀ f ∈ files, a f.fid = none)
    (hdistinct : (files.map Transfer.fid).Nodup) (hsent : ∀ f ∈ files, f.IsSent)
    (htold : ∀ f ∈ files, f.IsTold) :
    ∃ a', Keeps d (pushAll lib path s (files.flatMap Transfer.frames)) a' ∧
      (∀ f ∈ files, a' f.fid = some f.data) ∧
      ∀ fid, fid ∉ files.map Transfer.fid → a' fid = a fid := by
  induction files generalizing s a with
  | nil => exact ⟨a, hs, fun _ h => (nomatch h), fun _ _ => rfl⟩
  | cons f files ih =>
    rw [List.map_cons, List.nodup_cons] at hdistinct
    have hne : ∀ g ∈ files, g.fid ≠ f.fid := fun g hg heq =>
      hdistinct.1 (heq ▸ List.mem_map_of_mem hg)
    have hfile := keeps_frames lib path hr (hids _) hs (hnew f List.mem_cons_self)
      (hsent f List.mem_cons_self) (htold f List.mem_cons_self)
    obtain ⟨a', hkeeps, hstored, hothers⟩ := ih hfile
      (fun g hg => by
        rw [update_of_ne (hne g hg)]
        exact hnew g (List.mem_cons_of_mem _ hg))
      hdistinct.2 (fun g hg => hsent g (List.mem_cons_of_mem _ hg))
      (fun g hg => htold g (List.mem_cons_of_mem _ hg))
    refine ⟨a', ?_, fun g hg => ?_, fun fid hfid => ?_⟩
    · rw [List.flatMap_cons, pushAll_append]
      exact hkeeps
    · rcases List.mem_cons.mp hg with rfl | hg
      · rw [hothers _ hdistinct.1, update_self]
      · exact hstored g hg
    · rw [List.map_cons, List.mem_cons, not_or] at hfid
      rw [hothers fid hfid.2, update_of_ne hfid.1]

end Runs

/-- **Files of D-SAT.** The place of each chunk is the sum of the sizes of the segments before its
own and its offset there, and each file is stored whole. -/
structure Received (lib : Pathlib P) (path : P) (s : Receiver P Memory) (files : List Transfer) :
    Prop where
  offsets : ∀ before f after earlier c later, files = before ++ f :: after →
    f.placed = earlier ++ c :: later →
      TellsOffset lib path (pushAll lib path s (before.flatMap Transfer.frames ++
        f.announcement.bytes :: earlier.map Placed.bytes)) c
  stored : ∀ f ∈ files, let t := pushAll lib path s (files.flatMap Transfer.frames)
    ∃ g, t.files f.fid = some g ∧ t.disk g.path = some f.data

section Received

variable (lib : Pathlib P) (path : P) {d : Directory P}

/-- The files before a file do not have its id. -/
theorem keeps_before (hr : (receiver lib path).Creates d) (hids : ∀ n, .int n ∈ d.ids)
    {disk : P → Option (List Byte)} (hdisk : d.Vacant disk) (uuids : ℕ → String)
    {before after : List Transfer} {f : Transfer}
    (hdistinct : ((before ++ f :: after).map Transfer.fid).Nodup)
    (hsent : ∀ g ∈ before, g.IsSent) (htold : ∀ g ∈ before, g.IsTold) :
    ∃ a, Keeps d (pushAll lib path (.init disk uuids .init) (before.flatMap Transfer.frames)) a ∧
      a f.fid = none := by
  rw [List.map_append, List.map_cons] at hdistinct
  obtain ⟨hbefore, -, hdisjoint⟩ := List.nodup_append.mp hdistinct
  obtain ⟨a, hkeeps, -, hothers⟩ := keeps_files lib path hr hids
    (keeps_init hdisk uuids Memory.init) (fun _ _ => rfl) hbefore hsent htold
  exact ⟨a, hkeeps, hothers f.fid fun hmem => hdisjoint _ hmem _ List.mem_cons_self rfl⟩

theorem received_of_isTold (hr : (receiver lib path).Creates d) (hids : ∀ n, .int n ∈ d.ids)
    {disk : P → Option (List Byte)} (hdisk : d.Vacant disk) (uuids : ℕ → String)
    {files : List Transfer} (hdistinct : (files.map Transfer.fid).Nodup)
    (hsent : ∀ f ∈ files, f.IsSent) (htold : ∀ f ∈ files, f.IsTold) :
    Received lib path (.init disk uuids .init) files := by
  constructor
  · rintro before f after earlier c later rfl hplaced
    obtain ⟨a, hkeeps, hnew⟩ := keeps_before lib path hr hids hdisk uuids hdistinct
      (fun g hg => hsent g (List.mem_append_left _ hg))
      (fun g hg => htold g (List.mem_append_left _ hg))
    rw [pushAll_append]
    exact tellsOffset_frames lib path hr (hids _) hkeeps hnew (hsent f (by simp))
      (htold f (by simp)) hplaced
  · intro f hf
    obtain ⟨a, hkeeps, hstored, -⟩ := keeps_files lib path hr hids
      (keeps_init hdisk uuids Memory.init) (fun _ _ => rfl) hdistinct hsent htold
    obtain ⟨-, g, hg, hpath, hdata⟩ := hkeeps.stored f.fid f.data (hstored f hf)
    exact ⟨g, hg, hpath ▸ hdata⟩

/-- **Files of D-SAT.** Files are received if and only if each segment but the last one of a file
has two chunks or more, and each chunk has 12 bytes or more. -/
theorem received_iff_isTold (hr : (receiver lib path).Creates d) (hids : ∀ n, .int n ∈ d.ids)
    {disk : P → Option (List Byte)} (hdisk : d.Vacant disk) (uuids : ℕ → String)
    {files : List Transfer} (hdistinct : (files.map Transfer.fid).Nodup)
    (hsent : ∀ f ∈ files, f.IsSent) :
    Received lib path (.init disk uuids .init) files ↔ ∀ f ∈ files, f.IsTold := by
  refine ⟨fun hreceived => ?_, received_of_isTold lib path hr hids hdisk uuids hdistinct hsent⟩
  -- from the first file on
  have hfirst : ∀ before after, files = before ++ after → ∀ f ∈ before, f.IsTold := by
    intro before
    induction before using List.reverseRecOn with
    | nil => exact fun _ _ _ h => nomatch h
    | append_singleton before f ih =>
      intro after hfiles g hg
      rw [List.append_assoc, List.singleton_append] at hfiles
      have hbefore := ih (f :: after) hfiles
      rcases List.mem_append.mp hg with hg | hg
      · exact hbefore g hg
      obtain rfl := List.mem_singleton.mp hg
      obtain ⟨a, hkeeps, hnew⟩ := keeps_before lib path hr hids hdisk uuids (hfiles ▸ hdistinct)
        (fun k hk => hsent k (hfiles ▸ List.mem_append_left _ hk)) hbefore
      refine isTold_of_tellsOffset lib path hr (hids _) hkeeps hnew
        (hsent g (hfiles ▸ by simp)) fun earlier c later hplaced => ?_
      have htells := hreceived.offsets before g after earlier c later hfiles hplaced
      rwa [pushAll_append] at htells
  exact hfirst files [] (List.append_nil files).symm

end Received

theorem port_header : destinationPort [0, 0x07, 0x80, 0] = 30 := by decide

theorem singleton_ne_nil (byte : Byte) : [byte] ≠ [] := List.cons_ne_nil _ _

theorem replicate_ne_nil (byte : Byte) : List.replicate 12 byte ≠ [] := List.cons_ne_nil _ _

/-- A chunk of twelve bytes. -/
def dozen (byte : Byte) : Piece :=
  ⟨[0, 0x07, 0x80, 0], List.replicate 12 byte, rfl, port_header, replicate_ne_nil byte⟩

/-- A chunk of one byte. -/
def single (byte : Byte) : Piece :=
  ⟨[0, 0x07, 0x80, 0], [byte], rfl, port_header, singleton_ne_nil byte⟩

/-- The bytes of an announcement of a file with the given id and length. -/
def announcementBytes (fid length : Byte) : List Byte :=
  [0, 0x03, 0, 0, 0, 0, 0, 0, fid, 0, 0, 0, 0, 0, 0, 0, 0, 0, 0, 0, 0, length, 0, 0, 0]

theorem length_announcementBytes (fid length : Byte) : 25 ≤ (announcementBytes fid length).length :=
  le_rfl

theorem port_announcementBytes (fid length : Byte) :
    destinationPort (announcementBytes fid length) = 12 := by
  show destinationPort [0, 0x03, 0, 0] = 12
  decide

def announcement (fid length : Byte) : Announcement :=
  ⟨announcementBytes fid length, length_announcementBytes fid length,
    port_announcementBytes fid length⟩

/-- A file in two segments, a chunk of which is repeated, and another one in one segment. -/
theorem received_segments :
    Received plainNames "files" (.init (fun _ => none) (fun _ => "") .init)
      [⟨announcement 1 36, [[(dozen 1, 0), (dozen 2, 1)], [(dozen 3, 0)]]⟩,
        ⟨announcement 2 12, [[(dozen 4, 0)]]⟩] := by
  refine (received_iff_isTold plainNames "files" (FileReceiver.creates_plain rfl rfl fun _ => rfl)
    (fun n => ⟨n, rfl⟩) (fun _ _ => rfl) (fun _ => "") (by decide) fun f hf => ?_).mpr
      fun f hf => ?_
  · rcases List.mem_cons.mp hf with rfl | hf
    · exact ⟨by decide, by simp, by simp⟩
    · obtain rfl := List.mem_singleton.mp hf
      exact ⟨by decide, by simp, by simp⟩
  · rcases List.mem_cons.mp hf with rfl | hf
    · exact ⟨by decide, by decide⟩
    · obtain rfl := List.mem_singleton.mp hf
      exact ⟨by decide, by decide⟩

/-- A segment of one chunk is not told from the next one, and a short chunk is dropped. -/
theorem not_received_short :
    (¬Received plainNames "files" (.init (fun _ => none) (fun _ => "") .init)
      [⟨announcement 1 24, [[(dozen 1, 0)], [(dozen 2, 0)]]⟩]) ∧
    ¬Received plainNames "files" (.init (fun _ => none) (fun _ => "") .init)
      [⟨announcement 1 1, [[(single 1, 0)]]⟩] := by
  constructor
  · intro h
    have hsecond := (h.offsets [] _ [] [⟨0, 0, 12, dozen 1⟩] ⟨12, 0, 12, dozen 2⟩ [] rfl rfl).2
    revert hsecond
    decide +kernel
  · intro h
    have hdropped := congrArg Prod.fst
      (h.offsets [] _ [] [] ⟨0, 0, 1, single 1⟩ [] rfl rfl).1
    revert hdropped
    decide +kernel

end GrSatellites.Files.Dsat
