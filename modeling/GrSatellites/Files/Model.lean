import GrSatellites.Basic
import GrSatellites.Library.Routine
import GrSatellites.Library.ByteFile

/-!
# Receiving files in chunks

The class `FileReceiver` of `python/filereceiver/filereceiver.py`. A receiver for a
particular satellite overrides hooks, and its hooks may keep state of their own. The
state includes the files on disk, since two `File` objects may name one of them.
-/

namespace GrSatellites.Files

/-- A file id: an integer, or a name taken from a packet. -/
inductive FileId where
  | int (n : ℤ)
  | str (s : String)
  deriving DecidableEq

/-- The exceptions that a receiver may raise. -/
inductive PyError where
  | attributeError
  | typeError
  | keyError
  | osError
  | exception (message : String)
  deriving DecidableEq

/-- The class `File`. -/
structure File (P : Type) where
  path : P
  broken : Bool
  expectedSeq : Option ℤ
  writePointer : ℤ
  size : Option ℤ
  chunks : Option ℤ

/-- The state of a receiver whose paths are `P`, with the files on disk, the names that
`uuid4` is going to draw, the ids of the files completed so far, and the state `σ` of
its hooks. -/
structure Receiver (P σ : Type) where
  files : FileId → Option (File P)
  currentFile : Option FileId
  nextFid : ℤ
  disk : P → Option (List Byte)
  uuids : ℕ → String
  completed : List FileId
  hooks : σ

/-- What `_new_file` uses of `pathlib` and of the operating system. -/
structure Pathlib (P : Type) where
  path : String → P
  dirname : P → Except PyError P
  join : P → P → P
  openFile : P → Except PyError Unit

/-- A method of a receiver. -/
abbrev Method (P σ α : Type) := Routine PyError (Receiver P σ) α

/-- A receiver class: its directory and its hooks. A chunk arrives as an `R` and is
parsed into a `C`. -/
structure FileReceiver (P σ R C : Type) where
  lib : Pathlib P
  path : P
  parseChunk : R → Method P σ (Option C)
  fileId : C → Method P σ (Option FileId)
  chunkSequence : C → Method P σ (Option ℤ)
  chunkOffset : C → Method P σ (Option ℤ)
  chunkData : C → Method P σ (List Byte)
  fileChunks : C → Method P σ (Option ℤ)
  fileSize : C → Method P σ (Option ℤ)
  isLastChunk : C → Method P σ (Option Bool)
  filename : FileId → Method P σ String
  onCompletion : File P → Method P σ Unit

variable {P σ R C : Type} [DecidableEq P]

/-- `self._files[fid]`, which raises when there is no such file. -/
def getFile (fid : FileId) : Method P σ (File P) := do
  match (← get).files fid with
  | some f => return f
  | none => throw .keyError

/-- Change the attributes of the file object stored under an id. -/
def modifyFile (fid : FileId) (g : File P → File P) : Method P σ Unit :=
  modify fun s => { s with files := Function.update s.files fid ((s.files fid).map g) }

/-- Set `_current_file`. -/
def setCurrentFile (fid : Option FileId) : Method P σ Unit :=
  modify fun s => { s with currentFile := fid }

/-- `_next_fid`, which is then increased. -/
def takeNextFid : Method P σ FileId := do
  let s ← get
  modify fun s => { s with nextFid := s.nextFid + 1 }
  return .int s.nextFid

/-- `str(uuid.uuid4())`. -/
def uuid4 : Method P σ String := do
  let s ← get
  modify fun s => { s with uuids := fun n => s.uuids (n + 1) }
  return s.uuids 0

/-- `File.__init__`: a file that exists is opened as it is, another one is created empty. -/
def File.new (lib : Pathlib P) (path : P) : Method P σ (File P) := do
  match lib.openFile path with
  | .error e => throw e
  | .ok () =>
    modify fun s => { s with disk := Function.update s.disk path (some ((s.disk path).getD [])) }
    return ⟨path, false, some 0, 0, none, none⟩

/-- `seek` to an offset of a file and `write` some data. -/
def seekWrite (path : P) (offset : ℤ) (data : List Byte) : Method P σ Unit := do
  if offset < 0 then throw .osError
  modify fun s =>
    { s with
      disk := Function.update s.disk path
        (some (ByteFile.writeAt ((s.disk path).getD []) offset.toNat data)) }

namespace FileReceiver

variable (r : FileReceiver P σ R C)

/-- The end of `_new_file`: open a file in the directory and store it under its id. -/
def storeFile (fid : FileId) (filename : P) : Method P σ (File P) := do
  let f ← File.new r.lib (r.lib.join r.path filename)
  modify fun s => { s with files := Function.update s.files fid (some f) }
  return f

/-- `_new_file`: a name with path components is replaced by a fresh one. -/
def newFile (fid : FileId) : Method P σ (File P) := do
  let filename ← r.filename fid
  match r.lib.dirname (r.lib.path filename) with
  | .error e => throw e
  | .ok dirname =>
    if dirname ≠ r.lib.path "." then r.storeFile fid (r.lib.path (← uuid4))
    else r.storeFile fid (r.lib.path filename)

/-- `_fill_file_data`, for the file object stored under an id. -/
def fillFileData (fid : FileId) (chunk : C) : Method P σ Unit := do
  if (← getFile fid).size.isNone then
    let size ← r.fileSize chunk
    modifyFile fid fun f => { f with size := size }
  if (← getFile fid).chunks.isNone then
    let chunks ← r.fileChunks chunk
    modifyFile fid fun f => { f with chunks := chunks }

/-- The file id of a chunk, that of the current file, or a new one. -/
def findFid (chunk : C) : Method P σ FileId := do
  match ← r.fileId chunk with
  | some fid => return fid
  | none =>
    match (← get).currentFile with
    | some fid => return fid
    | none => takeNextFid

/-- Create the file of an id that is not known. -/
def findFile (fid : FileId) : Method P σ Unit := do
  match (← get).files fid with
  | some _ => return
  | none => let _ ← r.newFile fid

/-- Start a new file if there are no file ids and the sequence has decreased. -/
def detectNewFile (chunk : C) (fid : FileId) (seq : Option ℤ) : Method P σ FileId := do
  match ← r.fileId chunk, seq with
  | none, some seq =>
    match (← getFile fid).expectedSeq with
    | none => throw .typeError
    | some expectedSeq =>
      if seq < expectedSeq then
        let fid ← takeNextFid
        let _ ← r.newFile fid
        return fid
      else return fid
  | _, _ => return fid

/-- The offset of a chunk, or none when the sequence is not continued and the file
becomes broken. -/
def findOffset (chunk : C) (fid : FileId) (seq : Option ℤ) : Method P σ (Option ℤ) := do
  match ← r.chunkOffset chunk with
  | some offset => return some offset
  | none =>
    match seq with
    | none => throw (.exception "FileReceiver unable to compute chunk_offset() nor chunk_sequence()")
    | some seq =>
      let f ← getFile fid
      if f.expectedSeq ≠ some seq then
        modifyFile fid fun f => { f with broken := true }
        return none
      else return some f.writePointer

/-- Whether the file is complete once its pointers are updated. -/
def isComplete (chunk : C) (fid : FileId) : Method P σ Bool := do
  let f ← getFile fid
  if f.size.any (· ≤ f.writePointer) then return true
  match f.chunks, f.expectedSeq with
  | some _, none => throw .typeError
  | some chunks, some expectedSeq =>
    if chunks ≤ expectedSeq then return true else return (← r.isLastChunk chunk) = some true
  | none, _ => return (← r.isLastChunk chunk) = some true

/-- The end of `push_chunk`, once the offset is known. -/
def writeChunk (chunk : C) (fid : FileId) (seq : Option ℤ) (offset : ℤ) : Method P σ Unit := do
  let data ← r.chunkData chunk
  let newWritePointer := offset + data.length
  let f ← getFile fid
  -- a chunk that ends past the size of the file is invalid
  if f.size.any (· < newWritePointer) then return
  seekWrite f.path offset data
  modifyFile fid fun f =>
    { f with writePointer := newWritePointer, expectedSeq := seq.map (· + 1) }
  if ← r.isComplete chunk fid then
    modify fun s => { s with completed := s.completed ++ [fid] }
    r.onCompletion (← getFile fid)
    setCurrentFile none

/-- `push_chunk`. -/
def pushChunk (raw : R) : Method P σ Unit := do
  match ← r.parseChunk raw with
  | none => return
  | some chunk =>
    let fid ← r.findFid chunk
    r.findFile fid
    let seq ← r.chunkSequence chunk
    let fid ← r.detectNewFile chunk fid seq
    setCurrentFile (some fid)
    r.fillFileData fid chunk
    if (← getFile fid).broken then return
    match ← r.findOffset chunk fid seq with
    | none => return
    | some offset => r.writeChunk chunk fid seq offset

end FileReceiver

/-! ## The default hooks -/

/-- A chunk with the attributes that the default hooks look for. -/
structure Chunk where
  fileId : Option FileId
  sequence : Option ℤ
  offset : Option ℤ
  data : List Byte
  chunks : Option ℤ
  filesize : Option ℤ

/-- `str(fid)`. -/
def FileId.toStr : FileId → String
  | .int n => toString n
  | .str s => s

/-- The default `chunk_offset`, for the given `chunk_size` and `chunk_sequence`. -/
def defaultChunkOffset (chunkSize : Method P σ (Option ℤ))
    (chunkSequence : C → Method P σ (Option ℤ)) (offset : C → Option ℤ) (chunk : C) :
    Method P σ (Option ℤ) := do
  match offset chunk with
  | some off => return some off
  | none =>
    let s ← chunkSize
    let i ← chunkSequence chunk
    match s, i with
    | some s, some i => return some (s * i)
    | _, _ => return none

/-- Names without directories, and a disk on which every file can be opened. -/
def plainNames : Pathlib String where
  path := id
  dirname _ := .ok "."
  join directory filename := directory ++ "/" ++ filename
  openFile _ := .ok ()

/-- The receiver with the default hooks. -/
def defaultReceiver (lib : Pathlib P) (path : P) : FileReceiver P Unit Chunk Chunk where
  lib := lib
  path := path
  parseChunk chunk := pure (some chunk)
  fileId chunk := pure chunk.fileId
  chunkSequence chunk := pure chunk.sequence
  chunkOffset := defaultChunkOffset (pure none) (fun chunk => pure chunk.sequence) Chunk.offset
  chunkData chunk := pure chunk.data
  fileChunks chunk := pure chunk.chunks
  fileSize chunk := pure chunk.filesize
  isLastChunk _ := pure none
  filename fid := pure fid.toStr
  onCompletion _ := pure ()

/-- The state after construction, with some files on disk. -/
def Receiver.init (disk : P → Option (List Byte)) (uuids : ℕ → String) (hooks : σ) :
    Receiver P σ where
  files _ := none
  currentFile := none
  nextFid := 0
  disk := disk
  uuids := uuids
  completed := []
  hooks := hooks

end GrSatellites.Files
