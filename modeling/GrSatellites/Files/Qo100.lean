import GrSatellites.Files.Model
import GrSatellites.Library.Segmentation

/-!
# The receiver of the QO-100 multimedia beacon

The class `FileReceiverQO100Multimedia` of `python/filereceiver/qo100_multimedia.py`. A chunk
has a 10-bit sequence number, a status and a type in two bytes; the first one of a file goes
on with the name and the size of the file. Sending a file to a websocket is left out.
-/

namespace GrSatellites.Files.Qo100

open Segmentation

variable {P : Type} [DecidableEq P]

/-- `name[:-4]`. -/
def withoutExtension (name : String) : String :=
  String.ofList (name.toList.take (name.toList.length - 4))

/-- `name.endswith(".zip")`. -/
def IsZip (name : String) : Prop := ".zip".toList <:+ name.toList

instance (name : String) : Decidable (IsZip name) := inferInstanceAs (Decidable (_ <:+ _))

/-- What `on_completion` uses of `pathlib` and `zipfile`: the last part of a path, the path of
another file in the same directory, and a member of an archive. -/
structure Zipfile (P : Type) where
  name : P → String
  sibling : P → String → P
  read : List Byte → String → Except PyError (List Byte)
  sibling_ne : ∀ path, IsZip (name path) → sibling path (withoutExtension (name path)) ≠ path

/-- `int(chunk[i])`. -/
def byteOf (chunk : List Byte) (i : ℕ) : Method P Unit ℕ :=
  match chunk[i]? with
  | none => throw (.exception "IndexError")
  | some byte => return byte.toNat

/-- `frame_status`. -/
def frameStatus (chunk : List Byte) : Method P Unit ℕ := do
  return (← byteOf chunk 1) >>> 4 &&& 0x03

/-- `frame_type`. -/
def frameType (chunk : List Byte) : Method P Unit ℕ := do
  return (← byteOf chunk 1) &&& 0x0f

/-- `chunk_sequence`. -/
def chunkSequence (chunk : List Byte) : Method P Unit ℕ := do
  let low ← byteOf chunk 0
  let high ← byteOf chunk 1
  return low ||| (high >>> 6) <<< 8

/-- `chunk_offset`. -/
def chunkOffset (chunk : List Byte) : Method P Unit ℕ := do
  let seq ← chunkSequence chunk
  if seq = 0 then return 0
  return (seq - 1) * 219 + 164

/-- `is_last_chunk`. -/
def isLastChunk (chunk : List Byte) : Method P Unit Bool := do
  let status ← frameStatus chunk
  return status = 2 ∨ status = 3

/-- `self._files[self._current_file].size - self.chunk_offset(chunk)`, or the length of the
data when there is no current file. -/
def lastLength (chunk data : List Byte) : Method P Unit ℤ := do
  match (← get).currentFile with
  | none => return data.length
  | some fid =>
    match (← getFile fid).size with
    | none => throw .typeError
    | some size => return size - (← chunkOffset chunk)

/-- `chunk_data`. -/
def chunkData (chunk : List Byte) : Method P Unit (List Byte) := do
  let seq ← chunkSequence chunk
  if seq = 0 then return chunk.drop 57
  let data := chunk.drop 2
  if ← isLastChunk chunk then
    return sliceTo data (← lastLength chunk data)
  else return data

/-- `file_size`. -/
def fileSize (chunk : List Byte) : Method P Unit (Option ℤ) := do
  if (← chunkSequence chunk) ≠ 0 then return none
  let high ← byteOf chunk 54
  let middle ← byteOf chunk 55
  let low ← byteOf chunk 56
  return some ((high <<< 16 ||| middle <<< 8 ||| low : ℕ) : ℤ)

/-- `parse_chunk`. -/
def parseChunk (chunk : List Byte) : Method P Unit (Option (List Byte)) := do
  if 8 ≤ (← frameType chunk) then return none
  if ← isLastChunk chunk then
    tryCatch (do
      let _ ← chunkData chunk
      return some chunk) fun _ => return none
  else return some chunk

/-- The file name in the bytes of a first chunk, if they are ASCII. -/
def asciiName (bytes : List Byte) : Option String :=
  if bytes.all (·.toNat < 128) then
    let text := bytes.map fun byte => Char.ofNat byte.toNat
    let text := (text.reverse.dropWhile (· = '\x00')).reverse
    some (String.ofList (text.map fun char => if char = '\x00' then ' ' else char))
  else none

/-- `file_id`. -/
def fileId (chunk : List Byte) : Method P Unit (Option FileId) := do
  if (← chunkSequence chunk) ≠ 0 then return none
  match asciiName ((chunk.drop 2).take 50) with
  | none => return none
  | some name =>
    -- ASCII, HTML and binary files are zipped
    let type ← frameType chunk
    if type = 3 ∨ type = 4 ∨ type = 5 then return some (.str (name ++ ".zip"))
    else return some (.str name)

/-- `on_completion`: a zip file is unzipped, if that is possible. -/
def onCompletion (lib : Pathlib P) (zipfile : Zipfile P) (f : File P) : Method P Unit Unit := do
  if IsZip (zipfile.name f.path) then
    let outname := withoutExtension (zipfile.name f.path)
    match zipfile.read (((← get).disk f.path).getD []) outname with
    | .error _ => return
    | .ok data =>
      match lib.openFile (zipfile.sibling f.path outname) with
      | .error _ => return
      | .ok () =>
        modify fun s =>
          { s with disk := Function.update s.disk (zipfile.sibling f.path outname) (some data) }

/-- The receiver. -/
def receiver (lib : Pathlib P) (zipfile : Zipfile P) (path : P) :
    FileReceiver P Unit (List Byte) (List Byte) where
  lib := lib
  path := path
  parseChunk := parseChunk
  fileId := fileId
  chunkSequence chunk := do return some ((← chunkSequence chunk : ℕ) : ℤ)
  chunkOffset chunk := do return some ((← chunkOffset chunk : ℕ) : ℤ)
  chunkData := chunkData
  fileChunks _ := pure none
  fileSize := fileSize
  isLastChunk chunk := do return some (← isLastChunk chunk)
  filename fid := pure fid.toStr
  onCompletion := onCompletion lib zipfile

/-! ## Transmission -/

/-- The bytes in front of a chunk: the sequence number modulo 1024, the status and the type. -/
def chunkHeader (i status type : ℕ) : List Byte :=
  [BitVec.ofNat 8 (i % 1024), BitVec.ofNat 8 (i % 1024 / 256 * 64 + status * 16 + type)]

/-- A file to be sent: the type of its frames, the bytes of its name, the checksum in the
header, and what the last chunk is padded with. -/
structure Transmission where
  type : ℕ
  name : List Byte
  crc : List Byte
  file : List Byte
  padding : ℕ → Byte
  type_lt : type < 8
  length_name : name.length = 50
  length_crc : crc.length = 2
  file_ne_nil : file ≠ []

namespace Transmission

variable (x : Transmission)

/-- The number of chunks. -/
def total : ℕ := if x.file.length ≤ 164 then 1 else 1 + (x.file.length - 164 + 218) / 219

/-- The status of a chunk: the first, a middle or the last one, or the only one. -/
def status (i : ℕ) : ℕ :=
  if x.total = 1 then 3 else if i = 0 then 0 else if i + 1 = x.total then 2 else 1

/-- Data of a given length, filled up with padding. -/
def padded (k : ℕ) (data : List Byte) : List Byte :=
  data ++ (List.range (k - data.length)).map x.padding

/-- The size in three bytes. -/
def sizeBytes : List Byte :=
  [BitVec.ofNat 8 (x.file.length / 65536), BitVec.ofNat 8 (x.file.length / 256),
    BitVec.ofNat 8 x.file.length]

/-- A chunk. -/
def chunk (i : ℕ) : List Byte :=
  if i = 0 then
    chunkHeader 0 (x.status 0) x.type ++ x.name ++ x.crc ++ x.sizeBytes ++
      x.padded 164 (x.file.take 164)
  else
    chunkHeader i (x.status i) x.type ++
      x.padded 219 ((x.file.drop (164 + 219 * (i - 1))).take 219)

/-- The chunks of a file. -/
def chunks : List (List Byte) := (List.range x.total).map x.chunk

end Transmission

end GrSatellites.Files.Qo100
