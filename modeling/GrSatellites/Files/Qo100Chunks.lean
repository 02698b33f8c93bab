import GrSatellites.Files.Qo100
import GrSatellites.Files.PushChunk

/-!
# Chunks of the QO-100 multimedia beacon

What the hooks of the receiver read in the chunks of a file.
-/

namespace GrSatellites.Files.Qo100

open Routine Segmentation

variable {P : Type}

/-! ## The fields of a chunk -/

section

variable {i status type : ℕ} {body : List Byte}

theorem status_of_header : ∀ high < 4, ∀ status < 4, ∀ type < 8,
    (BitVec.ofNat 8 (high * 64 + status * 16 + type)).toNat >>> 4 &&& 0x03 = status := by
  decide

theorem type_of_header : ∀ high < 4, ∀ status < 4, ∀ type < 8,
    (BitVec.ofNat 8 (high * 64 + status * 16 + type)).toNat &&& 0x0f = type := by
  decide

theorem high_of_header : ∀ high < 4, ∀ status < 4, ∀ type < 8,
    (BitVec.ofNat 8 (high * 64 + status * 16 + type)).toNat >>> 6 = high := by
  decide

theorem byteOf_eq_pure {chunk : List Byte} {i : ℕ} {byte : Byte} (h : chunk[i]? = some byte) :
    (byteOf chunk i : Method P Unit ℕ) = pure byte.toNat := by
  rw [byteOf, h]

theorem high_lt (i : ℕ) : i % 1024 / 256 < 4 := by omega

theorem frameStatus_chunk (hstatus : status < 4) (htype : type < 8) :
    (frameStatus (chunkHeader i status type ++ body) : Method P Unit ℕ) = pure status := by
  have hbyte := byteOf_eq_pure (P := P) (show (chunkHeader i status type ++ body)[1]? = _ from rfl)
  rw [frameStatus, hbyte, pure_bind, status_of_header _ (high_lt i) _ hstatus _ htype]

theorem frameType_chunk (hstatus : status < 4) (htype : type < 8) :
    (frameType (chunkHeader i status type ++ body) : Method P Unit ℕ) = pure type := by
  have hbyte := byteOf_eq_pure (P := P) (show (chunkHeader i status type ++ body)[1]? = _ from rfl)
  rw [frameType, hbyte, pure_bind, type_of_header _ (high_lt i) _ hstatus _ htype]

theorem chunkSequence_chunk (hstatus : status < 4) (htype : type < 8) :
    (chunkSequence (chunkHeader i status type ++ body) : Method P Unit ℕ) = pure (i % 1024) := by
  have hlow := byteOf_eq_pure (P := P) (show (chunkHeader i status type ++ body)[0]? = _ from rfl)
  have hhigh := byteOf_eq_pure (P := P) (show (chunkHeader i status type ++ body)[1]? = _ from rfl)
  have hsplit : (BitVec.ofNat 8 (i % 1024)).toNat ||| (i % 1024 / 256) <<< 8 = i % 1024 := by
    have hlt : (BitVec.ofNat 8 (i % 1024)).toNat < 2 ^ 8 := BitVec.isLt _
    rw [Nat.lor_comm, ← Nat.shiftLeft_add_eq_or_of_lt hlt, BitVec.toNat_ofNat, Nat.shiftLeft_eq]
    omega
  rw [chunkSequence, hlow, pure_bind, hhigh, pure_bind,
    high_of_header _ (high_lt i) _ hstatus _ htype, hsplit]

theorem isLastChunk_chunk (hstatus : status < 4) (htype : type < 8) :
    (isLastChunk (chunkHeader i status type ++ body) : Method P Unit Bool) =
      pure (decide (status = 2 ∨ status = 3)) := by
  rw [isLastChunk, frameStatus_chunk hstatus htype, pure_bind]

/-- The place of a chunk, by the sequence number in it. -/
def placeOf (i : ℕ) : ℕ := if i % 1024 = 0 then 0 else (i % 1024 - 1) * 219 + 164

theorem chunkOffset_chunk (hstatus : status < 4) (htype : type < 8) :
    (chunkOffset (chunkHeader i status type ++ body) : Method P Unit ℕ) = pure (placeOf i) := by
  rw [chunkOffset, chunkSequence_chunk hstatus htype, pure_bind, placeOf]
  split_ifs <;> rfl

end

/-! ## The chunks of a file -/

namespace Transmission

variable (x : Transmission)

theorem status_lt (i : ℕ) : x.status i < 4 := by
  unfold status
  split_ifs <;> norm_num

theorem total_pos : 0 < x.total := by
  unfold total
  split_ifs <;> omega

/-- The bytes after the first two of a chunk. -/
def body (i : ℕ) : List Byte :=
  if i = 0 then x.name ++ (x.crc ++ (x.sizeBytes ++ x.padded 164 (x.file.take 164)))
  else x.padded 219 ((x.file.drop (164 + 219 * (i - 1))).take 219)

theorem chunk_eq (i : ℕ) : x.chunk i = chunkHeader i (x.status i) x.type ++ x.body i := by
  unfold chunk body
  by_cases hi : i = 0
  · simp [hi]
  · simp [hi]

theorem length_padded {k : ℕ} {data : List Byte} (h : data.length ≤ k) :
    (x.padded k data).length = k := by
  simp [padded, h]

theorem padded_of_length {k : ℕ} {data : List Byte} (h : data.length = k) :
    x.padded k data = data := by
  simp [padded, h]

/-- The end of a chunk in the file. -/
def chunkEnd (i : ℕ) : ℕ := 164 + 219 * i

theorem lt_total_iff {i : ℕ} (hi : 0 < i) : i < x.total ↔ chunkEnd (i - 1) < x.file.length := by
  unfold total chunkEnd
  split_ifs <;> omega

theorem isLast_iff {i : ℕ} (hi : i < x.total) :
    (x.status i = 2 ∨ x.status i = 3) ↔ i + 1 = x.total := by
  unfold status
  split_ifs <;> simp <;> omega

/-- The data of a chunk after the first one. -/
def piece (k : ℕ) : List Byte := (x.file.drop (chunkEnd (k - 1))).take 219

theorem take_append_piece {k : ℕ} (hk : 0 < k) :
    x.file.take (chunkEnd (k - 1)) ++ x.piece k = x.file.take (chunkEnd k) := by
  have hend : chunkEnd k = chunkEnd (k - 1) + 219 := by
    unfold chunkEnd
    omega
  rw [piece, hend, List.take_add]

theorem length_piece {k : ℕ} : (x.piece k).length = min 219 (x.file.length - chunkEnd (k - 1)) := by
  rw [piece, List.length_take, List.length_drop]

theorem body_of_pos {k : ℕ} (hk : 0 < k) : x.body k = x.padded 219 (x.piece k) := by
  rw [body, if_neg hk.ne', piece, chunkEnd]

theorem length_chunk (i : ℕ) : (x.chunk i).length = 221 := by
  have hfirst : (x.padded 164 (x.file.take 164)).length = 164 := x.length_padded (by simp)
  have hlast : (x.padded 219 ((x.file.drop (164 + 219 * (i - 1))).take 219)).length = 219 :=
    x.length_padded (by simp)
  unfold chunk
  split_ifs
  · simp [chunkHeader, x.length_name, x.length_crc, sizeBytes, hfirst]
  · simp [chunkHeader, hlast]

theorem placeOf_eq {k : ℕ} (hk : 0 < k) (hlt : k < 1024) : placeOf k = chunkEnd (k - 1) := by
  unfold placeOf chunkEnd
  rw [Nat.mod_eq_of_lt hlt, if_neg hk.ne']
  omega

/-! ## The hooks on a chunk -/

theorem frameType_eq (i : ℕ) : (frameType (x.chunk i) : Method P Unit ℕ) = pure x.type := by
  rw [chunk_eq, frameType_chunk (x.status_lt i) x.type_lt]

theorem chunkSequence_eq (i : ℕ) :
    (chunkSequence (x.chunk i) : Method P Unit ℕ) = pure (i % 1024) := by
  rw [chunk_eq, chunkSequence_chunk (x.status_lt i) x.type_lt]

theorem chunkOffset_eq (i : ℕ) :
    (chunkOffset (x.chunk i) : Method P Unit ℕ) = pure (placeOf i) := by
  rw [chunk_eq, chunkOffset_chunk (x.status_lt i) x.type_lt]

theorem isLastChunk_eq (i : ℕ) : (isLastChunk (x.chunk i) : Method P Unit Bool) =
    pure (decide (x.status i = 2 ∨ x.status i = 3)) := by
  rw [chunk_eq, isLastChunk_chunk (x.status_lt i) x.type_lt]

section

variable {x} {k : ℕ}

theorem exec_isLast (hk : k < x.total) : (isLastChunk (x.chunk k) : Method P Unit Bool) =
    pure (decide (k + 1 = x.total)) := by
  rw [isLastChunk_eq]
  exact congrArg pure (decide_eq_decide.mpr (x.isLast_iff hk))

theorem exec_lastLength {s : Receiver P Unit} {fid : FileId} {f : File P} {data : List Byte}
    (hcurrent : s.currentFile = some fid) (hf : s.files fid = some f)
    (hsize : f.size = some (x.file.length : ℤ)) :
    exec (lastLength (x.chunk k) data) s = (.ok ((x.file.length : ℤ) - placeOf k), s) := by
  unfold lastLength
  rw [exec_get_bind, hcurrent]
  simp only
  rw [exec_bind_ok (exec_getFile hf), hsize]
  simp only
  rw [chunkOffset_eq, pure_bind, exec_pure]

/-- The data of a chunk after the first one: the last chunk is trimmed to the size. -/
theorem exec_chunkData {s : Receiver P Unit} {fid : FileId} {f : File P} (hpos : 0 < k)
    (hk : k < x.total) (hlt : k < 1024) (hcurrent : s.currentFile = some fid)
    (hf : s.files fid = some f) (hsize : f.size = some (x.file.length : ℤ)) :
    exec (chunkData (x.chunk k)) s = (.ok (x.piece k), s) := by
  have hlast := exec_isLast (P := P) hk
  have hlength (data : List Byte) : exec (lastLength (x.chunk k) data) s = _ :=
    exec_lastLength hcurrent hf hsize
  have hdata : (x.chunk k).drop 2 = x.padded 219 (x.piece k) := by
    rw [chunk_eq, ← x.body_of_pos hpos]
    rfl
  have hbelow := (x.lt_total_iff hpos).mp hk
  have hseq : (chunkSequence (x.chunk k) : Method P Unit ℕ) = pure k := by
    rw [chunkSequence_eq, Nat.mod_eq_of_lt hlt]
  unfold chunkData
  rw [hseq, pure_bind, if_neg hpos.ne', hlast, pure_bind]
  by_cases hend : k + 1 = x.total
  · have hover : x.file.length ≤ chunkEnd k := by
      by_contra hmore
      have := (x.lt_total_iff (Nat.succ_pos k)).mpr (not_le.mp hmore)
      omega
    have hplace : (x.file.length : ℤ) - placeOf k = ((x.piece k).length : ℕ) := by
      rw [placeOf_eq hpos hlt, x.length_piece]
      unfold chunkEnd at hbelow hover ⊢
      omega
    rw [if_pos (by simpa using hend), exec_bind_ok (hlength _), exec_pure, hplace, sliceTo_natCast,
      hdata, padded, List.take_left]
  · have hfull : (x.piece k).length = 219 := by
      have hnext := (x.lt_total_iff (Nat.succ_pos k)).mp (by omega)
      rw [x.length_piece]
      simp only [Nat.succ_sub_one] at hnext
      unfold chunkEnd at hnext ⊢
      omega
    rw [if_neg (by simpa using hend), exec_pure, hdata, x.padded_of_length hfull]

/-- A chunk is dropped before anything else only if its data cannot be had. -/
theorem exec_parseChunk {s : Receiver P Unit} {data : List Byte} (hk : k < x.total)
    (hdata : exec (chunkData (x.chunk k)) s = (.ok data, s)) :
    exec (parseChunk (x.chunk k)) s = (.ok (some (x.chunk k)), s) := by
  unfold parseChunk
  rw [frameType_eq, pure_bind, if_neg (not_le.mpr x.type_lt), exec_isLast hk, pure_bind]
  by_cases hend : k + 1 = x.total
  · rw [if_pos (by simpa using hend), exec_tryCatch, exec_bind_ok hdata, exec_pure]
  · rw [if_neg (by simpa using hend), exec_pure]

end

/-! ## The hooks on the first chunk -/

section

/-- The file id in the first chunk. -/
def named : Option FileId :=
  match asciiName x.name with
  | none => none
  | some name =>
    if x.type = 3 ∨ x.type = 4 ∨ x.type = 5 then some (.str (name ++ ".zip")) else some (.str name)

variable {x}

theorem chunk_zero : x.chunk 0 = chunkHeader 0 (x.status 0) x.type ++
    (x.name ++ (x.crc ++ (x.sizeBytes ++ x.padded 164 (x.file.take 164)))) := by
  rw [chunk_eq, body, if_pos rfl]

theorem chunkSequence_zero : (chunkSequence (x.chunk 0) : Method P Unit ℕ) = pure 0 := by
  rw [chunkSequence_eq]

theorem chunkOffset_zero : (chunkOffset (x.chunk 0) : Method P Unit ℕ) = pure 0 := by
  rw [chunkOffset_eq]
  rfl

theorem fileId_zero : (fileId (x.chunk 0) : Method P Unit _) = pure x.named := by
  have hname : ((x.chunk 0).drop 2).take 50 = x.name := by
    rw [chunk_zero]
    exact List.take_left' x.length_name
  unfold fileId named
  rw [chunkSequence_zero, pure_bind, if_neg (by simp), hname]
  cases asciiName x.name with
  | none => rfl
  | some name =>
    simp only [frameType_eq, pure_bind]
    split_ifs <;> rfl

/-- The size is read modulo `2 ^ 24`. -/
theorem fileSize_zero : (fileSize (x.chunk 0) : Method P Unit _) =
    pure (some ((x.file.length % 2 ^ 24 : ℕ) : ℤ)) := by
  have hbytes (j : ℕ) (byte : Byte) (hj : x.sizeBytes[j]? = some byte) :
      (byteOf (x.chunk 0) (54 + j) : Method P Unit ℕ) = pure byte.toNat := by
    have hlt : j < x.sizeBytes.length := (List.getElem?_eq_some_iff.mp hj).1
    apply byteOf_eq_pure
    rw [chunk_zero, List.getElem?_append_right (by simp [chunkHeader]; omega),
      List.getElem?_append_right (by simp [chunkHeader, x.length_name]; omega),
      List.getElem?_append_right (by simp [chunkHeader, x.length_name, x.length_crc]; omega),
      List.getElem?_append_left (by simp [chunkHeader, x.length_name, x.length_crc]; omega)]
    have hshift : 54 + j - 2 - 50 - 2 = j := by omega
    simpa [chunkHeader, x.length_name, x.length_crc, hshift] using hj
  have hjoin : ∀ n : ℕ, (BitVec.ofNat 8 (n / 65536)).toNat <<< 16 |||
      (BitVec.ofNat 8 (n / 256)).toNat <<< 8 ||| (BitVec.ofNat 8 n).toNat = n % 2 ^ 24 := by
    intro n
    have hmiddle : (BitVec.ofNat 8 (n / 256)).toNat <<< 8 < 2 ^ 16 := by
      have : (BitVec.ofNat 8 (n / 256)).toNat < 2 ^ 8 := BitVec.isLt _
      rw [Nat.shiftLeft_eq]
      omega
    rw [← Nat.shiftLeft_add_eq_or_of_lt hmiddle, Nat.shiftLeft_eq, Nat.shiftLeft_eq]
    have hsplit : (BitVec.ofNat 8 (n / 65536)).toNat * 2 ^ 16 +
        (BitVec.ofNat 8 (n / 256)).toNat * 2 ^ 8 =
        (n / 65536 % 2 ^ 8 * 2 ^ 8 + n / 256 % 2 ^ 8) <<< 8 := by
      rw [Nat.shiftLeft_eq, BitVec.toNat_ofNat, BitVec.toNat_ofNat]
      ring
    have hdigits : (n / 65536 % 2 ^ 8 * 2 ^ 8 + n / 256 % 2 ^ 8) * 2 ^ 8 + n % 2 ^ 8 =
        n % 2 ^ 24 := by
      clear hmiddle hsplit
      omega
    rw [hsplit, ← Nat.shiftLeft_add_eq_or_of_lt (BitVec.isLt _), Nat.shiftLeft_eq,
      BitVec.toNat_ofNat, hdigits]
  unfold fileSize
  rw [chunkSequence_zero, pure_bind, if_neg (by simp), hbytes 0 _ rfl, pure_bind, hbytes 1 _ rfl,
    pure_bind, hbytes 2 _ rfl, pure_bind, hjoin]

/-- The data of a first chunk is not trimmed. -/
theorem chunkData_zero : (chunkData (x.chunk 0) : Method P Unit _) =
    pure (x.padded 164 (x.file.take 164)) := by
  have hdrop : (x.chunk 0).drop 57 = x.padded 164 (x.file.take 164) := by
    rw [chunk_zero, ← List.append_assoc, ← List.append_assoc, ← List.append_assoc]
    exact List.drop_left' (by simp [chunkHeader, x.length_name, x.length_crc, sizeBytes])
  unfold chunkData
  rw [chunkSequence_zero, pure_bind, if_pos rfl, hdrop]

end

end Transmission

end GrSatellites.Files.Qo100
