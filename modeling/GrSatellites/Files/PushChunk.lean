import GrSatellites.Files.Model

/-!
# One chunk with a file id and an offset

A chunk that names its file and its place is handled without the bookkeeping for
sequences: it is written at its place or rejected. Only the attributes of its own file
change.
-/

namespace GrSatellites.Files

open Routine

variable {P σ R C : Type}

/-- The hooks of a receiver read the given attributes from a chunk, without a change of
state, and do nothing when a file is complete. -/
structure Reads (r : FileReceiver P σ R C) (raw : R) (v : Chunk) (isLast : Option Bool) : Prop where
  parse : ∃ c, r.parseChunk raw = pure (some c) ∧ r.fileId c = pure v.fileId ∧
    r.chunkSequence c = pure v.sequence ∧ r.chunkOffset c = pure v.offset ∧
    r.chunkData c = pure v.data ∧ r.fileChunks c = pure v.chunks ∧
    r.fileSize c = pure v.filesize ∧ r.isLastChunk c = pure isLast
  onCompletion : ∀ f, r.onCompletion f = pure ()

theorem reads_defaultReceiver (lib : Pathlib P) (path : P) {c : Chunk} {o : ℤ}
    (hoffset : c.offset = some o) : Reads (defaultReceiver lib path) c c none where
  parse := ⟨c, rfl, rfl, rfl, by simp [defaultReceiver, defaultChunkOffset, hoffset], rfl, rfl, rfl,
    rfl⟩
  onCompletion _ := rfl

/-- The attributes of a file once `_fill_file_data` has seen a chunk. -/
def File.fill (f : File P) (v : Chunk) : File P :=
  { f with
    size := if f.size.isNone then v.filesize else f.size
    chunks := if f.chunks.isNone then v.chunks else f.chunks }

/-- The attributes of a file once a chunk has been written at an offset. -/
def File.advance (f : File P) (v : Chunk) (o : ℤ) : File P :=
  { f with writePointer := o + v.data.length, expectedSeq := v.sequence.map (· + 1) }

/-- Whether the pointers of a file say that it is complete. -/
def File.complete (f : File P) (isLast : Option Bool) : Except PyError Bool :=
  if f.size.any (· ≤ f.writePointer) then .ok true
  else
    match f.chunks, f.expectedSeq with
    | some _, none => .error .typeError
    | some chunks, some expectedSeq =>
      if chunks ≤ expectedSeq then .ok true else .ok (isLast = some true)
    | none, _ => .ok (isLast = some true)

/-- Without a hook for the last chunk, a file is complete by its size or by its number of
chunks. -/
theorem File.complete_none_iff {f : File P} :
    f.complete none = .ok true ↔ f.size.any (· ≤ f.writePointer) ∨
      ∃ total seq, f.chunks = some total ∧ f.expectedSeq = some seq ∧ total ≤ seq := by
  unfold complete
  by_cases hsize : f.size.any (· ≤ f.writePointer)
  · rw [if_pos hsize]
    exact ⟨fun _ => .inl hsize, fun _ => rfl⟩
  · rw [if_neg hsize]
    cases hchunks : f.chunks with
    | none => simp [hsize]
    | some total =>
      cases hseq : f.expectedSeq with
      | none => simp [hsize]
      | some seq => by_cases hle : total ≤ seq <;> simp [hsize, hle]

namespace Receiver

variable (s : Receiver P σ) (fid : FileId)

/-- Store a file object under an id. -/
def setFile (f : File P) : Receiver P σ := { s with files := Function.update s.files fid (some f) }

@[simp] theorem setFile_files (f : File P) :
    (s.setFile fid f).files = Function.update s.files fid (some f) := rfl

@[simp] theorem setFile_setFile (f g : File P) :
    (s.setFile fid f).setFile fid g = s.setFile fid g := by
  simp [setFile]

/-- Write some data into the file of a path. -/
def writeDisk [DecidableEq P] (path : P) (position : ℕ) (data : List Byte) : Receiver P σ :=
  { s with
    disk := Function.update s.disk path
      (some (ByteFile.writeAt ((s.disk path).getD []) position data)) }

end Receiver

/-- A file object found after one has been stored is that one, or another file's. -/
theorem lookup_of_update {files : FileId → Option (File P)} {fid i : FileId} {f k : File P}
    (hk : Function.update files fid (some f) i = some k) :
    (i = fid ∧ k = f) ∨ (i ≠ fid ∧ files i = some k) := by
  rw [Function.update_apply] at hk
  split at hk
  · exact .inl ⟨‹_›, (Option.some.inj hk).symm⟩
  · exact .inr ⟨‹_›, hk⟩

/-! ## The steps of `push_chunk` -/

section Steps

variable {s : Receiver P σ} {fid : FileId} {f : File P}

theorem exec_getFile (hf : s.files fid = some f) : exec (getFile fid) s = (.ok f, s) := by
  simp [getFile, hf]

theorem exec_modifyFile (hf : s.files fid = some f) (g : File P → File P) :
    exec (modifyFile fid g) s = (.ok (), s.setFile fid (g f)) := by
  simp [modifyFile, hf, Receiver.setFile]

theorem setFile_self (hf : s.files fid = some f) : s.setFile fid f = s := by
  rw [Receiver.setFile, ← hf, Function.update_eq_self]

end Steps

namespace FileReceiver

variable {r : FileReceiver P σ R C} {v : Chunk} {c : C}
variable {s : Receiver P σ} {fid : FileId} {f : File P}

theorem exec_findFid (hfileId : r.fileId c = pure (some fid)) :
    exec (r.findFid c) s = (.ok fid, s) := by
  simp [findFid, hfileId]

theorem exec_fillFileData (hsize : r.fileSize c = pure v.filesize)
    (hchunks : r.fileChunks c = pure v.chunks) (hf : s.files fid = some f) :
    exec (r.fillFileData fid c) s = (.ok (), s.setFile fid (f.fill v)) := by
  have hset (s : Receiver P σ) (g : File P) : (s.setFile fid g).files fid = some g := by simp
  have hself := setFile_self hf
  unfold fillFileData
  rw [exec_bind_ok (exec_getFile hf)]
  by_cases hsize' : f.size.isNone
  · rw [if_pos hsize', hsize, pure_bind, exec_bind_ok (exec_modifyFile hf _),
      exec_bind_ok (exec_getFile (hset _ _))]
    by_cases hchunks' : f.chunks.isNone
    · simp [hchunks', hchunks, exec_modifyFile (hset _ _), File.fill, hsize']
    · simp [hchunks', File.fill, hsize']
  · rw [if_neg hsize']
    beta_reduce
    rw [exec_bind_ok (exec_getFile hf)]
    by_cases hchunks' : f.chunks.isNone
    · simp [hchunks', hchunks, exec_modifyFile hf, File.fill, hsize']
    · simp [hchunks', File.fill, hsize', hself]

theorem exec_findOffset {o : ℤ} (hoffset : r.chunkOffset c = pure (some o)) (seq : Option ℤ) :
    exec (r.findOffset c fid seq) s = (.ok (some o), s) := by
  simp [findOffset, hoffset]

theorem exec_isComplete {isLast : Option Bool} (hlast : r.isLastChunk c = pure isLast)
    (hf : s.files fid = some f) :
    exec (r.isComplete c fid) s = (f.complete isLast, s) := by
  unfold isComplete File.complete
  rw [exec_bind_ok (exec_getFile hf)]
  by_cases hsize : f.size.any (· ≤ f.writePointer)
  · simp [hsize]
  · cases f.chunks with
    | none => simp [hsize, hlast]
    | some chunks =>
      cases f.expectedSeq with
      | none => simp [hsize]
      | some seq => by_cases hle : chunks ≤ seq <;> simp [hsize, hle, hlast]

variable [DecidableEq P]

theorem exec_findFile (hf : s.files fid = some f) : exec (r.findFile fid) s = (.ok (), s) := by
  simp [findFile, hf]

theorem exec_findFile_new {t : Receiver P σ} (hf : s.files fid = none)
    (hnew : exec (r.newFile fid) s = (.ok f, t)) : exec (r.findFile fid) s = (.ok (), t) := by
  simp [findFile, hf, exec_map, hnew]

theorem exec_detectNewFile (hfileId : r.fileId c = pure (some fid)) (seq : Option ℤ) :
    exec (r.detectNewFile c fid seq) s = (.ok fid, s) := by
  simp [detectNewFile, hfileId]

theorem exec_seekWrite {path : P} {o : ℤ} (ho : 0 ≤ o) (data : List Byte) :
    exec (seekWrite path o data) s = (.ok (), s.writeDisk path o.toNat data) := by
  simp [seekWrite, Int.not_lt.mpr ho, Receiver.writeDisk]

/-- A chunk that ends past the size of its file changes nothing. -/
theorem exec_writeChunk_reject (hdata : r.chunkData c = pure v.data) (hf : s.files fid = some f)
    {o : ℤ} (hsize : f.size.any (· < o + v.data.length)) :
    exec (r.writeChunk c fid v.sequence o) s = (.ok (), s) := by
  unfold writeChunk
  rw [hdata, pure_bind, exec_bind_ok (exec_getFile hf), if_pos hsize, exec_pure]

/-- A negative offset that the size does not exclude makes `seek` raise. -/
theorem exec_writeChunk_negative (hdata : r.chunkData c = pure v.data) (hf : s.files fid = some f)
    {o : ℤ} (ho : o < 0) (hsize : ¬ f.size.any (· < o + v.data.length)) :
    exec (r.writeChunk c fid v.sequence o) s = (.error .osError, s) := by
  unfold writeChunk
  rw [hdata, pure_bind, exec_bind_ok (exec_getFile hf), if_neg hsize]
  refine exec_bind_error ?_ _
  simp [seekWrite, ho]

/-- A chunk that is not beyond the size of its file is written at its offset. -/
theorem exec_writeChunk {data : List Byte} (hdata : exec (r.chunkData c) s = (.ok data, s))
    {isLast : Option Bool} (hlast : r.isLastChunk c = pure isLast) (hf : s.files fid = some f)
    {o : ℤ} (ho : 0 ≤ o) (hsize : ¬ f.size.any (· < o + data.length)) (seq : Option ℤ)
    {f' : File P} (hf' : f' = { f with
      writePointer := o + data.length, expectedSeq := seq.map (· + 1) }) :
    exec (r.writeChunk c fid seq o) s =
      let t := (s.writeDisk f.path o.toNat data).setFile fid f'
      match f'.complete isLast with
      | .error e => (.error e, t)
      | .ok true => exec (do r.onCompletion f'; setCurrentFile none)
          { t with completed := s.completed ++ [fid] }
      | .ok false => (.ok (), t) := by
  have hdisk : (s.writeDisk f.path o.toNat data).files fid = some f := hf
  have hset : ((s.writeDisk f.path o.toNat data).setFile fid f').files fid = some f' := by simp
  have hcomplete := exec_isComplete (r := r) hlast hset
  unfold writeChunk
  rw [exec_bind_ok hdata, exec_bind_ok (exec_getFile hf), if_neg hsize,
    exec_bind_ok (exec_seekWrite ho _), exec_bind_ok (exec_modifyFile hdisk _), ← hf']
  cases hresult : f'.complete isLast with
  | error e =>
    rw [hresult] at hcomplete
    exact exec_bind_error hcomplete _
  | ok b =>
    rw [hresult] at hcomplete
    refine (exec_bind_ok hcomplete _).trans ?_
    cases b with
    | false => rfl
    | true => rw [if_pos rfl, exec_modify_bind, exec_bind_ok (exec_getFile (f := f') (by simp))]; rfl

/-- A chunk that is accepted is written at its offset, and then the file may be complete. -/
theorem exec_writeChunk_accept (hdata : r.chunkData c = pure v.data)
    {isLast : Option Bool} (hlast : r.isLastChunk c = pure isLast)
    (hcompletion : ∀ f, r.onCompletion f = pure ()) (hf : s.files fid = some f) {o : ℤ}
    (ho : 0 ≤ o) (hsize : ¬ f.size.any (· < o + v.data.length)) :
    exec (r.writeChunk c fid v.sequence o) s =
      let t := (s.writeDisk f.path o.toNat v.data).setFile fid (f.advance v o)
      match (f.advance v o).complete isLast with
      | .error e => (.error e, t)
      | .ok true => (.ok (), { t with completed := s.completed ++ [fid], currentFile := none })
      | .ok false => (.ok (), t) := by
  have hdata' : exec (r.chunkData c) s = (.ok v.data, s) := by rw [hdata, exec_pure]
  rw [exec_writeChunk hdata' hlast hf ho hsize v.sequence rfl]
  simp only [hcompletion, pure_bind]
  rfl

/-- **One chunk.** What `push_chunk` does with a chunk that names a known file, which is
not broken, and its place in it. -/
theorem exec_pushChunk {raw : R} {isLast : Option Bool} (hreads : Reads r raw v isLast)
    (hfileId : v.fileId = some fid) {o : ℤ} (hoffset : v.offset = some o)
    (hf : s.files fid = some f) (hbroken : f.broken = false) :
    exec (r.pushChunk raw) s =
      let s₁ := ({ s with currentFile := some fid } : Receiver P σ).setFile fid (f.fill v)
      if (f.fill v).size.any (· < o + v.data.length) then (.ok (), s₁)
      else if o < 0 then (.error .osError, s₁)
      else
        let t := (s₁.writeDisk f.path o.toNat v.data).setFile fid ((f.fill v).advance v o)
        match ((f.fill v).advance v o).complete isLast with
        | .error e => (.error e, t)
        | .ok true => (.ok (), { t with completed := s.completed ++ [fid], currentFile := none })
        | .ok false => (.ok (), t) := by
  obtain ⟨⟨c, hparse, hid, hseq, hoff, hdata, hchunks, hsize, hlast⟩, hcompletion⟩ := hreads
  rw [hfileId] at hid
  rw [hoffset] at hoff
  have hset : (({ s with currentFile := some fid } : Receiver P σ).setFile fid (f.fill v)).files fid =
      some (f.fill v) := by simp
  have hf' : ({ s with currentFile := some fid } : Receiver P σ).files fid = some f := hf
  unfold pushChunk
  rw [hparse, pure_bind]
  simp only
  rw [exec_bind_ok (exec_findFid hid), exec_bind_ok (exec_findFile hf), hseq, pure_bind,
    exec_bind_ok (exec_detectNewFile hid _), setCurrentFile, exec_modify_bind,
    exec_bind_ok (exec_fillFileData hsize hchunks hf'), exec_bind_ok (exec_getFile hset),
    if_neg (by simp [File.fill, hbroken]), exec_bind_ok (exec_findOffset hoff _)]
  by_cases hend : (f.fill v).size.any (· < o + v.data.length)
  · rw [if_pos hend]
    exact exec_writeChunk_reject hdata hset hend
  · rw [if_neg hend]
    by_cases ho : o < 0
    · rw [if_pos ho]
      exact exec_writeChunk_negative hdata hset ho hend
    · rw [if_neg ho, exec_writeChunk_accept hdata hlast hcompletion hset (Int.not_lt.mp ho) hend]
      rfl

/-- **The next chunk.** A chunk without a file id goes on with the current file, if its
sequence number has not decreased and nothing new is known of the file. -/
theorem exec_pushChunk_next {raw : R} {seq expected o : ℤ} {size : Option ℤ}
    (hparse : exec (r.parseChunk raw) s = (.ok (some c), s)) (hid : r.fileId c = pure none)
    (hcurrent : s.currentFile = some fid) (hf : s.files fid = some f)
    (hseq : r.chunkSequence c = pure (some seq)) (hexpected : f.expectedSeq = some expected)
    (hle : expected ≤ seq) (hsize : r.fileSize c = pure size) (hfilled : f.size.isSome)
    (hchunks : r.fileChunks c = pure none) (hbroken : f.broken = false)
    (hoffset : r.chunkOffset c = pure (some o)) :
    exec (r.pushChunk raw) s = exec (r.writeChunk c fid (some seq) o) s := by
  have hfind : exec (r.findFid c) s = (.ok fid, s) := by simp [findFid, hid, hcurrent]
  have hdetect : exec (r.detectNewFile c fid (some seq)) s = (.ok fid, s) := by
    unfold detectNewFile
    rw [hid, pure_bind]
    simp only
    rw [exec_bind_ok (exec_getFile hf)]
    simp [hexpected, not_lt.mpr hle]
  have hset : ({ s with currentFile := some fid } : Receiver P σ) = s := by rw [← hcurrent]
  have hfill : f.fill ⟨none, none, none, [], none, size⟩ = f := by
    obtain ⟨n, hn⟩ := Option.isSome_iff_exists.mp hfilled
    obtain ⟨path, broken, expectedSeq, writePointer, size, chunks⟩ := f
    cases hn
    cases chunks <;> rfl
  have hfilled := exec_fillFileData (v := ⟨none, none, none, [], none, size⟩) hsize hchunks hf
  rw [hfill, setFile_self hf] at hfilled
  unfold pushChunk
  rw [exec_bind_ok hparse]
  simp only
  rw [exec_bind_ok hfind, exec_bind_ok (exec_findFile hf), hseq, pure_bind, exec_bind_ok hdetect,
    setCurrentFile, exec_modify_bind, hset, exec_bind_ok hfilled, exec_bind_ok (exec_getFile hf),
    if_neg (by simp [hbroken]), exec_bind_ok (exec_findOffset hoffset _)]

/-! ## New files -/

theorem exec_storeFile_ok {filename : P} {t : Receiver P σ}
    (hnew : exec (r.storeFile fid filename) s = (.ok f, t)) :
    f = ⟨f.path, false, some 0, 0, none, none⟩ ∧
      t = ({ s with disk := Function.update s.disk f.path (some ((s.disk f.path).getD [])) } :
        Receiver P σ).setFile fid f := by
  unfold storeFile File.new at hnew
  cases hopen : r.lib.openFile (r.lib.join r.path filename) with
  | error e =>
    rw [hopen] at hnew
    cases hnew
  | ok =>
    rw [hopen] at hnew
    cases hnew
    exact ⟨rfl, rfl⟩

/-- A new file is stored under its id, and is on disk. Nothing else on disk changes. -/
theorem exec_newFile_ok {t : Receiver P σ} (hname : ∃ name, r.filename fid = pure name)
    (hnew : exec (r.newFile fid) s = (.ok f, t)) :
    f = ⟨f.path, false, some 0, 0, none, none⟩ ∧
      ∃ uuids, t =
        ({ s with
            uuids := uuids
            disk := Function.update s.disk f.path (some ((s.disk f.path).getD [])) } :
          Receiver P σ).setFile fid f := by
  obtain ⟨name, hname⟩ := hname
  unfold newFile at hnew
  rw [hname, pure_bind] at hnew
  cases hdirname : r.lib.dirname (r.lib.path name) with
  | error e =>
    rw [hdirname] at hnew
    cases hnew
  | ok dirname =>
    rw [hdirname] at hnew
    simp only at hnew
    by_cases hplain : dirname ≠ r.lib.path "."
    · have huuid : exec (uuid4 : Method P σ String) s =
          (.ok (s.uuids 0), { s with uuids := fun n => s.uuids (n + 1) }) := rfl
      rw [if_pos hplain, exec_bind_ok huuid] at hnew
      obtain ⟨hf, ht⟩ := exec_storeFile_ok hnew
      exact ⟨hf, _, ht⟩
    · rw [if_neg hplain] at hnew
      obtain ⟨hf, ht⟩ := exec_storeFile_ok hnew
      exact ⟨hf, s.uuids, ht⟩

/-- A chunk of a file that is not known creates it, and then goes on from there. -/
theorem exec_pushChunk_new {raw : R} {isLast : Option Bool} (hreads : Reads r raw v isLast)
    (hfileId : v.fileId = some fid) (hs : s.files fid = none) {t : Receiver P σ}
    (hnew : exec (r.newFile fid) s = (.ok f, t)) (ht : t.files fid = some f) :
    exec (r.pushChunk raw) s = exec (r.pushChunk raw) t := by
  obtain ⟨⟨c, hparse, hid, -⟩, -⟩ := hreads
  rw [hfileId] at hid
  unfold pushChunk
  rw [hparse, pure_bind]
  simp only
  rw [exec_bind_ok (exec_findFid hid), exec_bind_ok (exec_findFile_new hs hnew),
    exec_bind_ok (exec_findFid hid), exec_bind_ok (exec_findFile ht)]

/-! ## Runs -/

/-- Push some chunks one after the other. An exception leaves the state that it found. -/
def pushAll (r : FileReceiver P σ R C) (s : Receiver P σ) (raws : List R) : Receiver P σ :=
  raws.foldl (fun s raw => (exec (r.pushChunk raw) s).2) s

theorem pushAll_append_singleton (r : FileReceiver P σ R C) (s : Receiver P σ) (raws : List R)
    (raw : R) :
    r.pushAll s (raws ++ [raw]) = (exec (r.pushChunk raw) (r.pushAll s raws)).2 := by
  rw [pushAll, List.foldl_append]
  rfl

theorem pushAll_append (r : FileReceiver P σ R C) (s : Receiver P σ) (raws raws' : List R) :
    r.pushAll s (raws ++ raws') = r.pushAll (r.pushAll s raws) raws' := List.foldl_append

/-- Whenever a chunk names a file that is not known, the file can be created, and it is
created empty. -/
def CreatesEmpty (r : FileReceiver P σ Chunk C) (s : Receiver P σ) (chunks : List Chunk) : Prop :=
  ∀ earlier c fid, earlier ++ [c] <+: chunks → c.fileId = some fid →
    (r.pushAll s earlier).files fid = none →
      ∃ f t, exec (r.newFile fid) (r.pushAll s earlier) = (.ok f, t) ∧
        (r.pushAll s earlier).disk f.path = none

theorem CreatesEmpty.mono {r : FileReceiver P σ Chunk C} {chunks chunks' : List Chunk}
    (h : r.CreatesEmpty s chunks) (hpre : chunks' <+: chunks) : r.CreatesEmpty s chunks' :=
  fun earlier c fid hearlier => h earlier c fid (hearlier.trans hpre)

end FileReceiver

end GrSatellites.Files
