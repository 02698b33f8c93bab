import GrSatellites.Files.PushChunk

/-!
# One chunk, with hooks that keep a state

A hook may change the state that the hooks of a receiver share, so that the same hook need not
answer the same when `push_chunk` calls it again. What `push_chunk` does is told from the answers:
first the file is found, possibly a new one, then the chunk is written, or not.
-/

namespace GrSatellites.Files

open Routine

variable {P σ R C α : Type}

/-- A hook called in one state answers, and leaves another state of the hooks and nothing else. -/
def Answers (x : Method P σ α) (h : σ) (a : α) (h' : σ) : Prop :=
  ∀ s : Receiver P σ, s.hooks = h → exec x s = (.ok a, { s with hooks := h' })

theorem Answers.pure (a : α) (h : σ) : Answers (pure a : Method P σ α) h a h := by
  rintro s rfl
  rfl

theorem Answers.exec_self {x : Method P σ α} {a : α} {h : σ} (hx : Answers x h a h)
    {s : Receiver P σ} (hs : s.hooks = h) : exec x s = (.ok a, s) := by
  rw [hx s hs, ← hs]

/-- The hooks of a receiver read the given attributes from a chunk. The states of the hooks are
those before the file id is asked for, before the sequence number, before the offset, and after
it. -/
structure Hears (r : FileReceiver P σ R C) (raw : R) (h₀ h₁ h₂ h₃ : σ) (v : Chunk)
    (isLast : Option Bool) : Prop where
  parse : ∃ c, Answers (r.parseChunk raw) h₀ (some c) h₀ ∧ Answers (r.fileId c) h₀ v.fileId h₁ ∧
    Answers (r.chunkSequence c) h₁ v.sequence h₂ ∧ Answers (r.fileId c) h₂ v.fileId h₂ ∧
    Answers (r.fileSize c) h₂ v.filesize h₂ ∧ Answers (r.fileChunks c) h₂ v.chunks h₂ ∧
    Answers (r.chunkOffset c) h₂ v.offset h₃ ∧ Answers (r.chunkData c) h₃ v.data h₃ ∧
    Answers (r.isLastChunk c) h₃ isLast h₃
  filename : ∀ fid, ∃ name, r.filename fid = pure name
  onCompletion : ∀ f, r.onCompletion f = pure ()

/-! ## Pieces of `push_chunk` -/

namespace FileReceiver

variable [DecidableEq P] (r : FileReceiver P σ R C)

/-- The first half of `push_chunk`: the id of the file and the sequence number. -/
def locate (chunk : C) : Method P σ (FileId × Option ℤ) := do
  let fid ← r.findFid chunk
  r.findFile fid
  let seq ← r.chunkSequence chunk
  let fid ← r.detectNewFile chunk fid seq
  return (fid, seq)

/-- The second half of `push_chunk`. -/
def finish (chunk : C) (fid : FileId) (seq : Option ℤ) : Method P σ Unit := do
  setCurrentFile (some fid)
  r.fillFileData fid chunk
  if (← getFile fid).broken then return
  match ← r.findOffset chunk fid seq with
  | none => return
  | some offset => r.writeChunk chunk fid seq offset

theorem pushChunk_eq (raw : R) : r.pushChunk raw = (do
    match ← r.parseChunk raw with
    | none => return
    | some chunk =>
      let (fid, seq) ← r.locate chunk
      r.finish chunk fid seq) := by
  unfold pushChunk locate
  refine congrArg _ (funext fun chunk => ?_)
  cases chunk with
  | none => rfl
  | some chunk =>
    simp only [bind_assoc, pure_bind]
    rfl

end FileReceiver

/-! ## The second half -/

namespace Receiver

variable [DecidableEq P] (s : Receiver P σ)

/-- A new file is stored under its id. -/
def create (fid : FileId) (f : File P) (uuids : ℕ → String) : Receiver P σ :=
  ({ s with uuids := uuids, disk := Function.update s.disk f.path (some []) } :
    Receiver P σ).setFile fid f

/-- A chunk is written at an offset, or rejected. -/
def write (fid : FileId) (f : File P) (v : Chunk) (isLast : Option Bool) (o : ℤ) :
    Except PyError Unit × Receiver P σ :=
  if f.size.any (· < o + v.data.length) then (.ok (), s)
  else if o < 0 then (.error .osError, s)
  else
    let t := (s.writeDisk f.path o.toNat v.data).setFile fid (f.advance v o)
    match (f.advance v o).complete isLast with
    | .error e => (.error e, t)
    | .ok true => (.ok (), { t with completed := s.completed ++ [fid], currentFile := none })
    | .ok false => (.ok (), t)

/-- A chunk of a file is handled, when its offset leaves the hooks in the given state. -/
def finish (fid : FileId) (f : File P) (v : Chunk) (isLast : Option Bool) (h : σ) :
    Except PyError Unit × Receiver P σ :=
  let t := ({ s with currentFile := some fid } : Receiver P σ).setFile fid (f.fill v)
  if f.broken then (.ok (), t)
  else
    let u := { t with hooks := h }
    match v.offset, v.sequence with
    | some o, _ => u.write fid (f.fill v) v isLast o
    | none, none =>
      (.error (.exception "FileReceiver unable to compute chunk_offset() nor chunk_sequence()"), u)
    | none, some seq =>
      if f.expectedSeq ≠ some seq then (.ok (), u.setFile fid { f.fill v with broken := true })
      else u.write fid (f.fill v) v isLast f.writePointer

end Receiver

namespace FileReceiver

variable {r : FileReceiver P σ R C} {v : Chunk} {c : C} {isLast : Option Bool}
variable {s : Receiver P σ} {fid : FileId} {f : File P} {h : σ}

theorem exec_fillFileData_answers (hsize : Answers (r.fileSize c) h v.filesize h)
    (hchunks : Answers (r.fileChunks c) h v.chunks h) (hs : s.hooks = h)
    (hf : s.files fid = some f) :
    exec (r.fillFileData fid c) s = (.ok (), s.setFile fid (f.fill v)) := by
  have hset (g : File P) : (s.setFile fid g).files fid = some g := by simp
  have hself := setFile_self hf
  have hchunks' (g : File P) :
      exec (r.fileChunks c) (s.setFile fid g) = (.ok v.chunks, s.setFile fid g) :=
    hchunks.exec_self hs
  unfold fillFileData
  rw [exec_bind_ok (exec_getFile hf)]
  by_cases hnone : f.size.isNone
  · rw [if_pos hnone, exec_bind_ok (hsize.exec_self hs), exec_bind_ok (exec_modifyFile hf _),
      exec_bind_ok (exec_getFile (hset _))]
    by_cases hnone' : f.chunks.isNone
    · rw [if_pos hnone', exec_bind_ok (hchunks' _), exec_modifyFile (hset _)]
      simp [File.fill, hnone, hnone']
    · rw [if_neg hnone', exec_pure]
      simp [File.fill, hnone, hnone']
  · rw [if_neg hnone]
    beta_reduce
    rw [exec_bind_ok (exec_getFile hf)]
    by_cases hnone' : f.chunks.isNone
    · rw [if_pos hnone', exec_bind_ok (hchunks.exec_self hs), exec_modifyFile hf]
      simp [File.fill, hnone, hnone']
    · rw [if_neg hnone', exec_pure]
      simp [File.fill, hnone, hnone', hself]

theorem exec_isComplete_answers (hlast : Answers (r.isLastChunk c) h isLast h) (hs : s.hooks = h)
    (hf : s.files fid = some f) : exec (r.isComplete c fid) s = (f.complete isLast, s) := by
  unfold isComplete File.complete
  rw [exec_bind_ok (exec_getFile hf)]
  by_cases hsize : f.size.any (· ≤ f.writePointer)
  · simp [hsize]
  have hlast' : exec (do return decide ((← r.isLastChunk c) = some true) : Method P σ Bool) s =
      (.ok (decide (isLast = some true)), s) := exec_bind_ok (hlast.exec_self hs) _
  rw [if_neg hsize, if_neg hsize]
  cases f.chunks with
  | none => exact hlast'
  | some chunks =>
    cases f.expectedSeq with
    | none => rfl
    | some seq =>
      by_cases hle : chunks ≤ seq
      · simp [hle]
      · simpa [hle] using hlast'

variable [DecidableEq P]

/-- The end of `push_chunk`, once the offset is known. -/
theorem exec_writeChunk_answers (hdata : Answers (r.chunkData c) h v.data h)
    (hlast : Answers (r.isLastChunk c) h isLast h) (hcompletion : ∀ f, r.onCompletion f = pure ())
    (hs : s.hooks = h) (hf : s.files fid = some f) (o : ℤ) :
    exec (r.writeChunk c fid v.sequence o) s = s.write fid f v isLast o := by
  unfold writeChunk Receiver.write
  rw [exec_bind_ok (hdata.exec_self hs), exec_bind_ok (exec_getFile hf)]
  by_cases hsize : f.size.any (· < o + v.data.length)
  · rw [if_pos hsize, if_pos hsize, exec_pure]
  rw [if_neg hsize, if_neg hsize]
  by_cases ho : o < 0
  · rw [if_pos ho]
    refine exec_bind_error ?_ _
    simp [seekWrite, ho]
  have hdisk : (s.writeDisk f.path o.toNat v.data).files fid = some f := hf
  have hset : ((s.writeDisk f.path o.toNat v.data).setFile fid (f.advance v o)).files fid =
      some (f.advance v o) := by simp
  have hcomplete := exec_isComplete_answers (r := r) hlast
    (s := (s.writeDisk f.path o.toNat v.data).setFile fid (f.advance v o)) hs hset
  rw [if_neg ho, exec_bind_ok (exec_seekWrite (not_lt.mp ho) v.data),
    exec_bind_ok (exec_modifyFile hdisk _)]
  dsimp only
  cases hresult : (f.advance v o).complete isLast with
  | error e =>
    rw [hresult] at hcomplete
    exact exec_bind_error hcomplete _
  | ok complete =>
    rw [hresult] at hcomplete
    refine (exec_bind_ok hcomplete _).trans ?_
    cases complete with
    | false => rfl
    | true =>
      rw [if_pos rfl, exec_modify_bind, exec_bind_ok (exec_getFile (f := f.advance v o) (by simp)),
        hcompletion, pure_bind]
      rfl

/-- **The second half.** What is done with a chunk of a file. -/
theorem exec_finish {h' : σ} (hsize : Answers (r.fileSize c) h v.filesize h)
    (hchunks : Answers (r.fileChunks c) h v.chunks h)
    (hoffset : Answers (r.chunkOffset c) h v.offset h')
    (hdata : Answers (r.chunkData c) h' v.data h')
    (hlast : Answers (r.isLastChunk c) h' isLast h') (hcompletion : ∀ f, r.onCompletion f = pure ())
    (hs : s.hooks = h) (hf : s.files fid = some f) :
    exec (r.finish c fid v.sequence) s = s.finish fid f v isLast h' := by
  have hf' : ({ s with currentFile := some fid } : Receiver P σ).files fid = some f := hf
  have hfill := exec_fillFileData_answers hsize hchunks
    (s := ({ s with currentFile := some fid } : Receiver P σ)) hs hf'
  have hset : (({ s with currentFile := some fid } : Receiver P σ).setFile fid (f.fill v)).files
      fid = some (f.fill v) := by simp
  unfold finish Receiver.finish
  rw [setCurrentFile, exec_modify_bind, exec_bind_ok hfill, exec_bind_ok (exec_getFile hset)]
  by_cases hbroken : f.broken
  · rw [if_pos hbroken, if_pos (show (f.fill v).broken = true from hbroken), exec_pure]
  rw [if_neg hbroken, if_neg (show ¬(f.fill v).broken = true from hbroken)]
  have hoff := hoffset (({ s with currentFile := some fid } : Receiver P σ).setFile fid (f.fill v)) hs
  have hwrite (o : ℤ) := exec_writeChunk_answers hdata hlast hcompletion
    (s := { ({ s with currentFile := some fid } : Receiver P σ).setFile fid (f.fill v) with hooks := h' })
    rfl hset o
  unfold findOffset
  rw [bind_assoc, exec_bind_ok hoff]
  cases hv : v.offset with
  | some o =>
    rw [pure_bind]
    exact hwrite o
  | none =>
    cases hseq : v.sequence with
    | none => rfl
    | some seq =>
      rw [hseq] at hwrite
      have hset' : ({ ({ s with currentFile := some fid } : Receiver P σ).setFile fid (f.fill v) with
          hooks := h' } : Receiver P σ).files fid = some (f.fill v) := hset
      simp only [bind_assoc]
      rw [exec_bind_ok (exec_getFile hset')]
      by_cases hne : f.expectedSeq ≠ some seq
      · rw [if_pos hne, if_pos (show (f.fill v).expectedSeq ≠ some seq from hne), bind_assoc,
          exec_bind_ok (exec_modifyFile hset' _)]
        rfl
      · rw [if_neg hne, if_neg (show ¬(f.fill v).expectedSeq ≠ some seq from hne), pure_bind]
        exact hwrite f.writePointer

/-! ## New files -/

/-- The path of a new file if it can be opened, and the names that are left. -/
def newPath (r : FileReceiver P σ R C) (filename : String) (uuids : ℕ → String) :
    Except PyError P × (ℕ → String) :=
  match r.lib.dirname (r.lib.path filename) with
  | .error e => (.error e, uuids)
  | .ok dirname =>
    if dirname ≠ r.lib.path "." then
      let path := r.lib.join r.path (r.lib.path (uuids 0))
      ((r.lib.openFile path).map fun _ => path, fun n => uuids (n + 1))
    else
      let path := r.lib.join r.path (r.lib.path filename)
      ((r.lib.openFile path).map fun _ => path, uuids)

theorem exec_storeFile (filename : P) :
    exec (r.storeFile fid filename) s =
      match (r.lib.openFile (r.lib.join r.path filename)).map fun _ => r.lib.join r.path filename with
      | .error e => (.error e, s)
      | .ok path =>
        let f : File P := ⟨path, false, some 0, 0, none, none⟩
        (.ok f, ({ s with
          disk := Function.update s.disk path (some ((s.disk path).getD [])) } :
            Receiver P σ).setFile fid f) := by
  unfold storeFile File.new
  cases r.lib.openFile (r.lib.join r.path filename) <;> rfl

theorem exec_newFile {filename : String} (hname : r.filename fid = pure filename) :
    exec (r.newFile fid) s =
      match r.newPath filename s.uuids with
      | (.error e, uuids) => (.error e, { s with uuids := uuids })
      | (.ok path, uuids) =>
        let f : File P := ⟨path, false, some 0, 0, none, none⟩
        (.ok f, ({ s with
          uuids := uuids
          disk := Function.update s.disk path (some ((s.disk path).getD [])) } :
            Receiver P σ).setFile fid f) := by
  unfold newFile newPath
  rw [hname, pure_bind]
  cases r.lib.dirname (r.lib.path filename) with
  | error e => rfl
  | ok dirname =>
    dsimp only
    by_cases hplain : dirname ≠ r.lib.path "."
    · rw [if_pos hplain, if_pos hplain]
      have huuid : exec (uuid4 : Method P σ String) s =
          (.ok (s.uuids 0), { s with uuids := fun n => s.uuids (n + 1) }) := rfl
      rw [exec_bind_ok huuid, exec_storeFile]
      cases r.lib.openFile (r.lib.join r.path (r.lib.path (s.uuids 0))) <;> rfl
    · rw [if_neg hplain, if_neg hplain, exec_storeFile]
      cases r.lib.openFile (r.lib.join r.path (r.lib.path filename)) <;> rfl

/-- A new file can be created under an id, empty. This is its object, and these are the names that
are left. -/
structure CanCreate (r : FileReceiver P σ R C) (s : Receiver P σ) (fid : FileId) (f : File P)
    (uuids : ℕ → String) : Prop where
  filename : ∃ filename, r.filename fid = pure filename ∧
    r.newPath filename s.uuids = (.ok f.path, uuids)
  object : f = ⟨f.path, false, some 0, 0, none, none⟩
  absent : s.disk f.path = none

namespace CanCreate

variable {uuids : ℕ → String}

theorem exec_newFile (h : r.CanCreate s fid f uuids) :
    exec (r.newFile fid) s = (.ok f, s.create fid f uuids) := by
  obtain ⟨⟨filename, hname, hpath⟩, hobject, habsent⟩ := h
  rw [FileReceiver.exec_newFile hname, hpath]
  dsimp only
  rw [← hobject, habsent]
  rfl

/-- Whether a file can be created depends on what is on disk and on the names that are drawn. -/
theorem congr (h : r.CanCreate s fid f uuids) {s' : Receiver P σ} (hdisk : s'.disk = s.disk)
    (huuids : s'.uuids = s.uuids) : r.CanCreate s' fid f uuids where
  filename := huuids ▸ h.filename
  object := h.object
  absent := hdisk ▸ h.absent

end CanCreate

end FileReceiver

/-! ## Where a chunk goes -/

namespace Hears

variable [DecidableEq P] {r : FileReceiver P σ R C} {raw : R} {h₀ h₁ h₂ h₃ : σ} {v : Chunk}
variable {isLast : Option Bool} {s : Receiver P σ} {fid : FileId} {f : File P}
variable {uuids : ℕ → String}

/-- Once the file of a chunk is found, the chunk is handled. -/
theorem exec_pushChunk (hears : Hears r raw h₀ h₁ h₂ h₃ v isLast) (hs : s.hooks = h₀)
    {t : Receiver P σ} (ht : t.hooks = h₂) (hf : t.files fid = some f)
    (hlocate : ∀ c, Answers (r.fileId c) h₀ v.fileId h₁ → Answers (r.chunkSequence c) h₁ v.sequence h₂ →
      Answers (r.fileId c) h₂ v.fileId h₂ → exec (r.locate c) s = (.ok (fid, v.sequence), t)) :
    exec (r.pushChunk raw) s = t.finish fid f v isLast h₃ := by
  obtain ⟨⟨c, hparse, hid, hseq, hid', hsize, hchunks, hoffset, hdata, hlast⟩, -, hcompletion⟩ := hears
  rw [r.pushChunk_eq, exec_bind_ok (hparse.exec_self hs)]
  dsimp only
  rw [exec_bind_ok (hlocate c hid hseq hid')]
  exact FileReceiver.exec_finish hsize hchunks hoffset hdata hlast hcompletion ht hf

/-- The chunk names a file that is known. -/
theorem push_known (hears : Hears r raw h₀ h₁ h₂ h₃ v isLast) (hs : s.hooks = h₀)
    (hid : v.fileId = some fid) (hf : s.files fid = some f) :
    exec (r.pushChunk raw) s = ({ s with hooks := h₂ } : Receiver P σ).finish fid f v isLast h₃ := by
  refine hears.exec_pushChunk hs rfl hf fun c hid₀ hseq hid₂ => ?_
  rw [hid] at hid₀ hid₂
  have hfind : exec (r.findFid c) s = (.ok fid, { s with hooks := h₁ }) := by
    rw [FileReceiver.findFid, exec_bind_ok (hid₀ s hs)]
    rfl
  have hfile : exec (r.findFile fid) { s with hooks := h₁ } = (.ok (), { s with hooks := h₁ }) :=
    FileReceiver.exec_findFile hf
  have hdetect : exec (r.detectNewFile c fid v.sequence) { s with hooks := h₂ } =
      (.ok fid, { s with hooks := h₂ }) := by
    rw [FileReceiver.detectNewFile, exec_bind_ok (hid₂ _ rfl)]
    rfl
  rw [FileReceiver.locate, exec_bind_ok hfind, exec_bind_ok hfile, exec_bind_ok (hseq _ rfl),
    exec_bind_ok hdetect]
  rfl

/-- The chunk names a file that is not known. -/
theorem push_created (hears : Hears r raw h₀ h₁ h₂ h₃ v isLast) (hs : s.hooks = h₀)
    (hid : v.fileId = some fid) (hf : s.files fid = none) (hcreate : r.CanCreate s fid f uuids) :
    exec (r.pushChunk raw) s =
      ({ s.create fid f uuids with hooks := h₂ } : Receiver P σ).finish fid f v isLast h₃ := by
  refine hears.exec_pushChunk hs rfl (by simp [Receiver.create]) fun c hid₀ hseq hid₂ => ?_
  rw [hid] at hid₀ hid₂
  have hfind : exec (r.findFid c) s = (.ok fid, { s with hooks := h₁ }) := by
    rw [FileReceiver.findFid, exec_bind_ok (hid₀ s hs)]
    rfl
  have hcreate' : r.CanCreate { s with hooks := h₁ } fid f uuids := hcreate.congr rfl rfl
  have hfile := FileReceiver.exec_findFile_new (s := { s with hooks := h₁ }) hf hcreate'.exec_newFile
  have hdetect : exec (r.detectNewFile c fid v.sequence) { s.create fid f uuids with hooks := h₂ } =
      (.ok fid, { s.create fid f uuids with hooks := h₂ }) := by
    rw [FileReceiver.detectNewFile, exec_bind_ok (hid₂ _ rfl)]
    rfl
  rw [FileReceiver.locate, exec_bind_ok hfind, exec_bind_ok hfile, exec_bind_ok (hseq _ rfl)]
  exact exec_bind_ok hdetect _

/-- The chunk does not name its file, and goes on with the current one. -/
theorem push_current (hears : Hears r raw h₀ h₁ h₂ h₃ v isLast) (hs : s.hooks = h₀)
    (hid : v.fileId = none) (hcurrent : s.currentFile = some fid) (hf : s.files fid = some f)
    (hnext : ∀ seq, v.sequence = some seq → ∃ e, f.expectedSeq = some e ∧ e ≤ seq) :
    exec (r.pushChunk raw) s = ({ s with hooks := h₂ } : Receiver P σ).finish fid f v isLast h₃ := by
  refine hears.exec_pushChunk hs rfl hf fun c hid₀ hseq hid₂ => ?_
  rw [hid] at hid₀ hid₂
  have hfind : exec (r.findFid c) s = (.ok fid, { s with hooks := h₁ }) := by
    rw [FileReceiver.findFid, exec_bind_ok (hid₀ s hs)]
    simp [hcurrent]
  have hfile : exec (r.findFile fid) { s with hooks := h₁ } = (.ok (), { s with hooks := h₁ }) :=
    FileReceiver.exec_findFile hf
  have hdetect : exec (r.detectNewFile c fid v.sequence) { s with hooks := h₂ } =
      (.ok fid, { s with hooks := h₂ }) := by
    rw [FileReceiver.detectNewFile, exec_bind_ok (hid₂ _ rfl)]
    cases hv : v.sequence with
    | none => rfl
    | some seq =>
      obtain ⟨e, he, hle⟩ := hnext seq hv
      dsimp only
      rw [exec_bind_ok (exec_getFile (s := { s with hooks := h₂ }) hf), he]
      dsimp only
      rw [if_neg (not_lt.mpr hle), exec_pure]
  rw [FileReceiver.locate, exec_bind_ok hfind, exec_bind_ok hfile, exec_bind_ok (hseq _ rfl),
    exec_bind_ok hdetect]
  rfl

/-- The chunk does not name its file, and there is no current one. -/
theorem push_fresh (hears : Hears r raw h₀ h₁ h₂ h₃ v isLast) (hs : s.hooks = h₀)
    (hid : v.fileId = none) (hcurrent : s.currentFile = none)
    (hf : s.files (.int s.nextFid) = none) (hcreate : r.CanCreate s (.int s.nextFid) f uuids)
    (hnext : ∀ seq, v.sequence = some seq → 0 ≤ seq) :
    exec (r.pushChunk raw) s =
      ({ s.create (.int s.nextFid) f uuids with nextFid := s.nextFid + 1, hooks := h₂ } :
        Receiver P σ).finish (.int s.nextFid) f v isLast h₃ := by
  refine hears.exec_pushChunk hs rfl (by simp [Receiver.create]) fun c hid₀ hseq hid₂ => ?_
  rw [hid] at hid₀ hid₂
  have hfind : exec (r.findFid c) s =
      (.ok (.int s.nextFid), { s with nextFid := s.nextFid + 1, hooks := h₁ }) := by
    rw [FileReceiver.findFid, exec_bind_ok (hid₀ s hs)]
    dsimp only
    rw [exec_get_bind]
    dsimp only
    rw [hcurrent]
    rfl
  have hcreate' : r.CanCreate { s with nextFid := s.nextFid + 1, hooks := h₁ } (.int s.nextFid) f
      uuids := hcreate.congr rfl rfl
  have hfile := FileReceiver.exec_findFile_new
    (s := { s with nextFid := s.nextFid + 1, hooks := h₁ }) hf hcreate'.exec_newFile
  have hstored : ({ s.create (.int s.nextFid) f uuids with
      nextFid := s.nextFid + 1, hooks := h₂ } : Receiver P σ).files (.int s.nextFid) = some f := by
    simp [Receiver.create]
  have hdetect : exec (r.detectNewFile c (.int s.nextFid) v.sequence)
      { s.create (.int s.nextFid) f uuids with nextFid := s.nextFid + 1, hooks := h₂ } =
        (.ok (.int s.nextFid),
          { s.create (.int s.nextFid) f uuids with nextFid := s.nextFid + 1, hooks := h₂ }) := by
    rw [FileReceiver.detectNewFile, exec_bind_ok (hid₂ _ rfl)]
    cases hv : v.sequence with
    | none => rfl
    | some seq =>
      dsimp only
      rw [exec_bind_ok (exec_getFile hstored), hcreate.object]
      dsimp only
      rw [if_neg (not_lt.mpr (hnext seq hv)), exec_pure]
  rw [FileReceiver.locate, exec_bind_ok hfind, exec_bind_ok hfile, exec_bind_ok (hseq _ rfl)]
  exact exec_bind_ok hdetect _

/-- The chunk does not name its file, and its number is too low for the current one. -/
theorem push_decreased (hears : Hears r raw h₀ h₁ h₂ h₃ v isLast) (hs : s.hooks = h₀)
    (hid : v.fileId = none) (hcurrent : s.currentFile = some fid) {g : File P}
    (hg : s.files fid = some g) {seq e : ℤ} (hseq : v.sequence = some seq)
    (he : g.expectedSeq = some e) (hlt : seq < e)
    (hcreate : r.CanCreate s (.int s.nextFid) f uuids) :
    exec (r.pushChunk raw) s =
      ({ s.create (.int s.nextFid) f uuids with nextFid := s.nextFid + 1, hooks := h₂ } :
        Receiver P σ).finish (.int s.nextFid) f v isLast h₃ := by
  refine hears.exec_pushChunk hs rfl (by simp [Receiver.create]) fun c hid₀ hseq' hid₂ => ?_
  rw [hid] at hid₀ hid₂
  have hfind : exec (r.findFid c) s = (.ok fid, { s with hooks := h₁ }) := by
    rw [FileReceiver.findFid, exec_bind_ok (hid₀ s hs)]
    simp [hcurrent]
  have hfile : exec (r.findFile fid) { s with hooks := h₁ } = (.ok (), { s with hooks := h₁ }) :=
    FileReceiver.exec_findFile hg
  have hcreate' : r.CanCreate { s with nextFid := s.nextFid + 1, hooks := h₂ } (.int s.nextFid) f
      uuids := hcreate.congr rfl rfl
  have hdetect : exec (r.detectNewFile c fid v.sequence) { s with hooks := h₂ } =
      (.ok (.int s.nextFid),
        { s.create (.int s.nextFid) f uuids with nextFid := s.nextFid + 1, hooks := h₂ }) := by
    have htake : exec (takeNextFid : Method P σ FileId) { s with hooks := h₂ } =
        (.ok (.int s.nextFid), { s with nextFid := s.nextFid + 1, hooks := h₂ }) := rfl
    rw [FileReceiver.detectNewFile, exec_bind_ok (hid₂ _ rfl), hseq]
    dsimp only
    rw [exec_bind_ok (exec_getFile (s := { s with hooks := h₂ }) hg), he]
    dsimp only
    rw [if_pos hlt, exec_bind_ok htake, exec_bind_ok hcreate'.exec_newFile]
    rfl
  rw [FileReceiver.locate, exec_bind_ok hfind, exec_bind_ok hfile, exec_bind_ok (hseq' _ rfl)]
  exact exec_bind_ok hdetect _

/-- The chunk does not name its file, and does not go on with one. -/
theorem push_new (hears : Hears r raw h₀ h₁ h₂ h₃ v isLast) (hs : s.hooks = h₀)
    (hid : v.fileId = none) {seq : ℤ} (hseq : v.sequence = some seq) (hseq₀ : 0 ≤ seq)
    (hends : ∀ fid, s.currentFile = some fid →
      ∃ g e, s.files fid = some g ∧ g.expectedSeq = some e ∧ seq < e)
    (hf : s.files (.int s.nextFid) = none) (hcreate : r.CanCreate s (.int s.nextFid) f uuids) :
    exec (r.pushChunk raw) s =
      ({ s.create (.int s.nextFid) f uuids with nextFid := s.nextFid + 1, hooks := h₂ } :
        Receiver P σ).finish (.int s.nextFid) f v isLast h₃ := by
  cases hcurrent : s.currentFile with
  | none =>
    refine hears.push_fresh hs hid hcurrent hf hcreate fun seq' hseq' => ?_
    rw [hseq] at hseq'
    exact Option.some.inj hseq' ▸ hseq₀
  | some fid =>
    obtain ⟨g, e, hg, he, hlt⟩ := hends fid hcurrent
    exact hears.push_decreased hs hid hcurrent hg hseq he hlt hcreate

end Hears

end GrSatellites.Files
