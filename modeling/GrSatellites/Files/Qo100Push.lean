import GrSatellites.Files.Qo100Chunks

/-!
# Pushing the chunks of the QO-100 multimedia beacon

The first chunk opens a file, and each of the others goes on where the one before it ended.
-/

namespace GrSatellites.Files.Qo100

open Routine

variable {P : Type} [DecidableEq P] {lib : Pathlib P} {zipfile : Zipfile P} {path : P}

/-! ## The state after a chunk -/

variable (lib zipfile) in
/-- Unzipping a complete file changes another file on disk, if any. -/
theorem exec_onCompletion (f : File P) (s : Receiver P Unit) :
    ∃ t, exec (onCompletion lib zipfile f) s = (.ok (), t) ∧ t.files = s.files ∧
      t.completed = s.completed ∧ t.nextFid = s.nextFid ∧ t.disk f.path = s.disk f.path := by
  unfold onCompletion
  by_cases hzip : IsZip (zipfile.name f.path)
  · rw [if_pos hzip, exec_get_bind]
    cases zipfile.read ((s.disk f.path).getD []) (withoutExtension (zipfile.name f.path)) with
    | error e => exact ⟨s, exec_pure _ _, rfl, rfl, rfl, rfl⟩
    | ok data =>
      simp only
      cases lib.openFile (zipfile.sibling f.path (withoutExtension (zipfile.name f.path))) with
      | error e => exact ⟨s, exec_pure _ _, rfl, rfl, rfl, rfl⟩
      | ok =>
        exact ⟨_, exec_modify _ _, rfl, rfl, rfl,
          Function.update_of_ne (zipfile.sibling_ne f.path hzip).symm _ _⟩
  · rw [if_neg hzip]
    exact ⟨s, exec_pure _ _, rfl, rfl, rfl, rfl⟩

namespace Transmission

variable (x : Transmission)

/-- The id that the receiver gives to the file. -/
def fid : FileId := x.named.getD (.int 0)

/-- The file on a path holds what chunks `0` to `k` carry, and is reported complete if these
are all. -/
structure After (path : P) (k : ℕ) (s : Receiver P Unit) : Prop where
  current : k + 1 < x.total → s.currentFile = some x.fid
  file : s.files x.fid = some ⟨path, false, some (k + 1), min (chunkEnd k) x.file.length,
    some x.file.length, none⟩
  disk : s.disk path = some (x.file.take (chunkEnd k))
  completed : s.completed = if k + 1 = x.total then [x.fid] else []

variable {x} {k : ℕ}

variable (lib zipfile path) in
/-- A chunk whose data belong at the end of what has been written goes there. -/
theorem exec_writePiece {s : Receiver P Unit} {f : File P} {data : List Byte} {o : ℕ}
    (hk : k < x.total) (hdata : exec (chunkData (x.chunk k)) s = (.ok data, s))
    (hcurrent : s.currentFile = some x.fid) (hf : s.files x.fid = some f)
    (hbroken : f.broken = false) (hsize : f.size = some (x.file.length : ℤ))
    (hchunks : f.chunks = none) (hcompleted : s.completed = [])
    (hdisk : s.disk f.path = some (x.file.take o)) (ho : o ≤ x.file.length)
    (hpiece : x.file.take o ++ data = x.file.take (chunkEnd k)) :
    ∃ t, exec ((receiver lib zipfile path).writeChunk (x.chunk k) x.fid (some k) o) s =
      (.ok (), t) ∧ x.After f.path k t := by
  have hlength : o + data.length = min (chunkEnd k) x.file.length := by
    have := congrArg List.length hpiece
    rwa [List.length_append, List.length_take_of_le ho, List.length_take] at this
  have hlast : (receiver lib zipfile path).isLastChunk (x.chunk k) =
      pure (some (decide (k + 1 = x.total))) := by
    show (do return some (← isLastChunk (x.chunk k)) : Method P Unit _) = _
    rw [exec_isLast hk, pure_bind]
  have hwithin : ¬ f.size.any (· < (o : ℤ) + data.length) := by
    rw [hsize]
    simp only [Option.any_some, decide_eq_true_eq, not_lt]
    omega
  obtain ⟨f', hf'⟩ : ∃ f' : File P, f' = { f with
    writePointer := (o : ℤ) + data.length, expectedSeq := (some (k : ℤ)).map (· + 1) } := ⟨_, rfl⟩
  have hattributes : f' = ⟨f.path, false, some (k + 1), min (chunkEnd k) x.file.length,
      some x.file.length, none⟩ := by
    have hpointer : ((o : ℤ) + data.length) = ((min (chunkEnd k) x.file.length : ℕ) : ℤ) := by
      rw [← hlength, Nat.cast_add]
    rw [hf', hpointer, hbroken, hsize, hchunks, Nat.cast_min]
    rfl
  have hcomplete : f'.complete (some (decide (k + 1 = x.total))) =
      .ok (decide (k + 1 = x.total)) := by
    have hend := x.lt_total_iff (Nat.succ_pos k)
    rw [Nat.succ_sub_one] at hend
    rw [hattributes]
    by_cases hover : k + 1 = x.total
    · simp [File.complete, hover]
    · have hmore : chunkEnd k < x.file.length := hend.mp (by omega)
      simp [File.complete, hover, hmore]
  have hwritten : ((s.writeDisk f.path (o : ℤ).toNat data).setFile x.fid f').disk f.path =
      some (x.file.take (chunkEnd k)) := by
    have hat := ByteFile.writeAt_length (x.file.take o) data
    rw [List.length_take_of_le ho, hpiece] at hat
    simp [Receiver.setFile, Receiver.writeDisk, hdisk, hat]
  have hexec := FileReceiver.exec_writeChunk (r := receiver lib zipfile path) hdata hlast hf
    (Int.natCast_nonneg o) hwithin (some (k : ℤ)) hf'
  rw [hcomplete] at hexec
  by_cases hover : k + 1 = x.total
  · simp only [hover, decide_true] at hexec
    obtain ⟨t, hunzip, hfiles, hreported, -, hkept⟩ := exec_onCompletion lib zipfile f'
      { (s.writeDisk f.path (o : ℤ).toNat data).setFile x.fid f' with
        completed := s.completed ++ [x.fid] }
    have hpath : f'.path = f.path := by rw [hf']
    rw [hpath, hwritten] at hkept
    refine ⟨{ t with currentFile := none }, ?_, ?_, ?_, hkept, ?_⟩
    · rw [hexec]
      exact (exec_bind_ok hunzip _).trans (exec_modify _ _)
    · exact fun hmore => absurd hover hmore.ne
    · simp [hfiles, Receiver.setFile, hattributes]
    · simp [hreported, hcompleted, hover]
  · simp only [hover, decide_false] at hexec
    refine ⟨_, hexec, fun _ => hcurrent, ?_, hwritten, ?_⟩
    · simp [Receiver.setFile, hattributes]
    · rw [if_neg hover]
      exact hcompleted

/-- **The next chunk.** -/
theorem exec_pushNext {s : Receiver P Unit} {p : P} (h : x.After p k s) (hk : k + 1 < x.total)
    (hlt : k + 1 < 1024) :
    ∃ t, exec ((receiver lib zipfile path).pushChunk (x.chunk (k + 1))) s = (.ok (), t) ∧
      x.After p (k + 1) t := by
  have hcurrent := h.current hk
  have hdata := exec_chunkData (Nat.succ_pos k) hk hlt hcurrent h.file rfl
  have hbelow := (x.lt_total_iff (Nat.succ_pos k)).mp hk
  rw [Nat.succ_sub_one] at hbelow
  have hseq : (chunkSequence (x.chunk (k + 1)) : Method P Unit ℕ) = pure (k + 1) := by
    rw [chunkSequence_eq, Nat.mod_eq_of_lt hlt]
  have hoffset : (chunkOffset (x.chunk (k + 1)) : Method P Unit ℕ) = pure (chunkEnd k) := by
    rw [chunkOffset_eq, placeOf_eq (Nat.succ_pos k) hlt, Nat.succ_sub_one]
  have hid : (fileId (x.chunk (k + 1)) : Method P Unit _) = pure none := by
    rw [fileId, hseq, pure_bind, if_pos (Nat.succ_ne_zero k)]
  have hsize : (fileSize (x.chunk (k + 1)) : Method P Unit _) = pure none := by
    rw [fileSize, hseq, pure_bind, if_pos (Nat.succ_ne_zero k)]
  have hseq' : (receiver lib zipfile path).chunkSequence (x.chunk (k + 1)) =
      pure (some ((k + 1 : ℕ) : ℤ)) := by
    show (do return some ((← chunkSequence (x.chunk (k + 1)) : ℕ) : ℤ) : Method P Unit _) = _
    rw [hseq, pure_bind]
  have hoffset' : (receiver lib zipfile path).chunkOffset (x.chunk (k + 1)) =
      pure (some (chunkEnd k : ℤ)) := by
    show (do return some ((← chunkOffset (x.chunk (k + 1)) : ℕ) : ℤ) : Method P Unit _) = _
    rw [hoffset, pure_bind]
  have hpush := FileReceiver.exec_pushChunk_next (exec_parseChunk hk hdata) hid hcurrent h.file
    hseq' rfl (by push_cast; exact le_refl _) hsize rfl rfl rfl hoffset'
  rw [hpush]
  refine exec_writePiece lib zipfile path hk hdata hcurrent h.file rfl rfl rfl ?_ h.disk hbelow.le ?_
  · rw [h.completed, if_neg hk.ne]
  · exact x.take_append_piece (Nat.succ_pos k)

/-! ## The first chunk -/

section First

variable (lib zipfile path)

/-- The receiver creates the file that the first chunk names. -/
def createFirst (x : Transmission) : Method P Unit (File P) := do
  let fid ← (receiver lib zipfile path).findFid (x.chunk 0)
  (receiver lib zipfile path).newFile fid

variable {lib zipfile path} {disk : P → Option (List Byte)} {uuids : ℕ → String}

/-- A receiver that is about to write the first chunk. -/
structure Opened (x : Transmission) (path : P) (content : Option (List Byte))
    (s : Receiver P Unit) : Prop where
  current : s.currentFile = some x.fid
  file : s.files x.fid =
    some ⟨path, false, some 0, 0, some ((x.file.length % 2 ^ 24 : ℕ) : ℤ), none⟩
  disk : s.disk path = some (content.getD [])
  completed : s.completed = []
  fresh : ∀ k, x.fid = .int k → k < s.nextFid

variable (lib zipfile path disk uuids) in
/-- A file is named, or it gets the first number. -/
theorem exec_findFid_zero : ∃ s,
    exec ((receiver lib zipfile path).findFid (x.chunk 0)) (.init disk uuids ()) =
      (.ok x.fid, s) ∧ s.files = (fun _ => none) ∧ s.disk = disk ∧ s.completed = [] ∧
      ∀ k, x.fid = .int k → k < s.nextFid := by
  have hid : (receiver lib zipfile path).fileId (x.chunk 0) = pure x.named := fileId_zero
  unfold FileReceiver.findFid
  rw [hid, pure_bind]
  cases hnamed : x.named with
  | none =>
    have hfid : x.fid = .int 0 := by rw [fid, hnamed, Option.getD_none]
    rw [hfid]
    refine ⟨{ (Receiver.init disk uuids () : Receiver P Unit) with nextFid := 1 }, rfl, rfl, rfl,
      rfl, ?_⟩
    rintro k heq
    cases heq
    exact one_pos
  | some named =>
    have hfid : x.fid = named := by rw [fid, hnamed, Option.getD_some]
    rw [hfid]
    refine ⟨.init disk uuids (), rfl, rfl, rfl, rfl, ?_⟩
    rintro k rfl
    unfold Transmission.named at hnamed
    split at hnamed
    · cases hnamed
    · split_ifs at hnamed <;> cases hnamed

/-- **The first chunk.** It opens the file, and is then written or rejected. -/
theorem exec_pushFirst {f : File P} {t : Receiver P Unit}
    (hnew : exec (createFirst lib zipfile path x) (.init disk uuids ()) = (.ok f, t)) :
    ∃ s, exec ((receiver lib zipfile path).pushChunk (x.chunk 0)) (.init disk uuids ()) =
      exec ((receiver lib zipfile path).writeChunk (x.chunk 0) x.fid (some 0) 0) s ∧
      x.Opened f.path (disk f.path) s := by
  obtain ⟨s, hfind, hfiles, hdisk, hcompleted, hfresh⟩ := 
    exec_findFid_zero (x := x) lib zipfile path disk uuids
  unfold createFirst at hnew
  rw [exec_bind_ok hfind] at hnew
  obtain ⟨hf, names, ht⟩ := FileReceiver.exec_newFile_ok ⟨_, rfl⟩ hnew
  have hknown : t.files x.fid = some f := by rw [ht]; simp
  have hparse : exec ((receiver lib zipfile path).parseChunk (x.chunk 0)) (.init disk uuids ()) =
      (.ok (some (x.chunk 0)), .init disk uuids ()) :=
    exec_parseChunk x.total_pos (by rw [chunkData_zero, exec_pure])
  have hid : (receiver lib zipfile path).fileId (x.chunk 0) = pure x.named := fileId_zero
  have hseq : (receiver lib zipfile path).chunkSequence (x.chunk 0) = pure (some (0 : ℤ)) := by
    show (do return some ((← chunkSequence (x.chunk 0) : ℕ) : ℤ) : Method P Unit _) = _
    rw [chunkSequence_zero, pure_bind, Nat.cast_zero]
  have hoffset : (receiver lib zipfile path).chunkOffset (x.chunk 0) = pure (some (0 : ℤ)) := by
    show (do return some ((← chunkOffset (x.chunk 0) : ℕ) : ℤ) : Method P Unit _) = _
    rw [chunkOffset_zero, pure_bind, Nat.cast_zero]
  have hdetect : exec ((receiver lib zipfile path).detectNewFile (x.chunk 0) x.fid (some 0)) t =
      (.ok x.fid, t) := by
    unfold FileReceiver.detectNewFile
    rw [hid, pure_bind]
    cases x.named with
    | none =>
      simp only
      rw [exec_bind_ok (exec_getFile hknown), hf]
      rfl
    | some => rfl
  have hstored : ({ t with currentFile := some x.fid } : Receiver P Unit).files x.fid = some f :=
    hknown
  have hfill := FileReceiver.exec_fillFileData (r := receiver lib zipfile path)
    (v := ⟨none, none, none, [], none, some ((x.file.length % 2 ^ 24 : ℕ) : ℤ)⟩) fileSize_zero rfl
    hstored
  refine ⟨({ t with currentFile := some x.fid } : Receiver P Unit).setFile x.fid
    ⟨f.path, false, some 0, 0, some ((x.file.length % 2 ^ 24 : ℕ) : ℤ), none⟩, ?_, rfl, by simp,
    by simp [ht, Receiver.setFile, hdisk], by rw [ht]; exact hcompleted, by rw [ht]; exact hfresh⟩
  have hfilled : f.fill ⟨none, none, none, [], none, some ((x.file.length % 2 ^ 24 : ℕ) : ℤ)⟩ =
      ⟨f.path, false, some 0, 0, some ((x.file.length % 2 ^ 24 : ℕ) : ℤ), none⟩ := by
    rw [hf]
    rfl
  rw [hfilled] at hfill
  unfold FileReceiver.pushChunk
  rw [exec_bind_ok hparse]
  simp only
  rw [exec_bind_ok hfind, exec_bind_ok (FileReceiver.exec_findFile_new (by rw [hfiles]) hnew), hseq,
    pure_bind, exec_bind_ok hdetect, setCurrentFile, exec_modify_bind, exec_bind_ok hfill,
    exec_bind_ok (exec_getFile (Function.update_self _ _ _)), if_neg Bool.false_ne_true,
    exec_bind_ok (FileReceiver.exec_findOffset hoffset _)]

end First

end Transmission

end GrSatellites.Files.Qo100
