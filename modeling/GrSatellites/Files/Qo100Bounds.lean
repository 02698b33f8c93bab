import GrSatellites.Files.Qo100Push

/-!
# The length of a file of the QO-100 multimedia beacon

Chunks have 10-bit sequence numbers, so that no chunk is written past the end of the last
one that these can count. A longer file is never put together.
-/

namespace GrSatellites.Files.Qo100

open Routine

variable {P : Type}

/-- The end of the last chunk that a sequence number can count. -/
def maxLength : ℕ := 164 + 219 * 1023

/-- The object of a file stays where it is, and its path holds no more than the longest file,
unless files have been completed other than this one once. -/
structure Within (fid : FileId) (path : P) (s : Receiver P Unit) : Prop where
  file : ∃ f, s.files fid = some f ∧ f.path = path
  fresh : ∀ k, fid = .int k → k < s.nextFid
  short : s.completed <+: [fid] → ((s.disk path).getD []).length ≤ maxLength

theorem length_writeAt_le (file data : List Byte) (position : ℕ) :
    (ByteFile.writeAt file position data).length ≤ max file.length (position + data.length) := by
  unfold ByteFile.writeAt
  split_ifs
  · exact le_max_left _ _
  · simp only [List.length_append, List.length_take, List.length_replicate, List.length_drop]
    omega

theorem placeOf_le (i : ℕ) : placeOf i + 219 ≤ maxLength := by
  unfold placeOf maxLength
  split_ifs <;> omega

variable {fid : FileId} {p : P}

namespace Within

/-! ## The steps of `push_chunk` -/

theorem takeNextFid : Ensures (Within fid p) (takeNextFid : Method P Unit FileId)
    fun new s => Within fid p s ∧ new ≠ fid := by
  rintro s ⟨hfile, hfresh, hshort⟩ new t hnew
  cases hnew
  refine ⟨⟨hfile, fun k hk => (hfresh k hk).trans (lt_add_one _), hshort⟩, ?_⟩
  rintro heq
  exact lt_irrefl _ (hfresh _ heq.symm)

theorem modifyFile (i : FileId) {g : File P → File P} (hg : ∀ f, (g f).path = f.path) :
    Ensures (Within fid p) (modifyFile i g : Method P Unit Unit) fun _ => Within fid p := by
  refine Ensures.modify fun s hs => ⟨?_, hs.fresh, hs.short⟩
  obtain ⟨f, hf, hpath⟩ := hs.file
  by_cases hi : fid = i
  · refine ⟨g f, ?_, (hg f).trans hpath⟩
    simp [← hi, hf]
  · exact ⟨f, by simp [Function.update_of_ne hi, hf], hpath⟩

theorem getFile (i : FileId) : Ensures (Within fid p) (getFile i : Method P Unit (File P))
    fun f s => Within fid p s ∧ s.files i = some f := by
  refine Ensures.get fun s hs => ?_
  cases hf : s.files i with
  | none => exact Ensures.throw
  | some f =>
    refine Ensures.pure ?_
    rintro t rfl
    exact ⟨hs, hf⟩

theorem setCurrentFile (i : Option FileId) :
    Ensures (Within fid p) (setCurrentFile i : Method P Unit Unit) fun _ => Within fid p :=
  Ensures.modify fun _ hs => ⟨hs.file, hs.fresh, hs.short⟩

/-- When a file has been completed, its own path is left alone. -/
theorem complete {s t : Receiver P Unit} (hs : Within fid p s) {i : FileId} {f : File P}
    (hf : s.files i = some f) (hfiles : t.files = s.files)
    (hcompleted : t.completed = s.completed ++ [i]) (hnext : t.nextFid = s.nextFid)
    (hdisk : t.disk f.path = s.disk f.path) : Within fid p t := by
  refine ⟨by rw [hfiles]; exact hs.file, by rw [hnext]; exact hs.fresh, fun hprefix => ?_⟩
  rw [hcompleted] at hprefix
  obtain ⟨hnone, rfl⟩ : s.completed = [] ∧ i = fid := by
    rcases hold : s.completed with _ | ⟨j, rest⟩
    · rw [hold, List.nil_append] at hprefix
      exact ⟨rfl, by simpa using hprefix⟩
    · rw [hold] at hprefix
      simpa using hprefix.length_le
  obtain ⟨g, hg, hpath⟩ := hs.file
  obtain rfl : g = f := Option.some.inj (hg.symm.trans hf)
  rw [← hpath, hdisk, hpath]
  exact hs.short (by rw [hnone]; exact List.nil_prefix)

variable [DecidableEq P] {lib : Pathlib P} {zipfile : Zipfile P} {path : P}

theorem newFile {new : FileId} (hne : new ≠ fid) :
    Ensures (Within fid p) ((receiver lib zipfile path).newFile new) fun _ => Within fid p := by
  rintro s ⟨hfile, hfresh, hshort⟩ f t hnew
  obtain ⟨-, names, rfl⟩ := FileReceiver.exec_newFile_ok ⟨_, rfl⟩ hnew
  refine ⟨?_, hfresh, fun hcompleted => ?_⟩
  · simpa [Receiver.setFile, Function.update_of_ne hne.symm] using hfile
  · show ((Function.update s.disk f.path _ p).getD []).length ≤ _
    by_cases hpath : p = f.path
    · rw [hpath, Function.update_self, Option.getD_some, ← hpath]
      exact hshort hcompleted
    · rw [Function.update_of_ne hpath]
      exact hshort hcompleted

theorem findFile (new : FileId) :
    Ensures (Within fid p) ((receiver lib zipfile path).findFile new) fun _ => Within fid p := by
  refine Ensures.get fun s hs => ?_
  cases hnew : s.files new with
  | some f =>
    refine Ensures.pure ?_
    rintro t rfl
    exact hs
  | none =>
    have hne : new ≠ fid := by
      rintro rfl
      obtain ⟨f, hf, -⟩ := hs.file
      rw [hf] at hnew
      cases hnew
    refine Ensures.bind (Ensures.mono (newFile hne) ?_) fun _ => Ensures.pure fun _ h => h
    rintro t rfl
    exact hs

theorem detectNewFile {chunk : List Byte} {o : Option FileId}
    (hid : (receiver lib zipfile path).fileId chunk = pure o) (i : FileId) (seq : Option ℤ) :
    Ensures (Within fid p) ((receiver lib zipfile path).detectNewFile chunk i seq)
      fun _ => Within fid p := by
  unfold FileReceiver.detectNewFile
  rw [hid, pure_bind]
  cases o with
  | some => exact Ensures.pure fun _ h => h
  | none =>
    cases seq with
    | none => exact Ensures.pure fun _ h => h
    | some seq =>
      refine Ensures.bind (getFile i) fun f => ?_
      cases f.expectedSeq with
      | none => exact Ensures.throw
      | some expected =>
        simp only
        split_ifs
        · refine Ensures.bind (Ensures.mono takeNextFid fun _ h => h.1) fun new => ?_
          by_cases hne : new = fid
          · exact fun _ h => absurd hne h.2
          · exact Ensures.bind (Ensures.mono (newFile hne) fun _ h => h.1) fun _ =>
              Ensures.pure fun _ h => h
        · exact Ensures.pure fun _ h => h.1

theorem fillFileData {chunk : List Byte} {size : Option ℤ}
    (hsize : (receiver lib zipfile path).fileSize chunk = pure size) (i : FileId) :
    Ensures (Within fid p) ((receiver lib zipfile path).fillFileData i chunk)
      fun _ => Within fid p := by
  have hchunks : (receiver lib zipfile path).fileChunks chunk = pure none := rfl
  have hrest : Ensures (Within fid p) (do
      if (← Files.getFile i).chunks.isNone then
        let chunks ← (receiver lib zipfile path).fileChunks chunk
        Files.modifyFile i fun f => { f with chunks := chunks } : Method P Unit Unit)
      fun _ => Within fid p := by
    refine Ensures.bind (getFile i) fun f => ?_
    rw [hchunks, pure_bind]
    split_ifs
    · exact Ensures.mono (modifyFile i fun _ => rfl) fun _ h => h.1
    · exact Ensures.pure fun _ h => h.1
  unfold FileReceiver.fillFileData
  refine Ensures.bind (getFile i) fun f => ?_
  rw [hsize]
  split_ifs
  · rw [pure_bind]
    exact Ensures.bind (Ensures.mono (modifyFile i fun _ => rfl) fun _ h => h.1) fun _ => hrest
  · exact Ensures.mono hrest fun _ h => h.1

/-- Data that end within the longest file may be written anywhere. -/
theorem writeChunk {chunk : List Byte} {isLast : Option Bool} {data : List Byte} {o : ℕ}
    (hlast : (receiver lib zipfile path).isLastChunk chunk = pure isLast)
    (hend : o + data.length ≤ maxLength) {s t : Receiver P Unit}
    (hdata : exec ((receiver lib zipfile path).chunkData chunk) s = (.ok data, s)) (hs : Within fid p s) {i : FileId}
    {seq : Option ℤ}
    (ht : exec ((receiver lib zipfile path).writeChunk chunk i seq o) s = (.ok (), t)) :
    Within fid p t := by
  cases hf : s.files i with
  | none =>
    have hmissing : exec (Files.getFile i) s = (.error .keyError, s) := by simp [Files.getFile, hf]
    unfold FileReceiver.writeChunk at ht
    rw [exec_bind_ok hdata, exec_bind_error hmissing] at ht
    cases ht
  | some f =>
    by_cases hsize : f.size.any (· < (o : ℤ) + data.length)
    · unfold FileReceiver.writeChunk at ht
      rw [exec_bind_ok hdata, exec_bind_ok (exec_getFile hf), if_pos hsize] at ht
      cases ht
      exact hs
    · obtain ⟨f', hf'⟩ : ∃ f' : File P, f' = { f with
        writePointer := (o : ℤ) + data.length, expectedSeq := seq.map (· + 1) } := ⟨_, rfl⟩
      have hwritten : Within fid p ((s.writeDisk f.path (o : ℤ).toNat data).setFile i f') := by
        refine ⟨?_, hs.fresh, fun hcompleted => ?_⟩
        · obtain ⟨g, hg, hpath⟩ := hs.file
          by_cases hi : fid = i
          · rw [← hi, hg] at hf
            refine ⟨f', by simp [hi], ?_⟩
            rw [hf', ← hpath, Option.some.inj hf]
          · exact ⟨g, by simp [Function.update_of_ne hi, Receiver.writeDisk, hg], hpath⟩
        · show ((Function.update s.disk f.path _ p).getD []).length ≤ _
          by_cases hpath : p = f.path
          · rw [hpath, Function.update_self, Option.getD_some, Int.toNat_natCast, ← hpath]
            exact (length_writeAt_le _ _ _).trans (max_le (hs.short hcompleted) hend)
          · rw [Function.update_of_ne hpath]
            exact hs.short hcompleted
      rw [FileReceiver.exec_writeChunk hdata hlast hf (Int.natCast_nonneg o) hsize seq hf'] at ht
      cases hcomplete : f'.complete isLast with
      | error e =>
        rw [hcomplete] at ht
        cases ht
      | ok b =>
        rw [hcomplete] at ht
        cases b with
        | false =>
          cases ht
          exact hwritten
        | true =>
          obtain ⟨u, hunzip, hfiles, hreported, hnext, hkept⟩ := exec_onCompletion lib zipfile f'
            { (s.writeDisk f.path (o : ℤ).toNat data).setFile i f' with
              completed := s.completed ++ [i] }
          have hdone : t = { u with currentFile := none } := by
            have hrun := ht.symm.trans ((exec_bind_ok hunzip _).trans (exec_modify _ _))
            exact congrArg Prod.snd hrun
          rw [hdone]
          exact hwritten.complete (by simp) hfiles hreported hnext hkept

end Within

namespace Transmission

variable {x : Transmission} {i : ℕ}

theorem exec_lastLength_state (s : Receiver P Unit) (data : List Byte) :
    ∃ result, exec (lastLength (x.chunk i) data) s = (result, s) := by
  unfold lastLength
  rw [exec_get_bind, chunkOffset_eq]
  cases s.currentFile with
  | none => exact ⟨_, exec_pure _ _⟩
  | some fid =>
    cases hf : s.files fid with
    | none =>
      have hmissing : exec (getFile fid) s = (.error .keyError, s) := by simp [getFile, hf]
      exact ⟨_, exec_bind_error hmissing _⟩
    | some f =>
      simp only
      rw [exec_bind_ok (exec_getFile hf)]
      cases f.size with
      | none => exact ⟨_, exec_throw _ _⟩
      | some size => exact ⟨_, exec_pure _ _⟩

/-- The data of a chunk end at the next place that a sequence number can count. -/
theorem exec_chunkData_le (s : Receiver P Unit) : ∃ result,
    exec (chunkData (x.chunk i)) s = (result, s) ∧
      ∀ data, result = .ok data → placeOf i + data.length ≤ maxLength := by
  have hbound := placeOf_le i
  have hlength := x.length_chunk i
  unfold chunkData
  rw [chunkSequence_eq, pure_bind]
  split_ifs with hzero
  · refine ⟨_, exec_pure _ _, ?_⟩
    rintro data heq
    cases heq
    rw [List.length_drop]
    omega
  · have hdrop : ((x.chunk i).drop 2).length = 219 := by rw [List.length_drop, hlength]
    rw [isLastChunk_eq, pure_bind]
    split_ifs
    · obtain ⟨result, hresult⟩ := exec_lastLength_state (i := i) s ((x.chunk i).drop 2)
      cases result with
      | error e =>
        refine ⟨.error e, exec_bind_error hresult _, ?_⟩
        rintro data heq
        cases heq
      | ok n =>
        refine ⟨_, (exec_bind_ok hresult _).trans (exec_pure _ _), ?_⟩
        rintro data heq
        cases heq
        have := Segmentation.length_sliceTo_le ((x.chunk i).drop 2) n
        omega
    · refine ⟨_, exec_pure _ _, ?_⟩
      rintro data heq
      cases heq
      rwa [hdrop]

/-- A chunk is dropped, or handled as it is. -/
theorem exec_parseChunk_state (s : Receiver P Unit) :
    ∃ parsed, exec (parseChunk (x.chunk i)) s = (.ok parsed, s) ∧
      ∀ chunk, parsed = some chunk → chunk = x.chunk i := by
  obtain ⟨result, hdata, -⟩ := exec_chunkData_le (x := x) (i := i) s
  unfold parseChunk
  rw [frameType_eq, pure_bind, if_neg (not_le.mpr x.type_lt), isLastChunk_eq, pure_bind]
  split_ifs
  · rw [exec_tryCatch]
    cases result with
    | error e =>
      rw [exec_bind_error hdata]
      exact ⟨none, rfl, by simp⟩
    | ok data =>
      rw [exec_bind_ok hdata]
      exact ⟨some (x.chunk i), rfl, by simp⟩
  · exact ⟨some (x.chunk i), rfl, by simp⟩

theorem fileId_eq_pure : ∃ o, (fileId (x.chunk i) : Method P Unit _) = pure o := by
  unfold fileId
  rw [chunkSequence_eq, pure_bind, frameType_eq]
  split_ifs
  · exact ⟨none, rfl⟩
  · cases asciiName (((x.chunk i).drop 2).take 50) with
    | none => exact ⟨none, rfl⟩
    | some name =>
      simp only [pure_bind]
      split_ifs
      · exact ⟨_, rfl⟩
      · exact ⟨_, rfl⟩

theorem fileSize_eq_pure : ∃ size, (fileSize (x.chunk i) : Method P Unit _) = pure size := by
  have hbyte (j : ℕ) (hj : j < 221) :
      ∃ n, (byteOf (x.chunk i) j : Method P Unit ℕ) = pure n := by
    rw [← x.length_chunk i] at hj
    exact ⟨_, byteOf_eq_pure (List.getElem?_eq_getElem hj)⟩
  obtain ⟨high, hhigh⟩ := hbyte 54 (by norm_num)
  obtain ⟨middle, hmiddle⟩ := hbyte 55 (by norm_num)
  obtain ⟨low, hlow⟩ := hbyte 56 (by norm_num)
  unfold fileSize
  rw [chunkSequence_eq, pure_bind, hhigh, hmiddle, hlow]
  split_ifs
  · exact ⟨none, rfl⟩
  · exact ⟨_, rfl⟩

/-- **One chunk.** Pushing any chunk keeps a file within the longest one. -/
theorem pushChunk_within [DecidableEq P] {lib : Pathlib P} {zipfile : Zipfile P} {path : P} :
    Ensures (Within fid p) ((receiver lib zipfile path).pushChunk (x.chunk i))
      fun _ => Within fid p := by
  have hseq : (receiver lib zipfile path).chunkSequence (x.chunk i) =
      pure (some ((i % 1024 : ℕ) : ℤ)) := by
    show (do return some ((← chunkSequence (x.chunk i) : ℕ) : ℤ) : Method P Unit _) = _
    rw [chunkSequence_eq, pure_bind]
  have hoffset : (receiver lib zipfile path).chunkOffset (x.chunk i) =
      pure (some (placeOf i : ℤ)) := by
    show (do return some ((← chunkOffset (x.chunk i) : ℕ) : ℤ) : Method P Unit _) = _
    rw [chunkOffset_eq, pure_bind]
  have hlast : (receiver lib zipfile path).isLastChunk (x.chunk i) =
      pure (some (decide (x.status i = 2 ∨ x.status i = 3))) := by
    show (do return some (← isLastChunk (x.chunk i)) : Method P Unit _) = _
    rw [isLastChunk_eq, pure_bind]
  obtain ⟨o, hid⟩ : ∃ o, (receiver lib zipfile path).fileId (x.chunk i) = pure o := fileId_eq_pure
  obtain ⟨size, hsize⟩ : ∃ size, (receiver lib zipfile path).fileSize (x.chunk i) = pure size :=
    fileSize_eq_pure
  have hparse : Ensures (Within fid p) ((receiver lib zipfile path).parseChunk (x.chunk i))
      fun parsed s => Within fid p s ∧ ∀ chunk, parsed = some chunk → chunk = x.chunk i := by
    intro s hs parsed t ht
    obtain ⟨parsed', hparsed, hchunk⟩ := exec_parseChunk_state (x := x) (i := i) s
    cases hparsed.symm.trans ht
    exact ⟨hs, hchunk⟩
  have hfind : Ensures (Within fid p) ((receiver lib zipfile path).findFid (x.chunk i))
      fun _ => Within fid p := by
    unfold FileReceiver.findFid
    rw [hid, pure_bind]
    cases o with
    | some => exact Ensures.pure fun _ h => h
    | none =>
      refine Ensures.get fun s hs => ?_
      cases s.currentFile with
      | some => exact Ensures.pure (by rintro t rfl; exact hs)
      | none =>
        intro u hu new t ht
        exact (Within.takeNextFid u (hu ▸ hs) new t ht).1
  have hwrite (j : FileId) : Ensures (Within fid p) ((receiver lib zipfile path).writeChunk
      (x.chunk i) j (some ((i % 1024 : ℕ) : ℤ)) (placeOf i : ℤ)) fun _ => Within fid p := by
    intro s hs u t ht
    obtain ⟨result, hdata, hend⟩ := exec_chunkData_le (x := x) (i := i) s
    cases result with
    | error e =>
      have hraise : exec ((receiver lib zipfile path).chunkData (x.chunk i)) s = (.error e, s) :=
        hdata
      unfold FileReceiver.writeChunk at ht
      rw [exec_bind_error hraise] at ht
      cases ht
    | ok data => exact Within.writeChunk hlast (hend data rfl) hdata hs ht
  unfold FileReceiver.pushChunk
  refine Ensures.bind hparse fun parsed => ?_
  cases parsed with
  | none => exact Ensures.pure fun _ h => h.1
  | some chunk =>
    intro s hs
    obtain rfl := hs.2 chunk rfl
    refine (?_ : Ensures (Within fid p) _ fun _ => Within fid p) s hs.1
    simp only
    rw [hseq]
    refine Ensures.bind hfind fun j => Ensures.bind (Within.findFile j) fun _ => ?_
    rw [pure_bind]
    refine Ensures.bind (Within.detectNewFile hid j _) fun j => ?_
    refine Ensures.bind (Within.setCurrentFile _) fun _ => ?_
    refine Ensures.bind (Within.fillFileData hsize j) fun _ => ?_
    refine Ensures.bind (Within.getFile j) fun f => ?_
    split_ifs
    · exact Ensures.pure fun _ h => h.1
    · rw [FileReceiver.findOffset, hoffset, pure_bind]
      simp only [pure_bind]
      exact Ensures.mono (hwrite j) fun _ h => h.1

end Transmission

end GrSatellites.Files.Qo100
