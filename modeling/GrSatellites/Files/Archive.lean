import GrSatellites.Files.Step

/-!
# The files that a receiver keeps

Seen from outside, a receiver keeps a content under each file id that it knows. A chunk that is
handled creates an empty file, or writes at a place of one, and leaves the other files alone.
-/

namespace GrSatellites.Files

open Function

variable {P σ R C : Type}

/-- Contents by file id. -/
abbrev Archive := FileId → Option (List Byte)

/-- Ids of files, and where the file of each is on disk. -/
structure Directory (P : Type) where
  ids : Set FileId
  place : FileId → P
  injOn : Set.InjOn place ids

/-- None of the files is on disk. -/
def Directory.Vacant (d : Directory P) (disk : P → Option (List Byte)) : Prop :=
  ∀ fid ∈ d.ids, disk (d.place fid) = none

/-- The files of a directory can be created. -/
def FileReceiver.Creates [DecidableEq P] (r : FileReceiver P σ R C) (d : Directory P) : Prop :=
  ∀ fid ∈ d.ids, ∃ filename, r.filename fid = pure filename ∧
    ∀ uuids, r.newPath filename uuids = (.ok (d.place fid), uuids)

/-- The files with the number of their id as name, and an extension. -/
def Directory.plain (path suffix : String) : Directory String where
  ids := Set.range .int
  place fid := path ++ "/" ++ (fid.toStr ++ suffix)
  injOn := by
    rintro - ⟨m, rfl⟩ - ⟨n, rfl⟩ hsame
    rw [String.append_right_inj, String.append_left_inj] at hsame
    exact congrArg FileId.int (Int.repr_injective hsame)

theorem FileReceiver.creates_plain {r : FileReceiver String σ R C} {path suffix : String}
    (hlib : r.lib = plainNames) (hpath : r.path = path)
    (hname : ∀ fid, r.filename fid = pure (fid.toStr ++ suffix)) :
    r.Creates (.plain path suffix) := by
  intro fid _
  refine ⟨_, hname fid, fun uuids => ?_⟩
  rw [newPath, hlib, hpath]
  rfl

/-- The object of a file that has just been created. -/
def File.created (path : P) : File P := ⟨path, false, some 0, 0, none, none⟩

/-- The files of a receiver are those of an archive, each in its place of a directory. The other
places are vacant. -/
structure Keeps (d : Directory P) (s : Receiver P σ) (a : Archive) : Prop where
  absent : ∀ fid, a fid = none → s.files fid = none
  stored : ∀ fid content, a fid = some content → fid ∈ d.ids ∧
    ∃ f, s.files fid = some f ∧ f.path = d.place fid ∧ s.disk (d.place fid) = some content
  vacant : ∀ fid ∈ d.ids, a fid = none → s.disk (d.place fid) = none

variable {d : Directory P}

theorem keeps_init {disk : P → Option (List Byte)} (hdisk : d.Vacant disk) (uuids : ℕ → String)
    (h : σ) : Keeps d (Receiver.init disk uuids h) fun _ => none where
  absent _ _ := rfl
  stored _ _ h := nomatch h
  vacant fid hfid _ := hdisk fid hfid

namespace Keeps

variable {s : Receiver P σ} {a : Archive} {fid : FileId} {f g : File P} {content : List Byte}

theorem exists_of_files (h : Keeps d s a) (hf : s.files fid = some f) :
    ∃ content, a fid = some content ∧ f.path = d.place fid ∧ s.disk f.path = some content := by
  cases ha : a fid with
  | none =>
    rw [h.absent fid ha] at hf
    cases hf
  | some content =>
    obtain ⟨-, g, hg, hpath, hdisk⟩ := h.stored fid content ha
    rw [hf] at hg
    obtain rfl := Option.some.inj hg
    exact ⟨content, rfl, hpath, by rw [hpath, hdisk]⟩

theorem path_eq (h : Keeps d s a) (hf : s.files fid = some f) : f.path = d.place fid := by
  obtain ⟨-, -, hpath, -⟩ := h.exists_of_files hf
  exact hpath

theorem disk_eq (h : Keeps d s a) (hf : s.files fid = some f) (ha : a fid = some content) :
    s.disk f.path = some content := by
  obtain ⟨content', ha', -, hdisk⟩ := h.exists_of_files hf
  rw [ha] at ha'
  obtain rfl := Option.some.inj ha'
  exact hdisk

/-- Two files are at different paths. -/
theorem distinct (h : Keeps d s a) {i j : FileId} (hf : s.files i = some f)
    (hg : s.files j = some g) (hpath : f.path = g.path) : i = j := by
  obtain ⟨content, hi, hfpath, -⟩ := h.exists_of_files hf
  obtain ⟨content', hj, hgpath, -⟩ := h.exists_of_files hg
  rw [hfpath, hgpath] at hpath
  exact d.injOn (h.stored i content hi).1 (h.stored j content' hj).1 hpath

/-- Only the objects of the files and the disk count. -/
theorem congr (h : Keeps d s a) {s' : Receiver P σ} (hfiles : s'.files = s.files)
    (hdisk : s'.disk = s.disk) : Keeps d s' a where
  absent := by
    rw [hfiles]
    exact h.absent
  stored := by
    rw [hfiles, hdisk]
    exact h.stored
  vacant := by
    rw [hdisk]
    exact h.vacant

theorem withHooks (h : Keeps d s a) (h' : σ) : Keeps d { s with hooks := h' } a := h.congr rfl rfl

/-- The attributes of a file may change, but not its path. -/
theorem setFile (h : Keeps d s a) (hf : s.files fid = some f) (hpath : g.path = f.path) :
    Keeps d (s.setFile fid g) a where
  absent i hi := by
    rw [Receiver.setFile_files, update_of_ne, h.absent i hi]
    rintro rfl
    rw [h.absent i hi] at hf
    cases hf
  stored i content hi := by
    obtain ⟨hids, k, hk, hkpath, hdisk⟩ := h.stored i content hi
    by_cases heq : i = fid
    · subst heq
      exact ⟨hids, g, by simp, by rw [hpath, h.path_eq hf], hdisk⟩
    · exact ⟨hids, k, by rw [Receiver.setFile_files, update_of_ne heq, hk], hkpath, hdisk⟩
  vacant := h.vacant

variable [DecidableEq P]

/-- A write into one file changes this file only. -/
theorem writeDisk (h : Keeps d s a) (hf : s.files fid = some f) (ha : a fid = some content)
    (position : ℕ) (data : List Byte) :
    Keeps d (s.writeDisk f.path position data)
      (update a fid (some (ByteFile.writeAt content position data))) where
  absent i hi := by
    rw [update_apply] at hi
    split at hi
    · cases hi
    · exact h.absent i hi
  stored i content' hi := by
    obtain ⟨hids, -⟩ := h.stored fid content ha
    rw [update_apply] at hi
    split at hi
    · subst i
      refine ⟨hids, f, hf, h.path_eq hf, ?_⟩
      have hdisk := h.disk_eq hf ha
      rw [h.path_eq hf] at hdisk ⊢
      simp [Receiver.writeDisk, hdisk, ← Option.some.inj hi]
    · obtain ⟨hids', k, hk, hkpath, hdisk⟩ := h.stored i content' hi
      have hne : d.place i ≠ f.path := by
        rw [h.path_eq hf]
        exact fun heq => ‹i ≠ fid› (d.injOn hids' hids heq)
      exact ⟨hids', k, hk, hkpath, by simp [Receiver.writeDisk, update_of_ne hne, hdisk]⟩
  vacant i hi hnone := by
    obtain ⟨hids, -⟩ := h.stored fid content ha
    rw [update_apply] at hnone
    split at hnone
    · cases hnone
    · have hne : d.place i ≠ f.path := by
        rw [h.path_eq hf]
        exact fun heq => ‹i ≠ fid› (d.injOn hi hids heq)
      simp [Receiver.writeDisk, update_of_ne hne, h.vacant i hi hnone]

/-- A file that is not known can be created. -/
theorem canCreate {r : FileReceiver P σ R C} (h : Keeps d s a) (hr : r.Creates d)
    (hfid : fid ∈ d.ids) (ha : a fid = none) :
    r.CanCreate s fid (.created (d.place fid)) s.uuids where
  filename := (hr fid hfid).imp fun _ hname => ⟨hname.1, hname.2 _⟩
  object := rfl
  absent := h.vacant fid hfid ha

/-- A new file is empty, and nothing else changes. -/
theorem create (h : Keeps d s a) (hfid : fid ∈ d.ids) :
    Keeps d (s.create fid (.created (d.place fid)) s.uuids) (update a fid (some [])) where
  absent i hi := by
    rw [update_apply] at hi
    split at hi
    · cases hi
    · rw [Receiver.create, Receiver.setFile_files, update_of_ne ‹_›]
      exact h.absent i hi
  stored i content hi := by
    rw [update_apply] at hi
    split at hi
    · subst i
      refine ⟨hfid, .created (d.place fid), by simp [Receiver.create], rfl, ?_⟩
      simp [Receiver.create, Receiver.setFile, File.created, ← Option.some.inj hi]
    · obtain ⟨hids, k, hk, hpath, hdisk⟩ := h.stored i content hi
      have hne : d.place i ≠ d.place fid := fun heq => ‹i ≠ fid› (d.injOn hids hfid heq)
      refine ⟨hids, k, ?_, hpath, ?_⟩
      · rw [Receiver.create, Receiver.setFile_files, update_of_ne ‹_›, hk]
      · simp [Receiver.create, Receiver.setFile, File.created, update_of_ne hne, hdisk]
  vacant i hi hnone := by
    rw [update_apply] at hnone
    split at hnone
    · cases hnone
    · have hne : d.place i ≠ d.place fid := fun heq => ‹i ≠ fid› (d.injOn hi hfid heq)
      simp [Receiver.create, Receiver.setFile, File.created, update_of_ne hne, h.vacant i hi hnone]

end Keeps

/-! ## One file of the archive -/

/-- A receiver that keeps an archive, and what a chunk is handled by: the object of one file, the
current file, the next id, and the state of the hooks. -/
structure Shows (d : Directory P) (s : Receiver P σ) (a : Archive) (fid : FileId) (f : File P)
    (current : Option FileId) (next : ℤ) (h : σ) : Prop where
  keeps : Keeps d s a
  file : s.files fid = some f
  current : s.currentFile = current
  next : s.nextFid = next
  hooks : s.hooks = h

namespace Shows

variable {s : Receiver P σ} {a : Archive} {fid : FileId} {f : File P} {current : Option FileId}
variable {next : ℤ} {h k : σ} {v : Chunk} {isLast : Option Bool} {content : List Byte}

theorem withHooks (hs : Shows d s a fid f current next h) (h' : σ) :
    Shows d { s with hooks := h' } a fid f current next h' :=
  ⟨hs.keeps.withHooks h', hs.file, hs.current, hs.next, rfl⟩

/-- The chunk is counted in for its file. -/
theorem fill (hs : Shows d s a fid f current next h) (v : Chunk) :
    Shows d (({ s with currentFile := some fid } : Receiver P σ).setFile fid (f.fill v)) a fid
      (f.fill v) (some fid) next h where
  keeps := Keeps.setFile (s := { s with currentFile := some fid }) (hs.keeps.congr rfl rfl) hs.file
    rfl
  file := by simp
  current := rfl
  next := hs.next
  hooks := hs.hooks

variable [DecidableEq P]

theorem create (hs : Keeps d s a) (hfid : fid ∈ d.ids) (next : ℤ) (h : σ) :
    Shows d { s.create fid (.created (d.place fid)) s.uuids with nextFid := next, hooks := h }
      (update a fid (some [])) fid (.created (d.place fid)) s.currentFile next h :=
  ⟨(hs.create hfid).congr rfl rfl, by simp [Receiver.create], rfl, rfl, rfl⟩

/-- A chunk of a broken file is dropped. -/
theorem finish_broken (hs : Shows d s a fid f current next h) (hbroken : f.broken = true) :
    Shows d (s.finish fid f v isLast k).2 a fid (f.fill v) (some fid) next h := by
  rw [Receiver.finish, if_pos hbroken]
  exact hs.fill v

/-- A chunk that is not the expected one breaks its file. -/
theorem finish_gap (hs : Shows d s a fid f current next h) (hbroken : f.broken = false)
    (hoffset : v.offset = none) {seq : ℤ} (hseq : v.sequence = some seq)
    (hgap : f.expectedSeq ≠ some seq) :
    Shows d (s.finish fid f v isLast k).2 a fid { f.fill v with broken := true } (some fid) next
      k := by
  rw [Receiver.finish, if_neg (by simp [hbroken]), hoffset, hseq]
  dsimp only
  rw [if_pos hgap]
  have hfilled := (hs.fill v).withHooks k
  exact ⟨hfilled.keeps.setFile hfilled.file rfl, by simp, hfilled.current, hfilled.next,
    hfilled.hooks⟩

/-- A chunk that is accepted is written at its offset. -/
theorem write (hs : Shows d s a fid f (some fid) next h) (ha : a fid = some content) {o : ℤ}
    (ho : 0 ≤ o) (hsize : ¬f.size.any (· < o + v.data.length)) {complete : Bool}
    (hcomplete : (f.advance v o).complete isLast = .ok complete) :
    Shows d (s.write fid f v isLast o).2
      (update a fid (some (ByteFile.writeAt content o.toNat v.data))) fid (f.advance v o)
      (if complete then none else some fid) next h := by
  have hwritten : Shows d ((s.writeDisk f.path o.toNat v.data).setFile fid (f.advance v o))
      (update a fid (some (ByteFile.writeAt content o.toNat v.data))) fid (f.advance v o)
      (some fid) next h :=
    ⟨(hs.keeps.writeDisk hs.file ha _ _).setFile (f := f) hs.file rfl, by simp, hs.current,
      hs.next, hs.hooks⟩
  rw [Receiver.write, if_neg hsize, if_neg (not_lt.mpr ho), hcomplete]
  cases complete with
  | false => exact hwritten
  | true =>
    exact ⟨hwritten.keeps.congr rfl rfl, hwritten.file, rfl, hwritten.next, hwritten.hooks⟩

/-- The chunk tells its offset. -/
theorem finish_offset (hs : Shows d s a fid f current next h) (hbroken : f.broken = false)
    (ha : a fid = some content) {o : ℤ} (hoffset : v.offset = some o) (ho : 0 ≤ o)
    (hsize : ¬(f.fill v).size.any (· < o + v.data.length)) {complete : Bool}
    (hcomplete : ((f.fill v).advance v o).complete isLast = .ok complete) :
    Shows d (s.finish fid f v isLast k).2
      (update a fid (some (ByteFile.writeAt content o.toNat v.data))) fid ((f.fill v).advance v o)
      (if complete then none else some fid) next k := by
  rw [Receiver.finish, if_neg (by simp [hbroken]), hoffset]
  exact ((hs.fill v).withHooks k).write ha ho hsize hcomplete

/-- The chunk is the expected one, and goes to the end of its file. -/
theorem finish_next (hs : Shows d s a fid f current next h) (hbroken : f.broken = false)
    (ha : a fid = some content) (hoffset : v.offset = none) {seq : ℤ}
    (hseq : v.sequence = some seq) (hexpected : f.expectedSeq = some seq)
    (hpointer : 0 ≤ f.writePointer)
    (hsize : ¬(f.fill v).size.any (· < f.writePointer + v.data.length)) {complete : Bool}
    (hcomplete : ((f.fill v).advance v f.writePointer).complete isLast = .ok complete) :
    Shows d (s.finish fid f v isLast k).2
      (update a fid (some (ByteFile.writeAt content f.writePointer.toNat v.data))) fid
      ((f.fill v).advance v f.writePointer) (if complete then none else some fid) next k := by
  rw [Receiver.finish, if_neg (by simp [hbroken]), hoffset, hseq]
  dsimp only
  rw [if_neg (not_not.mpr hexpected)]
  exact ((hs.fill v).withHooks k).write ha hpointer hsize hcomplete

end Shows

/-! ## Files without ids of their own -/

/-- The archive of a receiver that numbers its files. -/
def shelf (contents : List (List Byte)) : Archive
  | .int n => if 0 ≤ n then contents[n.toNat]? else none
  | .str _ => none

section Shelf

variable (contents : List (List Byte)) (content content' : List Byte)

theorem shelf_nil : shelf [] = fun _ => none := by
  funext fid
  cases fid <;> simp [shelf]

theorem shelf_int (n : ℤ) :
    shelf contents (.int n) = if 0 ≤ n then contents[n.toNat]? else none := rfl

@[simp] theorem shelf_natCast (n : ℕ) : shelf contents (.int n) = contents[n]? := by simp [shelf]

theorem shelf_length : shelf contents (.int contents.length) = none := by simp

theorem shelf_last : shelf (contents ++ [content]) (.int contents.length) = some content := by simp

/-- A file is added. -/
theorem update_shelf_length :
    update (shelf contents) (.int contents.length) (some content) =
      shelf (contents ++ [content]) := by
  funext fid
  cases fid with
  | str name => rfl
  | int n =>
    by_cases hlast : n = contents.length
    · subst hlast
      simp
    · rw [update_of_ne (by simpa using hlast), shelf_int, shelf_int]
      by_cases hn : 0 ≤ n
      · have hne : n.toNat ≠ contents.length := by omega
        rw [if_pos hn, if_pos hn]
        rcases Nat.lt_or_gt_of_ne hne with hlt | hgt
        · rw [List.getElem?_append_left hlt]
        · rw [List.getElem?_eq_none (by omega),
            List.getElem?_eq_none (by rw [List.length_append, List.length_singleton]; omega)]
      · rw [if_neg hn, if_neg hn]

/-- The last file gets another content. -/
theorem update_shelf_last :
    update (shelf (contents ++ [content])) (.int contents.length) (some content') =
      shelf (contents ++ [content']) := by
  rw [← update_shelf_length, update_idem, update_shelf_length]

end Shelf

end GrSatellites.Files
