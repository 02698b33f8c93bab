import GrSatellites.Files.Qo100Bounds

/-!
# Files of the QO-100 multimedia beacon

A file is put together from its chunks exactly if its first chunk is full and its chunks do
not outnumber the sequence numbers. The only chunk of a shorter file is not trimmed, and is
rejected; the first chunk after the last sequence number is taken for the start of a file.
-/

namespace GrSatellites.Files.Qo100

open Routine

variable {P : Type} [DecidableEq P]

section Runs

variable (lib : Pathlib P) (zipfile : Zipfile P) (path : P) (disk : P → Option (List Byte))
variable (uuids : ℕ → String) (x : Transmission)

/-- A new receiver after the first `k` chunks of a file. -/
def run (k : ℕ) : Except PyError Unit × Receiver P Unit :=
  exec (forM (x.chunks.take k) (receiver lib zipfile path).pushChunk) (.init disk uuids ())

/-- Every chunk is written when it is pushed, so that in the end the file is there, and it is
reported complete with the last chunk. -/
structure Reassembles : Prop where
  accepted : ∀ i < x.total, ∃ t f, run lib zipfile path disk uuids x (i + 1) = (.ok (), t) ∧
    t.files x.fid = some f ∧ t.disk f.path = some (x.file.take (Transmission.chunkEnd i))
  whole : ∃ t f, run lib zipfile path disk uuids x x.total = (.ok (), t) ∧
    t.files x.fid = some f ∧ t.disk f.path = some x.file
  reported : ∀ i < x.total, (run lib zipfile path disk uuids x (i + 1)).2.completed =
    if i + 1 = x.total then [x.fid] else []

/-- The file that the first chunk names can be created, on a path that is not in use. -/
def CreatesFile : Prop :=
  ∃ f t, exec (Transmission.createFirst lib zipfile path x) (.init disk uuids ()) = (.ok f, t) ∧
    disk f.path = none

variable {lib zipfile path disk uuids x}

theorem take_succ_chunks {k : ℕ} (hk : k < x.total) :
    x.chunks.take (k + 1) = x.chunks.take k ++ [x.chunk k] := by
  have hlength : k < x.chunks.length := by simpa [Transmission.chunks] using hk
  rw [List.take_succ_eq_append_getElem hlength]
  simp [Transmission.chunks]

theorem chunks_eq_cons :
    ∃ rest, x.chunks = x.chunk 0 :: rest ∧ ∀ c ∈ rest, ∃ i, c = x.chunk i := by
  obtain ⟨m, hm⟩ := Nat.exists_eq_add_of_lt x.total_pos
  refine ⟨((List.range m).map Nat.succ).map x.chunk, ?_, ?_⟩
  · rw [Transmission.chunks, hm, Nat.zero_add, List.range_succ_eq_map, List.map_cons]
  · rintro c hc
    obtain ⟨i, -, rfl⟩ := List.mem_map.mp hc
    exact ⟨i, rfl⟩

theorem run_succ {k : ℕ} (hk : k < x.total) {t : Receiver P Unit}
    (hrun : run lib zipfile path disk uuids x k = (.ok (), t)) :
    run lib zipfile path disk uuids x (k + 1) =
      exec ((receiver lib zipfile path).pushChunk (x.chunk k)) t := by
  unfold run at hrun ⊢
  rw [take_succ_chunks hk, List.forM_append, exec_bind_ok hrun, List.forM_cons, List.forM_nil, bind_pure_unit]

theorem run_one : run lib zipfile path disk uuids x 1 =
    exec ((receiver lib zipfile path).pushChunk (x.chunk 0)) (.init disk uuids ()) :=
  run_succ x.total_pos rfl

theorem take_chunkEnd_last {i : ℕ} (hi : i + 1 = x.total) :
    x.file.take (Transmission.chunkEnd i) = x.file := by
  have hlast := (x.lt_total_iff (Nat.succ_pos i)).not.mp (by omega)
  exact List.take_of_length_le (not_lt.mp hlast)

/-- **Runs.** A file of a length between the bounds is there up to the end of each chunk. -/
theorem after_run {f : File P} {t : Receiver P Unit}
    (hnew : exec (Transmission.createFirst lib zipfile path x) (.init disk uuids ()) = (.ok f, t))
    (hempty : disk f.path = none) (hfull : 164 ≤ x.file.length)
    (hshort : x.file.length ≤ maxLength) {i : ℕ} (hi : i < x.total) :
    ∃ t, run lib zipfile path disk uuids x (i + 1) = (.ok (), t) ∧ x.After f.path i t := by
  induction i with
  | zero =>
    obtain ⟨s, hpush, hopened⟩ := Transmission.exec_pushFirst hnew
    have hsize : x.file.length % 2 ^ 24 = x.file.length :=
      Nat.mod_eq_of_lt (hshort.trans_lt (by norm_num [maxLength]))
    have hdata : exec (chunkData (x.chunk 0)) s = (.ok (x.file.take 164), s) := by
      rw [Transmission.chunkData_zero, x.padded_of_length (List.length_take_of_le hfull), exec_pure]
    have hf := hopened.file
    rw [hsize] at hf
    have hdisk := hopened.disk
    rw [hempty] at hdisk
    rw [run_one, hpush]
    have hwrite := Transmission.exec_writePiece (o := 0) lib zipfile path hi hdata hopened.current
      hf rfl rfl rfl hopened.completed hdisk (Nat.zero_le _) rfl
    exact hwrite
  | succ i ih =>
    obtain ⟨t, hrun, hafter⟩ := ih (Nat.lt_of_succ_lt hi)
    have hbelow := (x.lt_total_iff (Nat.succ_pos i)).mp hi
    have hcount : i + 1 < 1024 := by
      unfold maxLength at hshort
      rw [Nat.succ_sub_one, Transmission.chunkEnd] at hbelow
      omega
    rw [run_succ hi hrun]
    exact Transmission.exec_pushNext hafter hi hcount

/-- The only chunk of a short file is rejected. -/
theorem not_accepted_of_short {f : File P} {t : Receiver P Unit}
    (hnew : exec (Transmission.createFirst lib zipfile path x) (.init disk uuids ()) = (.ok f, t))
    (hempty : disk f.path = none) (hshort : x.file.length < 164) :
    ¬ Reassembles lib zipfile path disk uuids x := by
  intro h
  obtain ⟨t, g, hrun, hg, hdisk⟩ := h.accepted 0 x.total_pos
  obtain ⟨s, hpush, hopened⟩ := Transmission.exec_pushFirst hnew
  have hdata : (receiver lib zipfile path).chunkData (x.chunk 0) =
      pure (x.padded 164 (x.file.take 164)) := Transmission.chunkData_zero
  have hlength := x.length_padded (List.length_take_le 164 x.file)
  have hreject := FileReceiver.exec_writeChunk_reject
    (v := ⟨none, some 0, none, x.padded 164 (x.file.take 164), none, none⟩) (o := 0) hdata
    hopened.file (by
      have hsize : x.file.length % 2 ^ 24 = x.file.length := Nat.mod_eq_of_lt (by omega)
      rw [hsize]
      simp only [Option.any_some, decide_eq_true_eq, hlength]
      omega)
  have hs : s = t := by
    rw [run_one, hpush, hreject] at hrun
    exact congrArg Prod.snd hrun
  rw [← hs] at hg hdisk
  rw [hopened.file] at hg
  rw [← Option.some.inj hg, hopened.disk, hempty] at hdisk
  have hnil := Option.some.inj hdisk
  have htake := congrArg List.length hnil
  have hpos := List.length_pos_iff.mpr x.file_ne_nil
  rw [List.length_take, Transmission.chunkEnd, Option.getD_none, List.length_nil] at htake
  omega

/-- A file stays within the longest one as long as its chunks are pushed. -/
theorem within_run {f : File P} {t : Receiver P Unit}
    (hnew : exec (Transmission.createFirst lib zipfile path x) (.init disk uuids ()) = (.ok f, t))
    (hempty : disk f.path = none) {k : ℕ} {u : Receiver P Unit}
    (hrun : run lib zipfile path disk uuids x (k + 1) = (.ok (), u)) :
    Within x.fid f.path u := by
  obtain ⟨s, hpush, hopened⟩ := Transmission.exec_pushFirst hnew
  have hstart : Within x.fid f.path s := by
    refine ⟨⟨_, hopened.file, rfl⟩, hopened.fresh, fun _ => ?_⟩
    rw [hopened.disk, hempty]
    exact Nat.zero_le _
  have hfirst (v : Receiver P Unit) (hv : exec ((receiver lib zipfile path).writeChunk (x.chunk 0)
      x.fid (some 0) 0) s = (.ok (), v)) : Within x.fid f.path v := by
    have hlast : (receiver lib zipfile path).isLastChunk (x.chunk 0) =
        pure (some (decide (x.status 0 = 2 ∨ x.status 0 = 3))) := by
      show (do return some (← isLastChunk (x.chunk 0)) : Method P Unit _) = _
      rw [Transmission.isLastChunk_eq, pure_bind]
    have hdata : exec ((receiver lib zipfile path).chunkData (x.chunk 0)) s =
        (.ok (x.padded 164 (x.file.take 164)), s) := by
      rw [show (receiver lib zipfile path).chunkData (x.chunk 0) = _ from
        Transmission.chunkData_zero, exec_pure]
    refine Within.writeChunk (o := 0) hlast ?_ hdata hstart hv
    rw [x.length_padded (List.length_take_le 164 x.file)]
    norm_num [maxLength]
  obtain ⟨rest, hchunks, hrest⟩ := chunks_eq_cons (x := x)
  unfold run at hrun
  rw [hchunks, List.take_succ_cons, List.forM_cons, exec_bind, hpush] at hrun
  rcases hresult : exec ((receiver lib zipfile path).writeChunk (x.chunk 0) x.fid (some 0) 0) s
    with ⟨_ | ⟨⟩, v⟩
  · rw [hresult] at hrun
    cases hrun
  · rw [hresult] at hrun
    have hloop : Ensures (Within x.fid f.path)
        (forM (rest.take k) (receiver lib zipfile path).pushChunk) fun _ => Within x.fid f.path := by
      refine Ensures.forM fun c hc => ?_
      obtain ⟨i, rfl⟩ := hrest c (List.mem_of_mem_take hc)
      exact Transmission.pushChunk_within
    exact hloop v (hfirst v hresult) () u hrun

/-- The chunks of a long file do not all go to their places. -/
theorem not_accepted_of_long {f : File P} {t : Receiver P Unit}
    (hnew : exec (Transmission.createFirst lib zipfile path x) (.init disk uuids ()) = (.ok f, t))
    (hempty : disk f.path = none) (hlong : maxLength < x.file.length) :
    ¬ Reassembles lib zipfile path disk uuids x := by
  intro h
  have hmany : 1024 < x.total := (x.lt_total_iff (by norm_num)).mpr hlong
  obtain ⟨u, g, hrun, hg, hdisk⟩ := h.accepted 1024 hmany
  have hreported := h.reported 1024 hmany
  rw [hrun] at hreported
  obtain ⟨⟨g', hg', hpath⟩, -, hbound⟩ := within_run hnew hempty hrun
  obtain rfl : g' = g := Option.some.inj (hg'.symm.trans hg)
  have hle := hbound (by
    rw [hreported]
    split_ifs
    · exact List.prefix_refl _
    · exact List.nil_prefix)
  rw [← hpath, hdisk, Option.getD_some, List.length_take, Transmission.chunkEnd] at hle
  unfold maxLength at hle hlong
  omega

end Runs

/-- **Reassembly.** -/
theorem reassembles_iff (lib : Pathlib P) (zipfile : Zipfile P) (path : P)
    (disk : P → Option (List Byte)) (uuids : ℕ → String) (x : Transmission)
    (hcreate : CreatesFile lib zipfile path disk uuids x) :
    Reassembles lib zipfile path disk uuids x ↔
      164 ≤ x.file.length ∧ x.file.length ≤ 164 + 219 * 1023 := by
  obtain ⟨f, t, hnew, hempty⟩ := hcreate
  constructor
  · intro h
    by_contra hnot
    rcases not_and_or.mp hnot with hshort | hlong
    · exact not_accepted_of_short hnew hempty (not_le.mp hshort) h
    · exact not_accepted_of_long hnew hempty (not_le.mp hlong) h
  · rintro ⟨hfull, hshort⟩
    refine ⟨fun i hi => ?_, ?_, fun i hi => ?_⟩
    · obtain ⟨t, hrun, hafter⟩ := after_run hnew hempty hfull hshort hi
      exact ⟨t, _, hrun, hafter.file, hafter.disk⟩
    · have hpos := x.total_pos
      have hlast : x.total - 1 + 1 = x.total := Nat.sub_add_cancel hpos
      obtain ⟨t, hrun, hafter⟩ := after_run hnew hempty hfull hshort (Nat.sub_lt hpos one_pos)
      rw [hlast] at hrun
      refine ⟨t, _, hrun, hafter.file, ?_⟩
      rw [← take_chunkEnd_last hlast]
      exact hafter.disk
    · obtain ⟨t, hrun, hafter⟩ := after_run hnew hempty hfull hshort hi
      rw [hrun]
      exact hafter.completed

/-! ## Two files -/

/-- Paths as lists of names, and a disk on which every file can be opened. -/
def listPaths : Pathlib (List String) where
  path name := [name]
  dirname path := .ok (if path.dropLast = [] then ["."] else path.dropLast)
  join directory filename := directory ++ filename
  openFile _ := .ok ()

/-- Archives without members. -/
def noArchives : Zipfile (List String) where
  name path := path.getLastD ""
  sibling path outname := path.dropLast ++ [outname]
  read _ _ := .error (.exception "BadZipFile")
  sibling_ne path hzip hsame := by
    have hlast := congrArg (List.getLastD · "") hsame
    simp only [List.getLastD_concat] at hlast
    have hlength := hzip.length_le
    have hshorter := congrArg (List.length ∘ String.toList) hlast
    simp only [Function.comp_apply, withoutExtension, String.toList_ofList,
      List.length_take] at hshorter
    have hdot : ".zip".toList.length = 4 := rfl
    omega

/-- An image of which some bytes are sent. -/
def image (file : List Byte) (h : file ≠ []) : Transmission :=
  ⟨1, List.replicate 50 0x80, [0, 0], file, fun _ => 0, by decide, rfl, rfl, h⟩

theorem createsFile_listPaths (x : Transmission) (uuids : ℕ → String) :
    CreatesFile listPaths noArchives ["files"] (fun _ => none) uuids x := by
  obtain ⟨s, hfind, -⟩ :=
    Transmission.exec_findFid_zero (x := x) listPaths noArchives ["files"] (fun _ => none) uuids
  have hname : (receiver listPaths noArchives ["files"]).newFile x.fid =
      (receiver listPaths noArchives ["files"]).storeFile x.fid [x.fid.toStr] := by
    simp [FileReceiver.newFile, receiver, listPaths]
  unfold CreatesFile Transmission.createFirst
  rw [exec_bind_ok hfind, hname]
  exact ⟨_, _, rfl, rfl⟩

/-- Two hundred bytes come in two chunks. -/
theorem reassembles_two_chunks :
    Reassembles listPaths noArchives ["files"] (fun _ => none) toString
      (image (List.replicate 200 7) (by simp)) :=
  (reassembles_iff _ _ _ _ _ _ (createsFile_listPaths _ _)).mpr (by
    simp only [image, List.length_replicate]
    omega)

/-- The only chunk of a file of one byte is rejected. -/
theorem not_reassembles_one_byte :
    ¬ Reassembles listPaths noArchives ["files"] (fun _ => none) toString
      (image [7] (by simp)) := by
  intro h
  obtain ⟨t, f, hrun, hf, hdisk⟩ := h.whole
  have htotal : (image [7] (by simp)).total = 1 := rfl
  have hfid : (image [7] (by simp)).fid = .int 0 := by decide
  have hstate : (run listPaths noArchives ["files"] (fun _ => none) toString
      (image [7] (by simp)) 1).2 = t := by
    rw [← htotal, hrun]
  have hpath : (t.files (.int 0)).map File.path = some ["files", "0"] := by
    rw [← hstate]
    decide +kernel
  have hfile : t.disk ["files", "0"] = some [] := by
    rw [← hstate]
    decide +kernel
  rw [hfid] at hf
  rw [hf] at hpath
  rw [Option.some.inj hpath, hfile] at hdisk
  cases hdisk

end GrSatellites.Files.Qo100
