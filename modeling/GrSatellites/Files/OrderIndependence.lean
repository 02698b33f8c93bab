import GrSatellites.Files.PushChunk

/-!
# Chunks with file ids and offsets in any order

Chunks that carry their file id, their offset and the size of the file leave on disk the
file whose written places are the places of the chunks that lie within the size. This
set of places does not depend on the order in which the chunks are pushed.
-/

namespace GrSatellites.Files

open ByteFile Routine

variable {P : Type}

/-- A chunk of a file whose size is known from elsewhere. -/
structure Piece where
  fid : FileId
  offset : ℤ
  data : List Byte

namespace Piece

/-- The chunk that carries a piece, with no sequence number and no count of chunks. -/
def chunk (size : FileId → ℕ) (p : Piece) : Chunk :=
  ⟨some p.fid, none, some p.offset, p.data, none, some (size p.fid)⟩

/-- The piece ends within the size of its file. -/
def InRange (size : FileId → ℕ) (p : Piece) : Prop := p.offset + p.data.length ≤ size p.fid

/-- The piece holds the bytes of its file at its offset. -/
def Correct (contents : FileId → List Byte) (p : Piece) : Prop :=
  0 ≤ p.offset ∧
    ∀ k < p.data.length, p.data[k]? = (contents p.fid)[p.offset.toNat + k]?

/-- The piece covers a place. -/
def Covers (p : Piece) (i : ℕ) : Prop := p.offset ≤ i ∧ i < p.offset + p.data.length

end Piece

/-- Some piece within the size of the file covers a place of it. -/
def Covered (size : FileId → ℕ) (ps : List Piece) (fid : FileId) (i : ℕ) : Prop :=
  ∃ p ∈ ps, p.fid = fid ∧ p.InRange size ∧ p.Covers i

theorem covered_append_singleton {size : FileId → ℕ} {ps : List Piece} {p : Piece} {fid : FileId}
    {i : ℕ} :
    Covered size (ps ++ [p]) fid i ↔
      Covered size ps fid i ∨ (p.fid = fid ∧ p.InRange size ∧ p.Covers i) := by
  constructor
  · rintro ⟨q, hq, hrest⟩
    rcases List.mem_append.mp hq with hq | hq
    · exact .inl ⟨q, hq, hrest⟩
    · obtain rfl := List.mem_singleton.mp hq
      exact .inr hrest
  · rintro (⟨q, hq, hrest⟩ | hrest)
    · exact ⟨q, List.mem_append_left _ hq, hrest⟩
    · exact ⟨p, List.mem_append_right _ (List.mem_singleton_self p), hrest⟩

/-- The sizes of files with the given contents. -/
def sizes (contents : FileId → List Byte) (fid : FileId) : ℕ := (contents fid).length

/-- The file on disk of a file id. -/
def Receiver.contentsOf {σ : Type} (s : Receiver P σ) (fid : FileId) : Option (List Byte) :=
  (s.files fid).bind fun f => s.disk f.path

/-! ## The invariant -/

/-- What holds of a receiver after some pieces of files with the given contents, when the
files created are those of the given ids. -/
structure Holding (contents : FileId → List Byte) (ids : FileId → Prop) (ps : List Piece)
    (s : Receiver P Unit) : Prop where
  known : ∀ fid, (∃ f, s.files fid = some f) ↔ ids fid
  pushed : ∀ p ∈ ps, ids p.fid
  broken : ∀ fid f, s.files fid = some f → f.broken = false
  chunks : ∀ fid f, s.files fid = some f → f.chunks = none
  size : ∀ fid f, s.files fid = some f → ∀ n, f.size = some n → n = sizes contents fid
  distinct : ∀ fid fid' f f', s.files fid = some f → s.files fid' = some f' →
    f.path = f'.path → fid = fid'
  holds : ∀ fid f, s.files fid = some f → ∃ bytes, s.disk f.path = some bytes ∧
    HoldsAt (contents fid) (Covered (sizes contents) ps fid) bytes

namespace Holding

variable {contents : FileId → List Byte} {ids : FileId → Prop} {ps : List Piece}
variable {s : Receiver P Unit}

theorem contentsOf_eq_none (h : Holding contents ids ps s) {fid : FileId} (hfid : ¬ ids fid) :
    s.contentsOf fid = none := by
  cases hf : s.files fid with
  | none => rw [Receiver.contentsOf, hf, Option.bind_none]
  | some f => exact absurd ((h.known fid).mp ⟨f, hf⟩) hfid

theorem exists_contentsOf (h : Holding contents ids ps s) {fid : FileId} (hfid : ids fid) :
    ∃ bytes, s.contentsOf fid = some bytes ∧
      HoldsAt (contents fid) (Covered (sizes contents) ps fid) bytes := by
  obtain ⟨f, hf⟩ := (h.known fid).mpr hfid
  obtain ⟨bytes, hdisk, hholds⟩ := h.holds fid f hf
  exact ⟨bytes, by rw [Receiver.contentsOf, hf, Option.bind_some, hdisk], hholds⟩

/-- Two receivers whose pieces cover the same places of a file have the same file. -/
theorem contentsOf_congr {ids' : FileId → Prop} {qs : List Piece} {t : Receiver P Unit}
    (h : Holding contents ids ps s) (h' : Holding contents ids' qs t) {fid : FileId}
    (hids : ids fid ↔ ids' fid)
    (hcovered : ∀ i, Covered (sizes contents) ps fid i ↔
      Covered (sizes contents) qs fid i) :
    s.contentsOf fid = t.contentsOf fid := by
  by_cases hfid : ids fid
  · obtain ⟨bytes, hs, hbytes⟩ := h.exists_contentsOf hfid
    obtain ⟨bytes', ht, hbytes'⟩ := h'.exists_contentsOf (hids.mp hfid)
    have hsame : Covered (sizes contents) ps fid =
        Covered (sizes contents) qs fid := funext fun i => propext (hcovered i)
    rw [hs, ht, hbytes.unique (hsame ▸ hbytes')]
  · rw [h.contentsOf_eq_none hfid, h'.contentsOf_eq_none (mt hids.mpr hfid)]

/-- Creating a file that is not known, empty. -/
theorem create [DecidableEq P] {lib : Pathlib P} {path : P} (h : Holding contents ids ps s)
    {fid : FileId} (hfid : s.files fid = none) {f : File P} {t : Receiver P Unit}
    (hnew : exec ((defaultReceiver lib path).newFile fid) s = (.ok f, t))
    (habsent : s.disk f.path = none) :
    Holding contents (fun i => ids i ∨ i = fid) ps t ∧ t.files fid = some f := by
  obtain ⟨hf, uuids, rfl⟩ := FileReceiver.exec_newFile_ok ⟨_, rfl⟩ hnew
  have hids : ¬ ids fid := fun hids => by
    obtain ⟨g, hg⟩ := (h.known fid).mpr hids
    rw [hfid] at hg
    cases hg
  have hother {i : FileId} {g : File P} (hg : s.files i = some g) : g.path ≠ f.path := by
    obtain ⟨bytes, hbytes, -⟩ := h.holds i g hg
    intro hpath
    rw [hpath, habsent] at hbytes
    cases hbytes
  refine ⟨⟨?_, ?_, ?_, ?_, ?_, ?_, ?_⟩, by simp⟩
  · intro i
    by_cases hi : i = fid
    · subst hi
      simp
    · simp [hi, h.known i]
  · exact fun p hp => .inl (h.pushed p hp)
  · rintro i g hg
    rcases lookup_of_update hg with ⟨rfl, rfl⟩ | ⟨-, hg⟩
    · rw [hf]
    · exact h.broken i g hg
  · rintro i g hg
    rcases lookup_of_update hg with ⟨rfl, rfl⟩ | ⟨-, hg⟩
    · rw [hf]
    · exact h.chunks i g hg
  · rintro i g hg n hn
    rcases lookup_of_update hg with ⟨rfl, rfl⟩ | ⟨-, hg⟩
    · rw [hf] at hn
      cases hn
    · exact h.size i g hg n hn
  · rintro i j g k hg hk hpath
    rcases lookup_of_update hg with ⟨rfl, rfl⟩ | ⟨-, hg'⟩ <;>
      rcases lookup_of_update hk with ⟨rfl, rfl⟩ | ⟨-, hk'⟩
    · rfl
    · exact absurd hpath.symm (hother hk')
    · exact absurd hpath (hother hg')
    · exact h.distinct i j g k hg' hk' hpath
  · rintro i g hg
    rcases lookup_of_update hg with ⟨rfl, rfl⟩ | ⟨-, hg⟩
    · refine ⟨[], by simp [Receiver.setFile, habsent], ?_⟩
      have hnone : Covered (sizes contents) ps i = fun _ => False := by
        funext k
        refine propext ⟨?_, False.elim⟩
        rintro ⟨p, hp, rfl, -⟩
        exact hids (h.pushed p hp)
      rw [hnone]
      exact holdsAt_nil _
    · obtain ⟨bytes, hbytes, hholds⟩ := h.holds i g hg
      exact ⟨bytes, by simp [Receiver.setFile, hother hg, hbytes], hholds⟩

/-- A change of one known file that accounts for one more piece. -/
theorem change (h : Holding contents ids ps s) {p : Piece} {f f' : File P}
    (hf : s.files p.fid = some f) (hpath : f'.path = f.path) (hbroken : f'.broken = false)
    (hchunks : f'.chunks = none) (hsize : ∀ n, f'.size = some n → n = sizes contents p.fid)
    {t : Receiver P Unit} (hfiles : t.files = Function.update s.files p.fid (some f'))
    (hdisk : ∀ path, path ≠ f.path → t.disk path = s.disk path)
    (hholds : ∃ bytes, t.disk f.path = some bytes ∧
      HoldsAt (contents p.fid) (Covered (sizes contents) (ps ++ [p]) p.fid) bytes) :
    Holding contents ids (ps ++ [p]) t := by
  have hlookup {i : FileId} {g : File P} (hg : t.files i = some g) :
      (i = p.fid ∧ g = f') ∨ (i ≠ p.fid ∧ s.files i = some g) := lookup_of_update (hfiles ▸ hg)
  refine ⟨?_, ?_, ?_, ?_, ?_, ?_, ?_⟩
  · intro i
    rw [hfiles, ← h.known i]
    by_cases hi : i = p.fid
    · subst hi
      simp [hf]
    · simp [hi]
  · rintro q hq
    rcases List.mem_append.mp hq with hq | hq
    · exact h.pushed q hq
    · rw [List.mem_singleton.mp hq]
      exact (h.known p.fid).mp ⟨f, hf⟩
  · rintro i g hg
    rcases hlookup hg with ⟨rfl, rfl⟩ | ⟨-, hg⟩
    · exact hbroken
    · exact h.broken i g hg
  · rintro i g hg
    rcases hlookup hg with ⟨rfl, rfl⟩ | ⟨-, hg⟩
    · exact hchunks
    · exact h.chunks i g hg
  · rintro i g hg
    rcases hlookup hg with ⟨rfl, rfl⟩ | ⟨-, hg⟩
    · exact hsize
    · exact h.size i g hg
  · rintro i j g k hg hk hsame
    rcases hlookup hg with ⟨rfl, rfl⟩ | ⟨-, hg'⟩ <;>
      rcases hlookup hk with ⟨rfl, rfl⟩ | ⟨-, hk'⟩
    · rfl
    · exact h.distinct _ _ f k hf hk' (hpath.symm.trans hsame)
    · exact h.distinct _ _ g f hg' hf (hsame.trans hpath)
    · exact h.distinct i j g k hg' hk' hsame
  · rintro i g hg
    rcases hlookup hg with ⟨rfl, rfl⟩ | ⟨hi, hg⟩
    · rwa [hpath]
    · obtain ⟨bytes, hbytes, hold⟩ := h.holds i g hg
      have hne : g.path ≠ f.path := fun hsame => hi (h.distinct i p.fid g f hg hf hsame)
      refine ⟨bytes, (hdisk _ hne).trans hbytes, ?_⟩
      have hsame : Covered (sizes contents) (ps ++ [p]) i = Covered (sizes contents) ps i := by
        funext k
        rw [covered_append_singleton]
        exact propext (or_iff_left fun hnew => hi hnew.1.symm)
      rwa [hsame]

variable [DecidableEq P] (lib : Pathlib P) (path : P)

/-- Pushing a piece of a known file: it never raises. -/
theorem push_known (h : Holding contents ids ps s) {p : Piece} (hids : ids p.fid)
    (hcorrect : p.InRange (sizes contents) → p.Correct contents) :
    (exec ((defaultReceiver lib path).pushChunk (p.chunk (sizes contents))) s).1 = .ok () ∧
      Holding contents ids (ps ++ [p])
        (exec ((defaultReceiver lib path).pushChunk (p.chunk (sizes contents))) s).2 := by
  obtain ⟨f, hf⟩ := (h.known p.fid).mpr hids
  obtain ⟨bytes, hbytes, hholds⟩ := h.holds p.fid f hf
  have hreads : Reads (defaultReceiver lib path) (p.chunk (sizes contents))
      (p.chunk (sizes contents)) none := reads_defaultReceiver lib path rfl
  have hchunks : (f.fill (p.chunk (sizes contents))).chunks = none := by
    simp [File.fill, h.chunks p.fid f hf, Piece.chunk]
  have hsize : (f.fill (p.chunk (sizes contents))).size = some (sizes contents p.fid : ℤ) := by
    cases hold : f.size with
    | none => simp [File.fill, hold, Piece.chunk]
    | some n => simp [File.fill, hold, h.size p.fid f hf n hold]
  rw [FileReceiver.exec_pushChunk hreads rfl rfl hf (h.broken p.fid f hf), hsize]
  have hdata : (p.chunk (sizes contents)).data = p.data := rfl
  simp only [hdata, Option.any_some, decide_eq_true_eq]
  by_cases hrange : p.InRange (sizes contents)
  · obtain ⟨ho, hpiece⟩ := hcorrect hrange
    have hend : p.offset.toNat + p.data.length ≤ (contents p.fid).length := by
      rw [Piece.InRange, sizes] at hrange
      omega
    have hcover : Covered (sizes contents) (ps ++ [p]) p.fid = fun i =>
        Covered (sizes contents) ps p.fid i ∨
          (p.offset.toNat ≤ i ∧ i < p.offset.toNat + p.data.length) := by
      funext i
      rw [covered_append_singleton]
      refine propext (or_congr_right ⟨fun hnew => ?_, fun hnew => ⟨rfl, hrange, ?_⟩⟩)
      · obtain ⟨-, -, hlow, hhigh⟩ := hnew
        omega
      · unfold Piece.Covers
        omega
    have hwritten := hholds.writeAt hpiece hend
    rw [← hcover] at hwritten
    rw [if_neg (Int.not_lt.mpr hrange), if_neg (Int.not_lt.mpr ho)]
    have hcomplete : ∃ b, ((f.fill (p.chunk (sizes contents))).advance (p.chunk (sizes contents))
        p.offset).complete none = .ok b := by
      unfold File.complete File.advance
      rw [hchunks]
      split
      · exact ⟨true, rfl⟩
      · exact ⟨_, rfl⟩
    obtain ⟨b, hb⟩ := hcomplete
    rw [hb]
    have hfinal : ∀ t : Receiver P Unit,
        t.files = Function.update s.files p.fid (some ((f.fill (p.chunk (sizes contents))).advance
          (p.chunk (sizes contents)) p.offset)) →
        t.disk = Function.update s.disk f.path (some (writeAt bytes p.offset.toNat p.data)) →
        Holding contents ids (ps ++ [p]) t := by
      rintro t hfiles hdisk
      have hpath : ((f.fill (p.chunk (sizes contents))).advance (p.chunk (sizes contents))
        p.offset).path = f.path := rfl
      refine h.change hf hpath (h.broken p.fid f hf) hchunks ?_ hfiles ?_ ⟨_, ?_, hwritten⟩
      · rintro n hn
        exact (Option.some.inj (hsize.symm.trans hn)).symm
      · rintro other hother
        rw [hdisk, Function.update_of_ne hother]
      · rw [hdisk, Function.update_self]
    cases b <;> refine ⟨rfl, hfinal _ (by simp [Receiver.setFile, Receiver.writeDisk]) ?_⟩ <;>
      simp [Receiver.setFile, Receiver.writeDisk, hbytes, Piece.chunk]
  · rw [if_pos (Int.not_le.mp hrange)]
    have hpath : (f.fill (p.chunk (sizes contents))).path = f.path := rfl
    refine ⟨rfl, h.change hf hpath (h.broken p.fid f hf) hchunks ?_ rfl (fun _ _ => rfl)
      ⟨bytes, hbytes, ?_⟩⟩
    · rintro n hn
      exact (Option.some.inj (hsize.symm.trans hn)).symm
    · have hcover : Covered (sizes contents) (ps ++ [p]) p.fid =
          Covered (sizes contents) ps p.fid := by
        funext i
        rw [covered_append_singleton]
        exact propext (or_iff_left fun hnew => hrange hnew.2.1)
      rwa [hcover]

/-- **One piece.** Pushing a piece never raises, and its file becomes known. -/
theorem push (h : Holding contents ids ps s) {p : Piece}
    (hcorrect : p.InRange (sizes contents) → p.Correct contents)
    (hcreate : s.files p.fid = none → ∃ f t,
      exec ((defaultReceiver lib path).newFile p.fid) s = (.ok f, t) ∧ s.disk f.path = none) :
    (exec ((defaultReceiver lib path).pushChunk (p.chunk (sizes contents))) s).1 = .ok () ∧
      Holding contents (fun i => ids i ∨ i = p.fid) (ps ++ [p])
        (exec ((defaultReceiver lib path).pushChunk (p.chunk (sizes contents))) s).2 := by
  cases hf : s.files p.fid with
  | some f =>
    have hids : ids p.fid := (h.known p.fid).mp ⟨f, hf⟩
    have hsame : (fun i => ids i ∨ i = p.fid) = ids := by
      funext i
      exact propext (or_iff_left_of_imp fun hi => hi ▸ hids)
    rw [hsame]
    exact h.push_known lib path hids hcorrect
  | none =>
    obtain ⟨f, t, hnew, habsent⟩ := hcreate hf
    obtain ⟨ht, hknown⟩ := h.create hf hnew habsent
    rw [FileReceiver.exec_pushChunk_new (reads_defaultReceiver lib path rfl) rfl hf hnew hknown]
    exact ht.push_known lib path (.inr rfl) hcorrect

end Holding

/-! ## Runs -/

section Runs

variable [DecidableEq P] (lib : Pathlib P) (path : P) (contents : FileId → List Byte)
variable (disk : P → Option (List Byte)) (uuids : ℕ → String)

/-- The receiver after some pieces, from a new one. -/
def afterPieces (ps : List Piece) : Receiver P Unit :=
  (defaultReceiver lib path).pushAll (.init disk uuids ()) (ps.map (Piece.chunk (sizes contents)))

/-- The assumption about the files on disk, for some pieces. -/
def PiecesCreateEmpty (ps : List Piece) : Prop :=
  (defaultReceiver lib path).CreatesEmpty (.init disk uuids ())
    (ps.map (Piece.chunk (sizes contents)))

variable {lib path contents disk uuids}

theorem afterPieces_append_singleton (ps : List Piece) (p : Piece) :
    afterPieces lib path contents disk uuids (ps ++ [p]) =
      (exec ((defaultReceiver lib path).pushChunk (p.chunk (sizes contents)))
        (afterPieces lib path contents disk uuids ps)).2 := by
  rw [afterPieces, List.map_append, List.map_singleton, FileReceiver.pushAll_append_singleton]
  rfl

theorem PiecesCreateEmpty.mono {ps qs : List Piece}
    (h : PiecesCreateEmpty lib path contents disk uuids ps) (hpre : qs <+: ps) :
    PiecesCreateEmpty lib path contents disk uuids qs :=
  FileReceiver.CreatesEmpty.mono h (hpre.map _)

theorem PiecesCreateEmpty.last {ps : List Piece} {p : Piece}
    (h : PiecesCreateEmpty lib path contents disk uuids (ps ++ [p]))
    (hnone : (afterPieces lib path contents disk uuids ps).files p.fid = none) :
    ∃ f t, exec ((defaultReceiver lib path).newFile p.fid)
        (afterPieces lib path contents disk uuids ps) = (.ok f, t) ∧
      (afterPieces lib path contents disk uuids ps).disk f.path = none := by
  refine h (ps.map (Piece.chunk (sizes contents))) (p.chunk (sizes contents)) p.fid ?_ rfl hnone
  rw [List.map_append, List.map_singleton]

/-- After any pieces the invariant holds, with the files of the pieces created. -/
theorem holding_afterPieces (ps : List Piece)
    (hcorrect : ∀ p ∈ ps, p.InRange (sizes contents) → p.Correct contents)
    (hcreate : PiecesCreateEmpty lib path contents disk uuids ps) :
    Holding contents (fun i => ∃ p ∈ ps, p.fid = i) ps
      (afterPieces lib path contents disk uuids ps) := by
  induction ps using List.reverseRecOn with
  | nil =>
    refine ⟨?_, ?_, ?_, ?_, ?_, ?_, ?_⟩ <;> simp [afterPieces, FileReceiver.pushAll, Receiver.init]
  | append_singleton ps p ih =>
    have hbefore := ih (fun q hq => hcorrect q (List.mem_append_left _ hq))
      (hcreate.mono (List.prefix_append _ _))
    have hpush := (hbefore.push lib path (hcorrect p (by simp)) hcreate.last).2
    rw [afterPieces_append_singleton]
    have hids : (fun i => (∃ q ∈ ps, q.fid = i) ∨ i = p.fid) = fun i => ∃ q ∈ ps ++ [p], q.fid = i := by
      funext i
      simp [or_and_right, exists_or, eq_comm]
    rwa [hids] at hpush

end Runs

/-- **Order independence.** Pieces of any files, each correct unless it ends beyond the
size of its file, are pushed in any order. No push raises. In the end every place that a
piece within the size covers holds the byte of its file. A piece changes no other file,
and a piece beyond the size changes no file at all. The same pieces in another order, or
repeated, leave the same files. -/
theorem pushChunk_order_independent [DecidableEq P] (lib : Pathlib P) (path : P)
    (contents : FileId → List Byte) (disk : P → Option (List Byte)) (uuids : ℕ → String)
    (ps : List Piece) (hcorrect : ∀ p ∈ ps, p.InRange (sizes contents) → p.Correct contents)
    (hcreate : PiecesCreateEmpty lib path contents disk uuids ps) :
    let after := afterPieces lib path contents disk uuids
    (∀ fid i, Covered (sizes contents) ps fid i →
      ∃ bytes, (after ps).contentsOf fid = some bytes ∧ bytes[i]? = (contents fid)[i]?) ∧
    (∀ earlier p, earlier ++ [p] <+: ps →
      (exec ((defaultReceiver lib path).pushChunk (p.chunk (sizes contents))) (after earlier)).1 =
        .ok () ∧
      (∀ fid, fid ≠ p.fid →
        (after (earlier ++ [p])).contentsOf fid = (after earlier).contentsOf fid) ∧
      (¬ p.InRange (sizes contents) → ∀ fid bytes, (after earlier).contentsOf fid = some bytes →
        (after (earlier ++ [p])).contentsOf fid = some bytes)) ∧
    ∀ qs, (∀ p, p ∈ qs ↔ p ∈ ps) → PiecesCreateEmpty lib path contents disk uuids qs →
      ∀ fid, (after qs).contentsOf fid = (after ps).contentsOf fid := by
  intro after
  have hall := holding_afterPieces ps hcorrect hcreate
  refine ⟨?_, ?_, ?_⟩
  · rintro fid i hcovered
    obtain ⟨p, hp, hfid, -⟩ := id hcovered
    obtain ⟨bytes, hbytes, hholds⟩ := hall.exists_contentsOf ⟨p, hp, hfid⟩
    exact ⟨bytes, hbytes, hholds.getElem?_written i hcovered⟩
  · rintro earlier p hpre
    have hmem : ∀ q ∈ earlier ++ [p], q ∈ ps := fun q hq => hpre.subset hq
    have hbefore := holding_afterPieces earlier
      (fun q hq => hcorrect q (hmem q (List.mem_append_left _ hq)))
      (hcreate.mono ((List.prefix_append _ _).trans hpre))
    have hlast := hbefore.push lib path (hcorrect p (hmem p (by simp)))
      (hcreate.mono hpre).last
    have hafter := holding_afterPieces (earlier ++ [p]) (fun q hq => hcorrect q (hmem q hq))
      (hcreate.mono hpre)
    refine ⟨hlast.1, ?_, ?_⟩
    · rintro fid hfid
      refine hafter.contentsOf_congr hbefore ?_ fun i => ?_
      · simp [or_and_right, exists_or, Ne.symm hfid]
      · rw [covered_append_singleton]
        exact or_iff_left fun hnew => hfid hnew.1.symm
    · rintro hrange fid bytes hbytes
      have hids : ∃ q ∈ earlier, q.fid = fid := by
        by_contra hnone
        rw [hbefore.contentsOf_eq_none hnone] at hbytes
        cases hbytes
      rw [← hbytes]
      refine hafter.contentsOf_congr hbefore ?_ fun i => ?_
      · obtain ⟨q, hq, hfid⟩ := hids
        exact ⟨fun _ => ⟨q, hq, hfid⟩, fun _ => ⟨q, List.mem_append_left _ hq, hfid⟩⟩
      · rw [covered_append_singleton]
        exact or_iff_left fun hnew => hrange hnew.2.1
  · rintro qs hsame hcreate' fid
    have hother := holding_afterPieces qs (fun q hq => hcorrect q ((hsame q).mp hq)) hcreate'
    refine hother.contentsOf_congr hall ?_ fun i => ?_ <;> simp only [Covered, hsame]

/-- The end of a file before its start, and then a piece beyond its size. -/
theorem pushChunk_order_independent_backwards :
    let contents : FileId → List Byte := fun _ => [1, 2, 3]
    let after := afterPieces plainNames "files" contents (fun _ => none) toString
    let ps : List Piece := [⟨.int 7, 1, [2, 3]⟩, ⟨.int 7, 2, [9, 9]⟩]
    ∃ bytes, (after ps).contentsOf (.int 7) = some bytes ∧
      bytes[1]? = (contents (.int 7))[1]? := by
  intro contents after ps
  have hcorrect : ∀ p ∈ ps, p.InRange (sizes contents) → p.Correct contents := by
    rintro p hp hrange
    obtain rfl | rfl : p = ⟨.int 7, 1, [2, 3]⟩ ∨ p = ⟨.int 7, 2, [9, 9]⟩ := by simpa [ps] using hp
    · refine ⟨by decide, fun k hk => ?_⟩
      have hk' : k < 2 := hk
      obtain rfl | rfl : k = 0 ∨ k = 1 := by omega
      all_goals rfl
    · exact absurd hrange (by simp [Piece.InRange, sizes, contents])
  have hcreate : PiecesCreateEmpty plainNames "files" contents (fun _ => none) toString ps := by
    rintro earlier c fid hpre hfid hnone
    rcases earlier with _ | ⟨d, _ | ⟨e, rest⟩⟩
    · exact ⟨_, _, rfl, rfl⟩
    · simp only [ps, List.map_cons, List.map_nil, List.cons_append, List.nil_append,
        List.cons_prefix_cons, List.nil_prefix, and_true] at hpre
      obtain ⟨rfl, rfl⟩ := hpre
      obtain rfl : FileId.int 7 = fid := Option.some.inj hfid
      cases hnone
    · simp [ps] at hpre
  have hrun := pushChunk_order_independent plainNames "files" contents (fun _ => none) toString ps
    hcorrect hcreate
  exact hrun.1 (.int 7) 1 ⟨⟨.int 7, 1, [2, 3]⟩, by simp [ps], rfl, by
    simp [Piece.InRange, sizes, contents], by simp [Piece.Covers]⟩

end GrSatellites.Files
