import GrSatellites.Files.PushChunk

/-!
# When a file is reported complete

A receiver reports a file complete when the last chunk written ends at the size of the
file, or its sequence number reaches the number of chunks. It does not remember which
places have been written, so the report is right exactly when the rest of the file had
arrived before.
-/

namespace GrSatellites.Files

open Routine

/-- A chunk within the size of its file, which it carries with its file id and offset. It
may also carry a sequence number and the number of chunks. -/
structure Segment (size : FileId → ℕ) where
  fid : FileId
  offset : ℕ
  data : List Byte
  sequence : Option ℤ
  chunks : Option ℤ
  inRange : offset + data.length ≤ size fid

variable {size : FileId → ℕ}

namespace Segment

/-- The attributes of the chunk. -/
def chunk (g : Segment size) : Chunk :=
  ⟨some g.fid, g.sequence, some g.offset, g.data, g.chunks, some (size g.fid)⟩

/-- The chunk covers a place of its file. -/
def Covers (g : Segment size) (i : ℕ) : Prop := g.offset ≤ i ∧ i < g.offset + g.data.length

end Segment

/-- Some chunk covers a place of a file. -/
def Written (gs : List (Segment size)) (fid : FileId) (i : ℕ) : Prop :=
  ∃ g ∈ gs, g.fid = fid ∧ g.Covers i

/-- The number of chunks of a file: the first one that its chunks carry. -/
def totalChunks (gs : List (Segment size)) (fid : FileId) : Option ℤ :=
  (gs.filter fun g => g.fid = fid).findSome? Segment.chunks

/-- The chunk ends at the size of its file, or its sequence number is the last one by the
number of chunks known once it has arrived. -/
def Segment.Closes (earlier : List (Segment size)) (g : Segment size) : Prop :=
  g.offset + g.data.length = size g.fid ∨
    ∃ total seq, totalChunks (earlier ++ [g]) g.fid = some total ∧ g.sequence = some seq ∧
      total ≤ seq + 1

theorem written_append_singleton {gs : List (Segment size)} {g : Segment size} {fid : FileId}
    {i : ℕ} : Written (gs ++ [g]) fid i ↔ Written gs fid i ∨ (g.fid = fid ∧ g.Covers i) := by
  constructor
  · rintro ⟨q, hq, hrest⟩
    rcases List.mem_append.mp hq with hq | hq
    · exact .inl ⟨q, hq, hrest⟩
    · obtain rfl := List.mem_singleton.mp hq
      exact .inr hrest
  · rintro (⟨q, hq, hrest⟩ | hrest)
    · exact ⟨q, List.mem_append_left _ hq, hrest⟩
    · exact ⟨g, List.mem_append_right _ (List.mem_singleton_self g), hrest⟩

theorem totalChunks_append_singleton (gs : List (Segment size)) (g : Segment size) (fid : FileId) :
    totalChunks (gs ++ [g]) fid =
      if g.fid = fid then (totalChunks gs fid).or g.chunks else totalChunks gs fid := by
  unfold totalChunks
  rw [List.filter_append, List.findSome?_append]
  split <;> simp [*]

variable {P : Type}

/-- What a receiver knows of the files of some chunks. -/
structure Tracking (gs : List (Segment size)) (s : Receiver P Unit) : Prop where
  known : ∀ g ∈ gs, ∃ f, s.files g.fid = some f
  broken : ∀ fid f, s.files fid = some f → f.broken = false
  size : ∀ fid f, s.files fid = some f → ∀ n, f.size = some n → n = size fid
  chunks : ∀ fid f, s.files fid = some f → f.chunks = totalChunks gs fid

namespace Tracking

variable {gs : List (Segment size)} {s : Receiver P Unit}

theorem totalChunks_eq_none (h : Tracking gs s) {fid : FileId} (hfid : s.files fid = none) :
    totalChunks gs fid = none := by
  rw [totalChunks, List.filter_eq_nil_iff.mpr, List.findSome?_nil]
  rintro g hg hsame
  obtain ⟨f, hf⟩ := h.known g hg
  rw [of_decide_eq_true hsame, hfid] at hf
  cases hf

/-- A change of one file object that accounts for one more chunk. -/
theorem change (h : Tracking gs s) {g : Segment size} {f' : File P}
    (hbroken : f'.broken = false) (hsize : f'.size = some (size g.fid : ℤ))
    (hchunks : f'.chunks = totalChunks (gs ++ [g]) g.fid) {t : Receiver P Unit}
    (hfiles : t.files = Function.update s.files g.fid (some f')) : Tracking (gs ++ [g]) t := by
  have hlookup {i : FileId} {k : File P} (hk : t.files i = some k) :
      (i = g.fid ∧ k = f') ∨ (i ≠ g.fid ∧ s.files i = some k) := lookup_of_update (hfiles ▸ hk)
  refine ⟨?_, ?_, ?_, ?_⟩
  · rintro q hq
    rw [hfiles]
    by_cases hsame : q.fid = g.fid
    · exact ⟨f', by rw [hsame, Function.update_self]⟩
    · rw [Function.update_of_ne hsame]
      rcases List.mem_append.mp hq with hq | hq
      · exact h.known q hq
      · exact absurd (congrArg Segment.fid (List.mem_singleton.mp hq)) hsame
  · rintro i k hk
    rcases hlookup hk with ⟨rfl, rfl⟩ | ⟨-, hk⟩
    · exact hbroken
    · exact h.broken i k hk
  · rintro i k hk n hn
    rcases hlookup hk with ⟨rfl, rfl⟩ | ⟨-, hk⟩
    · exact (Option.some.inj (hsize.symm.trans hn)).symm
    · exact h.size i k hk n hn
  · rintro i k hk
    rcases hlookup hk with ⟨rfl, rfl⟩ | ⟨hi, hk⟩
    · exact hchunks
    · rw [h.chunks i k hk, totalChunks_append_singleton, if_neg (Ne.symm hi)]

/-- Creating a file that is not known. -/
theorem create [DecidableEq P] {lib : Pathlib P} {path : P} (h : Tracking gs s) {fid : FileId}
    (hfid : s.files fid = none) {f : File P} {t : Receiver P Unit}
    (hnew : exec ((defaultReceiver lib path).newFile fid) s = (.ok f, t)) :
    Tracking gs t ∧ t.files fid = some f ∧ t.completed = s.completed := by
  obtain ⟨hf, uuids, rfl⟩ := FileReceiver.exec_newFile_ok ⟨_, rfl⟩ hnew
  refine ⟨⟨?_, ?_, ?_, ?_⟩, by simp, rfl⟩
  · rintro g hg
    obtain ⟨k, hk⟩ := h.known g hg
    by_cases hsame : g.fid = fid
    · exact ⟨f, by simp [hsame]⟩
    · exact ⟨k, by simp [hsame, hk]⟩
  · rintro i k hk
    rcases lookup_of_update hk with ⟨rfl, rfl⟩ | ⟨-, hk⟩
    · rw [hf]
    · exact h.broken i k hk
  · rintro i k hk n hn
    rcases lookup_of_update hk with ⟨rfl, rfl⟩ | ⟨-, hk⟩
    · rw [hf] at hn
      cases hn
    · exact h.size i k hk n hn
  · rintro i k hk
    rcases lookup_of_update hk with ⟨rfl, rfl⟩ | ⟨-, hk⟩
    · rw [hf, h.totalChunks_eq_none hfid]
    · exact h.chunks i k hk

variable [DecidableEq P] (lib : Pathlib P) (path : P)

/-- Pushing a chunk of a known file reports the file complete when the chunk closes it. -/
theorem push_known (h : Tracking gs s) {g : Segment size} {f : File P}
    (hf : s.files g.fid = some f) :
    let t := (exec ((defaultReceiver lib path).pushChunk g.chunk) s).2
    Tracking (gs ++ [g]) t ∧
      (g.Closes gs → t.completed = s.completed ++ [g.fid]) ∧
      (¬ g.Closes gs → t.completed = s.completed) := by
  have hreads : Reads (defaultReceiver lib path) g.chunk g.chunk none :=
    reads_defaultReceiver lib path rfl
  have hbroken := h.broken g.fid f hf
  have hchunks : (f.fill g.chunk).chunks = totalChunks (gs ++ [g]) g.fid := by
    rw [totalChunks_append_singleton, if_pos rfl, ← h.chunks g.fid f hf]
    cases hold : f.chunks <;> simp [File.fill, hold, Segment.chunk]
  have hsize : (f.fill g.chunk).size = some (size g.fid : ℤ) := by
    cases hold : f.size with
    | none => simp [File.fill, hold, Segment.chunk]
    | some n => simp [File.fill, hold, h.size g.fid f hf n hold]
  have hinRange := g.inRange
  have hend : ¬ (size g.fid : ℤ) < (g.offset : ℤ) + g.data.length := by omega
  have hfull : (size g.fid : ℤ) ≤ g.offset + g.data.length ↔
      g.offset + g.data.length = size g.fid := by omega
  have hseq : (f.fill g.chunk).advance g.chunk g.offset =
      ⟨f.path, false, g.sequence.map (· + 1), g.offset + g.data.length, some (size g.fid : ℤ),
        totalChunks (gs ++ [g]) g.fid⟩ := by
    rw [← hchunks, ← hsize, ← hbroken]
    rfl
  have hcloses : ((f.fill g.chunk).advance g.chunk g.offset).complete none = .ok true ↔
      g.Closes gs := by
    rw [File.complete_none_iff, hseq, Segment.Closes, ← hfull]
    refine or_congr (by simp) ?_
    cases g.sequence <;> simp
  have hfinal : ∀ t : Receiver P Unit,
      t.files = Function.update s.files g.fid (some ((f.fill g.chunk).advance g.chunk g.offset)) →
      Tracking (gs ++ [g]) t := by
    rintro t hfiles
    rw [hseq] at hfiles
    exact h.change rfl rfl rfl hfiles
  intro t
  have ht := FileReceiver.exec_pushChunk hreads rfl rfl hf hbroken
  have hdata : g.chunk.data = g.data := rfl
  simp only [hdata, hsize, Option.any_some, decide_eq_true_eq, if_neg hend,
    if_neg (Int.not_lt.mpr (Int.natCast_nonneg g.offset))] at ht
  cases hresult : ((f.fill g.chunk).advance g.chunk g.offset).complete none with
  | error e =>
    have hnot : ¬ g.Closes gs := fun hg => by
      rw [hcloses.mpr hg] at hresult
      cases hresult
    rw [hresult] at ht
    have htail : t = _ := congrArg Prod.snd ht
    rw [htail]
    exact ⟨hfinal _ (by simp [Receiver.setFile, Receiver.writeDisk]), fun hg => absurd hg hnot,
      fun _ => rfl⟩
  | ok b =>
    cases b with
    | false =>
      have hnot : ¬ g.Closes gs := fun hg => by
        rw [hcloses.mpr hg] at hresult
        cases hresult
      rw [hresult] at ht
      have htail : t = _ := congrArg Prod.snd ht
      rw [htail]
      exact ⟨hfinal _ (by simp [Receiver.setFile, Receiver.writeDisk]), fun hg => absurd hg hnot,
        fun _ => rfl⟩
    | true =>
      rw [hresult] at ht
      have htail : t = _ := congrArg Prod.snd ht
      rw [htail]
      exact ⟨hfinal _ (by simp [Receiver.setFile, Receiver.writeDisk]), fun _ => rfl,
        fun hnot => absurd (hcloses.mp hresult) hnot⟩

/-- **One chunk.** A file is reported complete when a chunk closes it, and only then. -/
theorem push (h : Tracking gs s) {g : Segment size}
    (hcreate : s.files g.fid = none →
      ∃ f t, exec ((defaultReceiver lib path).newFile g.fid) s = (.ok f, t)) :
    let t := (exec ((defaultReceiver lib path).pushChunk g.chunk) s).2
    Tracking (gs ++ [g]) t ∧
      (g.Closes gs → t.completed = s.completed ++ [g.fid]) ∧
      (¬ g.Closes gs → t.completed = s.completed) := by
  cases hf : s.files g.fid with
  | some f => exact h.push_known lib path hf
  | none =>
    obtain ⟨f, t, hnew⟩ := hcreate hf
    obtain ⟨ht, hknown, hcompleted⟩ := h.create hf hnew
    rw [FileReceiver.exec_pushChunk_new (reads_defaultReceiver lib path rfl) rfl hf hnew hknown,
      ← hcompleted]
    exact ht.push_known lib path hknown

end Tracking

/-! ## Runs -/

section Runs

variable [DecidableEq P] (lib : Pathlib P) (path : P) (disk : P → Option (List Byte))
variable (uuids : ℕ → String)

/-- The receiver after some chunks, from a new one. -/
def afterSegments (gs : List (Segment size)) : Receiver P Unit :=
  (defaultReceiver lib path).pushAll (.init disk uuids ()) (gs.map Segment.chunk)

/-- Whenever a chunk names a file that is not known, the file can be created. -/
def CreatesFiles (gs : List (Segment size)) : Prop :=
  ∀ earlier g, earlier ++ [g] <+: gs →
    (afterSegments lib path disk uuids earlier).files g.fid = none →
      ∃ f t, exec ((defaultReceiver lib path).newFile g.fid)
        (afterSegments lib path disk uuids earlier) = (.ok f, t)

variable {lib path disk uuids}

theorem afterSegments_append_singleton (gs : List (Segment size)) (g : Segment size) :
    afterSegments lib path disk uuids (gs ++ [g]) =
      (exec ((defaultReceiver lib path).pushChunk g.chunk)
        (afterSegments lib path disk uuids gs)).2 := by
  rw [afterSegments, List.map_append, List.map_singleton, FileReceiver.pushAll_append_singleton]
  rfl

variable (lib path disk uuids) in
theorem tracking_afterSegments (gs : List (Segment size))
    (hcreate : CreatesFiles lib path disk uuids gs) :
    Tracking gs (afterSegments lib path disk uuids gs) := by
  induction gs using List.reverseRecOn with
  | nil => refine ⟨?_, ?_, ?_, ?_⟩ <;> simp [afterSegments, FileReceiver.pushAll, Receiver.init]
  | append_singleton gs g ih =>
    have hbefore := ih fun earlier q hpre =>
      hcreate earlier q (hpre.trans (List.prefix_append _ _))
    rw [afterSegments_append_singleton]
    exact (hbefore.push lib path (hcreate gs g (List.prefix_refl _))).1

/-- In a run, the chunks that close their files are those that make them be reported. -/
theorem completed_append_singleton {gs : List (Segment size)} {g : Segment size}
    (hcreate : CreatesFiles lib path disk uuids (gs ++ [g])) (fid : FileId) :
    (afterSegments lib path disk uuids (gs ++ [g])).completed =
        (afterSegments lib path disk uuids gs).completed ++ [fid] ↔
      g.Closes gs ∧ fid = g.fid := by
  have hbefore := tracking_afterSegments lib path disk uuids gs fun earlier q hpre =>
    hcreate earlier q (hpre.trans (List.prefix_append _ _))
  obtain ⟨-, hcloses, hnot⟩ :=
    hbefore.push lib path (hcreate gs g (List.prefix_refl _))
  rw [afterSegments_append_singleton]
  constructor
  · intro hreport
    by_cases hg : g.Closes gs
    · rw [hcloses hg] at hreport
      exact ⟨hg, (List.singleton_inj.mp (List.append_cancel_left hreport)).symm⟩
    · rw [hnot hg] at hreport
      simp at hreport
  · rintro ⟨hg, rfl⟩
    exact hcloses hg

end Runs

/-- **Completion.** In a run of chunks that lie within their files, a file is reported
complete only when all of it has been written if and only if every chunk that closes its
file arrives when the rest of the file has been written by earlier chunks. -/
theorem completion_sound_iff [DecidableEq P] (lib : Pathlib P) (path : P)
    (disk : P → Option (List Byte)) (uuids : ℕ → String) (gs : List (Segment size))
    (hcreate : CreatesFiles lib path disk uuids gs) :
    (∀ earlier g fid, earlier ++ [g] <+: gs →
      (afterSegments lib path disk uuids (earlier ++ [g])).completed =
        (afterSegments lib path disk uuids earlier).completed ++ [fid] →
      ∀ i < size fid, Written (earlier ++ [g]) fid i) ↔
    ∀ earlier g, earlier ++ [g] <+: gs → g.Closes earlier →
      ∀ i < size g.fid, ¬ g.Covers i → Written earlier g.fid i := by
  have hreport (earlier : List (Segment size)) (g : Segment size) (hpre : earlier ++ [g] <+: gs)
      (fid : FileId) :
      (afterSegments lib path disk uuids (earlier ++ [g])).completed =
          (afterSegments lib path disk uuids earlier).completed ++ [fid] ↔
        g.Closes earlier ∧ fid = g.fid :=
    completed_append_singleton (fun earlier' q h => hcreate earlier' q (h.trans hpre)) fid
  constructor
  · rintro hsound earlier g hpre hcloses i hi hcovers
    have hwritten := hsound earlier g g.fid hpre
      ((hreport earlier g hpre g.fid).mpr ⟨hcloses, rfl⟩) i hi
    exact (written_append_singleton.mp hwritten).resolve_right fun h => hcovers h.2
  · rintro hrest earlier g fid hpre hcompleted i hi
    obtain ⟨hcloses, rfl⟩ := (hreport earlier g hpre fid).mp hcompleted
    rw [written_append_singleton]
    by_cases hcovers : g.Covers i
    · exact .inr ⟨rfl, hcovers⟩
    · exact .inl (hrest earlier g hpre hcloses i hi hcovers)

/-- The two halves of a file in order: the file is reported when both have arrived. -/
theorem completion_sound_iff_halves :
    let size : FileId → ℕ := fun _ => 4
    let gs : List (Segment size) :=
      [⟨.int 1, 0, [1, 2], none, none, by decide⟩, ⟨.int 1, 2, [3, 4], none, none, by decide⟩]
    let after : List (Segment size) → Receiver String Unit :=
      afterSegments plainNames "files" (fun _ => none) toString
    ∀ earlier g fid, earlier ++ [g] <+: gs →
      (after (earlier ++ [g])).completed = (after earlier).completed ++ [fid] →
      ∀ i < size fid, Written (earlier ++ [g]) fid i := by
  intro size gs after
  have hcreate : CreatesFiles plainNames "files" (fun _ => none) toString gs :=
    fun _ _ _ _ => ⟨_, _, rfl⟩
  refine (completion_sound_iff plainNames "files" (fun _ => none) toString gs hcreate).mpr ?_
  rintro earlier g hpre hcloses i hi hcovers
  rcases earlier with _ | ⟨d, _ | ⟨e, rest⟩⟩
  · obtain rfl : g = ⟨.int 1, 0, [1, 2], none, none, by decide⟩ := by simpa [gs] using hpre
    simp [Segment.Closes, size, totalChunks] at hcloses
  · simp only [gs, List.cons_append, List.nil_append, List.cons_prefix_cons, List.nil_prefix,
      and_true] at hpre
    obtain ⟨rfl, rfl⟩ := hpre
    refine ⟨_, List.mem_singleton_self _, rfl, ?_⟩
    simp only [Segment.Covers, size] at hi hcovers ⊢
    simp at hcovers ⊢
    omega
  · simp [gs] at hpre

/-- The second half of a file alone makes it be reported. -/
theorem completion_of_second_half :
    let size : FileId → ℕ := fun _ => 4
    let g : Segment size := ⟨.int 1, 2, [3, 4], none, none, by decide⟩
    (afterSegments plainNames "files" (fun _ => none) toString [g]).completed = [.int 1] ∧
      ¬ Written [g] (.int 1) 0 := by
  intro size g
  refine ⟨rfl, ?_⟩
  rintro ⟨q, hq, -, hlow, -⟩
  obtain rfl := List.mem_singleton.mp hq
  simp [g] at hlow

end GrSatellites.Files
