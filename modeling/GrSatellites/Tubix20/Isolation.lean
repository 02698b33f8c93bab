import GrSatellites.Tubix20.Window

/-!
# Isolation of the frames of TUBiX20

When a partial frame is discarded at its last block, the buffer is not reset, so that a later
last block may publish its blocks, or raise an exception. The frames are isolated exactly if
no such block completes the buffer.
-/

namespace GrSatellites.Tubix20

open Routine

variable {M : Type} {window : List (Msg M)} {s : Reframer M} {msg : Msg M}

/-! ## The invariant -/

/-- The buffers have the same keys, which fit into the error marker. -/
structure Buffered (s : Reframer M) : Prop where
  keys : s.tags.keys = s.blocks.keys
  lt : ∀ k ∈ s.blocks.keys, k < 32

/-- Every block in the buffer is one of the window. -/
def Stored (window : List (Msg M)) (s : Reframer M) : Prop :=
  ∀ i ∈ s.blocks.keys, ∃ m ∈ window, m.tags.blockId = i ∧ s.blocks.get? i = some m.packet ∧
    s.tags.get? i = some m.tags

/-- Without a header nothing is published; the blocks of a frame are those of the window; or
the frame has been discarded, and its last block is still in the buffer. -/
inductive Phase (window : List (Msg M)) (s : Reframer M) : Prop
  | idle (hexpected : s.numBlocksExpected = 0)
  | receiving (first : Msg M) (rest : List (Msg M)) (header : List Byte)
    (hwindow : window = first :: rest) (hfirst : first.tags.blockId = 0)
    (hexpected : first.tags.numBlocks = some s.numBlocksExpected)
    (hheader : first.tags.frameHeader = some header) (hset : s.frameHeader = some header)
    (hstored : Stored window s) (hlast : ∀ k ∈ s.blocks.keys, k + 1 ≠ s.numBlocksExpected)
  | discarded (hset : s.frameHeader ≠ none)
    (hlast : ∃ k ∈ s.blocks.keys, k + 1 = s.numBlocksExpected)
    (hnone : ∀ m ∈ window, m.tags.blockId ≠ 0)

theorem mem_keys_store {i : ℕ} :
    i ∈ (s.store msg).blocks.keys ↔ i = msg.tags.blockId ∨ i ∈ s.blocks.keys := Dict.mem_keys_set

theorem Buffered.store (h : Buffered s) (hmsg : IsBlock msg) : Buffered (s.store msg) := by
  refine ⟨?_, ?_⟩
  · show (s.tags.set _ _).keys = (s.blocks.set _ _).keys
    rw [Dict.keys_set, Dict.keys_set, h.keys]
  · intro k hk
    rcases mem_keys_store.mp hk with rfl | hk
    · exact hmsg.blockId_lt
    · exact h.lt k hk

theorem buffered_reset : Buffered (Reframer.reset : Reframer M) := ⟨rfl, by simp [Reframer.reset]⟩

theorem Stored.store (h : Stored window s) (msg : Msg M) :
    Stored (window ++ [msg]) (s.store msg) := by
  intro i hi
  by_cases heq : i = msg.tags.blockId
  · subst heq
    exact ⟨msg, by simp, rfl, Dict.get?_set_self, Dict.get?_set_self⟩
  · obtain ⟨m, hm, hid, hblock, htags⟩ := h i ((mem_keys_store.mp hi).resolve_left heq)
    exact ⟨m, List.mem_append_left _ hm, hid, (Dict.get?_set_of_ne heq).trans hblock,
      (Dict.get?_set_of_ne heq).trans htags⟩

/-! ## Publishing from the window -/

/-- **Publishing.** A full buffer of blocks from the window gives a frame of the window. -/
theorem publishFrame_consistsOf {first : Msg M} {rest : List (Msg M)} {header : List Byte} {n : ℕ}
    (hb : Buffered s) (hstored : Stored window s) (hwindow : window = first :: rest)
    (hfirst : first.tags.blockId = 0) (hn : first.tags.numBlocks = some n)
    (hheader : first.tags.frameHeader = some header) (hset : s.frameHeader = some header)
    (hsize : s.blocks.size = n) (hall : ∀ k ∈ s.blocks.keys, k < n) :
    ∃ event, publishFrame s = .ok event ∧ ∀ f, event = .frame f → ConsistsOf window f := by
  have hpresent := (Dict.size_eq_iff hall).mp hsize
  by_cases hvalid : 0 < s.tags.values.countP Tags.crcValid
  · have : Nonempty (Msg M) := ⟨first⟩
    choose! block hmem hid hpacket htags using fun i hi => hstored i (hpresent i hi)
    obtain ⟨marker, hprepare, hlength, hbits⟩ := prepareFrame_eq_ok hset
      (by rw [hsize]; exact hpacket) (by rw [hb.keys]; exact hb.lt)
    rw [publishFrame_of_pos hvalid, hprepare]
    refine ⟨_, rfl, ?_⟩
    rintro f heq
    cases heq
    refine ⟨first, rest, n, header, hwindow, hfirst, hn, hheader, block,
      fun i hi => ⟨hmem i hi, hid i hi⟩, marker, hlength, fun i hi => ?_, by rw [hsize]⟩
    rw [hbits i hi, testBit_errorCode]
    constructor
    · rintro ⟨t, ht, hinvalid⟩
      have hlt : i < n := hall i (hb.keys ▸ Dict.mem_keys_iff.mpr ⟨t, ht⟩)
      rw [htags i hlt] at ht
      rw [Option.some.inj ht]
      exact ⟨hlt, hinvalid⟩
    · rintro ⟨hlt, hinvalid⟩
      exact ⟨_, htags i hlt, hinvalid⟩
  · refine ⟨_, publishFrame_of_none hvalid, ?_⟩
    rintro f heq
    cases heq

/-! ## One message -/

theorem windowAfter_of_closes {events : List (Event M)} (h : events.any Event.closes = true) :
    windowAfter window msg (.ok events) = [] := if_pos h

theorem windowAfter_of_not_closes {events : List (Event M)}
    (h : events.any Event.closes = false) :
    windowAfter window msg (.ok events) = received window msg := if_neg (by rw [h]; simp)

/-- A message that is handled as it should: the frames it publishes are of the window, and the
state goes on in the window that follows. -/
def Handles (window : List (Msg M)) (s : Reframer M) (msg : Msg M) : Prop :=
  ∃ events t, exec (handleMsg msg) s = (.ok events, t) ∧
    (∀ f, Event.frame f ∈ events → ConsistsOf (received window msg) f) ∧
    Buffered t ∧ Phase (windowAfter window msg (.ok events)) t

theorem not_closes_early (s : Reframer M) : (early s).any Event.closes = false := by
  unfold early
  split_ifs <;> rfl

/-- A block 0 starts a frame from an empty buffer. -/
theorem handles_of_zero (hb : Buffered s) (hmsg : IsBlock msg) (hid : msg.tags.blockId = 0) :
    Handles window s msg := by
  obtain ⟨n, header, hn, -, -, hheader⟩ := hmsg.first hid
  have hreceived : received window msg = [msg] := if_pos hid
  have hkeys : (opened msg n header).blocks.keys = [0] := by simp [opened, Dict.keys_set]
  have hopened : Buffered (opened msg n header) := by
    refine ⟨by simp [opened, Dict.keys_set], ?_⟩
    rw [hkeys]
    simp
  have hstored : Stored [msg] (opened msg n header) := by
    rw [Stored, hkeys]
    intro i hi
    obtain rfl := List.mem_singleton.mp hi
    exact ⟨msg, List.mem_singleton_self _, hid, Dict.get?_set_self, Dict.get?_set_self⟩
  have hexec := handleMsg_of_zero s hid hn hheader hb.keys
  by_cases hone : n = 1
  · subst hone
    obtain ⟨event, hpublish, hframe⟩ := publishFrame_consistsOf hopened hstored rfl hid hn
      hheader rfl (by rw [← Dict.length_keys, hkeys]; rfl) (by rw [hkeys]; simp)
    rw [if_pos rfl, hpublish] at hexec
    refine ⟨_, _, hexec, ?_, buffered_reset, ?_⟩
    · rintro f hf
      rw [hreceived]
      rcases List.mem_append.mp hf with hf | hf
      · unfold early at hf
        split_ifs at hf <;> simp at hf
      · exact hframe f (List.mem_singleton.mp hf).symm
    · exact .idle rfl
  · rw [if_neg hone] at hexec
    refine ⟨_, _, hexec, ?_, hopened, ?_⟩
    · rintro f hf
      unfold early at hf
      split_ifs at hf <;> simp at hf
    · rw [windowAfter_of_not_closes (not_closes_early s), hreceived]
      refine .receiving msg [] header rfl hid hn hheader rfl hstored ?_
      rw [hkeys]
      rintro k hk rfl
      obtain rfl := List.mem_singleton.mp hk
      exact hone rfl

/-- A block that is not the last one is stored. -/
theorem handles_of_store (hb : Buffered s) (hp : Phase window s) (hmsg : IsBlock msg)
    (hid : msg.tags.blockId ≠ 0) (hend : msg.tags.blockId + 1 ≠ s.numBlocksExpected) :
    Handles window s msg := by
  have hreceived : received window msg = window ++ [msg] := if_neg hid
  have hexec := handleMsg_of_ne_zero s hid
  rw [if_neg hend] at hexec
  refine ⟨[], _, hexec, by simp, hb.store hmsg, ?_⟩
  rw [windowAfter_of_not_closes rfl, hreceived]
  cases hp with
  | idle hexpected => exact .idle hexpected
  | receiving first rest header hwindow hfirst hexpected hheader hset hstored hlast =>
    refine .receiving first (rest ++ [msg]) header (by rw [hwindow]; rfl) hfirst hexpected hheader
      hset (hstored.store msg) ?_
    intro k hk
    rcases mem_keys_store.mp hk with rfl | hk
    · exact hend
    · exact hlast k hk
  | discarded hset hlast hnone =>
    obtain ⟨k, hk, hlast⟩ := hlast
    refine .discarded hset ⟨k, mem_keys_store.mpr (.inr hk), hlast⟩ ?_
    intro m hm
    rcases List.mem_append.mp hm with hm | hm
    · exact hnone m hm
    · rw [List.mem_singleton.mp hm]
      exact hid

/-- A last block publishes the frame if the buffer is full, and discards it otherwise. -/
theorem handles_of_last (hb : Buffered s) (hp : Phase window s) (hmsg : IsBlock msg)
    (hid : msg.tags.blockId ≠ 0) (hend : msg.tags.blockId + 1 = s.numBlocksExpected)
    (hfresh : Completes s msg → Fresh s msg) : Handles window s msg := by
  have hreceived : received window msg = window ++ [msg] := if_neg hid
  have hexec := handleMsg_of_ne_zero s hid
  rw [if_pos hend] at hexec
  have hset : s.frameHeader ≠ none := by
    cases hp with
    | idle hexpected => omega
    | receiving first rest header hwindow hfirst hexpected hheader hset => rw [hset]; simp
    | discarded hset => exact hset
  by_cases hsize : (s.store msg).blocks.size = s.numBlocksExpected
  · rw [if_neg (by simp [hsize, hset])] at hexec
    by_cases hvalid : 0 < (s.store msg).tags.values.countP Tags.crcValid
    · obtain ⟨hnew, hlt⟩ := hfresh ⟨hend, hsize, hvalid⟩
      cases hp with
      | idle hexpected => omega
      | receiving first rest header hwindow hfirst hexpected hheader hset hstored hlast =>
        have hall : ∀ k ∈ (s.store msg).blocks.keys, k < s.numBlocksExpected := by
          intro k hk
          rcases mem_keys_store.mp hk with rfl | hk
          · omega
          · exact hlt k hk
        obtain ⟨event, hpublish, hframe⟩ := publishFrame_consistsOf (hb.store hmsg)
          (hstored.store msg) (by rw [hwindow]; rfl) hfirst hexpected hheader hset hsize hall
        rw [hpublish] at hexec
        refine ⟨_, _, hexec, ?_, buffered_reset, .idle rfl⟩
        rintro f hf
        rw [hreceived]
        exact hframe f (List.mem_singleton.mp hf).symm
      | discarded hset hlast hnone =>
        obtain ⟨k, hk, hlast⟩ := hlast
        have heq : k = msg.tags.blockId := by omega
        exact absurd (heq ▸ hk) hnew
    · rw [publishFrame_of_none hvalid] at hexec
      exact ⟨_, _, hexec, by simp, buffered_reset, .idle rfl⟩
  · rw [if_pos (.inl hsize)] at hexec
    refine ⟨_, _, hexec, by simp, hb.store hmsg, ?_⟩
    rw [windowAfter_of_closes rfl]
    exact .discarded hset ⟨_, mem_keys_store.mpr (.inl rfl), hend⟩ (by simp)

/-- **One message.** It is handled as it should if it completes the buffer only as a fresh last
block. -/
theorem handles_of_completesFresh (hb : Buffered s) (hp : Phase window s) (hmsg : IsBlock msg)
    (hfresh : CompletesFresh s msg) : Handles window s msg := by
  by_cases hid : msg.tags.blockId = 0
  · exact handles_of_zero hb hmsg hid
  · by_cases hend : msg.tags.blockId + 1 = s.numBlocksExpected
    · exact handles_of_last hb hp hmsg hid hend (hfresh hid)
    · exact handles_of_store hb hp hmsg hid hend

/-- A last block that completes the buffer and is not fresh raises an exception, or publishes
a frame of which the window has no block 0. -/
theorem completesFresh_of_isolates (hp : Phase window s) (h : Isolates window s msg) :
    CompletesFresh s msg := by
  rintro hid ⟨hend, hsize, hvalid⟩
  obtain ⟨events, hevents, hframes⟩ := h
  have hreceived : received window msg = window ++ [msg] := if_neg hid
  have hset : s.frameHeader ≠ none := by
    cases hp with
    | idle hexpected => omega
    | receiving first rest header hwindow hfirst hexpected hheader hset => rw [hset]; simp
    | discarded hset => exact hset
  have hexec := handleMsg_of_ne_zero s hid
  rw [if_pos hend, if_neg (by simp [hsize, hset]), publishFrame_of_pos hvalid] at hexec
  rw [hexec] at hevents
  cases hprepare : prepareFrame (s.store msg) with
  | error e =>
    rw [hprepare] at hevents
    cases hevents
  | ok packet =>
    rw [hprepare] at hevents
    cases hevents
    cases hp with
    | idle hexpected => omega
    | receiving first rest header hwindow hfirst hexpected hheader hset hstored hlast =>
      refine ⟨fun hmem => hlast _ hmem hend, ?_⟩
      by_contra! hbeyond
      obtain ⟨j, hj, hle⟩ := hbeyond
      obtain ⟨k, hk, hmissing⟩ :=
        Dict.exists_notMem_of_size hsize (mem_keys_store.mpr (.inr hj)) hle
      exact prepareFrame_ne_ok (hsize.symm ▸ hk) hmissing packet hprepare
    | discarded hset hlast hnone =>
      obtain ⟨first, rest, n, header, hwindow, hfirst, -⟩ :=
        hframes _ (List.mem_singleton_self _)
      have hmem : first ∈ window ++ [msg] := by
        rw [← hreceived, hwindow]
        exact List.mem_cons_self
      rcases List.mem_append.mp hmem with hmem | hmem
      · exact absurd hfirst (hnone first hmem)
      · rw [List.mem_singleton.mp hmem] at hfirst
        exact absurd hfirst hid

/-! ## Runs -/

theorem observe_append_singleton (msgs : List (Msg M)) (msg : Msg M) :
    observe (msgs ++ [msg]) =
      ((exec (handleMsg msg) (observe msgs).1).2,
        windowAfter (observe msgs).2 msg (exec (handleMsg msg) (observe msgs).1).1) := by
  rw [observe, List.foldl_append]
  rfl

/-- What holds of each message of a run. -/
theorem forall_prefix_append_singleton {Q : List (Msg M) → Msg M → Prop} {msgs : List (Msg M)} :
    (∀ earlier m, earlier ++ [m] <+: msgs ++ [msg] → Q earlier m) ↔
      (∀ earlier m, earlier ++ [m] <+: msgs → Q earlier m) ∧ Q msgs msg := by
  constructor
  · intro h
    exact ⟨fun earlier m hpre => h earlier m (hpre.trans (List.prefix_append _ _)),
      h msgs msg (List.prefix_refl _)⟩
  · rintro ⟨hbefore, hlast⟩ earlier m hpre
    rcases List.prefix_concat_iff.mp hpre with heq | hpre
    · obtain ⟨rfl, rfl⟩ := List.append_singleton_inj.mp heq
      exact hlast
    · exact hbefore earlier m hpre

/-- **Runs.** As long as every block that completes the buffer is fresh, the state goes with the
window. -/
theorem phase_observe (msgs : List (Msg M)) (hmsgs : ∀ msg ∈ msgs, IsBlock msg)
    (hfresh : ∀ earlier msg, earlier ++ [msg] <+: msgs → CompletesFresh (observe earlier).1 msg) :
    Buffered (observe msgs).1 ∧ Phase (observe msgs).2 (observe msgs).1 := by
  induction msgs using List.reverseRecOn with
  | nil => exact ⟨buffered_reset, .idle rfl⟩
  | append_singleton msgs msg ih =>
    obtain ⟨hb, hp⟩ := ih (fun m hm => hmsgs m (List.mem_append_left _ hm))
      fun earlier m hpre => hfresh earlier m (hpre.trans (List.prefix_append _ _))
    obtain ⟨events, t, hexec, -, hbuffered, hphase⟩ := handles_of_completesFresh hb hp
      (hmsgs msg (by simp)) (hfresh msgs msg (List.prefix_refl _))
    rw [observe_append_singleton, hexec]
    exact ⟨hbuffered, hphase⟩

/-- **Isolation.** In a run of blocks, no message raises an exception and every frame consists
of the blocks in its window if and only if every last block that completes the buffer is a
fresh one, without blocks beyond it. -/
theorem isolated_iff (msgs : List (Msg M)) (hmsgs : ∀ msg ∈ msgs, IsBlock msg) :
    Isolated msgs ↔
      ∀ earlier msg, earlier ++ [msg] <+: msgs → CompletesFresh (observe earlier).1 msg := by
  induction msgs using List.reverseRecOn with
  | nil => simp [Isolated]
  | append_singleton msgs msg ih =>
    have hblocks : ∀ m ∈ msgs, IsBlock m := fun m hm => hmsgs m (List.mem_append_left _ hm)
    have hmsg : IsBlock msg := hmsgs msg (by simp)
    rw [Isolated, forall_prefix_append_singleton, forall_prefix_append_singleton]
    constructor
    · rintro ⟨hbefore, hlast⟩
      have hfresh := (ih hblocks).mp hbefore
      obtain ⟨-, hp⟩ := phase_observe msgs hblocks hfresh
      exact ⟨hfresh, completesFresh_of_isolates hp hlast⟩
    · rintro ⟨hfresh, hlast⟩
      obtain ⟨hb, hp⟩ := phase_observe msgs hblocks hfresh
      obtain ⟨events, t, hexec, hframes, -⟩ := handles_of_completesFresh hb hp hmsg hlast
      exact ⟨(ih hblocks).mpr hfresh, events, by rw [hexec], hframes⟩

/-- A correct block of a frame of the given number of blocks, with a byte of data. -/
def block (n id : ℕ) (byte : Byte) : Msg Unit :=
  ⟨⟨id, true, 0, 0, if id = 0 then some n else none, if id = 0 then some [byte] else none, ()⟩,
    [byte]⟩

theorem isBlock_block {n id : ℕ} (byte : Byte) (hid : id < 32) (hpos : 1 ≤ n) (hn : n ≤ 32) :
    IsBlock (block n id byte) := by
  refine ⟨hid, fun hzero => ?_⟩
  obtain rfl : id = 0 := hzero
  exact ⟨n, [byte], rfl, hpos, hn, rfl⟩

/-- The two blocks of a frame in order. -/
theorem isolated_two_blocks : Isolated [block 2 0 7, block 2 1 8] := by
  refine (isolated_iff _ ?_).mpr ?_
  · intro msg hmsg
    rcases List.mem_pair.mp hmsg with rfl | rfl
    · exact isBlock_block 7 (by norm_num) (by norm_num) (by norm_num)
    · exact isBlock_block 8 (by norm_num) (by norm_num) (by norm_num)
  · intro earlier msg hpre
    rcases earlier with _ | ⟨first, _ | ⟨second, rest⟩⟩
    · obtain rfl : msg = block 2 0 7 := by simpa using hpre
      exact fun hid => absurd rfl hid
    · simp only [List.cons_append, List.nil_append, List.cons_prefix_cons, List.nil_prefix,
        and_true] at hpre
      obtain ⟨rfl, rfl⟩ := hpre
      exact fun _ _ => ⟨by decide, by decide⟩
    · simp at hpre

/-- A frame of four blocks loses block 1 and is discarded at block 3. Blocks 1 and 3 of a later
frame, of which block 0 is lost, then make it be published. -/
theorem not_isolated_discarded :
    ¬ Isolated [block 4 0 1, block 4 2 2, block 4 3 3, block 4 1 4, block 4 3 5] := by
  intro h
  obtain ⟨events, hevents, hframes⟩ :=
    h [block 4 0 1, block 4 2 2, block 4 3 3, block 4 1 4] (block 4 3 5) (List.prefix_refl _)
  have hpublished : (exec (handleMsg (block 4 3 5)) (observe
      [block 4 0 1, block 4 2 2, block 4 3 3, block 4 1 4]).1).1 = .ok [.frame ⟨some (), 4, 0, 0,
        [1] ++ [1, 4, 2, 5] ++ [0xAA] ++ [0, 0, 0, 0] ++ [0xBB]⟩] := rfl
  rw [hpublished] at hevents
  cases hevents
  obtain ⟨first, rest, n, header, hwindow, hfirst, -⟩ := hframes _ (List.mem_singleton_self _)
  have hreceived : received (observe [block 4 0 1, block 4 2 2, block 4 3 3, block 4 1 4]).2
      (block 4 3 5) = [block 4 1 4, block 4 3 5] := rfl
  rw [hreceived] at hwindow
  obtain ⟨rfl, -⟩ := List.cons.inj hwindow
  cases hfirst

end GrSatellites.Tubix20
