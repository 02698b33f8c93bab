import GrSatellites.Kiss.Model

/-!
# KISS in TM frames

Between two FENDs the transport and `kiss_to_pdu` treat a byte in the same way. They
part at a FEND that closes a packet: the transport stores a new list, but goes on
appending to the old one until the frame ends. A frame is harmless when nothing is
appended and no FEND arrives after that.
-/

namespace GrSatellites.Kiss

open Transducer

variable {M : Type}

/-! ## One byte -/

/-- The bytes that a byte other than FEND appends, and whether the next one is escaped. -/
def unescape (transpose : Bool) (c : Byte) : List Byte × Bool :=
  if transpose then
    if c = tfend then ([fend], false) else if c = tfesc then ([fesc], false) else ([], false)
  else if c = fesc then ([], true) else ([c], false)

theorem kissToPdu_of_ne_fend {c : Byte} (hc : c ≠ fend) (controlByte : Bool) (s : KissState) :
    kissToPdu controlByte s c =
      (⟨s.pdu ++ (unescape s.transpose c).1, (unescape s.transpose c).2⟩, []) := by
  obtain ⟨pdu, transpose⟩ := s
  unfold kissToPdu unescape
  rw [if_neg hc]
  cases transpose <;> (simp only [if_true, Bool.false_eq_true, if_false]; split_ifs <;> simp)

theorem TmKissLoop.step_of_ne_fend {c : Byte} (hc : c ≠ fend) (l : TmKissLoop) :
    l.step c =
      ({ l with
          packet := l.packet ++ (unescape l.transpose c).1
          transpose := (unescape l.transpose c).2 }, []) := by
  obtain ⟨packet, stored, transpose⟩ := l
  unfold step unescape
  rw [if_neg hc]
  cases transpose <;> (simp only [if_true, Bool.false_eq_true, if_false]; split_ifs <;> simp)

theorem kissToPdu_fend (s : KissState) :
    kissToPdu false s fend = (⟨[], s.transpose⟩, if s.pdu = [] then [] else [s.pdu]) := by
  obtain ⟨pdu, transpose⟩ := s
  cases pdu <;> rfl

theorem TmKissLoop.step_fend (l : TmKissLoop) :
    l.step fend =
      if l.packet = [] then (l, []) else ({ l with stored := some [] }, [l.packet]) := by
  obtain ⟨packet, stored, transpose⟩ := l
  cases packet <;> rfl

/-! ## One frame -/

/-- Once a FEND closes a packet, the rest of the data field has no FEND and decodes to
no byte. -/
def EndsCleanly (s : KissState) : List Byte → Prop
  | [] => True
  | c :: payload =>
    if c = fend ∧ s.pdu ≠ [] then
      fend ∉ payload ∧ (run (kissToPdu false) ⟨[], s.transpose⟩ payload).1.pdu = []
    else EndsCleanly (kissToPdu false s c).1 payload

/-- Without a FEND nothing is published, and the packet and the escape state go on as in
`kiss_to_pdu`. -/
theorem run_of_fend_notMem {payload : List Byte} (hpayload : fend ∉ payload) (s : KissState)
    (packet : List Byte) (stored : Option (List Byte)) :
    ∃ bytes transpose,
      run (kissToPdu false) s payload = (⟨s.pdu ++ bytes, transpose⟩, []) ∧
      run TmKissLoop.step ⟨packet, stored, s.transpose⟩ payload =
        (⟨packet ++ bytes, stored, transpose⟩, []) := by
  induction payload generalizing s packet with
  | nil => exact ⟨[], s.transpose, by simp, by simp⟩
  | cons c payload ih =>
    obtain ⟨hc, hpayload⟩ := not_or.mp (mt List.mem_cons.mpr hpayload)
    obtain ⟨bytes, transpose, hkiss, hloop⟩ := ih hpayload
      ⟨s.pdu ++ (unescape s.transpose c).1, (unescape s.transpose c).2⟩
      (packet ++ (unescape s.transpose c).1)
    refine ⟨(unescape s.transpose c).1 ++ bytes, transpose, ?_, ?_⟩
    · rw [run_cons, kissToPdu_of_ne_fend (Ne.symm hc), hkiss, List.append_assoc]
      rfl
    · rw [run_cons, TmKissLoop.step_of_ne_fend (Ne.symm hc), hloop, List.append_assoc]
      rfl

/-- **One frame.** From the same packet and escape state, the transport agrees with
`kiss_to_pdu` on a data field that ends cleanly. -/
theorem run_of_endsCleanly {s : KissState} {payload : List Byte} (h : EndsCleanly s payload) :
    let k := run (kissToPdu false) s payload
    let l := run TmKissLoop.step ⟨s.pdu, none, s.transpose⟩ payload
    l.2 = k.2 ∧ l.1.stored.getD l.1.packet = k.1.pdu ∧ l.1.transpose = k.1.transpose := by
  induction payload generalizing s with
  | nil => exact ⟨rfl, rfl, rfl⟩
  | cons c payload ih =>
    rw [EndsCleanly] at h
    by_cases hc : c = fend
    · subst hc
      by_cases hpdu : s.pdu = []
      · rw [if_neg fun hand => hand.2 hpdu] at h
        have hrest := ih h
        rw [kissToPdu_fend, if_pos hpdu] at hrest
        rw [run_cons, run_cons, kissToPdu_fend, TmKissLoop.step_fend, if_pos hpdu, if_pos hpdu, hpdu]
        exact hrest
      · rw [if_pos ⟨rfl, hpdu⟩] at h
        obtain ⟨bytes, transpose, hkiss, hloop⟩ :=
          run_of_fend_notMem h.1 ⟨[], s.transpose⟩ s.pdu (some [])
        have hbytes : bytes = [] := by simpa [hkiss] using h.2
        rw [run_cons, run_cons, kissToPdu_fend, TmKissLoop.step_fend, if_neg hpdu, if_neg hpdu, hkiss]
        simp only
        rw [hloop, hbytes]
        exact ⟨rfl, rfl, rfl⟩
    · rw [if_neg fun hand => hc hand.1] at h
      have hrest := ih h
      rw [kissToPdu_of_ne_fend hc] at hrest
      rw [run_cons, run_cons, kissToPdu_of_ne_fend hc, TmKissLoop.step_of_ne_fend hc]
      exact hrest

/-- While `packet` is not empty, the transport publishes at every FEND. -/
theorem length_run_loop {l : TmKissLoop} (hpacket : l.packet ≠ []) (payload : List Byte) :
    (run TmKissLoop.step l payload).2.length = payload.count fend := by
  induction payload generalizing l with
  | nil => rfl
  | cons c payload ih =>
    rw [run_cons, List.length_append]
    by_cases hc : c = fend
    · subst hc
      rw [TmKissLoop.step_fend, if_neg hpacket, List.count_cons_self]
      simp only [List.length_singleton]
      rw [ih (l := { l with stored := some [] }) hpacket, Nat.add_comm]
    · rw [TmKissLoop.step_of_ne_fend hc, List.count_cons_of_ne hc, ih (by simp [hpacket]),
        List.length_nil, Nat.zero_add]

/-- `kiss_to_pdu` publishes at most one packet for each FEND. -/
theorem length_run_kissToPdu_le (s : KissState) (payload : List Byte) :
    (run (kissToPdu false) s payload).2.length ≤ payload.count fend := by
  induction payload generalizing s with
  | nil => exact le_refl 0
  | cons c payload ih =>
    rw [run_cons, List.length_append]
    have hrest := ih (kissToPdu false s c).1
    by_cases hc : c = fend
    · subst hc
      have hone : (kissToPdu false s fend).2.length ≤ 1 := by
        rw [kissToPdu_fend]
        split <;> simp
      rw [List.count_cons_self]
      omega
    · rw [List.count_cons_of_ne hc]
      rw [kissToPdu_of_ne_fend hc] at hrest ⊢
      simpa using hrest

/-- A FEND after the one that closed a packet makes the transport publish something else
than `kiss_to_pdu`. -/
theorem run_ne_of_fend_mem {packet payload : List Byte} (hpacket : packet ≠ [])
    (hpayload : fend ∈ payload) (stored : Option (List Byte)) (transpose : Bool) :
    (run TmKissLoop.step ⟨packet, stored, transpose⟩ payload).2 ≠
      (run (kissToPdu false) ⟨[], transpose⟩ payload).2 := by
  obtain ⟨before, after, rfl, hbefore⟩ := List.eq_append_cons_of_mem hpayload
  obtain ⟨bytes, transpose', hkiss, hloop⟩ :=
    run_of_fend_notMem hbefore ⟨[], transpose⟩ packet stored
  simp only [List.nil_append] at hkiss hloop
  have hmore : packet ++ bytes ≠ [] := by simp [hpacket]
  rw [run_append, run_append, hkiss, hloop, run_cons, run_cons, kissToPdu_fend,
    TmKissLoop.step_fend, if_neg hmore, List.nil_append, List.nil_append]
  intro heq
  have hloopLength := length_run_loop (l := ⟨packet ++ bytes, some [], transpose'⟩) hmore after
  have hkissLength := length_run_kissToPdu_le ⟨[], transpose'⟩ after
  have hlength := congrArg List.length heq
  simp only [List.length_append, List.length_singleton] at hlength
  by_cases hbytes : bytes = []
  · simp only [hbytes, if_true, List.length_nil] at hlength
    rw [hbytes] at hloopLength
    omega
  · simp only [hbytes, if_false, List.singleton_append, List.cons.injEq] at heq
    exact hpacket (List.append_left_eq_self.mp heq.1)

/-- The condition is exact: a data field that does not end cleanly makes the transport
publish something else, or leaves it with another packet. -/
theorem endsCleanly_of_run {s : KissState} {payload : List Byte}
    (hout : (run TmKissLoop.step ⟨s.pdu, none, s.transpose⟩ payload).2 =
      (run (kissToPdu false) s payload).2)
    (hpacket : (run TmKissLoop.step ⟨s.pdu, none, s.transpose⟩ payload).1.stored.getD
        (run TmKissLoop.step ⟨s.pdu, none, s.transpose⟩ payload).1.packet =
      (run (kissToPdu false) s payload).1.pdu) : EndsCleanly s payload := by
  induction payload generalizing s with
  | nil => trivial
  | cons c payload ih =>
    rw [EndsCleanly]
    rw [run_cons, run_cons] at hout hpacket
    by_cases hc : c = fend
    · subst hc
      rw [kissToPdu_fend, TmKissLoop.step_fend] at hout hpacket
      by_cases hpdu : s.pdu = []
      · rw [if_neg fun hand => hand.2 hpdu, kissToPdu_fend]
        rw [if_pos hpdu, if_pos hpdu] at hout
        rw [if_pos hpdu] at hpacket
        rw [hpdu] at hout hpacket
        exact ih hout hpacket
      · rw [if_pos ⟨rfl, hpdu⟩]
        rw [if_neg hpdu, if_neg hpdu] at hout
        rw [if_neg hpdu] at hpacket
        have hfend : fend ∉ payload := fun hmem =>
          run_ne_of_fend_mem hpdu hmem (some []) s.transpose (List.append_cancel_left hout)
        obtain ⟨bytes, transpose, hkiss, hloop⟩ :=
          run_of_fend_notMem hfend ⟨[], s.transpose⟩ s.pdu (some [])
        refine ⟨hfend, ?_⟩
        rw [← hpacket]
        simp only
        rw [hloop]
        rfl
    · rw [if_neg fun hand => hc hand.1]
      rw [kissToPdu_of_ne_fend hc, TmKissLoop.step_of_ne_fend hc] at hout hpacket
      rw [kissToPdu_of_ne_fend hc]
      exact ih hout hpacket

/-! ## Runs -/

namespace TmKissTransport

variable (t : TmKissTransport)

theorem run_handleMsgOn_fst (s : TmKissState) (msgs : List (Msg M)) :
    (run t.handleMsgOn s msgs).1 = (run t.handleMsg s msgs).1 := by
  induction msgs generalizing s with
  | nil => rfl
  | cons msg msgs ih => exact ih _

/-- The channel's packet and escape state are those of `kiss_to_pdu`. -/
def Agrees (vc : ℕ) (s : TmKissState) (k : KissState) : Prop :=
  s.packets vc = some k.pdu ∧ s.transpose vc = k.transpose

/-- A message without a frame of the channel leaves its packet alone and publishes
nothing for it. -/
theorem handleMsg_of_ne {vc : ℕ} {msg : Msg M}
    (hmsg : ∀ payload, t.tmFrame msg ≠ some (vc, payload)) (s : TmKissState) :
    (t.handleMsg s msg).1.packets vc = s.packets vc ∧
      (t.handleMsg s msg).1.transpose vc = s.transpose vc ∧
      (t.handleMsgOn s msg).2.filter (fun o => o.1 = some vc) = [] := by
  cases hframe : t.tmFrame msg with
  | none => simp [handleMsgOn, handleMsg, hframe]
  | some frame =>
    obtain ⟨vc', payload⟩ := frame
    have hne : vc ≠ vc' := fun h => hmsg payload (h ▸ hframe)
    cases hpacket : s.packets vc' with
    | none => simp [handleMsgOn, handleMsg, hframe, hpacket]
    | some packet => simp [handleMsgOn, handleMsg, hframe, hpacket, hne, Ne.symm hne]

/-- A frame of the channel that ends cleanly is treated as `kiss_to_pdu` treats its data
field. -/
theorem handleMsg_of_endsCleanly {vc : ℕ} {msg : Msg M} {payload : List Byte}
    (hmsg : t.tmFrame msg = some (vc, payload)) {s : TmKissState} {k : KissState}
    (hs : Agrees vc s k) (hclean : EndsCleanly k payload) :
    Agrees vc (t.handleMsg s msg).1 (run (kissToPdu false) k payload).1 ∧
      ((t.handleMsgOn s msg).2.filter fun o => o.1 = some vc).map Prod.snd =
        (run (kissToPdu false) k payload).2 := by
  obtain ⟨hpacket, htranspose⟩ := hs
  obtain ⟨hout, hstored, hlast⟩ := run_of_endsCleanly hclean
  simp [Agrees, handleMsgOn, handleMsg, hmsg, hpacket, htranspose, hout, hstored, hlast,
    List.filter_map, Function.comp_def]

theorem dataFields_append_singleton (vc : ℕ) (msgs : List (Msg M)) (msg : Msg M) :
    t.dataFields vc (msgs ++ [msg]) = t.dataFields vc msgs ++ t.dataFields vc [msg] :=
  List.flatMap_append

theorem dataFields_of_ne {vc : ℕ} {msg : Msg M}
    (hmsg : ∀ payload, t.tmFrame msg ≠ some (vc, payload)) : t.dataFields vc [msg] = [] := by
  cases hframe : t.tmFrame msg with
  | none => simp [dataFields, hframe]
  | some frame =>
    have hne : frame.1 ≠ vc := fun h => hmsg frame.2 (hframe.trans (by rw [← h]))
    simp [dataFields, hframe, hne]

/-- In the state that a run reaches, every frame of the channel in the run so far has
ended cleanly. -/
def FramesEndCleanly (vc : ℕ) (msgs : List (Msg M)) : Prop :=
  ∀ earlier msg payload packet, earlier ++ [msg] <+: msgs → t.tmFrame msg = some (vc, payload) →
    (run t.handleMsg t.init earlier).1.packets vc = some packet →
      EndsCleanly ⟨packet, (run t.handleMsg t.init earlier).1.transpose vc⟩ payload

end TmKissTransport

/-- **TM KISS transport.** For a channel whose frames all end cleanly, the transport
publishes what `kiss_to_pdu` publishes for the data fields of the channel, in every
interleaving with other messages. -/
theorem tmKissTransport_published (t : TmKissTransport) {vc : ℕ} (hvc : vc ∈ t.virtualChannels)
    (msgs : List (Msg M)) (hclean : t.FramesEndCleanly vc msgs) :
    t.published vc msgs = (run (kissToPdu false) .init (t.dataFields vc msgs)).2 := by
  have hrun := @run_induction _ _ _ t.handleMsgOn
    (fun msgs out s => s = (run t.handleMsg t.init msgs).1 ∧
      TmKissTransport.Agrees vc s (run (kissToPdu false) .init (t.dataFields vc msgs)).1 ∧
      (out.filter fun o => o.1 = some vc).map Prod.snd =
        (run (kissToPdu false) .init (t.dataFields vc msgs)).2) t.init msgs
    ⟨rfl, ⟨if_pos hvc, rfl⟩, rfl⟩ ?_
  · exact hrun.2.2
  · rintro earlier msg out s hpre ⟨hs, hagrees, hout⟩
    have hnext : (t.handleMsgOn s msg).1 = (run t.handleMsg t.init (earlier ++ [msg])).1 := by
      rw [run_append, run_singleton, ← hs]
      rfl
    refine ⟨hnext, ?_⟩
    rw [t.dataFields_append_singleton, run_append, List.filter_append, List.map_append, hout]
    by_cases hframe : ∃ payload, t.tmFrame msg = some (vc, payload)
    · obtain ⟨payload, hframe⟩ := hframe
      have hfield : t.dataFields vc [msg] = payload := by simp [TmKissTransport.dataFields, hframe]
      have hends := hclean earlier msg payload _ hpre hframe (hs ▸ hagrees.1)
      rw [← hs, hagrees.2] at hends
      obtain ⟨hstate, hpublished⟩ := t.handleMsg_of_endsCleanly hframe hagrees hends
      rw [hfield, hpublished]
      exact ⟨hstate, rfl⟩
    · have hne : ∀ payload, t.tmFrame msg ≠ some (vc, payload) := not_exists.mp hframe
      obtain ⟨hpacket, htranspose, hpublished⟩ := t.handleMsg_of_ne hne s
      rw [t.dataFields_of_ne hne, hpublished]
      exact ⟨⟨hpacket.trans hagrees.1, htranspose.trans hagrees.2⟩, rfl⟩

/-- A frame whose data field ends in an escape after the FEND that closes its packet. -/
theorem tmKissTransport_published_escape :
    let t : TmKissTransport := ⟨[3], false⟩
    let frame : Msg Unit := .u8vector ⟨(), [0, 6, 0, 0, 0, 0, 0xdb, 0xdc, 0xc0, 0xdb]⟩
    t.published 3 [frame] = (run (kissToPdu false) .init (t.dataFields 3 [frame])).2 := by
  intro t frame
  refine tmKissTransport_published t (by decide) _ ?_
  rintro earlier msg payload packet hpre hframe hpacket
  obtain ⟨rfl, hmsg⟩ : earlier = [] ∧ msg = frame := by
    cases earlier with
    | nil => simpa using hpre
    | cons => simp at hpre
  rw [hmsg] at hframe
  have hfield : t.tmFrame frame = some (3, [0xdb, 0xdc, 0xc0, 0xdb]) := by decide
  obtain rfl : [0xdb, 0xdc, 0xc0, 0xdb] = payload := by simpa [hfield] using hframe
  obtain rfl : [] = packet := Option.some.inj hpacket
  simp [EndsCleanly, kissToPdu, fend, fesc, tfend, run_cons, TmKissTransport.init, t]

/-- Two packets that end in one frame: the second is published with the first before it. -/
theorem tmKissTransport_two_packets :
    let t : TmKissTransport := ⟨[0], false⟩
    let frame : Msg Unit := .u8vector ⟨(), [0, 0, 0, 0, 0, 0, 1, 0xc0, 2, 0xc0]⟩
    t.published 0 [frame] = [[1], [1, 2]] ∧
      (run (kissToPdu false) .init (t.dataFields 0 [frame])).2 = [[1], [2]] := by
  decide

end GrSatellites.Kiss
