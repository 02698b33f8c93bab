import GrSatellites.VarlenPacket.Model

/-!
# One sync tag

A tagger on a stream with one sync tag goes through three phases: it searches for the tag, waits
for the packet, and has put out the packet. A call never goes back, and a call with everything
available goes on to the next phase.
-/

namespace GrSatellites.VarlenPacket

open Transducer

variable {tagger : Tagger} {stream : Stream Unit} {sync : ℕ} {packet : List Byte}

/-- The items of a stream with a tag, and the items from the tag on. -/
structure TaggedAt (stream : Stream Unit) (sync : ℕ) : Prop where
  tags : stream.tags = [(sync, ())]
  lt : sync < stream.items.length

/-- Some items are a header that the tagger accepts, with the packet behind it. -/
structure Tagger.Reads (tagger : Tagger) (input packet : List Byte) : Prop where
  packetLen : tagger.packetLen (input.take tagger.headerLength.toNat) = .ok (some packet.length)
  mtu : (packet.length : ℤ) ≤ tagger.mtu
  complete : tagger.headerLength + packet.length ≤ input.length
  items : (input.drop tagger.headerLength.toNat).take packet.length = packet

/-- A call with all the items of the stream, and room for the packet. -/
structure Call.Full (call : Call) (stream : Stream Unit) (packet : List Byte) : Prop where
  room : packet.length ≤ call.noutputItems
  all : stream.items.length ≤ call.ninputItems

/-- The phases of a tagger, with what it has put out. -/
inductive Phase (sync : ℕ) (packet : List Byte) : ℕ → TaggerState → List Packet → Prop
  | searching {nitemsRead : ℕ} {required : ℤ} (hread : nitemsRead ≤ sync) :
      Phase sync packet 0 ⟨false, nitemsRead, 0, required⟩ []
  | synced {required : ℤ} : Phase sync packet 1 ⟨true, sync, 0, required⟩ []
  | done {nitemsRead nitemsWritten : ℕ} {required : ℤ} (hread : sync < nitemsRead) :
      Phase sync packet 2 ⟨false, nitemsRead, nitemsWritten, required⟩
        [⟨packet, 0, packet.length⟩]

theorem Phase.out_eq {i : ℕ} {s : TaggerState} {out : List Packet}
    (hs : Phase sync packet i s out) (hi : 2 ≤ i) : out = [⟨packet, 0, packet.length⟩] := by
  cases hs with
  | searching => omega
  | synced => omega
  | done => rfl

/-! ## Steps -/

theorem TaggedAt.firstTag (hstream : TaggedAt stream sync) (first last : ℕ) :
    stream.firstTag first last = if first ≤ sync ∧ sync < last then some (sync, ()) else none := by
  rw [Stream.firstTag, hstream.tags, List.find?_singleton]
  simp

/-- A call to a tagger that searches stops at the tag, or goes on to the end of what is there. -/
theorem step_searching (tagger : Tagger) (hstream : TaggedAt stream sync) {nitemsRead : ℕ}
    (nitemsWritten : ℕ) (required : ℤ) (hread : nitemsRead ≤ sync) (call : Call) :
    (∃ read ≤ sync, tagger.step stream ⟨false, nitemsRead, nitemsWritten, required⟩ call =
        .ok (⟨false, read, nitemsWritten, required⟩, []) ∧
          ¬stream.items.length ≤ call.ninputItems) ∨
      tagger.step stream ⟨false, nitemsRead, nitemsWritten, required⟩ call =
        .ok (⟨true, sync, nitemsWritten, required⟩, []) := by
  have hlt := hstream.lt
  simp only [Tagger.step, Tagger.generalWork, Bool.false_eq_true, if_false, hstream.firstTag]
  by_cases hfound : sync < nitemsRead + min call.ninputItems (stream.items.length - nitemsRead)
  · rw [if_pos ⟨hread, hfound⟩]
    exact Or.inr rfl
  · rw [if_neg fun h => hfound h.2]
    refine Or.inl ⟨_, Nat.not_lt.mp hfound, rfl, ?_⟩
    omega

/-- After the tag there is nothing to find. -/
theorem step_done (tagger : Tagger) (hstream : TaggedAt stream sync) {nitemsRead : ℕ}
    (nitemsWritten : ℕ) (required : ℤ) (hread : sync < nitemsRead) (call : Call) :
    ∃ read > sync, tagger.step stream ⟨false, nitemsRead, nitemsWritten, required⟩ call =
      .ok (⟨false, read, nitemsWritten, required⟩, []) := by
  simp only [Tagger.step, Tagger.generalWork, Bool.false_eq_true, if_false, hstream.firstTag]
  rw [if_neg fun h => absurd h.1 (Nat.not_le.mpr hread)]
  exact ⟨_, hread.trans_le (Nat.le_add_right _ _), rfl⟩

/-- A tagger after the tag waits until the packet is there, and puts it out. -/
theorem step_synced (hreads : tagger.Reads (stream.items.drop sync) packet) (nitemsWritten : ℕ)
    (required : ℤ) (call : Call) :
    (∃ required', tagger.step stream ⟨true, sync, nitemsWritten, required⟩ call =
        .ok (⟨true, sync, nitemsWritten, required'⟩, []) ∧ ¬call.Full stream packet) ∨
      ∃ required', tagger.step stream ⟨true, sync, nitemsWritten, required⟩ call =
        .ok (⟨false, sync + tagger.headerLength.toNat, nitemsWritten + packet.length, required'⟩,
          [⟨packet, nitemsWritten, packet.length⟩]) := by
  have hcomplete := hreads.complete
  rw [List.length_drop] at hcomplete
  simp only [Tagger.step, Tagger.generalWork, if_true]
  by_cases hshort :
      ((min call.ninputItems (stream.items.length - sync) : ℕ) : ℤ) < tagger.headerLength
  · rw [if_pos hshort]
    refine Or.inl ⟨required, rfl, fun hfull => ?_⟩
    have hall := hfull.all
    omega
  · rw [if_neg hshort]
    simp only [Tagger.readPacket, hreads.packetLen, bind, Except.bind, pure, Except.pure,
      if_neg (not_lt.mpr hreads.mtu), hreads.items]
    by_cases hwait : call.noutputItems < packet.length ∨
        ((min call.ninputItems (stream.items.length - sync) : ℕ) : ℤ) <
          packet.length + tagger.headerLength
    · rw [if_pos hwait]
      refine Or.inl ⟨_, rfl, fun hfull => ?_⟩
      have hall := hfull.all
      have hroom := hfull.room
      omega
    · rw [if_neg hwait]
      exact Or.inr ⟨_, rfl⟩

/-! ## Runs -/

/-- Any call keeps the phase or goes on, and a full call goes on. -/
theorem Phase.step {i : ℕ} {s : TaggerState} {out : List Packet} (hstream : TaggedAt stream sync)
    (hheader : 0 < tagger.headerLength) (hreads : tagger.Reads (stream.items.drop sync) packet)
    (hs : Phase sync packet i s out) (call : Call) :
    ∃ j s' more, tagger.step stream s call = .ok (s', more) ∧ Phase sync packet j s' (out ++ more) ∧
      i ≤ j ∧ (call.Full stream packet → min 2 (i + 1) ≤ j) := by
  cases hs with
  | searching hread =>
    rcases step_searching tagger hstream 0 _ hread call with
      ⟨read, hread', hstep, hpart⟩ | hstep
    · exact ⟨0, _, _, hstep, .searching hread', le_rfl, fun hfull => absurd hfull.all hpart⟩
    · exact ⟨1, _, _, hstep, .synced, Nat.zero_le 1, fun _ => le_rfl⟩
  | synced =>
    rcases step_synced hreads 0 _ call with ⟨required', hstep, hpart⟩ | ⟨required', hstep⟩
    · exact ⟨1, _, _, hstep, .synced, le_rfl, fun hfull => absurd hfull hpart⟩
    · refine ⟨2, _, _, hstep, ?_, Nat.le_succ 1, fun _ => le_rfl⟩
      exact .done (by omega)
  | done hread =>
    obtain ⟨read, hread', hstep⟩ := step_done tagger hstream _ _ hread call
    exact ⟨2, _, _, hstep, .done hread', le_rfl, fun _ => le_rfl⟩

theorem Phase.run {i : ℕ} {s : TaggerState} {out : List Packet} (hstream : TaggedAt stream sync)
    (hheader : 0 < tagger.headerLength) (hreads : tagger.Reads (stream.items.drop sync) packet)
    (hs : Phase sync packet i s out) (calls : List Call) :
    ∃ j s' more, runE (tagger.step stream) s calls = .ok (s', more) ∧
      Phase sync packet j s' (out ++ more) ∧ i ≤ j := by
  induction calls generalizing i s out with
  | nil => exact ⟨i, s, [], rfl, by rwa [List.append_nil], le_rfl⟩
  | cons call calls ih =>
    obtain ⟨j, s', more, hstep, hphase, hij, -⟩ := hs.step hstream hheader hreads call
    obtain ⟨k, s'', last, hrun, hphase', hjk⟩ := ih hphase
    refine ⟨k, s'', more ++ last, ?_, by rwa [← List.append_assoc], hij.trans hjk⟩
    simp only [runE, hstep, hrun, bind, Except.bind, pure, Except.pure]

/-- **One packet.** After any calls and two full ones, the packet has been put out, once. -/
theorem run_full (hstream : TaggedAt stream sync) (hheader : 0 < tagger.headerLength)
    (hreads : tagger.Reads (stream.items.drop sync) packet) {full : Call}
    (hfull : full.Full stream packet) (required : ℤ) (calls : List Call) :
    (runE (tagger.step stream) ⟨false, 0, 0, required⟩ (calls ++ [full, full])).map Prod.snd =
      .ok [⟨packet, 0, packet.length⟩] := by
  have hstart : Phase sync packet 0 ⟨false, 0, 0, required⟩ [] := .searching (Nat.zero_le sync)
  obtain ⟨i, s, out, hrun, hs, -⟩ := hstart.run hstream hheader hreads calls
  obtain ⟨j, s', out', hstep, hs', -, hj⟩ := hs.step hstream hheader hreads full
  obtain ⟨k, s'', out'', hstep', hs'', -, hk⟩ := hs'.step hstream hheader hreads full
  have hlast : 2 ≤ k := by
    have hj := hj hfull
    have hk := hk hfull
    omega
  have hall : runE (tagger.step stream) ⟨false, 0, 0, required⟩ (calls ++ [full, full]) =
      .ok (s'', out ++ (out' ++ out'')) := by
    simp only [runE_append, hrun, runE, hstep, hstep', bind, Except.bind, pure, Except.pure,
      List.append_nil]
  rw [hall, ← hs''.out_eq hlast, List.nil_append, List.append_assoc]
  rfl

/-- A header of no items leaves the tagger at the tag, where it finds the packet once more. -/
theorem run_no_header (hstream : TaggedAt stream sync) (hheader : tagger.headerLength = 0)
    (hreads : tagger.Reads (stream.items.drop sync) packet) {full : Call}
    (hfull : full.Full stream packet) (required : ℤ) :
    (runE (tagger.step stream) ⟨false, 0, 0, required⟩ ([full, full] ++ [full, full])).map Prod.snd =
      .ok [⟨packet, 0, packet.length⟩, ⟨packet, packet.length, packet.length⟩] := by
  have hpair (nitemsRead nitemsWritten : ℕ) (required : ℤ) (hread : nitemsRead ≤ sync) :
      ∃ required', runE (tagger.step stream) ⟨false, nitemsRead, nitemsWritten, required⟩
        [full, full] = .ok (⟨false, sync, nitemsWritten + packet.length, required'⟩,
          [⟨packet, nitemsWritten, packet.length⟩]) := by
    rcases step_searching tagger hstream nitemsWritten required hread full with
      ⟨_, _, _, hpart⟩ | hfirst
    · exact absurd hfull.all hpart
    rcases step_synced hreads nitemsWritten required full with ⟨_, _, hpart⟩ | ⟨required', hsecond⟩
    · exact absurd hfull hpart
    rw [hheader, Int.toNat_zero, Nat.add_zero] at hsecond
    refine ⟨required', ?_⟩
    simp only [runE, hfirst, hsecond, bind, Except.bind, pure, Except.pure, List.nil_append,
      List.append_nil]
  obtain ⟨required', hrun⟩ := hpair 0 0 required (Nat.zero_le sync)
  rw [Nat.zero_add] at hrun
  obtain ⟨required'', hrun'⟩ := hpair sync packet.length required' le_rfl
  simp only [runE_append, hrun, hrun', bind, Except.bind, pure, Except.pure, Except.map,
    List.singleton_append]

/-! ## What a packet says about the items -/

/-- A call that puts out a packet has read its length from the header. -/
theorem readPacket_inv {input : List Byte} {s s' : TaggerState} {call : Call} {p : Packet}
    (h : tagger.readPacket input s call = .ok (s', [p])) :
    tagger.packetLen (input.take tagger.headerLength.toNat) = .ok (some p.packetLen) ∧
      (p.packetLen : ℤ) ≤ tagger.mtu ∧
      tagger.headerLength + p.packetLen ≤ call.ninputItems ∧
      (input.drop tagger.headerLength.toNat).take p.packetLen = p.items := by
  unfold Tagger.readPacket at h
  cases hlen : tagger.packetLen (input.take tagger.headerLength.toNat) with
  | error e =>
    rw [hlen] at h
    cases h
  | ok announced =>
    cases announced with
    | none =>
      rw [hlen] at h
      cases h
    | some n =>
      simp only [hlen, bind, Except.bind, pure, Except.pure] at h
      split at h
      case isTrue => cases h
      case isFalse hmtu =>
        split at h
        case isTrue => cases h
        case isFalse hwait =>
          have hcomplete : tagger.headerLength + n ≤ call.ninputItems := by omega
          cases h
          exact ⟨rfl, not_lt.mp hmtu, hcomplete, rfl⟩

/-- If two full calls put out the packet, it is what the tagger reads after the tag. -/
theorem reads_of_run (hstream : TaggedAt stream sync) {full : Call} {required : ℤ}
    (hfull : full.Full stream packet)
    (hrun : (runE (tagger.step stream) ⟨false, 0, 0, required⟩ [full, full]).map Prod.snd =
      .ok [⟨packet, 0, packet.length⟩]) :
    tagger.Reads (stream.items.drop sync) packet := by
  have hfirst : tagger.step stream ⟨false, 0, 0, required⟩ full =
      .ok (⟨true, sync, 0, required⟩, []) := by
    rcases step_searching tagger hstream 0 required (Nat.zero_le sync) full with
      ⟨_, _, _, hpart⟩ | hstep
    · exact absurd hfull.all hpart
    · exact hstep
  have hsecond : ∃ s', tagger.step stream ⟨true, sync, 0, required⟩ full =
      .ok (s', [⟨packet, 0, packet.length⟩]) := by
    cases hstep : tagger.step stream ⟨true, sync, 0, required⟩ full with
    | error e =>
      simp only [runE, hfirst, hstep, bind, Except.bind] at hrun
      cases hrun
    | ok result =>
      simp only [runE, hfirst, hstep, bind, Except.bind, pure, Except.pure, List.nil_append,
        List.append_nil, Except.map, Except.ok.injEq] at hrun
      exact ⟨result.1, by rw [← hrun]⟩
  obtain ⟨s', hstep⟩ := hsecond
  simp only [Tagger.step, Tagger.generalWork, if_true] at hstep
  split at hstep
  case isTrue => cases hstep
  case isFalse =>
    obtain ⟨hlen, hmtu, hcomplete, hitems⟩ := readPacket_inv hstep
    refine ⟨hlen, hmtu, hcomplete.trans ?_, hitems⟩
    rw [List.length_drop]
    exact_mod_cast Nat.min_le_right _ _

end GrSatellites.VarlenPacket
