import GrSatellites.Nanolink.Frames

/-!
# Segmentation of a Nanolink stream

The frames published do not depend on how the stream is cut into PDUs, as long as no cut
falls inside a sync word that is searched for.
-/

namespace GrSatellites.Nanolink

open Search Transducer

variable {M : Type} {found : Found} {seen xs ys : List Byte}

/-- The bytes of some messages, one after the other. -/
def stream (msgs : List (Msg M)) : List Byte := msgs.flatMap payload

/-- The frames delimited in an uncut stream. -/
def framesOf (bytes : List Byte) : List (List Byte) := (run delimit (.searching []) bytes).2

/-- No cut between two messages falls inside a sync word that is searched for. -/
def CutsOutsideSync (msgs : List (Msg M)) : Prop :=
  ∀ front back, msgs = front ++ back →
    ∀ seen, (run delimit (.searching []) (stream front)).1 = .searching seen →
      ¬ Straddles syncword seen (stream back)

theorem stream_append (front back : List (Msg M)) :
    stream (front ++ back) = stream front ++ stream back := List.flatMap_append

/-- Two searches, of which one has forgotten what was searched before, run in step. -/
theorem run_searching (hcut : ¬ Straddles syncword seen ys) :
    run delimit (.searching []) ys = (.searching ys, []) ∧
        run delimit (.searching seen) ys = (.searching (seen ++ ys), []) ∨
      run delimit (.searching []) ys = run delimit (.searching seen) ys := by
  induction ys using List.reverseRecOn with
  | nil => exact Or.inl ⟨rfl, by rw [run_nil, List.append_nil]⟩
  | append_singleton ys y ih =>
    rcases ih fun h => hcut (h.append [y]) with ⟨hforgot, hseen⟩ | hsame
    · simp only [run_append, run_singleton, hforgot, hseen, delimit]
      have hiff : syncword <:+ seen ++ ys ++ [y] ↔ syncword <:+ ys ++ [y] := by
        rw [List.append_assoc]
        constructor
        · intro h
          have hcut' : ¬Straddles syncword seen (ys ++ [y] ++ []) := by rwa [List.append_nil]
          exact isSuffix_of_isSuffix_append h (by simp) hcut'
        · exact List.suffix_append_of_suffix
      by_cases hsync : syncword <:+ ys ++ [y]
      · right
        rw [if_pos hsync, if_pos (hiff.mpr hsync)]
      · left
        rw [if_neg hsync, if_neg (mt hiff.mp hsync)]
        simp
    · right
      rw [run_append, run_append, hsame]

/-- What is found after a cut does not depend on the bytes searched before it. -/
theorem run_forget (hcut : ∀ seen, found = .searching seen → ¬ Straddles syncword seen ys) :
    (run delimit found.forget ys).2 = (run delimit found ys).2 ∧
      (run delimit found.forget ys).1.forget = (run delimit found ys).1.forget := by
  cases found with
  | inFrame current => exact ⟨rfl, rfl⟩
  | searching seen =>
    rw [Found.forget]
    rcases run_searching (hcut seen rfl) with ⟨hforgot, hseen⟩ | hsame
    · rw [hforgot, hseen]
      exact ⟨rfl, rfl⟩
    · rw [hsame]
      exact ⟨rfl, rfl⟩

/-- A message, handled in a state that tracks what has been found. -/
theorem handleMsg_follows {s : Defragmenter} (h : Tracks s found) (msg : Msg M) :
    Follows (handleMsg s msg) found (payload msg) := by
  cases msg with
  | u8vector pdu => exact handleLoop_follows _ s found pdu.cdr h (Nat.lt_succ_self _)
  | other _ => exact ⟨rfl, h.forget⟩

/-- **Runs.** A defragmenter publishes the frames of the stream. -/
theorem run_handleMsg (msgs : List (Msg M)) (hcuts : CutsOutsideSync msgs) :
    (run handleMsg .init msgs).2 = framesOf (stream msgs) ∧
      Tracks (run handleMsg .init msgs).1
        (run delimit (.searching []) (stream msgs)).1.forget := by
  refine run_induction (I := fun xs out s => out = framesOf (stream xs) ∧
    Tracks s (run delimit (.searching []) (stream xs)).1.forget) msgs
    ⟨rfl, .searching _ rfl⟩ ?_
  rintro front msg out s ⟨back, rfl⟩ ⟨hout, htracks⟩
  obtain ⟨hmsg, hnext⟩ := handleMsg_follows htracks msg
  have hcut : ∀ seen, (run delimit (.searching []) (stream front)).1 = .searching seen →
      ¬ Straddles syncword seen (payload msg) := fun seen hseen hstraddles =>
    hcuts front (msg :: back) (by simp) seen hseen (hstraddles.append (stream back))
  obtain ⟨hsame, hlast⟩ := run_forget hcut
  have hstream : stream (front ++ [msg]) = stream front ++ payload msg := by
    rw [stream_append]
    exact congrArg (stream front ++ ·) (List.flatMap_singleton payload msg)
  rw [hstream, framesOf, run_append]
  constructor
  · rw [hout, hmsg, hsame]
    rfl
  · rwa [← hlast]

/-- A stream in one PDU has no cut. -/
theorem cutsOutsideSync_singleton (msg : Msg M) : CutsOutsideSync [msg] := by
  intro front back hsplit seen hseen
  cases front with
  | nil =>
    cases hseen
    exact not_straddles_nil_left syncword _
  | cons first front =>
    obtain ⟨_, hnil⟩ := List.cons_eq_cons.mp hsplit
    obtain ⟨_, rfl⟩ := List.append_eq_nil_iff.mp hnil.symm
    exact not_straddles_nil_right syncword seen

/-- **Segmentation invariance.** If no cut falls inside a sync word that is searched for, two
ways of cutting a stream into PDUs publish the same frames, those of the uncut stream. -/
theorem handleMsg_segmentation {msgs msgs' : List (Msg M)} (hstream : stream msgs = stream msgs')
    (hcuts : CutsOutsideSync msgs) (hcuts' : CutsOutsideSync msgs') :
    (run handleMsg .init msgs).2 = (run handleMsg .init msgs').2 ∧
      (run handleMsg .init msgs).2 = framesOf (stream msgs) := by
  constructor
  · rw [(run_handleMsg msgs hcuts).1, (run_handleMsg msgs' hcuts').1, hstream]
  · exact (run_handleMsg msgs hcuts).1

/-- A frame cut inside its header and inside its body, and uncut. -/
theorem handleMsg_segmentation_one_frame :
    let cut : List (Msg Unit) := [.u8vector ⟨(), [0xfa, 0xf3, 0x20, 0x01]⟩,
      .u8vector ⟨(), [0x00, 0x20, 0xaa]⟩, .u8vector ⟨(), [0xbb]⟩]
    let uncut : List (Msg Unit) :=
      [.u8vector ⟨(), [0xfa, 0xf3, 0x20, 0x01, 0x00, 0x20, 0xaa, 0xbb]⟩]
    (run handleMsg .init cut).2 = (run handleMsg .init uncut).2 ∧
      (run handleMsg .init cut).2 = framesOf (stream cut) := by
  refine handleMsg_segmentation rfl ?_ (cutsOutsideSync_singleton _)
  intro front back hsplit seen hseen
  match front, hsplit with
  | [], _ =>
    cases hseen
    exact not_straddles_nil_left syncword _
  | [_], hsplit =>
    cases hsplit
    cases hseen
  | [_, _], hsplit =>
    cases hsplit
    cases hseen
  | [_, _, _], hsplit =>
    cases hsplit
    exact not_straddles_nil_right syncword seen

/-- A cut inside the sync word: the frame is lost. -/
theorem handleMsg_cut_in_sync :
    let cut : List (Msg Unit) := [.u8vector ⟨(), [0xfa, 0xf3]⟩,
      .u8vector ⟨(), [0x20, 0x01, 0x00, 0x20, 0xaa, 0xbb]⟩]
    (run handleMsg .init cut).2 = [] ∧
      framesOf (stream cut) = [[0x01, 0x00, 0x20, 0xaa, 0xbb]] := by
  constructor <;> decide

end GrSatellites.Nanolink
