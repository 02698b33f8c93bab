import GrSatellites.Nanolink.Model

/-!
# Frames and cuts

A defragmenter that handles one PDU finds the frames that start in it or that it is in. It
forgets the bytes that it has searched, so it follows the frames of the stream as long as no
sync word that it searches for straddles a cut.
-/

namespace GrSatellites.Nanolink

open Search Transducer

variable {M : Type} {s : Defragmenter} {found : Found} {xs current : List Byte}

/-! ## Runs over a part of the stream -/

theorem run_delimit_searching
    (h : ∀ ys, ys <+: xs → ¬ syncword <:+ ys) :
    run delimit (.searching []) xs = (.searching xs, []) := by
  induction xs using List.reverseRecOn with
  | nil => rfl
  | append_singleton xs x ih =>
    have hxs := ih fun ys hys => h ys (hys.trans (List.prefix_append xs [x]))
    rw [run_append, run_singleton, hxs, delimit, if_neg (h _ (List.prefix_refl _))]
    rfl

/-- A suffix of a part of a list is at its place in the list. -/
theorem isPrefix_drop_of_isSuffix_take {pattern : List Byte} {n : ℕ} (hn : n ≤ xs.length)
    (h : pattern <:+ xs.take n) : pattern <+: xs.drop (n - pattern.length) := by
  obtain ⟨front, hfront⟩ := h
  have hlength := congrArg List.length hfront
  rw [List.length_append, List.length_take, Nat.min_eq_left hn] at hlength
  have hxs : xs = front ++ (pattern ++ xs.drop n) := by
    rw [← List.append_assoc, hfront, List.take_append_drop]
  rw [hxs, List.drop_left' (by omega)]
  exact List.prefix_append _ _

/-- A search that finds nothing. -/
theorem run_delimit_of_find_none (h : find syncword xs = none) :
    run delimit (.searching []) xs = (.searching xs, []) := by
  refine run_delimit_searching fun ys hys hsuffix => ?_
  rw [List.prefix_iff_eq_take.mp hys] at hsuffix
  exact not_isPrefix_drop_of_find_none h _
    (isPrefix_drop_of_isSuffix_take hys.length_le hsuffix)

/-- A search up to the end of the sync word that it finds. -/
theorem run_delimit_of_find_some {a : ℕ} (h : find syncword xs = some a) :
    run delimit (.searching []) (xs.take (a + syncword.length)) = (.inFrame [], []) := by
  obtain ⟨rest, hrest⟩ := isPrefix_drop_of_find h
  have htake : xs.take (a + syncword.length) = xs.take a ++ [0xfa, 0xf3] ++ [0x20] := by
    rw [List.take_add, ← hrest, List.take_left]
    simp [syncword]
  have hlength : a + syncword.length ≤ xs.length := by
    have := congrArg List.length hrest
    rw [List.length_append, List.length_drop] at this
    have hpos : 0 < syncword.length := by decide
    omega
  have hsearch : run delimit (.searching []) (xs.take a ++ [0xfa, 0xf3]) =
      (.searching (xs.take a ++ [0xfa, 0xf3]), []) := by
    refine run_delimit_searching fun ys hys hsuffix => ?_
    have hys' : ys <+: xs := by
      refine hys.trans (List.IsPrefix.trans ?_ (List.take_prefix (a + syncword.length) xs))
      rw [htake]
      exact List.prefix_append _ _
    have hlt : ys.length < a + syncword.length := by
      have := hys.length_le
      rw [List.length_append, List.length_take, List.length_cons, List.length_singleton] at this
      have hthree : syncword.length = 3 := rfl
      omega
    have hle := hsuffix.length_le
    rw [List.prefix_iff_eq_take.mp hys'] at hsuffix
    exact not_isPrefix_drop_of_find h (by omega)
      (isPrefix_drop_of_isSuffix_take hys'.length_le hsuffix)
  rw [htake, run_append, hsearch, run_singleton, delimit, if_pos]
  · rfl
  · exact ⟨xs.take a, by simp [syncword]⟩

theorem run_delimit_part (h : ∀ ys, ys <+: xs → ys ≠ [] → ¬ IsFrame (current ++ ys)) :
    run delimit (.inFrame current) xs = (.inFrame (current ++ xs), []) := by
  induction xs using List.reverseRecOn with
  | nil => rw [run_nil, List.append_nil]
  | append_singleton xs x ih =>
    have hxs := ih fun ys hys => h ys (hys.trans (List.prefix_append xs [x]))
    have hlast := h (xs ++ [x]) (List.prefix_refl _) (by simp)
    rw [← List.append_assoc] at hlast
    rw [run_append, run_singleton, hxs, delimit, if_neg hlast, List.append_assoc]
    rfl

/-- The length of a frame is known when its header is. -/
theorem frameLength_of_isPrefix {ys : List Byte} (h : ys <+: xs) (hlength : headerLen ≤ ys.length) :
    frameLength ys = frameLength xs := by
  obtain ⟨rest, rfl⟩ := h
  rw [headerLen] at hlength
  rw [frameLength, frameLength, List.getD_append _ _ _ 1 (by omega),
    List.getD_append _ _ _ 2 (by omega)]

theorem not_isFrame_of_lt {ys : List Byte} (h : ys <+: xs)
    (hlt : ys.length < headerLen + frameLength xs) : ¬ IsFrame ys := by
  rintro ⟨hheader, hlength⟩
  rw [frameLength_of_isPrefix h hheader] at hlength
  omega

/-- Bytes after which the frame is not complete. -/
theorem run_delimit_partial (hlt : (current ++ xs).length < headerLen + frameLength (current ++ xs)) :
    run delimit (.inFrame current) xs = (.inFrame (current ++ xs), []) := by
  refine run_delimit_part fun ys hys _ => ?_
  have hstart := (List.prefix_append_right_inj current).mpr hys
  exact not_isFrame_of_lt hstart (hstart.length_le.trans_lt hlt)

/-- Bytes that complete the frame. -/
theorem run_delimit_whole (hne : xs ≠ [])
    (heq : (current ++ xs).length = headerLen + frameLength (current ++ xs)) :
    run delimit (.inFrame current) xs = (.searching [], [current ++ xs]) := by
  obtain ⟨ys, y, rfl⟩ := List.eq_nil_or_concat' xs |>.resolve_left hne
  have hframe : IsFrame (current ++ (ys ++ [y])) := ⟨by omega, heq⟩
  have hpart : run delimit (.inFrame current) ys = (.inFrame (current ++ ys), []) := by
    refine run_delimit_part fun zs hzs _ => ?_
    have hstart := (List.prefix_append_right_inj current).mpr (hzs.trans (List.prefix_append ys [y]))
    refine not_isFrame_of_lt hstart ?_
    have := hzs.length_le
    rw [List.length_append] at heq ⊢
    rw [← heq, List.length_append, List.length_singleton]
    omega
  rw [run_append, hpart, run_singleton, delimit, List.append_assoc, if_pos hframe]
  rfl

/-! ## Rounds of the loop -/

/-- What a defragmenter remembers of what has been found. -/
inductive Tracks : Defragmenter → Found → Prop where
  | searching (s : Defragmenter) : s.inFrame = false → Tracks s (.searching [])
  | header (current : List Byte) : current.length < headerLen →
      Tracks ⟨true, current, none⟩ (.inFrame current)
  | body (current : List Byte) (remain : ℕ) : headerLen ≤ current.length → 0 < remain →
      current.length + remain = headerLen + frameLength current →
      Tracks ⟨true, current, some remain⟩ (.inFrame current)

/-- The body of a frame of which the header is complete. -/
theorem takeBody_spec (remain : Option ℕ) (current pre in0 : List Byte) {b : ℕ}
    (hheader : headerLen ≤ (current ++ pre).length)
    (hremain : remain.getD (frameLength (current ++ pre)) = b)
    (hb : (current ++ pre).length + b = headerLen + frameLength (current ++ pre))
    (hne : pre ≠ [] ∨ 0 < b) :
    ∃ t out taken found, takeBody ⟨true, current ++ pre, remain⟩ in0 = (t, in0.drop b, out) ∧
      in0 = taken ++ in0.drop b ∧ run delimit (.inFrame current) (pre ++ taken) = (found, out) ∧
      Tracks t found := by
  have hlength (ys : List Byte) :
      frameLength (current ++ (pre ++ ys)) = frameLength (current ++ pre) := by
    rw [← List.append_assoc]
    exact (frameLength_of_isPrefix (List.prefix_append _ ys) hheader).symm
  simp only [takeBody, hremain, List.length_take]
  rcases Nat.lt_or_ge in0.length b with hlt | hle
  · have hpartial : (current ++ (pre ++ in0)).length <
        headerLen + frameLength (current ++ (pre ++ in0)) := by
      rw [hlength, ← hb, ← List.append_assoc, List.length_append]
      omega
    rw [if_neg (by omega), List.drop_of_length_le hlt.le, List.take_of_length_le hlt.le]
    refine ⟨_, _, in0, _, rfl, (List.append_nil in0).symm, run_delimit_partial hpartial, ?_⟩
    rw [List.append_assoc]
    refine .body _ _ ?_ (by omega) ?_
    · rw [← List.append_assoc, List.length_append]
      omega
    · rw [hlength, ← hb, ← List.append_assoc, List.length_append]
      omega
  · have hwhole : (current ++ (pre ++ in0.take b)).length =
        headerLen + frameLength (current ++ (pre ++ in0.take b)) := by
      rw [hlength, ← hb, ← List.append_assoc, List.length_append, List.length_take]
      omega
    have hnonempty : pre ++ in0.take b ≠ [] := by
      intro hnil
      obtain ⟨hpre, htake⟩ := List.append_eq_nil_iff.mp hnil
      have := congrArg List.length htake
      rw [List.length_take, List.length_nil] at this
      rcases hne with hne | hpos
      · exact hne hpre
      · omega
    rw [if_pos (by omega)]
    refine ⟨_, _, in0.take b, _, rfl, (List.take_append_drop b in0).symm, ?_, .searching _ rfl⟩
    rw [run_delimit_whole hnonempty hwhole, List.append_assoc]

/-- **A round in a frame.** It takes bytes and follows what they delimit. -/
theorem takeFrame_spec (h : Tracks s (.inFrame current)) (in0 : List Byte) :
    ∃ t left out taken found, takeFrame s in0 = (t, left, out) ∧ in0 = taken ++ left.getD [] ∧
      (in0 ≠ [] → (left.getD []).length < in0.length) ∧
      run delimit (.inFrame current) taken = (found, out) ∧ Tracks t found := by
  cases h with
  | header _ hlt =>
    have hfill : fillHeader ⟨true, current, none⟩ in0 =
        (⟨true, current ++ in0.take (headerLen - current.length), none⟩,
          in0.drop (headerLen - current.length)) := if_pos hlt
    simp only [takeFrame, hfill]
    rcases Nat.lt_or_ge in0.length (headerLen - current.length) with hshort | hlong
    · have hlength : (current ++ in0).length < headerLen := by
        rw [List.length_append]
        omega
      rw [List.take_of_length_le hshort.le, if_pos hlength]
      refine ⟨_, none, _, in0, _, rfl, (List.append_nil in0).symm, ?_,
        run_delimit_partial (by omega), .header _ hlength⟩
      exact List.length_pos_iff.mpr
    · have hlength : (current ++ in0.take (headerLen - current.length)).length = headerLen := by
        rw [List.length_append, List.length_take]
        omega
      have hne : in0.take (headerLen - current.length) ≠ [] := by
        intro hnil
        rw [hnil, List.append_nil] at hlength
        omega
      rw [if_neg (by rw [hlength]; omega)]
      obtain ⟨t, out, taken, found, hbody, hin0, hrun, ht⟩ := takeBody_spec none current _
        (in0.drop (headerLen - current.length)) hlength.ge rfl (by rw [hlength]; rfl) (Or.inl hne)
      rw [hbody]
      refine ⟨t, _, out, _, found, rfl, ?_, ?_, hrun, ht⟩
      · rw [List.append_assoc, Option.getD_some, ← hin0, List.take_append_drop]
      · intro hnonempty
        have := List.length_pos_iff.mpr hnonempty
        rw [Option.getD_some, List.length_drop, List.length_drop]
        omega
  | body _ remain hheader hpos hremain =>
    have hfill : fillHeader ⟨true, current, some remain⟩ in0 =
        (⟨true, current, some remain⟩, in0) := if_neg (by simpa using hheader)
    simp only [takeFrame, hfill]
    rw [if_neg (Nat.not_lt.mpr hheader)]
    obtain ⟨t, out, taken, found, hbody, hin0, hrun, ht⟩ := takeBody_spec (some remain) current []
      in0 (by simpa using hheader) rfl (by simpa using hremain) (Or.inr hpos)
    rw [List.append_nil] at hbody
    rw [hbody]
    refine ⟨t, _, out, taken, found, rfl, hin0, ?_, hrun, ht⟩
    intro hnonempty
    have := List.length_pos_iff.mpr hnonempty
    rw [Option.getD_some, Option.getD_some, List.length_drop]
    omega

/-- What is found does not depend on the bytes searched before, once they are forgotten. -/
def Found.forget : Found → Found
  | .searching _ => .searching []
  | .inFrame current => .inFrame current

/-- Taking the header after a sync word completes nothing else. -/
theorem fillHeader_take (in0 : List Byte) :
    fillHeader ⟨true, in0.take headerLen, none⟩ (in0.drop headerLen) =
      fillHeader ⟨true, [], none⟩ in0 := by
  have hnone : fillHeader ⟨true, [], none⟩ in0 =
      (⟨true, in0.take headerLen, none⟩, in0.drop headerLen) := rfl
  rw [hnone]
  rcases Nat.lt_or_ge in0.length headerLen with hlt | hle
  · have htake : (in0.take headerLen).length < headerLen := by
      rw [List.length_take]
      omega
    rw [fillHeader, if_pos htake, List.drop_of_length_le hlt.le]
    simp
  · refine if_neg ?_
    simpa using hle

/-- A result of the loop is what is delimited from some bytes. -/
def Follows (result : Defragmenter × List (List Byte)) (found : Found) (in0 : List Byte) : Prop :=
  result.2 = (run delimit found in0).2 ∧ Tracks result.1 (run delimit found in0).1.forget

theorem Tracks.forget (h : Tracks s found) : Tracks s found.forget := by
  cases h with
  | searching _ hsearching => exact .searching s hsearching
  | header current hlt => exact .header current hlt
  | body current remain hheader hpos hremain => exact .body current remain hheader hpos hremain

/-- A round that takes bytes of a frame, after the bytes up to the end of a sync word. -/
theorem handleLoop_enter {rounds : ℕ} {in0 left before rest : List Byte} {s' t : Defragmenter}
    (ih : ∀ s found in0, Tracks s found → in0.length < rounds →
      Follows (handleLoop rounds s in0) found in0)
    (hin0 : in0 ≠ []) (hrounds : in0.length < rounds + 1)
    (henter : enterFrame s in0 = some (t, left)) (htake : takeFrame t left = takeFrame s' rest)
    (hsplit : in0 = before ++ rest) (hbefore : run delimit found before = (.inFrame current, []))
    (h : Tracks s' (.inFrame current)) : Follows (handleLoop (rounds + 1) s in0) found in0 := by
  obtain ⟨u, left', out, taken, found', htaken, hrest, hless, hrun, hu⟩ := takeFrame_spec h rest
  have hall : run delimit found (before ++ taken) = (found', out) := by
    rw [run_append, hbefore, hrun]
    rfl
  rw [handleLoop, if_neg hin0, henter]
  simp only [htake, htaken]
  cases left' with
  | none =>
    have hbytes : in0 = before ++ taken := by
      rw [hsplit, hrest, Option.getD_none, List.append_nil]
    rw [Follows, hbytes, hall]
    exact ⟨rfl, hu.forget⟩
  | some left' =>
    have hbytes : in0 = before ++ taken ++ left' := by
      rw [hsplit, hrest, Option.getD_some, List.append_assoc]
    have hshort : left'.length < rounds := by
      have hlength := congrArg List.length hsplit
      rw [List.length_append] at hlength
      by_cases hnil : rest = []
      · have hleft : left' = [] := (List.append_eq_nil_iff.mp (hnil ▸ hrest.symm)).2
        have := List.length_pos_iff.mpr hin0
        rw [hleft, List.length_nil]
        omega
      · have := hless hnil
        rw [Option.getD_some] at this
        omega
    obtain ⟨hout, hlast⟩ := ih u found' left' hu hshort
    rw [Follows, hbytes, run_append, hall]
    exact ⟨congrArg (out ++ ·) hout, hlast⟩

/-- **One PDU.** With enough rounds, the loop publishes the frames delimited. -/
theorem handleLoop_follows (rounds : ℕ) (s : Defragmenter) (found : Found) (in0 : List Byte)
    (h : Tracks s found) (hrounds : in0.length < rounds) :
    Follows (handleLoop rounds s in0) found in0 := by
  induction rounds generalizing s found in0 with
  | zero => omega
  | succ rounds ih =>
    by_cases hin0 : in0 = []
    · rw [hin0, handleLoop, if_pos rfl]
      exact ⟨rfl, h.forget⟩
    · cases found with
      | inFrame current =>
        have henter : enterFrame s in0 = some (s, in0) := by
          cases h <;> rfl
        exact handleLoop_enter ih hin0 hrounds henter rfl (List.nil_append in0).symm rfl h
      | searching seen =>
        cases h with
        | searching _ hsearching =>
          cases hfind : find syncword in0 with
          | none =>
            have henter : enterFrame s in0 = none := by
              simp [enterFrame, hsearching, hfind]
            rw [handleLoop, if_neg hin0, henter, Follows, run_delimit_of_find_none hfind]
            exact ⟨rfl, .searching s hsearching⟩
          | some a =>
            have henter : enterFrame s in0 =
                some (⟨true, (in0.drop (a + syncword.length)).take headerLen, none⟩,
                  (in0.drop (a + syncword.length)).drop headerLen) := by
              simp [enterFrame, hsearching, hfind]
            refine handleLoop_enter ih hin0 hrounds henter ?_
              (List.take_append_drop (a + syncword.length) in0).symm
              (run_delimit_of_find_some hfind) (.header [] (by decide))
            rw [takeFrame, fillHeader_take, ← takeFrame]

end GrSatellites.Nanolink
