import GrSatellites.Rs.RoundTrip

/-!
# The encoder for vector streams

An output item of `work` has the size of a frame with codewords that are not shortened. It is
the frame of a message when the input frame fills the codewords.
-/

namespace GrSatellites.Rs

open Interleave

variable {setup : StreamSetup} {codec : Codec setup.config.nn setup.config.nroots}
  {codeword frame out : List Byte}

/-- The padding is not negative, `work` returns, and whatever the output items contained, they
become the frames that the handler publishes for the input items. -/
def StreamSetup.Agrees (setup : StreamSetup)
    (codec : Codec setup.config.nn setup.config.nroots) : Prop :=
  0 ≤ setup.pad ∧
  ∀ (codeword : List Byte) (frames outs : List (List Byte)),
    codeword.length = setup.config.nn →
    (∀ frame ∈ frames, frame.length = setup.frameSize.toNat) → outs.length = frames.length →
    (∀ out ∈ outs, out.length = setup.config.nn * setup.interleave) →
      ∃ codeword' items, setup.work codec codeword frames outs = .ok (codeword', items) ∧
        List.Forall₂ (fun frame item => ∀ (b : Buffers) (car : Metadata),
          b.codeword.length = setup.config.nn →
            ∃ b', setup.encodeMsg codec b ⟨car, frame⟩ = .ok (b', [⟨car, item⟩])) frames items

/-- A code has more symbols in a codeword than roots. -/
theorem Config.nroots_lt {config : Config} (hvalid : config.valid = true) :
    config.nroots < config.nn := by
  cases config with
  | ccsds => exact (by decide : ccsdsNroots < ccsdsNn)
  | custom symsize gfpoly fcr prim nroots =>
    simp only [Config.valid, initRsChar, Bool.and_eq_true, decide_eq_true_eq] at hvalid
    obtain ⟨⟨⟨-, -, -, -, -, -, hnonneg, -, hfew⟩, -⟩, -⟩ := hvalid
    rw [Config.nroots, Config.nn]
    zify
    rw [Int.toNat_of_nonneg hnonneg, Nat.cast_sub Nat.one_le_two_pow]
    push_cast
    omega

theorem dvd_toNat {m n : ℤ} (h : m ∣ n) : m ∣ (n.toNat : ℤ) := by
  rcases le_total 0 n with hn | hn
  · rwa [Int.toNat_of_nonneg hn]
  · rw [Int.toNat_of_nonpos hn]
    exact dvd_zero m

/-! ## Frames that fill the codewords -/

theorem StreamSetup.rsKk_eq (hframe : setup.frameSize =
    ((setup.config.nn - setup.config.nroots : ℕ) : ℤ) * setup.interleave) :
    setup.rsKk = ((setup.config.nn - setup.config.nroots : ℕ) : ℤ) := by
  have hpos : (setup.interleave : ℤ) ≠ 0 := by exact_mod_cast setup.interleave_pos.ne'
  rw [StreamSetup.rsKk, hframe, Int.mul_tdiv_cancel _ hpos]

theorem StreamSetup.pad_eq (hframe : setup.frameSize =
    ((setup.config.nn - setup.config.nroots : ℕ) : ℤ) * setup.interleave) : setup.pad = 0 := by
  have hlt := Config.nroots_lt setup.valid
  rw [StreamSetup.pad, StreamSetup.rsKk_eq hframe]
  omega

/-- One item. -/
theorem encodePaths_stream (codec : Codec setup.config.nn setup.config.nroots) (hroots : setup.config.nroots ≠ 0)
    (hlength : frame.length = (setup.config.nn - setup.config.nroots) * setup.interleave)
    (hcodeword : codeword.length = setup.config.nn)
    (hout : out.length = setup.config.nn * setup.interleave) :
    ∃ codeword', codeword'.length = setup.config.nn ∧
      encodePaths codec setup.interleave (setup.config.nn - setup.config.nroots) 0 frame
        (List.range setup.interleave) ⟨codeword, out⟩ =
          .ok ⟨codeword', setup.encoded codec frame⟩ := by
  have hle := (Config.nroots_lt setup.valid).le
  have hpad : 0 + (setup.config.nn - setup.config.nroots) + setup.config.nroots =
      setup.config.nn := by omega
  obtain ⟨codeword', hcodeword', hpaths⟩ : ∃ codeword', codeword'.length = setup.config.nn ∧
      encodePaths codec setup.interleave (setup.config.nn - setup.config.nroots) 0 frame
        (List.range setup.interleave) ⟨codeword, out⟩ = .ok ⟨codeword', scatterAll setup.interleave
          (fun j => codec.encodePath 0 (gather frame setup.interleave
            (setup.config.nn - setup.config.nroots) j)) (List.range setup.interleave) out⟩ :=
    encodePaths_eq hroots hpad _ hcodeword
  refine ⟨codeword', hcodeword', ?_⟩
  rw [hpaths, Setup.encoded, hlength, Nat.mul_div_cancel _ setup.interleave_pos, Nat.sub_sub_self hle,
    Nat.sub_self, Nat.sub_add_cancel hle, scatterAll_range _ setup.interleave_pos hout]
  intro j _
  rw [codec.length_encodePath, length_gather, Nat.sub_add_cancel hle]

/-- **Full frames.** Every item becomes the frame of its input item. -/
theorem work_eq (hroots : setup.config.nroots ≠ 0) (hframe : setup.frameSize =
    ((setup.config.nn - setup.config.nroots : ℕ) : ℤ) * setup.interleave)
    {frames outs : List (List Byte)} (hcodeword : codeword.length = setup.config.nn)
    (hframes : ∀ frame ∈ frames,
      frame.length = (setup.config.nn - setup.config.nroots) * setup.interleave)
    (houts : outs.length = frames.length)
    (hout : ∀ out ∈ outs, out.length = setup.config.nn * setup.interleave) :
    ∃ codeword', setup.work codec codeword frames outs =
      .ok (codeword', frames.map (setup.encoded codec)) := by
  induction frames generalizing codeword outs with
  | nil => exact ⟨codeword, by simp [StreamSetup.work]⟩
  | cons frame frames ih =>
    obtain ⟨out, outs, rfl⟩ := List.exists_cons_of_length_eq_add_one houts
    obtain ⟨codeword', hcodeword', hpaths⟩ := encodePaths_stream codec hroots
      (hframes frame List.mem_cons_self) hcodeword (hout out List.mem_cons_self)
    obtain ⟨codeword'', hrest⟩ := ih hcodeword'
      (fun f hf => hframes f (List.mem_cons_of_mem frame hf)) (Nat.succ.inj houts)
      (fun o ho => hout o (List.mem_cons_of_mem out ho))
    refine ⟨codeword'', ?_⟩
    rw [StreamSetup.work, StreamSetup.rsKk_eq hframe, StreamSetup.pad_eq hframe, Int.toNat_natCast]
    simp only [toSizeT, Int.zero_emod, Int.toNat_zero, hpaths, bind, Except.bind, hrest, pure,
      Except.pure, List.map_cons]

/-! ## Other frames -/

/-- The items that `work` returns have the size of the output items. -/
theorem length_work_item {codeword' : List Byte} {items : List (List Byte)}
    (h : setup.work codec codeword [frame] [out] = .ok (codeword', items)) :
    ∃ item, items = [item] ∧ item.length = out.length := by
  rw [StreamSetup.work] at h
  cases hpaths : encodePaths codec setup.interleave setup.rsKk.toNat (toSizeT setup.pad) frame
      (List.range setup.interleave) ⟨codeword, out⟩ with
  | error e =>
    rw [hpaths] at h
    cases h
  | ok b =>
    simp only [hpaths, StreamSetup.work, bind, Except.bind, pure, Except.pure, Except.ok.injEq,
      Prod.mk.injEq] at h
    exact ⟨b.outputFrame, h.2.symm, length_outputFrame hpaths⟩

/-- Without roots, `work` does not return. -/
theorem work_of_no_roots (hroots : setup.config.nroots = 0) {frames outs : List (List Byte)} :
    setup.work codec codeword (frame :: frames) (out :: outs) = .error .outOfBounds := by
  have hjs : List.range setup.interleave ≠ [] := fun hnil =>
    setup.interleave_pos.ne' (List.range_eq_nil.mp hnil)
  rw [StreamSetup.work, encodePaths_of_no_roots hroots hjs]
  rfl

/-- A message that is published as one PDU has the size that its parity symbols make. -/
theorem length_of_encodeMsg {b b' : Buffers} {car : Metadata} {sent : List Byte}
    (hroots : setup.config.nroots ≠ 0) (hdvd : setup.interleave ∣ frame.length)
    (hb : b.codeword.length = setup.config.nn)
    (h : setup.encodeMsg codec b ⟨car, frame⟩ = .ok (b', [⟨car, sent⟩])) :
    sent.length = (frame.length / setup.interleave + setup.config.nroots) * setup.interleave := by
  by_cases hfit : frame.length / setup.interleave + setup.config.nroots ≤ setup.config.nn
  · obtain ⟨codeword', hsent⟩ : ∃ codeword', setup.encodeMsg codec b ⟨car, frame⟩ =
        .ok (⟨codeword', setup.encoded codec frame⟩, [⟨car, setup.encoded codec frame⟩]) :=
      encodeMsg_eq hdvd hfit hroots car hb
    rw [hsent] at h
    cases h
    exact length_encoded
  · simp only [Setup.encodeMsg, Nat.mod_eq_zero_of_dvd hdvd, ne_eq, not_true_eq_false, if_false,
      if_pos (Nat.not_le.mp hfit)] at h
    cases h

/-- **Streams and messages.** The stream agrees with the messages exactly if the code has roots
and the input frame fills the codewords. -/
theorem agrees_iff (setup : StreamSetup) (codec : Codec setup.config.nn setup.config.nroots) :
    setup.Agrees codec ↔ 0 < setup.config.nroots ∧
      setup.frameSize = ((setup.config.nn - setup.config.nroots : ℕ) : ℤ) * setup.interleave := by
  have hlt := Config.nroots_lt setup.valid
  constructor
  · rintro ⟨-, hagrees⟩
    set frame : List Byte := List.replicate setup.frameSize.toNat 0 with hframe
    set out : List Byte := List.replicate (setup.config.nn * setup.interleave) 0 with hout
    obtain ⟨codeword', items, hwork, hitems⟩ := hagrees (List.replicate setup.config.nn 0) [frame]
      [out] List.length_replicate (by simp [hframe]) rfl (by simp [hout])
    obtain ⟨item, rfl, hitem⟩ := length_work_item hwork
    have hroots : setup.config.nroots ≠ 0 := by
      intro hzero
      rw [work_of_no_roots hzero] at hwork
      cases hwork
    have hdvd : setup.interleave ∣ frame.length := by
      rw [hframe, List.length_replicate]
      exact Int.natCast_dvd_natCast.mp (dvd_toNat setup.interleave_dvd)
    obtain ⟨b', hsent⟩ := (List.forall₂_cons.mp hitems).1 ⟨List.replicate setup.config.nn 0, []⟩ []
      List.length_replicate
    have hfull : frame.length / setup.interleave + setup.config.nroots = setup.config.nn := by
      have hlength := length_of_encodeMsg hroots hdvd List.length_replicate hsent
      rw [hitem, hout, List.length_replicate] at hlength
      exact Nat.eq_of_mul_eq_mul_right setup.interleave_pos hlength.symm
    refine ⟨Nat.pos_of_ne_zero hroots, ?_⟩
    have hsize : frame.length = (setup.config.nn - setup.config.nroots) * setup.interleave := by
      rw [← Nat.div_mul_cancel hdvd, ← hfull, Nat.add_sub_cancel]
    have hpos : 0 < setup.frameSize.toNat := by
      rw [← List.length_replicate (n := setup.frameSize.toNat) (a := (0 : Byte)), ← hframe, hsize]
      exact Nat.mul_pos (by omega) setup.interleave_pos
    rw [hframe, List.length_replicate] at hsize
    rw [← Nat.cast_mul, ← hsize, Int.toNat_of_nonneg (by omega)]
  · rintro ⟨hpos, hframe⟩
    have hsize : setup.frameSize.toNat =
        (setup.config.nn - setup.config.nroots) * setup.interleave := by
      rw [hframe, ← Nat.cast_mul, Int.toNat_natCast]
    refine ⟨(StreamSetup.pad_eq hframe).ge, fun codeword frames outs hcodeword hframes houts hout => ?_⟩
    rw [hsize] at hframes
    obtain ⟨codeword', hwork⟩ := work_eq hpos.ne' hframe hcodeword hframes houts hout
    refine ⟨codeword', _, hwork, ?_⟩
    rw [List.forall₂_map_right_iff, List.forall₂_same]
    intro frame hmem b car hb
    have hlength := hframes frame hmem
    have hfit : frame.length / setup.interleave + setup.config.nroots ≤ setup.config.nn := by
      rw [hlength, Nat.mul_div_cancel _ setup.interleave_pos, Nat.sub_add_cancel hlt.le]
    obtain ⟨codeword'', hsent⟩ := encodeMsg_eq (hlength ▸ Nat.dvd_mul_left _ _) hfit hpos.ne' car hb
    exact ⟨_, hsent⟩

/-- The code with the one root `1`: the symbols of a codeword add up to zero. -/
def parityCheck : Codec 3 1 where
  encode data := [data.foldl (· ^^^ ·) 0]
  decode word := if word.foldl (· ^^^ ·) 0 = 0 then some (word, 0) else none
  length_encode _ := rfl
  length_decode h := by
    rw [Option.ite_none_right_eq_some] at h
    cases h.2
    rfl

/-- Frames of one symbol, where the codewords have room for two. -/
def shortenedSetup : StreamSetup where
  config := .custom 2 0x7 0 1 1
  interleave := 1
  valid := by decide
  interleave_pos := Nat.one_pos
  frameSize := 1
  interleave_dvd := ⟨1, rfl⟩

/-- A shortened frame leaves the end of its output item as it was. -/
theorem not_agrees_shortened :
    shortenedSetup.work parityCheck [0, 0, 0] [[2]] [[7, 7, 7]] = .ok ([0, 2, 2], [[2, 2, 7]]) ∧
      ¬shortenedSetup.Agrees parityCheck := by
  have hwork : shortenedSetup.work parityCheck [0, 0, 0] [[2]] [[7, 7, 7]] =
      .ok ([0, 2, 2], [[2, 2, 7]]) := by rfl
  refine ⟨hwork, fun hagrees => ?_⟩
  obtain ⟨codeword', items, hitems, hpdus⟩ := hagrees.2 [0, 0, 0] [[2]] [[7, 7, 7]] rfl
    (by decide) rfl (by decide)
  rw [hwork] at hitems
  cases hitems
  obtain ⟨b', hsent⟩ := (List.forall₂_cons.mp hpdus).1 ⟨[0, 0, 0], []⟩ [] rfl
  have hmessage : shortenedSetup.encodeMsg parityCheck ⟨[0, 0, 0], []⟩
      (⟨[], [2]⟩ : Pdu Metadata) = .ok (⟨[0, 2, 2], [2, 2]⟩, [⟨[], [2, 2]⟩]) := by rfl
  rw [hmessage] at hsent
  cases hsent

end GrSatellites.Rs
