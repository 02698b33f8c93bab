import GrSatellites.Rs.Paths

/-!
# Frames with errors

A frame that the encoder publishes comes back from the decoder when no path has more errors than
its code corrects. The encoder works for every code that has roots.
-/

namespace GrSatellites.Rs

open Interleave

variable {setup : Setup} {codec : Codec setup.config.nn setup.config.nroots}
  {sent received data : List Byte} {b : Buffers}

/-- A word is received in the place of another one, and its wrong symbols are symbols. -/
def Corrupted (symsize : ℕ) : List Byte → List Byte → Prop :=
  List.Forall₂ fun x y => x ≠ y → y.toNat < 2 ^ symsize

/-- The codec corrects every word with at most half as many wrong symbols as there are roots, and
counts them. -/
def Codec.Corrects {nn nroots : ℕ} (codec : Codec nn nroots) (symsize : ℕ) : Prop :=
  ∀ data word : List Byte, data.length = nn - nroots → (∀ x ∈ data, x.toNat < 2 ^ symsize) →
    Corrupted symsize (data ++ codec.encode data) word →
    mismatches (data ++ codec.encode data) word ≤ nroots / 2 →
      codec.decode word =
        some (data ++ codec.encode data, mismatches (data ++ codec.encode data) word)

/-- The errors are few on every path, as those of a short burst are. -/
def Setup.Tolerates (setup : Setup) (sent received : List Byte) : Prop :=
  (∀ j < setup.interleave,
    mismatches (gather sent setup.interleave (sent.length / setup.interleave) j)
      (gather received setup.interleave (sent.length / setup.interleave) j) ≤
        setup.config.nroots / 2) ∨
  ∃ first, ∀ i, sent.getD i default ≠ received.getD i default →
    first ≤ i ∧ i < first + setup.interleave * (setup.config.nroots / 2)

/-- The encoder publishes a frame, and the decoder publishes the data of what is received in its
place, with the number of errors. Both have handled any messages before. -/
def Setup.RoundTrips (setup : Setup) (codec : Codec setup.config.nn setup.config.nroots)
    (data : List Byte) : Prop :=
  ∀ (b : Buffers) (car : Metadata), b.codeword.length = setup.config.nn →
    ∃ b' sent, setup.encodeMsg codec b ⟨car, data⟩ = .ok (b', [⟨car, sent⟩]) ∧
      ∀ (received : List Byte) (d : Buffers) (car' : Metadata),
        d.codeword.length = setup.config.nn →
        Corrupted setup.config.symsize sent received → setup.Tolerates sent received →
          (setup.decodeMsg codec d ⟨car', received⟩).2 =
            [⟨dictAdd car' "rs_errors" (.long (mismatches sent received)), data⟩]

/-- If a path cannot be decoded, nothing is published. -/
def Setup.FailsSilently (setup : Setup) (codec : Codec setup.config.nn setup.config.nroots) :
    Prop :=
  ∀ (d : Buffers) (msg : Pdu Metadata) (j : ℕ), d.codeword.length = setup.config.nn →
    j < setup.interleave →
    let rsNn := msg.cdr.length / setup.interleave
    codec.decode (List.replicate (setup.config.nn - rsNn) 0 ++
      gather msg.cdr setup.interleave rsNn j) = none → (setup.decodeMsg codec d msg).2 = []

/-! ## Errors on the paths -/

theorem Corrupted.refl (symsize : ℕ) (xs : List Byte) : Corrupted symsize xs xs :=
  List.forall₂_same.mpr fun _ _ hne => absurd rfl hne

theorem Corrupted.append {symsize : ℕ} {xs ys zs ws : List Byte} (h : Corrupted symsize xs ys)
    (h' : Corrupted symsize zs ws) : Corrupted symsize (xs ++ zs) (ys ++ ws) :=
  List.rel_append h h'

theorem Corrupted.getD {symsize : ℕ} (h : Corrupted symsize sent received) (i : ℕ) :
    sent.getD i default ≠ received.getD i default →
      (received.getD i default).toNat < 2 ^ symsize := by
  induction h generalizing i with
  | nil => exact fun hne => absurd rfl hne
  | cons hhead _ ih =>
    cases i with
    | zero => exact hhead
    | succ i => exact ih i

theorem Corrupted.gather {symsize : ℕ} (h : Corrupted symsize sent received) (depth n j : ℕ) :
    Corrupted symsize (gather sent depth n j) (Interleave.gather received depth n j) := by
  unfold Corrupted Interleave.gather
  rw [List.forall₂_map_left_iff, List.forall₂_map_right_iff, List.forall₂_same]
  exact fun k _ => h.getD (j + k * depth)

theorem mismatches_append_left (zs xs ys : List Byte) :
    mismatches (zs ++ xs) (zs ++ ys) = mismatches xs ys := by
  induction zs with
  | nil => rfl
  | cons z zs ih =>
    rw [mismatches] at ih ⊢
    rw [List.cons_append, List.cons_append, List.zip_cons_cons, List.countP_cons, ih]
    simp

theorem Setup.Tolerates.path (h : setup.Tolerates sent received) {j : ℕ}
    (hj : j < setup.interleave) :
    mismatches (gather sent setup.interleave (sent.length / setup.interleave) j)
      (gather received setup.interleave (sent.length / setup.interleave) j) ≤
        setup.config.nroots / 2 := by
  rcases h with hpaths | ⟨first, hburst⟩
  · exact hpaths j hj
  · exact mismatches_gather_le_of_burst setup.interleave_pos hburst

/-! ## The encoder -/

/-- The zeros and the data of a codeword. -/
theorem sub_add_add {nn k r : ℕ} (h : k + r ≤ nn) : nn - (k + r) + k = nn - r := by omega

/-- The frame that the encoder makes of the data. -/
def Setup.encoded (setup : Setup) (codec : Codec setup.config.nn setup.config.nroots)
    (data : List Byte) : List Byte :=
  let rsKk := data.length / setup.interleave
  frameOf setup.interleave (rsKk + setup.config.nroots) fun j =>
    codec.encodePath (setup.config.nn - rsKk - setup.config.nroots)
      (gather data setup.interleave rsKk j)

theorem length_encoded : (setup.encoded codec data).length =
    (data.length / setup.interleave + setup.config.nroots) * setup.interleave :=
  length_frameOf _ _ _

theorem gather_encoded {j : ℕ} (hj : j < setup.interleave) :
    gather (setup.encoded codec data) setup.interleave
      (data.length / setup.interleave + setup.config.nroots) j =
        codec.encodePath (setup.config.nn - data.length / setup.interleave - setup.config.nroots)
          (gather data setup.interleave (data.length / setup.interleave) j) :=
  gather_frameOf (fun i _ => by rw [codec.length_encodePath, length_gather]) hj

section

variable (hdvd : setup.interleave ∣ data.length)
  (hfit : data.length / setup.interleave + setup.config.nroots ≤ setup.config.nn)

include hdvd hfit

/-- The handler runs the loop over the paths. -/
theorem encodeMsg_of_fit {M : Type} (car : M) :
    setup.encodeMsg codec b ⟨car, data⟩ =
      (encodePaths codec setup.interleave (data.length / setup.interleave)
        (setup.config.nn - data.length / setup.interleave - setup.config.nroots) data
        (List.range setup.interleave) ⟨b.codeword, resize b.outputFrame
          (data.length + setup.interleave * setup.config.nroots)⟩).map
            fun b => (b, [⟨car, b.outputFrame⟩]) := by
  simp only [Setup.encodeMsg, Nat.mod_eq_zero_of_dvd hdvd, ne_eq, not_true_eq_false, if_false,
    if_neg (Nat.not_lt.mpr hfit)]
  rfl

/-- **The encoder.** A message of a size that fits is published as a frame. -/
theorem encodeMsg_eq {M : Type} (hroots : setup.config.nroots ≠ 0) (car : M)
    (hb : b.codeword.length = setup.config.nn) :
    ∃ codeword, setup.encodeMsg codec b ⟨car, data⟩ =
      .ok (⟨codeword, setup.encoded codec data⟩, [⟨car, setup.encoded codec data⟩]) := by
  have hsize : data.length + setup.interleave * setup.config.nroots =
      (data.length / setup.interleave + setup.config.nroots) * setup.interleave := by
    rw [Nat.add_mul, Nat.div_mul_cancel hdvd, Nat.mul_comm setup.interleave]
  have hpad : setup.config.nn - data.length / setup.interleave - setup.config.nroots +
      data.length / setup.interleave + setup.config.nroots = setup.config.nn := by omega
  obtain ⟨codeword, -, hpaths⟩ := encodePaths_eq hroots hpad (List.range setup.interleave)
    (b := ⟨b.codeword, resize b.outputFrame
      (data.length + setup.interleave * setup.config.nroots)⟩) hb
  refine ⟨codeword, ?_⟩
  rw [encodeMsg_of_fit hdvd hfit, hpaths, Setup.encoded, scatterAll_range _ setup.interleave_pos
    (by rw [length_resize, hsize])]
  · rfl
  · intro j _
    rw [codec.length_encodePath, length_gather]

/-- Without roots, no message is published. -/
theorem encodeMsg_of_no_roots {M : Type} (hroots : setup.config.nroots = 0) (car : M) :
    setup.encodeMsg codec b ⟨car, data⟩ = .error .outOfBounds := by
  have hjs : List.range setup.interleave ≠ [] := fun hnil =>
    setup.interleave_pos.ne' (List.range_eq_nil.mp hnil)
  rw [encodeMsg_of_fit hdvd hfit, encodePaths_of_no_roots hroots hjs]
  rfl

/-! ## The decoder -/

/-- A path with few errors is decoded. -/
theorem decode_path (hcorrects : codec.Corrects setup.config.symsize)
    (hsymbols : ∀ x ∈ data, x.toNat < 2 ^ setup.config.symsize)
    (hreceived : Corrupted setup.config.symsize (setup.encoded codec data) received)
    (htolerates : setup.Tolerates (setup.encoded codec data) received) {j : ℕ}
    (hj : j < setup.interleave) :
    let rsKk := data.length / setup.interleave
    let rsNn := rsKk + setup.config.nroots
    let zeros := List.replicate (setup.config.nn - rsNn) (0 : Byte)
    let path := gather data setup.interleave rsKk j
    codec.decode (zeros ++ gather received setup.interleave rsNn j) =
      some (zeros ++ codec.encodePath (setup.config.nn - rsNn) path,
        mismatches (gather (setup.encoded codec data) setup.interleave rsNn j)
          (gather received setup.interleave rsNn j)) := by
  intro rsKk rsNn zeros path
  have hsent : gather (setup.encoded codec data) setup.interleave rsNn j =
      codec.encodePath (setup.config.nn - rsNn) path := by
    rw [gather_encoded hj, Nat.sub_sub]
  have hword : zeros ++ path ++ codec.encode (zeros ++ path) =
      zeros ++ codec.encodePath (setup.config.nn - rsNn) path := List.append_assoc _ _ _
  have herrors := htolerates.path hj
  rw [length_encoded, Nat.mul_div_cancel _ setup.interleave_pos] at herrors
  have hdecode := hcorrects (zeros ++ path) (zeros ++ gather received setup.interleave rsNn j)
  rw [hword, mismatches_append_left, ← hsent] at hdecode
  rw [← hsent]
  refine hdecode ?_ ?_ ((Corrupted.refl _ _).append (hreceived.gather _ _ _)) herrors
  · have hlength : setup.config.nn - (data.length / setup.interleave + setup.config.nroots) +
        data.length / setup.interleave = setup.config.nn - setup.config.nroots :=
      sub_add_add hfit
    rw [List.length_append, List.length_replicate, length_gather]
    exact hlength
  · intro x hx
    rcases List.mem_append.mp hx with hx | hx
    · rw [List.eq_of_mem_replicate hx]
      exact Nat.two_pow_pos _
    · obtain ⟨k, hk, rfl⟩ := List.mem_map.mp hx
      refine hsymbols _ ?_
      have hplace : j + k * setup.interleave < data.length := by
        rw [← Nat.div_mul_cancel hdvd]
        exact place_lt hj (List.mem_range.mp hk)
      rw [List.getD_eq_getElem _ _ hplace]
      exact List.getElem_mem hplace

/-- **The decoder.** A frame with few errors on each path is published as its data. -/
theorem decodeMsg_eq (hcorrects : codec.Corrects setup.config.symsize) (hne : data ≠ [])
    (hsymbols : ∀ x ∈ data, x.toNat < 2 ^ setup.config.symsize)
    (hreceived : Corrupted setup.config.symsize (setup.encoded codec data) received)
    (htolerates : setup.Tolerates (setup.encoded codec data) received) (car : Metadata)
    (hb : b.codeword.length = setup.config.nn) :
    (setup.decodeMsg codec b ⟨car, received⟩).2 =
      [⟨dictAdd car "rs_errors" (.long (mismatches (setup.encoded codec data) received)),
        data⟩] := by
  have hlength : received.length =
      (data.length / setup.interleave + setup.config.nroots) * setup.interleave :=
    (List.Forall₂.length_eq hreceived).symm.trans length_encoded
  have hpos : 0 < data.length / setup.interleave :=
    Nat.div_pos (Nat.le_of_dvd (List.length_pos_of_ne_nil hne) hdvd) setup.interleave_pos
  have hsize : (resize b.outputFrame (received.length - setup.interleave * setup.config.nroots)).length
      = data.length / setup.interleave * setup.interleave := by
    rw [length_resize, hlength, Nat.add_mul, Nat.mul_comm setup.interleave, Nat.add_sub_cancel]
  have hdecode := fun j (hj : j ∈ List.range setup.interleave) =>
    decode_path hdvd hfit hcorrects hsymbols hreceived htolerates (List.mem_range.mp hj)
  obtain ⟨codeword, hpaths⟩ := decodePaths_eq (List.range setup.interleave) 0
    (Nat.sub_add_cancel hfit) hb hdecode (b := ⟨b.codeword, resize b.outputFrame
      (received.length - setup.interleave * setup.config.nroots)⟩)
  have hdata (j : ℕ) : (codec.encodePath
      (setup.config.nn - (data.length / setup.interleave + setup.config.nroots))
        (gather data setup.interleave (data.length / setup.interleave) j)).take
          (data.length / setup.interleave + setup.config.nroots - setup.config.nroots) =
            gather data setup.interleave (data.length / setup.interleave) j := by
    rw [Nat.add_sub_cancel, Codec.encodePath, List.take_left' (length_gather _ _ _ _)]
  have herrors : ((List.range setup.interleave).map fun j =>
      mismatches (gather (setup.encoded codec data) setup.interleave
        (data.length / setup.interleave + setup.config.nroots) j)
          (gather received setup.interleave
            (data.length / setup.interleave + setup.config.nroots) j)).sum =
      mismatches (setup.encoded codec data) received :=
    sum_mismatches_gather length_encoded hlength
  have hframe : frameOf setup.interleave (data.length / setup.interleave)
      (gather data setup.interleave (data.length / setup.interleave)) = data :=
    eq_of_gather_eq setup.interleave_pos (length_frameOf _ _ _) (Nat.div_mul_cancel hdvd).symm
      fun j hj => gather_frameOf (fun i _ => length_gather _ _ _ _) hj
  simp only [hdata, herrors, Nat.zero_add] at hpaths
  rw [scatterAll_range (fun i _ => length_gather _ _ _ _) setup.interleave_pos hsize, hframe]
    at hpaths
  rw [Setup.decodeMsg]
  simp only [hlength, Nat.mul_mod_left, ne_eq, not_true_eq_false, if_false,
    Nat.mul_div_cancel _ setup.interleave_pos]
  rw [if_neg (by omega)]
  rw [hlength] at hpaths
  simp only [hpaths]

end

/-- A frame with a path that cannot be decoded is dropped, as a frame of a wrong size is. -/
theorem failsSilently (setup : Setup) (codec : Codec setup.config.nn setup.config.nroots) :
    setup.FailsSilently codec := by
  intro d msg j hd hj rsNn hdecode
  simp only [Setup.decodeMsg]
  split
  case isTrue => rfl
  case isFalse =>
    split
    case isTrue => rfl
    case isFalse hsize =>
      have hpad : setup.config.nn - rsNn + rsNn = setup.config.nn :=
        Nat.sub_add_cancel (Nat.not_lt.mp fun hlt => hsize (Or.inr hlt))
      have hnone := decodePaths_of_none (b := ⟨d.codeword, resize d.outputFrame
        (msg.cdr.length - setup.interleave * setup.config.nroots)⟩) hpad hd
          (List.mem_range.mpr hj) 0 hdecode
      split
      case h_1 => rfl
      case h_2 hsome =>
        rw [hsome] at hnone
        cases hnone

/-! ## Messages -/

/-- **Frames with errors.** For data that makes up whole paths and fits in the codewords, the
two blocks conform exactly if the code has roots. -/
theorem conforms_iff (setup : Setup) (codec : Codec setup.config.nn setup.config.nroots)
    (data : List Byte) (hcorrects : codec.Corrects setup.config.symsize) (hne : data ≠ [])
    (hsymbols : ∀ x ∈ data, x.toNat < 2 ^ setup.config.symsize)
    (hdvd : setup.interleave ∣ data.length)
    (hfit : data.length / setup.interleave + setup.config.nroots ≤ setup.config.nn) :
    setup.RoundTrips codec data ∧ setup.FailsSilently codec ↔ 0 < setup.config.nroots := by
  constructor
  · rintro ⟨hround, -⟩
    by_contra hzero
    obtain ⟨b', sent, hsent, -⟩ :=
      hround ⟨List.replicate setup.config.nn 0, []⟩ [] List.length_replicate
    rw [encodeMsg_of_no_roots hdvd hfit (Nat.eq_zero_of_not_pos hzero) []] at hsent
    cases hsent
  · intro hpos
    refine ⟨fun b car hb => ?_, failsSilently setup codec⟩
    obtain ⟨codeword, hsent⟩ := encodeMsg_eq hdvd hfit hpos.ne' car hb
    refine ⟨_, _, hsent, fun received d car' hd hreceived htolerates => ?_⟩
    exact decodeMsg_eq hdvd hfit hcorrects hne hsymbols hreceived htolerates car' hd

/-- Symbols of two bits, and two roots: a codeword repeats its data three times, and the decoder
takes what two of the three agree on. -/
def repetition : Codec 3 2 where
  encode data := List.replicate 2 (data.headD 0)
  decode word :=
    match word with
    | [x, y, z] =>
      if x = y then some ([x, x, x], if z = x then 0 else 1)
      else if x = z then some ([x, x, x], 1)
      else if y = z then some ([y, y, y], 1)
      else none
    | _ => none
  length_encode _ := List.length_replicate
  length_decode h := by
    split at h
    case h_2 => cases h
    case h_1 =>
      split at h
      · cases h
        rfl
      · split at h
        · cases h
          rfl
        · split at h
          · cases h
            rfl
          · cases h

theorem repetition_corrects : repetition.Corrects 2 := by
  intro data word hdata _ hword hcount
  obtain ⟨x, rfl⟩ := List.length_eq_one_iff.mp hdata
  obtain ⟨a, b, c, rfl⟩ := List.length_eq_three.mp (List.Forall₂.length_eq hword).symm
  have hcode : [x] ++ repetition.encode [x] = [x, x, x] := rfl
  rw [hcode] at hcount ⊢
  simp only [mismatches, List.zip_cons_cons, List.zip_nil_right, List.countP_cons,
    List.countP_nil] at hcount ⊢
  by_cases ha : x = a
  · subst ha
    by_cases hb : x = b
    · subst hb
      by_cases hc : x = c
      · simp [repetition, hc]
      · simp [repetition, hc, Ne.symm hc]
    · have hc : x = c := by
        by_contra hc
        simp [hb, hc] at hcount
      subst hc
      simp [repetition, hb]
  · have hb : x = b := by
      by_contra hb
      simp [ha, hb] at hcount
    have hc : x = c := by
      by_contra hc
      simp [ha, hc] at hcount
    subst hb hc
    simp [repetition, ha, Ne.symm ha]

theorem repetition_valid : (Config.custom 2 0x7 1 1 2).valid = true := by decide

/-- The (3,1) code over four symbols, with two paths. -/
def repetitionSetup : Setup where
  config := .custom 2 0x7 1 1 2
  interleave := 2
  valid := repetition_valid
  interleave_pos := Nat.two_pos

/-- Two symbols on two paths. -/
theorem conforms_repetition :
    repetitionSetup.RoundTrips repetition [1, 3] ∧ repetitionSetup.FailsSilently repetition ↔
      0 < repetitionSetup.config.nroots :=
  conforms_iff repetitionSetup repetition [1, 3] repetition_corrects (by decide) (by decide)
    (by decide) (by decide)

theorem noRoots_valid : (Config.custom 8 0x11d 1 1 0).valid = true := by decide +kernel

/-- A code of 255 symbols without roots. -/
def noRootsSetup : Setup where
  config := .custom 8 0x11d 1 1 0
  interleave := 1
  valid := noRoots_valid
  interleave_pos := Nat.one_pos

theorem length_noRoots (_ : List Byte) : ([] : List Byte).length = 0 := rfl

theorem length_noRoots_word {word corrected : List Byte} {count : ℕ}
    (h : some (word, 0) = some (corrected, count)) : corrected.length = word.length := by
  cases h
  rfl

/-- Its codewords are all words. -/
def noRoots : Codec 255 0 where
  encode _ := []
  decode word := some (word, 0)
  length_encode := length_noRoots
  length_decode := length_noRoots_word

theorem not_conforms_noRoots :
    noRoots.Corrects 8 ∧ ¬noRootsSetup.RoundTrips noRoots [0] := by
  constructor
  · intro data word _ _ hword hcount
    have hzero := Nat.le_zero.mp hcount
    rw [hzero, eq_of_mismatches_eq_zero (List.Forall₂.length_eq hword) hzero]
    rfl
  · intro hround
    obtain ⟨b', sent, hsent, -⟩ := hround ⟨List.replicate 255 0, []⟩ [] List.length_replicate
    have hfail : noRootsSetup.encodeMsg noRoots ⟨List.replicate 255 0, []⟩
        (⟨[], [0]⟩ : Pdu Metadata) = .error .outOfBounds :=
      encodeMsg_of_no_roots (by decide) (by decide) rfl []
    rw [hfail] at hsent
    cases hsent

end GrSatellites.Rs
