import GrSatellites.Library.Attempt
import GrSatellites.Snet.Model

/-!
# When the S-NET deframer raises

Nothing in the deframer raises but the reshaping of bits that are not there. On the 4096 bits
that it is fed, these are the bits of an uncoded PDU of more than 485 bytes and those of a
block after the sixteenth.
-/

namespace GrSatellites.Snet

open Attempt Bits

variable {bits : List Bool} {rows left : List (List Bool)} {d : ℕ}

/-! ## Arrays -/

theorem reshape_eq_ok {rows cols : ℕ} {xs : List Bool} (h : xs.length = rows * cols) :
    reshape rows cols xs = .ok ((List.range rows).map fun i => (xs.drop (i * cols)).take cols) :=
  if_pos h

theorem reshape_eq_raised_iff {rows cols : ℕ} {xs : List Bool} :
    reshape rows cols xs = .error .raised ↔ xs.length ≠ rows * cols := by
  rw [reshape]
  split_ifs with h <;> simp [h]

theorem length_bitsOf (row : BitVec 15) : (bitsOf row).length = 15 := length_toBits 15 _

theorem decodeRows_ne_raised : decodeRows d rows ≠ .error .raised := by
  intro h
  obtain ⟨_, row, _, -, -, hrow⟩ := mapM_eq_error.mp h
  split at hrow <;> cases hrow

theorem forall₂_of_decodeRows (h : decodeRows d rows = .ok left) :
    List.Forall₂ (fun row row' => ∃ word, decodeBch15 (rowOf row) d = (true, word) ∧
      bitsOf word = row') rows left := by
  refine (mapM_eq_ok.mp h).imp fun row row' hrow => ?_
  split at hrow
  · rename_i word hdecode
    exact ⟨word, hdecode, Except.ok.inj hrow⟩
  · cases hrow

theorem length_of_decodeRows (h : decodeRows d rows = .ok left) :
    left.length = rows.length ∧ ∀ row ∈ left, row.length = 15 := by
  have hrows := forall₂_of_decodeRows h
  refine ⟨hrows.length_eq.symm, ?_⟩
  clear h
  induction hrows with
  | nil => simp
  | cons hrow _ ih =>
    obtain ⟨word, -, rfl⟩ := hrow
    exact List.forall_mem_cons.mpr ⟨length_bitsOf word, ih⟩

theorem length_transpose (cols : ℕ) (m : List (List Bool)) : (transpose cols m).length = cols := by
  simp [transpose]

/-! ## The header -/

theorem headerRows_eq_ok (hbits : 210 ≤ bits.length) :
    ∃ rows, headerRows bits = .ok rows ∧ rows.length = 14 := by
  have hlength : (bits.take 210).length = 15 * 14 := by rw [List.length_take, min_eq_left hbits]
  rw [headerRows, reshape_eq_ok hlength]
  exact ⟨_, rfl, length_transpose 14 _⟩

theorem length_flatten_of_forall {m : List (List Bool)} {n : ℕ} (h : ∀ row ∈ m, row.length = n) :
    m.flatten.length = m.length * n := by
  rw [List.length_flatten, List.map_congr_left h, List.map_const', List.sum_replicate, smul_eq_mul]

theorem length_headerBits (hlength : rows.length = 14) (hrows : ∀ row ∈ rows, row.length = 15) :
    (headerBits rows).length = 70 := by
  have hfive : ∀ row ∈ fliplr (rows.map (·.drop 10)), row.length = 5 := by
    intro row hrow
    simp only [fliplr, List.map_map, List.mem_map, Function.comp_apply] at hrow
    obtain ⟨row', hrow', rfl⟩ := hrow
    rw [List.length_reverse, List.length_drop, hrows row' hrow']
  rw [headerBits, length_flatten_of_forall hfive]
  simp [fliplr, hlength]

theorem crc5_ne_raised {buggyCrc : Bool} {ltu : List Bool} (hltu : ltu.length = 70) :
    crc5 buggyCrc ltu ≠ .error .raised := by
  intro h
  rcases bind_eq_error.mp h with hreshape | ⟨_, -, hpure⟩
  · rw [reshape_eq_raised_iff] at hreshape
    simp [hltu] at hreshape
  · cases hpure

/-- The header never raises. -/
theorem readHeader_ne_raised {buggyCrc : Bool} (hbits : 210 ≤ bits.length) :
    readHeader buggyCrc bits ≠ .error .raised := by
  obtain ⟨rows, hrows, hlength⟩ := headerRows_eq_ok hbits
  intro h
  rw [readHeader, hrows] at h
  rcases bind_eq_error.mp h with hcontra | ⟨_, hsame, h⟩
  · cases hcontra
  cases hsame
  rcases bind_eq_error.mp h with hdecode | ⟨left, hdecode, h⟩
  · exact decodeRows_ne_raised hdecode
  obtain ⟨hleft, hforall⟩ := length_of_decodeRows hdecode
  rcases bind_eq_error.mp h with hcrc | ⟨crc, -, h⟩
  · exact crc5_ne_raised (length_headerBits (hleft.trans hlength) hforall) hcrc
  · dsimp only at h
    split_ifs at h <;> cases h

/-! ## The data -/

theorem blockRows_eq_raised_iff {k : ℕ} :
    blockRows bits k = .error .raised ↔ bits.length < 210 + (k + 1) * 240 := by
  have hmap : blockRows bits k = .error .raised ↔
      reshape 15 16 ((bits.drop (210 + k * 240)).take 240) = .error .raised := map_eq_error
  rw [hmap, reshape_eq_raised_iff, List.length_take, List.length_drop]
  omega

theorem blockRows_ne_returned {k : ℕ} : blockRows bits k ≠ .error .returned := by
  rw [blockRows, reshape]
  split_ifs <;> simp [Except.map]

theorem length_of_blockRows {k : ℕ} (h : blockRows bits k = .ok rows) : rows.length = 16 := by
  rw [blockRows, reshape] at h
  split_ifs at h
  · cases h
    exact length_transpose 16 _
  · cases h

/-- One round of the loop over the blocks. -/
def decodeBlock (bits : List Bool) (dataBitsPerCodeword d k : ℕ) : Except Stop (List Bool) := do
  let rows ← blockRows bits k
  let left ← decodeRows d rows
  return blockBits dataBitsPerCodeword left

theorem decodeBlocks_eq (bits : List Bool) (m d : ℕ) (ks : List ℕ) :
    decodeBlocks bits m d ks = List.flatten <$> ks.mapM (decodeBlock bits m d) := rfl

theorem decodeBlock_eq_raised_iff {m k : ℕ} :
    decodeBlock bits m d k = .error .raised ↔ bits.length < 210 + (k + 1) * 240 := by
  rw [← blockRows_eq_raised_iff, decodeBlock, bind_eq_error, or_iff_left]
  rintro ⟨rows, -, h⟩
  rcases bind_eq_error.mp h with hdecode | ⟨_, -, hpure⟩
  · exact decodeRows_ne_raised hdecode
  · cases hpure

theorem length_of_decodeBlock {m k : ℕ} {data : List Bool} (hm : m ≤ 15)
    (h : decodeBlock bits m d k = .ok data) : data.length = 16 * m := by
  obtain ⟨rows, hrows, h⟩ := bind_eq_ok.mp h
  obtain ⟨left, hleft, h⟩ := bind_eq_ok.mp h
  obtain ⟨hlength, hforall⟩ := length_of_decodeRows hleft
  cases h
  have hdrop : ∀ row ∈ left.map (·.drop (15 - m)), row.length = m := by
    intro row hrow
    obtain ⟨row', hrow', rfl⟩ := List.mem_map.mp hrow
    rw [List.length_drop, hforall row' hrow']
    omega
  rw [blockBits, length_flatten_of_forall hdrop, List.length_map, hlength,
    length_of_blockRows hrows]

theorem range_eq_append_cons {n k : ℕ} {done rest : List ℕ} (h : List.range n = done ++ k :: rest) :
    done = List.range k ∧ k < n := by
  have hlength := congrArg List.length h
  rw [List.length_range, List.length_append, List.length_cons] at hlength
  have hk := congrArg (fun xs => xs[done.length]?) h
  rw [List.getElem?_append_right le_rfl, List.getElem?_range (by omega), Nat.sub_self] at hk
  cases hk
  have htake := congrArg (List.take done.length) h
  rw [List.take_range, min_eq_left (by omega), List.take_left] at htake
  exact ⟨htake.symm, by omega⟩

/-- The loop raises at the block after the sixteenth, if it gets there. -/
theorem decodeBlocks_eq_raised_iff {m n : ℕ} (hbits : bits.length = 4096) :
    decodeBlocks bits m d (List.range n) = .error .raised ↔
      16 < n ∧ Succeeds (decodeBlocks bits m d (List.range 16)) := by
  have hraise (k : ℕ) : decodeBlock bits m d k = .error .raised ↔ 16 ≤ k := by
    rw [decodeBlock_eq_raised_iff, hbits]
    omega
  have hsucceeds (ks : List ℕ) :
      Succeeds (decodeBlocks bits m d ks) ↔ Succeeds (ks.mapM (decodeBlock bits m d)) := by
    rw [decodeBlocks_eq]
    exact succeeds_bind_pure
  rw [decodeBlocks_eq, map_eq_error, mapM_eq_error, hsucceeds]
  constructor
  · rintro ⟨done, k, rest, heq, hdone, hk⟩
    have hk16 := (hraise k).mp hk
    obtain ⟨rfl, hlt⟩ := range_eq_append_cons heq
    have hnot : ¬ 16 < k := by
      intro hlt16
      obtain ⟨data, hdata⟩ := succeeds_mapM.mp hdone 16 (List.mem_range.mpr hlt16)
      rw [(hraise 16).mpr le_rfl] at hdata
      cases hdata
    obtain rfl : k = 16 := by omega
    exact ⟨hlt, hdone⟩
  · rintro ⟨hn, hfirst⟩
    refine ⟨List.range 16, 16, (List.range n).drop 17, ?_, hfirst, (hraise 16).mpr le_rfl⟩
    have hdrop : (List.range n).drop 16 = 16 :: (List.range n).drop 17 := by
      rw [List.drop_eq_getElem_cons (by rwa [List.length_range]), List.getElem_range]
    rw [← hdrop]
    conv_lhs => rw [← List.take_append_drop 16 (List.range n), List.take_range, min_eq_left hn.le]

theorem length_of_decodeBlocks {m n : ℕ} {data : List Bool} (hm : m ≤ 15)
    (h : decodeBlocks bits m d (List.range n) = .ok data) : data.length = n * (16 * m) := by
  obtain ⟨blocks, hblocks, hpure⟩ := bind_eq_ok.mp h
  cases hpure
  have hforall := mapM_eq_ok.mp hblocks
  have hlength : ∀ block ∈ blocks, block.length = 16 * m := by
    clear h hblocks
    generalize List.range n = ks at hforall
    induction hforall with
    | nil => simp
    | cons hblock _ ih => exact List.forall_mem_cons.mpr ⟨length_of_decodeBlock hm hblock, ih⟩
  rw [length_flatten_of_forall hlength, ← hforall.length_eq, List.length_range]

theorem pduBytes_uncoded_eq_raised_iff {pduLength : ℕ} (hbits : bits.length = 4096) :
    pduBytes bits pduLength .uncoded = .error .raised ↔ 485 < pduLength := by
  rw [pduBytes, map_eq_error, reshape_eq_raised_iff, List.length_take, List.length_drop, hbits]
  omega

theorem pduBytes_bch_eq_raised_iff {pduLength m : ℕ} (hbits : bits.length = 4096) (hm : m ≤ 15) :
    pduBytes bits pduLength (.bch m d) = .error .raised ↔
      16 < numBlocks pduLength m ∧ Succeeds (decodeBlocks bits m d (List.range 16)) := by
  rw [← decodeBlocks_eq_raised_iff hbits, pduBytes, bind_eq_error, or_iff_left]
  rintro ⟨data, hdata, h⟩
  rcases bind_eq_error.mp h with hreshape | ⟨_, -, hpure⟩
  · have hbytes : dataBytesPerBlock m = 2 * m := by
      rw [dataBytesPerBlock]
      omega
    rw [reshape_eq_raised_iff, length_of_decodeBlocks hm hdata, hbytes] at hreshape
    apply hreshape
    ring
  · cases hpure

/-- The header announces more bytes than the PDU has bits for: in the coded modes the block
after the sixteenth is reached. -/
def Overlong (bits : List Bool) (hdr : LTUFrameHeader) : Prop :=
  (hdr.AiTypeSrc = 0 ∧ 485 < hdr.PduLength) ∨
    ∃ m d, coding hdr.AiTypeSrc = .ok (.bch m d) ∧ 16 < numBlocks hdr.PduLength m ∧
      Succeeds (decodeBlocks bits m d (List.range 16))

theorem coding_ne_raised (aiTypeSrc : ℕ) : coding aiTypeSrc ≠ .error .raised := by
  unfold coding
  split <;> simp

theorem coding_eq_uncoded_iff {aiTypeSrc : ℕ} : coding aiTypeSrc = .ok .uncoded ↔ aiTypeSrc = 0 := by
  unfold coding
  split <;> simp_all

theorem coding_eq_bch {aiTypeSrc m d : ℕ} (h : coding aiTypeSrc = .ok (.bch m d)) :
    (m = 11 ∧ d = 3) ∨ (m = 7 ∧ d = 5) ∨ (m = 5 ∧ d = 7) := by
  unfold coding at h
  split at h <;> cases h <;> simp

theorem le_of_coding {aiTypeSrc m d : ℕ} (h : coding aiTypeSrc = .ok (.bch m d)) : m ≤ 15 := by
  have := coding_eq_bch h
  omega

/-- The bytes of the PDU raise for the overlong headers. -/
theorem exists_pduBytes_eq_raised_iff {hdr : LTUFrameHeader} (hbits : bits.length = 4096) :
    (∃ mode, coding hdr.AiTypeSrc = .ok mode ∧
      pduBytes bits hdr.PduLength mode = .error .raised) ↔ Overlong bits hdr := by
  constructor
  · rintro ⟨mode, hmode, hraise⟩
    cases mode with
    | uncoded =>
      exact Or.inl ⟨coding_eq_uncoded_iff.mp hmode, (pduBytes_uncoded_eq_raised_iff hbits).mp hraise⟩
    | bch m d =>
      exact Or.inr ⟨m, d, hmode, (pduBytes_bch_eq_raised_iff hbits (le_of_coding hmode)).mp hraise⟩
  · rintro (⟨hmode, hlength⟩ | ⟨m, d, hmode, hblocks⟩)
    · exact ⟨.uncoded, coding_eq_uncoded_iff.mpr hmode,
        (pduBytes_uncoded_eq_raised_iff hbits).mpr hlength⟩
    · exact ⟨.bch m d, hmode, (pduBytes_bch_eq_raised_iff hbits (le_of_coding hmode)).mpr hblocks⟩

theorem pduLength_ne_zero_of_overlong {hdr : LTUFrameHeader} (h : Overlong bits hdr) :
    hdr.PduLength ≠ 0 := by
  rcases h with ⟨-, hlength⟩ | ⟨m, d, hmode, hblocks, -⟩
  · omega
  · intro hzero
    rw [numBlocks, hzero, Nat.div_eq_of_lt] at hblocks
    · omega
    · rcases coding_eq_bch hmode with ⟨rfl, -⟩ | ⟨rfl, -⟩ | ⟨rfl, -⟩ <;> decide

/-- **Exceptions.** The deframer returns exactly when no accepted header is overlong. -/
theorem handleMsg_returns_iff (buggyCrc : Bool) (hbits : bits.length = 4096) :
    handleMsg buggyCrc bits ≠ .error .raised ↔
      ∀ hdr, readHeader buggyCrc bits = .ok hdr → ¬ Overlong bits hdr := by
  have hraise : handleMsg buggyCrc bits = .error .raised ↔
      ∃ hdr, readHeader buggyCrc bits = .ok hdr ∧ Overlong bits hdr := by
    rw [handleMsg, bind_eq_error, or_iff_right (readHeader_ne_raised (by omega))]
    refine exists_congr fun hdr => and_congr_right fun _ => ?_
    by_cases hzero : hdr.PduLength = 0
    · rw [if_pos hzero]
      exact iff_of_false (fun h => by cases h) fun h => pduLength_ne_zero_of_overlong h hzero
    rw [if_neg hzero, ← exists_pduBytes_eq_raised_iff hbits, bind_eq_error,
      or_iff_right (coding_ne_raised _)]
    refine exists_congr fun mode => and_congr_right fun _ => ?_
    rw [bind_eq_error, or_iff_left]
    rintro ⟨bytes, -, h⟩
    split_ifs at h <;> cases h
  rw [ne_eq, hraise]
  push Not
  rfl

theorem handleMsg_returns_zeros :
    handleMsg true (List.replicate 4096 false) ≠ .error .raised ↔
      ∀ hdr, readHeader true (List.replicate 4096 false) = .ok hdr →
        ¬ Overlong (List.replicate 4096 false) hdr :=
  handleMsg_returns_iff true List.length_replicate

/-- An uncoded PDU of 486 bytes is announced. -/
theorem not_handleMsg_returns :
    ¬ ∀ buggyCrc bits, bits.length = 4096 → handleMsg buggyCrc bits ≠ .error .raised := by
  intro h
  apply h true (toBits 210 0x28406500100e50390041030402102140a003000840014040019 ++
    List.replicate 3886 false)
  · rw [List.length_append, length_toBits, List.length_replicate]
  · decide +kernel

end GrSatellites.Snet
