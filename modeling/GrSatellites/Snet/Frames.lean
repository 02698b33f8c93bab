import GrSatellites.Snet.Correction
import GrSatellites.Snet.Totality

/-!
# What the S-NET deframer publishes

The rows of a frame that the decoder corrects, and the frames that are published for this
reason; and the rows that the decoder may take for codewords when they are not.
-/

namespace GrSatellites.Snet

open Attempt Bits Weight

/-- The distances of the codes that `decode_bch15` supports. -/
def IsDistance (d : ℕ) : Prop := d = 3 ∨ d = 5 ∨ d = 7

/-- The number of errors that a code corrects. -/
def radius (d : ℕ) : ℕ := (d - 1) / 2

theorem IsDistance.exists_eq {d : ℕ} (hd : IsDistance d) :
    ∃ t, 0 < t ∧ t ≤ 3 ∧ d = 2 * t + 1 ∧ radius d = t := by
  rcases hd with rfl | rfl | rfl
  · exact ⟨1, by decide⟩
  · exact ⟨2, by decide⟩
  · exact ⟨3, by decide⟩

instance (d : ℕ) (c : BitVec 15) : Decidable (IsCodeword d c) :=
  decidable_of_iff (∀ j < d - 1, computeSyndrome c.toNat (j + 1) = 0) ⟨fun h j h1 h2 => by
    obtain ⟨i, rfl⟩ := Nat.exists_eq_add_of_le' h1
    exact h i (by omega), fun h j hj => h (j + 1) (by omega) (by omega)⟩

/-! ## Rows -/

/-- A codeword with errors that the decoder takes away: the codeword has even weight, or there
are fewer errors than the code corrects. -/
def Correctable (d : ℕ) (r c : BitVec 15) : Prop :=
  IsCodeword d c ∧ weight (c ^^^ r) ≤ radius d ∧
    (weight c % 2 = 0 ∨ weight (c ^^^ r) < radius d)

instance (d : ℕ) (r c : BitVec 15) : Decidable (Correctable d r c) :=
  inferInstanceAs (Decidable (_ ∧ _ ∧ _))

/-- **Correction of a row.** A codeword with up to `t` errors is what the decoder leaves, unless
it has odd weight and all `t` errors. -/
theorem decodeBch15_eq_iff {d : ℕ} (hd : IsDistance d) {c e : BitVec 15} (hc : IsCodeword d c)
    (he : weight e ≤ radius d) :
    decodeBch15 (c ^^^ e) d = (true, c) ↔ weight c % 2 = 0 ∨ weight e < radius d := by
  obtain ⟨t, hpos, ht, rfl, hradius⟩ := hd.exists_eq
  rw [hradius] at he ⊢
  rcases Nat.mod_two_eq_zero_or_one (weight c) with heven | hodd
  · exact iff_of_true (decode_of_near hpos ht (hc.hasZeroSyndromes heven) he) (Or.inl heven)
  · rcases he.lt_or_eq with hlt | heq
    · exact iff_of_true (decode_of_odd ht hc hodd hlt) (Or.inr hlt)
    · refine iff_of_false (decode_ne_of_odd hpos ht hc hodd heq) ?_
      omega

theorem Correctable.decode {d : ℕ} (hd : IsDistance d) {r c : BitVec 15} (h : Correctable d r c) :
    decodeBch15 r d = (true, c) := by
  obtain ⟨hc, hweight, hcondition⟩ := h
  have hdecode := (decodeBch15_eq_iff hd hc hweight).mpr hcondition
  rwa [← BitVec.xor_assoc, BitVec.xor_self, BitVec.zero_xor] at hdecode

/-- A row for which the decoder leaves a word of zero syndromes or fails: a word of zero
syndromes is near, or the first syndromes are zero, one for each error. -/
def Detectable (d : ℕ) (r : BitVec 15) : Prop :=
  (∃ e, weight e ≤ radius d ∧ HasZeroSyndromes d (r ^^^ e)) ∨
    ∀ j < radius d, computeSyndrome r.toNat j = 0

/-- **Soundness of a row.** The detectable rows are those that are not left with syndromes that
are not zero. -/
theorem hasZeroSyndromes_iff_detectable {d : ℕ} (hd : IsDistance d) (r : BitVec 15) :
    ((decodeBch15 r d).1 = true → HasZeroSyndromes d (decodeBch15 r d).2) ↔ Detectable d r := by
  obtain ⟨t, hpos, ht, rfl, hradius⟩ := hd.exists_eq
  rw [Detectable, hradius]
  constructor
  · intro hsound
    cases hdecode : (decodeBch15 r (2 * t + 1)).1 with
    | false => exact Or.inr ((decode_eq_false_iff hpos ht r).mp hdecode).2
    | true =>
      obtain ⟨e, hweight, hleft⟩ := exists_of_decode hpos ht r
      exact Or.inl ⟨e, hweight, hleft ▸ hsound hdecode⟩
  · rintro (⟨e, hweight, hzero⟩ | hfirst) hdecode
    · have hnear := decode_of_near hpos ht hzero hweight
      rw [BitVec.xor_assoc, BitVec.xor_self, BitVec.xor_zero] at hnear
      rwa [hnear]
    · by_cases hzero : HasZeroSyndromes (2 * t + 1) r
      · rwa [decodeBch15_eq hpos ht, if_pos hzero]
      · rw [(decode_eq_false_iff hpos ht r).mpr ⟨hzero, hfirst⟩] at hdecode
        cases hdecode

/-! ## Frames -/

/-- A frame is published: its header is accepted, and the bytes of its PDU have the right CRC. -/
theorem handleMsg_eq_ok_iff {buggyCrc : Bool} {bits : List Bool} {p : ℕ × List (BitVec 8)} :
    handleMsg buggyCrc bits = .ok p ↔
      ∃ hdr mode bytes, readHeader buggyCrc bits = .ok hdr ∧ hdr.PduLength ≠ 0 ∧
        coding hdr.AiTypeSrc = .ok mode ∧ pduBytes bits hdr.PduLength mode = .ok bytes ∧
        crc13 buggyCrc bytes = hdr.CRC13 ∧ p = (hdr.SrcId, packMsb bytes.flatten) := by
  rw [handleMsg, bind_eq_ok]
  refine exists_congr fun hdr => ?_
  by_cases hzero : hdr.PduLength = 0
  · rw [if_pos hzero]
    simp [hzero, bind, Except.bind]
  rw [if_neg hzero, bind_eq_ok]
  simp only [bind_eq_ok]
  constructor
  · rintro ⟨hhdr, mode, hmode, bytes, hbytes, h⟩
    split_ifs at h with hcrc
    · cases h
    · exact ⟨mode, bytes, hhdr, hzero, hmode, hbytes, not_not.mp hcrc, (Except.ok.inj h).symm⟩
  · rintro ⟨mode, bytes, hhdr, -, hmode, hbytes, hcrc, rfl⟩
    exact ⟨hhdr, mode, hmode, bytes, hbytes, by rw [if_neg (not_not.mpr hcrc)]; rfl⟩

/-- The rows of a frame that the decoder goes through, with the distances of their codes. -/
inductive IsRow (bits : List Bool) (hdr : LTUFrameHeader) : ℕ → BitVec 15 → Prop
  | header {rows row} (hrows : headerRows bits = .ok rows) (hrow : row ∈ rows) :
    IsRow bits hdr 7 (rowOf row)
  | data {m d k rows row} (hmode : coding hdr.AiTypeSrc = .ok (.bch m d))
    (hk : k < numBlocks hdr.PduLength m) (hrows : blockRows bits k = .ok rows)
    (hrow : row ∈ rows) : IsRow bits hdr d (rowOf row)

theorem isDistance_of_coding {aiTypeSrc m d : ℕ} (h : coding aiTypeSrc = .ok (.bch m d)) :
    IsDistance d := by
  have := coding_eq_bch h
  unfold IsDistance
  omega

theorem IsRow.isDistance {bits : List Bool} {hdr : LTUFrameHeader} {d : ℕ} {r : BitVec 15}
    (h : IsRow bits hdr d r) : IsDistance d := by
  cases h with
  | header => exact Or.inr (Or.inr rfl)
  | data hmode => exact isDistance_of_coding hmode

theorem decode_of_mem {d : ℕ} {rows left : List (List Bool)} (h : decodeRows d rows = .ok left)
    {row : List Bool} (hrow : row ∈ rows) : (decodeBch15 (rowOf row) d).1 = true := by
  obtain ⟨row', hrow'⟩ := succeeds_mapM.mp ⟨left, h⟩ row hrow
  split at hrow'
  · rename_i word hdecode
    rw [hdecode]
  · cases hrow'

/-- The decoder succeeds on every row of a frame that is published. -/
theorem IsRow.decode {buggyCrc : Bool} {bits : List Bool} {hdr : LTUFrameHeader}
    {p : ℕ × List (BitVec 8)} (hpublish : handleMsg buggyCrc bits = .ok p)
    (hhdr : readHeader buggyCrc bits = .ok hdr) {d : ℕ} {r : BitVec 15} (h : IsRow bits hdr d r) :
    (decodeBch15 r d).1 = true := by
  obtain ⟨hdr', mode, bytes, hhdr', -, hmode', hbytes, -⟩ := handleMsg_eq_ok_iff.mp hpublish
  obtain rfl : hdr = hdr' := Except.ok.inj (hhdr.symm.trans hhdr')
  cases h with
  | header hrows hrow =>
    obtain ⟨rows', hrows', h⟩ := bind_eq_ok.mp hhdr
    obtain rfl := Except.ok.inj (hrows.symm.trans hrows')
    obtain ⟨left, hleft, -⟩ := bind_eq_ok.mp h
    exact decode_of_mem hleft hrow
  | @data m d k rows row hmode hk hrows hrow =>
    obtain rfl : Coding.bch m d = mode := Except.ok.inj (hmode.symm.trans hmode')
    obtain ⟨data, hdata, -⟩ := bind_eq_ok.mp hbytes
    obtain ⟨blocks, hblocks, -⟩ := bind_eq_ok.mp hdata
    obtain ⟨data, hdata⟩ := succeeds_mapM.mp ⟨blocks, hblocks⟩ k (List.mem_range.mpr hk)
    obtain ⟨rows', hrows', hdata⟩ := bind_eq_ok.mp hdata
    obtain rfl := Except.ok.inj (hrows.symm.trans hrows')
    obtain ⟨left, hleft, -⟩ := bind_eq_ok.mp hdata
    exact decode_of_mem hleft hrow

/-! ## Frames with errors -/

/-- The bits of the bytes of a PDU in a frame without errors. -/
def sentBytes (sent : List Bool) (pduLength : ℕ) : Coding → Except Stop (List (List Bool))
  | .uncoded => fliplr <$> reshape pduLength 8 ((sent.drop 210).take (pduLength * 8))
  | .bch dataBitsPerCodeword _ => do
    let n := numBlocks pduLength dataBitsPerCodeword
    let blocks ← (List.range n).mapM fun k => blockBits dataBitsPerCodeword <$> blockRows sent k
    let rows ← reshape (dataBytesPerBlock dataBitsPerCodeword * n) 8 blocks.flatten
    return (fliplr rows).take pduLength

/-- A frame without errors of a PDU: the CRCs are right, and the PDU is not empty. -/
structure IsSent (buggyCrc : Bool) (sent : List Bool) (hdr : LTUFrameHeader) (mode : Coding)
    (bytes : List (List Bool)) : Prop where
  header : ∃ rows, headerRows sent = .ok rows ∧ hdr = LTUFrameHeader.parse (headerBits rows) ∧
    crc5 buggyCrc (headerBits rows) = .ok hdr.CRC5
  nonempty : hdr.PduLength ≠ 0
  coded : coding hdr.AiTypeSrc = .ok mode
  payload : sentBytes sent hdr.PduLength mode = .ok bytes
  crc : crc13 buggyCrc bytes = hdr.CRC13

/-- Rows and the codewords that were sent for them. -/
def CorrectableRows (d : ℕ) (rows rows' : Except Stop (List (List Bool))) : Prop :=
  ∀ sent, rows' = .ok sent →
    ∃ received, rows = .ok received ∧
      List.Forall₂ (fun r c => Correctable d (rowOf r) (rowOf c)) received sent

/-- A frame with errors in its rows; without a code there is none in its PDU. -/
structure IsReceived (sent bits : List Bool) (hdr : LTUFrameHeader) (mode : Coding) : Prop where
  header : CorrectableRows 7 (headerRows bits) (headerRows sent)
  data : match mode with
    | .uncoded => (bits.drop 210).take (hdr.PduLength * 8) = (sent.drop 210).take (hdr.PduLength * 8)
    | .bch m d => ∀ k < numBlocks hdr.PduLength m,
        CorrectableRows d (blockRows bits k) (blockRows sent k)

theorem bitsOf_rowOf {row : List Bool} (h : row.length = 15) : bitsOf (rowOf row) = row := by
  have hlt := ofBits_lt row
  rw [h] at hlt
  rw [bitsOf, rowOf, BitVec.toNat_ofNat, Nat.mod_eq_of_lt hlt, ← h, toBits_ofBits]

theorem length_of_mem_transpose {rows cols n : ℕ} {xs row : List Bool} {m : List (List Bool)}
    (hm : reshape rows cols xs = .ok m) (hrow : row ∈ transpose n m) : row.length = rows := by
  rw [reshape] at hm
  split_ifs at hm
  cases hm
  simp only [transpose, List.mem_map] at hrow
  obtain ⟨j, -, rfl⟩ := hrow
  simp

theorem length_of_mem_headerRows {bits row : List Bool} {rows : List (List Bool)}
    (h : headerRows bits = .ok rows) (hrow : row ∈ rows) : row.length = 15 := by
  obtain ⟨m, hm, hpure⟩ := bind_eq_ok.mp (show (reshape 15 14 (bits.take 210) >>= fun m =>
    Except.ok (transpose 14 m)) = .ok rows from h)
  cases hpure
  exact length_of_mem_transpose hm hrow

theorem length_of_mem_blockRows {bits row : List Bool} {k : ℕ} {rows : List (List Bool)}
    (h : blockRows bits k = .ok rows) (hrow : row ∈ rows) : row.length = 15 := by
  obtain ⟨m, hm, hpure⟩ := bind_eq_ok.mp (show (reshape 15 16
    ((bits.drop (210 + k * 240)).take 240) >>= fun m => Except.ok (transpose 16 m)) = .ok rows from h)
  cases hpure
  exact length_of_mem_transpose hm hrow

/-- Correctable rows are decoded to the rows that were sent. -/
theorem decodeRows_of_correctable {d : ℕ} (hd : IsDistance d) {received sent : List (List Bool)}
    (hlength : ∀ row ∈ sent, row.length = 15)
    (h : List.Forall₂ (fun r c => Correctable d (rowOf r) (rowOf c)) received sent) :
    decodeRows d received = .ok sent := by
  apply mapM_eq_ok.mpr
  induction h with
  | nil => exact .nil
  | cons hrow _ ih =>
    obtain ⟨hfirst, hrest⟩ := List.forall_mem_cons.mp hlength
    refine .cons ?_ (ih hrest)
    rw [hrow.decode hd]
    exact congrArg Except.ok (bitsOf_rowOf hfirst)

theorem pduBytes_of_received {sent bits : List Bool} {hdr : LTUFrameHeader} {mode : Coding}
    {bytes : List (List Bool)} (hmode : coding hdr.AiTypeSrc = .ok mode)
    (hbytes : sentBytes sent hdr.PduLength mode = .ok bytes)
    (h : IsReceived sent bits hdr mode) : pduBytes bits hdr.PduLength mode = .ok bytes := by
  have hdata := h.data
  cases mode with
  | uncoded => rwa [pduBytes, hdata]
  | bch m d =>
    obtain ⟨blocks, hblocks, hrest⟩ := bind_eq_ok.mp hbytes
    have hdecode : (List.range (numBlocks hdr.PduLength m)).mapM (decodeBlock bits m d) =
        .ok blocks := by
      refine mapM_eq_ok_of_forall hblocks fun k hk data hblock => ?_
      obtain ⟨rows, hrows, hpure⟩ := bind_eq_ok.mp hblock
      obtain ⟨received, hreceived, hcorrectable⟩ := hdata k (List.mem_range.mp hk) rows hrows
      have hleft := decodeRows_of_correctable (isDistance_of_coding hmode)
        (fun row hrow => length_of_mem_blockRows hrows hrow) hcorrectable
      exact bind_eq_ok.mpr ⟨received, hreceived, bind_eq_ok.mpr ⟨rows, hleft, hpure⟩⟩
    rw [pduBytes, decodeBlocks_eq]
    exact bind_eq_ok.mpr ⟨blocks.flatten, bind_eq_ok.mpr ⟨blocks, hdecode, rfl⟩, hrest⟩

/-- A frame with errors that the decoder takes away is published with the PDU that was sent. -/
theorem handleMsg_of_received {buggyCrc : Bool} {sent bits : List Bool} {hdr : LTUFrameHeader}
    {mode : Coding} {bytes : List (List Bool)} (hsent : IsSent buggyCrc sent hdr mode bytes)
    (h : IsReceived sent bits hdr mode) :
    handleMsg buggyCrc bits = .ok (hdr.SrcId, packMsb bytes.flatten) := by
  rw [handleMsg_eq_ok_iff]
  refine ⟨hdr, mode, bytes, ?_, hsent.nonempty, hsent.coded,
    pduBytes_of_received hsent.coded hsent.payload h, hsent.crc, rfl⟩
  obtain ⟨rows, hrows, hhdr, hcrc⟩ := hsent.header
  obtain ⟨received, hreceived, hcorrectable⟩ := h.header rows hrows
  have hdecode := decodeRows_of_correctable (Or.inr (Or.inr rfl))
    (fun row hrow => length_of_mem_headerRows hrows hrow) hcorrectable
  refine bind_eq_ok.mpr ⟨received, hreceived, bind_eq_ok.mpr ⟨rows, hdecode, bind_eq_ok.mpr
    ⟨hdr.CRC5, hcrc, ?_⟩⟩⟩
  rw [← hhdr, if_neg (not_not.mpr rfl)]
  rfl

/-- **Correction.** A codeword of odd weight is not recovered from all the errors that its code
corrects, every other one is; a frame is published as it was sent when its rows avoid that. -/
theorem decode_corrects_iff (buggyCrc : Bool) :
    (∀ d c e, IsDistance d → IsCodeword d c → weight e ≤ radius d →
      (decodeBch15 (c ^^^ e) d = (true, c) ↔ weight c % 2 = 0 ∨ weight e < radius d)) ∧
      ∀ sent bits hdr mode bytes, IsSent buggyCrc sent hdr mode bytes →
        IsReceived sent bits hdr mode →
        handleMsg buggyCrc bits = .ok (hdr.SrcId, packMsb bytes.flatten) :=
  ⟨fun _ _ _ hd hc he => decodeBch15_eq_iff hd hc he,
    fun _ _ _ _ _ hsent hreceived => handleMsg_of_received hsent hreceived⟩

/-- The bits of a row array, or nothing where there is none. -/
def rowsOrNil : Except Stop (List (List Bool)) → List (List Bool)
  | .ok rows => rows
  | .error _ => []

theorem eq_ok_rowsOrNil {x : Except Stop (List (List Bool))} (h : x.toBool = true) :
    x = .ok (rowsOrNil x) := by
  cases x with
  | ok rows => rfl
  | error stop => cases h

/-- A frame with one byte that is not coded. -/
def sentFrame : List Bool :=
  toBits 218 0x9401d0040001004002500e4039007403400a000c0004034003a5 ++ List.replicate 3878 false

/-- The same frame with an error in two rows of its header. -/
def receivedFrame : List Bool :=
  toBits 218 0x409401d0040001004012500e4039007403400a000c0004034003a5 ++ List.replicate 3878 false

theorem isSent_sentFrame :
    IsSent true sentFrame ⟨1, 0, 1, 1299, 26⟩ .uncoded [toBits 8 0xA5] where
  header := ⟨rowsOrNil (headerRows sentFrame), eq_ok_rowsOrNil (by decide +kernel),
    by decide +kernel, by decide +kernel⟩
  nonempty := by decide
  coded := rfl
  payload := by decide +kernel
  crc := by decide

theorem isReceived_receivedFrame :
    IsReceived sentFrame receivedFrame ⟨1, 0, 1, 1299, 26⟩ .uncoded where
  header := by
    intro rows hrows
    have hsent : rows = rowsOrNil (headerRows sentFrame) := by rw [hrows]; rfl
    refine ⟨rowsOrNil (headerRows receivedFrame), eq_ok_rowsOrNil (by decide +kernel), ?_⟩
    rw [hsent]
    decide +kernel
  data := by
    change (receivedFrame.drop 210).take 8 = (sentFrame.drop 210).take 8
    decide

theorem decode_corrects_frame :
    decodeBch15 (43#15 ^^^ 1#15) 3 = (true, 43#15) ∧
      handleMsg true receivedFrame = .ok (1, [0xA5]) := by
  constructor
  · exact ((decode_corrects_iff true).1 3 43#15 1#15 (Or.inl rfl) (by decide) (by decide)).mpr
      (Or.inl (by decide))
  · exact (decode_corrects_iff true).2 sentFrame receivedFrame _ _ _ isSent_sentFrame
      isReceived_receivedFrame

/-- A codeword of odd weight with one error: the decoder gives up. -/
theorem not_decode_corrects_odd :
    ¬ ∀ d c e, IsDistance d → IsCodeword d c → weight e ≤ radius d →
      decodeBch15 (c ^^^ e) d = (true, c) := by
  intro h
  have hdecode := h 3 25#15 1#15 (Or.inl rfl) (by decide) (by decide)
  revert hdecode
  decide

/-- **Soundness.** The decoder is sound for the detectable rows only, and the rows left in a frame
that is published have zero syndromes exactly when they were all detectable. -/
theorem decode_sound_iff (buggyCrc : Bool) :
    (∀ d r, IsDistance d →
      (((decodeBch15 r d).1 = true → HasZeroSyndromes d (decodeBch15 r d).2) ↔ Detectable d r)) ∧
      ∀ bits hdr, readHeader buggyCrc bits = .ok hdr →
        (((∃ p, handleMsg buggyCrc bits = .ok p) →
            ∀ d r, IsRow bits hdr d r → HasZeroSyndromes d (decodeBch15 r d).2) ↔
          ((∃ p, handleMsg buggyCrc bits = .ok p) →
            ∀ d r, IsRow bits hdr d r → Detectable d r)) := by
  refine ⟨fun d r hd => hasZeroSyndromes_iff_detectable hd r, fun bits hdr hhdr => ?_⟩
  refine forall_congr' fun ⟨p, hpublish⟩ => forall₂_congr fun d r => forall_congr' fun hrow => ?_
  rw [← hasZeroSyndromes_iff_detectable hrow.isDistance, forall_prop_of_true]
  exact hrow.decode hpublish hhdr

/-- A frame whose block has a row that is no codeword and stays one. -/
def undetectedFrame : List Bool :=
  toBits 210 0xe44291010419009041910a40090024404005043400e4024005 ++ toBits 240 0x800080008000 ++
    List.replicate 3646 false

theorem isRow_undetectedFrame : IsRow undetectedFrame ⟨1, 2, 1, 6884, 27⟩ 5 7#15 := by
  have hrow : bitsOf 7#15 ∈ rowsOrNil (blockRows undetectedFrame 0) := by decide +kernel
  exact IsRow.data rfl (by decide) (eq_ok_rowsOrNil (by decide +kernel)) hrow

theorem decode_sound_row :
    (decodeBch15 3#15 5).1 = true → HasZeroSyndromes 5 (decodeBch15 3#15 5).2 :=
  ((decode_sound_iff true).1 5 3#15 (Or.inr (Or.inl rfl))).mpr (Or.inl ⟨3#15, by decide, by decide⟩)

/-- A frame is published although a row is left with syndromes that are not zero. -/
theorem not_decode_sound_frame :
    ¬ ∀ buggyCrc bits hdr p, readHeader buggyCrc bits = .ok hdr → handleMsg buggyCrc bits = .ok p →
      ∀ d r, IsRow bits hdr d r → HasZeroSyndromes d (decodeBch15 r d).2 := by
  intro h
  have hzero := h true undetectedFrame ⟨1, 2, 1, 6884, 27⟩ (1, [0x70]) (by decide +kernel)
    (by decide +kernel) 5 7#15 isRow_undetectedFrame
  revert hzero
  decide

end GrSatellites.Snet
