import GrSatellites.Ax100.Memory
import GrSatellites.Library.Transducer
import GrSatellites.U482c.Model

/-!
# What the decoders use of their buffers

The bytes that a U482C decoder uses are the header and the bytes that it announces, and a PDU
that holds them is decoded in the same way whatever the buffer held before. With the same
fact for AX100 packets, a PDU that is whole is decoded alike after any two runs.
-/

namespace GrSatellites.U482c

open Buffer Fec Golay24

namespace Decoder

variable {c : Decoder} {rs : Rs8} {data data' msg packet packet' : List Byte} {field : BitVec 32}
  {rxLen : ℕ}

/-- The length of the word after Viterbi decoding, if any. -/
def wordLen (c : Decoder) (field : BitVec 32) : ℕ :=
  if enabled c.viterbi (viterbiFlag field) then frameLen field / 2 - 1 else frameLen field

/-- The bytes after the header that a header announces. A frame that is too short to be
decoded announces none. -/
def announced (c : Decoder) (field : BitVec 32) : ℕ :=
  if enabled c.viterbi (viterbiFlag field) ∧ frameLen field < 2 then 0
  else if enabled c.rs (rsFlag field) ∧ c.wordLen field < 33 then 0
  else if enabled c.viterbi (viterbiFlag field) then 2 * (c.wordLen field + 1)
  else frameLen field

/-- The PDU holds its header and, if it is a correctable Golay word, the bytes it announces. -/
def Whole (c : Decoder) (msg : List Byte) : Prop :=
  headerLen ≤ msg.length ∧ ∀ field errors, decodeGolay24 (lengthField msg) = some (field, errors) →
    headerLen + c.announced field ≤ msg.length

theorem frameLen_lt (field : BitVec 32) : frameLen field < 256 := by
  rw [frameLen, BitVec.toNat_and]
  exact Nat.and_lt_two_pow _ (by decide : (0xff#32).toNat < 2 ^ 8)

theorem wordLen_le (c : Decoder) (field : BitVec 32) : c.wordLen field ≤ frameLen field := by
  rw [wordLen]
  split <;> omega

theorem length_ccsdsSequence : ccsdsSequence.length = rsLen := length_ccsdsGenerateSequence rsLen

/-- The length field is in the first bytes. -/
theorem lengthField_congr (h : data.take headerLen = data'.take headerLen) :
    lengthField data = lengthField data' := by
  have hget (xs : List Byte) (i : ℕ) (hi : i < headerLen) :
      xs.getD i 0 = (xs.take headerLen).getD i 0 := by
    rw [List.getD_eq_getElem?_getD, List.getD_eq_getElem?_getD, List.getElem?_take_of_lt hi]
  rw [lengthField, lengthField, hget data 0 (by decide), hget data 1 (by decide),
    hget data 2 (by decide), hget data' 0 (by decide), hget data' 1 (by decide),
    hget data' 2 (by decide), h]

/-! ## The steps -/

theorem viterbiStep_of_short (hon : enabled c.viterbi (viterbiFlag field) = true)
    (hshort : frameLen field < 2) : c.viterbiStep field packet = none := by
  rw [viterbiStep, if_pos hon]
  exact if_pos (by omega)

/-- Viterbi decoding, when the frame is long enough. -/
theorem viterbiStep_eq (h : ¬ (enabled c.viterbi (viterbiFlag field) = true ∧ frameLen field < 2)) :
    c.viterbiStep field packet =
      some (if enabled c.viterbi (viterbiFlag field) then Viterbi.decode packet (c.wordLen field)
        else packet, c.wordLen field) := by
  rw [viterbiStep, wordLen]
  by_cases hon : enabled c.viterbi (viterbiFlag field) = true
  · have hlen : ((frameLen field / 2 : ℕ) - 1 : ℤ).toNat = frameLen field / 2 - 1 := by omega
    have hnonneg : ¬ ((frameLen field / 2 : ℕ) - 1 : ℤ) < 0 := by
      have : ¬ frameLen field < 2 := fun hlt => h ⟨hon, hlt⟩
      omega
    simp only [if_pos hon, if_neg hnonneg, hlen]
  · simp only [if_neg hon]

/-- The packet after Viterbi decoding and descrambling, when the frame is long enough. -/
def word (c : Decoder) (field : BitVec 32) (packet : List Byte) : List Byte :=
  c.descramble field (if enabled c.viterbi (viterbiFlag field) then
    Viterbi.decode packet (c.wordLen field) else packet) (c.wordLen field)

theorem wordLen_le_sequence (c : Decoder) (field : BitVec 32) :
    c.wordLen field ≤ ccsdsSequence.length := by
  have := c.wordLen_le field
  have := frameLen_lt field
  rw [length_ccsdsSequence, rsLen]
  omega

@[simp] theorem length_word (c : Decoder) (field : BitVec 32) (packet : List Byte) :
    (c.word field packet).length = packet.length := by
  rw [word, descramble]
  split
  case isTrue =>
    rw [length_ccsdsXorSequence (c.wordLen_le_sequence field)]
    split
    · exact Viterbi.length_decode _ _
    · rfl
  case isFalse =>
    split
    · exact Viterbi.length_decode _ _
    · rfl

/-- The first bytes of the word depend on the first bytes of the packet only, if these hold
all the symbols for the Viterbi decoder. -/
theorem take_word (c : Decoder) (field : BitVec 32) {used : ℕ} (hlength : packet.length = packet'.length)
    (hused : enabled c.viterbi (viterbiFlag field) = true → 2 * (c.wordLen field + 1) ≤ used)
    (h : packet.take used = packet'.take used) :
    (c.word field packet).take used = (c.word field packet').take used := by
  have hviterbi : (if enabled c.viterbi (viterbiFlag field) then
      Viterbi.decode packet (c.wordLen field) else packet).take used =
      (if enabled c.viterbi (viterbiFlag field) then
        Viterbi.decode packet' (c.wordLen field) else packet').take used := by
    split
    case isTrue hon => exact Viterbi.take_decode (hused hon) h
    case isFalse => exact h
  rw [word, word, descramble, descramble]
  split
  case isTrue =>
    refine take_ccsdsXorSequence (c.wordLen_le_sequence field) ?_ hviterbi
    split
    · rw [Viterbi.length_decode, Viterbi.length_decode, hlength]
    · exact hlength
  case isFalse => exact hviterbi

/-- What is published of a word. -/
theorem rsStep_congr (c : Decoder) (rs : Rs8) (field : BitVec 32) {used : ℕ} (hrxLen : rxLen ≤ rsLen) (hused : rxLen ≤ used)
    (h : packet.take used = packet'.take used) :
    (c.rsStep rs field packet rxLen).map (fun r => r.1.take r.2) =
      (c.rsStep rs field packet' rxLen).map (fun r => r.1.take r.2) := by
  rw [rsStep, rsStep]
  split
  case isTrue hon =>
    have hsymbols : nn - (rsLen - rxLen : ℤ).toNat ≤ used := by
      rw [nn]
      rw [rsLen] at hrxLen ⊢
      omega
    have hcongr := congrArg (Option.map fun r => r.1.take (rxLen - 32))
      (rs.decodeRs8_congr hsymbols h)
    simp only [Option.map_map, Function.comp_def, List.take_take] at hcongr ⊢
    rwa [Nat.min_eq_left (by omega)] at hcongr
  case isFalse =>
    rw [Option.map_some, Option.map_some, ← Nat.min_eq_left hused, ← List.take_take,
      ← List.take_take, h]

theorem rsStep_of_short (hon : enabled c.rs (rsFlag field) = true) (hshort : rxLen < 33) :
    c.rsStep rs field packet rxLen = none := by
  have hpad : (rsLen - rxLen : ℤ) < 0 ∨ 222 < (rsLen - rxLen : ℤ) := by
    rw [rsLen]
    omega
  rw [rsStep, if_pos hon, Rs8.decodeRs8, if_pos hpad, Option.map_none]

theorem length_rsStep {q : List Byte} {n : ℕ} (h : c.rsStep rs field packet rxLen = some (q, n)) :
    q.length = packet.length := by
  rw [rsStep] at h
  split at h
  case isTrue =>
    obtain ⟨⟨_, _⟩, hdecode, hresult⟩ := Option.map_eq_some_iff.mp h
    cases hresult
    exact rs.length_decodeRs8 hdecode
  case isFalse =>
    cases h
    rfl

/-! ## Messages -/

/-- A message with a correctable length field, whose frame is long enough. -/
theorem handleMsg_eq {errors : ℕ}
    (hgolay : decodeGolay24 (lengthField (copyInto data msg)) = some (field, errors))
    (hlong : ¬ (enabled c.viterbi (viterbiFlag field) = true ∧ frameLen field < 2)) :
    c.handleMsg rs data msg =
      match c.rsStep rs field (c.word field ((copyInto data msg).drop headerLen))
        (c.wordLen field) with
      | none => ((copyInto data msg).take headerLen ++
          c.word field ((copyInto data msg).drop headerLen), [])
      | some (packet, rxLen) => ((copyInto data msg).take headerLen ++ packet, [packet.take rxLen]) := by
  simp only [handleMsg, hgolay, viterbiStep_eq hlong]
  rfl

/-- What such a message publishes. -/
theorem published_eq {errors : ℕ}
    (hgolay : decodeGolay24 (lengthField (copyInto data msg)) = some (field, errors))
    (hlong : ¬ (enabled c.viterbi (viterbiFlag field) = true ∧ frameLen field < 2)) :
    (c.handleMsg rs data msg).2 =
      ((c.rsStep rs field (c.word field ((copyInto data msg).drop headerLen))
        (c.wordLen field)).map fun r => r.1.take r.2).toList := by
  rw [handleMsg_eq hgolay hlong]
  split
  case h_1 hrs => rw [hrs, Option.map_none, Option.toList_none]
  case h_2 hrs => rw [hrs, Option.map_some, Option.toList_some]

theorem handleMsg_of_not_golay (hgolay : decodeGolay24 (lengthField (copyInto data msg)) = none) :
    c.handleMsg rs data msg = (copyInto data msg, []) := by
  simp only [handleMsg, hgolay]

theorem handleMsg_of_short {errors : ℕ}
    (hgolay : decodeGolay24 (lengthField (copyInto data msg)) = some (field, errors))
    (hon : enabled c.viterbi (viterbiFlag field) = true) (hshort : frameLen field < 2) :
    c.handleMsg rs data msg = (copyInto data msg, []) := by
  simp only [handleMsg, hgolay, viterbiStep_of_short hon hshort]

theorem length_handleMsg (c : Decoder) (rs : Rs8) (hdata : headerLen ≤ data.length)
    (msg : List Byte) : (c.handleMsg rs data msg).1.length = data.length := by
  have hcopy : (copyInto data msg).length = data.length := length_copyInto _ _
  have hwhole (q : List Byte) (hq : q.length = ((copyInto data msg).drop headerLen).length) :
      ((copyInto data msg).take headerLen ++ q).length = data.length := by
    rw [List.length_append, List.length_take, hq, List.length_drop, hcopy]
    omega
  cases hgolay : decodeGolay24 (lengthField (copyInto data msg)) with
  | none => rw [handleMsg_of_not_golay hgolay, hcopy]
  | some result =>
    obtain ⟨field, errors⟩ := result
    by_cases hshort : enabled c.viterbi (viterbiFlag field) = true ∧ frameLen field < 2
    · rw [handleMsg_of_short hgolay hshort.1 hshort.2, hcopy]
    · rw [handleMsg_eq hgolay hshort]
      split
      case h_1 => exact hwhole _ (length_word _ _ _)
      case h_2 hrs => exact hwhole _ ((length_rsStep hrs).trans (length_word _ _ _))

/-- **Two buffers.** A whole PDU is decoded alike in any two buffers. -/
theorem handleMsg_congr (hdata : data.length = headerLen + rsLen)
    (hdata' : data'.length = headerLen + rsLen) (h : c.Whole msg) :
    (c.handleMsg rs data msg).2 = (c.handleMsg rs data' msg).2 := by
  obtain ⟨hheader, hwhole⟩ := h
  have hfield (data : List Byte) (hdata : data.length = headerLen + rsLen) :
      lengthField (copyInto data msg) = lengthField msg :=
    lengthField_congr (take_copyInto hheader (by omega))
  have hgolay : decodeGolay24 (lengthField (copyInto data msg)) = decodeGolay24 (lengthField msg) := by
    rw [hfield data hdata]
  have hgolay' : decodeGolay24 (lengthField (copyInto data' msg)) =
      decodeGolay24 (lengthField msg) := by
    rw [hfield data' hdata']
  cases hresult : decodeGolay24 (lengthField msg) with
  | none =>
    rw [handleMsg_of_not_golay (hgolay.trans hresult), handleMsg_of_not_golay (hgolay'.trans hresult)]
  | some result =>
    obtain ⟨field, errors⟩ := result
    have hlength := hwhole field errors hresult
    rw [hresult] at hgolay hgolay'
    by_cases hshort : enabled c.viterbi (viterbiFlag field) = true ∧ frameLen field < 2
    · rw [handleMsg_of_short hgolay hshort.1 hshort.2, handleMsg_of_short hgolay' hshort.1 hshort.2]
    rw [published_eq hgolay hshort, published_eq hgolay' hshort]
    by_cases hdropped : enabled c.rs (rsFlag field) = true ∧ c.wordLen field < 33
    · rw [rsStep_of_short hdropped.1 hdropped.2, rsStep_of_short hdropped.1 hdropped.2]
    rw [announced, if_neg hshort, if_neg hdropped] at hlength
    have hbyte := frameLen_lt field
    have hle := c.wordLen_le field
    generalize hused : (if enabled c.viterbi (viterbiFlag field) then 2 * (c.wordLen field + 1)
      else frameLen field) = used at hlength
    have hannounced : c.wordLen field ≤ used ∧ used ≤ rsLen := by
      rw [← hused, wordLen, rsLen]
      split <;> omega
    have hpacket (data : List Byte) (hdata : data.length = headerLen + rsLen) :
        ((copyInto data msg).drop headerLen).take used =
          (msg.take (headerLen + used)).drop headerLen := by
      have htake : (copyInto data msg).take (headerLen + used) = msg.take (headerLen + used) :=
        take_copyInto hlength (by omega)
      rw [← htake, List.drop_take, Nat.add_sub_cancel_left]
    have hlengths : ((copyInto data msg).drop headerLen).length =
        ((copyInto data' msg).drop headerLen).length := by
      rw [List.length_drop, List.length_drop, length_copyInto, length_copyInto, hdata, hdata']
    have hword := take_word c field hlengths (fun hon => by rw [← hused, if_pos hon])
      ((hpacket data hdata).trans (hpacket data' hdata').symm)
    rw [rsStep_congr c rs field (by rw [rsLen]; omega) hannounced.1 hword]

end Decoder

/-! ## Runs -/

open Transducer

/-- The contents of a buffer after some PDUs have the length that it had. -/
theorem length_run {handle : List Byte → List Byte → List Byte × List (List Byte)} {n : ℕ}
    (hhandle : ∀ data msg, data.length = n → (handle data msg).1.length = n)
    {data : List Byte} (hdata : data.length = n) (history : List (List Byte)) :
    (run handle data history).1.length = n := by
  induction history generalizing data with
  | nil => exact hdata
  | cons msg history ih =>
    rw [run_cons]
    exact ih (hhandle data msg hdata)

/-- **Memory.** After any two runs, from any contents of the buffer at the start, an AX100 or
U482C decoder publishes the same for a PDU that is whole. -/
theorem decoders_memoryless (rs : Rs8) :
    (∀ (data data' : List Byte) (history history' : List (List Byte)) (msg : List Byte),
      data.length = Ax100.dataLen → data'.length = Ax100.dataLen → Ax100.Whole msg →
        (Ax100.handleMsg rs (run (Ax100.handleMsg rs) data history).1 msg).2 =
          (Ax100.handleMsg rs (run (Ax100.handleMsg rs) data' history').1 msg).2) ∧
      ∀ (c : Decoder) (data data' : List Byte) (history history' : List (List Byte))
        (msg : List Byte), data.length = headerLen + rsLen → data'.length = headerLen + rsLen →
          c.Whole msg → (c.handleMsg rs (run (c.handleMsg rs) data history).1 msg).2 =
            (c.handleMsg rs (run (c.handleMsg rs) data' history').1 msg).2 := by
  constructor
  · intro data data' history history' msg hdata hdata' hwhole
    have hlength {data : List Byte} (hdata : data.length = Ax100.dataLen)
        (history : List (List Byte)) := length_run
      (fun _ msg hdata => Ax100.length_handleMsg rs hdata msg) hdata history
    exact Ax100.handleMsg_congr rs (hlength hdata history) (hlength hdata' history') hwhole
  · intro c data data' history history' msg hdata hdata' hwhole
    have hlength {data : List Byte} (hdata : data.length = headerLen + rsLen)
        (history : List (List Byte)) := length_run
      (fun data msg hdata => (c.length_handleMsg rs (by omega) msg).trans hdata) hdata history
    exact Decoder.handleMsg_congr (hlength hdata history) (hlength hdata' history') hwhole

/-- A frame of one byte and an AX100 word of zeros, after nothing and after another PDU. -/
theorem decoders_memoryless_whole :
    (Ax100.handleMsg .zero (run (Ax100.handleMsg .zero) (List.replicate 256 0) []).1
        (34 :: List.replicate 33 0)).2 =
      (Ax100.handleMsg .zero (run (Ax100.handleMsg .zero) (List.replicate 256 1) [[7, 8]]).1
        (34 :: List.replicate 33 0)).2 ∧
    (Decoder.handleMsg ⟨off, off, off⟩ .zero (run (Decoder.handleMsg ⟨off, off, off⟩ .zero)
        (List.replicate 258 0) []).1 [0x47, 0x70, 0x02, 5, 6]).2 =
      (Decoder.handleMsg ⟨off, off, off⟩ .zero (run (Decoder.handleMsg ⟨off, off, off⟩ .zero)
        (List.replicate 258 1) [[0x47, 0x70, 0x02, 7, 8]]).1 [0x47, 0x70, 0x02, 5, 6]).2 := by
  obtain ⟨hax100, hu482c⟩ := decoders_memoryless .zero
  constructor
  · exact hax100 _ _ _ _ _ List.length_replicate List.length_replicate ⟨by decide, by decide⟩
  · refine hu482c _ _ _ _ _ _ List.length_replicate List.length_replicate ⟨by decide, ?_⟩
    intro field errors hgolay
    have hword : decodeGolay24 (Decoder.lengthField [0x47, 0x70, 0x02, 5, 6]) =
        some (0x477002, 0) := by decide
    obtain ⟨rfl, rfl⟩ := Prod.mk.inj (Option.some.inj (hword.symm.trans hgolay))
    decide

/-- A PDU that ends after a header that announces two bytes: those of the PDU before it are
published. -/
theorem decoder_publishes_earlier_bytes :
    (Decoder.handleMsg ⟨off, off, off⟩ .zero (run (Decoder.handleMsg ⟨off, off, off⟩ .zero)
        (List.replicate 258 0) [[0x47, 0x70, 0x02, 5, 6]]).1 [0x47, 0x70, 0x02]).2 = [[5, 6]] ∧
      (Decoder.handleMsg ⟨off, off, off⟩ .zero (run (Decoder.handleMsg ⟨off, off, off⟩ .zero)
        (List.replicate 258 0) [[0x47, 0x70, 0x02, 7, 8]]).1 [0x47, 0x70, 0x02]).2 = [[7, 8]] := by
  constructor <;> decide +kernel

end GrSatellites.U482c
