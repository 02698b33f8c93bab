import GrSatellites.Golay24.Correction
import GrSatellites.U482c.Memory

/-!
# U482C round trips

A packet that the encoder sends comes back from the decoder with errors that the Golay code
of the header and the Reed-Solomon code of the payload correct.
-/

namespace GrSatellites.U482c

open Buffer Fec Golay24 Transducer Weight

/-! ## What the encoder sends -/

namespace Encoder

variable (c : Encoder) (rs : Rs8) {data msg : List Byte}

/-- A buffer with the preamble and the sync word at its start. -/
structure Ready (data : List Byte) : Prop where
  length : data.length = c.preambleLen + syncword.length + (headerLen + rsLen)
  start : data.take (c.preambleLen + syncword.length) =
    List.replicate c.preambleLen 0xaa ++ syncword

theorem ready_init : c.Ready c.init := by
  constructor
  · simp only [init, List.length_append, List.length_replicate]
  · rw [init, List.take_left']
    rw [List.length_append, List.length_replicate]

/-- The payload and its parity symbols, if any. -/
def codeword (msg : List Byte) : List Byte := msg ++ if c.rs then rs.encode msg else []

/-- The bytes that are sent of a codeword. -/
def scramble (on : Bool) (bytes : List Byte) : List Byte :=
  if on then List.zipWith (· ^^^ ·) bytes ccsdsSequence else bytes

theorem length_codeword (msg : List Byte) :
    (c.codeword rs msg).length = if c.rs then msg.length + (rsLen - rsInfoLen) else msg.length := by
  rw [codeword]
  cases c.rs with
  | true =>
    rw [if_pos rfl, if_pos rfl, List.length_append, rs.length_encode]
    rfl
  | false => simp

theorem length_codeword_le (hmsg : msg.length ≤ c.maxPayloadLen) :
    (c.codeword rs msg).length ≤ rsLen := by
  rw [length_codeword]
  rw [maxPayloadLen, rsInfoLen, rsLen] at hmsg
  rw [rsLen, rsInfoLen]
  split at hmsg
  case isTrue h =>
    rw [if_pos h]
    omega
  case isFalse h => rwa [if_neg h]

/-- The payload buffer after the payload and the parity symbols are written. -/
def filled (buffer msg : List Byte) : List Byte :=
  if c.rs then writeAt (writeAt buffer 0 msg) msg.length
    (rs.encodeRs8 (writeAt buffer 0 msg) (rsInfoLen - msg.length))
  else writeAt buffer 0 msg

theorem length_filled {buffer : List Byte} (hbuffer : buffer.length = rsLen)
    (hmsg : msg.length ≤ c.maxPayloadLen) : (c.filled rs buffer msg).length = rsLen := by
  have hcodeword := c.length_codeword_le rs hmsg
  rw [length_codeword] at hcodeword
  have hwritten : (writeAt buffer 0 msg).length = rsLen := by
    rw [length_writeAt, hbuffer]
    split at hcodeword <;> omega
  rw [filled]
  split
  case isTrue hrs =>
    rw [if_pos hrs] at hcodeword
    rw [length_writeAt, hwritten]
    rw [hwritten, Rs8.encodeRs8, rs.length_encode]
    exact hcodeword
  case isFalse => exact hwritten

theorem take_filled {buffer : List Byte} (hbuffer : buffer.length = rsLen)
    (hmsg : msg.length ≤ c.maxPayloadLen) :
    (c.filled rs buffer msg).take (c.codeword rs msg).length = c.codeword rs msg := by
  have hcodeword := c.length_codeword_le rs hmsg
  rw [length_codeword] at hcodeword
  have hwritten : (writeAt buffer 0 msg).take msg.length = msg := by
    have htake : (writeAt buffer 0 msg).take (0 + msg.length) = buffer.take 0 ++ msg :=
      take_writeAt (Nat.zero_le buffer.length)
    rwa [Nat.zero_add, List.take_zero, List.nil_append] at htake
  cases hrs : c.rs with
  | false =>
    rw [filled, codeword, hrs]
    simpa using hwritten
  | true =>
    rw [if_pos hrs] at hcodeword
    rw [maxPayloadLen, if_pos hrs] at hmsg
    have hsymbols : ((nn - nroots : ℕ) - (rsInfoLen - msg.length : ℤ)).toNat = msg.length := by
      rw [rsInfoLen] at hmsg
      rw [nn, nroots, rsInfoLen]
      omega
    have hlength : (writeAt buffer 0 msg).length = rsLen := by
      rw [length_writeAt (by omega), hbuffer]
    rw [filled, codeword, hrs, if_pos rfl, if_pos rfl, List.length_append, Rs8.encodeRs8, hsymbols,
      hwritten, take_writeAt (by omega), hwritten]

/-- The payload buffer after it is scrambled. -/
theorem take_scrambled {buffer : List Byte} {n : ℕ} (hbuffer : buffer.length = rsLen)
    (hn : n ≤ rsLen) (on : Bool) :
    (if on then ccsdsXorSequence buffer ccsdsSequence n else buffer).take n =
      scramble on (buffer.take n) := by
  have hsequence : n ≤ ccsdsSequence.length := Decoder.length_ccsdsSequence ▸ hn
  cases on with
  | true => exact take_ccsdsXorSequence_self hsequence (by omega)
  | false => rfl

theorem length_scrambled {buffer : List Byte} {n : ℕ} (hbuffer : buffer.length = rsLen)
    (hn : n ≤ rsLen) (on : Bool) :
    (if on then ccsdsXorSequence buffer ccsdsSequence n else buffer).length = rsLen := by
  cases on with
  | true => exact (length_ccsdsXorSequence (Decoder.length_ccsdsSequence ▸ hn)).trans hbuffer
  | false => exact hbuffer

/-- What the encoder makes of the buffer. -/
theorem handleMsg_of_le (data : List Byte) (hmsg : msg.length ≤ c.maxPayloadLen) :
    let start := c.preambleLen + syncword.length
    let header := headerBytes (encodeGolay24 (c.header msg.length))
    let payload := c.filled rs ((writeAt data start header).drop (start + headerLen)) msg
    let n := (c.codeword rs msg).length
    let sent := (writeAt data start header).take (start + headerLen) ++
      if c.scrambler then ccsdsXorSequence payload ccsdsSequence n else payload
    c.handleMsg rs data msg = (sent, [sent.take (start + headerLen + n)]) := by
  simp only [handleMsg, if_neg (Nat.not_lt.mpr hmsg), length_codeword]
  rfl

variable {c}

/-- The buffer with a header written. -/
theorem Ready.header (hdata : c.Ready data) (x : BitVec 32) :
    let start := c.preambleLen + syncword.length
    (writeAt data start (headerBytes x)).take (start + headerLen) =
        List.replicate c.preambleLen 0xaa ++ syncword ++ headerBytes x ∧
      ((writeAt data start (headerBytes x)).drop (start + headerLen)).length = rsLen := by
  obtain ⟨hlength, hstart⟩ := hdata
  have hbytes : (headerBytes x).length = headerLen := rfl
  constructor
  · rw [← hbytes, take_writeAt (by omega), hstart]
  · rw [List.length_drop, length_writeAt (by omega)]
    omega

/-- **The encoder.** What is published for a message that is not too long. -/
theorem handleMsg_eq (hdata : c.Ready data) (hmsg : msg.length ≤ c.maxPayloadLen) :
    (c.handleMsg rs data msg).2 = [List.replicate c.preambleLen 0xaa ++ syncword ++
      headerBytes (encodeGolay24 (c.header msg.length)) ++
        scramble c.scrambler (c.codeword rs msg)] := by
  obtain ⟨hstart, hbuffer⟩ := hdata.header (encodeGolay24 (c.header msg.length))
  have hlength : (List.replicate c.preambleLen 0xaa ++ syncword ++
      headerBytes (encodeGolay24 (c.header msg.length))).length =
        c.preambleLen + syncword.length + headerLen := by
    rw [List.length_append, List.length_append, List.length_replicate]
    rfl
  rw [handleMsg_of_le c rs data hmsg]
  simp only
  rw [hstart, ← hlength, List.take_length_add_append, hlength,
    take_scrambled (c.length_filled rs hbuffer hmsg) (c.length_codeword_le rs hmsg),
    c.take_filled rs hbuffer hmsg]

theorem ready_handleMsg (hdata : c.Ready data) (msg : List Byte) :
    c.Ready (c.handleMsg rs data msg).1 := by
  rcases Nat.lt_or_ge c.maxPayloadLen msg.length with hlong | hmsg
  · rw [handleMsg, if_pos hlong]
    exact hdata
  · obtain ⟨hstart, hbuffer⟩ := hdata.header (encodeGolay24 (c.header msg.length))
    have hpayload := length_scrambled (c.length_filled rs hbuffer hmsg)
      (c.length_codeword_le rs hmsg) c.scrambler
    rw [handleMsg_of_le c rs data hmsg]
    simp only
    rw [hstart]
    constructor
    · rw [List.length_append, hpayload, List.length_append, List.length_append,
        List.length_replicate]
      rfl
    · rw [List.append_assoc, List.take_left']
      rw [List.length_append, List.length_replicate]

theorem ready_run (c : Encoder) (msgs : List (List Byte)) : c.Ready (run (c.handleMsg rs) c.init msgs).1 := by
  refine run_induction (I := fun _ _ data => c.Ready data) msgs c.ready_init ?_
  exact fun _ msg _ data _ hdata => ready_handleMsg rs hdata msg

end Encoder

/-! ## The header -/

open Encoder

theorem zipWith_headerBytes (x y : BitVec 32) :
    List.zipWith (· ^^^ ·) (headerBytes x) (headerBytes y) = headerBytes (x ^^^ y) := by
  have hbyte (k : ℕ) : ((x >>> k) &&& 0xff).setWidth 8 ^^^ ((y >>> k) &&& 0xff).setWidth 8 =
      (((x ^^^ y) >>> k) &&& 0xff).setWidth 8 := by
    rw [← BitVec.setWidth_xor, BitVec.ushiftRight_xor_distrib]
    congr 1
    rw [BitVec.and_comm, BitVec.and_comm _ 0xff, BitVec.and_comm _ 0xff]
    exact (xorLinear_and 0xff _ _).symm
  have hlast := hbyte 0
  simp only [BitVec.ushiftRight_zero] at hlast
  simp only [headerBytes, List.zipWith_cons_cons, List.zipWith_nil_right, hbyte, hlast]

/-- A byte of a header. -/
theorem getLsbD_byte (x : BitVec 32) (k i : ℕ) :
    ((x >>> k) &&& 0xff).getLsbD i = (decide (i < 8) && x.getLsbD (k + i)) := by
  have hmask : (0xff : BitVec 32).getLsbD i = decide (i < 8) := by
    rcases Nat.lt_or_ge i 32 with hlt | hge
    · have hall : ∀ i < 32, (0xff : BitVec 32).getLsbD i = decide (i < 8) := by decide
      exact hall i hlt
    · rw [BitVec.getLsbD_of_ge _ _ hge, decide_eq_false (by omega)]
  rw [BitVec.getLsbD_and, BitVec.getLsbD_ushiftRight, hmask, Bool.and_comm]

/-- The length field of a header that starts some data. -/
theorem lengthField_headerBytes (x : BitVec 24) (rest : List Byte) :
    Decoder.lengthField (headerBytes (x.setWidth 32) ++ rest) = x.setWidth 32 := by
  have hlast : BitVec.setWidth 32 x &&& (0xff : BitVec 32) =
      (BitVec.setWidth 32 x >>> 0) &&& 0xff := by rw [BitVec.ushiftRight_zero]
  apply BitVec.eq_of_getLsbD_eq
  intro i hi
  simp only [Decoder.lengthField, headerBytes, List.cons_append, List.getD_cons_zero,
    List.getD_cons_succ, hlast, BitVec.getLsbD_or, BitVec.getLsbD_shiftLeft, BitVec.getLsbD_setWidth,
    getLsbD_byte, Nat.zero_add]
  rcases Nat.lt_or_ge i 8 with h8 | h8
  · simp [hi, h8, (by omega : i < 16)]
  rcases Nat.lt_or_ge i 16 with h16 | h16
  · simp [hi, h16, Nat.not_lt.mpr h8, (by omega : 8 + (i - 8) = i), (by omega : i - 8 < 8),
      (by omega : i - 8 < 32)]
  rcases Nat.lt_or_ge i 24 with h24 | h24
  · simp [hi, Nat.not_lt.mpr h16, Nat.not_lt.mpr h8, (by omega : 16 + (i - 16) = i),
      (by omega : i - 16 < 8), (by omega : i - 16 < 32)]
    intro _ hlt
    omega
  · simp [Nat.not_lt.mpr h8, BitVec.getLsbD_of_ge x i h24]
    constructor <;> intros <;> omega

/-- Settings of the two ends that agree: each step is set to the same at both, or its flag is
in the header and the decoder follows it. -/
structure Matches (c : Encoder) (d : Decoder) : Prop where
  viterbi : d.viterbi = off ∨ d.viterbi = auto ∧ c.flagsInGolay = true
  scrambler : d.scrambler = (if c.scrambler then on else off) ∨
    d.scrambler = auto ∧ c.flagsInGolay = true
  rs : d.rs = (if c.rs then on else off) ∨ d.rs = auto ∧ c.flagsInGolay = true

/-- The fields of a decoded header are those of the header before it was encoded. -/
theorem getLsbD_encodeGolay24 (x : BitVec 32) {i : ℕ} (hi : i < 12) :
    (encodeGolay24 x).getLsbD i = x.getLsbD i := by
  have := congrArg (fun z => z.getLsbD i) (encodeGolay24_low x)
  simpa [hi] using this

/-- The bits of a header: the length of the coded payload, and the flags. -/
theorem getLsbD_header (c : Encoder) (rs : Rs8) (msg : List Byte) (i : ℕ) :
    (c.header msg.length).getLsbD i =
      ((BitVec.ofNat 8 (c.codeword rs msg).length).getLsbD i ||
        (c.flagsInGolay && (decide (i = 9) && c.scrambler || decide (i = 10) && c.rs))) := by
  have hbyte : BitVec.ofNat 8 (if c.rs then msg.length + rsLen - rsInfoLen else msg.length) =
      BitVec.ofNat 8 (c.codeword rs msg).length := by
    rw [length_codeword, Nat.add_sub_assoc (by decide)]
  have hbit (b : Bool) (j : ℕ) (hj : j < 32) :
      ((BitVec.ofBool b).setWidth 32 <<< j).getLsbD i = (decide (i = j) && b) := by
    rw [BitVec.getLsbD_shiftLeft, BitVec.getLsbD_setWidth, BitVec.getLsbD_ofBool]
    rcases Nat.lt_trichotomy i j with hlt | rfl | hgt
    · simp [hlt, hlt.ne]
    · simp [hj]
    · simp [hgt.ne']
      omega
  have hwide : ((BitVec.ofNat 8 (c.codeword rs msg).length).setWidth 32).getLsbD i =
      (BitVec.ofNat 8 (c.codeword rs msg).length).getLsbD i := by
    rw [BitVec.getLsbD_setWidth]
    rcases Nat.lt_or_ge i 32 with hlt | hge
    · rw [decide_eq_true hlt, Bool.true_and]
    · rw [BitVec.getLsbD_of_ge _ i (by omega), Bool.and_false]
  rw [header, hbyte]
  cases c.flagsInGolay with
  | false => simpa using hwide
  | true =>
    rw [if_pos rfl, BitVec.getLsbD_or, BitVec.getLsbD_or, hwide, hbit _ 9 (by decide),
      hbit _ 10 (by decide), Bool.true_and]

theorem frameLen_encode (c : Encoder) (rs : Rs8) {msg : List Byte}
    (hmsg : msg.length ≤ c.maxPayloadLen) :
    Decoder.frameLen (encodeGolay24 (c.header msg.length)) = (c.codeword rs msg).length := by
  have hle := c.length_codeword_le rs hmsg
  have hlow : encodeGolay24 (c.header msg.length) &&& 0xff =
      (BitVec.ofNat 8 (c.codeword rs msg).length).setWidth 32 := by
    apply BitVec.eq_of_getLsbD_eq
    intro i hi
    have hbyte := getLsbD_byte (encodeGolay24 (c.header msg.length)) 0 i
    rw [BitVec.ushiftRight_zero, Nat.zero_add] at hbyte
    rw [hbyte, BitVec.getLsbD_setWidth, decide_eq_true hi, Bool.true_and]
    rcases Nat.lt_or_ge i 8 with hlt | hge
    · rw [getLsbD_encodeGolay24 _ (by omega), getLsbD_header c rs, decide_eq_true hlt,
        decide_eq_false (by omega : ¬ i = 9), decide_eq_false (by omega : ¬ i = 10)]
      simp
    · rw [decide_eq_false (by omega), BitVec.getLsbD_of_ge _ i hge, Bool.false_and]
  rw [Decoder.frameLen, hlow, BitVec.toNat_setWidth, BitVec.toNat_ofNat]
  rw [rsLen] at hle
  omega

/-- A step is made by the decoder when it is by the encoder. -/
theorem enabled_eq (step : Bool) {option : ℤ} {flags flag : Bool}
    (h : option = (if step then on else off) ∨ option = auto ∧ flags = true)
    (hflag : flag = (flags && step)) : Decoder.enabled option flag = step := by
  rcases h with rfl | ⟨rfl, rfl⟩ <;> cases step <;> simp [Decoder.enabled, hflag, on, off, auto]

/-- The flags of a decoded header. -/
theorem flag_encode (c : Encoder) (rs : Rs8) (msg : List Byte) {i : ℕ} (hlow : 8 ≤ i) (hi : i < 12) :
    (encodeGolay24 (c.header msg.length)).getLsbD i =
      (c.flagsInGolay && (decide (i = 9) && c.scrambler || decide (i = 10) && c.rs)) := by
  rw [getLsbD_encodeGolay24 _ hi, getLsbD_header c rs, BitVec.getLsbD_of_ge _ i hlow, Bool.false_or]

variable {c : Encoder} {d : Decoder}

theorem enabled_viterbi (h : Matches c d) (rs : Rs8) (msg : List Byte) :
    Decoder.enabled d.viterbi (Decoder.viterbiFlag (encodeGolay24 (c.header msg.length))) = false :=
  enabled_eq false h.viterbi (by
    rw [Decoder.viterbiFlag, flag_encode c rs msg (by decide) (by decide)]
    simp)

theorem enabled_scrambler (h : Matches c d) (rs : Rs8) (msg : List Byte) :
    Decoder.enabled d.scrambler (Decoder.scramblerFlag (encodeGolay24 (c.header msg.length))) =
      c.scrambler :=
  enabled_eq c.scrambler h.scrambler (by
    rw [Decoder.scramblerFlag, flag_encode c rs msg (by decide) (by decide)]
    simp)

theorem enabled_rs (h : Matches c d) (rs : Rs8) (msg : List Byte) :
    Decoder.enabled d.rs (Decoder.rsFlag (encodeGolay24 (c.header msg.length))) = c.rs :=
  enabled_eq c.rs h.rs (by
    rw [Decoder.rsFlag, flag_encode c rs msg (by decide) (by decide)]
    simp)

/-! ## The round trip -/

/-- What the channel makes of the bytes after the sync word. -/
def receive (headerErrors : BitVec 24) (blockErrors bytes : List Byte) : List Byte :=
  List.zipWith (· ^^^ ·) bytes (headerBytes (headerErrors.setWidth 32) ++ blockErrors)

/-- The errors of a coded block, as many as can be corrected: none without Reed-Solomon
coding, else up to sixteen bytes. -/
def Correctable (c : Encoder) (n : ℕ) (blockErrors : List Byte) : Prop :=
  blockErrors.length = n ∧ blockErrors.countP (· ≠ 0) ≤ if c.rs then 16 else 0

theorem receive_eq (headerErrors : BitVec 24) (blockErrors : List Byte) (x : BitVec 32)
    (block : List Byte) : receive headerErrors blockErrors (headerBytes x ++ block) =
      headerBytes (x ^^^ headerErrors.setWidth 32) ++ List.zipWith (· ^^^ ·) block blockErrors := by
  have hlength : (headerBytes x).length = (headerBytes (headerErrors.setWidth 32)).length := rfl
  rw [receive, List.zipWith_append hlength, zipWith_headerBytes]

/-- The decoder's word, when the PDU holds a header and then a block of the length that the
header announces. -/
theorem word_receive (h : Matches c d) (rs : Rs8) {msg blockErrors packet : List Byte}
    (hmsg : msg.length ≤ c.maxPayloadLen) (hblock : Correctable c (c.codeword rs msg).length blockErrors)
    (hpacket : packet.take (c.codeword rs msg).length =
      List.zipWith (· ^^^ ·) (scramble c.scrambler (c.codeword rs msg)) blockErrors) :
    (d.word (encodeGolay24 (c.header msg.length)) packet).take (c.codeword rs msg).length =
      List.zipWith (· ^^^ ·) (c.codeword rs msg) blockErrors := by
  have hle : (c.codeword rs msg).length ≤ ccsdsSequence.length :=
    (c.length_codeword_le rs hmsg).trans Decoder.length_ccsdsSequence.ge
  have hlength : (c.codeword rs msg).length ≤ packet.length := by
    have := congrArg List.length hpacket
    rw [List.length_take, List.length_zipWith, hblock.1, scramble] at this
    split at this
    · rw [List.length_zipWith] at this
      omega
    · omega
  have hwordLen : d.wordLen (encodeGolay24 (c.header msg.length)) = (c.codeword rs msg).length := by
    rw [Decoder.wordLen, enabled_viterbi h rs, if_neg (by decide), frameLen_encode c rs hmsg]
  rw [Decoder.word, enabled_viterbi h rs, if_neg (by decide), hwordLen, Decoder.descramble,
    enabled_scrambler h rs]
  cases hscrambler : c.scrambler with
  | true =>
    rw [hscrambler, scramble, if_pos rfl] at hpacket
    rw [if_pos rfl, take_ccsdsXorSequence_self hle hlength, hpacket,
      zipWith_xor_sequence _ hblock.1.symm hle]
  | false =>
    rw [hscrambler, scramble, if_neg (by decide)] at hpacket
    rw [if_neg (by decide), hpacket]

theorem zipWith_xor_zero {bytes errors : List Byte} (hlength : errors.length = bytes.length)
    (hzero : errors.countP (· ≠ 0) = 0) : List.zipWith (· ^^^ ·) bytes errors = bytes := by
  induction bytes generalizing errors with
  | nil => exact List.zipWith_nil_left
  | cons byte bytes ih =>
    cases errors with
    | nil => cases hlength
    | cons error errors =>
      rw [List.countP_cons, Nat.add_eq_zero_iff] at hzero
      obtain ⟨hrest, hfirst⟩ := hzero
      have herror : error = 0#8 := by simpa using hfirst
      rw [List.zipWith_cons_cons, ih (by simpa using hlength) hrest, herror, BitVec.xor_zero]

/-- What the decoder publishes of a word with the errors of a correctable block. -/
theorem rsStep_word (h : Matches c d) (rs : Rs8) {msg blockErrors word : List Byte}
    (hmsg : msg.length ≤ c.maxPayloadLen)
    (hblock : Correctable c (c.codeword rs msg).length blockErrors)
    (hcode : c.rs = true → msg ≠ [] → rs.Corrects msg)
    (hword : word.take (c.codeword rs msg).length =
      List.zipWith (· ^^^ ·) (c.codeword rs msg) blockErrors) :
    ((d.rsStep rs (encodeGolay24 (c.header msg.length)) word (c.codeword rs msg).length).map
      fun r => r.1.take r.2) = if c.rs = true ∧ msg = [] then none else some msg := by
  obtain ⟨hlength, hcount⟩ := hblock
  cases hrs : c.rs with
  | false =>
    have hcodeword : c.codeword rs msg = msg := by
      rw [codeword, hrs]
      simp
    rw [hrs] at hcount
    rw [Decoder.rsStep, enabled_rs h rs, hrs, if_neg (by decide), if_neg (by simp), Option.map_some,
      hword, zipWith_xor_zero hlength (by simpa using hcount), hcodeword]
  | true =>
    have hcodeword : c.codeword rs msg = msg ++ rs.encode msg := by
      rw [codeword, hrs]
      rfl
    have hn : (c.codeword rs msg).length = msg.length + 32 := by
      rw [hcodeword, List.length_append, rs.length_encode]
      rfl
    have hon : Decoder.enabled d.rs (Decoder.rsFlag (encodeGolay24 (c.header msg.length))) = true := by
      rw [enabled_rs h rs, hrs]
    by_cases hnil : msg = []
    · rw [if_pos ⟨rfl, hnil⟩, Decoder.rsStep_of_short hon, Option.map_none]
      rw [hn, hnil]
      decide
    · have hle := c.length_codeword_le rs hmsg
      have hpos := List.length_pos_iff.mpr hnil
      rw [rsLen] at hle
      have hpad : ¬ ((rsLen - (c.codeword rs msg).length : ℤ) < 0 ∨
          222 < (rsLen - (c.codeword rs msg).length : ℤ)) := by
        rw [rsLen]
        omega
      have hsymbols : nn - (rsLen - (c.codeword rs msg).length : ℤ).toNat =
          (c.codeword rs msg).length := by
        rw [nn, rsLen]
        omega
      have hdecode := hcode hrs hnil blockErrors (by rw [hlength, hn]; rfl) (by simpa [hrs] using hcount)
      rw [← hcodeword] at hdecode
      rw [if_neg (by simp [hnil]), Decoder.rsStep, if_pos hon, Rs8.decodeRs8, if_neg hpad, hsymbols]
      simp only [hword, hdecode, Option.map_some, Option.some_inj]
      rw [hn, Nat.add_sub_cancel, hcodeword, List.append_assoc, List.take_left]

/-- One PDU, in any contents of the decoder's buffer. -/
theorem handleMsg_receive (h : Matches c d) (rs : Rs8) {data msg blockErrors : List Byte}
    {headerErrors : BitVec 24} (trailing : List Byte) (hdata : data.length = headerLen + rsLen)
    (hmsg : msg.length ≤ c.maxPayloadLen) (hheader : weight headerErrors ≤ 3)
    (hblock : Correctable c (c.codeword rs msg).length blockErrors)
    (hcode : c.rs = true → msg ≠ [] → rs.Corrects msg) :
    (d.handleMsg rs data (receive headerErrors blockErrors
      (headerBytes (encodeGolay24 (c.header msg.length)) ++
        scramble c.scrambler (c.codeword rs msg)) ++ trailing)).2 =
      if c.rs = true ∧ msg = [] then [] else [msg] := by
  have hle := c.length_codeword_le rs hmsg
  have hscramble : (scramble c.scrambler (c.codeword rs msg)).length =
      (c.codeword rs msg).length := by
    rw [scramble]
    split
    · rw [List.length_zipWith, Decoder.length_ccsdsSequence]
      omega
    · rfl
  have hbytes (x : BitVec 32) : (headerBytes x).length = headerLen := rfl
  rw [receive_eq]
  generalize hblock' : List.zipWith (· ^^^ ·) (scramble c.scrambler (c.codeword rs msg))
    blockErrors = block
  have hlength : block.length = (c.codeword rs msg).length := by
    rw [← hblock', List.length_zipWith, hscramble, hblock.1, Nat.min_self]
  generalize hreceived : headerBytes (encodeGolay24 (c.header msg.length) ^^^
    headerErrors.setWidth 32) ++ block ++ trailing = received
  have hwhole : headerLen + (c.codeword rs msg).length ≤ received.length := by
    rw [← hreceived, List.length_append, List.length_append, hbytes, hlength]
    omega
  have htake : (copyInto data received).take (headerLen + (c.codeword rs msg).length) =
      headerBytes (encodeGolay24 (c.header msg.length) ^^^ headerErrors.setWidth 32) ++ block := by
    rw [take_copyInto hwhole (by omega), ← hreceived, List.take_left']
    rw [List.length_append, hbytes, hlength]
  have hgolay : decodeGolay24 (Decoder.lengthField (copyInto data received)) =
      some (encodeGolay24 (c.header msg.length), weight headerErrors) := by
    have hfield : Decoder.lengthField (copyInto data received) =
        encodeGolay24 (c.header msg.length) ^^^ headerErrors.setWidth 32 := by
      have hfirst : (copyInto data received).take headerLen = (headerBytes (encodeGolay24
          (c.header msg.length) ^^^ headerErrors.setWidth 32) ++ block).take headerLen := by
        rw [← htake, List.take_take, Nat.min_eq_left (Nat.le_add_right _ _)]
      rw [Decoder.lengthField_congr hfirst, encodeGolay24_eq, word, ← BitVec.setWidth_xor,
        lengthField_headerBytes]
    rw [hfield, decodeGolay24_encodeGolay24 _ hheader]
  have hpacket : ((copyInto data received).drop headerLen).take (c.codeword rs msg).length =
      block := by
    have hdrop := congrArg (List.drop headerLen) htake
    rwa [List.drop_take, Nat.add_sub_cancel_left, List.drop_left' (hbytes _)] at hdrop
  have hwordLen : d.wordLen (encodeGolay24 (c.header msg.length)) = (c.codeword rs msg).length := by
    rw [Decoder.wordLen, enabled_viterbi h rs, if_neg (by decide), frameLen_encode c rs hmsg]
  rw [Decoder.published_eq hgolay (by rw [enabled_viterbi h rs]; simp), hwordLen,
    rsStep_word h rs hmsg hblock hcode (word_receive h rs hmsg hblock (hpacket.trans hblock'.symm))]
  split <;> rfl

/-- **Round trip.** After any messages at both ends, a message that the encoder accepts is sent
behind the preamble and the sync word. With up to three bit errors in the header, correctable
errors in the coded block and any bytes after it, the decoder publishes the message, unless it
is empty and Reed-Solomon coded. -/
theorem decode_encode (c : Encoder) (d : Decoder) (rs : Rs8) (earlier : List (List Byte))
    (data : List Byte) (history : List (List Byte)) (msg : List Byte) (headerErrors : BitVec 24)
    (blockErrors trailing : List Byte) (hmatch : Matches c d)
    (hdata : data.length = headerLen + rsLen) (hmsg : msg.length ≤ c.maxPayloadLen)
    (hcode : c.rs = true → msg ≠ [] → rs.Corrects msg) (hheader : weight headerErrors ≤ 3)
    (hblock : Correctable c (c.codeword rs msg).length blockErrors) :
    ∃ sent, (c.handleMsg rs (run (c.handleMsg rs) c.init earlier).1 msg).2 =
        [List.replicate c.preambleLen 0xaa ++ syncword ++ sent] ∧
      ((d.handleMsg rs (run (d.handleMsg rs) data history).1
          (receive headerErrors blockErrors sent ++ trailing)).2 = [msg] ↔
        c.rs = false ∨ msg ≠ []) := by
  refine ⟨headerBytes (encodeGolay24 (c.header msg.length)) ++
    scramble c.scrambler (c.codeword rs msg), ?_, ?_⟩
  · rw [handleMsg_eq rs (ready_run rs c earlier) hmsg, List.append_assoc]
  · have hlength := length_run (fun data msg hdata => (d.length_handleMsg rs (by omega) msg).trans
      hdata) hdata history
    rw [handleMsg_receive hmatch rs trailing hlength hmsg hheader hblock hcode]
    cases c.rs <;> by_cases hnil : msg = [] <;> simp [hnil]

/-- A zero byte, scrambled and coded, with an error in the header and one in the block. -/
theorem decode_encode_zero :
    let c : Encoder := ⟨true, true, 8, true⟩
    let d : Decoder := ⟨auto, auto, auto⟩
    ∃ sent, (c.handleMsg .zero (run (c.handleMsg .zero) c.init [[1, 2]]).1 [0]).2 =
        [List.replicate 8 0xaa ++ syncword ++ sent] ∧
      ((d.handleMsg .zero (run (d.handleMsg .zero) (List.replicate 258 7) [[3]]).1
          (receive 0x10 (1 :: List.replicate 32 0) sent ++ [9])).2 = [[0]] ↔
        c.rs = false ∨ [(0 : Byte)] ≠ []) := by
  refine decode_encode ⟨true, true, 8, true⟩ ⟨auto, auto, auto⟩ .zero [[1, 2]] (List.replicate 258 7)
    [[3]] [0] 0x10 (1 :: List.replicate 32 0) [9] ?_ List.length_replicate (by decide)
    (fun _ _ => Rs8.zero_corrects 1) (by decide) ⟨rfl, by decide⟩
  constructor <;> exact Or.inr ⟨rfl, rfl⟩

/-- With Reed-Solomon coding, the empty message is sent and dropped. -/
theorem decode_encode_empty :
    let c : Encoder := ⟨false, true, 0, true⟩
    let d : Decoder := ⟨off, off, on⟩
    (c.handleMsg .zero c.init []).2 =
        [syncword ++ [0xa9, 0xc4, 0x20] ++ List.replicate 32 0] ∧
      (d.handleMsg .zero (List.replicate 258 0)
        ([0xa9, 0xc4, 0x20] ++ List.replicate 32 0)).2 = [] := by
  constructor <;> decide +kernel

end GrSatellites.U482c
