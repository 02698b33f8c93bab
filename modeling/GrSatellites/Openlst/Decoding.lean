import GrSatellites.Library.Attempt
import GrSatellites.Openlst.Model

/-!
# Decoding OpenLST packets

Every index of the decoder is within its list, so that each block of four bytes is decoded. The
first two blocks give one byte, and each other block two bytes. A packet of 520 bytes is enough for
any number of bytes that the first one asks for.
-/

namespace GrSatellites.Openlst

open Attempt Checked Rounds

/-! ## Interleaving -/

theorem bits_lt (n : ℕ) : (n &&& 0xc0000000) >>> 30 < 4 := by
  have hle : n &&& 0xc0000000 ≤ 0xc0000000 := Nat.and_le_right
  rw [Nat.shiftRight_eq_div_pow]
  omega

theorem takeRow_spec (n : ℕ) : (takeRow n).1.length = 4 ∧ ∀ bits ∈ (takeRow n).1, bits < 4 := by
  simp [takeRow, List.range_succ, bits_lt]

theorem takeGrid_spec (n : ℕ) : (takeGrid n).1.length = 4 ∧
    ∀ row ∈ (takeGrid n).1, row.length = 4 ∧ ∀ bits ∈ row, bits < 4 := by
  refine ⟨rfl, fun row hrow => ?_⟩
  change row ∈ [_, _, _, _] at hrow
  simp only [List.mem_cons, List.not_mem_nil, or_false] at hrow
  rcases hrow with rfl | rfl | rfl | rfl <;> exact takeRow_spec _

/-- Two more bits. -/
theorem shiftLeft_or_lt {n bits k : ℕ} (hn : n < 2 ^ (2 * k)) (hbits : bits < 4) :
    n <<< 2 ||| bits < 2 ^ (2 * (k + 1)) := by
  refine Nat.or_lt_two_pow ?_ ?_
  · rw [Nat.shiftLeft_eq, mul_add, pow_add]
    exact Nat.mul_lt_mul_of_pos_right hn (by norm_num)
  · have hle : 2 ^ 2 ≤ 2 ^ (2 * (k + 1)) := Nat.pow_le_pow_right (by norm_num) (by omega)
    omega

theorem flip_returns {grid : List (List ℕ)} (hlength : grid.length = 4)
    (hrows : ∀ row ∈ grid, row.length = 4 ∧ ∀ bits ∈ row, bits < 4) :
    Returns (flip grid) (· < 2 ^ 32) := by
  refine Returns.foldlM_range (fun x n => n < 2 ^ (2 * (4 * x))) (fun x hx n hn => ?_) (by norm_num)
  refine Returns.foldlM_range (fun y n => n < 2 ^ (2 * (4 * x + y))) (fun y hy n hn => ?_) hn
  refine Returns.bind (Returns.access (by omega)) fun row hrow => ?_
  obtain ⟨hrowLength, hbits⟩ := hrows row (hrow ▸ List.getElem_mem _)
  refine Returns.bind (Returns.access (by omega)) fun bits hbit => ?_
  exact Returns.ok (shiftLeft_or_lt hn (hbits bits (hbit ▸ List.getElem_mem _)))

/-- A block of four bytes is deinterleaved. -/
theorem interleave_returns {chunk : List Byte} (h : chunk.length = 4) :
    Returns (interleave chunk) (·.length = 4) := by
  obtain ⟨hlength, hrows⟩ := takeGrid_spec (Nat.ofDigits 256 (chunk.map BitVec.toNat))
  unfold interleave
  rw [if_neg (not_not.mpr h)]
  refine Returns.bind (flip_returns hlength hrows) fun n hn => ?_
  rw [toBytes, if_pos hn]
  exact Returns.ok (by simp)

/-! ## The Viterbi decoder -/

/-- Two lists of eight items. -/
def Buffers {α : Type} (xss : List (List α)) : Prop := xss.length = 2 ∧ ∀ xs ∈ xss, xs.length = 8

section Buffers

variable {α : Type} {xss : List (List α)} {i j : ℕ}

theorem accessAt_returns (h : Buffers xss) (hi : i < 2) (hj : j < 8) :
    Returns (accessAt xss i j) fun _ => True := by
  refine Returns.bind (Returns.access (by rw [h.1]; exact hi)) fun xs hxs => ?_
  have hlength := h.2 xs (hxs ▸ List.getElem_mem _)
  exact (Returns.access (by omega)).mono fun _ _ => trivial

theorem storeAt_returns (h : Buffers xss) (hi : i < 2) (hj : j < 8) (x : α) :
    Returns (storeAt xss i j x) Buffers := by
  refine Returns.bind (Returns.access (by rw [h.1]; exact hi)) fun xs hxs => ?_
  have hlength := h.2 xs (hxs ▸ List.getElem_mem _)
  refine Returns.bind (Returns.store (by omega) x) fun ys hys => ?_
  refine (Returns.store (by rw [h.1]; exact hi) ys).mono fun zss hzss => ?_
  subst hys hzss
  refine ⟨by rw [List.length_set, h.1], fun zs hzs => ?_⟩
  rcases List.mem_or_eq_of_mem_set hzs with hmem | rfl
  · exact h.2 zs hmem
  · rw [List.length_set, hlength]

end Buffers

/-- The lists of a decoder have their sizes, and its indices are within them. -/
structure Ready (d : Decoder) : Prop where
  cost : Buffers d.cost
  path : Buffers d.path
  lastBuf_lt : d.lastBuf < 2
  curBuf_lt : d.curBuf < 2

theorem ready_init : Ready .init where
  cost := ⟨rfl, by simp [Decoder.init]⟩
  path := ⟨rfl, by simp [Decoder.init]⟩
  lastBuf_lt := by decide
  curBuf_lt := by decide

theorem sourceState_lt : ∀ srcState ∈ aTrellisSourceStateLut, srcState.1 < 8 ∧ srcState.2 < 8 := by
  decide

/-- A state of the trellis keeps the sizes. -/
theorem destRound_returns {d : Decoder} (h : Ready d) (symbol : ℕ) (minCost : ℤ) {destState : ℕ}
    (hdest : destState < 8) :
    Returns (destRound symbol (d, minCost) destState) fun s =>
      Ready s.1 ∧ s.1.pathBits = d.pathBits := by
  unfold destRound
  refine Returns.bind (Returns.access hdest) fun inputBit _ => ?_
  refine Returns.bind (Returns.access hdest) fun srcState hsrc => ?_
  obtain ⟨hfirst, hsecond⟩ := sourceState_lt srcState (hsrc ▸ List.getElem_mem _)
  refine Returns.bind (Returns.access hdest) fun output _ => ?_
  refine Returns.bind (accessAt_returns h.cost h.lastBuf_lt hfirst) fun cost0 _ => ?_
  refine Returns.bind (accessAt_returns h.cost h.lastBuf_lt hsecond) fun cost1 _ => ?_
  refine Returns.bind (storeAt_returns h.cost h.curBuf_lt hdest _) fun cost hcost => ?_
  refine Returns.bind (accessAt_returns h.path h.lastBuf_lt ?_) fun bits _ => ?_
  · split_ifs
    · exact hfirst
    · exact hsecond
  refine Returns.bind (storeAt_returns h.path h.curBuf_lt hdest _) fun path hpath => ?_
  exact Returns.ok ⟨⟨hcost, hpath, h.lastBuf_lt, h.curBuf_lt⟩, rfl⟩

theorem subtractRound_returns {d : Decoder} (h : Ready d) (minCost : ℤ) {i : ℕ} (hi : i < 8) :
    Returns (subtractRound minCost d i) fun d' => Ready d' ∧ d'.pathBits = d.pathBits := by
  refine Returns.bind (accessAt_returns h.cost h.lastBuf_lt hi) fun cost _ => ?_
  refine Returns.bind (storeAt_returns h.cost h.lastBuf_lt hi _) fun costs hcosts => ?_
  exact Returns.ok ⟨⟨hcosts, h.path, h.lastBuf_lt, h.curBuf_lt⟩, rfl⟩

/-- Eight bits of the path leave it once it has 32. -/
theorem emit_returns {d : Decoder} (h : Ready d) (out : List ℕ) :
    Returns (emit d out) fun s => Ready s.1 ∧
      if 32 ≤ d.pathBits then
        s.1.pathBits = d.pathBits - 8 ∧ ∃ byte < 256, s.2 = out ++ [byte]
      else s = (d, out) := by
  unfold emit
  split_ifs with hbits
  · refine Returns.bind (accessAt_returns h.path h.curBuf_lt (by norm_num)) fun path _ => ?_
    have hbyte : path >>> 24 &&& 0xff < 256 := Nat.lt_succ_of_le Nat.and_le_right
    exact Returns.ok ⟨⟨h.cost, h.path, h.lastBuf_lt, h.curBuf_lt⟩, rfl, _, hbyte, rfl⟩
  · exact Returns.ok ⟨h, rfl⟩

/-- The bits of the path and of the output after some symbols. -/
structure Counted (d : Decoder) (count : ℕ) (s : Decoder × List ℕ) : Prop where
  ready : Ready s.1
  total : s.1.pathBits + 8 * s.2.length = d.pathBits + count
  pathBits_lt : s.1.pathBits < 32
  le_pathBits : s.2 ≠ [] → 24 ≤ s.1.pathBits
  out_lt : ∀ byte ∈ s.2, byte < 256

theorem symbolRound_returns {d : Decoder} {count : ℕ} {s : Decoder × List ℕ}
    (h : Counted d count s) (symbol : ℕ) :
    Returns (symbolRound s symbol) (Counted d (count + 1)) := by
  obtain ⟨hready, htotal, hlt, hle, hout⟩ := h
  unfold symbolRound
  refine Returns.bind (Returns.foldlM_range
    (fun _ t => Ready t.1 ∧ t.1.pathBits = s.1.pathBits) (fun i hi t ht => ?_) ⟨hready, rfl⟩)
    ?_
  · exact (destRound_returns ht.1 symbol t.2 hi).mono fun u hu => ⟨hu.1, hu.2.trans ht.2⟩
  rintro ⟨t, minCost⟩ ⟨ht, hbits⟩
  have hready' : Ready { t with pathBits := t.pathBits + 1 } :=
    ⟨ht.cost, ht.path, ht.lastBuf_lt, ht.curBuf_lt⟩
  refine Returns.bind (emit_returns hready' s.2) ?_
  rintro ⟨u, out⟩ ⟨hu, hemit⟩
  have hturned : Ready { u with lastBuf := (u.lastBuf + 1) % 2, curBuf := (u.curBuf + 1) % 2 } :=
    ⟨hu.cost, hu.path, Nat.mod_lt _ (by norm_num), Nat.mod_lt _ (by norm_num)⟩
  refine Returns.bind (Returns.foldlM_range
    (fun _ v => Ready v ∧ v.pathBits = u.pathBits) (fun i hi v hv => ?_) ⟨hturned, rfl⟩)
    fun v hv => Returns.ok ?_
  · exact (subtractRound_returns hv.1 minCost hi).mono fun w hw => ⟨hw.1, hw.2.trans hv.2⟩
  obtain ⟨hv, hvbits⟩ := hv
  simp only at hbits hemit
  rw [hbits] at hemit
  split_ifs at hemit with hfull
  · obtain ⟨hu', byte, hbyte, rfl⟩ := hemit
    refine ⟨hv, ?_, ?_, fun _ => ?_, ?_⟩
    · simp only [List.length_append, List.length_singleton, hvbits]
      omega
    · simp only [hvbits]
      omega
    · simp only [hvbits]
      omega
    · simp only [List.forall_mem_append, List.forall_mem_singleton]
      exact ⟨hout, hbyte⟩
  · obtain ⟨rfl, rfl⟩ := Prod.mk.inj hemit
    refine ⟨hv, ?_, ?_, fun hne => ?_, hout⟩
    · simp only [hvbits]
      omega
    · simp only [hvbits]
      omega
    · simp only [hvbits]
      have := hle hne
      omega

/-! ## Blocks -/

theorem length_symbolsOf (chunk : List Byte) : (symbolsOf chunk).length = 4 * chunk.length := by
  simp [symbolsOf, List.length_flatMap, mul_comm]

theorem bytes_returns {ns : List ℕ} (h : ∀ n ∈ ns, n < 256) :
    Returns (bytes ns) (·.length = ns.length) := by
  induction ns with
  | nil => exact Returns.ok rfl
  | cons n ns ih =>
    obtain ⟨hn, hns⟩ := List.forall_mem_cons.mp h
    unfold bytes at ih ⊢
    rw [List.mapM_cons, if_pos hn]
    refine Returns.bind (Returns.ok trivial) fun byte (_ : True) => ?_
    refine Returns.bind (ih hns) fun rest hrest => Returns.ok ?_
    rw [List.length_cons, List.length_cons, hrest]

/-- A block of four bytes. -/
theorem send_returns {d : Decoder} (h : Ready d) (hbits : d.pathBits < 32) {chunk : List Byte}
    (hchunk : chunk.length = 4) :
    Returns (d.send chunk) fun s => Ready s.2 ∧ s.2.pathBits + 8 * s.1.length = d.pathBits + 16 ∧
      s.2.pathBits < 32 ∧ (s.1 ≠ [] → 24 ≤ s.2.pathBits) := by
  unfold Decoder.send
  refine Returns.bind (interleave_returns hchunk) fun chunk' hchunk' => ?_
  have hinit : Counted d 0 (d, []) := ⟨h, rfl, hbits, fun hne => absurd rfl hne, by simp⟩
  refine Returns.bind (Returns.foldlM (fun before => Counted d before.length)
    (fun before symbol _ s hs => ?_) hinit) ?_
  · rw [List.length_append, List.length_singleton]
    exact symbolRound_returns hs symbol
  rintro ⟨d', out⟩ ⟨hready, htotal, hlt, hle, hout⟩
  refine Returns.bind (bytes_returns hout) fun raw hraw => Returns.ok ?_
  rw [length_symbolsOf, hchunk'] at htotal
  refine ⟨hready, ?_, hlt, fun hne => hle fun (hnil : out = []) => hne ?_⟩
  · simp only [hraw]
    exact htotal
  · rw [hnil] at hraw
    exact List.eq_nil_of_length_eq_zero hraw

/-- A block of the message. -/
def block (msg : List Byte) (i : ℕ) : List Byte := (msg.drop (4 * i)).take 4

/-- The bytes of the first blocks before whitening, and the decoder after them. -/
def decodeBlocks (msg : List Byte) (k : ℕ) : Except PyError (List Byte × Decoder) :=
  (List.range k).foldlM (fun s i => do
    let (raw, decoder) ← s.2.send (block msg i)
    return (s.1 ++ raw, decoder)) ([], .init)

/-- The decoded bytes of a message. -/
def decodedBytes (msg : List Byte) : Except PyError (List Byte) := do
  let (raw, _) ← decodeBlocks msg (msg.length / 4)
  return (whiten raw pn9).1

theorem decodeBlocks_succ (msg : List Byte) (k : ℕ) :
    decodeBlocks msg (k + 1) = (do
      let s ← decodeBlocks msg k
      let (raw, decoder) ← s.2.send (block msg k)
      return (s.1 ++ raw, decoder)) := by
  simp only [decodeBlocks, List.range_succ, List.foldlM_append, List.foldlM_cons, List.foldlM_nil,
    bind_pure]

/-- The first block gives no bytes, the second one, and each other block two. -/
theorem decodeBlocks_returns {msg : List Byte} {k : ℕ} (h : 4 * k ≤ msg.length) :
    Returns (decodeBlocks msg k) fun s => Ready s.2 ∧ s.1.length = 2 * k - 3 ∧
      s.2.pathBits = if k = 0 then 0 else if k = 1 then 16 else 24 := by
  induction k with
  | zero => exact Returns.ok ⟨ready_init, rfl, rfl⟩
  | succ k ih =>
    rw [decodeBlocks_succ]
    refine Returns.bind (ih (by omega)) ?_
    rintro ⟨raw, d⟩ ⟨hready, hlength, hbits⟩
    dsimp only at hlength hbits
    have hblock : (block msg k).length = 4 := by
      rw [block, List.length_take, List.length_drop]
      omega
    refine Returns.bind (send_returns hready ?_ hblock) ?_
    · rw [hbits]
      split_ifs <;> norm_num
    rintro ⟨raw', d'⟩ ⟨hready', htotal, hlt, hle⟩
    dsimp only at htotal hlt hle
    have hle' : 0 < raw'.length → 24 ≤ d'.pathBits := fun hpos => hle (List.length_pos_iff.mp hpos)
    refine Returns.ok ⟨hready', ?_, ?_⟩
    · rw [List.length_append, hlength]
      split_ifs at hbits <;> omega
    · show d'.pathBits = _
      rw [if_neg (Nat.succ_ne_zero k)]
      split_ifs at hbits ⊢ <;> omega

/-! ## Whitening -/

theorem length_whiten (raw : List Byte) (state : ℕ) : (whiten raw state).1.length = raw.length := by
  induction raw generalizing state with
  | nil => rfl
  | cons r raw ih => exact congrArg (· + 1) (ih (pn9Next state))

/-- Whitening goes on where it stopped. -/
theorem whiten_append (raw raw' : List Byte) (state : ℕ) :
    whiten (raw ++ raw') state =
      ((whiten raw state).1 ++ (whiten raw' (whiten raw state).2).1,
        (whiten raw' (whiten raw state).2).2) := by
  induction raw generalizing state with
  | nil => rfl
  | cons r raw ih =>
    rw [List.cons_append, whiten, ih]
    rfl

/-! ## The loop -/

/-- The variables after some blocks. -/
def At (msg : List Byte) (k : ℕ) (v : Variables) : Prop :=
  v.a = 4 * k ∧ ∃ raw, decodeBlocks msg k = .ok (raw, v.decoder) ∧ whiten raw pn9 = (v.decoded, v.pngen)

/-- The block that comes after some others. -/
theorem exists_send {msg : List Byte} {k : ℕ} (h : 4 * (k + 1) ≤ msg.length) {raw : List Byte}
    {d : Decoder} (hblocks : decodeBlocks msg k = .ok (raw, d)) :
    ∃ raw' d', d.send (block msg k) = .ok (raw', d') ∧
      decodeBlocks msg (k + 1) = .ok (raw ++ raw', d') := by
  obtain ⟨s, hs, -⟩ := decodeBlocks_returns h
  rw [decodeBlocks_succ, hblocks, bind_of_ok] at hs
  obtain ⟨⟨raw', d'⟩, hsend, -⟩ := bind_eq_ok.mp hs
  refine ⟨raw', d', hsend, ?_⟩
  rw [decodeBlocks_succ, hblocks, bind_of_ok, hsend, bind_of_ok]
  rfl

theorem start_returns {msg : List Byte} (h : 8 ≤ msg.length) :
    Returns (start msg) fun v => At msg 2 v ∧ ∃ first, v.decoded = [first] ∧
      v.length = first.toNat + 1 := by
  obtain ⟨raw, d, hfirst, hone⟩ := exists_send (k := 0) (by omega) (rfl : decodeBlocks msg 0 = _)
  obtain ⟨raw', d', hsecond, htwo⟩ := exists_send (k := 1) h hone
  obtain ⟨s, hs, -, hlength, -⟩ := decodeBlocks_returns (k := 2) h
  rw [htwo] at hs
  obtain rfl := Except.ok.inj hs
  have hdecoded : (whiten (raw ++ raw') pn9).1.length = 1 := by
    rw [length_whiten]
    exact hlength
  obtain ⟨first, hfirstByte⟩ := List.length_eq_one_iff.mp hdecoded
  refine ⟨⟨8, (whiten (raw ++ raw') pn9).1, first.toNat + 1, d', (whiten (raw ++ raw') pn9).2⟩, ?_,
    ⟨rfl, raw ++ raw', htwo, rfl⟩, first, hfirstByte, rfl⟩
  have hsend : Decoder.init.send (msg.take 4) = .ok (raw, d) := hfirst
  have hsend' : d.send ((msg.drop 4).take 4) = .ok (raw', d') := hsecond
  simp only [start, hsend, hsend', bind_of_ok, hfirstByte]
  rfl

theorem decodeNext_returns {msg : List Byte} {k : ℕ} {v : Variables} (hv : At msg k v)
    (h : 4 * (k + 1) ≤ msg.length) :
    Returns (decodeNext msg v) fun v' => At msg (k + 1) v' ∧ v'.length = v.length := by
  obtain ⟨ha, raw, hblocks, hwhiten⟩ := hv
  obtain ⟨raw', d', hsend, hnext⟩ := exists_send h hblocks
  have hassert : v.a + 4 ≤ msg.length := by omega
  have hblock : (msg.drop v.a).take 4 = block msg k := by rw [ha, block]
  refine ⟨{ v with
    a := v.a + 4
    decoded := v.decoded ++ (whiten raw' v.pngen).1
    decoder := d'
    pngen := (whiten raw' v.pngen).2 }, ?_, ⟨?_, raw ++ raw', hnext, ?_⟩, rfl⟩
  · simp only [decodeNext, hassert, not_true_eq_false, if_false, hblock, hsend, bind_of_ok]
    rfl
  · show v.a + 4 = 4 * (k + 1)
    omega
  · rw [whiten_append, hwhiten]

/-- What has been decoded is not changed. -/
theorem At.isPrefix {msg : List Byte} {k n : ℕ} {v : Variables} (hv : At msg k v) (hkn : k ≤ n)
    {raw : List Byte} {d : Decoder} (hn : decodeBlocks msg n = .ok (raw, d)) :
    v.decoded <+: (whiten raw pn9).1 := by
  induction n, hkn using Nat.le_induction generalizing raw d with
  | base =>
    obtain ⟨-, raw', hblocks, hwhiten⟩ := hv
    rw [hn] at hblocks
    cases hblocks
    rw [hwhiten]
  | succ n hkn ih =>
    rw [decodeBlocks_succ] at hn
    obtain ⟨⟨raw', d'⟩, hblocks, hnext⟩ := bind_eq_ok.mp hn
    obtain ⟨⟨raw'', d''⟩, -, hpure⟩ := bind_eq_ok.mp hnext
    obtain ⟨rfl, rfl⟩ := Prod.mk.inj (Except.ok.inj hpure)
    rw [whiten_append]
    exact (ih hblocks).trans (List.prefix_append _ _)

/-- The loop ends once enough bytes are decoded. -/
theorem ends_round_of_le {msg : List Byte} {v : Variables} (h : v.length ≤ v.decoded.length)
    (published : Except PyError (List Byte)) :
    Ends (round msg) v published ↔ published = .ok (v.decoded.take v.length) := by
  refine ends_iff_of_inl ?_
  rw [round, if_neg (not_lt.mpr h), initU8vector, if_pos (List.length_take_of_le h)]

/-- A message has enough blocks for the bytes that are asked for. -/
theorem ends_round_iff {msg : List Byte} {k n : ℕ} {v : Variables} (hv : At msg k v) (hkn : k ≤ n)
    (hn : 4 * n ≤ msg.length) {raw : List Byte} {d : Decoder}
    (hblocks : decodeBlocks msg n = .ok (raw, d)) (hlength : v.length ≤ raw.length)
    (published : Except PyError (List Byte)) :
    Ends (round msg) v published ↔ published = .ok ((whiten raw pn9).1.take v.length) := by
  induction hm : n - k generalizing k v with
  | zero =>
    obtain rfl : k = n := by omega
    obtain ⟨-, raw', hblocks', hwhiten⟩ := hv
    rw [hblocks] at hblocks'
    obtain ⟨rfl, -⟩ := Prod.mk.inj (Except.ok.inj hblocks')
    rw [← length_whiten raw pn9, hwhiten] at hlength
    rw [ends_round_of_le hlength, hwhiten]
  | succ m ih =>
    by_cases hlt : v.decoded.length < v.length
    · obtain ⟨v', hnext, hv', hlength'⟩ := decodeNext_returns hv (by omega)
      have hround : round msg v = .inr v' := by rw [round, if_pos hlt, hnext]
      rw [ends_iff_of_inr hround, ih hv' (by omega) (hlength'.symm ▸ hlength) (by omega), hlength']
    · obtain ⟨rest, hrest⟩ := hv.isPrefix hkn hblocks
      rw [ends_round_of_le (not_lt.mp hlt), ← hrest, List.take_append_of_le_length (not_lt.mp hlt)]

variable {M : Type}

/-- **Decoding.** A message of 520 bytes is decoded, and as many bytes are published as the first
one says, and one more. -/
theorem handleMsg_publishes (pdu : Pdu M) (h : pdu.cdr.length = 520) :
    ∃ first rest, decodedBytes pdu.cdr = .ok (first :: rest) ∧ first.toNat ≤ rest.length ∧
      ∀ result, HandleMsg (.u8vector pdu) result ↔
        result = .ok (some ⟨pdu.car, (first :: rest).take (first.toNat + 1)⟩) := by
  obtain ⟨car, msg⟩ := pdu
  dsimp only at h
  obtain ⟨v, hstart, hat, first, hone, hlength⟩ := @start_returns msg (by omega)
  obtain ⟨⟨raw, d⟩, hblocks, -, hraw, -⟩ := @decodeBlocks_returns msg 130 (by omega)
  have hdecoded : decodedBytes msg = .ok (whiten raw pn9).1 := by
    rw [decodedBytes, h, hblocks, bind_of_ok]
    rfl
  obtain ⟨rest, hrest⟩ := hat.isPrefix (by norm_num) hblocks
  rw [hone] at hrest
  have hlengths : rest.length + 1 = 257 := by
    rw [← List.length_cons (a := first), ← List.singleton_append, hrest, length_whiten, hraw]
  have hfirst := first.isLt
  refine ⟨first, rest, hdecoded.trans (congrArg _ hrest.symm), by omega, fun result => ?_⟩
  have hends := ends_round_iff hat (by norm_num) (by omega) hblocks (by
    dsimp only at hraw
    omega)
  rw [HandleMsg, hstart]
  simp only [hends, hlength, ← hrest]
  constructor
  · rintro ⟨published, rfl, rfl⟩
    rfl
  · rintro rfl
    exact ⟨_, rfl, rfl⟩

/-- A message of zeros. -/
theorem handleMsg_publishes_zeros :
    ∃ first rest, decodedBytes (List.replicate 520 0) = .ok (first :: rest) ∧
      first.toNat ≤ rest.length ∧
      ∀ result, HandleMsg (.u8vector (⟨(), List.replicate 520 0⟩ : Pdu Unit)) result ↔
        result = .ok (some ⟨(), (first :: rest).take (first.toNat + 1)⟩) :=
  handleMsg_publishes ⟨(), List.replicate 520 0⟩ List.length_replicate

end GrSatellites.Openlst
