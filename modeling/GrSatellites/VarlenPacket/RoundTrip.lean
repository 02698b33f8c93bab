import GrSatellites.VarlenPacket.Header
import GrSatellites.VarlenPacket.Reading

/-!
# From the framer to the tagger

The header of the framer has 32 bits or, with the Golay code, 24 bits; the tagger expects the
length field size of the settings. The two agree with the Golay code, or if the field has 32
bits.
-/

namespace GrSatellites.VarlenPacket

open Bits Golay24 Transducer

variable {settings : Settings} {syncWord packet : List Byte} {mtu : ℤ} {k : ℕ}

/-- A number of bytes fits in the length field. -/
def Settings.Fits (settings : Settings) (k : ℕ) : Prop :=
  if settings.useGolay then k < 2 ^ 12
  else 0 ≤ settings.lengthFieldSize ∧ k < 2 ^ settings.lengthFieldSize.toNat

/-- The framer makes a frame of a packet at the start of its input. On a stream that starts with
the frame, and has a sync tag at the first bit of the header, a tagger puts out the packet: in
any run it does so once, and has done so when two calls find the stream complete. -/
def RoundTrips (settings : Settings) (syncWord : List Byte) (mtu : ℤ) (packet : List Byte) :
    Prop :=
  ∀ (after : List Byte) (noutput : ℕ), packet ++ after ≠ [] →
    packet.length + (Framer.make settings syncWord).headerLength.toNat + syncWord.length ≤
      noutput →
    ∃ frame, ((Framer.make settings syncWord).generalWork
        ⟨packet ++ after, [(0, packet.length)]⟩ .init ⟨noutput, (packet ++ after).length⟩).2 =
          [frame] ∧
      ∀ (trailing : List Byte) (calls : List Call) (room : ℕ), packet.length ≤ room →
        let stream : Stream Unit := ⟨frame.items ++ trailing, [(syncWord.length, ())]⟩
        let full : Call := ⟨room, stream.items.length⟩
        (runE ((Tagger.make settings mtu).step stream) (.init settings)
          (calls ++ [full, full])).map Prod.snd = .ok [⟨packet, 0, packet.length⟩]

/-- The two blocks agree on the header. With fewer than 32 bits, they also do on a packet that is
empty, and least significant bit first on one that looks like more of the header. -/
def Settings.Agree (settings : Settings) (packet : List Byte) : Prop :=
  settings.useGolay = true ∨ settings.lengthFieldSize = 32 ∨
    0 < settings.lengthFieldSize ∧ settings.lengthFieldSize < 32 ∧
      (packet = [] ∨ settings.endianness = .lsbFirst ∧ ∀ x ∈ packet, x = 0)

/-! ## The frame -/

/-- The header of the framer without the Golay code always has 32 bits. -/
theorem headerLength_make (settings : Settings) (syncWord : List Byte) :
    (Framer.make settings syncWord).headerLength = if settings.useGolay then 24 else 32 := by
  simp only [Framer.make]
  split
  · rfl
  · exact max_eq_left ((min_le_left _ _).trans (by norm_num))

/-- The header and the packet of a frame. -/
def Framer.body (framer : Framer) (packet : List Byte) : List Byte :=
  headerBits framer.endianness framer.headerLength.toNat (framer.header packet.length) ++ packet

/-- **Framing.** A packet at the start of the input makes one frame. -/
theorem generalWork_framer (framer : Framer) {after : List Byte} {noutput : ℕ}
    (hinput : packet ++ after ≠ [])
    (hroom : packet.length + framer.headerLength.toNat + framer.syncWord.length ≤ noutput) :
    (framer.generalWork ⟨packet ++ after, [(0, packet.length)]⟩ .init
      ⟨noutput, (packet ++ after).length⟩).2 =
        [⟨framer.syncWord ++ framer.body packet, 0,
          packet.length + framer.headerLength.toNat + framer.syncWord.length⟩] := by
  have htag : (⟨packet ++ after, [(0, packet.length)]⟩ : Stream ℕ).firstTag 0
      (0 + (packet ++ after).length) = some (0, packet.length) := by
    have hpos : 0 < (packet ++ after).length := List.length_pos_of_ne_nil hinput
    rw [Stream.firstTag, List.find?_singleton]
    simp only [Nat.le_refl, true_and, Nat.zero_add, hpos, decide_true, if_true]
  have hcomplete : ((0 : ℕ) : ℤ) - ((0 : ℕ) : ℤ) + packet.length ≤
      ((packet ++ after).length : ℕ) := by
    rw [List.length_append]
    omega
  simp only [Framer.generalWork, FramerState.init, htag, if_neg (Nat.not_lt.mpr hroom),
    if_pos hcomplete, List.drop_zero, List.take_left, Framer.body, List.append_assoc]

/-- What the tagger finds at the sync tag. -/
def tagged (settings : Settings) (syncWord packet trailing : List Byte) : Stream Unit :=
  ⟨((Framer.make settings syncWord).syncWord ++ (Framer.make settings syncWord).body packet) ++
    trailing, [(syncWord.length, ())]⟩

theorem length_syncWord (settings : Settings) (syncWord : List Byte) :
    (Framer.make settings syncWord).syncWord.length = syncWord.length :=
  List.length_map _

theorem drop_tagged (settings : Settings) (syncWord packet trailing : List Byte) :
    (tagged settings syncWord packet trailing).items.drop syncWord.length =
      headerBits settings.endianness (Framer.make settings syncWord).headerLength.toNat
        ((Framer.make settings syncWord).header packet.length) ++ (packet ++ trailing) := by
  rw [tagged, List.append_assoc, List.drop_left' (length_syncWord settings syncWord),
    Framer.body, List.append_assoc]
  rfl

theorem taggedAt (settings : Settings) (syncWord packet trailing : List Byte) :
    TaggedAt (tagged settings syncWord packet trailing) syncWord.length := by
  refine ⟨rfl, ?_⟩
  have hlength := congrArg List.length (drop_tagged settings syncWord packet trailing)
  rw [List.length_drop, List.length_append, length_headerBits, headerLength_make] at hlength
  cases hgolay : settings.useGolay <;> rw [hgolay] at hlength <;> simp at hlength <;> omega

/-- What the tagger has before it at the sync tag. -/
def headed (settings : Settings) (syncWord packet trailing : List Byte) : List Byte :=
  headerBits settings.endianness (Framer.make settings syncWord).headerLength.toNat
    ((Framer.make settings syncWord).header packet.length) ++ (packet ++ trailing)

theorem roundTrips_of_reads (hpos : 0 < (Tagger.make settings mtu).headerLength)
    (hreads : ∀ trailing, (Tagger.make settings mtu).Reads
      (headed settings syncWord packet trailing) packet) :
    RoundTrips settings syncWord mtu packet := by
  intro after noutput hinput hroom
  rw [← length_syncWord settings syncWord] at hroom
  refine ⟨_, generalWork_framer _ hinput hroom, fun trailing calls room hpacket => ?_⟩
  refine run_full (taggedAt settings syncWord packet trailing) hpos ?_ ⟨hpacket, le_rfl⟩ _ calls
  rw [drop_tagged]
  exact hreads trailing

/-- A call with just enough for a packet. -/
def fullCall (stream : Stream Unit) (packet : List Byte) : Call :=
  ⟨packet.length, stream.items.length⟩

theorem RoundTrips.run (h : RoundTrips settings syncWord mtu packet) (trailing : List Byte)
    (calls : List Call) :
    let stream := tagged settings syncWord packet trailing
    (runE ((Tagger.make settings mtu).step stream) (.init settings)
      (calls ++ [fullCall stream packet, fullCall stream packet])).map Prod.snd =
        .ok [⟨packet, 0, packet.length⟩] := by
  obtain ⟨frame, hframe, hrun⟩ := h [0] _ (by simp) le_rfl
  rw [generalWork_framer _ (by simp) (by rw [length_syncWord])] at hframe
  obtain rfl := List.singleton_inj.mp hframe
  exact hrun trailing calls packet.length le_rfl

/-- A packet that comes back is what the tagger reads at the sync tag. -/
theorem RoundTrips.reads (h : RoundTrips settings syncWord mtu packet) (trailing : List Byte) :
    (Tagger.make settings mtu).Reads (headed settings syncWord packet trailing) packet := by
  have hreads := reads_of_run (taggedAt settings syncWord packet trailing) ⟨le_rfl, le_rfl⟩
    (h.run trailing [])
  rwa [drop_tagged] at hreads

/-! ## The Golay code -/

theorem reads_golay (hgolay : settings.useGolay = true) (hk : k < 2 ^ 12)
    (hlength : packet.length = 8 * k) (hmtu : (packet.length : ℤ) ≤ mtu)
    (trailing : List Byte) :
    (Tagger.make settings mtu).Reads (headed settings syncWord packet trailing) packet := by
  have hheader : (Tagger.make settings mtu).headerLength = 24 := by
    rw [Tagger.make, hgolay]
    rfl
  have hheaded : headed settings syncWord packet trailing =
      headerBits settings.endianness 24 (encodeGolay24 (BitVec.ofNat 32 k)) ++
        (packet ++ trailing) := by
    have hfield : (Framer.make settings syncWord).useGolay = true := hgolay
    rw [headed, headerLength_make, hgolay, Framer.header, hfield, hlength,
      Nat.mul_div_cancel_left k (by norm_num)]
    rfl
  have htoNat : (24 : ℤ).toNat = 24 := rfl
  constructor
  · rw [hheaded, hheader, htoNat, List.take_left' (length_headerBits _ _ _), hlength]
    exact packetLen_golay hgolay hk
  · exact hmtu
  · rw [hheaded, hheader, List.length_append, length_headerBits, List.length_append]
    push_cast
    omega
  · rw [hheaded, hheader, htoNat, List.drop_left' (length_headerBits _ _ _), List.take_left]

/-! ## Without the Golay code -/

/-- The number that the first bits of a header of 32 bits make. -/
def firstField (endianness : Endianness) (n k : ℕ) : ℕ :=
  match endianness with
  | .msbFirst => k / 2 ^ (32 - n)
  | .lsbFirst => k

theorem firstField_le (endianness : Endianness) (n k : ℕ) : firstField endianness n k ≤ k := by
  cases endianness with
  | msbFirst => exact Nat.div_le_self _ _
  | lsbFirst => exact le_rfl

theorem bits2len_take {n : ℕ} (endianness : Endianness) (hn : n ≤ 32) (hk : k < 2 ^ n)
    (hint : k < 2 ^ 31) :
    bits2len endianness ((headerBits endianness 32 (BitVec.ofNat 32 k)).take n) =
      .ok (firstField endianness n k) := by
  have htoNat : (BitVec.ofNat 32 k).toNat = k := by
    rw [BitVec.toNat_ofNat, Nat.mod_eq_of_lt (hint.trans (by norm_num))]
  have hfits : (BitVec.ofNat 32 k).toNat < 2 ^ 31 := htoNat.trans_lt hint
  cases endianness with
  | msbFirst =>
    have hread := bits2len_take_msbFirst (w := 32 - n) (k := n) hfits
    rw [Nat.add_sub_cancel' hn, htoNat,
      Nat.mod_eq_of_lt ((Nat.div_le_self _ _).trans_lt hk)] at hread
    exact hread
  | lsbFirst =>
    have hread := bits2len_take_lsbFirst (w := 32 - n) (k := n) hfits
    rw [Nat.sub_add_cancel hn, htoNat, Nat.mod_eq_of_lt hk] at hread
    exact hread

/-- **Reading.** A header of at most 32 bits is read as its first bits, and the others are taken
for the start of the packet. -/
theorem reads_iff {n : ℕ} (hgolay : settings.useGolay = false)
    (hsize : settings.lengthFieldSize = n) (hn : n ≤ 32) (hk : k < 2 ^ n) (hint : 8 * k < 2 ^ 31)
    (hlength : packet.length = 8 * k) (hmtu : (packet.length : ℤ) ≤ mtu)
    (trailing : List Byte) :
    (Tagger.make settings mtu).Reads (headed settings syncWord packet trailing) packet ↔
      firstField settings.endianness n k = k ∧
        (((headerBits settings.endianness 32 (BitVec.ofNat 32 k)).drop n) ++
          (packet ++ trailing)).take packet.length = packet := by
  have hheader : (Tagger.make settings mtu).headerLength = n := by
    rw [Tagger.make, hgolay]
    exact hsize
  have hheaded : headed settings syncWord packet trailing =
      headerBits settings.endianness 32 (BitVec.ofNat 32 k) ++ (packet ++ trailing) := by
    have hfield : (Framer.make settings syncWord).useGolay = false := hgolay
    rw [headed, headerLength_make, hgolay, Framer.header, hfield, hlength,
      Nat.mul_div_cancel_left k (by norm_num)]
    rfl
  have hle : n ≤ (headerBits settings.endianness 32 (BitVec.ofNat 32 k)).length := by
    rwa [length_headerBits]
  have hread : (Tagger.make settings mtu).packetLen
      ((headed settings syncWord packet trailing).take n) =
        .ok (some (8 * firstField settings.endianness n k)) := by
    have hsmall := firstField_le settings.endianness n k
    rw [hheaded, List.take_append_of_le_length hle]
    exact packetLen_of_field hgolay (bits2len_take _ hn hk (by omega)) (by omega)
  constructor
  · intro h
    have hlen := h.packetLen
    have hitems := h.items
    rw [hheader, Int.toNat_natCast, hread, hlength] at hlen
    rw [hheader, Int.toNat_natCast, hheaded, List.drop_append_of_le_length hle] at hitems
    refine ⟨?_, hitems⟩
    simp only [Except.ok.injEq, Option.some.injEq] at hlen
    omega
  · rintro ⟨hfield, hitems⟩
    constructor
    · rw [hheader, Int.toNat_natCast, hread, hfield, hlength]
    · exact hmtu
    · rw [hheader, hheaded, List.length_append, length_headerBits, List.length_append]
      push_cast
      omega
    · rwa [hheader, Int.toNat_natCast, hheaded, List.drop_append_of_le_length hle]

/-- A tagger that expects no header puts out a packet again and again. -/
theorem not_roundTrips_of_zero (hgolay : settings.useGolay = false)
    (hsize : settings.lengthFieldSize = (0 : ℕ)) : ¬RoundTrips settings syncWord mtu packet := by
  intro h
  have hheader : (Tagger.make settings mtu).headerLength = 0 := by
    rw [Tagger.make, hgolay]
    exact hsize
  have hreads := h.reads []
  rw [headed, ← drop_tagged] at hreads
  have hfull : (fullCall (tagged settings syncWord packet []) packet).Full
      (tagged settings syncWord packet []) packet := ⟨le_rfl, le_rfl⟩
  have honce := h.run [] [fullCall (tagged settings syncWord packet []) packet,
    fullCall (tagged settings syncWord packet []) packet]
  have htwice := run_no_header (taggedAt settings syncWord packet []) hheader hreads hfull
    (settings.lengthFieldSize + 1)
  have hsame := Except.ok.inj (htwice.symm.trans honce)
  cases hsame

/-- Least significant bit first, a short number ends in zeros. -/
theorem drop_headerBits_lsbFirst {n : ℕ} (hn : n ≤ 32) (hk : k < 2 ^ n) :
    (headerBits .lsbFirst 32 (BitVec.ofNat 32 k)).drop n = List.replicate (32 - n) 0 := by
  have htoNat : (BitVec.ofNat 32 k).toNat = k := by
    rw [BitVec.toNat_ofNat, Nat.mod_eq_of_lt (hk.trans_le (Nat.pow_le_pow_right (by norm_num) hn))]
  have hsplit := toBits_add (32 - n) n k
  rw [Nat.sub_add_cancel hn, Nat.div_eq_of_lt hk, toBits_zero] at hsplit
  rw [headerBits_lsbFirst, headerBits_msbFirst, htoNat, hsplit, List.map_append,
    List.reverse_append, List.drop_left' (by simp), List.map_replicate, List.reverse_replicate]
  rfl

/-- Items that do not change when copies of one item are put before them are all that item. -/
theorem eq_of_take_replicate_append {α : Type} {xs : List α} {a : α} {w : ℕ} (hw : 0 < w)
    (h : (List.replicate w a ++ xs).take xs.length = xs) : ∀ x ∈ xs, x = a := by
  have hplace (i : ℕ) (hi : i < xs.length) : xs[i]? = some a := by
    induction i using Nat.strong_induction_on with
    | _ i ih =>
      rw [← h, List.getElem?_take_of_lt hi]
      by_cases hlt : i < w
      · rw [List.getElem?_append_left (by simpa using hlt), List.getElem?_replicate, if_pos hlt]
      · rw [List.getElem?_append_right (by simpa using hlt), List.length_replicate]
        exact ih (i - w) (by omega) (by omega)
  intro x hx
  obtain ⟨i, hi, rfl⟩ := List.getElem_of_mem hx
  exact Option.some_inj.mp ((List.getElem?_eq_getElem hi).symm.trans (hplace i hi))

/-- **The round trip.** A packet of whole bytes that fits comes back from the tagger exactly if
the two blocks agree on its header. -/
theorem roundTrips_iff (hlength : packet.length = 8 * k) (hfits : settings.Fits k)
    (hmtu : (packet.length : ℤ) ≤ mtu) (hint : mtu < 2 ^ 31) :
    RoundTrips settings syncWord mtu packet ↔ settings.Agree packet := by
  unfold Settings.Fits at hfits
  cases hgolay : settings.useGolay with
  | true =>
    rw [hgolay] at hfits
    refine iff_of_true (roundTrips_of_reads ?_ (reads_golay hgolay hfits hlength hmtu))
      (Or.inl hgolay)
    rw [Tagger.make, hgolay]
    norm_num
  | false =>
    rw [hgolay] at hfits
    obtain ⟨hnonneg, hk⟩ := hfits
    obtain ⟨n, hsize⟩ := Int.eq_ofNat_of_zero_le hnonneg
    rw [hsize, Int.toNat_natCast] at hk
    have hsmall : 8 * k < 2 ^ 31 := by omega
    have hheader : (Tagger.make settings mtu).headerLength = n := by
      rw [Tagger.make, hgolay]
      exact hsize
    constructor
    · intro h
      have hn : n ≤ 32 := by
        have hcomplete := (h.reads []).complete
        rw [hheader, headed, headerLength_make, hgolay, List.length_append, length_headerBits,
          List.append_nil] at hcomplete
        simp only [Bool.false_eq_true, if_false, Int.reduceToNat] at hcomplete
        omega
      obtain ⟨hfield, hitems⟩ :=
        (reads_iff hgolay hsize hn hk hsmall hlength hmtu []).mp (h.reads [])
      rcases Nat.eq_zero_or_pos n with rfl | hpos
      · exact absurd h (not_roundTrips_of_zero hgolay hsize)
      rcases hn.eq_or_lt with rfl | hlt
      · exact Or.inr (Or.inl hsize)
      refine Or.inr (Or.inr ⟨by omega, by omega, ?_⟩)
      cases hend : settings.endianness with
      | msbFirst =>
        rw [hend] at hfield
        have hzero : k = 0 := by
          by_contra hne
          have hdiv := Nat.div_lt_self (Nat.pos_of_ne_zero hne)
            (Nat.one_lt_two_pow (Nat.sub_ne_zero_of_lt hlt))
          exact absurd hfield hdiv.ne
        exact Or.inl (List.length_eq_zero_iff.mp (by omega))
      | lsbFirst =>
        rw [hend, drop_headerBits_lsbFirst hn hk, List.append_nil] at hitems
        exact Or.inr ⟨rfl, eq_of_take_replicate_append (by omega) hitems⟩
    · rintro (htrue | hfull | ⟨hpos, hlt, hpacket⟩)
      · rw [hgolay] at htrue
        cases htrue
      · have hn : n = 32 := by omega
        subst hn
        refine roundTrips_of_reads (by rw [hheader]; norm_num) fun trailing => ?_
        refine (reads_iff hgolay hsize le_rfl hk hsmall hlength hmtu trailing).mpr ⟨?_, ?_⟩
        · cases settings.endianness with
          | msbFirst => exact Nat.div_one k
          | lsbFirst => rfl
        · rw [List.drop_of_length_le (length_headerBits _ _ _).le, List.nil_append,
            List.take_left]
      · have hn : n ≤ 32 := by omega
        refine roundTrips_of_reads (by rw [hheader]; omega) fun trailing => ?_
        refine (reads_iff hgolay hsize hn hk hsmall hlength hmtu trailing).mpr ?_
        rcases hpacket with rfl | ⟨hend, hzero⟩
        · have hk0 : k = 0 := by simpa using hlength.symm
          subst hk0
          refine ⟨Nat.le_zero.mp (firstField_le _ _ _), ?_⟩
          rw [List.length_nil, List.take_zero]
        · rw [hend, drop_headerBits_lsbFirst hn hk, List.eq_replicate_of_mem hzero]
          refine ⟨rfl, ?_⟩
          rw [← List.append_assoc, List.replicate_append_replicate, List.length_replicate,
            List.take_append_of_le_length (by simp), List.take_replicate, min_eq_left (by omega)]

/-- A byte after a header of 32 bits. -/
theorem roundTrips_word :
    RoundTrips ⟨32, .msbFirst, false⟩ [1, 0] 8 [1, 0, 1, 1, 0, 0, 1, 0] ↔
      Settings.Agree ⟨32, .msbFirst, false⟩ [1, 0, 1, 1, 0, 0, 1, 0] :=
  roundTrips_iff (k := 1) rfl (And.intro (by decide) (by decide) : (0 : ℤ) ≤ 32 ∧ 1 < 2 ^ 32)
    (by decide) (by decide)

/-- A byte of ones with a length field of eight bits: the tagger reads a length of zero from the
first bits of the header. -/
theorem not_roundTrips_byte :
    Settings.Fits ⟨8, .msbFirst, false⟩ 1 ∧
      ¬RoundTrips ⟨8, .msbFirst, false⟩ [] 8 (List.replicate (8 * 1) 1) := by
  constructor
  · exact (And.intro (by decide) (by decide) : (0 : ℤ) ≤ 8 ∧ 1 < 2 ^ 8)
  · intro h
    have hempty : (runE ((Tagger.make ⟨8, .msbFirst, false⟩ 8).step
        (tagged ⟨8, .msbFirst, false⟩ [] (List.replicate 8 1) []))
          (.init ⟨8, .msbFirst, false⟩)
            [fullCall (tagged ⟨8, .msbFirst, false⟩ [] (List.replicate 8 1) [])
                (List.replicate 8 1),
              fullCall (tagged ⟨8, .msbFirst, false⟩ [] (List.replicate 8 1) [])
                (List.replicate 8 1)]).map Prod.snd = .ok [⟨[], 0, 0⟩] := by rfl
    cases hempty.symm.trans (h.run [] [])

end GrSatellites.VarlenPacket
