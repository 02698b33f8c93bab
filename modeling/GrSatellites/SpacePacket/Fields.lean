import GrSatellites.SpacePacket.TimeStamp

/-!
# Fields that are written and read

A field that is built is read from its bytes, whatever follows them, with the value that it
was built from. A packet is read if its time stamp is, and if the time stamp takes as many
bytes as the structure of the packet says.
-/

namespace GrSatellites.SpacePacket

open Attempt Bits Reading

variable {zeroOctets : Bool} {name : String}

/-! ## Bit structures -/

theorem bitStruct_eq_ok {fields : List (ℕ × ℤ)} {entry : Entry} :
    bitStruct name fields = .ok entry ↔ ∃ bytes,
      FieldEncoder.refusing.build fields = some bytes ∧
        entry = ⟨(name, fields.map Prod.snd), bytes⟩ := by
  rw [bitStruct, bind_eq_ok]
  simp only [buildBits_eq_ok]
  exact exists_congr fun bytes => and_congr_right' ⟨fun h => (Except.ok.inj h).symm, fun h => h ▸ rfl⟩

theorem succeeds_bitStruct {fields : List (ℕ × ℤ)} :
    Succeeds (bitStruct name fields) ↔ Fits fields :=
  succeeds_bind_pure.trans succeeds_buildBits

/-- The values of fields that fit, as they are read. -/
theorem bitStructField_toNat (name : String) {fields : List (ℕ × ℤ)} (hfits : Fits fields) :
    bitStructField name (fields.map fun field => field.2.toNat) = (name, fields.map Prod.snd) := by
  rw [bitStructField, List.map_map, Prod.mk.injEq]
  refine ⟨rfl, List.map_congr_left fun field hfield => ?_⟩
  exact Int.toNat_of_nonneg (hfits field hfield).1

/-- What a bit structure that was written looks like to a reader. -/
structure Written (name : String) (fields : List (ℕ × ℤ)) (entry : Entry) : Prop where
  fits : Fits fields
  field : entry.field = (name, fields.map Prod.snd)
  length : entry.bytes.length = sizeof (fields.map Prod.fst)
  reads : Reads (parseBits (fields.map Prod.fst)) entry.bytes
    (fields.map fun field => field.2.toNat)

/-- The bytes of fields that fit are read as the fields. -/
theorem reads_build {fields : List (ℕ × ℤ)} {bytes : List Byte}
    (hdvd : 8 ∣ (fields.map Prod.fst).sum)
    (hbuild : FieldEncoder.refusing.build fields = some bytes) :
    Reads (parseBits (fields.map Prod.fst)) bytes (fields.map fun field => field.2.toNat) := by
  intro rest
  have hfits : Fits fields :=
    FieldEncoder.build_refusing_isSome.mp (Option.isSome_iff_exists.mpr ⟨bytes, hbuild⟩)
  have hparse := FieldEncoder.refusing.parse_build_of_fits hbuild hdvd hfits rest
  change parseBits _ (bytes ++ rest) = _
  rw [parseBits, hparse, ← FieldEncoder.refusing.length_build hbuild, List.drop_left]

theorem written_of_bitStruct {fields : List (ℕ × ℤ)} {entry : Entry}
    (hdvd : 8 ∣ (fields.map Prod.fst).sum) (h : bitStruct name fields = .ok entry) :
    Written name fields entry := by
  have hfits : Fits fields := succeeds_bitStruct.mp ⟨entry, h⟩
  obtain ⟨bytes, hbuild, rfl⟩ := bitStruct_eq_ok.mp h
  exact ⟨hfits, rfl, FieldEncoder.refusing.length_build hbuild, reads_build hdvd hbuild⟩

/-! ## Integers -/

/-- The octets of an integer, most significant first. -/
def integerBytes (octets n : ℕ) : List Byte := packMsb (toBits (8 * octets) n)

@[simp] theorem length_integerBytes (octets n : ℕ) : (integerBytes octets n).length = octets := by
  rw [integerBytes, length_packMsb, length_toBits, Nat.mul_div_cancel_left _ (by norm_num)]

/-- Two octets are the quotient and the remainder by 256. -/
theorem integerBytes_two (n : ℕ) : integerBytes 2 n = integerBytes 1 (n / 256) ++ integerBytes 1 n := by
  have hsplit : toBits (8 * 2) n = toBits 8 (n / 256) ++ toBits 8 n := toBits_add 8 8 n
  have hone : packMsb (toBits (8 * 1) (n / 256)) = [packByteMsb (toBits 8 (n / 256))] := by
    have happend := packWith_append packByteMsb (length_toBits 8 (n / 256)) []
    rwa [List.append_nil] at happend
  rw [integerBytes, integerBytes, integerBytes, hsplit, hone]
  exact packWith_append packByteMsb (length_toBits 8 (n / 256)) _

/-- Any octets are read as the number that they can hold. -/
theorem reads_integerBytes (name : String) {octets : ℕ} (hzero : octets = 0 → zeroOctets = true) (n : ℕ) :
    Reads (integerField zeroOctets (name, octets)) (integerBytes octets n)
      (name, [((n % 256 ^ octets : ℕ) : ℤ)]) := by
  intro rest
  have hallowed : ¬(octets = 0 ∧ ¬zeroOctets) := fun hrefuse => hrefuse.2 (hzero hrefuse.1)
  have hsize : sizeof [8 * octets] = octets := by simp [sizeof]
  have hparse : parse [8 * octets] (integerBytes octets n ++ rest) = some [n % 256 ^ octets] := by
    have hbits : (toBits (8 * octets) n).length = octets * 8 := by
      rw [length_toBits, Nat.mul_comm]
    rw [parse, hsize, if_neg (by rw [List.length_append, length_integerBytes]; omega),
      List.take_left' (length_integerBytes octets n), integerBytes, unpackMsb_packMsb hbits,
      splitFields, splitFields, List.take_of_length_le (by rw [length_toBits]), ofBits_toBits,
      pow_mul]
    norm_num
  have hread : (parseBits [8 * octets]).run (integerBytes octets n ++ rest) =
      .ok ([n % 256 ^ octets], rest) := by
    change parseBits [8 * octets] (integerBytes octets n ++ rest) = _
    rw [parseBits, hparse, hsize, List.drop_left' (length_integerBytes octets n)]
  rw [integerField, if_neg hallowed, run_bind_eq_ok]
  exact ⟨_, rest, hread, rfl⟩

theorem fits_singleton {octets : ℕ} {n : ℤ} :
    Fits [(8 * octets, n)] ↔ 0 ≤ n ∧ n < 256 ^ octets := by
  rw [fits_cons, and_iff_left fits_nil, pow_mul]
  norm_num

theorem build_singleton {octets : ℕ} {n : ℤ} (hn : 0 ≤ n ∧ n < 256 ^ octets) :
    FieldEncoder.refusing.build [(8 * octets, n)] = some (integerBytes octets n.toNat) := by
  have hfits : 0 ≤ n ∧ n < 2 ^ (8 * octets) := by
    rw [pow_mul]
    norm_num
    exact hn
  simp [FieldEncoder.build, FieldEncoder.encodeFields, FieldEncoder.refusing, hfits, integerBytes]

theorem bitStruct_integer {octets : ℕ} {n : ℤ} {entry : Entry} :
    bitStruct name [(8 * octets, n)] = .ok entry ↔
      (0 ≤ n ∧ n < 256 ^ octets) ∧ entry = ⟨(name, [n]), integerBytes octets n.toNat⟩ := by
  constructor
  · intro h
    have hn := fits_singleton.mp (succeeds_bitStruct.mp ⟨entry, h⟩)
    obtain ⟨bytes, hbuild, rfl⟩ := bitStruct_eq_ok.mp h
    rw [build_singleton hn, Option.some.injEq] at hbuild
    subst hbuild
    exact ⟨hn, rfl⟩
  · rintro ⟨hn, rfl⟩
    exact bitStruct_eq_ok.mpr ⟨_, build_singleton hn, rfl⟩

theorem bytesInteger_eq_ok {octets : ℕ} {n : ℤ} {entry : Entry} :
    bytesInteger zeroOctets name octets (.int n) = .ok entry ↔
      ((octets = 0 → zeroOctets = true) ∧ 0 ≤ n ∧ n < 256 ^ octets) ∧
        entry = ⟨(name, [n]), integerBytes octets n.toNat⟩ := by
  rw [bytesInteger]
  split_ifs with h
  · simp [h.1, h.2]
  · rw [bitStruct_integer]
    have hzero : octets = 0 → zeroOctets = true :=
      fun hzero => by_contra fun hrefuse => h ⟨hzero, hrefuse⟩
    exact and_congr_left' (and_iff_right hzero).symm

theorem succeeds_bytesInteger (name : String) {octets : ℕ} {n : ℤ} :
    Succeeds (bytesInteger zeroOctets name octets (.int n)) ↔
      (octets = 0 → zeroOctets = true) ∧ 0 ≤ n ∧ n < 256 ^ octets := by
  simp only [Succeeds, bytesInteger_eq_ok, exists_and_left, exists_eq, and_true]

theorem formatField_eq_ok {octets : ℕ} {n : ℤ} {entry : Entry} :
    formatField name octets (.int n) = .ok entry ↔
      (0 ≤ n ∧ n < 256 ^ octets) ∧ entry = ⟨(name, [n]), integerBytes octets n.toNat⟩ := by
  rw [← bitStruct_integer, bitStruct_eq_ok, formatField]
  cases FieldEncoder.refusing.build [(8 * octets, n)] with
  | none => simp
  | some bytes => simp [eq_comm]

theorem succeeds_formatField {octets : ℕ} {n : ℤ} :
    Succeeds (formatField name octets (.int n)) ↔ 0 ≤ n ∧ n < 256 ^ octets := by
  simp only [Succeeds, formatField_eq_ok, exists_and_left, exists_eq, and_true]

theorem not_succeeds_formatField_float (name : String) (octets : ℕ) (x : ℚ) :
    ¬Succeeds (formatField name octets (.float x)) := not_succeeds_error _

/-- An integer that was written is read by the field of its size. -/
structure IntegerWritten (zeroOctets : Bool) (item : String × ℕ) (entry : Entry) : Prop where
  length : entry.bytes.length = item.2
  reads : Reads (integerField zeroOctets item) entry.bytes entry.field

theorem integerWritten {octets : ℕ} {n : ℤ} (hzero : octets = 0 → zeroOctets = true)
    (hn : 0 ≤ n ∧ n < 256 ^ octets) :
    IntegerWritten zeroOctets (name, octets) ⟨(name, [n]), integerBytes octets n.toNat⟩ := by
  refine ⟨length_integerBytes octets n.toNat, ?_⟩
  obtain ⟨m, rfl⟩ := Int.eq_ofNat_of_zero_le hn.1
  have hm : m < 256 ^ octets := by exact_mod_cast hn.2
  have hreads := reads_integerBytes name hzero m
  rwa [Nat.mod_eq_of_lt hm] at hreads

theorem length_flatMap_bytes {items : List (String × ℕ)} {entries : List Entry}
    (h : List.Forall₂ (IntegerWritten zeroOctets) items entries) :
    (entries.flatMap Entry.bytes).length = (items.map Prod.snd).sum := by
  induction h with
  | nil => rfl
  | cons hfirst _ ih => simp [ih, hfirst.length]

/-- Integers that were written are read one after the other. -/
theorem reads_integers {items : List (String × ℕ)} {entries : List Entry}
    (h : List.Forall₂ (IntegerWritten zeroOctets) items entries) :
    Reads (items.mapM (integerField zeroOctets)) (entries.flatMap Entry.bytes)
      (entries.map Entry.field) := by
  have hpieces : List.Forall₂ (fun item piece => Reads (integerField zeroOctets item) piece.1 piece.2)
      items (entries.map fun entry => (entry.bytes, entry.field)) := by
    rw [List.forall₂_map_right_iff]
    exact h.imp fun _ _ hwritten => hwritten.reads
  have hreads := reads_mapM hpieces
  rwa [List.flatMap_map, List.map_map] at hreads

/-! ## Packets -/

theorem reads_parseArray (xs : List Byte) : Reads (parseArray xs.length) xs xs := by
  rw [parseArray, if_neg (Int.natCast_nonneg _).not_gt, Int.toNat_natCast]
  exact reads_take xs PyError.streamError

theorem length_of_parseArray {count : ℤ} {bytes xs rest : List Byte}
    (h : (parseArray count).run bytes = .ok (xs, rest)) : (xs.length : ℤ) = count := by
  unfold parseArray at h
  split_ifs at h with hneg
  · cases h
  · change take count.toNat PyError.streamError bytes = _ at h
    unfold take at h
    split_ifs at h with hshort
    cases h
    rw [List.length_take, min_eq_left (not_lt.mp hshort)]
    omega

variable {timestamp : Reader Byte PyError (List Field × ℤ)}

/-- A packet whose time stamp is read and has the size that the structure says. -/
theorem run_fullPacket {header stamp payload : List Byte} {primary : List ℕ} {fields : List Field}
    (hheader : Reads (parseBits Ccsds.spacePacketHeader) header primary)
    (hlength : primary.getD 6 0 = (stamp ++ payload).length)
    (hstamp : Reads timestamp stamp (fields, (stamp.length : ℤ))) :
    (fullPacket timestamp).run (header ++ (stamp ++ payload)) =
      .ok (⟨primary, fields, payload⟩, []) := by
  have hcount : (primary.getD 6 0 : ℤ) - stamp.length = payload.length := by
    rw [hlength, List.length_append]
    push_cast
    ring
  have hpayload : Reads (parseArray ((primary.getD 6 0 : ℤ) - stamp.length)) payload payload :=
    hcount ▸ reads_parseArray payload
  have hreads : Reads (fullPacket timestamp) (header ++ (stamp ++ payload))
      ⟨primary, fields, payload⟩ := by
    refine hheader.bind (hstamp.bind ?_)
    exact hpayload.bind_pure (FullPacket.mk primary fields)
  simpa only [List.append_nil] using hreads []

/-- What is read of a packet is what its time stamp reads, and the bytes that are left. -/
theorem of_run_fullPacket {header body rest : List Byte} {primary : List ℕ} {packet : FullPacket}
    (hheader : Reads (parseBits Ccsds.spacePacketHeader) header primary)
    (h : (fullPacket timestamp).run (header ++ body) = .ok (packet, rest)) :
    ∃ size left, timestamp.run body = .ok ((packet.timestamp, size), left) ∧
      (packet.payload.length : ℤ) = primary.getD 6 0 - size := by
  obtain ⟨values, after, hvalues, hrest⟩ := run_bind_eq_ok.mp h
  rw [hheader] at hvalues
  obtain ⟨rfl, rfl⟩ := Prod.mk.inj (Except.ok.inj hvalues)
  obtain ⟨⟨fields, size⟩, left, hfields, hrest⟩ := run_bind_eq_ok.mp hrest
  obtain ⟨payload, last, hpayload, hpure⟩ := run_bind_eq_ok.mp hrest
  obtain ⟨rfl, rfl⟩ := Prod.mk.inj (Except.ok.inj hpure)
  exact ⟨size, left, hfields, length_of_parseArray hpayload⟩

end GrSatellites.SpacePacket
