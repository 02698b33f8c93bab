import GrSatellites.SpacePacket.Headers

/-!
# Sequence counters over whole runs

Both counters start at zero and grow with every PDU. Nothing reduces them to the width of
their field, so a run is counted modulo the width of the field exactly as long as the
counter has not reached it.
-/

namespace GrSatellites.SpacePacket

open Attempt Bits

variable {M : Type}

/-- The payloads among some messages. -/
def payloads : List (Msg M) → List (List Byte)
  | [] => []
  | .other _ :: msgs => payloads msgs
  | .u8vector pdu :: msgs => pdu.cdr :: payloads msgs

/-- A field of the header of a packet. -/
def headerField (widths : List ℕ) (i : ℕ) (packet : List Byte) : Option ℕ :=
  (parse widths packet).bind fun fields => fields[i]?

namespace HeaderAdder

variable (h : HeaderAdder)

/-- **Runs that do not raise.** Every payload has a byte, and the counter that is reached
with it fits the header. -/
theorem succeeds_run {counter : ℤ} {msgs : List (Msg M)} :
    Succeeds (h.run counter msgs) ↔ ∀ n packet, (payloads msgs)[n]? = some packet →
      packet ≠ [] ∧ Fits (h.fields (h.next^[n + 1] counter) packet) := by
  induction msgs generalizing counter with
  | nil => simp [run, payloads]
  | cons msg msgs ih =>
    rw [run, succeeds_bind]
    simp only [succeeds_bind_pure, ih]
    cases msg with
    | other car => simp [handleMsg, payloads]
    | u8vector pdu =>
      have hstep : (∃ sent, (h.handleMsg counter (.u8vector pdu)).2 = .ok sent) ↔
          pdu.cdr ≠ [] ∧ Fits (h.fields (h.next counter) pdu.cdr) := by
        simp only [handleMsg_eq_ok, ← FieldEncoder.build_refusing_isSome,
          Option.isSome_iff_exists]
        constructor
        · rintro ⟨sent, hne, header, hbuild, -⟩
          exact ⟨hne, header, hbuild⟩
        · rintro ⟨hne, header, hbuild⟩
          exact ⟨[header ++ pdu.cdr], hne, header, hbuild, rfl⟩
      rw [exists_and_right, hstep, payloads]
      constructor
      · rintro ⟨hfirst, hrest⟩ n packet hn
        cases n with
        | zero => exact Option.some.inj hn ▸ hfirst
        | succ n => exact hrest n packet hn
      · intro hall
        exact ⟨hall 0 pdu.cdr rfl, fun n packet hn => hall (n + 1) packet hn⟩

/-- **What a run publishes.** One packet for each payload, with the counter that is reached
with it. -/
theorem run_eq_ok {counter : ℤ} {msgs : List (Msg M)} {packets : List (List Byte)}
    (hrun : h.run counter msgs = .ok packets) :
    packets.length = (payloads msgs).length ∧ ∀ n payload packet,
      (payloads msgs)[n]? = some payload → packets[n]? = some packet →
        parse h.widths packet =
            some ((h.fields (h.next^[n + 1] counter) payload).map fun field => field.2.toNat) ∧
          packet.drop (sizeof h.widths) = payload := by
  induction msgs generalizing counter packets with
  | nil =>
    cases hrun
    simp [payloads]
  | cons msg msgs ih =>
    obtain ⟨sent, hsent, hrest⟩ := bind_eq_ok.mp hrun
    obtain ⟨more, hmore, hpackets⟩ := bind_eq_ok.mp hrest
    obtain ⟨hlength, hread⟩ := ih hmore
    have hpackets := Except.ok.inj hpackets
    cases msg with
    | other car =>
      cases hsent
      subst hpackets
      exact ⟨hlength, hread⟩
    | u8vector pdu =>
      obtain ⟨hne, header, hbuild, rfl⟩ := h.handleMsg_eq_ok.mp hsent
      subst hpackets
      refine ⟨by simp [payloads, hlength], ?_⟩
      intro n payload packet hpayload hpacket
      cases n with
      | zero =>
        cases hpayload
        cases hpacket
        have hsize := FieldEncoder.refusing.length_build hbuild
        rw [h.map_fst_fields] at hsize
        exact ⟨h.parse_sent hbuild, List.drop_left' hsize⟩
      | succ n => exact hread n payload packet hpayload hpacket

/-- No PDU of a run raises, and the n-th packet published carries a count modulo `2 ^ bits`,
the length of its payload with what the header adds to it, and the payload. -/
def Counts (bits countField lengthField added : ℕ) (msgs : List (Msg M)) : Prop :=
  ∃ first packets, h.run 0 msgs = .ok packets ∧ packets.length = (payloads msgs).length ∧
    ∀ n payload packet, (payloads msgs)[n]? = some payload → packets[n]? = some packet →
      headerField h.widths countField packet = some ((first + n) % 2 ^ bits) ∧
        headerField h.widths lengthField packet = some (payload.length + added) ∧
        packet.drop (sizeof h.widths) = payload

/-- The number in a field of the header that the n-th payload gets. -/
def headerValue (i n : ℕ) (payload : List Byte) : Option ℕ :=
  ((h.fields (h.next^[n + 1] 0) payload)[i]?).map fun field => field.2.toNat

theorem headerField_eq {i n : ℕ} {payload packet : List Byte}
    (hparse : parse h.widths packet =
      some ((h.fields (h.next^[n + 1] 0) payload).map fun field => field.2.toNat)) :
    headerField h.widths i packet = h.headerValue i n payload := by
  rw [headerField, hparse, headerValue, Option.bind_some, List.getElem?_map]

/-- Whether a run counts its PDUs shows in the headers that it builds. -/
theorem counts_iff_headerValue {bits countField lengthField added : ℕ} {msgs : List (Msg M)} :
    h.Counts bits countField lengthField added msgs ↔ Succeeds (h.run 0 msgs) ∧
      ∃ first, ∀ n payload, (payloads msgs)[n]? = some payload →
        h.headerValue countField n payload = some ((first + n) % 2 ^ bits) ∧
          h.headerValue lengthField n payload = some (payload.length + added) := by
  constructor
  · rintro ⟨first, packets, hrun, hlength, hread⟩
    refine ⟨⟨packets, hrun⟩, first, ?_⟩
    intro n payload hpayload
    have hn : n < packets.length := hlength ▸ (List.getElem?_eq_some_iff.mp hpayload).1
    have hpacket := List.getElem?_eq_getElem hn
    have hparse := ((h.run_eq_ok hrun).2 n payload _ hpayload hpacket).1
    obtain ⟨hcount, hsize, -⟩ := hread n payload _ hpayload hpacket
    rw [← h.headerField_eq hparse, ← h.headerField_eq hparse]
    exact ⟨hcount, hsize⟩
  · rintro ⟨⟨packets, hrun⟩, first, hvalues⟩
    obtain ⟨hlength, hread⟩ := h.run_eq_ok hrun
    refine ⟨first, packets, hrun, hlength, ?_⟩
    intro n payload packet hpayload hpacket
    obtain ⟨hparse, hdrop⟩ := hread n payload packet hpayload hpacket
    obtain ⟨hcount, hsize⟩ := hvalues n payload hpayload
    rw [h.headerField_eq hparse, h.headerField_eq hparse]
    exact ⟨hcount, hsize, hdrop⟩

theorem counts_of_payloads_eq_nil {bits countField lengthField added : ℕ} {msgs : List (Msg M)}
    (hnone : payloads msgs = []) : h.Counts bits countField lengthField added msgs := by
  rw [counts_iff_headerValue, succeeds_run, hnone]
  simp

end HeaderAdder

/-- A counter that starts at zero has counted the steps. -/
theorem iterate_add_one (n : ℕ) : (fun counter : ℤ => counter + 1)^[n] 0 = n := by
  induction n with
  | zero => rfl
  | succ n ih => rw [Function.iterate_succ_apply', ih, Nat.cast_succ]

/-- The number of PDUs stays below a bound if every one of them comes before it. -/
theorem length_lt_of_forall_getElem? {α : Type} {xs : List α} {bound : ℕ} (hpos : 0 < bound)
    (h : ∀ n x, xs[n]? = some x → n + 1 < bound) : xs.length < bound := by
  rcases Nat.eq_zero_or_pos xs.length with hzero | hlength
  · omega
  · have hlast := h (xs.length - 1) _ (List.getElem?_eq_getElem (by omega))
    omega

/-! ## Space packets -/

namespace PrimaryheaderAdder

variable (a : PrimaryheaderAdder)

/-- The configured fields of the header fit, every payload has between one byte and as many
as its length field can say, and either the count is used for fewer PDUs than it has values,
or a name that fits is used for one PDU. -/
structure Countable (payloads : List (List Byte)) : Prop where
  packetType : 0 ≤ a.packetType ∧ a.packetType < 2 ^ 1
  apId : 0 ≤ a.apId ∧ a.apId < 2 ^ 11
  payload : ∀ packet ∈ payloads, packet ≠ [] ∧ packet.length < 2 ^ 16
  count : a.UsesCount → payloads.length < 2 ^ 14
  name : ¬a.UsesCount →
    payloads.length = 1 ∧ 0 ≤ a.packetSequenceName ∧ a.packetSequenceName < 2 ^ 14

theorem iterate_next (n : ℕ) : a.block.next^[n] 0 = n := iterate_add_one n

theorem headerValue_count (n : ℕ) (payload : List Byte) : a.block.headerValue 5 n payload =
    some (if a.UsesCount then n + 1 else a.packetSequenceName.toNat) := by
  rw [HeaderAdder.headerValue, iterate_next, apply_ite some]
  split_ifs with huses
  · simp [block, fields, huses]
  · simp [block, fields, huses]

theorem headerValue_length (n : ℕ) (payload : List Byte) :
    a.block.headerValue 6 n payload = some payload.length := rfl

theorem countable_of_counts {msgs : List (Msg M)} (hsome : payloads msgs ≠ [])
    (hcounts : a.block.Counts 14 5 6 0 msgs) : a.Countable (payloads msgs) := by
  obtain ⟨hsucceeds, first, hvalues⟩ := a.block.counts_iff_headerValue.mp hcounts
  have hfits := a.block.succeeds_run.mp hsucceeds
  simp only [iterate_next] at hfits
  have hfields : ∀ n payload, (payloads msgs)[n]? = some payload → _ :=
    fun n payload hn => a.fits_fields_iff.mp (hfits n payload hn).2
  have hpos := List.length_pos_iff.mpr hsome
  have hfirst := hfields 0 _ (List.getElem?_eq_getElem hpos)
  refine ⟨hfirst.1, hfirst.2.1, ?_, ?_, ?_⟩
  · intro packet hpacket
    obtain ⟨n, hn⟩ := List.getElem?_of_mem hpacket
    exact ⟨(hfits n packet hn).1, (hfields n packet hn).2.2.1⟩
  · intro huses
    exact length_lt_of_forall_getElem? (by norm_num) fun n packet hn =>
      (hfields n packet hn).2.2.2.1 huses
  · intro hname
    refine ⟨?_, hfirst.2.2.2.2 hname⟩
    -- a second PDU would carry the same name, but the next count
    by_contra hne
    have hcarry : ∀ n < (payloads msgs).length,
        a.packetSequenceName.toNat = (first + n) % 2 ^ 14 := by
      intro n hn
      have hvalue := (hvalues n _ (List.getElem?_eq_getElem hn)).1
      rw [headerValue_count, if_neg hname] at hvalue
      exact Option.some.inj hvalue
    have hzero := hcarry 0 hpos
    have hone := hcarry 1 (by omega)
    omega

theorem counts_of_countable {msgs : List (Msg M)} (hcountable : a.Countable (payloads msgs)) :
    a.block.Counts 14 5 6 0 msgs := by
  have hlt : ∀ {n payload}, (payloads msgs)[n]? = some payload → n < (payloads msgs).length :=
    fun hn => (List.getElem?_eq_some_iff.mp hn).1
  rw [HeaderAdder.counts_iff_headerValue, HeaderAdder.succeeds_run]
  constructor
  · intro n payload hn
    have hmem := hcountable.payload payload (List.mem_of_getElem? hn)
    refine ⟨hmem.1, ?_⟩
    rw [iterate_next]
    refine a.fits_fields_iff.mpr ⟨hcountable.packetType, hcountable.apId, hmem.2, ?_,
      fun hname => (hcountable.name hname).2⟩
    intro huses
    exact (Nat.succ_le_of_lt (hlt hn)).trans_lt (hcountable.count huses)
  · refine ⟨if a.UsesCount then 1 else a.packetSequenceName.toNat, ?_⟩
    intro n payload hpayload
    refine ⟨?_, a.headerValue_length n payload⟩
    have hn := hlt hpayload
    rw [headerValue_count]
    by_cases huses : a.UsesCount
    · have hbound := hcountable.count huses
      rw [if_pos huses, if_pos huses, Nat.add_comm, Nat.mod_eq_of_lt (by omega)]
    · obtain ⟨hone, hnonneg, hbound⟩ := hcountable.name huses
      have hzero : n = 0 := by omega
      rw [if_neg huses, if_neg huses, hzero, Nat.add_zero, Nat.mod_eq_of_lt (by omega)]

/-- The sequence counts of a run. -/
theorem counts_iff {msgs : List (Msg M)} :
    a.block.Counts 14 5 6 0 msgs ↔ payloads msgs = [] ∨ a.Countable (payloads msgs) := by
  constructor
  · intro hcounts
    exact (eq_or_ne (payloads msgs) []).imp_right fun hsome => a.countable_of_counts hsome hcounts
  · rintro (hnone | hcountable)
    · exact a.block.counts_of_payloads_eq_nil hnone
    · exact a.counts_of_countable hcountable

end PrimaryheaderAdder

/-! ## Telecommand frames -/

namespace TelecommandPrimaryheaderAdder

variable (a : TelecommandPrimaryheaderAdder)

/-- The configured fields of the header fit, every payload has between one byte and as many
as the length field can say, and there are fewer PDUs than frame sequence numbers. -/
structure Countable (payloads : List (List Byte)) : Prop where
  spacecraftId : 0 ≤ a.spacecraftId ∧ a.spacecraftId < 2 ^ 10
  virtualChannelId : 0 ≤ a.virtualChannelId ∧ a.virtualChannelId < 2 ^ 6
  payload : ∀ packet ∈ payloads, packet ≠ [] ∧ packet.length + 5 < 2 ^ 10
  count : payloads.length < 2 ^ 8

theorem fits_fields_iff {count : ℕ} {packet : List Byte} :
    Fits (a.fields count packet) ↔ (0 ≤ a.spacecraftId ∧ a.spacecraftId < 2 ^ 10) ∧
      (0 ≤ a.virtualChannelId ∧ a.virtualChannelId < 2 ^ 6) ∧ packet.length + 5 < 2 ^ 10 ∧
      count < 2 ^ 8 := by
  have hzero : (0 : ℤ) ≤ 0 ∧ (0 : ℤ) < 2 ^ 2 := by norm_num
  have hlength : (0 : ℤ) ≤ packet.length + 5 ∧ (packet.length + 5 : ℤ) < 2 ^ 10 ↔
      packet.length + 5 < 2 ^ 10 := by
    exact_mod_cast natCast_fits_iff
  simp only [fields, fits_cons, fits_nil, natCast_fits_iff, and_true, hzero, hlength,
    flagField_fits, true_and]

section

variable {a}

theorem iterate_next (hbypass : a.bypass ≠ 1) (n : ℕ) : a.block.next^[n] 0 = n := by
  have hnext : a.block.next = fun counter => counter + 1 := by
    funext counter
    exact if_neg hbypass
  rw [hnext, iterate_add_one]

theorem headerValue_count (hbypass : a.bypass ≠ 1) (n : ℕ) (payload : List Byte) :
    a.block.headerValue 7 n payload = some (n + 1) := by
  rw [HeaderAdder.headerValue, iterate_next hbypass]
  rfl

theorem headerValue_length (n : ℕ) (payload : List Byte) :
    a.block.headerValue 6 n payload = some (payload.length + 5) := rfl

/-- The frame sequence numbers of a run. -/
theorem counts_iff (hbypass : a.bypass ≠ 1) {msgs : List (Msg M)} :
    a.block.Counts 8 7 6 5 msgs ↔ payloads msgs = [] ∨ a.Countable (payloads msgs) := by
  have hfits : Succeeds (a.block.run 0 msgs) ↔ ∀ n payload, (payloads msgs)[n]? = some payload →
      payload ≠ [] ∧ Fits (a.fields ((n + 1 : ℕ) : ℤ) payload) := by
    rw [HeaderAdder.succeeds_run]
    simp only [iterate_next hbypass]
    rfl
  constructor
  · intro hcounts
    refine (eq_or_ne (payloads msgs) []).imp_right fun hsome => ?_
    have hrun := hfits.mp (a.block.counts_iff_headerValue.mp hcounts).1
    have hfields : ∀ n payload, (payloads msgs)[n]? = some payload → _ :=
      fun n payload hn => a.fits_fields_iff.mp (hrun n payload hn).2
    have hfirst := hfields 0 _ (List.getElem?_eq_getElem (List.length_pos_iff.mpr hsome))
    refine ⟨hfirst.1, hfirst.2.1, ?_, ?_⟩
    · intro packet hpacket
      obtain ⟨n, hn⟩ := List.getElem?_of_mem hpacket
      exact ⟨(hrun n packet hn).1, (hfields n packet hn).2.2.1⟩
    · exact length_lt_of_forall_getElem? (by norm_num) fun n packet hn =>
        (hfields n packet hn).2.2.2
  · rintro (hnone | hcountable)
    · exact a.block.counts_of_payloads_eq_nil hnone
    · have hlt : ∀ {n payload}, (payloads msgs)[n]? = some payload → n + 1 < 2 ^ 8 :=
        fun hn => (Nat.succ_le_of_lt (List.getElem?_eq_some_iff.mp hn).1).trans_lt
          hcountable.count
      rw [HeaderAdder.counts_iff_headerValue, hfits]
      constructor
      · intro n payload hn
        have hmem := hcountable.payload payload (List.mem_of_getElem? hn)
        exact ⟨hmem.1, a.fits_fields_iff.mpr
          ⟨hcountable.spacecraftId, hcountable.virtualChannelId, hmem.2, hlt hn⟩⟩
      · refine ⟨1, ?_⟩
        intro n payload hn
        rw [headerValue_count hbypass, Nat.add_comm, Nat.mod_eq_of_lt (Nat.add_comm n 1 ▸ hlt hn)]
        exact ⟨rfl, headerValue_length n payload⟩

end

end TelecommandPrimaryheaderAdder

/-! ## Both counters -/

/-- **Sequence counts.** A run of space packets is counted modulo 2^14, and a run of
sequence-controlled telecommand frames modulo 2^8, exactly as long as every payload has a
byte and fits its length field, the configured fields fit, and there are fewer PDUs than
numbers. -/
theorem run_counts (a : PrimaryheaderAdder) (t : TelecommandPrimaryheaderAdder)
    (hbypass : t.bypass ≠ 1) (msgs : List (Msg M)) :
    (a.block.Counts 14 5 6 0 msgs ↔ payloads msgs = [] ∨ a.Countable (payloads msgs)) ∧
      (t.block.Counts 8 7 6 5 msgs ↔ payloads msgs = [] ∨ t.Countable (payloads msgs)) :=
  ⟨a.counts_iff, TelecommandPrimaryheaderAdder.counts_iff hbypass⟩

/-- A telecommand block with every parameter at its default. -/
def sequenceControlled : TelecommandPrimaryheaderAdder := ⟨0, 0, 0, 0⟩

/-- A PDU with one byte. -/
def onePdu : Msg Unit := .u8vector ⟨(), [0]⟩

theorem payloads_replicate (n : ℕ) : payloads (List.replicate n onePdu) = List.replicate n [0] := by
  induction n with
  | zero => rfl
  | succ n ih => rw [List.replicate_succ, onePdu, payloads, ← onePdu, ih, List.replicate_succ]

theorem run_counts_three_pdus :
    telemetryAdder.block.Counts 14 5 6 0 (List.replicate 3 onePdu) ∧
      sequenceControlled.block.Counts 8 7 6 5 (List.replicate 3 onePdu) := by
  obtain ⟨hspace, hcommand⟩ := run_counts telemetryAdder sequenceControlled
    (by decide) (List.replicate 3 onePdu)
  constructor
  · refine hspace.mpr (.inr ⟨by decide, by decide, by decide, fun _ => by decide, ?_⟩)
    exact fun hname => absurd (.inl rfl) hname
  · exact hcommand.mpr (.inr ⟨by decide, by decide, by decide, by decide⟩)

/-- The first PDU without a number of its own raises, in both blocks. -/
theorem not_counts_all_numbers :
    ¬telemetryAdder.block.Counts 14 5 6 0 (List.replicate (2 ^ 14) onePdu) ∧
      ¬sequenceControlled.block.Counts 8 7 6 5 (List.replicate (2 ^ 8) onePdu) := by
  rw [PrimaryheaderAdder.counts_iff, TelecommandPrimaryheaderAdder.counts_iff (by decide),
    payloads_replicate, payloads_replicate]
  constructor
  · rintro (hnone | hcountable)
    · exact absurd (congrArg List.length hnone) (by rw [List.length_replicate]; decide)
    · have hcount := hcountable.count (.inl rfl)
      rw [List.length_replicate] at hcount
      omega
  · rintro (hnone | hcountable)
    · exact absurd (congrArg List.length hnone) (by rw [List.length_replicate]; decide)
    · have hcount := hcountable.count
      rw [List.length_replicate] at hcount
      omega

end GrSatellites.SpacePacket
