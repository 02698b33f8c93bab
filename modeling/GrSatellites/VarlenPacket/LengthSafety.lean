import GrSatellites.VarlenPacket.Header
import GrSatellites.VarlenPacket.Reading

/-!
# Lengths that the tagger accepts

The tagger computes the length of a packet in an `int` and compares it with the mtu. This is
safe for the Golay header, and for the other one as long as eight times the number in the
header is an `int`.
-/

namespace GrSatellites.VarlenPacket

open Bits Golay24 Transducer

/-- The number that the bits of a header spell. -/
def fieldValue (endianness : Endianness) (header : List Bool) : ℕ :=
  match endianness with
  | .msbFirst => ofBits header
  | .lsbFirst => ofBits header.reverse

namespace Tagger

/-- The length in items that the bits of a header announce. A Golay header that cannot be
decoded announces nothing. -/
def announced (tagger : Tagger) (header : List Bool) : Option ℕ :=
  if tagger.useGolay then
    (decodeGolay24 (BitVec.ofNat 32 (fieldValue tagger.endianness header))).map
      fun (golayField, _) => 8 * (0xfff &&& golayField).toNat
  else some (8 * fieldValue tagger.endianness header)

/-- The bits of the header for a tagger that has found a sync tag. -/
def headerAt (tagger : Tagger) (bits : List Bool) (s : TaggerState) : List Bool :=
  (bits.drop s.nitemsRead).take tagger.headerLength.toNat

/-- A call reads a header: there is a sync tag, and the header has come in. -/
def ReadsHeader (tagger : Tagger) (bits : List Bool) (s : TaggerState) (call : Call) : Prop :=
  s.haveSync = true ∧
    tagger.headerLength ≤ (min call.ninputItems (bits.length - s.nitemsRead) : ℕ)

/-- A header that a call reads is a Golay header, or eight times its number is an `int`. -/
def HeaderFits (tagger : Tagger) (bits : List Bool) (s : TaggerState) (call : Call) : Prop :=
  tagger.ReadsHeader bits s call →
    tagger.useGolay = true ∨ fieldValue tagger.endianness (tagger.headerAt bits s) < 2 ^ 28

/-- A call is safe: no `int` overflows, the number of items copied for a packet is at most the
mtu, and after a header that announces more nothing is copied and the tagger searches. -/
def SafeCall (tagger : Tagger) (bits : List Bool) (tags : List (ℕ × Unit)) (s : TaggerState)
    (call : Call) : Prop :=
  ∃ s' out, tagger.step ⟨bits.map bitItem, tags⟩ s call = .ok (s', out) ∧
    (∀ p ∈ out, p.items.length = p.packetLen ∧ (p.packetLen : ℤ) ≤ tagger.mtu) ∧
      (tagger.ReadsHeader bits s call → ∀ n : ℕ, tagger.announced (tagger.headerAt bits s) = some n →
        tagger.mtu < n → out = [] ∧ s'.haveSync = false)

/-- A property of the state before a call and the call holds in every call of a run. -/
def Throughout (tagger : Tagger) (settings : Settings) (stream : Stream Unit)
    (property : TaggerState → Call → Prop) (calls : List Call) : Prop :=
  ∀ before call, before ++ [call] <+: calls → ∀ s out,
    runE (tagger.step stream) (.init settings) before = .ok (s, out) → property s call

end Tagger

/-! ## Announced lengths -/

theorem ofBits_lt_of_length {bits : List Bool} {w : ℕ} (hbits : bits.length ≤ w) :
    ofBits bits < 2 ^ w :=
  (ofBits_lt bits).trans_le (Nat.pow_le_pow_right (by norm_num) hbits)

theorem fieldValue_lt (endianness : Endianness) {header : List Bool} {w : ℕ}
    (hheader : header.length ≤ w) : fieldValue endianness header < 2 ^ w := by
  cases endianness with
  | msbFirst => exact ofBits_lt_of_length hheader
  | lsbFirst => exact ofBits_lt_of_length (List.length_reverse.trans_le hheader)

theorem bits2len_bits (endianness : Endianness) (header : List Bool) :
    bits2len endianness (header.map bitItem) = toInt (fieldValue endianness header) := by
  have hread (bits : List Bool) : (bits.map bitItem).foldlM shiftIn 0 = toInt (ofBits bits) := by
    rw [foldlM_shiftIn_eq bits (by decide), Nat.zero_mul, Nat.zero_add]
  cases endianness with
  | msbFirst => exact hread header
  | lsbFirst => rw [bits2len, ← List.map_reverse, hread, fieldValue]

theorem packetLen_golay_bits {tagger : Tagger} {header : List Bool}
    (hgolay : tagger.useGolay = true) (hheader : header.length ≤ 24) :
    tagger.packetLen (header.map bitItem) = .ok (tagger.announced header) := by
  have hfits : fieldValue tagger.endianness header < 2 ^ 31 :=
    (fieldValue_lt _ hheader).trans (by norm_num)
  rw [Tagger.packetLen, Tagger.announced, bits2len_bits, toInt, if_pos hfits, hgolay]
  rfl

/-- Without the Golay code the length is the one that is announced, if it is an `int`. -/
theorem packetLen_bits {tagger : Tagger} (header : List Bool) (hgolay : tagger.useGolay = false) :
    tagger.packetLen (header.map bitItem) =
      if fieldValue tagger.endianness header < 2 ^ 28 then .ok (tagger.announced header)
      else .error .overflow := by
  rw [Tagger.packetLen, Tagger.announced, bits2len_bits, hgolay]
  simp only [toInt, Bool.false_eq_true, if_false]
  by_cases hfits : fieldValue tagger.endianness header < 2 ^ 31
  · rw [if_pos hfits]
    simp only [bind, Except.bind]
    by_cases hsmall : fieldValue tagger.endianness header < 2 ^ 28
    · rw [if_pos hsmall, if_pos (by omega)]
      rfl
    · rw [if_neg hsmall, if_neg (by omega)]
  · rw [if_neg hfits, if_neg (by omega)]
    rfl

/-- A header of no bits, for a header size that is not positive. -/
theorem announced_nil (tagger : Tagger) : tagger.announced [] = some 0 := by
  have hvalue : fieldValue tagger.endianness [] = 0 := by cases tagger.endianness <;> rfl
  rw [Tagger.announced, hvalue]
  split
  · decide
  · rfl

/-! ## Calls -/

variable {tagger : Tagger} {bits : List Bool} {tags : List (ℕ × Unit)} {s : TaggerState}
  {call : Call}

/-- A call that reads no header puts out nothing. -/
theorem step_of_not_readsHeader (tags : List (ℕ × Unit))
    (hread : ¬tagger.ReadsHeader bits s call) :
    ∃ s', tagger.step ⟨bits.map bitItem, tags⟩ s call = .ok (s', []) := by
  unfold Tagger.step Tagger.generalWork
  rw [List.length_map]
  split
  case isTrue hsync =>
    have hshort : ((min call.ninputItems (bits.length - s.nitemsRead) : ℕ) : ℤ) <
        tagger.headerLength := not_le.mp fun h => hread ⟨hsync, h⟩
    rw [if_pos hshort]
    exact ⟨s, rfl⟩
  case isFalse =>
    split
    · exact ⟨_, rfl⟩
    · exact ⟨_, rfl⟩

/-- A call that reads a header is decided by the length that the header announces. -/
theorem step_of_readsHeader (hread : tagger.ReadsHeader bits s call) :
    tagger.step ⟨bits.map bitItem, tags⟩ s call =
      tagger.readPacket ((bits.map bitItem).drop s.nitemsRead) s
        { call with ninputItems := min call.ninputItems (bits.length - s.nitemsRead) } := by
  obtain ⟨hsync, hheader⟩ := hread
  rw [Tagger.step, Tagger.generalWork, if_pos hsync, List.length_map, if_neg (not_lt.mpr hheader)]

theorem take_headerAt (tagger : Tagger) (bits : List Bool) (s : TaggerState) :
    ((bits.map bitItem).drop s.nitemsRead).take tagger.headerLength.toNat =
      (tagger.headerAt bits s).map bitItem := by
  rw [Tagger.headerAt, List.map_take, List.map_drop]

/-- When the length of the header is computed without an overflow, the call is safe. -/
theorem safeCall_of_packetLen (hread : tagger.ReadsHeader bits s call)
    (hlen : tagger.packetLen ((tagger.headerAt bits s).map bitItem) =
      .ok (tagger.announced (tagger.headerAt bits s))) : tagger.SafeCall bits tags s call := by
  unfold Tagger.SafeCall
  rw [step_of_readsHeader hread, Tagger.readPacket, take_headerAt, hlen]
  cases hannounced : tagger.announced (tagger.headerAt bits s) with
  | none =>
    refine ⟨_, [], rfl, fun p hp => absurd hp List.not_mem_nil, fun _ n hn => ?_⟩
    cases hn
  | some packetLen =>
    simp only [bind, Except.bind, pure, Except.pure]
    by_cases hmtu : tagger.mtu < packetLen
    · rw [if_pos hmtu]
      exact ⟨_, [], rfl, fun p hp => absurd hp List.not_mem_nil, fun _ _ _ _ => ⟨rfl, rfl⟩⟩
    · rw [if_neg hmtu]
      have hlarge (n : ℕ) (hn : some packetLen = some n) : ¬tagger.mtu < n :=
        Option.some.inj hn ▸ hmtu
      split
      case isTrue =>
        exact ⟨_, [], rfl, fun p hp => absurd hp List.not_mem_nil,
          fun _ n hn hover => absurd hover (hlarge n hn)⟩
      case isFalse hready =>
        refine ⟨_, _, rfl, fun p hp => ?_, fun _ n hn hover => absurd hover (hlarge n hn)⟩
        rw [List.mem_singleton] at hp
        subst hp
        refine ⟨?_, not_lt.mp hmtu⟩
        simp only [List.length_take, List.length_drop, List.length_map]
        have havailable := (not_or.mp hready).2
        rcases lt_or_ge tagger.headerLength 0 with hneg | hnonneg
        · have hnone : tagger.headerAt bits s = [] := by
            rw [Tagger.headerAt, Int.toNat_eq_zero.mpr hneg.le, List.take_zero]
          rw [hnone, announced_nil] at hannounced
          rw [← Option.some.inj hannounced, Nat.zero_min]
        · omega

theorem not_safeCall_of_packetLen (hread : tagger.ReadsHeader bits s call)
    (hlen : tagger.packetLen ((tagger.headerAt bits s).map bitItem) = .error .overflow) :
    ¬tagger.SafeCall bits tags s call := by
  unfold Tagger.SafeCall
  rw [step_of_readsHeader hread, Tagger.readPacket, take_headerAt, hlen]
  rintro ⟨s', out, hstep, -⟩
  cases hstep

theorem safeCall_iff (settings : Settings) (mtu : ℤ) (bits : List Bool) (tags : List (ℕ × Unit))
    (s : TaggerState) (call : Call) :
    (Tagger.make settings mtu).SafeCall bits tags s call ↔
      (Tagger.make settings mtu).HeaderFits bits s call := by
  by_cases hread : (Tagger.make settings mtu).ReadsHeader bits s call
  · rw [Tagger.HeaderFits]
    simp only [hread, true_imp_iff]
    cases hgolay : (Tagger.make settings mtu).useGolay with
    | true =>
      have hheader : ((Tagger.make settings mtu).headerAt bits s).length ≤ 24 := by
        have hsettings : settings.useGolay = true := hgolay
        rw [Tagger.headerAt, Tagger.make, hsettings]
        exact List.length_take_le _ _
      exact iff_of_true (safeCall_of_packetLen hread (packetLen_golay_bits hgolay hheader))
        (Or.inl rfl)
    | false =>
      have hlen := packetLen_bits ((Tagger.make settings mtu).headerAt bits s) hgolay
      by_cases hsmall : fieldValue (Tagger.make settings mtu).endianness
          ((Tagger.make settings mtu).headerAt bits s) < 2 ^ 28
      · rw [if_pos hsmall] at hlen
        exact iff_of_true (safeCall_of_packetLen hread hlen) (Or.inr hsmall)
      · rw [if_neg hsmall] at hlen
        exact iff_of_false (not_safeCall_of_packetLen hread hlen)
          (not_or.mpr ⟨Bool.false_ne_true, hsmall⟩)
  · obtain ⟨s', hstep⟩ := step_of_not_readsHeader tags hread
    exact iff_of_true ⟨s', [], hstep, fun p hp => absurd hp List.not_mem_nil,
      fun h => absurd h hread⟩ fun h => absurd h hread

/-! ## Runs -/

/-- A run in which every call is safe goes through to its end. -/
theorem exists_run_of_safe {settings : Settings} {calls : List Call}
    (hsafe : tagger.Throughout settings ⟨bits.map bitItem, tags⟩ (tagger.SafeCall bits tags) calls) :
    ∃ result, runE (tagger.step ⟨bits.map bitItem, tags⟩) (.init settings) calls = .ok result := by
  induction calls using List.reverseRecOn with
  | nil => exact ⟨_, rfl⟩
  | append_singleton calls call ih =>
    obtain ⟨⟨s, out⟩, hrun⟩ := ih fun before call' hbefore =>
      hsafe before call' (hbefore.trans (List.prefix_append _ _))
    obtain ⟨s', more, hstep, -⟩ := hsafe calls call List.prefix_rfl s out hrun
    refine ⟨(s', out ++ more), ?_⟩
    rw [runE_append, hrun]
    simp only [bind, Except.bind, runE, hstep, pure, Except.pure, List.append_nil]

end GrSatellites.VarlenPacket
