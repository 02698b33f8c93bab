import GrSatellites.Hdlc.Model
import GrSatellites.Library.Search

/-!
# The end flag of YUSAT packets

The block `crop_and_check_crc` of `python/components/deframers/yusat_deframer.py`, which crops a
packet at the flag before which the FCS is right. The start of the search moves on, but the place
of a flag is taken from it.
-/

namespace GrSatellites.Yusat

open Hdlc Search

/-- The loop of `handle_msg`, with a bound for the number of rounds: the PDU published, if any. -/
def cropLoop (packet : List Byte) : ℕ → ℕ → Option (Option (List Byte))
  | 0, _ => none
  | rounds + 1, start =>
    match find [0x7e] (packet.drop start) with
    | none => some none
    | some idx =>
      let p := packet.take idx
      if fcsOk p then some (some (p.take (p.length - 2)))
      else cropLoop packet rounds (start + idx + 1)

/-- `handle_msg` returns after publishing a PDU, or nothing. -/
def Crops (packet : List Byte) (pdu : Option (List Byte)) : Prop :=
  ∃ rounds, cropLoop packet rounds 0 = some pdu

/-- The places of the flags. -/
abbrev flags (packet : List Byte) : List ℕ := occurrences [0x7e] packet

/-- The numbers of bytes between some flags, from a place on. -/
def gaps : ℕ → List ℕ → List ℕ
  | _, [] => []
  | start, i :: rest => (i - start) :: gaps (i + 1) rest

/-- The first of some lengths for which the bytes up to there have a right FCS. -/
def firstOk (packet : List Byte) (lengths : List ℕ) : Option ℕ :=
  lengths.find? fun n => fcsOk (packet.take n)

/-- What should be published: the bytes before the first flag with a right FCS before it, without
that. -/
def cropped (packet : List Byte) : Option (List Byte) :=
  (firstOk packet (flags packet)).map fun i => packet.take (i - 2)

theorem flag_ne_nil : ([0x7e] : List Byte) ≠ [] := by decide

/-- The flags after one of them. -/
theorem filter_flags_succ {packet : List Byte} {i start : ℕ} {rest : List ℕ}
    (h : (flags packet).filter (start ≤ ·) = i :: rest) :
    start ≤ i ∧ (flags packet).filter (i + 1 ≤ ·) = rest := by
  have hsorted : (i :: rest).Pairwise (· < ·) := h ▸ (pairwise_occurrences [0x7e] packet).filter _
  have hle : start ≤ i := by
    have hmem : i ∈ (flags packet).filter (start ≤ ·) := by rw [h]; exact List.mem_cons_self
    exact of_decide_eq_true (List.mem_filter.mp hmem).2
  refine ⟨hle, ?_⟩
  have hagain : (flags packet).filter (i + 1 ≤ ·) = (i :: rest).filter (i + 1 ≤ ·) := by
    rw [← h, List.filter_filter]
    apply List.filter_congr
    intro b _
    rw [← Bool.decide_and, decide_eq_decide]
    omega
  rw [hagain, List.filter_cons_of_neg (by simp), List.filter_eq_self]
  exact fun b hb => decide_eq_true (List.rel_of_pairwise_cons hsorted hb)

/-- **The loop.** It looks at the numbers of bytes between the flags. -/
theorem cropLoop_eq {packet : List Byte} {rest : List ℕ} {rounds start : ℕ}
    (hrest : (flags packet).filter (start ≤ ·) = rest) (hrounds : rest.length < rounds) :
    cropLoop packet rounds start =
      some ((firstOk packet (gaps start rest)).map fun n => packet.take (n - 2)) := by
  obtain ⟨rounds, rfl⟩ := Nat.exists_eq_add_of_le' (Nat.zero_lt_of_lt hrounds)
  induction rest generalizing start rounds with
  | nil =>
    have hnone : find [0x7e] (packet.drop start) = none := by
      rw [find_drop_eq_none_iff flag_ne_nil]
      intro b hb
      by_contra hle
      have hmem : b ∈ (flags packet).filter (start ≤ ·) :=
        List.mem_filter.mpr ⟨hb, decide_eq_true (Nat.not_lt.mp hle)⟩
      rw [hrest] at hmem
      cases hmem
    rw [cropLoop, hnone]
    rfl
  | cons i rest ih =>
    obtain ⟨hle, hlater⟩ := filter_flags_succ hrest
    have hfind : find [0x7e] (packet.drop start) = some (i - start) := by
      rw [find_drop_eq_some_iff flag_ne_nil, Nat.add_sub_cancel' hle]
      have hmem {b : ℕ} : b ∈ i :: rest ↔ b ∈ flags packet ∧ start ≤ b := by
        rw [← hrest, List.mem_filter, decide_eq_true_iff]
      refine ⟨(hmem.mp List.mem_cons_self).1, fun b hb hstart => ?_⟩
      rcases List.mem_cons.mp (hmem.mpr ⟨hb, hstart⟩) with rfl | hrest'
      · exact le_rfl
      · have hsorted : (i :: rest).Pairwise (· < ·) :=
          hrest ▸ (pairwise_occurrences [0x7e] packet).filter _
        exact (List.rel_of_pairwise_cons hsorted hrest').le
    have hshort : i - start ≤ packet.length := by
      have hmem : i ∈ flags packet := by
        have : i ∈ (flags packet).filter (start ≤ ·) := by rw [hrest]; exact List.mem_cons_self
        exact (List.mem_filter.mp this).1
      have := List.mem_range.mp (List.mem_filter.mp hmem).1
      omega
    have hnext : start + (i - start) + 1 = i + 1 := by omega
    rw [cropLoop, hfind, gaps, firstOk, List.find?_cons]
    simp only [hnext, List.length_take, min_eq_left hshort]
    cases hok : fcsOk (packet.take (i - start)) with
    | true =>
      rw [if_pos rfl, List.take_take, min_eq_left (Nat.sub_le _ 2)]
      rfl
    | false =>
      obtain ⟨rounds, rfl⟩ := Nat.exists_eq_succ_of_ne_zero (n := rounds) (by
        rw [List.length_cons] at hrounds
        omega)
      rw [if_neg Bool.false_ne_true]
      refine ih hlater rounds ?_
      rw [List.length_cons] at hrounds
      omega

/-- More rounds give the same result. -/
theorem cropLoop_succ {packet : List Byte} {rounds start : ℕ} {pdu : Option (List Byte)}
    (h : cropLoop packet rounds start = some pdu) : cropLoop packet (rounds + 1) start = some pdu := by
  induction rounds generalizing start with
  | zero => cases h
  | succ rounds ih =>
    rw [cropLoop] at h ⊢
    cases hfind : find [0x7e] (packet.drop start) with
    | none => simpa only [hfind] using h
    | some idx =>
      simp only [hfind] at h ⊢
      split_ifs at h ⊢
      · exact h
      · exact ih h

theorem cropLoop_le {packet : List Byte} {rounds start : ℕ} {pdu : Option (List Byte)}
    (h : cropLoop packet rounds start = some pdu) {rounds' : ℕ} (hle : rounds ≤ rounds') :
    cropLoop packet rounds' start = some pdu := by
  induction hle with
  | refl => exact h
  | step _ ih => exact cropLoop_succ ih

/-- **Termination.** The loop ends, with one result. -/
theorem crops_iff {packet : List Byte} {pdu : Option (List Byte)} :
    Crops packet pdu ↔
      pdu = (firstOk packet (gaps 0 (flags packet))).map fun n => packet.take (n - 2) := by
  have hall : (flags packet).filter (0 ≤ ·) = flags packet := by simp
  have hloop := cropLoop_eq hall (Nat.lt_succ_self _)
  constructor
  · rintro ⟨rounds, h⟩
    have hmore := cropLoop_le h (le_max_left rounds ((flags packet).length + 1))
    have hmore' := cropLoop_le hloop (le_max_right rounds ((flags packet).length + 1))
    exact Option.some.inj (hmore.symm.trans hmore')
  · rintro rfl
    exact ⟨_, hloop⟩

/-- A length that is found is that of a packet with a right FCS, which has three bytes or more. -/
theorem firstOk_bounds {packet : List Byte} {lengths : List ℕ} {n : ℕ}
    (h : firstOk packet lengths = some n) : 3 ≤ (packet.take n).length := by
  rw [firstOk] at h
  have hok := List.find?_some h
  rw [fcsOk] at hok
  split_ifs at hok with hshort
  omega

/-- Different lengths are different packets, if they are lengths in the packet. -/
theorem map_firstOk_inj {packet : List Byte} {xs ys : List ℕ}
    (hxs : ∀ n ∈ xs, n ≤ packet.length) (hys : ∀ n ∈ ys, n ≤ packet.length) :
    (firstOk packet xs).map (fun n => packet.take (n - 2)) =
        (firstOk packet ys).map (fun n => packet.take (n - 2)) ↔
      firstOk packet xs = firstOk packet ys := by
  refine ⟨fun h => ?_, fun h => by rw [h]⟩
  cases hx : firstOk packet xs with
  | none =>
    rw [hx, Option.map_none] at h
    exact (Option.map_eq_none_iff.mp h.symm).symm
  | some n =>
    rw [hx, Option.map_some] at h
    obtain ⟨m, hy, htake⟩ := Option.map_eq_some_iff.mp h.symm
    have hlength := congrArg List.length htake
    have hn := firstOk_bounds hx
    have hm := firstOk_bounds hy
    have hnle := hxs n (List.mem_of_find?_eq_some hx)
    have hmle := hys m (List.mem_of_find?_eq_some hy)
    rw [List.length_take] at hn hm
    rw [List.length_take, List.length_take] at hlength
    rw [hy, Option.some_inj]
    omega

theorem le_of_mem_gaps {packet : List Byte} {start n : ℕ} {is : List ℕ}
    (his : ∀ i ∈ is, i ≤ packet.length) (h : n ∈ gaps start is) : n ≤ packet.length := by
  induction is generalizing start with
  | nil => cases h
  | cons i is ih =>
    obtain ⟨hi, his⟩ := List.forall_mem_cons.mp his
    rcases List.mem_cons.mp h with rfl | h
    · omega
    · exact ih his h

/-- **Cropping.** The packet is cropped as it should be exactly when the FCS is right before the
first flag, or the first later flag with a right FCS is as far as the first number of bytes
between two flags with one. -/
theorem crops_cropped_iff (packet : List Byte) :
    Crops packet (cropped packet) ↔
      ∀ first rest, flags packet = first :: rest →
        fcsOk (packet.take first) = true ∨
          firstOk packet rest = firstOk packet (gaps (first + 1) rest) := by
  have hflags : ∀ i ∈ flags packet, i ≤ packet.length := fun i hi =>
    (List.mem_range.mp (List.mem_filter.mp hi).1).le
  rw [crops_iff, cropped, map_firstOk_inj hflags fun n hn => le_of_mem_gaps hflags hn]
  cases hcases : flags packet with
  | nil => simp [gaps]
  | cons first rest =>
    have hunfold : (firstOk packet (first :: rest) = firstOk packet (gaps 0 (first :: rest))) ↔
        (fcsOk (packet.take first) = true ∨
          firstOk packet rest = firstOk packet (gaps (first + 1) rest)) := by
      rw [gaps, firstOk, firstOk, List.find?_cons, List.find?_cons, Nat.sub_zero]
      cases fcsOk (packet.take first) <;> simp [firstOk]
    rw [hunfold]
    constructor
    · rintro h _ _ heq
      obtain ⟨rfl, rfl⟩ := List.cons.inj heq
      exact h
    · exact fun h => h first rest rfl

/-- A payload with a flag in it: the packet is lost. -/
theorem not_crops_cropped : ¬ ∀ packet, Crops packet (cropped packet) := by
  intro h
  have hlost := crops_iff.mp (h (appendFcs [1, 0x7e, 2] ++ [0x7e]))
  revert hlost
  decide +kernel

end GrSatellites.Yusat
