import GrSatellites.Basic
import GrSatellites.Library.Search

/-!
# The K2SAT deframer

The block of `python/k2sat_deframer.py`, which looks for the end of a packet by its marker and its
CRC. The place of a marker is found from a moving start, and the start is then set from it
alone.
-/

namespace GrSatellites.K2sat

open Search

/-- An entry of `crc_table`. -/
def crcTable (i : Byte) : BitVec 16 :=
  let part (k : ℕ) (x : BitVec 16) : BitVec 16 := if i.getLsbD k then x else 0
  part 0 0x1021 ^^^ part 1 0x2042 ^^^ part 2 0x4084 ^^^ part 3 0x8108 ^^^ part 4 0x1231 ^^^
    part 5 0x2462 ^^^ part 6 0x48C4 ^^^ part 7 0x9188

/-- One round of the loop of `check_packet`. -/
def crcStep (checksum : BitVec 16) (d : Byte) : BitVec 16 :=
  ((checksum <<< 8) &&& 0xFF00) ^^^ crcTable ((checksum >>> 8).setWidth 8 ^^^ d)

/-- `check_packet`. -/
def checkPacket (packet : List Byte) : Bool := ((0x7e : Byte) :: packet).foldl crcStep 0xFFFF = 0

/-- The end of packet marker. -/
def marker : List Byte := [0x7e, 0x55, 0x55, 0x55]

/-- The loop of `handle_msg`, with a bound for the number of rounds: the PDUs published. -/
def searchLoop (packet : List Byte) : ℕ → ℕ → Option (List (List Byte))
  | 0, _ => none
  | rounds + 1, start =>
    match find marker (packet.drop start) with
    | none => some []
    | some idx =>
      let out := if checkPacket (packet.take idx) then [packet] else []
      (searchLoop packet rounds (idx + 2)).map (out ++ ·)

/-- `handle_msg` returns after these PDUs. -/
def Publishes (packet : List Byte) (pdus : List (List Byte)) : Prop :=
  ∃ rounds, searchLoop packet rounds 0 = some pdus

/-- The places of the markers. -/
abbrev markers (packet : List Byte) : List ℕ := occurrences marker packet

/-- What should be published: for each marker after a packet with the right CRC, the packet
without its CRC. -/
def packets (packet : List Byte) : List (List Byte) :=
  ((markers packet).filter fun i => checkPacket (packet.take i)).map fun i => packet.take (i - 2)

theorem marker_ne_nil : marker ≠ [] := by decide

theorem searchLoop_of_find {packet : List Byte} {start idx : ℕ} (rounds : ℕ)
    (h : find marker (packet.drop start) = some idx) :
    searchLoop packet (rounds + 1) start = (searchLoop packet rounds (idx + 2)).map
      ((if checkPacket (packet.take idx) then [packet] else []) ++ ·) := by
  rw [searchLoop, h]

theorem searchLoop_of_find_none {packet : List Byte} {start : ℕ} (rounds : ℕ)
    (h : find marker (packet.drop start) = none) : searchLoop packet (rounds + 1) start = some [] := by
  rw [searchLoop, h]

/-! ## Termination -/

/-- Markers do not overlap. -/
theorem two_le_of_lt {packet : List Byte} {i j : ℕ} (hi : i ∈ markers packet)
    (hj : j ∈ markers packet) (hlt : i < j) : i + 2 ≤ j := by
  rw [mem_occurrences marker_ne_nil] at hi hj
  by_contra hshort
  obtain rfl : j = i + 1 := by omega
  obtain ⟨rest, hrest⟩ := hi
  obtain ⟨rest', hrest'⟩ := hj
  rw [← List.drop_drop, ← hrest] at hrest'
  cases hrest'

/-- From the third byte on, the start never gets past the last marker. -/
theorem searchLoop_eq_none {packet : List Byte} {last : ℕ} (hlast : last ∈ markers packet)
    (rounds : ℕ) {start : ℕ} (htwo : 2 ≤ start) (hle : start ≤ last) :
    searchLoop packet rounds start = none := by
  induction rounds generalizing start with
  | zero => rfl
  | succ rounds ih =>
    cases hfind : find marker (packet.drop start) with
    | none =>
      have := (find_drop_eq_none_iff marker_ne_nil).mp hfind last hlast
      omega
    | some idx =>
      have := ((find_drop_eq_some_iff marker_ne_nil).mp hfind).2 last hlast hle
      rw [searchLoop_of_find rounds hfind, ih (by omega) (by omega), Option.map_none]

/-- With two markers the loop never ends. -/
theorem not_publishes_of_two {packet : List Byte} {i j : ℕ} {rest : List ℕ}
    (h : markers packet = i :: j :: rest) (hlt : i < j) (pdus : List (List Byte)) :
    ¬ Publishes packet pdus := by
  have hi : i ∈ markers packet := by simp [h]
  have hj : j ∈ markers packet := by simp [h]
  rintro ⟨rounds, hloop⟩
  suffices hnone : searchLoop packet rounds 0 = none by
    rw [hnone] at hloop
    cases hloop
  clear hloop
  cases rounds with
  | zero => rfl
  | succ rounds =>
    cases hfind : find marker (packet.drop 0) with
    | none =>
      have := (find_drop_eq_none_iff marker_ne_nil).mp hfind i hi
      omega
    | some first =>
      obtain ⟨hfirst, hleast⟩ := (find_drop_eq_some_iff marker_ne_nil).mp hfind
      rw [Nat.zero_add] at hfirst hleast
      have hle := hleast i hi (Nat.zero_le i)
      have hnext := two_le_of_lt hfirst hj (by omega)
      rw [searchLoop_of_find rounds hfind, searchLoop_eq_none hj rounds (by omega) hnext,
        Option.map_none]

theorem markers_cases (packet : List Byte) :
    markers packet = [] ∨ (∃ i, markers packet = [i]) ∨
      ∃ i j rest, markers packet = i :: j :: rest ∧ i < j := by
  have hsorted := pairwise_occurrences marker packet
  match h : markers packet with
  | [] => exact Or.inl rfl
  | [i] => exact Or.inr (Or.inl ⟨i, rfl⟩)
  | i :: j :: rest =>
    rw [← markers, h] at hsorted
    exact Or.inr (Or.inr ⟨i, j, rest, rfl, List.rel_of_pairwise_cons hsorted List.mem_cons_self⟩)

theorem publishes_of_nil {packet : List Byte} (h : markers packet = []) :
    Publishes packet [] := by
  refine ⟨1, searchLoop_of_find_none 0 ?_⟩
  rw [find_drop_eq_none_iff marker_ne_nil, ← markers, h]
  simp

/-- With one marker the whole packet is published if the CRC before the marker is right. -/
theorem publishes_of_singleton {packet : List Byte} {i : ℕ} (h : markers packet = [i])
    {pdus : List (List Byte)} :
    Publishes packet pdus ↔ pdus = if checkPacket (packet.take i) then [packet] else [] := by
  have hfirst : find marker (packet.drop 0) = some i := by
    rw [find_drop_eq_some_iff marker_ne_nil, ← markers, h]
    simp
  have hlast : find marker (packet.drop (i + 2)) = none := by
    rw [find_drop_eq_none_iff marker_ne_nil, ← markers, h]
    simp
  have htwo (rounds : ℕ) : searchLoop packet (rounds + 2) 0 =
      some (if checkPacket (packet.take i) then [packet] else []) := by
    rw [searchLoop_of_find _ hfirst, searchLoop_of_find_none _ hlast, Option.map_some,
      List.append_nil]
  constructor
  · rintro ⟨rounds, hloop⟩
    match rounds with
    | 0 => cases hloop
    | 1 =>
      rw [searchLoop_of_find _ hfirst] at hloop
      cases hloop
    | rounds + 2 =>
      rw [htwo] at hloop
      exact (Option.some.inj hloop).symm
  · rintro rfl
    exact ⟨2, htwo 0⟩

/-- **Termination.** The loop ends exactly when there is one marker at most. -/
theorem searchLoop_ends_iff (packet : List Byte) :
    (∃ pdus, Publishes packet pdus) ↔ (markers packet).length ≤ 1 := by
  rcases markers_cases packet with h | ⟨i, h⟩ | ⟨i, j, rest, h, hlt⟩
  · exact iff_of_true ⟨[], publishes_of_nil h⟩ (by simp [h])
  · exact iff_of_true ⟨_, (publishes_of_singleton h).mpr rfl⟩ (by simp [h])
  · refine iff_of_false ?_ (by simp [h])
    rintro ⟨pdus, hpublishes⟩
    exact not_publishes_of_two h hlt pdus hpublishes

/-- Two markers, one after the other. -/
theorem not_searchLoop_ends : ¬ ∀ packet, ∃ pdus, Publishes packet pdus := by
  intro h
  obtain ⟨pdus, hpublishes⟩ := h (marker ++ marker)
  have hmarkers : markers (marker ++ marker) = [0, 4] := by decide
  exact not_publishes_of_two hmarkers (by decide) pdus hpublishes

/-! ## Output -/

theorem packets_of_singleton {packet : List Byte} {i : ℕ} (h : markers packet = [i]) :
    packets packet = if checkPacket (packet.take i) then [packet.take (i - 2)] else [] := by
  rw [packets, h, List.filter_singleton]
  cases checkPacket (packet.take i) <;> rfl

/-- **Output.** What is published is what should be only where that is nothing: there is one
marker at most, and the CRC before it is wrong. -/
theorem publishes_packets_iff (packet : List Byte) :
    Publishes packet (packets packet) ↔
      (markers packet).length ≤ 1 ∧ ∀ i ∈ markers packet, checkPacket (packet.take i) = false := by
  rcases markers_cases packet with h | ⟨i, h⟩ | ⟨i, j, rest, h, hlt⟩
  · refine iff_of_true ?_ (by simp [h])
    have hnone : packets packet = [] := by rw [packets, h]; rfl
    rw [hnone]
    exact publishes_of_nil h
  · rw [publishes_of_singleton h, packets_of_singleton h, h]
    cases hcheck : checkPacket (packet.take i) with
    | false => simp [hcheck]
    | true =>
      have hmem : i ∈ markers packet := by simp [h]
      have hlong : 4 ≤ (packet.drop i).length :=
        ((mem_occurrences marker_ne_nil).mp hmem).length_le
      rw [List.length_drop] at hlong
      refine iff_of_false (fun hsame => ?_) (by simp [hcheck])
      have hlength := congrArg List.length (List.singleton_inj.mp hsame)
      rw [List.length_take] at hlength
      omega
  · exact iff_of_false (not_publishes_of_two h hlt _) (by simp [h])

/-- A packet with the right CRC is published whole, with its CRC and its marker. -/
theorem not_publishes_packets : ¬ ∀ packet, Publishes packet (packets packet) := by
  intro h
  have hwhole := h ([0x41, 0x6e, 0xbc] ++ marker)
  rw [publishes_of_singleton (i := 3) (by decide)] at hwhole
  revert hwhole
  decide

end GrSatellites.K2sat
