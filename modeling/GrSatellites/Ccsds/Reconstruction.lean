import GrSatellites.Ccsds.Model

/-!
# Putting space packets together

One round of the loop moves bytes until the packet in progress is complete or the
payload is used up. The bytes of a payload are a window of the stream of packets, so a
round only moves the window.
-/

namespace GrSatellites.Ccsds

open Bits Segmentation

/-- A space packet whose header carries its length in the way the header adder writes it. -/
def ValidSpacePacket (p : List Byte) : Prop := 6 ≤ p.length ∧ dataLength p = some (p.length - 6)

instance (p : List Byte) : Decidable (ValidSpacePacket p) :=
  inferInstanceAs (Decidable (_ ∧ _))

theorem ValidSpacePacket.ne_nil {p : List Byte} (h : ValidSpacePacket p) : p ≠ [] := by
  rintro rfl
  exact absurd h.1 (by simp)

/-- The length is read from the first six bytes. -/
theorem dataLength_congr {xs ys : List Byte} (hxs : 6 ≤ xs.length) (hys : 6 ≤ ys.length)
    (h : xs.take 6 = ys.take 6) : dataLength xs = dataLength ys := by
  have hsize : sizeof spacePacketHeader = 6 := rfl
  unfold dataLength parse
  rw [hsize, if_neg (by omega), if_neg (by omega), h]

/-- Taking more bytes from a window of a stream moves them to what has been taken. -/
theorem take_append_take_window (stream : List Byte) (k l m : ℕ) :
    stream.take k ++ ((stream.drop k).take m).take l = stream.take (k + min l m) := by
  rw [List.take_take, List.take_add]

theorem drop_window (stream : List Byte) (k l m : ℕ) :
    ((stream.drop k).take m).drop l = (stream.drop (k + l)).take (m - l) := by
  rw [List.drop_take, List.drop_drop]

section Round

variable {p : List Byte} (hp : ValidSpacePacket p) (rest : List Byte)

include hp in
/-- With a whole header and `j` bytes of the packet in progress, and `n` more bytes of the
stream, the body completes the packet or uses up the payload. -/
theorem reconstructBody_eq {j n : ℕ} (hj : 6 ≤ j) (hjp : j ≤ p.length) :
    reconstructBody ((p ++ rest).take j) (((p ++ rest).drop j).take n) =
      if p.length ≤ j + n then some ([], rest.take (j + n - p.length), [p])
      else some (p.take (j + n), [], []) := by
  obtain ⟨hsix, hlength⟩ := hp
  have htake (k : ℕ) (hk : k ≤ p.length) : (p ++ rest).take k = p.take k :=
    List.take_append_of_le_length hk
  have hjlen : ((p ++ rest).take j).length = j := by
    rw [List.length_take, List.length_append]
    omega
  have hdata : dataLength ((p ++ rest).take j) = some (p.length - 6) := by
    rw [← hlength]
    refine dataLength_congr (by omega) hsix ?_
    rw [List.take_take, Nat.min_eq_left hj, htake 6 hsix]
  have hleft : ((p.length - 6 : ℕ) : ℤ) + 6 - j = ((p.length - j : ℕ) : ℤ) := by omega
  rw [reconstructBody, hdata, Option.bind_eq_bind, Option.bind_some]
  simp only [hjlen, hleft, sliceTo_natCast, sliceFrom_natCast, take_append_take_window, drop_window]
  by_cases hdone : p.length ≤ j + n
  · have hmin : j + min (p.length - j) n = p.length := by omega
    have hrest : j + (p.length - j) = p.length := by omega
    have hleftover : n - (p.length - j) = j + n - p.length := by omega
    rw [if_pos hdone, hmin, hrest, hleftover, List.take_left, List.drop_left, if_pos (by omega)]
    rfl
  · have hmin : j + min (p.length - j) n = j + n := by omega
    have hnone : n - (p.length - j) = 0 := by omega
    have hlen : (p.take (j + n)).length = j + n := by
      rw [List.length_take]
      omega
    rw [if_neg hdone, hmin, hnone, List.take_zero, htake (j + n) (by omega), hlen,
      if_neg (by omega)]
    rfl

include hp in
/-- **One round.** With `k` bytes of the packet in progress and `m` more bytes of the
stream, the round completes the packet or uses up the payload. -/
theorem reconstructRound_eq {k m : ℕ} (hk : k < p.length) :
    reconstructRound (p.take k) (((p ++ rest).drop k).take m) =
      if p.length ≤ k + m then some ([], rest.take (k + m - p.length), [p])
      else some (p.take (k + m), [], []) := by
  have hsix := hp.1
  have htake (n : ℕ) (hn : n ≤ p.length) : (p ++ rest).take n = p.take n :=
    List.take_append_of_le_length hn
  have hlen (n : ℕ) (hn : n ≤ p.length) : ((p ++ rest).take n).length = n := by
    rw [List.length_take, List.length_append]
    omega
  unfold reconstructRound
  rw [← htake k hk.le]
  by_cases hheader : k < 6
  · have hleft : (6 : ℤ) - k = ((6 - k : ℕ) : ℤ) := by omega
    simp only [hlen k hk.le, if_pos hheader, hleft, sliceTo_natCast, sliceFrom_natCast,
      take_append_take_window, drop_window]
    by_cases hshort : k + m < 6
    · have hmin : k + min (6 - k) m = k + m := by omega
      have hnone : m - (6 - k) = 0 := by omega
      rw [hmin, hlen (k + m) (by omega), if_neg (by omega), if_neg (by omega), hnone,
        List.take_zero, htake (k + m) (by omega)]
    · have hmin : k + min (6 - k) m = 6 := by omega
      have hdrop : k + (6 - k) = 6 := by omega
      have hsum : 6 + (m - (6 - k)) = k + m := by omega
      rw [hmin, hdrop, if_pos (hlen 6 hsix).ge, reconstructBody_eq hp rest (le_refl 6) hsix, hsum]
  · simp only [hlen k hk.le, if_neg hheader]
    rw [if_pos (by omega)]
    exact reconstructBody_eq hp rest (by omega) hk.le

end Round

/-- A round on a payload that is not used up, and then the rest of the loop. -/
theorem reconstructLoop_succ (rounds : ℕ) {spacePacket payload spacePacket' payload' : List Byte}
    {sent : List (List Byte)} (hne : payload ≠ [])
    (hround : reconstructRound spacePacket payload = some (spacePacket', payload', sent)) :
    reconstructLoop (rounds + 1) spacePacket payload =
      (reconstructLoop rounds spacePacket' payload').map fun (last, more) => (last, sent ++ more) := by
  obtain ⟨byte, bytes, rfl⟩ := List.exists_cons_of_ne_nil hne
  rw [reconstructLoop, hround]
  simp only [Option.bind_eq_bind, Option.bind_some]
  cases reconstructLoop rounds spacePacket' payload' <;> rfl

theorem reconstructLoop_nil (rounds : ℕ) (spacePacket : List Byte) :
    reconstructLoop rounds spacePacket [] = some (spacePacket, []) := by
  cases rounds <;> rfl

/-- **One payload.** From the part of the stream that has arrived, the loop ends with the
part that has arrived after the payload, and sends the packets completed by it. -/
theorem reconstructLoop_spec {packets : List (List Byte)} (hpackets : ∀ p ∈ packets, ValidSpacePacket p)
    (rounds n m : ℕ) (hrounds : ((packets.flatten.drop n).take m).length ≤ rounds) :
    ∃ sent, reconstructLoop rounds (partialPiece packets n) ((packets.flatten.drop n).take m) =
        some (partialPiece packets (n + m), sent) ∧
      wholePieces packets n ++ sent = wholePieces packets (n + m) := by
  induction packets generalizing rounds n m with
  | nil => exact ⟨[], by simp [reconstructLoop_nil, partialPiece], rfl⟩
  | cons p packets ih =>
    have hp := hpackets p List.mem_cons_self
    have hrest := ih fun q hq => hpackets q (List.mem_cons_of_mem p hq)
    have hne : ∀ q ∈ packets, q ≠ [] := fun q hq => (hpackets q (List.mem_cons_of_mem p hq)).ne_nil
    by_cases hn : p.length ≤ n
    · have hdrop : (p :: packets).flatten.drop n = packets.flatten.drop (n - p.length) := by
        rw [List.flatten_cons, List.drop_append, List.drop_of_length_le hn, List.nil_append]
      rw [hdrop] at hrounds ⊢
      obtain ⟨sent, hloop, hwhole⟩ := hrest _ _ _ hrounds
      have hsum : n - p.length + m = n + m - p.length := by omega
      rw [hsum] at hloop hwhole
      refine ⟨sent, ?_, ?_⟩
      · rw [partialPiece, partialPiece, if_pos hn, if_pos (by omega), hloop]
      · rw [wholePieces, wholePieces, if_pos hn, if_pos (by omega), List.cons_append, hwhole]
    · have hwhole : wholePieces (p :: packets) n = [] := by rw [wholePieces, if_neg hn]
      have hpartial : partialPiece (p :: packets) n = p.take n := by rw [partialPiece, if_neg hn]
      rw [hwhole, hpartial, List.flatten_cons]
      simp only [List.nil_append]
      cases m with
      | zero =>
        refine ⟨[], ?_, by rw [Nat.add_zero, hwhole]⟩
        rw [List.take_zero, Nat.add_zero, hpartial, reconstructLoop_nil]
      | succ m =>
        have hround := reconstructRound_eq hp packets.flatten (k := n) (m := m + 1) (by omega)
        have hlength : (((p ++ packets.flatten).drop n).take (m + 1)).length =
            min (m + 1) (p.length + packets.flatten.length - n) := by
          rw [List.length_take, List.length_drop, List.length_append]
        have hpayload : ((p ++ packets.flatten).drop n).take (m + 1) ≠ [] := by
          rw [← List.length_pos_iff, hlength]
          omega
        rw [List.flatten_cons, hlength] at hrounds
        obtain ⟨rounds, rfl⟩ : ∃ r, rounds = r + 1 := ⟨rounds - 1, by omega⟩
        by_cases hdone : p.length ≤ n + (m + 1)
        · rw [if_pos hdone] at hround
          have hnext : (packets.flatten.take (n + (m + 1) - p.length)).length ≤ rounds := by
            rw [List.length_take]
            omega
          obtain ⟨sent, hloop, hsent⟩ := hrest rounds 0 (n + (m + 1) - p.length) hnext
          rw [partialPiece_zero, List.drop_zero, Nat.zero_add] at hloop
          rw [wholePieces_zero hne, List.nil_append, Nat.zero_add] at hsent
          refine ⟨p :: sent, ?_, ?_⟩
          · rw [reconstructLoop_succ rounds hpayload hround, hloop, partialPiece, if_pos hdone]
            rfl
          · rw [wholePieces, if_pos hdone, hsent]
        · rw [if_neg hdone] at hround
          refine ⟨[], ?_, by rw [wholePieces, if_neg hdone]⟩
          rw [reconstructLoop_succ rounds hpayload hround, reconstructLoop_nil, partialPiece,
            if_neg hdone]
          rfl

end GrSatellites.Ccsds
