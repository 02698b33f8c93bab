import GrSatellites.Ax100.Model

/-!
# What an AX100 decoder uses of its buffer

The bytes that the decoder uses are as many as the first one announces. A PDU that holds
them all is decoded in the same way whatever the buffer held before.
-/

namespace GrSatellites.Ax100

open Buffer Fec

variable {data data' msg : List Byte}

/-- The PDU holds its first byte and, unless it announces less than the shortest word, all the
bytes that this byte announces. -/
def Whole (msg : List Byte) : Prop :=
  msg ≠ [] ∧ (34 ≤ (msg.getD 0 0).toNat → (msg.getD 0 0).toNat ≤ msg.length)

theorem getD_copyInto (hmsg : msg ≠ []) (hdata : data ≠ []) :
    (copyInto data msg).getD 0 0 = msg.getD 0 0 := by
  have htake := take_copyInto (n := 1) (List.length_pos_iff.mpr hmsg) (List.length_pos_iff.mpr hdata)
  have hget (xs : List Byte) : xs.getD 0 0 = (xs.take 1).getD 0 0 := by
    cases xs <;> rfl
  rw [hget, htake, ← hget]

theorem length_handleMsg (rs : Rs8) (hdata : data.length = dataLen) (msg : List Byte) :
    (handleMsg rs data msg).1.length = dataLen := by
  have hcopy : (copyInto data msg).length = dataLen := by rw [length_copyInto, hdata]
  simp only [handleMsg]
  cases hdecode : rs.decodeRs8 ((copyInto data msg).drop 1)
    (255 - ((copyInto data msg).getD 0 0).toNat + 1) with
  | none => exact hcopy
  | some result =>
    obtain ⟨packet, _⟩ := result
    have hpacket := rs.length_decodeRs8 hdecode
    have hlength : ((copyInto data msg).take 1 ++ packet).length = dataLen := by
      rw [List.length_append, List.length_take, hpacket, List.length_drop, hcopy]
      rfl
    simp only
    split <;> exact hlength

/-- **Two buffers.** A whole PDU is decoded alike in any two buffers. -/
theorem handleMsg_congr (rs : Rs8) (hdata : data.length = dataLen) (hdata' : data'.length = dataLen)
    (h : Whole msg) : (handleMsg rs data msg).2 = (handleMsg rs data' msg).2 := by
  obtain ⟨hmsg, hwhole⟩ := h
  have hne (data : List Byte) (hdata : data.length = dataLen) : data ≠ [] := by
    rintro rfl
    cases hdata
  simp only [handleMsg, getD_copyInto hmsg (hne data hdata), getD_copyInto hmsg (hne data' hdata')]
  have hbyte := (msg.getD 0 0).isLt
  generalize (msg.getD 0 0).toNat = first at hwhole hbyte
  rcases Nat.lt_or_ge first 34 with hshort | hlong
  · have hpad : (255 - first + 1 : ℤ) < 0 ∨ 222 < (255 - first + 1 : ℤ) := by omega
    simp only [Rs8.decodeRs8, if_pos hpad]
  · have htake (data : List Byte) (hdata : data.length = dataLen) :
        ((copyInto data msg).drop 1).take (first - 1) = (msg.take first).drop 1 := by
      rw [← List.drop_take, take_copyInto (hwhole hlong) (by rw [hdata, dataLen]; omega)]
    have hused : nn - (255 - first + 1 : ℤ).toNat ≤ first - 1 := by
      rw [nn]
      omega
    have hcongr := rs.decodeRs8_congr hused ((htake data hdata).trans (htake data' hdata').symm)
    cases hdecode : rs.decodeRs8 ((copyInto data msg).drop 1) (255 - first + 1) with
    | none =>
      rw [hdecode, Option.map_none] at hcongr
      rw [Option.map_eq_none_iff.mp hcongr.symm]
    | some result =>
      rw [hdecode] at hcongr
      obtain ⟨result', hdecode', hresult⟩ := Option.map_eq_some_iff.mp hcongr.symm
      obtain ⟨hpacket, _⟩ := Prod.mk.inj hresult
      have hframe : (first - 32 - 1 : ℤ).toNat ≤ first - 1 := by omega
      have hpublished : result'.1.take (first - 32 - 1 : ℤ).toNat =
          result.1.take (first - 32 - 1 : ℤ).toNat := by
        rw [← Nat.min_eq_left hframe, ← List.take_take, ← List.take_take, hpacket]
      rw [hdecode']
      simp only [hpublished]
      split <;> rfl

end GrSatellites.Ax100
