import Mathlib

/-!
# Files as byte arrays

Seeking to a position and writing there. The part that is skipped over past the end of
the file reads as zeros, and writing nothing leaves the file alone.
-/

namespace GrSatellites.ByteFile

variable {α : Type} [Zero α]

/-- `seek` to a position and `write` some data. -/
def writeAt (file : List α) (position : ℕ) (data : List α) : List α :=
  if data = [] then file
  else
    file.take position ++ List.replicate (position - file.length) 0 ++ data ++
      file.drop (position + data.length)

theorem writeAt_nil (file : List α) (position : ℕ) : writeAt file position [] = file := if_pos rfl

/-- Writing at the end of a file. -/
theorem writeAt_length (file data : List α) : writeAt file file.length data = file ++ data := by
  by_cases hdata : data = []
  · rw [hdata, writeAt_nil, List.append_nil]
  · rw [writeAt, if_neg hdata, List.take_length, Nat.sub_self, List.replicate_zero, List.append_nil,
      List.drop_eq_nil_of_le (by omega), List.append_nil]

/-- What is found at each place after writing. -/
theorem getElem?_writeAt (file : List α) (position : ℕ) (data : List α) (i : ℕ) :
    (writeAt file position data)[i]? =
      if position ≤ i ∧ i < position + data.length then data[i - position]?
      else if i < file.length then file[i]?
      else if i < position ∧ data ≠ [] then some 0
      else none := by
  by_cases hdata : data = []
  · subst hdata
    rw [writeAt_nil, List.length_nil, Nat.add_zero, if_neg (by omega)]
    split
    · rfl
    · rw [List.getElem?_eq_none (by omega), if_neg (by simp)]
  · rw [writeAt, if_neg hdata, List.append_assoc, List.append_assoc]
    have htake : (file.take position).length = min position file.length := List.length_take
    by_cases hlow : i < position
    · rw [if_neg (by omega)]
      by_cases hfile : i < file.length
      · rw [if_pos hfile, List.getElem?_append_left (by omega), List.getElem?_take_of_lt hlow]
      · rw [if_neg hfile, if_pos ⟨hlow, hdata⟩, List.getElem?_append_right (by omega),
          List.getElem?_append_left (by rw [List.length_replicate]; omega),
          List.getElem?_replicate_of_lt (by omega)]
    · rw [List.getElem?_append_right (by omega), List.getElem?_append_right (by
        rw [List.length_replicate]; omega), List.length_replicate]
      have hskip : i - (file.take position).length - (position - file.length) = i - position := by
        omega
      rw [hskip]
      by_cases hmid : i < position + data.length
      · rw [if_pos ⟨by omega, hmid⟩, List.getElem?_append_left (by omega)]
      · rw [if_neg fun h => hmid h.2, List.getElem?_append_right (by omega), List.getElem?_drop]
        have hback : position + data.length + (i - position - data.length) = i := by omega
        rw [hback]
        split
        · rfl
        · rw [List.getElem?_eq_none (by omega), if_neg fun h => hlow h.1]

/-! ## Pieces of one content -/

/-- A file into which places of a content have been written: it holds the content there
and zeros at the places skipped over, and ends at the last place written. -/
structure HoldsAt (content : List α) (written : ℕ → Prop) (file : List α) : Prop where
  bounded : ∀ i, written i → i < content.length
  getElem?_written : ∀ i, written i → file[i]? = content[i]?
  getElem?_gap : ∀ i j, ¬ written i → i < j → written j → file[i]? = some 0
  getElem?_beyond : ∀ i, (∀ j, i ≤ j → ¬ written j) → file[i]? = none

variable {content file : List α} {written : ℕ → Prop}

theorem holdsAt_nil (content : List α) : HoldsAt content (fun _ => False) [] :=
  ⟨fun _ h => h.elim, fun _ h => h.elim, fun _ _ _ _ h => h.elim, fun _ _ => rfl⟩

/-- Only one file holds a content at given places. -/
theorem HoldsAt.unique {file' : List α} (h : HoldsAt content written file)
    (h' : HoldsAt content written file') : file = file' := by
  refine List.ext_getElem? fun i => ?_
  by_cases hi : written i
  · rw [h.getElem?_written i hi, h'.getElem?_written i hi]
  · by_cases hlater : ∃ j, i < j ∧ written j
    · obtain ⟨j, hij, hj⟩ := hlater
      rw [h.getElem?_gap i j hi hij hj, h'.getElem?_gap i j hi hij hj]
    · have hnone : ∀ j, i ≤ j → ¬ written j := by
        rintro j hij hj
        rcases Nat.eq_or_lt_of_le hij with rfl | hlt
        · exact hi hj
        · exact hlater ⟨j, hlt, hj⟩
      rw [h.getElem?_beyond i hnone, h'.getElem?_beyond i hnone]

/-- Every place of the file lies at or below a place written. -/
theorem HoldsAt.exists_written (h : HoldsAt content written file) {i : ℕ} (hi : i < file.length) :
    ∃ j, i ≤ j ∧ written j := by
  by_contra hnone
  have hbeyond := h.getElem?_beyond i fun j hij hj => hnone ⟨j, hij, hj⟩
  rw [List.getElem?_eq_getElem hi] at hbeyond
  cases hbeyond

/-- **Writing a piece.** A piece of the content written at its place adds its places. -/
theorem HoldsAt.writeAt (h : HoldsAt content written file) {position : ℕ} {data : List α}
    (hpiece : ∀ k < data.length, data[k]? = content[position + k]?)
    (hend : position + data.length ≤ content.length) :
    HoldsAt content (fun i => written i ∨ (position ≤ i ∧ i < position + data.length))
      (writeAt file position data) := by
  have hinside (i : ℕ) (hi : written i) : i < file.length := by
    by_contra hout
    have hnone := h.getElem?_written i hi
    rw [List.getElem?_eq_none (by omega), List.getElem?_eq_getElem (h.bounded i hi)] at hnone
    cases hnone
  refine ⟨?_, ?_, ?_, ?_⟩
  · rintro i (hi | hi)
    · exact h.bounded i hi
    · omega
  · intro i hi
    rw [getElem?_writeAt]
    by_cases hnew : position ≤ i ∧ i < position + data.length
    · rw [if_pos hnew, hpiece _ (by omega), Nat.add_sub_cancel' hnew.1]
    · have hold := hi.resolve_right hnew
      rw [if_neg hnew, if_pos (hinside i hold), h.getElem?_written i hold]
  · rintro i j hi hij hj
    obtain ⟨hold, hnew⟩ := not_or.mp hi
    rw [getElem?_writeAt, if_neg hnew]
    by_cases hfile : i < file.length
    · obtain ⟨k, hik, hk⟩ := h.exists_written hfile
      have hne : i ≠ k := fun heq => hold (heq ▸ hk)
      rw [if_pos hfile, h.getElem?_gap i k hold (by omega) hk]
    · have hlast : ¬ written j := fun hj => by
        have := hinside j hj
        omega
      have hj := hj.resolve_left hlast
      have hdata : data ≠ [] := by
        rintro rfl
        rw [List.length_nil] at hj
        omega
      rw [if_neg hfile, if_pos ⟨by omega, hdata⟩]
  · intro i hi
    have hnone : file[i]? = none := h.getElem?_beyond i fun j hij hj => hi j hij (.inl hj)
    have hlow : ¬ (i < position ∧ data ≠ []) := by
      rintro ⟨hlt, hdata⟩
      have hpos := List.length_pos_iff.mpr hdata
      exact hi position hlt.le (.inr ⟨le_refl _, by omega⟩)
    rw [getElem?_writeAt, if_neg fun hnew => hi i (le_refl i) (.inr hnew), if_neg hlow, hnone,
      ite_self]

/-! ## Pieces in order -/

/-- A file made of pieces: each is at its position, what is skipped over reads as zeros, and the
file does not go on after the last one. -/
structure MadeOf (pieces : List (ℕ × List α)) (file : List α) : Prop where
  piece : ∀ p ∈ pieces, ∀ k < p.2.length, file[p.1 + k]? = p.2[k]?
  gap : ∀ i < file.length, (∀ p ∈ pieces, ¬(p.1 ≤ i ∧ i < p.1 + p.2.length)) → file[i]? = some 0
  ends : ∀ i < file.length, ∃ p ∈ pieces, i < p.1 + p.2.length

theorem madeOf_nil : MadeOf [] ([] : List α) where
  piece _ hp := nomatch hp
  gap _ hi := nomatch hi
  ends _ hi := nomatch hi

/-- **The next piece.** A piece that starts where the others have ended is added. -/
theorem MadeOf.writeAt {pieces : List (ℕ × List α)} {file : List α} (h : MadeOf pieces file)
    {position : ℕ} (data : List α) (hlater : ∀ p ∈ pieces, p.1 + p.2.length ≤ position) :
    MadeOf (pieces ++ [(position, data)]) (writeAt file position data) := by
  have hlength : file.length ≤ position := by
    by_contra hlong
    obtain ⟨p, hp, hend⟩ := h.ends position (by omega)
    have := hlater p hp
    omega
  have hend : (ByteFile.writeAt file position data).length ≤ position + data.length := by
    by_contra hlong
    have hnone := getElem?_writeAt file position data (position + data.length)
    rw [if_neg (by omega), if_neg (by omega), if_neg (by omega),
      List.getElem?_eq_getElem (by omega)] at hnone
    cases hnone
  refine ⟨fun p hp k hk => ?_, fun i hi hout => ?_, fun i hi => ?_⟩
  · rw [getElem?_writeAt]
    rcases List.mem_append.mp hp with hp | hp
    · have hp' := hlater p hp
      have hpk : file[p.1 + k]? = p.2[k]? := h.piece p hp k hk
      have hin : p.1 + k < file.length := by
        rw [List.getElem?_eq_getElem hk] at hpk
        exact (List.getElem?_eq_some_iff.mp hpk).1
      rw [if_neg (by omega), if_pos hin, hpk]
    · obtain rfl := List.mem_singleton.mp hp
      have hk' : position + k < position + data.length := Nat.add_lt_add_left hk position
      rw [if_pos ⟨Nat.le_add_right _ _, hk'⟩, Nat.add_sub_cancel_left]
  · have hnew := hout (position, data) (by simp)
    rw [getElem?_writeAt, if_neg hnew]
    by_cases hfile : i < file.length
    · rw [if_pos hfile]
      exact h.gap i hfile fun p hp => hout p (List.mem_append_left _ hp)
    · have hskipped : i < position ∧ data ≠ [] := by
        have hsome := getElem?_writeAt file position data i
        rw [if_neg hnew, if_neg hfile, List.getElem?_eq_getElem hi] at hsome
        by_contra hnot
        rw [if_neg hnot] at hsome
        cases hsome
      rw [if_neg hfile, if_pos hskipped]
  · by_cases hdata : data = []
    · subst hdata
      rw [writeAt_nil] at hi
      obtain ⟨p, hp, hip⟩ := h.ends i hi
      exact ⟨p, List.mem_append_left _ hp, hip⟩
    · exact ⟨(position, data), by simp, by
        show i < position + data.length
        omega⟩

/-- Writing the end of a file once more. -/
theorem writeAt_append (file data : List α) :
    writeAt (file ++ data) file.length data = file ++ data := by
  by_cases hdata : data = []
  · rw [hdata, writeAt_nil]
  · rw [writeAt, if_neg hdata, List.take_left, Nat.sub_eq_zero_of_le (by simp),
      List.replicate_zero, List.append_nil, List.drop_eq_nil_of_le (by simp), List.append_nil]

end GrSatellites.ByteFile
