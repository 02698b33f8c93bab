import GrSatellites.Rs.Model

/-!
# The loops over the paths

What the loops of the encoder and of the decoder leave in the output frame, path by path, and
that nothing of what was in the buffers is left there.
-/

namespace GrSatellites.Rs

open Buffer Interleave

variable {nn nroots depth pad n : ℕ} {codec : Codec nn nroots} {input path codeword : List Byte}
  {paths : ℕ → List Byte} {b : Buffers}

theorem length_resize (buffer : List Byte) (size : ℕ) : (resize buffer size).length = size := by
  rw [resize, List.length_append, List.length_take, List.length_replicate]
  omega

/-! ## One path -/

/-- The data of a codeword, up to the end of a path. -/
theorem take_fillPath (codeword : List Byte) (pad : ℕ) (path : List Byte) :
    (fillPath codeword pad path).take (pad + path.length) = List.replicate pad 0 ++ path := by
  have hlength : pad ≤ (List.replicate pad 0 ++ codeword.drop pad).length := by simp
  rw [fillPath, take_writeAt hlength, List.take_left' List.length_replicate]

theorem length_fillPath (hpath : pad + path.length ≤ codeword.length) :
    (fillPath codeword pad path).length = codeword.length := by
  have hlength : (List.replicate pad (0 : Byte) ++ codeword.drop pad).length = codeword.length := by
    rw [List.length_append, List.length_replicate, List.length_drop]
    omega
  rw [fillPath, length_writeAt (hpath.trans_eq hlength.symm), hlength]

/-- A path that goes to the end of the codeword. -/
theorem fillPath_eq (hpath : pad + path.length = codeword.length) :
    fillPath codeword pad path = List.replicate pad 0 ++ path := by
  have hwhole := take_fillPath codeword pad path
  rwa [List.take_of_length_le (by rw [length_fillPath hpath.le, hpath])] at hwhole

/-- What the encoder sends for a path: the path and its parity symbols. -/
def Codec.encodePath (codec : Codec nn nroots) (pad : ℕ) (path : List Byte) : List Byte :=
  path ++ codec.encode (List.replicate pad 0 ++ path)

theorem Codec.length_encodePath (codec : Codec nn nroots) (pad : ℕ) (path : List Byte) :
    (codec.encodePath pad path).length = path.length + nroots := by
  rw [Codec.encodePath, List.length_append, codec.length_encode]

theorem Codec.encodeRs_fillPath (codec : Codec nn nroots) (hroots : nroots ≠ 0)
    (hpath : pad + path.length + nroots = nn) :
    codec.encodeRs (fillPath codeword pad path) =
      .ok (List.replicate pad 0 ++ codec.encodePath pad path) := by
  have hdata : nn - nroots = pad + path.length := by omega
  rw [Codec.encodeRs, if_neg hroots, hdata, take_fillPath, Codec.encodePath,
    List.append_assoc]

/-! ## The encoder -/

/-- **Encoding.** The loop writes the encoded paths. -/
theorem encodePaths_eq (hroots : nroots ≠ 0) (hpad : pad + n + nroots = nn) (js : List ℕ)
    (hb : b.codeword.length = nn) :
    ∃ codeword, codeword.length = nn ∧ encodePaths codec depth n pad input js b =
      .ok ⟨codeword, scatterAll depth
        (fun j => codec.encodePath pad (gather input depth n j)) js b.outputFrame⟩ := by
  induction js generalizing b with
  | nil => exact ⟨b.codeword, hb, rfl⟩
  | cons j js ih =>
    have hlength := codec.length_encodePath pad (gather input depth n j)
    rw [length_gather] at hlength
    have hencode : codec.encodeRs (fillPath b.codeword pad (gather input depth n j)) =
        .ok (List.replicate pad 0 ++ codec.encodePath pad (gather input depth n j)) :=
      codec.encodeRs_fillPath hroots (by rwa [length_gather])
    have hout : ((List.replicate pad 0 ++ codec.encodePath pad (gather input depth n j)).drop
        pad).take (n + nroots) = codec.encodePath pad (gather input depth n j) := by
      rw [List.drop_left' List.length_replicate, List.take_of_length_le hlength.le]
    obtain ⟨codeword, hcodeword, hrest⟩ := ih (b := ⟨List.replicate pad 0 ++ codec.encodePath pad
      (gather input depth n j), scatter depth b.outputFrame j
        (codec.encodePath pad (gather input depth n j))⟩) (by
      rw [List.length_append, List.length_replicate, hlength]
      omega)
    refine ⟨codeword, hcodeword, ?_⟩
    rw [encodePaths, if_neg (by omega), hencode]
    simp only [bind, Except.bind, hout]
    exact hrest

/-- Without roots, the first path makes the encoder fail. -/
theorem encodePaths_of_no_roots (hroots : nroots = 0) {js : List ℕ} (hjs : js ≠ []) :
    encodePaths codec depth n pad input js b = .error .outOfBounds := by
  obtain ⟨j, js, rfl⟩ := List.exists_cons_of_ne_nil hjs
  rw [encodePaths]
  split
  · rfl
  · rw [Codec.encodeRs, if_pos hroots]
    rfl

/-- The encoder never changes the size of the output frame. -/
theorem length_outputFrame {js : List ℕ} {b' : Buffers}
    (h : encodePaths codec depth n pad input js b = .ok b') :
    b'.outputFrame.length = b.outputFrame.length := by
  induction js generalizing b with
  | nil =>
    cases h
    rfl
  | cons j js ih =>
    rw [encodePaths] at h
    split at h
    case isTrue => cases h
    case isFalse =>
      cases hencode : codec.encodeRs (fillPath b.codeword pad (gather input depth n j)) with
      | error e =>
        rw [hencode] at h
        cases h
      | ok codeword =>
        rw [hencode] at h
        exact (ih h).trans (length_scatter _ _ _)

/-- A frame made of some paths. -/
def frameOf (depth n : ℕ) (paths : ℕ → List Byte) : List Byte :=
  scatterAll depth paths (List.range depth) (List.replicate (n * depth) 0)

theorem length_frameOf (depth n : ℕ) (paths : ℕ → List Byte) :
    (frameOf depth n paths).length = n * depth := by
  rw [frameOf, length_scatterAll, List.length_replicate]

section

variable (hpaths : ∀ j < depth, (paths j).length = n)

include hpaths

theorem gather_scatterAll_range {out : List Byte} (hout : out.length = n * depth) {i : ℕ}
    (hi : i < depth) :
    gather (scatterAll depth paths (List.range depth) out) depth n i = paths i := by
  rw [gather_scatterAll (fun j hj => List.mem_range.mp hj)
    (fun j hj => hpaths j (List.mem_range.mp hj)) hout hi, if_pos (List.mem_range.mpr hi)]

theorem gather_frameOf {i : ℕ} (hi : i < depth) :
    gather (frameOf depth n paths) depth n i = paths i :=
  gather_scatterAll_range hpaths List.length_replicate hi

/-- Whatever the buffer contained, it becomes the frame. -/
theorem scatterAll_range (hdepth : 0 < depth) {out : List Byte} (hout : out.length = n * depth) :
    scatterAll depth paths (List.range depth) out = frameOf depth n paths := by
  refine eq_of_gather_eq hdepth (by rwa [length_scatterAll]) (length_frameOf depth n paths) ?_
  intro j hj
  rw [gather_scatterAll_range hpaths hout hj, gather_frameOf hpaths hj]

end

/-! ## The decoder -/

/-- **Decoding.** If every path is decoded, the loop writes what the paths contain and adds up
the numbers of errors. -/
theorem decodePaths_eq {corrected : ℕ → List Byte} {count : ℕ → ℕ} (js : List ℕ) (errors : ℕ)
    (hpad : pad + n = nn) (hb : b.codeword.length = nn)
    (hdecode : ∀ j ∈ js, codec.decode (List.replicate pad 0 ++ gather input depth n j) =
      some (List.replicate pad 0 ++ corrected j, count j)) :
    ∃ codeword, decodePaths codec depth n pad input js b errors =
      (⟨codeword, scatterAll depth (fun j => (corrected j).take (n - nroots)) js b.outputFrame⟩,
        some (errors + (js.map count).sum)) := by
  induction js generalizing b errors with
  | nil => exact ⟨b.codeword, rfl⟩
  | cons j js ih =>
    have hfill : fillPath b.codeword pad (gather input depth n j) =
        List.replicate pad 0 ++ gather input depth n j :=
      fillPath_eq (by rw [length_gather, hpad, hb])
    have hj := hdecode j List.mem_cons_self
    have hlength : (List.replicate pad 0 ++ corrected j).length = nn := by
      rw [codec.length_decode hj, List.length_append, List.length_replicate, length_gather, hpad]
    obtain ⟨codeword, hrest⟩ := ih (b := ⟨List.replicate pad 0 ++ corrected j,
      scatter depth b.outputFrame j ((corrected j).take (n - nroots))⟩) (errors + count j) hlength
      fun i hi => hdecode i (List.mem_cons_of_mem j hi)
    refine ⟨codeword, ?_⟩
    rw [decodePaths]
    simp only [hfill, hj, List.drop_left' List.length_replicate]
    rw [hrest, List.map_cons, List.sum_cons, Nat.add_assoc]
    rfl

/-- A path that cannot be decoded ends the loop. -/
theorem decodePaths_of_none {js : List ℕ} {j : ℕ} (hpad : pad + n = nn)
    (hb : b.codeword.length = nn) (hj : j ∈ js) (errors : ℕ)
    (hdecode : codec.decode (List.replicate pad 0 ++ gather input depth n j) = none) :
    (decodePaths codec depth n pad input js b errors).2 = none := by
  induction js generalizing b errors with
  | nil => cases hj
  | cons i js ih =>
    have hfill : fillPath b.codeword pad (gather input depth n i) =
        List.replicate pad 0 ++ gather input depth n i :=
      fillPath_eq (by rw [length_gather, hpad, hb])
    rw [decodePaths]
    simp only [hfill]
    cases hi : codec.decode (List.replicate pad 0 ++ gather input depth n i) with
    | none => rfl
    | some result =>
      obtain ⟨corrected, count⟩ := result
      have hlength := codec.length_decode hi
      rw [List.length_append, List.length_replicate, length_gather, hpad] at hlength
      rcases List.mem_cons.mp hj with rfl | hmem
      · rw [hdecode] at hi
        cases hi
      · exact ih hlength hmem _

end GrSatellites.Rs
