import GrSatellites.Basic
import GrSatellites.Library.Checked
import GrSatellites.Library.Transducer
import GrSatellites.Library.Transpose

/-!
# The matrix deinterleaver

The block of `lib/matrix_deinterleaver_soft_impl.cc`, which transposes a matrix of soft symbols and
publishes a slice of it. The vector for the whole matrix is a member of the block.
-/

namespace GrSatellites.MatrixDeinterleaver

open Checked Transducer Transpose

variable {α : Type}

/-- The arguments of the constructor, values of `int` that are not negative. -/
structure Args where
  rows : ℕ
  cols : ℕ
  outputSize : ℕ
  outputSkip : ℕ
  rows_pos : 0 < rows
  cols_pos : 0 < cols
  rows_lt : rows < 2 ^ 31
  cols_lt : cols < 2 ^ 31
  outputSize_lt : outputSize < 2 ^ 31
  outputSkip_lt : outputSkip < 2 ^ 31

/-- A sum of two values of `size_t`. -/
def addSize (a b : ℕ) : ℕ := (a + b) % 2 ^ 64

/-- A product of two values of `size_t`. -/
def mulSize (a b : ℕ) : ℕ := a * b % 2 ^ 64

/-- `max_size` of a vector of values of `float`. -/
def maxSize : ℕ := (2 ^ 63 - 1) / 4

/-- The members of the block. -/
structure Block (α : Type) where
  args : Args
  out : List α

/-- The constructor. -/
def make [Zero α] (args : Args) : Except CxxError (Block α) :=
  if mulSize args.rows args.cols < addSize args.outputSize args.outputSkip then
    .error (.runtimeError "Invalid size parameters for matrix deinterleave")
  else if maxSize < mulSize args.rows args.cols then
    .error (.lengthError "vector::_M_default_append")
  else .ok ⟨args, List.replicate (mulSize args.rows args.cols) 0⟩

/-- A message: a PDU of soft symbols, or anything else. -/
inductive SoftMsg (α : Type) where
  | f32vector (data : List α)
  | other

namespace Block

/-- The loop of `msg_handler`. -/
def deinterleave (b : Block α) (data : List α) : Except CxxError (List α) :=
  (List.range data.length).foldlM (fun out i => do
    let source := addSize (mulSize b.args.rows (i % b.args.cols)) (i / b.args.cols)
    store .outOfRange out i (← access .outOfRange data source)) b.out

/-- `init_f32vector`, which reads some symbols of the vector from a place on. -/
def initF32vector (out : List α) (skip size : ℕ) : Except CxxError (List α) :=
  if skip + size ≤ out.length then .ok ((out.drop skip).take size) else .error .outOfRange

/-- `msg_handler`, with the vectors published. -/
def msgHandler (b : Block α) : SoftMsg α → Except CxxError (Block α × List (List α))
  | .other => .error .wrongType
  | .f32vector data =>
    if data.length ≠ mulSize b.args.rows b.args.cols then .ok (b, [])
    else do
      let out ← b.deinterleave data
      let published ← initF32vector out b.args.outputSkip b.args.outputSize
      return ({ b with out := out }, [published])

/-- The states that a block can reach. -/
def Reaches (b b' : Block α) : Prop :=
  ∃ msgs published, runE msgHandler b msgs = .ok (b', published)

end Block

/-! ## Sizes -/

/-- The size of the matrix does not wrap. -/
theorem Args.mul_lt (args : Args) : args.rows * args.cols < 2 ^ 62 := by
  have hrows := args.rows_lt
  calc args.rows * args.cols < args.rows * 2 ^ 31 :=
        Nat.mul_lt_mul_of_pos_left args.cols_lt args.rows_pos
    _ ≤ 2 ^ 31 * 2 ^ 31 := Nat.mul_le_mul_right _ hrows.le
    _ = 2 ^ 62 := by norm_num

theorem Args.mulSize_eq (args : Args) : mulSize args.rows args.cols = args.rows * args.cols :=
  Nat.mod_eq_of_lt (args.mul_lt.trans (by norm_num))

theorem Args.addSize_eq (args : Args) :
    addSize args.outputSize args.outputSkip = args.outputSize + args.outputSkip := by
  have hsize := args.outputSize_lt
  have hskip := args.outputSkip_lt
  exact Nat.mod_eq_of_lt (by omega)

/-- The index of a symbol does not wrap. -/
theorem Args.source_eq (args : Args) {i : ℕ} (hi : i < args.rows * args.cols) :
    addSize (mulSize args.rows (i % args.cols)) (i / args.cols) = place args.rows args.cols i := by
  have hplace := (place_lt hi).trans args.mul_lt
  have hle : args.rows * (i % args.cols) ≤ place args.rows args.cols i := Nat.le_add_right _ _
  rw [mulSize, Nat.mod_eq_of_lt (by omega), addSize]
  exact Nat.mod_eq_of_lt (by rw [← place]; omega)

namespace Block

variable {b b' : Block α}

/-- The vector has the size of the matrix, and the slice lies in it. -/
structure WellFormed (b : Block α) : Prop where
  length_out : b.out.length = b.args.rows * b.args.cols
  fits : b.args.outputSkip + b.args.outputSize ≤ b.args.rows * b.args.cols

theorem wellFormed_of_make [Zero α] {args : Args} (h : make args = .ok b) :
    b.args = args ∧ b.WellFormed := by
  rw [make, args.mulSize_eq, args.addSize_eq] at h
  split at h
  · cases h
  · next hfits =>
    split at h
    · cases h
    · obtain rfl := Except.ok.inj h
      exact ⟨rfl, List.length_replicate, by simp only; omega⟩

/-! ## One message -/

/-- The first places of a vector hold the symbols of the transposed matrix. -/
structure Filled (b : Block α) (data : Fin (b.args.rows * b.args.cols) → α) (i : ℕ)
    (out : List α) : Prop where
  length_eq : out.length = b.args.rows * b.args.cols
  getElem?_eq : ∀ k : Fin (b.args.rows * b.args.cols), k < i →
    out[(k : ℕ)]? = some (data (transpose b.args.rows b.args.cols k))

theorem Filled.eq_ofFn {data : Fin (b.args.rows * b.args.cols) → α} {out : List α}
    (h : b.Filled data (b.args.rows * b.args.cols) out) :
    out = List.ofFn (data ∘ transpose b.args.rows b.args.cols) := by
  apply List.ext_getElem
  · rw [h.length_eq, List.length_ofFn]
  · intro k hk _
    have hlt : k < b.args.rows * b.args.cols := h.length_eq ▸ hk
    have hk' := h.getElem?_eq ⟨k, hlt⟩ hlt
    rw [List.getElem?_eq_getElem hk] at hk'
    rw [List.getElem_ofFn]
    exact Option.some.inj hk'

/-- A round of the loop fills one place. -/
theorem Filled.store {data : Fin (b.args.rows * b.args.cols) → α} {out : List α} {i : ℕ}
    (hi : i < b.args.rows * b.args.cols) (h : b.Filled data i out) :
    b.Filled data (i + 1) (out.set i (data (transpose b.args.rows b.args.cols ⟨i, hi⟩))) := by
  constructor
  · rw [List.length_set, h.length_eq]
  · intro k hk
    rcases Nat.lt_succ_iff_lt_or_eq.mp hk with hlt | heq
    · rw [List.getElem?_set_ne hlt.ne', h.getElem?_eq k hlt]
    · obtain rfl : k = ⟨i, hi⟩ := Fin.ext heq
      rw [List.getElem?_set_self (h.length_eq ▸ hi)]

/-- The loop transposes the matrix. -/
theorem deinterleave_ofFn (hb : b.WellFormed) (data : Fin (b.args.rows * b.args.cols) → α) :
    b.deinterleave (List.ofFn data) =
      .ok (List.ofFn (data ∘ transpose b.args.rows b.args.cols)) := by
  have hloop : Returns (b.deinterleave (List.ofFn data))
      (b.Filled data (List.ofFn data).length) := by
    refine Returns.foldlM_range (b.Filled data) (fun i hi out hout => ?_)
      ⟨hb.length_out, fun k hk => absurd hk (Nat.not_lt_zero k)⟩
    rw [List.length_ofFn] at hi
    have hsource : place b.args.rows b.args.cols i < (List.ofFn data).length := by
      rw [List.length_ofFn]
      exact place_lt hi
    have haccess : access CxxError.outOfRange (List.ofFn data) (place b.args.rows b.args.cols i) =
        .ok (data (transpose b.args.rows b.args.cols ⟨i, hi⟩)) := by
      rw [access_of_lt hsource, List.getElem_ofFn]
      rfl
    refine ⟨_, ?_, hout.store hi⟩
    simp only [b.args.source_eq hi, haccess, ok_bind]
    exact store_of_lt (hout.length_eq ▸ hi) _
  obtain ⟨out, hout, hfilled⟩ := hloop
  rw [List.length_ofFn] at hfilled
  rw [hout, hfilled.eq_ofFn]

/-- A PDU with the size of the matrix. -/
theorem msgHandler_ofFn (hb : b.WellFormed) (data : Fin (b.args.rows * b.args.cols) → α) :
    b.msgHandler (.f32vector (List.ofFn data)) =
      let out := List.ofFn (data ∘ transpose b.args.rows b.args.cols)
      .ok ({ b with out := out }, [(out.drop b.args.outputSkip).take b.args.outputSize]) := by
  have hfits := hb.fits
  rw [Block.msgHandler, b.args.mulSize_eq, if_neg (not_not_intro (List.length_ofFn ..)),
    deinterleave_ofFn hb data, ok_bind, initF32vector, if_pos (by rwa [List.length_ofFn])]
  rfl

theorem exists_msgHandler (hb : b.WellFormed) {args : Args} (hargs : b.args = args)
    (data : Fin (args.rows * args.cols) → α) : ∃ b',
      b.msgHandler (.f32vector (List.ofFn data)) =
          .ok (b', [((List.ofFn (data ∘ transpose args.rows args.cols)).drop
            args.outputSkip).take args.outputSize]) ∧
        b'.out = List.ofFn (data ∘ transpose args.rows args.cols) := by
  subst hargs
  exact ⟨_, msgHandler_ofFn hb data, rfl⟩

/-- A PDU with another size. -/
theorem msgHandler_of_ne {data : List α} (h : data.length ≠ b.args.rows * b.args.cols) :
    b.msgHandler (.f32vector data) = .ok (b, []) := by
  rw [Block.msgHandler, b.args.mulSize_eq, if_pos h]

/-- A list with the size of the matrix is a function on its places. -/
theorem exists_ofFn {n : ℕ} {data : List α} (h : data.length = n) :
    ∃ symbols : Fin n → α, data = List.ofFn symbols := by
  subst h
  exact ⟨data.get, (List.ofFn_get data).symm⟩

/-! ## Runs -/

theorem WellFormed.msgHandler {msg : SoftMsg α} {published : List (List α)} (hb : b.WellFormed)
    (h : b.msgHandler msg = .ok (b', published)) : b'.args = b.args ∧ b'.WellFormed := by
  cases msg with
  | other => cases h
  | f32vector data =>
    by_cases hlength : data.length = b.args.rows * b.args.cols
    · obtain ⟨symbols, rfl⟩ := exists_ofFn hlength
      rw [msgHandler_ofFn hb] at h
      obtain ⟨rfl, -⟩ := Prod.mk.inj (Except.ok.inj h)
      exact ⟨rfl, List.length_ofFn, hb.fits⟩
    · rw [msgHandler_of_ne hlength] at h
      obtain ⟨rfl, -⟩ := Prod.mk.inj (Except.ok.inj h)
      exact ⟨rfl, hb⟩

theorem WellFormed.reaches (hb : b.WellFormed) (h : b.Reaches b') :
    b'.args = b.args ∧ b'.WellFormed := by
  obtain ⟨msgs, published, hrun⟩ := h
  refine runE_inv (I := fun c => c.args = b.args ∧ c.WellFormed) ?_ ⟨rfl, hb⟩ hrun
  rintro c msg d first ⟨hargs, hc⟩ hstep
  obtain ⟨hargs', hd⟩ := hc.msgHandler hstep
  exact ⟨hargs'.trans hargs, hd⟩

/-- A block for the transposed matrix puts the symbols back. -/
theorem exists_msgHandler_transpose (hb : b.WellFormed) {m n : ℕ} (hrows : b.args.rows = n)
    (hcols : b.args.cols = m) (data : Fin (m * n) → α) :
    ∃ b' published, b.msgHandler (.f32vector (List.ofFn (data ∘ transpose m n))) =
      .ok (b', published) ∧ b'.out = List.ofFn data := by
  subst hrows hcols
  have hlength : (List.ofFn (data ∘ transpose b.args.cols b.args.rows)).length =
      b.args.rows * b.args.cols := by
    rw [List.length_ofFn, Nat.mul_comm]
  obtain ⟨symbols, hsymbols⟩ := exists_ofFn hlength
  refine ⟨_, _, hsymbols ▸ msgHandler_ofFn hb symbols, ?_⟩
  apply List.ext_getElem
  · rw [List.length_ofFn, List.length_ofFn, Nat.mul_comm]
  · intro k hk hk'
    rw [List.length_ofFn] at hk hk'
    have hplace : place b.args.rows b.args.cols k < b.args.cols * b.args.rows :=
      (place_lt hk).trans_eq (Nat.mul_comm _ _)
    have hsymbol := congrArg (·[place b.args.rows b.args.cols k]?) hsymbols
    simp only [List.getElem?_ofFn, place_lt hk, hplace, dite_true, Option.some.injEq,
      Function.comp_apply] at hsymbol
    rw [List.getElem_ofFn, List.getElem_ofFn]
    calc symbols (transpose b.args.rows b.args.cols ⟨k, hk⟩)
        = data (transpose b.args.cols b.args.rows ⟨place b.args.rows b.args.cols k, hplace⟩) :=
          hsymbol.symm
      _ = data ⟨k, hk'⟩ := congrArg data (Fin.ext (place_place hk))

end Block

/-- What the blocks of some arguments do with matrices, in every state that they reach. -/
structure Permutes [Zero α] (args : Args) (σ : Equiv.Perm (Fin (args.rows * args.cols)))
    (b : Block α) : Prop where
  /-- The vector before cropping has every symbol once, and its slice is published. -/
  publishes : ∀ data : Fin (args.rows * args.cols) → α, ∃ b',
    b.msgHandler (.f32vector (List.ofFn data)) =
        .ok (b', [((List.ofFn (data ∘ σ)).drop args.outputSkip).take args.outputSize]) ∧
      b'.out = List.ofFn (data ∘ σ)
  /-- A block for the transposed matrix has the symbols in their order again. -/
  undone : ∀ (data : Fin (args.rows * args.cols) → α) (args' : Args) (c c' : Block α),
    args'.rows = args.cols → args'.cols = args.rows → make args' = .ok c → c.Reaches c' →
      ∃ c'' published, c'.msgHandler (.f32vector (List.ofFn (data ∘ σ))) = .ok (c'', published) ∧
        c''.out = List.ofFn data
  /-- Nothing is published for a PDU with another size. -/
  ignores : ∀ data : List α, data.length ≠ args.rows * args.cols →
    b.msgHandler (.f32vector data) = .ok (b, [])

/-- **An invertible permutation.** There is one permutation for the arguments, by which the block
deinterleaves in every state that it reaches. -/
theorem exists_permutes [Zero α] {args : Args} {b : Block α} (h : make args = .ok b) :
    ∃ σ : Equiv.Perm (Fin (args.rows * args.cols)), ∀ b', b.Reaches b' → Permutes args σ b' := by
  refine ⟨transpose args.rows args.cols, fun b' hreach => ?_⟩
  obtain ⟨rfl, hb⟩ := Block.wellFormed_of_make h
  obtain ⟨hargs, hb'⟩ := hb.reaches hreach
  constructor
  · intro data
    exact Block.exists_msgHandler hb' hargs data
  · intro data args' c c' hrows hcols hmake hc
    obtain ⟨rfl, hwell⟩ := Block.wellFormed_of_make hmake
    obtain ⟨hargs', hwell'⟩ := hwell.reaches hc
    exact Block.exists_msgHandler_transpose hwell' (hargs'.symm ▸ hrows) (hargs'.symm ▸ hcols) data
  · intro data hdata
    exact Block.msgHandler_of_ne (hargs.symm ▸ hdata)

theorem two_rows_pos : 0 < 2 := by decide

theorem three_cols_pos : 0 < 3 := by decide

theorem two_rows_lt : 2 < 2 ^ 31 := by decide

theorem three_cols_lt : 3 < 2 ^ 31 := by decide

theorem four_items_lt : 4 < 2 ^ 31 := by decide

theorem one_item_lt : 1 < 2 ^ 31 := by decide

/-- Two rows and three columns, with a slice of four symbols. -/
def twoByThree : Args where
  rows := 2
  cols := 3
  outputSize := 4
  outputSkip := 1
  rows_pos := two_rows_pos
  cols_pos := three_cols_pos
  rows_lt := two_rows_lt
  cols_lt := three_cols_lt
  outputSize_lt := four_items_lt
  outputSkip_lt := one_item_lt

theorem exists_permutes_twoByThree :
    ∃ σ : Equiv.Perm (Fin (twoByThree.rows * twoByThree.cols)), ∀ b',
      Block.Reaches ⟨twoByThree, List.replicate 6 (0 : ℤ)⟩ b' → Permutes twoByThree σ b' :=
  exists_permutes (show make twoByThree = .ok ⟨twoByThree, List.replicate 6 (0 : ℤ)⟩ from rfl)

end GrSatellites.MatrixDeinterleaver
