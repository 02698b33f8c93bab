import GrSatellites.Basic
import GrSatellites.Library.Weight

/-!
# The Viterbi decoder

The decoder of `lib/viterbi.c` for the convolutional code with constraint length 7 and
rate 1/2. A frame starts with fresh metrics, and the path is traced back from state zero.
-/

namespace GrSatellites.Fec.Viterbi

open Weight

/-- `V27POLYA`. -/
def v27PolyA : BitVec 8 := 0x6d

/-- `V27POLYB`. -/
def v27PolyB : BitVec 8 := 0x4f

/-- `VITERBI_CONSTRAINT`. -/
def viterbiConstraint : ℕ := 7

/-- `get_bit`. -/
def getBit (p : List Byte) (n : ℕ) : Bool := (p.getD (n / 8) 0).getMsbD (n % 8)

/-- An entry of `branchtab`, for a polynomial that is positive. -/
def branchtab (poly : BitVec 8) (state : ℕ) : BitVec 8 :=
  if weight (BitVec.ofNat 8 (2 * state) &&& poly) % 2 = 1 then 1 else 0

/-- The byte that holds a bit. -/
def symbol (bit : Bool) : BitVec 8 := if bit then 1 else 0

/-- `BFLY`: the metrics and the decisions of two states. -/
def butterfly (oldMetrics : List (BitVec 8)) (sym0 sym1 : BitVec 8) (b : ℕ) :
    List (BitVec 8 × Bool) :=
  let metric := (branchtab v27PolyA b ^^^ sym0) + (branchtab v27PolyB b ^^^ sym1)
  let m0 := oldMetrics.getD b 0 + metric
  let m1 := oldMetrics.getD (b + 32) 0 + (2 - metric)
  let n0 := m0 - (metric + metric - 2)
  let n1 := m1 + (metric + metric - 2)
  [(if m1 < m0 then m1 else m0, m1 < m0), (if n1 < n0 then n1 else n0, n1 < n0)]

/-- The metrics after `init_viterbi_packed` in state zero. -/
def initMetrics : List (BitVec 8) := 0 :: List.replicate 63 63

/-- The loop body of `update_viterbi_packed`, for bit number `i`. -/
def updateBit (syms : List Byte) (v : List (BitVec 8) × List (List Bool)) (i : ℕ) :
    List (BitVec 8) × List (List Bool) :=
  let states := (List.range 32).flatMap
    (butterfly v.1 (symbol (getBit syms (2 * i))) (symbol (getBit syms (2 * i + 1))))
  (states.map Prod.fst, v.2 ++ [states.map Prod.snd])

/-- `update_viterbi_packed` on a fresh decoder: the decisions, bit by bit. -/
def updateViterbiPacked (syms : List Byte) (nbits : ℕ) : List (List Bool) :=
  ((List.range nbits).foldl (updateBit syms) (initMetrics, [])).2

/-- The loop of `chainback_viterbi_packed`, which writes the decoded bytes to `data`. -/
def chainback (decisions : List (List Bool)) : ℕ → BitVec 8 → List Byte → List Byte
  | 0, _, data => data
  | nbits + 1, endstate, data =>
    let k := (decisions.getD (nbits + (viterbiConstraint - 1)) []).getD (endstate.toNat >>> 2) false
    let endstate := endstate >>> 1 ||| symbol k <<< 7
    chainback decisions nbits endstate (data.set (nbits / 8) endstate)

/-- The three calls on a packet: it is decoded in place to `rxLen` bytes. -/
def decode (packet : List Byte) (rxLen : ℕ) : List Byte :=
  chainback (updateViterbiPacked packet (rxLen * 8 + (viterbiConstraint - 1))) (rxLen * 8) 0 packet

theorem length_chainback (decisions : List (List Bool)) (nbits : ℕ) (endstate : BitVec 8)
    (data : List Byte) : (chainback decisions nbits endstate data).length = data.length := by
  induction nbits generalizing endstate data with
  | zero => rfl
  | succ nbits ih => rw [chainback, ih, List.length_set]

@[simp] theorem length_decode (packet : List Byte) (rxLen : ℕ) :
    (decode packet rxLen).length = packet.length := length_chainback _ _ _ _

/-! ## The bytes that the decoder uses -/

variable {packet packet' : List Byte} {used : ℕ}

theorem getBit_congr {n : ℕ} (hn : n / 8 < used) (h : packet.take used = packet'.take used) :
    getBit packet n = getBit packet' n := by
  have hget (p : List Byte) : p.getD (n / 8) 0 = (p.take used).getD (n / 8) 0 := by
    rw [List.getD_eq_getElem?_getD, List.getD_eq_getElem?_getD, List.getElem?_take_of_lt hn]
  rw [getBit, getBit, hget packet, hget packet', h]

theorem updateViterbiPacked_congr {nbits : ℕ} (hnbits : 2 * nbits ≤ 8 * used)
    (h : packet.take used = packet'.take used) :
    updateViterbiPacked packet nbits = updateViterbiPacked packet' nbits := by
  have hfold : (List.range nbits).foldl (updateBit packet) (initMetrics, []) =
      (List.range nbits).foldl (updateBit packet') (initMetrics, []) := by
    refine List.foldl_ext _ _ _ fun v i hi => ?_
    have hlt := List.mem_range.mp hi
    rw [updateBit, updateBit, getBit_congr (by omega) h, getBit_congr (by omega) h]
  rw [updateViterbiPacked, updateViterbiPacked, hfold]

theorem take_chainback (decisions : List (List Bool)) (nbits : ℕ) (endstate : BitVec 8)
    (h : packet.take used = packet'.take used) :
    (chainback decisions nbits endstate packet).take used =
      (chainback decisions nbits endstate packet').take used := by
  induction nbits generalizing endstate packet packet' with
  | zero => exact h
  | succ nbits ih =>
    refine ih _ ?_
    rw [List.take_set, List.take_set, h]

/-- The first bytes decoded depend on the first bytes of the packet only, if these hold all
the symbols. -/
theorem take_decode {rxLen : ℕ} (hused : 2 * (rxLen + 1) ≤ used)
    (h : packet.take used = packet'.take used) :
    (decode packet rxLen).take used = (decode packet' rxLen).take used := by
  have hbits : 2 * (rxLen * 8 + (viterbiConstraint - 1)) ≤ 8 * used := by
    rw [viterbiConstraint]
    omega
  rw [decode, decode, updateViterbiPacked_congr hbits h]
  exact take_chainback _ _ _ h

end GrSatellites.Fec.Viterbi
