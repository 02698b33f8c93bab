import GrSatellites.Basic
import GrSatellites.Library.TaggedStream

/-!
# CSMA for a stream of packets

The block of `lib/packet_csma_impl.cc`, together with the scheduler that calls it: the
scheduler hands over a window of the input that starts at the read position, appends
what is produced to the output, and copies the tags of the items consumed.
-/

namespace GrSatellites.PacketCsma

open TaggedStream

variable {α : Type}

/-- The state of a `packet_csma`: `d_remaining_items` and `d_carrier_sense`. -/
structure CsmaState where
  remainingItems : Word
  carrierSense : Bool

/-- The state after construction. -/
def CsmaState.init : CsmaState := ⟨0, false⟩

/-- `handle_carrier_sense`. -/
def CsmaState.handleCarrierSense (s : CsmaState) (msg : Bool) : CsmaState :=
  { s with carrierSense := msg }

/-- `num_propagate`: how many items may be propagated, of the given number. -/
def numPropagate (backToBackPriority : Bool) (s : CsmaState) (items : ℕ) : ℕ :=
  if s.carrierSense then
    -- a new packet always waits, and the current one never does
    if s.remainingItems = 0 then 0
    else if backToBackPriority then items
    else min items s.remainingItems.toNat
  else items

/-- The rest of `general_work` once the number of items to propagate is known: count what
remains of the last packet, and copy. -/
def propagate (nitems num : ℕ) (input : List (TaggedItem α)) (s : CsmaState) :
    Except CxxError (CsmaState × List (TaggedItem α)) :=
  match (tagsFrom nitems (input.take num)).getLast? with
  | some (offset, length) =>
    let remaining :=
      BitVec.ofNat 64 offset + BitVec.ofNat 64 length - (BitVec.ofNat 64 nitems + BitVec.ofNat 64 num)
    .ok ({ s with remainingItems := remaining }, input.take num)
  | none =>
    if s.remainingItems.toNat < num then
      .error (.runtimeError ("[packet_csma] no packet_len tags seen but tried to propagate more than " ++
        "what remains of the current packet"))
    else .ok ({ s with remainingItems := s.remainingItems - BitVec.ofNat 64 num }, input.take num)

/-- `general_work`, with the read position and the input items from there on. The result
is the new state and the items produced, as many as are consumed. -/
def generalWork (backToBackPriority : Bool) (nitems noutputItems : ℕ) (input : List (TaggedItem α))
    (s : CsmaState) : Except CxxError (CsmaState × List (TaggedItem α)) :=
  propagate nitems (numPropagate backToBackPriority s (min noutputItems input.length)) input s

/-- What happens to the block: a message from the carrier sense detector, or a call that
offers room for some items and hands over at most some items. -/
inductive Event where
  | carrierSense (msg : Bool)
  | work (noutputItems ninputItems : ℕ)

/-- The block in its flowgraph: its state, the number of items read and the output. -/
structure System (α : Type) where
  block : CsmaState
  nitems : ℕ
  output : List (TaggedItem α)

/-- The system at the start. -/
def System.init : System α := ⟨.init, 0, []⟩

/-- One event, for a given input stream. -/
def step (backToBackPriority : Bool) (input : List (TaggedItem α)) (s : System α) :
    Event → Except CxxError (System α)
  | .carrierSense msg => .ok { s with block := s.block.handleCarrierSense msg }
  | .work noutputItems ninputItems =>
    let window := (input.drop s.nitems).take ninputItems
    match generalWork backToBackPriority s.nitems noutputItems window s.block with
    | .error e => .error e
    | .ok (block, produced) => .ok ⟨block, s.nitems + produced.length, s.output ++ produced⟩

/-- A sequence of events. -/
def runEvents (backToBackPriority : Bool) (input : List (TaggedItem α)) (s : System α)
    (events : List Event) : Except CxxError (System α) :=
  events.foldlM (step backToBackPriority input) s

end GrSatellites.PacketCsma
