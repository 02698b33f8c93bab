import GrSatellites.Fec.ReedSolomon
import GrSatellites.Library.Buffer

/-!
# The AX100 decoder

The block of `lib/ax100_decode_impl.cc`. A packet starts with a byte that holds its length,
that byte included, and the rest is a shortened Reed-Solomon word.
-/

namespace GrSatellites.Ax100

open Buffer Fec

/-- The size of `d_data`. -/
def dataLen : ℕ := 256

/-- `ax100_decode_impl::msg_handler`, on the contents of `d_data`: the new contents, and the
PDUs published. -/
def handleMsg (rs : Rs8) (data msg : List Byte) : List Byte × List (List Byte) :=
  let data := copyInto data msg
  let first := (data.getD 0 0).toNat
  match rs.decodeRs8 (data.drop 1) (255 - first + 1) with
  | none => (data, [])
  | some (packet, _) =>
    let data := data.take 1 ++ packet
    let frameLen : ℤ := first - 32 - 1
    if frameLen < 0 then (data, []) else (data, [packet.take frameLen.toNat])

end GrSatellites.Ax100
