import ChordOverlay.Net.Address
import ChordOverlay.Ring.Id

/-!
A peer: a ring position together with the address it is reached at, and its ten-byte wire form.
-/

namespace ChordOverlay

/-- Who a member of the ring is and where it listens; two peers are the same if all three parts agree. -/
structure Peer where
  id : RingId
  ip : Ipv4
  port : UInt16
deriving DecidableEq, Inhabited, Repr

namespace Peer

/-- Where a peer is reached. -/
def address (p : Peer) : Address := ⟨p.ip, p.port⟩

/-- A peer as it is shown: who it is, and where. -/
def display (p : Peer) : String := p.id.display ++ "@" ++ p.address.display

/-- The form used inside descriptions of decisions and messages. -/
def describe (p : Peer) : String :=
  "NodeInfo \x7b id: " ++ p.id.describe ++ ", ip: " ++ p.ip.display ++ ", port: "
    ++ toString p.port.toNat ++ " \x7d"

/-- The length of the wire form. -/
def wireLength : Nat := 10

/-- Position, address and port in network byte order. -/
def toBytes (p : Peer) : List UInt8 :=
  p.id.toBytes ++ p.ip.toBytes ++ [(p.port >>> 8).toUInt8, p.port.toUInt8]

/-- Reads what `toBytes` writes; any other length is refused. -/
def ofBytes? : List UInt8 → Option Peer
  | [i₀, i₁, i₂, i₃, a, b, c, d, p₀, p₁] =>
    some ⟨.ofOctets i₀ i₁ i₂ i₃, ⟨a, b, c, d⟩, (p₀.toUInt16 <<< 8) ||| p₁.toUInt16⟩
  | _ => none

end Peer

/-- The form of a peer that may be missing. -/
def describePeer? : Option Peer → String
  | none => "None"
  | some p => "Some(" ++ p.describe ++ ")"

end ChordOverlay
