import ChordOverlay.Net.Address
import ChordOverlay.Wire.Codec

/-!
The tunables of a member: sizes, periods and patience, all times in milliseconds.
-/

namespace ChordOverlay

/-- What can be set about a member. -/
structure Settings where
  /-- Bound of the successor list; zero counts as one. -/
  successorListLength : Nat := 3
  /-- Period of stabilization and of finger repair. -/
  stabilizeEvery : Nat := 1000
  /-- Period of the liveness checks on neighbours. -/
  checkEvery : Nat := 500
  /-- How long one request may take. -/
  patience : Nat := 5000
  /-- Added to `patience` for every hop a lookup may still take. -/
  hopMargin : Nat := 250
  /-- Hops granted to a lookup. -/
  maxHops : UInt8 := Body.defaultHops
  /-- The longest body accepted or sent. -/
  maxMessageLength : Nat := Codec.defaultLimit
  /-- The address told to others, when it is not the one listened on. -/
  externalIp : Option Ipv4 := none
deriving DecidableEq, Repr, Inhabited

namespace Settings

/-- How long a lookup with `ttl` hops left may take: more than the next hop grants itself. -/
def lookupPatience (s : Settings) (ttl : UInt8) : Nat := s.patience + s.hopMargin * ttl.toNat

/-- The address others are told: the configured one, or the bound one, with the loopback in place of none. -/
def advertisedIp (s : Settings) (bound : Ipv4) : Ipv4 :=
  s.externalIp.getD (if bound = .unspecified then .loopback else bound)

end Settings

end ChordOverlay
