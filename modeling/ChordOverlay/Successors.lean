import ChordOverlay.Peer

/-!
The successor list of a member: the closest peers known clockwise, closest first, one per position and
never the owner, up to a bound.
-/

namespace ChordOverlay

/-- The closest successors known to a member, closest first. -/
structure Successors where
  owner : Peer
  bound : Nat
  peers : List Peer
deriving DecidableEq, Repr

namespace Successors

/-- An empty list; a bound of zero counts as one. -/
def empty (owner : Peer) (bound : Nat) : Successors := ⟨owner, max 1 bound, []⟩

/-- How far a peer lies clockwise from `owner`. -/
def reach (owner p : Peer) : Nat := owner.id.distance p.id

/-- Puts `p` in front of the first peer at least as far away. -/
def insertByReach (owner p : Peer) : List Peer → List Peer
  | [] => [p]
  | q :: rest =>
    if reach owner p ≤ reach owner q then p :: q :: rest else q :: insertByReach owner p rest

/-- Sorts by distance from `owner`; peers at one position keep their order. -/
def sortByReach (owner : Peer) (peers : List Peer) : List Peer :=
  peers.foldr (insertByReach owner) []

/-- Drops peers at the position of the peer kept last. -/
def skipRepeats (kept : RingId) : List Peer → List Peer
  | [] => []
  | p :: rest => if p.id = kept then skipRepeats kept rest else p :: skipRepeats p.id rest

/-- Of neighbours at one position only the first stays. -/
def onePerId : List Peer → List Peer
  | [] => []
  | p :: rest => p :: skipRepeats p.id rest

/-- The closest `bound` peers, one per position, without the owner. -/
def closest (owner : Peer) (bound : Nat) (peers : List Peer) : List Peer :=
  (onePerId (sortByReach owner (peers.filter fun p => p.id ≠ owner.id))).take bound

/-- How many there are. -/
def size (s : Successors) : Nat := s.peers.length

/-- Nobody is known. -/
def isEmpty (s : Successors) : Bool := s.peers.isEmpty

/-- There is no room for another. -/
def isFull (s : Successors) : Bool := s.bound ≤ s.size

/-- The peer in this place, counted from the closest. -/
def get? (s : Successors) (i : Nat) : Option Peer := s.peers[i]?

/-- The closest peer, or the owner when there is none. -/
def nearest (s : Successors) : Peer := s.peers.head?.getD s.owner

/-- The farthest peer, or the owner when there is none. -/
def farthest (s : Successors) : Peer := s.peers.getLast?.getD s.owner

/-- Whether some peer in the list has the position of `p`. -/
def contains (s : Successors) (p : Peer) : Bool := s.peers.any fun q => q.id = p.id

/-- Takes `p` into the list if it makes the cut, and says whether it did. -/
def insert (s : Successors) (p : Peer) : Successors × Option Peer :=
  if s.contains p || p.id = s.owner.id then (s, none)
  else if s.isFull && reach s.owner s.farthest ≤ reach s.owner p then (s, none)
  else
    let kept := closest s.owner s.bound (s.peers ++ [p])
    ({ s with peers := kept }, if kept.contains p then some p else none)

/-- Offers each peer in turn, and returns those that made the cut when offered. -/
def extend (s : Successors) : List Peer → Successors × List Peer
  | [] => (s, [])
  | p :: rest =>
    let (s', taken) := s.insert p
    let (s'', others) := s'.extend rest
    (s'', taken.toList ++ others)

/-- Forgets everybody at the position of `p`. -/
def erase (s : Successors) (p : Peer) : Successors :=
  { s with peers := s.peers.filter fun q => q.id ≠ p.id }

/-- Forgets the list and keeps the closest of `peers`. -/
def replace (s : Successors) (peers : List Peer) : Successors :=
  { s with peers := closest s.owner s.bound peers }

end Successors

end ChordOverlay
