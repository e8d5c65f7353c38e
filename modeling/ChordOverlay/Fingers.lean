import ChordOverlay.Peer
import ChordOverlay.Ring.Arc

/-!
The finger table of a member: slot `k` holds a peer at or behind the position `2 ^ k` steps clockwise, so
that a lookup can leap over most of the ring.
-/

namespace ChordOverlay

/-- The finger table of a member, a slot for each power of two. -/
structure Fingers where
  owner : Peer
  slots : List (Option Peer)
deriving DecidableEq, Repr

namespace Fingers

/-- A table in which every slot is empty. -/
def empty (owner : Peer) (size : Nat) : Fingers := ⟨owner, List.replicate size none⟩

/-- A table with a slot for every bit of a position. -/
def full (owner : Peer) : Fingers := empty owner RingId.bits

/-- The peer in a slot; there is none in an empty slot or beyond the last. -/
def get? (t : Fingers) (k : Nat) : Option Peer := t.slots[k]?.join

/-- The number of occupied slots. -/
def count (t : Fingers) : Nat := t.slots.countP Option.isSome

/-- No slot is taken. -/
def isEmpty (t : Fingers) : Bool := t.count == 0

/-- The occupant of the lowest occupied slot. -/
def first? (t : Fingers) : Option Peer := t.slots.findSome? id

/-- Fills slot `k`, or clears it when given nothing or the owner; a slot outside the table is ignored. -/
def set (t : Fingers) (k : Nat) (p : Option Peer) : Fingers :=
  { t with slots := t.slots.set k (p.filter fun q => q.id ≠ t.owner.id) }

/-- Whether a slot holds a peer at position `id`. -/
def holds (id : RingId) (slot : Option Peer) : Bool := slot.any fun p => p.id = id

/-- Some slot holds a peer at this position. -/
def contains (t : Fingers) (id : RingId) : Bool := t.slots.any (holds id)

/-- The slot behind the last one that holds `id`, if there is such a slot. -/
def afterLast (id : RingId) (slots : List (Option Peer)) : Option Peer :=
  (slots.reverse.takeWhile fun slot => !holds id slot).getLast?.join

/-- Drops position `id`: every slot that held it takes what stands behind the last of them. -/
def erase (t : Fingers) (id : RingId) : Fingers :=
  let heir := afterLast id t.slots
  { t with slots := t.slots.map fun slot => if holds id slot then heir else slot }

/-- Whether `p` suits slot `k` better than its occupant. -/
def improves (t : Fingers) (p : Peer) (k : Nat) (slot : Option Peer) : Bool :=
  let d := t.owner.id.distance p.id
  Nat.pow 2 k ≤ d && slot.all fun q => d < t.owner.id.distance q.id

/-- Takes `p` into every slot it improves. -/
def join (t : Fingers) (p : Peer) : Fingers :=
  if p.id = t.owner.id then t
  else { t with slots := t.slots.mapIdx fun k slot => if t.improves p k slot then some p else slot }

/-- The highest finger strictly between the owner and `target`. -/
def closestPreceding? (t : Fingers) (target : RingId) : Option Peer :=
  (t.slots.reverse.filterMap id).find? fun p =>
    p.id.inArc t.owner.id target .neither && p.id ≠ target

end Fingers

end ChordOverlay
