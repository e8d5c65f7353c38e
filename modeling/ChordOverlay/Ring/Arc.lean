import ChordOverlay.Ring.Id

/-!
Arcs of the ring: which positions lie clockwise between two others, with either end counted in or out.
-/

namespace ChordOverlay

/-- Which ends of an arc belong to it. -/
inductive Ends where
  | neither
  | last
  | first
  | both
deriving DecidableEq, Repr

namespace Ends

/-- All four kinds of interval. -/
def all : List Ends := [.neither, .last, .first, .both]

/-- The first end belongs to the interval. -/
def includeFirst : Ends → Bool
  | .first | .both => true
  | .neither | .last => false

/-- The last end belongs to the interval. -/
def includeLast : Ends → Bool
  | .last | .both => true
  | .neither | .first => false

end Ends

/--
Whether `id` lies on the clockwise arc from `lo` to `hi`; the arc crosses zero when `hi` is below `lo`,
and is the single point `hi` when the two are equal, whatever `ends` says.
-/
def RingId.inArc (id lo hi : RingId) (ends : Ends) : Bool :=
  if lo = hi then id = hi
  else
    let afterLo := lo.word < id.word || (ends.includeFirst && id == lo)
    let beforeHi := id.word < hi.word || (ends.includeLast && id == hi)
    if lo.word < hi.word then afterLo && beforeHi else afterLo || beforeHi

end ChordOverlay
