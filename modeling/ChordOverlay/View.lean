import ChordOverlay.Fingers
import ChordOverlay.Successors

/-!
What one member knows of the ring, and the decisions it takes from that alone. Talking to other peers is
left to the caller, who is told what to ask.
-/

namespace ChordOverlay

/-- A question or notice for another peer. -/
inductive Errand where
  | findSuccessor (id : RingId)
  | notify (me : Peer)
deriving DecidableEq, Repr

/-- What follows from a member's own knowledge. -/
inductive Decision where
  | nothing
  | found (p : Peer)
  | contact (target : Peer) (errand : Errand)
deriving DecidableEq, Repr

/-- How an errand is shown in a failure. -/
def Errand.describe : Errand → String
  | .findSuccessor id => "FindSuccessor(" ++ id.describe ++ ")"
  | .notify me => "Notify(" ++ me.describe ++ ")"

/-- How a decision is shown in a failure. -/
def Decision.describe : Decision → String
  | .nothing => "None"
  | .found p => "Some(" ++ p.describe ++ ")"
  | .contact target errand => "RemoteAction(" ++ target.describe ++ ", " ++ errand.describe ++ ")"

/-- The neighbourhood of one member. -/
structure View where
  self : Peer
  successors : Successors
  fingers : Fingers
  predecessor : Option Peer
deriving DecidableEq, Repr

namespace View

/-- A member that knows nobody. -/
def fresh (self : Peer) (bound : Nat) : View :=
  ⟨self, .empty self bound, .full self, none⟩

/-- The next member clockwise, as far as is known; the member itself when it knows no other. -/
def successor (v : View) : Peer := v.successors.nearest

/-- The member knows of nobody behind it but itself. -/
def isAlone (v : View) : Bool := v.successor.id = v.self.id

/-- A ring of one: its only member precedes itself. -/
def create (v : View) : View :=
  { v with successors := v.successors.replace [], predecessor := some v.self }

/--
Forgets `p` everywhere. When that empties the successor list, the lowest finger left takes its place.
-/
def erase (v : View) (p : Peer) : View :=
  let predecessor := v.predecessor.filter fun q => q.id ≠ p.id
  let fingers := v.fingers.erase p.id
  let left := v.successors.erase p
  let successors :=
    if left.isEmpty then
      match fingers.first? with
      | some heir => (left.insert heir).1
      | none => left
    else left
  { v with successors, fingers, predecessor }

/-- Forgets the predecessor if it is at the position of `p`, and says whether it was. -/
def clearPredecessorIf (v : View) (p : Peer) : View × Bool :=
  match v.predecessor with
  | some q => if q.id = p.id then ({ v with predecessor := none }, true) else (v, false)
  | none => (v, false)

/-- Puts a peer into a slot of the finger table, or empties it. -/
def setFinger (v : View) (k : Nat) (p : Option Peer) : View :=
  { v with fingers := v.fingers.set k p }

/-- The positions whose owners the finger slots should hold. -/
def fingerStarts (v : View) : List RingId := (List.range RingId.bits).map v.self.id.fingerStart

/-- Takes over the peers met on a walk along the ring; a walk that met nobody changes nothing. -/
def syncSuccessors (v : View) (walked : List Peer) : View :=
  if walked.isEmpty then v else { v with successors := v.successors.replace walked }

/-- Adopts a peer found while joining, which is to be told at once. -/
def join (v : View) (p : Peer) : View × Decision :=
  if p.id = v.self.id then (v, .nothing)
  else
    ({ v with fingers := v.fingers.join p, successors := (v.successors.insert p).1 },
      .contact p (.notify v.self))

/-- The owner of `id` if it is known here, and otherwise the closest peer before `id` to ask. -/
def findSuccessor (v : View) (id : RingId) : Decision :=
  if id = v.self.id then .found v.self
  else if v.isAlone || id.inArc v.self.id v.successor.id .last then .found v.successor
  else .contact ((v.fingers.closestPreceding? id).getD v.successor) (.findSuccessor id)

/-- Whether a candidate should be the predecessor; the present one is confirmed. -/
def prefers (v : View) (candidate : Peer) : Bool :=
  match v.predecessor with
  | none => true
  | some p => p.id = v.self.id || p = candidate || candidate.id.inArc p.id v.self.id .neither

/-- A peer claims to come right before this member; the answer says whether it now does. -/
def notify (v : View) (candidate : Peer) : View × Bool :=
  if candidate.id = v.self.id then (v, false)
  else if v.prefers candidate then ({ v with predecessor := some candidate }, true)
  else (v, false)

/-- Whether what the successor reported as its predecessor lies between this member and the successor. -/
def adopts (v : View) (reported : Peer) : Bool :=
  reported.id ≠ v.self.id && (v.isAlone || reported.id.inArc v.self.id v.successor.id .neither)

/-- Adopts a closer successor if one is reported, and notifies whoever is the successor then. -/
def stabilize (v : View) (reported : Option Peer) : View × Decision :=
  let v' :=
    match reported.filter v.adopts with
    | some x => { v with successors := (v.successors.insert x).1, fingers := v.fingers.join x }
    | none => v
  (v', if v'.isAlone then .nothing else .contact v'.successor (.notify v.self))

end View

end ChordOverlay
