import ChordOverlay.Failure
import ChordOverlay.Settings

/-!
A member of the ring: its settings, where it stands in its life, what it knows of the ring, and which
background rounds it keeps running.
-/

namespace ChordOverlay

/-- The life of a member. -/
inductive Phase where
  /-- Listening, and in no ring yet. -/
  | created
  /-- Waiting to be told its successor. -/
  | joining
  /-- In a ring. -/
  | joined
  /-- Shut down. -/
  | destroyed
deriving DecidableEq, Repr, Inhabited

/-- What a phase is called. -/
def Phase.name : Phase → String
  | .created => "Created"
  | .joining => "Joining"
  | .joined => "Joined"
  | .destroyed => "Destroyed"

/-- The rounds a member of a ring repeats in the background. -/
inductive Round where
  | stabilize
  | fixFingers
  | checkNeighbours
deriving DecidableEq, Repr

/-- All rounds there are. -/
def Round.all : List Round := [.stabilize, .fixFingers, .checkNeighbours]

/-- A member of the ring, or one that is not in it yet or no longer. -/
structure Member where
  settings : Settings
  phase : Phase
  view : View
  /-- The rounds running in the background. -/
  rounds : List Round
deriving DecidableEq, Repr

namespace Member

/-- A member that has not begun anything. -/
def fresh (self : Peer) (settings : Settings) : Member :=
  ⟨settings, .created, .fresh self settings.successorListLength, []⟩

instance : Inhabited Member := ⟨fresh default {}⟩

/-- The peer that the member is to others. -/
def self (m : Member) : Peer := m.view.self

/-- Moves from one phase to the next, and fails anywhere else. -/
def transition (m : Member) (source target : Phase) : Except Failure Member :=
  if m.phase = source then .ok { m with phase := target } else .error (.invalidState m.phase.name)

/-- Begins all rounds. -/
def startRounds (m : Member) : Member := { m with rounds := m.rounds ++ Round.all }

/-- Becomes a ring of one. -/
def create (m : Member) : Except Failure Member := do
  let m ← m.transition .created .joined
  return { m with view := m.view.create }.startRounds

/-- Leaves for good: no round runs on. -/
def shutdown (m : Member) : Member := { m with phase := .destroyed, rounds := [] }

end Member

end ChordOverlay
