import ChordOverlay.Lab.Session

/-!
Rings left to themselves: background rounds are run until nothing changes any more.
-/

namespace ChordOverlay

/-- The upkeep a background round consists of. -/
def Round.upkeep : Round → List Upkeep
  | .stabilize => [.stabilize]
  | .fixFingers => [.fixFingers]
  | .checkNeighbours => [.checkPredecessor, .checkSuccessors]

namespace Session

/-- Runs a round of a member, if the member keeps that round running. -/
def runRound (s : Session) (k : Nat) (round : Round) : Session :=
  if (s.member k).rounds.contains round then round.upkeep.foldl (fun s u => (s.upkeep k u).1) s else s

/-- Runs every round once on every member, oldest member first. -/
def beat (s : Session) : Session :=
  s.members.reverse.foldl (fun s (_, k) => Round.all.foldl (fun s round => s.runRound k round) s) s

/-- What the members know, under their labels. -/
def views (s : Session) : List (String × View) := s.sorted.map fun (label, k) => (label, (s.member k).view)

/-- Repeats beats until one changes no view, and at most `n` times. -/
def settle : Nat → Session → Session
  | 0, s => s
  | n + 1, s =>
    let next := s.beat
    if next.views = s.views then next else settle n next

/-- More beats than a ring of a few members needs to come to rest. -/
def manyBeats : Nat := 1000

/-- The label of the member of number `k`, counted from zero. -/
def numbered (k : Nat) : String := "n" ++ toString k

/-- The steps that build a ring of members at `ids`, each on a host of its own: the rest join the first. -/
def gathering (ids : List RingId) : List Step :=
  ids.zipIdx.flatMap fun (id, k) =>
    let label := numbered k
    [.build ⟨label, ⟨10, 1, 0, UInt8.ofNat (k + 1)⟩, 7000, some id, none, {}, none⟩,
      if k = 0 then .create label else .join label (.label (numbered 0))]

/-- Carries out steps one after the other, whatever comes of them. -/
def performAll (s : Session) (steps : List Step) : Session := steps.foldl (fun s d => (s.perform d).1) s

/-- A ring at rest, and the same ring after it has lost some members and come to rest again. -/
def beforeAndAfter (ids : List RingId) (lost : List String) : List (String × View) × List (String × View) :=
  let before := (empty.performAll (gathering ids)).settle manyBeats
  let after := (before.performAll (lost.flatMap fun label => [.shutdown label, .drop label])).settle manyBeats
  (before.views, after.views)

end Session

end ChordOverlay
