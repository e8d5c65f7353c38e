import ChordOverlay.Member.Lookup

/-!
The rounds that keep a member's neighbourhood true: stabilization, the walk along the successors, finger
repair, and the liveness checks.
-/

namespace ChordOverlay

namespace Activity

/--
Goes on from `current` by asking each peer for the owner of the position right behind it, which it answers
by itself; stops at this member, at a peer met before, at a failure, or after `n` more peers.
-/
def walk (self : RingId) : Nat → Peer → List Peer → Activity (List Peer)
  | 0, _, walked => pure walked
  | n + 1, current, walked => do
    match ← query current.address (.owner (current.id.advance 1) 0) with
    | .ok (some next) =>
      if next.id ≠ self ∧ ¬ walked.any (fun p => p.id = next.id) then
        walk self n next (walked ++ [next])
      else pure walked
    | _ => pure walked

/-- Rebuilds the successor list by walking the ring from the successor. -/
def syncSuccessors : Activity Unit := do
  let m ← look
  let successor := m.view.successor
  if successor.id = m.self.id then pure ()
  else
    let walked ← walk m.self.id (max 1 m.settings.successorListLength - 1) successor [successor]
    updateView fun v => v.syncSuccessors walked

/-- What the successor reports as its predecessor; a member alone is its own successor. -/
def askPredecessor (m : Member) : Activity (Except Failure (Option Peer)) :=
  let successor := m.view.successor
  if successor.id = m.self.id then pure (.ok m.view.predecessor)
  else query successor.address (.predecessor m.self.id)

/--
One round of stabilization: a successor that does not answer is forgotten; one that does is replaced by a
closer one if it knows of any, is notified, and the successor list is walked anew.
-/
def stabilize : Activity (Except Failure Unit) := do
  let m ← look
  match ← askPredecessor m with
  | .error _ =>
    updateView fun v => v.erase m.view.successor
    pure (.ok ())
  | .ok reported =>
    let m ← look
    let (view, decision) := m.view.stabilize reported
    store { m with view }
    match decision with
    | .nothing =>
      syncSuccessors
      pure (.ok ())
    | .contact target (.notify me) =>
      let _ ← query target.address (.notify me.id me.port)
      syncSuccessors
      pure (.ok ())
    | decision => pure (.error (.unexpectedDecision decision))

/-- Whether a peer answers that it is alive. -/
def ping (target : Address) : Activity Bool := do
  match ← query target .alive with
  | .ok alive => pure alive
  | .error _ => pure false

/-- Forgets the predecessor if it does not answer. -/
def checkPredecessor : Activity Unit := do
  let m ← look
  match m.view.predecessor with
  | none => pure ()
  | some p =>
    if p.id = m.self.id then pure ()
    else if ← ping p.address then pure ()
    else updateView fun v => (v.clearPredecessorIf p).1

end Activity

/-- Activities run side by side, and what their results together change. -/
structure Gathering (β : Type) where
  jobs : List (Activity β)
  finish : List β → View → View

/-- Looks up the owner of every finger's start; a slot whose lookup fails keeps its occupant. -/
def Gathering.fixFingers (m : Member) : Gathering (Except Failure Peer) where
  jobs := m.view.fingerStarts.map fun start => Activity.lookup start m.settings.maxHops
  finish results view :=
    results.zipIdx.foldl (fun view (result, k) =>
      match result with
      | .ok p => view.setFinger k (some p)
      | .error _ => view) view

/-- Pings every successor and forgets the silent ones. -/
def Gathering.checkSuccessors (m : Member) : Gathering Bool where
  jobs := m.view.successors.peers.map fun p => Activity.ping p.address
  finish results view :=
    (m.view.successors.peers.zip results).foldl (fun view (p, alive) =>
      if alive then view else view.erase p) view

end ChordOverlay
