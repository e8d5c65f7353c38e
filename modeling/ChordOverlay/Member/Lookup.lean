import ChordOverlay.Member.Query

/-!
Finding the owner of a position. A member that does not know it asks the closest peer before the position,
with one hop less to go.
-/

namespace ChordOverlay.Activity

/-- How often a lookup decides anew after the peer it asked failed. -/
def lookupAttempts : Nat := 3

/--
Decides and asks at most `n` times. A finger that fails is dropped, and the decision is taken again unless
the failure is a timeout; the failure of the immediate successor is final and left to the liveness checks.
-/
def lookupFrom (id : RingId) (ttl : UInt8) : Nat → Failure → Activity (Except Failure Peer)
  | 0, last => pure (.error last)
  | n + 1, _ => do
    let m ← look
    match m.view.findSuccessor id with
    | .found p => pure (.ok p)
    | .contact next (.findSuccessor target) =>
      if ttl = 0 then pure (.error (.outOfHops id))
      else
        match ← query next.address (.owner target (ttl - 1)) with
        | .ok (some p) => pure (.ok p)
        | .ok none => pure (.error (.noSuccessor id))
        | .error e =>
          let m ← look
          if next.id = m.view.successor.id then pure (.error e)
          else
            store { m with view.fingers := m.view.fingers.erase next.id }
            if e = .timedOut then pure (.error e) else lookupFrom id ttl n e
    | decision => pure (.error (.unexpectedDecision decision))

/-- The owner of `id`, with at most `ttl` forwards; outside a ring there is none to be found. -/
def lookup (id : RingId) (ttl : UInt8) : Activity (Except Failure Peer) := do
  let m ← look
  if m.phase = .joined then lookupFrom id ttl lookupAttempts (.noSuccessor id)
  else pure (.error (.noSuccessor id))

/-- The lookup of a member's own user, who is told when the member is in no ring. -/
def findSuccessor (id : RingId) : Activity (Except Failure Peer) := do
  let m ← look
  if m.phase = .joined then lookup id m.settings.maxHops
  else pure (.error (.invalidState m.phase.name))

end ChordOverlay.Activity
