import ChordOverlay.Member.Query

/-!
Joining the ring of another member, and leaving a trace only when that succeeds.
-/

namespace ChordOverlay.Activity

/-- Finds the successor through `bootstrap`, adopts it, and tells it so; a lost notice does not matter. -/
def joinVia (bootstrap : Address) : Activity (Except Failure Peer) := do
  let m ← look
  let me := m.self
  match ← query bootstrap (.owner me.id m.settings.maxHops) with
  | .error e => pure (.error e)
  | .ok none => pure (.error (.noSuccessor me.id))
  | .ok (some successor) =>
    if successor.id = me.id then pure (.error (.duplicateId me.id))
    else
      let m ← look
      let (view, decision) := m.view.join successor
      store { m with view }
      match decision with
      | .contact next (.notify me) =>
        let _ ← query next.address (.notify me.id me.port)
        pure (.ok successor)
      | _ => pure (.ok successor)

/-- How a failed join is reported. -/
def joinFailure : Failure → Failure
  | .duplicateId id => .duplicateId id
  | e => .joinFailed e.message

/-- Joins the ring `bootstrap` belongs to and returns the successor; on failure the member may try again. -/
def join (bootstrap : Address) : Activity (Except Failure Peer) := do
  match (← look).transition .created .joining with
  | .error e => pure (.error e)
  | .ok m =>
    store m
    match ← joinVia bootstrap with
    | .ok successor =>
      match (← look).transition .joining .joined with
      | .error e => pure (.error e)
      | .ok m =>
        store m.startRounds
        pure (.ok successor)
    | .error e =>
      match (← look).transition .joining .created with
      | .error e => pure (.error e)
      | .ok m =>
        store m
        pure (.error (joinFailure e))

end ChordOverlay.Activity
