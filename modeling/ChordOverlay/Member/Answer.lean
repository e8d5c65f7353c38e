import ChordOverlay.Member.Lookup

/-!
How a member answers the requests of other peers.
-/

namespace ChordOverlay.Activity

/--
The report to a request, and nothing for any other message. A notice is believed about position and port
only: the address is the one the connection comes from.
-/
def answer (source : Ipv4) : Message → Activity (Option Message)
  | .lookup id ttl => do
    match ← lookup id ttl with
    | .ok p => pure (some (.lookupReport (some p)))
    | .error _ => pure (some (.lookupReport none))
  | .predecessorQuery _ => do
    let m ← look
    pure (some (.predecessorReport m.view.predecessor))
  | .aliveCheck => pure (some (.aliveReport true))
  | .notice id port => do
    let m ← look
    if m.phase = .joined then
      let (view, accepted) := m.view.notify ⟨id, source, port⟩
      store { m with view }
      pure (some (.noticeReport accepted))
    else pure (some (.noticeReport false))
  | _ => pure none

end ChordOverlay.Activity
