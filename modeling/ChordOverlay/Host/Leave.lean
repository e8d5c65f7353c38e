import ChordOverlay.Host.Dialog

/-!
Leaving the network.
-/

namespace ChordOverlay.Dialog

/-- Shuts a member down: it stops listening and all its rounds end. -/
def shutdown : Dialog Unit := do
  perform .leave
  let m ← look
  perform (.store m.shutdown)

end ChordOverlay.Dialog
