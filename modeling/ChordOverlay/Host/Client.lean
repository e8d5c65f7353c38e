import ChordOverlay.Host.Dialog
import ChordOverlay.Member.Lookup

/-!
The calling side: one connection per request, and one reply on it within the time allowed.
-/

namespace ChordOverlay

namespace Dialog

/-- Writes a request and waits for the reply to it. -/
def requestOn (e : End) (limit : Nat) (deadline : Nat) (m : Message) : Dialog (Except Failure Message) := do
  match ← send e limit (some deadline) m with
  | .error f => pure (.error f)
  | .ok () =>
    match (← receive e (some deadline) (.start limit)).1 with
    | none => pure (.error .timedOut)
    | some (.message reply) => pure (.ok reply)
    | some (.failure f) => pure (.error f)
    | some .finished => pure (.error .closedEarly)

/-- Sends a request on a connection of its own and returns the reply, all within `patience`. -/
def exchange (limit patience : Nat) (target : Address) (m : Message) : Dialog (Except Failure Message) := do
  let start ← clock
  match ← perform (.connect target) with
  | .error fault => pure (.error (.network fault))
  | .ok e =>
    let reply ← requestOn e limit (start + patience) m
    release e
    pure reply

/-- Sends one message on a connection of its own and gives the reply. -/
def call (s : Settings) (target : Address) (m : Message) : Dialog (Except Failure Message) :=
  exchange s.maxMessageLength s.patience target m

/-- Puts a query to whoever listens at an address and reads the answer off the reply. -/
def inquire (s : Settings) (target : Address) (q : Query) : Dialog (Except Failure q.Answer) := do
  match ← exchange s.maxMessageLength (q.patience s) target q.request with
  | .ok reply => pure (q.read reply)
  | .error f => pure (.error f)

/-- Opens a connection and sends a payload on it; the connection is left open for what may follow. -/
def openWith (s : Settings) (target : Address) (payload : Bytes) : Dialog (Except Failure End) := do
  match ← perform (.connect target) with
  | .error fault => pure (.error (.network fault))
  | .ok e =>
    let start ← clock
    match ← send e s.maxMessageLength (some (start + s.patience)) (.payload payload) with
    | .ok () => pure (.ok e)
    | .error f =>
      release e
      pure (.error f)

/-- Sends a payload and waits for no answer. -/
def sendPayload (s : Settings) (target : Address) (payload : Bytes) : Dialog (Except Failure Unit) := do
  match ← openWith s target payload with
  | .error f => pure (.error f)
  | .ok e =>
    finish e
    release e
    pure (.ok ())

end Dialog

/-- Carries one request of an activity out. -/
def Dialog.carryOut (s : Settings) : (op : MemberOp) → Dialog (MemberOps.Answer op)
  | .look => look
  | .store m => perform (.store m)
  | .query target q => inquire s target q

/-- Carries an activity out: its queries become requests on connections. -/
def Activity.toDialog {α : Type} (s : Settings) (a : Activity α) : Dialog α :=
  a.compile (Dialog.carryOut s)

/-- Sends a payload to the owner of `id`, and returns the owner. -/
def Dialog.route (s : Settings) (id : RingId) (payload : Bytes) : Dialog (Except Failure Peer) := do
  match ← (Activity.findSuccessor id).toDialog s with
  | .error f => pure (.error f)
  | .ok owner =>
    match ← sendPayload s owner.address payload with
    | .ok () => pure (.ok owner)
    | .error f => pure (.error f)

end ChordOverlay
