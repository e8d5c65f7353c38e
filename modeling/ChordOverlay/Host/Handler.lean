import ChordOverlay.Host.Server

/-!
Handlers: what an application does with a payload and with the connection it came on, as a program. The application asks
for the next payload, sends something back, or does anything else away from the connection.
-/

namespace ChordOverlay

/-- The requests of an application that holds a connection by this end. -/
inductive AppOp (e : End) where
  | next
  | send (m : Message)
  | other (op : DialogOp) (away : op.end? ≠ some e)

/-- Asked for the next payload, the connection gives it, or tells how it ended. -/
abbrev AppOps (e : End) : Interface where
  Op := AppOp e
  Answer
    | .next => Except Failure (Option Bytes)
    | .send _ => Except Failure Unit
    | .other op _ => DialogOps.Answer op

/-- What an application does about one payload. -/
abbrev Handler (e : End) := Program (AppOps e) Unit

/-- What applications do about a payload from somewhere. -/
abbrev Handling := (e : End) → App → Address → Bytes → Handler e

/-- The one call of a handler for a connection, with what it was told, each time it asked for the next payload. -/
structure Interview where
  app : App
  source : Address
  payload : Bytes
  told : List (Except Failure (Option Bytes))

/-! The applications there are. -/

namespace App

variable (e : End)

/-- Writes something down, and is done. -/
def jot (entry : Note) : Handler e := .ask (.other (.note entry) nofun) .done

/-- Notes and sends back at most `n` payloads. -/
def echoing : Nat → Handler e
  | 0 => .done ()
  | n + 1 => .ask .next fun told =>
    match (told : Except Failure (Option Bytes)) with
    | .ok (some payload) => .ask (.other (.note (.followed payload)) nofun) fun _ =>
        .ask (.send (.payload payload)) fun sent =>
          match (sent : Except Failure Unit) with
          | .ok () => echoing n
          | .error _ => .done ()
    | .ok none => jot e .closed
    | .error f => jot e (.failed f)

/-- What each of them does with a payload that has come first on its connection. -/
def handler : App → Address → Bytes → Handler e
  | .record, _, _ | .fail, _, _ => .done ()
  | .echo, _, payload => .ask (.send (.payload payload)) fun _ => .done ()
  | .echoAll, _, payload => .ask (.send (.payload payload)) fun sent =>
      match (sent : Except Failure Unit) with
      | .ok () => echoing e Dialog.endless
      | .error _ => .done ()
  | .farewell, _, _ => .ask (.send (.unknown ("bye".toUTF8).data.toList)) fun _ => .done ()

end App

namespace Dialog

variable {e : End}

/-- Carries out a handler on a connection and gives what it is told when it asks for the next payload. -/
def conduct (e : End) (limit : Nat) : Handler e → FrameStream → Dialog (List (Except Failure (Option Bytes)))
  | .done _, _ => pure []
  | .ask .next next, s => do
    let (told, s) ← nextPayload e s
    let more ← conduct e limit (next told) s
    pure (told :: more)
  | .ask (.send m) next, s => do
    let sent ← send e limit none m
    conduct e limit (next sent) s
  | .ask (.other op _) next, s => do
    let answer ← perform op
    conduct e limit (next answer) s

/-- Hands a payload to the application, whose handler is called once, and that is noted; all else is as it always is. -/
def attendWith (handle : App → Address → Bytes → Handler e) (member : Settings) (source : Address) (s : FrameStream) :
    Option Item → Dialog (Option Interview)
  | some (.message (.payload payload)) => do
    match (← perform .app : Option App) with
    | some app =>
      note (.arrived source payload)
      let told ← conduct e member.maxMessageLength (handle app source payload) s
      pure (some ⟨app, source, payload, told⟩)
    | none => pure none
  | some (.message request) => do
    dispatch member e source request s
    pure none
  | _ => pure none

/-- Serves a connection with these handlers, and gives the call that came of it. -/
def serveWith (inbound : Inbound) (handle : App → Address → Bytes → Handler inbound.here) : Dialog (Option Interview) := do
  let settings := (← look).settings
  let start ← clock
  let (item, s) ← receive inbound.here (some (start + settings.patience)) (.start settings.maxMessageLength)
  let call ← attendWith handle settings inbound.source s item
  release inbound.here
  pure call

/-- Serves a connection as applications do that handle payloads in this way. -/
def serveAs (handle : Handling) (inbound : Inbound) : Dialog Unit := (serveWith inbound (handle inbound.here)).silent

end Dialog

end ChordOverlay
