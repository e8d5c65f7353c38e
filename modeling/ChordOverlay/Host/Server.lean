import ChordOverlay.Host.Client
import ChordOverlay.Member.Answer

/-!
The called side: one request per connection, answered and closed; payloads are handed to the application,
which may carry on a conversation on the same connection.
-/

namespace ChordOverlay.Dialog

/-- The next payload of a conversation; nothing when the other side has closed. -/
def nextPayload (e : End) (s : FrameStream) : Dialog (Except Failure (Option Bytes) × FrameStream) := do
  match ← receive e none s with
  | (some (.message (.payload bytes)), s) => pure (.ok (some bytes), s)
  | (some (.message m), s) => pure (.error (.unexpectedReply m.describe), s)
  | (some (.failure f), s) => pure (.error f, s)
  | (_, s) => pure (.ok none, s)

/-- Notes and sends back at most `n` payloads that follow the first. -/
def echoRest (e : End) (limit : Nat) : Nat → FrameStream → Dialog Unit
  | 0, _ => pure ()
  | n + 1, s => do
    match ← nextPayload e s with
    | (.ok (some payload), s) =>
      note (.followed payload)
      match ← send e limit none (.payload payload) with
      | .ok () => echoRest e limit n s
      | .error _ => pure ()
    | (.ok none, _) => note .closed
    | (.error f, _) => note (.failed f)

/-- More payloads than any connection can carry. -/
def endless : Nat := Nat.pow 2 60

/-- What an application does with the first payload of a connection and what follows it. -/
def converse (app : App) (e : End) (limit : Nat) (source : Address) (payload : Bytes) (s : FrameStream) :
    Dialog Unit := do
  note (.arrived source payload)
  match app with
  | .record | .fail => pure ()
  | .echo =>
    let _ ← send e limit none (.payload payload)
    pure ()
  | .echoAll =>
    match ← send e limit none (.payload payload) with
    | .ok () => echoRest e limit endless s
    | .error _ => pure ()
  | .farewell =>
    let _ ← send e limit none (.unknown (("bye".toUTF8).data.toList))
    pure ()

/-- Serves the first message of a connection; without an application, payloads are dropped. -/
def dispatch (member : Settings) (e : End) (source : Address) (m : Message) (s : FrameStream) :
    Dialog Unit := do
  match m with
  | .payload payload =>
    match (← perform .app : Option App) with
    | some app => converse app e member.maxMessageLength source payload s
    | none => pure ()
  | m =>
    match ← (Activity.answer source.ip m).toDialog member with
    | none => pure ()
    | some reply =>
      match ← send e member.maxMessageLength none reply with
      | .ok () => finish e
      | .error _ => pure ()

/--
Reads one message from a connection and serves it, then closes. Silence, an early end and malformed bytes
close it without an answer.
-/
def serve (inbound : Inbound) : Dialog Unit := do
  let e : End := ⟨inbound.link, .callee⟩
  let settings := (← look).settings
  let start ← clock
  match ← receive e (some (start + settings.patience)) (.start settings.maxMessageLength) with
  | (some (.message m), s) => dispatch settings e inbound.source m s
  | _ => pure ()
  release e

end ChordOverlay.Dialog
