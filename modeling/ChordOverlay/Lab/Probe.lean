import ChordOverlay.Host.Client

/-!
Dialogs of an experimenter: conversations that are written down item by item, and bare connections.
-/

namespace ChordOverlay.Dialog

/-- One turn of a conversation as its caller sees it. -/
inductive Utterance where
  | item (item : Item)
  | unsent (e : Failure)
  | silence
deriving DecidableEq, Repr

/-- How long a caller waits for each item. -/
def talkPatience : Nat := 1000

/-- Waits a while for the next message on a connection. -/
def hearNext (e : End) (s : FrameStream) : Dialog (Utterance × FrameStream) := do
  let start ← clock
  match ← receive e (some (start + talkPatience)) s with
  | (some item, s) => pure (.item item, s)
  | (none, s) => pure (.silence, s)

/-- Sends each message and hears what comes next; a message that cannot be sent ends the conversation. -/
def talkOn (e : End) (limit : Nat) : List Message → FrameStream → Dialog (List Utterance)
  | [], _ => pure []
  | m :: rest, s => do
    match ← send e limit none m with
    | .error f => pure [.unsent f]
    | .ok () =>
      let (heard, s) ← hearNext e s
      return heard :: (← talkOn e limit rest s)

/-- Opens a conversation with a payload and goes on with `more`, hearing one item after each. -/
def talk (s : Settings) (target : Address) (payload : Bytes) (more : List Message) :
    Dialog (Except Failure (List Utterance)) := do
  match ← openWith s target payload with
  | .error f => pure (.error f)
  | .ok e =>
    let (heard, stream) ← hearNext e (.start s.maxMessageLength)
    let rest ← talkOn e s.maxMessageLength more stream
    release e
    pure (.ok (heard :: rest))

/-- Writes chunks one millisecond apart. -/
def sendChunks (e : End) : List Bytes → Dialog (Except Failure Unit)
  | [] => pure (.ok ())
  | [chunk] => sendBytes e none chunk
  | chunk :: rest => do
    match ← sendBytes e none chunk with
    | .error f => pure (.error f)
    | .ok () =>
      let now ← clock
      perform (.pause (now + 1))
      sendChunks e rest

/-- Reads everything until the end, or until a deadline; says whether the end came. -/
def readAll (e : End) (deadline : Nat) : Nat → Bytes → Dialog (Bytes × Bool)
  | 0, got => pure (got, false)
  | n + 1, got => do
    match (← perform (.take e none (some deadline)) : Taken) with
    | .bytes bytes => readAll e deadline n (got ++ bytes)
    | .ended => pure (got, true)
    | .late => pure (got, false)

/-- How long a bare connection is read. -/
def rawPatience : Nat := 5000

/-- A bare connection: writes `chunks`, closes its own direction if told to, and reads what comes back. -/
def raw (target : Address) (chunks : List Bytes) (close : Bool) : Dialog (Except Failure (Bytes × Bool)) := do
  match ← perform (.connect target) with
  | .error fault => pure (.error (.network fault))
  | .ok e =>
    match ← sendChunks e chunks with
    | .error f =>
      release e
      pure (.error f)
    | .ok () =>
      if close then finish e
      let start ← clock
      let got ← readAll e (start + rawPatience) (Nat.pow 2 60) []
      release e
      pure (.ok got)

end ChordOverlay.Dialog
