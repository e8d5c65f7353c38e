import ChordOverlay.Peer
import ChordOverlay.Text.Quoted

/-!
The messages members exchange. Every request has one kind of report as its answer; payloads and unknown
frames carry bytes that mean nothing to the ring.
-/

namespace ChordOverlay

/-- Bytes in the order they are sent in. -/
abbrev Bytes := List UInt8

/-- The ten kinds of message. -/
inductive Kind where
  | lookup
  | lookupReport
  | predecessorQuery
  | predecessorReport
  | aliveCheck
  | aliveReport
  | notice
  | noticeReport
  | payload
  | unknown
deriving DecidableEq, Repr, Inhabited

namespace Kind

/-- All kinds there are. -/
def all : List Kind :=
  [.lookup, .lookupReport, .predecessorQuery, .predecessorReport, .aliveCheck, .aliveReport, .notice,
   .noticeReport, .payload, .unknown]

/-- The byte that leads a frame of this kind: an upper-case letter asks and its lower case answers. -/
def tag : Kind → UInt8
  | .lookup => 'S'.toUInt8
  | .lookupReport => 's'.toUInt8
  | .predecessorQuery => 'P'.toUInt8
  | .predecessorReport => 'p'.toUInt8
  | .aliveCheck => 'A'.toUInt8
  | .aliveReport => 'a'.toUInt8
  | .notice => 'N'.toUInt8
  | .noticeReport => 'n'.toUInt8
  | .payload => 'M'.toUInt8
  | .unknown => '0'.toUInt8

/-- The kind with this tag. -/
def ofTag? (tag : UInt8) : Option Kind := all.find? fun kind => kind.tag == tag

/-- What a kind is called. -/
def name : Kind → String
  | .lookup => "FindSuccessorSend"
  | .lookupReport => "FindSuccessorReport"
  | .predecessorQuery => "QueryPredecessorSend"
  | .predecessorReport => "QueryPredecessorReport"
  | .aliveCheck => "AliveCheckSend"
  | .aliveReport => "AliveCheckReport"
  | .notice => "NotifyPredecessorSend"
  | .noticeReport => "NotifyPredecessorReport"
  | .payload => "CustomMessage"
  | .unknown => "Unknown"

theorem ofTag?_tag (kind : Kind) : ofTag? kind.tag = some kind := by cases kind <;> decide

end Kind

/-- One message. -/
inductive Message where
  /-- Who owns `id`? At most `ttl` more members may be asked. -/
  | lookup (id : RingId) (ttl : UInt8)
  /-- The owner, or nothing when the lookup failed. -/
  | lookupReport (owner : Option Peer)
  /-- Who precedes you? -/
  | predecessorQuery (asker : RingId)
  | predecessorReport (predecessor : Option Peer)
  | aliveCheck
  | aliveReport (alive : Bool)
  /-- The sender, at `id` and listening on `port`, may be your predecessor. -/
  | notice (id : RingId) (port : UInt16)
  | noticeReport (accepted : Bool)
  | payload (bytes : Bytes)
  | unknown (bytes : Bytes)
deriving DecidableEq, Repr

namespace Message

/-- The kind of a message. -/
def kind : Message → Kind
  | .lookup .. => .lookup
  | .lookupReport .. => .lookupReport
  | .predecessorQuery .. => .predecessorQuery
  | .predecessorReport .. => .predecessorReport
  | .aliveCheck => .aliveCheck
  | .aliveReport .. => .aliveReport
  | .notice .. => .notice
  | .noticeReport .. => .noticeReport
  | .payload .. => .payload
  | .unknown .. => .unknown

/-- The fields of a message, or its bytes. -/
def describeContent : Message → String
  | .lookup id ttl => fields ("id: " ++ id.describe ++ ", ttl: " ++ toString ttl.toNat)
  | .lookupReport owner => fields ("node: " ++ describePeer? owner)
  | .predecessorQuery asker => fields ("id: " ++ asker.describe)
  | .predecessorReport predecessor => fields ("node: " ++ describePeer? predecessor)
  | .aliveCheck => Kind.aliveCheck.name
  | .aliveReport alive => fields ("alive: " ++ toString alive)
  | .notice id port => fields ("id: " ++ id.describe ++ ", port: " ++ toString port.toNat)
  | .noticeReport accepted => fields ("accepted: " ++ toString accepted)
  | .payload bytes => fields ("size: " ++ toString bytes.length)
  | .unknown bytes => Text.quotedBytes bytes
where
  fields (text : String) : String := " \x7b " ++ text ++ " \x7d"

/-- A message as it is shown in a failure. -/
def describe (m : Message) : String :=
  let record :=
    match m with
    | .unknown _ | .aliveCheck => ""
    | _ => m.kind.name
  m.kind.name ++ "(" ++ record ++ m.describeContent ++ ")"

end Message

end ChordOverlay
