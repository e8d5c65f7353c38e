import ChordOverlay.Member.Basic
import ChordOverlay.Program
import ChordOverlay.Wire.Body

/-!
The questions a member puts to other peers, and how each is carried by a request and its report.
-/

namespace ChordOverlay

/-- What one member can ask another. -/
inductive Query where
  | owner (id : RingId) (ttl : UInt8)
  | predecessor (asker : RingId)
  | alive
  | notify (id : RingId) (port : UInt16)
deriving DecidableEq, Repr

namespace Query

/-- What the answer to a query is. -/
abbrev Answer : Query → Type
  | .owner .. | .predecessor .. => Option Peer
  | .alive | .notify .. => Bool

/-- The message that puts a query. -/
def request : Query → Message
  | .owner id ttl => .lookup id ttl
  | .predecessor asker => .predecessorQuery asker
  | .alive => .aliveCheck
  | .notify id port => .notice id port

/-- The answer a report gives to a query; any other message is not an answer. -/
def read : (q : Query) → Message → Except Failure q.Answer
  | .owner _ _, .lookupReport p => .ok p
  | .predecessor _, .predecessorReport p => .ok p
  | .alive, .aliveReport flag => .ok flag
  | .notify _ _, .noticeReport flag => .ok flag
  | _, m => .error (.unexpectedReply m.describe)

/-- How long the asker waits for the answer. -/
def patience (s : Settings) : Query → Nat
  | .owner _ ttl => s.lookupPatience ttl
  | _ => s.patience

end Query

/-- What an activity of a member can do: read and write its own state, and ask another peer. -/
inductive MemberOp where
  | look
  | store (m : Member)
  | query (target : Address) (q : Query)

/-- Only a query lets time pass; between two queries nothing else happens to the member. -/
def MemberOps : Interface where
  Op := MemberOp
  Answer
    | .look => Member
    | .store _ => Unit
    | .query _ q => Except Failure q.Answer

/-- Something a member does that may involve asking other peers. -/
abbrev Activity (α : Type) := Program MemberOps α

namespace Activity

/-- The member as it is now. -/
def look : Activity Member := Program.request (I := MemberOps) .look

/-- Puts a member in the place of what it was. -/
def store (m : Member) : Activity Unit := Program.request (I := MemberOps) (.store m)

/-- Asks whoever listens at an address. -/
def query (target : Address) (q : Query) : Activity (Except Failure q.Answer) :=
  Program.request (I := MemberOps) (.query target q)

/-- Changes what the member knows of the ring. -/
def updateView (f : View → View) : Activity Unit := do
  let m ← look
  store { m with view := f m.view }

end Activity

end ChordOverlay
