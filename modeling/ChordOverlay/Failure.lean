import ChordOverlay.View

/-!
Everything that can go wrong between members of a ring, and the text that tells it.
-/

namespace ChordOverlay

/-- What a network can answer instead of a connection or a listener. -/
inductive NetFault where
  | io (what : String)
  | refused (addr : Address)
  | inUse (addr : Address)
  | unsupported (endpoint : String)
  | listenerClosed (addr : Address)
deriving DecidableEq, Repr

/-- What a fault of the network says. -/
def NetFault.message : NetFault → String
  | .io what => "IO error: " ++ what
  | .refused addr => "Connection refused by " ++ addr.display
  | .inUse addr => "Address " ++ addr.display ++ " already in use"
  | .unsupported endpoint => "Only IPv4 endpoints are supported, got " ++ endpoint
  | .listenerClosed addr => "Listener on " ++ addr.display ++ " is closed"

/-- Why an operation on or between members failed. -/
inductive Failure where
  | io (what : String)
  | network (fault : NetFault)
  | unknownKind (tag : UInt8)
  | malformedHeader (what : String)
  | malformedBody (what : String)
  | tooLarge (size limit : Nat)
  | closedEarly
  | timedOut
  | unexpectedReply (what : String)
  | noSuccessor (id : RingId)
  | outOfHops (id : RingId)
  | joinFailed (why : String)
  | invalidState (state : String)
  | duplicateId (id : RingId)
  | invalidDecision
  | unexpectedDecision (decision : Decision)
  | ringLocked
  | successorsUnreadable
  | successorsUnwritable
  | stateLocked
  | handlerLocked
  | application (what : String)
deriving DecidableEq, Repr

/-- What a failure says to whoever reads it. -/
def Failure.message : Failure → String
  | .io what => "IO error: " ++ what
  | .network fault => "Transport error: " ++ fault.message
  | .unknownKind tag => "Unknown message type 0x" ++ Numeral.hex 2 tag.toNat
  | .malformedHeader what => "Malformed message header: " ++ what
  | .malformedBody what => "Malformed message body: " ++ what
  | .tooLarge size limit =>
    "Message has " ++ toString size ++ " bytes which is larger than " ++ toString limit
  | .closedEarly => "Connection closed before a reply arrived"
  | .timedOut => "Remote call timed out"
  | .unexpectedReply what => "Unexpected reply: " ++ what
  | .noSuccessor id => "No successor found for " ++ id.display
  | .outOfHops id => "Lookup for " ++ id.display ++ " ran out of hops"
  | .joinFailed why => "Failed to join ring: " ++ why
  | .invalidState state => "Operation not allowed in node state " ++ state
  | .duplicateId id => "Id " ++ id.display ++ " is already taken on the ring"
  | .invalidDecision => "Invalid PeerRingAction"
  | .unexpectedDecision decision => "Unexpected PeerRingAction, " ++ decision.describe
  | .ringLocked => "Failed to get dht from a sync lock"
  | .successorsUnreadable => "Failed to read successors"
  | .successorsUnwritable => "Failed to write successors"
  | .stateLocked => "Failed to lock node state"
  | .handlerLocked => "Failed to lock app message handler"
  | .application what => "App message handler failed: " ++ what

/-- The network breaks a connection whose other end is gone. -/
def Failure.brokenPipe : Failure := .io "broken pipe"

end ChordOverlay
