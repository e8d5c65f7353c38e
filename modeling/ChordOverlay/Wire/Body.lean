import ChordOverlay.Wire.Header

/-!
The bodies of messages: numbers in network byte order, and a status byte in front of what may be missing.
-/

namespace ChordOverlay

/-- What can be wrong with a complete body, or with a part of one read by itself. -/
inductive BodyFault where
  | size (kind : Kind) (got : Nat) (allowed : List Nat)
  | status (kind : Kind) (byte : UInt8)
  | noStatus (kind : Kind)
  | aliveCheck
  | declared (length got : Nat)
  | cut (buffered : Nat)
  | peer (got : Nat)
  | id (text : String) (fault : Numeral.Fault)

/-- What is wrong with a body, in words. -/
def BodyFault.message : BodyFault → String
  | .size kind got allowed =>
    kind.name ++ " body of " ++ toString got ++ " bytes, expected one of ["
      ++ ", ".intercalate (allowed.map toString) ++ "]"
  | .status kind byte => kind.name ++ " status byte 0x" ++ Numeral.hex 2 byte.toNat
  | .noStatus kind => kind.name ++ " missing status byte"
  | .aliveCheck => "alive check body"
  | .declared length got => "declared " ++ toString length ++ " bytes, got " ++ toString got
  | .cut buffered => "stream ended inside a frame, " ++ toString buffered ++ " bytes buffered"
  | .peer got => "node info needs " ++ toString Peer.wireLength ++ " bytes, got " ++ toString got
  | .id text fault => "bad ring id " ++ Text.quoted text ++ ": " ++ fault.message

/-- The failure that a faulty body is to its reader. -/
def BodyFault.failure (fault : BodyFault) : Failure := .malformedBody fault.message

/-- Reads the wire form of a peer that stands alone. -/
def Peer.ofWire (bytes : Bytes) : Except Failure Peer :=
  match Peer.ofBytes? bytes with
  | some p => .ok p
  | none => .error (BodyFault.peer bytes.length).failure

/-- Reads a position from text, with the text in the failure. -/
def RingId.ofText (text : String) : Except Failure RingId :=
  (RingId.read text.toList).mapError fun fault => (BodyFault.id text fault).failure

namespace Body

/-- The status byte for what is so, or there. -/
def yes : UInt8 := 'Y'.toUInt8

/-- The status byte for what is not. -/
def no : UInt8 := 'N'.toUInt8

/-- The status byte of a flag. -/
def ofFlag (flag : Bool) : Bytes := [if flag then yes else no]

/-- A peer behind its status byte, or the status byte alone. -/
def ofPeer? : Option Peer → Bytes
  | some p => yes :: p.toBytes
  | none => [no]

/-- Reads a flag off its status byte. -/
def readFlag (kind : Kind) : Bytes → Except BodyFault Bool
  | [byte] =>
    if byte = yes then .ok true else if byte = no then .ok false else .error (.status kind byte)
  | body => .error (.size kind body.length [1])

/-- Reads a peer off what is behind its status byte. -/
def readPeer? (kind : Kind) : Bytes → Except BodyFault (Option Peer)
  | [] => .error (.noStatus kind)
  | status :: rest =>
    if status = yes then
      match Peer.ofBytes? rest with
      | some p => .ok (some p)
      | none => .error (.size kind (rest.length + 1) [1 + Peer.wireLength])
    else if status = no then
      if rest.isEmpty then .ok none else .error (.size kind (rest.length + 1) [1])
    else .error (.noStatus kind)

/-- The hops granted to a lookup whose sender names none. -/
def defaultHops : UInt8 := 32

/-- The message of a kind whose body is `body`. -/
def read (kind : Kind) (body : Bytes) : Except BodyFault Message :=
  match kind with
  | .lookup =>
    match body with
    | [a, b, c, d] => .ok (.lookup (.ofOctets a b c d) defaultHops)
    | [a, b, c, d, ttl] => .ok (.lookup (.ofOctets a b c d) ttl)
    | _ => .error (.size kind body.length [4, 5])
  | .lookupReport => (readPeer? kind body).map .lookupReport
  | .predecessorQuery =>
    match body with
    | [a, b, c, d] => .ok (.predecessorQuery (.ofOctets a b c d))
    | _ => .error (.size kind body.length [4])
  | .predecessorReport => (readPeer? kind body).map .predecessorReport
  | .aliveCheck => if body = [] ∨ body = [yes] then .ok .aliveCheck else .error .aliveCheck
  | .aliveReport => (readFlag kind body).map .aliveReport
  | .notice =>
    match body with
    | [a, b, c, d, p, q] => .ok (.notice (.ofOctets a b c d) ((p.toUInt16 <<< 8) ||| q.toUInt16))
    | _ => .error (.size kind body.length [6])
  | .noticeReport => (readFlag kind body).map .noticeReport
  | .payload => .ok (.payload body)
  | .unknown => .ok (.unknown body)

end Body

namespace Message

/-- The body of a message. -/
def body : Message → Bytes
  | .lookup id ttl => id.toBytes ++ [ttl]
  | .lookupReport owner => Body.ofPeer? owner
  | .predecessorQuery asker => asker.toBytes
  | .predecessorReport predecessor => Body.ofPeer? predecessor
  | .aliveCheck => Body.ofFlag true
  | .aliveReport alive => Body.ofFlag alive
  | .notice id port => id.toBytes ++ [(port >>> 8).toUInt8, port.toUInt8]
  | .noticeReport accepted => Body.ofFlag accepted
  | .payload bytes => bytes
  | .unknown bytes => bytes

/-- Interprets a body under its header, which must declare its exact length. -/
def ofBody (header : Header) (body : Bytes) : Except Failure Message :=
  if body.length = header.length then (Body.read header.kind body).mapError BodyFault.failure
  else .error (BodyFault.declared header.length body.length).failure

end Message

end ChordOverlay
