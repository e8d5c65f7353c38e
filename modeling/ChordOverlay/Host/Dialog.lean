import ChordOverlay.Member.Query
import ChordOverlay.Net.Network
import ChordOverlay.Wire.Stream

/-!
Dialogs: programs that work on connections byte by byte, under deadlines on a clock of milliseconds.
-/

namespace ChordOverlay

/-- What the application above a member does with a payload that arrives for it. -/
inductive App where
  /-- Takes note. -/
  | record
  /-- Sends the payload back. -/
  | echo
  /-- Sends back every payload of the connection. -/
  | echoAll
  /-- Sends a farewell outside the protocol of the ring. -/
  | farewell
  /-- Fails. -/
  | fail
deriving DecidableEq, Repr

/-- What a party writes down about what reaches it. -/
inductive Note where
  | arrived (source : Address) (payload : Bytes)
  | followed (payload : Bytes)
  | closed
  | failed (e : Failure)
  | heard (bytes : Bytes)
  | dropped
deriving DecidableEq, Repr

/-- The outcome of writing. -/
inductive Pushed where
  | accepted (count : Nat)
  | broken
  | late
deriving DecidableEq, Repr

/-- The outcome of reading. -/
inductive Taken where
  | bytes (bytes : Bytes)
  | ended
  | late
deriving DecidableEq, Repr

/-- The requests of a dialog. A read or a write waits until it can be met or its deadline is reached. -/
inductive DialogOp where
  | look
  | store (m : Member)
  | app
  | note (entry : Note)
  | leave
  | clock
  | pause (wake : Nat)
  | connect (target : Address)
  | push (e : End) (bytes : Bytes) (deadline : Option Nat)
  | take (e : End) (limit deadline : Option Nat)
  | finish (e : End)
  | release (e : End)
deriving Repr

/-- The end of a connection at which something is asked for. -/
def DialogOp.end? : DialogOp → Option End
  | .push e _ _ | .take e _ _ | .finish e | .release e => some e
  | _ => none

/-- What a dialog can ask for, and what it is answered. -/
def DialogOps : Interface where
  Op := DialogOp
  Answer
    | .look => Member
    | .app => Option App
    | .clock => Nat
    | .connect _ => Except NetFault End
    | .push .. => Pushed
    | .take .. => Taken
    | _ => Unit

/-- A program that works on connections. -/
abbrev Dialog (α : Type) := Program DialogOps α

namespace Dialog

/-- Makes one request. -/
def perform (op : DialogOp) : Dialog (DialogOps.Answer op) := Program.request (I := DialogOps) op

/-- The member as it is now. -/
def look : Dialog Member := perform .look

/-- Writes something down. -/
def note (entry : Note) : Dialog Unit := perform (.note entry)

/-- The time. -/
def clock : Dialog Nat := perform .clock

/-- Ends what is written at an end, whose other direction stays open. -/
def finish (e : End) : Dialog Unit := perform (.finish e)

/-- Gives an end up. -/
def release (e : End) : Dialog Unit := perform (.release e)

/-- Writes all of `bytes`; `n` bounds the number of writes, each of which takes at least a byte. -/
def sendBytesIn (e : End) (deadline : Option Nat) : Nat → Bytes → Dialog (Except Failure Unit)
  | 0, _ => pure (.ok ())
  | n + 1, bytes => do
    if bytes.isEmpty then pure (.ok ())
    else
      match (← perform (.push e bytes deadline) : Pushed) with
      | .accepted count => sendBytesIn e deadline n (bytes.drop count)
      | .broken => pure (.error .brokenPipe)
      | .late => pure (.error .timedOut)

/-- Writes all of `bytes`, unless the other end is gone or the deadline comes first. -/
def sendBytes (e : End) (deadline : Option Nat) (bytes : Bytes) : Dialog (Except Failure Unit) :=
  sendBytesIn e deadline bytes.length bytes

/-- Writes one message; one that is too large is not written at all. -/
def send (e : End) (limit : Nat) (deadline : Option Nat) (m : Message) : Dialog (Except Failure Unit) :=
  match m.frame limit with
  | .error f => pure (.error f)
  | .ok bytes => sendBytes e deadline bytes

/--
Reads until the stream gives an item, and gives nothing if the deadline comes first; `n` bounds the number
of reads, each of which brings at least a byte or the end.
-/
def receiveIn (e : End) (deadline : Option Nat) : Nat → FrameStream → Dialog (Option Item × FrameStream)
  | 0, s => pure (some .finished, s)
  | n + 1, s => do
    match s.pull with
    | (s, some item) => pure (some item, s)
    | (s, none) =>
      match (← perform (.take e none deadline) : Taken) with
      | .bytes bytes => receiveIn e deadline n (s.feed bytes)
      | .late => pure (none, s)
      | .ended =>
        match s.feedEnd with
        | some s => receiveIn e deadline n s
        | none => pure (some .finished, s)

/-- The next item of a stream. A header, the longest body and the end are as much as one item needs. -/
def receive (e : End) (deadline : Option Nat) (s : FrameStream) : Dialog (Option Item × FrameStream) :=
  receiveIn e deadline (Header.size + s.codec.limit + 3) s

/-- Carries out what a dialog does to its member before it asks for anything else, and returns what is left. -/
def ahead {α : Type} : Dialog α → Member → Dialog α × Member
  | .ask .look next, m => ahead (next m) m
  | .ask (.store m) next, _ => ahead (next ()) m
  | d, m => (d, m)

end Dialog

end ChordOverlay
