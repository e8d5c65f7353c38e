import ChordOverlay.Host.Leave
import ChordOverlay.Host.Server
import ChordOverlay.SystemFault
import ChordOverlay.Member.Upkeep
import ChordOverlay.Ring.Name
import ChordOverlay.Text.Lossy
import Std.Async.TCP
import Std.Async.Timer

/-!
A member that runs on this machine: its dialogs work on TCP connections and its rounds keep time by the clock
of the machine. What is decided is decided by the dialogs; here they are only carried out.
-/

namespace ChordOverlay

open Std.Async

/-- The connections that dialogs work on, by the numbers they know them by. -/
structure Sockets where
  next : Nat := 0
  held : List (Nat × TCP.Socket.Client) := []

/-- What the dialogs of a running member share. -/
structure Station where
  member : IO.Ref Member
  sockets : IO.Ref Sockets

namespace Station

/-- A station for a member without connections. -/
def ofMember (m : Member) : BaseIO Station := return ⟨← IO.mkRef m, ← IO.mkRef {}⟩

/-- The socket behind an end, as long as it is held. -/
def socket? (s : Station) (e : End) : BaseIO (Option TCP.Socket.Client) := do
  return (← s.sockets.get).held.lookup e.link

/-- Keeps a connection and returns its number. -/
def hold (s : Station) (socket : TCP.Socket.Client) : BaseIO Nat :=
  s.sockets.modifyGet fun t => (t.next, { next := t.next + 1, held := (t.next, socket) :: t.held })

/-- Forgets a connection; it closes as soon as nobody works on it any more. -/
def drop (s : Station) (e : End) : BaseIO Unit :=
  s.sockets.modify fun t => { t with held := t.held.filter fun h => h.1 ≠ e.link }

/-- An address as the sockets take it. -/
def socketAddress (addr : Address) : Std.Net.SocketAddress :=
  .v4 ⟨.ofParts addr.ip.a addr.ip.b addr.ip.c addr.ip.d, addr.port⟩

/-- The address of a socket, unless it is of another kind than those of members. -/
def address? : Std.Net.SocketAddress → Option Address
  | .v4 a => some ⟨⟨a.addr.octets[0], a.addr.octets[1], a.addr.octets[2], a.addr.octets[3]⟩, a.port⟩
  | .v6 _ => none

/-- Waits until a time on the clock. -/
def sleepUntil (wake : Nat) : Async Unit := do
  sleep (.ofNat (wake - (← IO.monoMsNow)))

/-- Works until the deadline, and leaves it at `late` then. -/
def within {α : Type} (deadline : Option Nat) (late : α) (work : Async α) : Async α :=
  have : Inhabited α := ⟨late⟩
  match deadline with
  | none => work
  | some deadline => Async.race work do
    sleepUntil deadline
    pure late

/-- A connection that nobody takes in time is one on which nothing moves: no socket belongs to it. -/
def connect (s : Station) (target : Address) : Async (Except NetFault End) := do
  let patience := (← s.member.get).settings.patience
  let start ← IO.monoMsNow
  let socket ← TCP.Socket.Client.mk
  let silent ← s.sockets.modifyGet fun t => (t.next, { t with next := t.next + 1 })
  within (some (start + patience)) (.ok ⟨silent, .caller⟩) do
    try
      socket.connect (socketAddress target)
      socket.noDelay
      return .ok ⟨← s.hold socket, .caller⟩
    catch e => return .error (SystemFault.ofConnect target e)

/-- Writes to the socket behind an end. -/
def push (s : Station) (e : End) (bytes : Bytes) (deadline : Option Nat) : Async Pushed := do
  match ← s.socket? e with
  | none => return .late
  | some socket =>
    within deadline .late do
      try
        socket.send (ByteArray.mk bytes.toArray)
        return .accepted bytes.length
      catch _ => return .broken

/-- How much is read at once when the reader does not say. -/
def readSize : Nat := 64 * 1024

/-- What a read of a socket has brought. -/
def taken : Option ByteArray → Taken
  | none => .ended
  | some bytes => .bytes bytes.data.toList

/-- Reads from the socket behind an end. -/
def take (s : Station) (e : End) (limit deadline : Option Nat) : Async Taken := do
  match ← s.socket? e with
  | none => return .late
  | some socket =>
    let size := (limit.getD readSize).toUInt64
    try
      match deadline with
      | none => return taken (← socket.recv? size)
      | some deadline =>
        let timer ← Selector.sleep (.ofNat (deadline - (← IO.monoMsNow)))
        Selectable.one #[
          .case (socket.recvSelector size) fun bytes => pure (taken bytes),
          .case timer fun _ => pure .late]
    catch _ => return .ended

/-- Shuts the writing side of a connection. -/
def finish (s : Station) (e : End) : Async Unit := do
  if let some socket ← s.socket? e then
    try socket.shutdown catch _ => pure ()

/-- Tells the operator what has arrived. -/
def tell : Note → IO Unit
  | .arrived source payload => do
    IO.println ("received from " ++ source.display ++ ":\n" ++ Text.lossy payload)
    (← IO.getStdout).flush
  | _ => pure ()

/-- Meets one request of a dialog. -/
def meet (s : Station) : (op : DialogOp) → Async (DialogOps.Answer op)
  | .look => s.member.get
  | .store m => s.member.set m
  | .app => pure (some .record)
  | .note entry => tell entry
  | .leave => pure ()
  | .clock => IO.monoMsNow
  | .pause wake => sleepUntil wake
  | .connect target => s.connect target
  | .push e bytes deadline => s.push e bytes deadline
  | .take e limit deadline => s.take e limit deadline
  | .finish e => s.finish e
  | .release e => s.drop e

/-- Carries a dialog out. What it does to the member between two waits happens in one step. -/
partial def carryOut {α : Type} (s : Station) (dialog : Dialog α) : Async α := do
  match ← s.member.modifyGet dialog.ahead with
  | .done a => pure a
  | .ask op next => s.carryOut (next (← s.meet op))

/-- Carries out the jobs of a gathering side by side, and then what they change together. -/
def gather {β : Type} (s : Station) (plan : Member → Gathering β) : Async Unit := do
  let m ← s.member.get
  let g := plan m
  let results ← Async.concurrentlyAll (g.jobs.map fun job => s.carryOut (job.toDialog m.settings)).toArray
  s.member.modify fun m => { m with view := g.finish results.toList m.view }

/-- One turn of a round. -/
def turn (s : Station) : Round → Async Unit
  | .stabilize => do
    let _ ← s.carryOut (Activity.stabilize.toDialog (← s.member.get).settings)
  | .fixFingers => s.gather Gathering.fixFingers
  | .checkNeighbours => do
    s.carryOut (Activity.checkPredecessor.toDialog (← s.member.get).settings)
    s.gather Gathering.checkSuccessors

/-- How often a round is made. -/
def period (s : Settings) : Round → Nat
  | .checkNeighbours => s.checkEvery
  | _ => s.stabilizeEvery

/-- Repeats a round as long as the member keeps it running. -/
partial def keep (s : Station) (round : Round) : Async Unit := do
  sleep (.ofNat (period (← s.member.get).settings round))
  if (← s.member.get).rounds.contains round then
    try s.turn round catch _ => pure ()
    s.keep round

/-- Starts the rounds of a member that has just become part of a ring. -/
def keepAll (s : Station) : Async Unit := do
  for round in (← s.member.get).rounds do
    background (s.keep round)

/-- Serves one connection. -/
def receive (s : Station) (socket : TCP.Socket.Client) : Async Unit := do
  socket.noDelay
  if let some source := address? (← socket.getPeerName) then
    let link ← s.hold socket
    background (s.carryOut (Dialog.serve ⟨link, source⟩))

/-- How long to wait after a connection could not be accepted. -/
def acceptPause : Nat := 100

/-- Serves every connection until the member leaves. -/
partial def welcome (s : Station) (server : TCP.Socket.Server) : Async Unit := do
  try s.receive (← server.accept)
  catch _ => sleep (.ofNat acceptPause)
  if (← s.member.get).phase ≠ .destroyed then s.welcome server

/-- Sets a member up on a port of this machine, and starts to serve. -/
def listen (name : String) (ip : Ipv4) (port : UInt16) (settings : Settings) :
    IO (Except Failure (Station × Peer)) := do
  let bound : Except IO.Error (TCP.Socket.Server × Std.Net.SocketAddress) ← EIO.toBaseIO do
    let server ← TCP.Socket.Server.mk
    server.bind (socketAddress ⟨ip, port⟩)
    server.listen 1024
    return (server, ← server.getSockName)
  match bound with
  | .error e => return .error (.network (SystemFault.toNetFault e))
  | .ok (server, place) =>
    let addr := (address? place).getD ⟨ip, port⟩
    let self : Peer := ⟨.ofName name, settings.advertisedIp addr.ip, addr.port⟩
    let station ← ofMember (.fresh self settings)
    (background (station.welcome server)).block
    return .ok (station, self)

end Station

end ChordOverlay
