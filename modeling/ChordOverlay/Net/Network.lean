import ChordOverlay.Failure
import ChordOverlay.Net.Pipe

/-!
A network held in memory: who listens where, which connections are open, and which addresses swallow every
connection made to them without an answer.
-/

namespace ChordOverlay

/-- The two sides of a connection. -/
inductive Side where
  | caller
  | callee
deriving DecidableEq, Repr

/-- One end of one connection. -/
structure End where
  link : Nat
  side : Side
deriving DecidableEq, Repr

/-- A connection: what travels to the callee and what travels back, and which ends are still held. -/
structure Link where
  there : Pipe
  back : Pipe
  callerHeld : Bool
  calleeHeld : Bool
deriving DecidableEq, Repr

namespace Link

/-- A connection on which nothing has been sent. -/
def fresh : Link := ⟨.empty, .empty, true, true⟩

/-- The direction a side writes to. -/
def outgoing (l : Link) : Side → Pipe
  | .caller => l.there
  | .callee => l.back

/-- The direction a side reads from. -/
def incoming (l : Link) : Side → Pipe
  | .caller => l.back
  | .callee => l.there

/-- Changes the pipe that a side writes to. -/
def setOutgoing (l : Link) (side : Side) (p : Pipe) : Link :=
  match side with
  | .caller => { l with there := p }
  | .callee => { l with back := p }

/-- Changes the pipe that a side reads from. -/
def setIncoming (l : Link) (side : Side) (p : Pipe) : Link :=
  match side with
  | .caller => { l with back := p }
  | .callee => { l with there := p }

/-- Letting go of an end closes both directions; what is on its way to the other end can still be read. -/
def release (l : Link) (side : Side) : Link :=
  let l := { l with there := l.there.close, back := l.back.close }
  match side with
  | .caller => { l with callerHeld := false }
  | .callee => { l with calleeHeld := false }

/-- One of the two sides has not given the connection up. -/
def isHeld (l : Link) : Bool := l.callerHeld || l.calleeHeld

end Link

/-- A connection waiting to be accepted, and where it seems to come from. -/
structure Inbound where
  link : Nat
  source : Address
deriving DecidableEq, Repr

/-- The end that is held by whoever accepts the connection. -/
def Inbound.here (inbound : Inbound) : End := ⟨inbound.link, .callee⟩

/-- An address in use, by whom, and the connections made to it in order. -/
structure Listener where
  address : Address
  owner : Nat
  queue : List Inbound
deriving DecidableEq, Repr

/-- The network between the hosts. -/
structure Network where
  listeners : List Listener
  /-- Addresses that accept connections and never answer. -/
  swallowing : List Address
  /-- Swallowed connections, held until their address is restored. -/
  parked : List (Address × Nat)
  /-- How many ephemeral ports have been handed out. -/
  drawn : UInt16
  links : List (Nat × Link)
  /-- The number of the next connection. -/
  next : Nat
deriving DecidableEq, Repr

namespace Network

/-- Nobody listens, and no connection has been made. -/
def empty : Network := ⟨[], [], [], 0, [], 0⟩

/-- The port that is drawn first. -/
def firstEphemeralPort : Nat := 40000

/-- The next port of the ephemeral range, which is walked round and round. -/
def ephemeralPort (n : Network) : UInt16 :=
  UInt16.ofNat (firstEphemeralPort + n.drawn.toNat % (65535 - firstEphemeralPort))

/-- Who listens at an address. -/
def listener? (n : Network) (addr : Address) : Option Listener :=
  n.listeners.find? fun l => l.address = addr

/-- Whether anybody listens at an address. -/
def isListening (n : Network) (addr : Address) : Bool := (n.listener? addr).isSome

/-- Whether an address swallows what is made to it. -/
def isSwallowing (n : Network) (addr : Address) : Bool := n.swallowing.contains addr

/-- The connection of this number, as long as one of its sides holds it. -/
def link? (n : Network) (k : Nat) : Option Link := n.links.lookup k

/-- Changes a connection, and forgets it once both ends have been let go. -/
def updateLink (n : Network) (k : Nat) (f : Link → Link) : Network :=
  { n with links := n.links.filterMap fun (j, l) =>
      if j = k then
        let l := f l
        if l.isHeld then some (j, l) else none
      else some (j, l) }

/-- One connection more, and its number. -/
def addLink (n : Network) : Network × Nat :=
  ({ n with links := (n.next, .fresh) :: n.links, next := n.next + 1 }, n.next)

/-- Takes a port of `ip` into use; port zero stands for the next ephemeral one. -/
def listen (n : Network) (ip : Ipv4) (port : UInt16) (owner : Nat) : Network × Except NetFault Address :=
  let (n, port) := if port = 0 then ({ n with drawn := n.drawn + 1 }, n.ephemeralPort) else (n, port)
  let addr : Address := ⟨ip, port⟩
  if n.isListening addr then (n, .error (.inUse addr))
  else ({ n with listeners := n.listeners ++ [⟨addr, owner, []⟩] }, .ok addr)

/--
Opens a connection from `ip`. A swallowing address takes it and parks it; otherwise it waits at the listener,
seeming to come from a new ephemeral port; without a listener it is refused.
-/
def connect (n : Network) (ip : Ipv4) (target : Address) : Network × Except NetFault End :=
  if n.isSwallowing target then
    let (n, k) := n.addLink
    ({ n with parked := n.parked ++ [(target, k)] }, .ok ⟨k, .caller⟩)
  else if n.isListening target then
    let source : Address := ⟨ip, n.ephemeralPort⟩
    let (n, k) := n.addLink
    let listeners := n.listeners.map fun l =>
      if l.address = target then { l with queue := l.queue ++ [⟨k, source⟩] } else l
    ({ n with listeners, drawn := n.drawn + 1 }, .ok ⟨k, .caller⟩)
  else (n, .error (.refused target))

/-- Takes the oldest waiting connection of an address. -/
def accept (n : Network) (addr : Address) : Network × Option Inbound :=
  match (n.listener? addr).bind fun l => l.queue.head? with
  | none => (n, none)
  | some inbound =>
    let listeners := n.listeners.map fun l =>
      if l.address = addr then { l with queue := l.queue.tail } else l
    ({ n with listeners }, some inbound)

/-- Gives an end up. -/
def release (n : Network) (e : End) : Network := n.updateLink e.link fun l => l.release e.side

/-- Lets go of the callee's end of every listed connection. -/
def abandon (n : Network) (links : List Nat) : Network :=
  links.foldl (fun n k => n.release ⟨k, .callee⟩) n

/-- Frees the address `owner` listens on; connections nobody accepted are abandoned. -/
def unlisten (n : Network) (owner : Nat) : Network :=
  let (gone, kept) := n.listeners.partition fun l => l.owner = owner
  let waiting := gone.flatMap Listener.queue
  { n with listeners := kept }.abandon (waiting.map Inbound.link)

/-- Has an address swallow what is made to it from now on. -/
def swallow (n : Network) (addr : Address) : Network :=
  if n.isSwallowing addr then n else { n with swallowing := addr :: n.swallowing }

/-- Undoes `swallow`; the connections parked so far are abandoned. -/
def restore (n : Network) (addr : Address) : Network :=
  let (gone, kept) := n.parked.partition fun entry => entry.1 = addr
  { n with swallowing := n.swallowing.filter (· ≠ addr), parked := kept }.abandon (gone.map Prod.snd)

/-- How many connections an address holds without answering. -/
def parkedAt (n : Network) (addr : Address) : Nat := n.parked.countP fun entry => entry.1 = addr

/-- No more bytes will be written at this end. -/
def finish (n : Network) (e : End) : Network :=
  n.updateLink e.link fun l => l.setOutgoing e.side (l.outgoing e.side).close

end Network

end ChordOverlay
