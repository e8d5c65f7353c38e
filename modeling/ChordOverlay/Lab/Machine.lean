import ChordOverlay.Host.Handler

/-!
A machine that runs members and scripted peers on one network in memory, under a clock that moves only when
everything waits. Work takes no time; the order in which things run is fixed by a queue.
-/

namespace ChordOverlay

/-- How a scripted peer treats a connection. -/
inductive Manner where
  /-- Reads once, replies, closes. -/
  | reply
  /-- Reads once, replies, and keeps the connection open. -/
  | hold
  /-- Closes at once. -/
  | drop
deriving DecidableEq, Repr

/-- A scripted peer: its replies in the order of its connections, the last one for all that follow. -/
structure Script where
  manner : Manner
  replies : List Bytes
  served : Nat
deriving DecidableEq, Repr

namespace Script

/-- The reply to the connection at hand. -/
def nextReply (s : Script) : Bytes := s.replies.getD s.served (s.replies.getLast?.getD [])

/-- How many bytes a scripted peer reads at most. -/
def readLimit : Nat := 64 * 1024

/-- Serves one connection in the manner of the script. -/
def serve (s : Script) (inbound : Inbound) : Dialog Unit := do
  let e : End := ⟨inbound.link, .callee⟩
  if s.manner = .drop then
    Dialog.note .dropped
    Dialog.release e
  else
    match (← Dialog.perform (.take e (some readLimit) none) : Taken) with
    | .bytes bytes => Dialog.note (.heard bytes)
    | _ => Dialog.note (.heard [])
    let _ ← Dialog.sendBytes e none s.nextReply
    if s.manner = .reply then Dialog.release e

end Script

/-- What a party on the network is. -/
inductive Role where
  | member (m : Member) (app : Option App)
  | script (s : Script)

/-- Somebody on the network. -/
structure Party where
  ip : Ipv4
  role : Role
  /-- What the party has written down, oldest first. -/
  journal : List Note

/-- A dialog under way: the party it belongs to, if any, and the host it calls from. -/
structure Thread (β : Type) where
  party : Option Nat
  ip : Ipv4
  rest : Dialog β

/-- All parties, the network between them and what is at work. -/
structure Machine where
  now : Nat
  network : Network
  parties : List Party
  /-- Dialogs that serve connections accepted so far. -/
  threads : List (Thread Unit)
  /-- What the application of each party does with payloads. -/
  handle : Nat → Handling := fun _ => App.handler

namespace Machine

/-- Nobody is there, and nothing is at work. -/
def empty : Machine where
  now := 0
  network := .empty
  parties := []
  threads := []

/-- The party of this number, if one is meant. -/
def party? (m : Machine) (k : Option Nat) : Option Party := k.bind fun k => m.parties[k]?

/-- Changes a party, if one is meant. -/
def updateParty (m : Machine) (k : Option Nat) (f : Party → Party) : Machine :=
  match k with
  | none => m
  | some k => { m with parties := m.parties.modify k f }

/-- One party more, and its number. -/
def addParty (m : Machine) (p : Party) : Machine × Nat :=
  ({ m with parties := m.parties ++ [p] }, m.parties.length)

/-- The state of a member; parties of other kinds have none to show. -/
def member (m : Machine) (k : Option Nat) : Member :=
  match (m.party? k).map Party.role with
  | some (.member member _) => member
  | _ => default

/-- The application above a member. -/
def app (m : Machine) (k : Option Nat) : Option App :=
  match (m.party? k).map Party.role with
  | some (.member _ app) => app
  | _ => none

/-- Puts a member in the place of what it was. -/
def setMember (m : Machine) (k : Option Nat) (member : Member) : Machine :=
  m.updateParty k fun p =>
    match p.role with
    | .member _ app => { p with role := .member member app }
    | .script _ => p

/-- Starts serving a connection at the party that listens for it. -/
def serveAt (m : Machine) (k : Nat) (inbound : Inbound) : Machine :=
  match m.parties[k]? with
  | none => m
  | some p =>
    match p.role with
    | .member .. => { m with threads := m.threads ++ [Thread.mk (some k) p.ip (Dialog.serveAs (m.handle k) inbound)] }
    | .script s =>
      let m := { m with threads := m.threads ++ [Thread.mk (some k) p.ip (s.serve inbound)] }
      m.updateParty (some k) fun p => { p with role := .script { s with served := s.served + 1 } }

/-- Accepts a connection waiting at `addr`. -/
def acceptAt (m : Machine) (addr : Address) : Machine :=
  match m.network.listener? addr, m.network.accept addr with
  | some l, (network, some inbound) => { m with network }.serveAt l.owner inbound
  | _, _ => m

/-- Whether a deadline has been reached. -/
def isDue (m : Machine) (deadline : Option Nat) : Bool := deadline.any fun d => d ≤ m.now

/-- Whether a request can be met now. -/
def canMeet (m : Machine) : DialogOp → Bool
  | .pause wake => wake ≤ m.now
  | .push e _ deadline =>
    match m.network.link? e.link with
    | none => true
    | some l => (l.outgoing e.side).closed || 0 < (l.outgoing e.side).room || m.isDue deadline
  | .take e _ deadline =>
    match m.network.link? e.link with
    | none => true
    | some l => !(l.incoming e.side).held.isEmpty || (l.incoming e.side).closed || m.isDue deadline
  | _ => true

/-- Writes what fits; the other end may be gone, and the time may be up. -/
def push (m : Machine) (e : End) (bytes : Bytes) : Machine × Pushed :=
  match m.network.link? e.link with
  | none => (m, .broken)
  | some l =>
    let pipe := l.outgoing e.side
    if pipe.closed then (m, .broken)
    else if pipe.room = 0 then (m, .late)
    else
      let (pipe, count) := pipe.push bytes
      let network := m.network.updateLink e.link fun l => l.setOutgoing e.side pipe
      ({ m with network }, .accepted count)

/-- Reads what is there; bytes on their way are read before the end is noticed. -/
def take (m : Machine) (e : End) (limit : Option Nat) : Machine × Taken :=
  match m.network.link? e.link with
  | none => (m, .ended)
  | some l =>
    let pipe := l.incoming e.side
    if pipe.held.isEmpty then (m, if pipe.closed then .ended else .late)
    else
      let (pipe, bytes) := pipe.take limit
      let network := m.network.updateLink e.link fun l => l.setIncoming e.side pipe
      ({ m with network }, .bytes bytes)

/-- Meets a request of a party, or gives no answer when it has to wait. -/
def meet (m : Machine) (party : Option Nat) (ip : Ipv4) (op : DialogOp) :
    Machine × Option (DialogOps.Answer op) :=
  if m.canMeet op then
    match op with
    | .look => (m, some (m.member party))
    | .store member => (m.setMember party member, some ())
    | .app => (m, some (m.app party))
    | .note entry => (m.updateParty party fun p => { p with journal := p.journal ++ [entry] }, some ())
    | .leave =>
      match party with
      | some k => ({ m with network := m.network.unlisten k }, some ())
      | none => (m, some ())
    | .clock => (m, some m.now)
    | .pause _ => (m, some ())
    | .connect target =>
      let (network, result) := m.network.connect ip target
      ({ m with network }.acceptAt target, some result)
    | .push e bytes _ => let (m, pushed) := m.push e bytes; (m, some pushed)
    | .take e limit _ => let (m, taken) := m.take e limit; (m, some taken)
    | .finish e => ({ m with network := m.network.finish e }, some ())
    | .release e => ({ m with network := m.network.release e }, some ())
  else (m, none)

/-- Runs a dialog until it ends or has to wait. -/
def advance {β : Type} (party : Option Nat) (ip : Ipv4) : Dialog β → Machine → Machine × Except (Dialog β) β
  | .done b, m => (m, .ok b)
  | .ask op next, m =>
    match m.meet party ip op with
    | (m, some answer) => advance party ip (next answer) m
    | (m, none) => (m, .error (.ask op next))

end Machine

/-- When a waiting dialog gives up. -/
def DialogOp.deadline? : DialogOp → Option Nat
  | .pause wake => some wake
  | .push _ _ deadline | .take _ _ deadline => deadline
  | _ => none

/-- A thread in the queue: one of those asked for, by number, or one that serves a connection. -/
inductive Task (α : Type) where
  | front (slot : Nat) (t : Thread α)
  | back (t : Thread Unit)

namespace Task

variable {α : Type}

/-- The request a task stands before. -/
def op? : Task α → Option DialogOp
  | .front _ t =>
    match t.rest with
    | .ask op _ => some op
    | .done _ => none
  | .back t =>
    match t.rest with
    | .ask op _ => some op
    | .done _ => none

/-- The task can go on: what it asks for next can be met. -/
def isReady (m : Machine) (t : Task α) : Bool := t.op?.all m.canMeet

/-- When the task gives up what it waits for. -/
def deadline? (t : Task α) : Option Nat := t.op?.bind DialogOp.deadline?

/-- The task is one of those asked for. -/
def isFront : Task α → Bool
  | .front .. => true
  | .back _ => false

/-- The thread of a task that serves a connection. -/
def thread? : Task α → Option (Thread Unit)
  | .front .. => none
  | .back t => some t

end Task

/-- A run under way: tasks that can go on, in turn, and tasks that wait. -/
structure Run (α : Type) where
  machine : Machine
  ready : List (Task α)
  waiting : List (Task α)
  results : List (Nat × α)

namespace Run

variable {α : Type}

/-- The threads of the machine and those asked for, all taken into the queue. -/
def start (m : Machine) (jobs : List (Thread α)) : Run α :=
  let tasks := jobs.zipIdx.map (fun (t, slot) => Task.front slot t) ++ m.threads.map Task.back
  let (ready, waiting) := tasks.partition (Task.isReady m)
  ⟨{ m with threads := [] }, ready, waiting, []⟩

/-- Queues threads started since, and then tasks that no longer have to wait. -/
def wake (r : Run α) : Run α :=
  let started := r.machine.threads.map Task.back
  let machine := { r.machine with threads := [] }
  let (ready, waiting) := r.waiting.partition (Task.isReady machine)
  { r with machine, ready := r.ready ++ started ++ ready, waiting }

/-- Lets one task go on as far as it can. -/
def turn (r : Run α) (t : Task α) : Run α :=
  match t with
  | .front slot t =>
    match r.machine.advance t.party t.ip t.rest with
    | (machine, .ok a) => { r with machine, results := r.results ++ [(slot, a)] }
    | (machine, .error rest) =>
      { r with machine, waiting := r.waiting ++ [.front slot { t with rest }] }
  | .back t =>
    match r.machine.advance t.party t.ip t.rest with
    | (machine, .ok ()) => { r with machine }
    | (machine, .error rest) => { r with machine, waiting := r.waiting ++ [.back { t with rest }] }

/-- Moves the clock to the earliest deadline; those who asked are served before the others. -/
def pass (r : Run α) : Option (Run α) :=
  match (r.waiting.filterMap Task.deadline?).min? with
  | none => none
  | some time =>
    let machine := { r.machine with now := max r.machine.now time }
    let (ready, waiting) := r.waiting.partition (Task.isReady machine)
    let (front, back) := ready.partition Task.isFront
    some { r with machine, ready := front ++ back, waiting }

/-- Runs until `wanted` results are there, or nothing can go on any more, or `n` turns are over. -/
def untilDone (wanted : Nat) : Nat → Run α → Run α
  | 0, r => r
  | n + 1, r =>
    if wanted ≤ r.results.length then r
    else
      match r.ready with
      | t :: ready => untilDone wanted n ({ r with ready }.turn t).wake
      | [] =>
        match r.pass with
        | some r => untilDone wanted n r
        | none => r

/-- Runs until every task waits, without letting time pass. -/
def untilQuiet : Nat → Run α → Run α
  | 0, r => r
  | n + 1, r =>
    match r.ready with
    | t :: ready => untilQuiet n ({ r with ready }.turn t).wake
    | [] => r

/-- The machine with the threads that are still under way. -/
def finish (r : Run α) : Machine :=
  { r.machine with threads := (r.ready ++ r.waiting).filterMap Task.thread? ++ r.machine.threads }

/-- More turns than any run takes. -/
def enough : Nat := Nat.pow 2 60

end Run

namespace Machine

/-- Runs dialogs side by side until all have ended, and returns their results in order. -/
def runAll {α : Type} (m : Machine) (jobs : List (Thread α)) : Machine × List (Option α) :=
  let r := (Run.start m jobs).untilDone jobs.length Run.enough
  (r.finish, (List.range jobs.length).map fun slot => r.results.lookup slot)

/-- Lets `ms` milliseconds pass in one step, before and after which everything runs that can. -/
def elapse (m : Machine) (ms : Nat) : Machine :=
  let quiet (m : Machine) : Machine := ((Run.start m ([] : List (Thread Unit))).untilQuiet Run.enough).finish
  let m := quiet m
  quiet { m with now := m.now + ms }

end Machine

end ChordOverlay
