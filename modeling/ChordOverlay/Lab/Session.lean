import ChordOverlay.Host.Leave
import ChordOverlay.Lab.Machine
import ChordOverlay.Lab.Probe
import ChordOverlay.Member.Join
import ChordOverlay.Member.Upkeep
import ChordOverlay.Ring.Name

/-!
An experiment on a machine: members and scripted peers under labels, driven step by step. Every step says
what came of it and how long it took.
-/

namespace ChordOverlay

/-- An address, or the label of the member that listens there. -/
inductive Target where
  | label (label : String)
  | address (addr : Address)

/-- A peer, or the label of a member. -/
inductive PeerName where
  | label (label : String)
  | peer (p : Peer)

/-- Who makes a call: a member, or a host that is no member. -/
inductive Caller where
  | member (label : String)
  | host (ip : Ipv4)

/-- What is done to a member while it waits to join. -/
inductive Meanwhile where
  | create
  | join
  | find (id : RingId)
  | shutdown

/-- The rounds of upkeep that can be driven by hand. -/
inductive Upkeep where
  | stabilize
  | fixFingers
  | checkPredecessor
  | checkSuccessors
  | syncSuccessors

/-- A change made directly to what a member knows. -/
inductive Touch where
  | join (p : PeerName)
  | notify (p : PeerName)
  | erase (p : PeerName)
  | sync (ps : List PeerName)
  | finger (slot : Nat) (p : Option PeerName)

/-- How a member is set up. -/
structure Blueprint where
  label : String
  ip : Ipv4
  port : UInt16
  id : Option RingId
  name : Option String
  settings : Settings
  app : Option App

/-- One step of an experiment. -/
inductive Step where
  | build (b : Blueprint)
  | create (n : String)
  | join (n : String) (target : Target)
  | joinDuring (n : String) (target : Target) (action : Meanwhile)
  | shutdown (n : String)
  | drop (n : String)
  | phase (n : String)
  | id (n : String)
  | topology (n : String)
  | topologies
  | upkeep (n : String) (round : Upkeep)
  | stabilizeAll (rounds : Nat)
  | find (n : String) (id : RingId)
  | findEach (n : String) (ids : List RingId)
  | touch (n : String) (touch : Touch)
  | ask (caller : Caller) (target : Target) (q : Query)
  | askNotify (caller : Caller) (target : Target) (me : PeerName)
  | call (caller : Caller) (target : Target) (m : Message)
  | send (n : String) (target : Target) (payload : Bytes)
  | route (n : String) (id : RingId) (payload : Bytes)
  | talk (n : String) (target : Target) (payload : Bytes) (more : List Message)
  | setApp (n : String) (app : App)
  | inbox (n : String)
  | raw (ip : Ipv4) (target : Target) (chunks : List Bytes) (close : Bool)
  | script (label : String) (ip : Ipv4) (port : UInt16) (manner : Manner) (replies : List Bytes)
  | heard (label : String)
  | swallow (target : Target)
  | restore (target : Target)
  | parked (target : Target)
  | listening (target : Target)
  | sleep (ms : Nat)

/-- What comes of a step. -/
inductive Reply where
  | nothing
  | unknownLabel
  | stuck
  | peer (p : Option Peer)
  | failure (e : Failure)
  | flag (b : Bool)
  | number (n : Nat)
  | text (text : String)
  | message (m : Message)
  | peers (rs : List (Except Failure Peer))
  | topology (p : Peer) (v : View)
  | topologies (vs : List (String × View))
  | notes (notes : List Note)
  | talk (heard : List Dialog.Utterance)
  | raw (bytes : Bytes) (ended : Bool)
  | brokenPipe
  | both (join other : Reply)

namespace Reply

/-- What came of something that gives nothing back. -/
def ofUnit : Option (Except Failure Unit) → Reply
  | none => .stuck
  | some (.ok ()) => .nothing
  | some (.error e) => .failure e

/-- What came of a search for a peer. -/
def ofPeer : Option (Except Failure Peer) → Reply
  | none => .stuck
  | some (.ok p) => .peer (some p)
  | some (.error e) => .failure e

/-- What came of something that is accepted or not. -/
def ofFlag : Option (Except Failure Bool) → Reply
  | none => .stuck
  | some (.ok b) => .flag b
  | some (.error e) => .failure e

/-- What came of a search that may find nobody. -/
def ofPeer? : Option (Except Failure (Option Peer)) → Reply
  | none => .stuck
  | some (.ok p) => .peer p
  | some (.error e) => .failure e

end Reply

/-- A machine, and the parties on it by their labels. -/
structure Session where
  machine : Machine
  members : List (String × Nat)
  scripts : List (String × Nat)

namespace Session

/-- No experiment has been begun. -/
def empty : Session := ⟨.empty, [], []⟩

/-- The settings of a member in an experiment: quick to give up, and background rounds far away. -/
def settings : Settings :=
  { patience := 300, hopMargin := 100, stabilizeEvery := 3600000, checkEvery := 3600000 }

/-- The party of the member under a label. -/
def member? (s : Session) (label : String) : Option Nat := s.members.lookup label

/-- The member that a party is. -/
def member (s : Session) (k : Nat) : Member := s.machine.member (some k)

/-- Members in the order of their labels. -/
def sorted (s : Session) : List (String × Nat) := s.members.mergeSort fun a b => a.1 ≤ b.1

/-- The host of a party. -/
def ip (s : Session) (k : Nat) : Ipv4 := ((s.machine.parties[k]?).map Party.ip).getD .unspecified

/-- The address that is meant. -/
def address? (s : Session) : Target → Option Address
  | .address addr => some addr
  | .label label => (s.member? label).map fun k => (s.member k).self.address

/-- The peer that is meant. -/
def peer? (s : Session) : PeerName → Option Peer
  | .peer p => some p
  | .label label => (s.member? label).map fun k => (s.member k).self

/-- Runs dialogs of one party side by side. -/
def runParty {α : Type} (s : Session) (k : Nat) (jobs : List (Dialog α)) : Session × List (Option α) :=
  let (machine, results) := s.machine.runAll (jobs.map fun d => ⟨some k, s.ip k, d⟩)
  ({ s with machine }, results)

/-- Runs one dialog of a party. -/
def runOne {α : Type} (s : Session) (k : Nat) (d : Dialog α) : Session × Option α :=
  let (s, results) := s.runParty k [d]
  (s, results.head?.join)

/-- Runs one dialog of a host that is no party. -/
def runHost {α : Type} (s : Session) (ip : Ipv4) (d : Dialog α) : Session × Option α :=
  let (machine, results) := s.machine.runAll [⟨none, ip, d⟩]
  ({ s with machine }, results.head?.join)

/-- Runs an activity of a member. -/
def runActivity {α : Type} (s : Session) (k : Nat) (a : Activity α) : Session × Option α :=
  s.runOne k (a.toDialog (s.member k).settings)

/-- Runs the jobs of a gathering side by side, and then its last step. -/
def runGathering {β : Type} (s : Session) (k : Nat) (g : Gathering β) : Session :=
  let (s, results) := s.runParty k (g.jobs.map fun a => a.toDialog (s.member k).settings)
  let m := s.member k
  { s with machine := s.machine.setMember (some k) { m with view := g.finish (results.filterMap id) m.view } }

/-- Gives a member another view. -/
def setView (s : Session) (k : Nat) (v : View) : Session :=
  { s with machine := s.machine.setMember (some k) { s.member k with view := v } }

/-- Does something to the network. -/
def updateNetwork (s : Session) (f : Network → Network) : Session :=
  { s with machine := { s.machine with network := f s.machine.network } }

/-- Sets a member up; the label is given to it only if its address is free, and taken from its old bearer. -/
def build (s : Session) (b : Blueprint) : Session × Reply :=
  let k := s.machine.parties.length
  let (network, result) := s.machine.network.listen b.ip b.port k
  let machine := { s.machine with network }
  match result with
  | .error fault => ({ s with machine }, .failure (.network fault))
  | .ok addr =>
    let self : Peer :=
      ⟨b.id.getD (.ofName (b.name.getD b.label)), b.settings.advertisedIp addr.ip, addr.port⟩
    let role := Role.member (.fresh self b.settings) b.app
    let (machine, k) := machine.addParty ⟨b.ip, role, []⟩
    let s := { s with machine }
    let s :=
      match s.member? b.label with
      | some old => s.updateNetwork fun n => n.unlisten old
      | none => s
    ({ s with members := (b.label, k) :: s.members.filter fun e => e.1 ≠ b.label }, .peer (some self))

/-- Has a member begin a ring. -/
def create (s : Session) (k : Nat) : Session × Reply :=
  match (s.member k).create with
  | .ok m => ({ s with machine := s.machine.setMember (some k) m }, .nothing)
  | .error e => (s, .failure e)

/-- Has a member make one round. -/
def upkeep (s : Session) (k : Nat) : Upkeep → Session × Reply
  | .stabilize =>
    let (s, r) := s.runActivity k Activity.stabilize
    (s, .ofUnit r)
  | .fixFingers => (s.runGathering k (.fixFingers (s.member k)), .nothing)
  | .checkPredecessor => ((s.runActivity k Activity.checkPredecessor).1, .nothing)
  | .checkSuccessors => (s.runGathering k (.checkSuccessors (s.member k)), .nothing)
  | .syncSuccessors => ((s.runActivity k Activity.syncSuccessors).1, .nothing)

/-- A round of upkeep on every member, in the order of their labels. -/
def upkeepAll (s : Session) (round : Upkeep) : Session :=
  s.sorted.foldl (fun s (_, k) => (s.upkeep k round).1) s

/-- Changes a view directly. -/
def touch (s : Session) (k : Nat) (t : Touch) : Session × Reply :=
  let v := (s.member k).view
  match t with
  | .join p =>
    match s.peer? p with
    | some p => (s.setView k (v.join p).1, .nothing)
    | none => (s, .unknownLabel)
  | .notify p =>
    match s.peer? p with
    | some p => (s.setView k (v.notify p).1, .flag (v.notify p).2)
    | none => (s, .unknownLabel)
  | .erase p =>
    match s.peer? p with
    | some p => (s.setView k (v.erase p), .nothing)
    | none => (s, .unknownLabel)
  | .sync ps =>
    match ps.mapM s.peer? with
    | some ps => (s.setView k (v.syncSuccessors ps), .nothing)
    | none => (s, .unknownLabel)
  | .finger slot none => (s.setView k (v.setFinger slot none), .nothing)
  | .finger slot (some p) =>
    match s.peer? p with
    | some p => (s.setView k (v.setFinger slot (some p)), .nothing)
    | none => (s, .unknownLabel)

/-- What is done while a join waits, in terms of the same member. -/
def meanwhile (settings : Settings) (bootstrap : Address) : Meanwhile → Dialog (Except Failure (Option Peer))
  | .create => do
    match (← Dialog.look).create with
    | .ok m =>
      Dialog.perform (.store m)
      pure (.ok none)
    | .error e => pure (.error e)
  | .join => do return (← (Activity.join bootstrap).toDialog settings).map some
  | .find id => do return (← (Activity.findSuccessor id).toDialog settings).map some
  | .shutdown => do
    Dialog.shutdown
    pure (.ok none)

/-- Does something to a member while it waits to join. -/
def joinDuring (s : Session) (k : Nat) (bootstrap : Address) (action : Meanwhile) : Session × Reply :=
  let settings := (s.member k).settings
  let join : Dialog (Except Failure (Option Peer)) := do
    return (← (Activity.join bootstrap).toDialog settings).map some
  match s.runParty k [join, meanwhile settings bootstrap action] with
  | (s, [joined, other]) => (s, .both (.ofPeer? joined) (.ofPeer? other))
  | (s, _) => (s, .stuck)

/-- Looks up positions one after the other. -/
def findEach (s : Session) (k : Nat) : List RingId → Session × List (Except Failure Peer)
  | [] => (s, [])
  | id :: rest =>
    let (s, r) := s.runActivity k (Activity.findSuccessor id)
    let (s, rs) := s.findEach k rest
    (s, r.toList ++ rs)

/-- Runs a dialog of a caller under its settings. -/
def runCaller {α : Type} (s : Session) (caller : Caller) (d : Settings → Dialog α) :
    Option (Session × Option α) :=
  match caller with
  | .member label => (s.member? label).map fun k => s.runOne k (d (s.member k).settings)
  | .host ip => some (s.runHost ip (d settings))

/-- Puts a query, and gives the answer. -/
def ask (s : Session) (caller : Caller) (addr : Address) (q : Query) : Session × Reply :=
  match s.runCaller caller fun settings => Dialog.inquire settings addr q with
  | none => (s, .unknownLabel)
  | some (s, answer) =>
    (s, match q, answer with
      | .owner .., answer => .ofPeer? answer
      | .predecessor .., answer => .ofPeer? answer
      | .notify .., answer => .ofFlag answer
      | .alive, some (.ok alive) => .flag alive
      | .alive, some (.error _) => .flag false
      | .alive, none => .stuck)

/-- Takes what a party has written down. -/
def takeNotes (s : Session) (k : Nat) : Session × Reply :=
  let notes := ((s.machine.parties[k]?).map Party.journal).getD []
  ({ s with machine := s.machine.updateParty (some k) fun p => { p with journal := [] } }, .notes notes)

/-- Sets a scripted peer up. -/
def script (s : Session) (label : String) (ip : Ipv4) (port : UInt16) (script : Script) : Session × Reply :=
  let k := s.machine.parties.length
  let (network, result) := s.machine.network.listen ip port k
  let machine := { s.machine with network }
  match result with
  | .error fault => ({ s with machine }, .failure (.network fault))
  | .ok _ =>
    let (machine, k) := machine.addParty ⟨ip, .script script, []⟩
    ({ s with machine, scripts := (label, k) :: s.scripts.filter fun e => e.1 ≠ label }, .nothing)

/-- Does something with the member under a label. -/
def withMember (s : Session) (label : String) (f : Nat → Session × Reply) : Session × Reply :=
  match s.member? label with
  | some k => f k
  | none => (s, .unknownLabel)

/-- Does something with the address that is meant. -/
def withAddress (s : Session) (target : Target) (f : Address → Session × Reply) : Session × Reply :=
  match s.address? target with
  | some addr => f addr
  | none => (s, .unknownLabel)

/-- Carries out one step. -/
def perform (s : Session) : Step → Session × Reply
  | .build b => s.build b
  | .create n => s.withMember n s.create
  | .join n target =>
    s.withMember n fun k => s.withAddress target fun addr =>
      let (s, r) := s.runActivity k (Activity.join addr)
      (s, .ofPeer r)
  | .joinDuring n target action =>
    s.withMember n fun k => s.withAddress target fun addr => s.joinDuring k addr action
  | .shutdown n => s.withMember n fun k => ((s.runOne k Dialog.shutdown).1, .nothing)
  | .drop n => s.withMember n fun k =>
    let s := s.updateNetwork fun network => network.unlisten k
    ({ s with members := s.members.filter fun e => e.1 ≠ n }, .nothing)
  | .phase n => s.withMember n fun k => (s, .text (s.member k).phase.name)
  | .id n => s.withMember n fun k => (s, .text (s.member k).self.id.display)
  | .topology n => s.withMember n fun k => (s, .topology (s.member k).self (s.member k).view)
  | .topologies => (s, .topologies (s.sorted.map fun (label, k) => (label, (s.member k).view)))
  | .upkeep n round => s.withMember n fun k => s.upkeep k round
  | .stabilizeAll rounds =>
    let s := (List.replicate rounds ()).foldl (fun s _ => s.upkeepAll .stabilize) s
    (s.upkeepAll .fixFingers, .nothing)
  | .find n id => s.withMember n fun k =>
    let (s, r) := s.runActivity k (Activity.findSuccessor id)
    (s, .ofPeer r)
  | .findEach n ids => s.withMember n fun k =>
    let (s, rs) := s.findEach k ids
    (s, .peers rs)
  | .touch n t => s.withMember n fun k => s.touch k t
  | .ask caller target q => s.withAddress target fun addr => s.ask caller addr q
  | .askNotify caller target me => s.withAddress target fun addr =>
    match s.peer? me with
    | some me => s.ask caller addr (.notify me.id me.port)
    | none => (s, .unknownLabel)
  | .call caller target m => s.withAddress target fun addr =>
    match s.runCaller caller fun settings => Dialog.call settings addr m with
    | none => (s, .unknownLabel)
    | some (s, some (.ok reply)) => (s, .message reply)
    | some (s, some (.error e)) => (s, .failure e)
    | some (s, none) => (s, .stuck)
  | .send n target payload => s.withMember n fun k => s.withAddress target fun addr =>
    let (s, r) := s.runOne k (Dialog.sendPayload (s.member k).settings addr payload)
    (s, .ofUnit r)
  | .route n id payload => s.withMember n fun k =>
    let (s, r) := s.runOne k (Dialog.route (s.member k).settings id payload)
    (s, .ofPeer r)
  | .talk n target payload more => s.withMember n fun k => s.withAddress target fun addr =>
    match s.runOne k (Dialog.talk (s.member k).settings addr payload more) with
    | (s, some (.ok heard)) => (s, .talk heard)
    | (s, some (.error e)) => (s, .failure e)
    | (s, none) => (s, .stuck)
  | .setApp n app => s.withMember n fun k =>
    let machine := s.machine.updateParty (some k) fun p => { p with role := .member (s.member k) (some app) }
    ({ s with machine }, .nothing)
  | .inbox n => s.withMember n s.takeNotes
  | .raw ip target chunks close => s.withAddress target fun addr =>
    match s.runHost ip (Dialog.raw addr chunks close) with
    | (s, some (.ok (bytes, ended))) => (s, .raw bytes ended)
    | (s, some (.error e)) => (s, if e = .brokenPipe then .brokenPipe else .failure e)
    | (s, none) => (s, .stuck)
  | .script label ip port manner replies => s.script label ip port ⟨manner, replies, 0⟩
  | .heard label =>
    match s.scripts.lookup label with
    | some k => s.takeNotes k
    | none => (s, .unknownLabel)
  | .swallow target => s.withAddress target fun addr => (s.updateNetwork fun n => n.swallow addr, .nothing)
  | .restore target => s.withAddress target fun addr => (s.updateNetwork fun n => n.restore addr, .nothing)
  | .parked target => s.withAddress target fun addr => (s, .number (s.machine.network.parkedAt addr))
  | .listening target => s.withAddress target fun addr => (s, .flag (s.machine.network.isListening addr))
  | .sleep ms =>
    let wake := s.machine.now + ms
    ((s.runHost .unspecified (Dialog.perform (.pause wake))).1, .nothing)

/-- What came of a step, and how many milliseconds it took. -/
structure Outcome where
  reply : Reply
  elapsed : Nat

/-- Performs a step, and then lets a millisecond pass so that everything it started can come to rest. -/
def step (s : Session) (step : Step) : Session × Outcome :=
  let (after, reply) := s.perform step
  ({ after with machine := after.machine.elapse 1 }, ⟨reply, after.machine.now - s.machine.now⟩)

end Session

end ChordOverlay
