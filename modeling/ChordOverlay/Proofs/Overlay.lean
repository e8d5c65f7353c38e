import ChordOverlay.Host.Client
import ChordOverlay.Member.Answer
import ChordOverlay.Member.Join
import ChordOverlay.Member.Upkeep
import ChordOverlay.Proofs.Neighbourhood
import Mathlib.Logic.Function.Basic
import Mathlib.Logic.Relation

/-!
# Members working side by side

An activity goes through its member without interruption until it asks another peer. Whoever is asked works on
the question in an activity of its own, and between any two such stretches every other member may move.
-/

namespace ChordOverlay

/-! ## One stretch of an activity -/

namespace Activity

variable {α β : Type}

/-- What an activity does to its member before it asks another peer, and what is left of it. -/
def proceed : Activity α → Member → Activity α × Member
  | .ask .look next, m => proceed (next m) m
  | .ask (.store m) next, _ => proceed (next ()) m
  | a, m => (a, m)

/-- Nothing is left to do before an answer arrives. -/
def waits : Activity α → Bool
  | .ask .look _ | .ask (.store _) _ => false
  | _ => true

theorem proceed_done (a : α) (m : Member) : proceed (.done a) m = (.done a, m) := rfl

theorem proceed_look (f : Member → Activity α) (m : Member) : proceed (look >>= f) m = proceed (f m) m := rfl

theorem proceed_look_bind (a : Member → Activity α) (f : α → Activity β) (m : Member) :
    proceed (Program.bind (look >>= a) f) m = proceed ((a m).bind f) m := rfl

theorem proceed_store (m' : Member) (f : Unit → Activity α) (m : Member) :
    proceed (store m' >>= f) m = proceed (f ()) m' := rfl

theorem waits_proceed (a : Activity α) (m : Member) : (a.proceed m).1.waits = true := by
  induction a generalizing m with
  | done a => rfl
  | ask op next ih =>
      cases op with
      | look => exact ih m m
      | store m' => exact ih () m'
      | query target q => rfl

theorem toDialog_bind (s : Settings) (a : Activity α) (f : α → Activity β) :
    toDialog s (a.bind f) = (a.toDialog s).bind fun x => (f x).toDialog s :=
  Program.compile_bind _ _ _

/-- The stretch is the one that a dialog goes through before it touches a connection. -/
theorem ahead_toDialog (s : Settings) (a : Activity α) (m : Member) :
    (a.toDialog s).ahead m = ((a.proceed m).1.toDialog s, (a.proceed m).2) := by
  induction a generalizing m with
  | done a => rfl
  | ask op next ih =>
      cases op with
      | look => exact ih m m
      | store m' => exact ih () m'
      | query target q => rfl

/-- Begins a ring of one. -/
def create : Activity (Except Failure Unit) := do
  match (← look).create with
  | .ok m =>
    store m
    pure (.ok ())
  | .error e => pure (.error e)

/-- Ends the membership. -/
def leave : Activity Unit := do
  let m ← look
  store m.shutdown

end Activity

/-! ## What gatherings change -/

namespace Gathering

/-- One activity, after which nothing more is changed. -/
def solo {β : Type} (a : Activity β) : Gathering β := ⟨[a], fun _ view => view⟩

theorem fixFingers_finish (m : Member) (results : List (Except Failure Peer)) {v : View} (hv : v.Sound) :
    ∃ fingers : Fingers, fingers.Sound ∧ fingers.owner = v.self ∧
      (fixFingers m).finish results v = { v with fingers } := by
  simp only [fixFingers]
  induction results.zipIdx generalizing v with
  | nil => exact ⟨v.fingers, hv.table, hv.table_owner, rfl⟩
  | cons result results ih =>
      obtain ⟨r, slot⟩ := result
      cases r with
      | error e => exact ih hv
      | ok p =>
          obtain ⟨fingers, hsound, howner, heq⟩ := ih (hv.setFinger slot (some p))
          exact ⟨fingers, hsound, howner, heq⟩

theorem checkSuccessors_finish (m : Member) {results : List Bool} (hresults : ∀ alive ∈ results, alive = true)
    (v : View) : (checkSuccessors m).finish results v = v := by
  have hpairs : ∀ pair ∈ m.view.successors.peers.zip results, pair.2 = true :=
    fun pair hpair => hresults _ (List.of_mem_zip hpair).2
  simp only [checkSuccessors]
  generalize m.view.successors.peers.zip results = pairs at hpairs ⊢
  induction pairs with
  | nil => rfl
  | cons pair pairs ih =>
      rw [List.foldl_cons, if_pos (hpairs pair List.mem_cons_self)]
      exact ih fun pair hpair => hpairs pair (List.mem_cons_of_mem _ hpair)

end Gathering

/-! ## What members are busy with -/

/-- What a member may begin at any time, by itself or for its user. -/
inductive Operation where
  | create
  | join (bootstrap : Address)
  | leave
  | touch (op : View.Op)
  | lookup (id : RingId) (ttl : UInt8)
  | findSuccessor (id : RingId)
  | stabilize
  | syncSuccessors
  | checkPredecessor
  | fixFingers
  | checkSuccessors

namespace Operation

/-- What an operation gives back. -/
abbrev Result : Operation → Type
  | .create | .stabilize => Except Failure Unit
  | .leave | .touch _ | .syncSuccessors | .checkPredecessor => Unit
  | .join _ | .lookup .. | .findSuccessor _ | .fixFingers => Except Failure Peer
  | .checkSuccessors => Bool

/-- The activities of an operation that `m` begins, and what their results change. -/
def gathering : (o : Operation) → Member → Gathering o.Result
  | .create, _ => .solo Activity.create
  | .join bootstrap, _ => .solo (Activity.join bootstrap)
  | .leave, _ => .solo Activity.leave
  | .touch op, _ => .solo (Activity.updateView fun view => view.apply op)
  | .lookup id ttl, _ => .solo (Activity.lookup id ttl)
  | .findSuccessor id, _ => .solo (Activity.findSuccessor id)
  | .stabilize, _ => .solo Activity.stabilize
  | .syncSuccessors, _ => .solo Activity.syncSuccessors
  | .checkPredecessor, _ => .solo Activity.checkPredecessor
  | .fixFingers, m => .fixFingers m
  | .checkSuccessors, m => .checkSuccessors m

end Operation

/-- What an activity is there for: an operation of its own member, or a question of another peer. -/
inductive Duty where
  | own (o : Operation)
  | serve (q : Query)

/-- What an activity gives back that is there for this. -/
abbrev Duty.Result : Duty → Type
  | .own o => o.Result
  | .serve _ => Option Message

/-! ## Strands -/

/-- Who listens at an address, which address a member is seen at, and which requests the network may fail. -/
structure Net (ι : Type) where
  reach : Address → Option ι
  source : ι → Ipv4
  fails : Address → Failure → Prop

/-- An activity at work at its host, or waiting there for the activity that works on its question. -/
inductive Strand (ι : Type) : Duty → Type where
  | run {d : Duty} (host : ι) (rest : Activity d.Result) : Strand ι d
  | wait {d : Duty} (host : ι) (target : Address) (q : Query) (next : Except Failure q.Answer → Activity d.Result)
      (callee : Strand ι (.serve q)) : Strand ι d

/-- The member at which the activity is at work. -/
def Strand.host {ι : Type} {d : Duty} : Strand ι d → ι
  | .run host _ | .wait host .. => host

/-- What a step of a strand shows to the outside: a request sent, or an activity left behind unheard. -/
inductive Event (ι : Type) where
  | quiet
  | sent (q : Query)
  | left (q : Query) (callee : Strand ι (.serve q))

variable {ι : Type} [DecidableEq ι]

/-- One stretch of an activity, or one thing that happens to its question. -/
inductive Strand.Step (net : Net ι) : {d : Duty} → (ι → Member) → Strand ι d → Event ι → (ι → Member) → Strand ι d → Prop
  | go {d : Duty} {σ : ι → Member} {host : ι} {rest : Activity d.Result} (busy : rest.waits = false) :
      Step net σ (.run host rest) .quiet (Function.update σ host (rest.proceed (σ host)).2)
        (.run host (rest.proceed (σ host)).1)
  | call {d : Duty} {σ : ι → Member} {host k : ι} {target : Address} {q : Query}
      {next : Except Failure q.Answer → Activity d.Result} (reached : net.reach target = some k) :
      Step net σ (.run host (.ask (.query target q) next)) (.sent q) σ
        (.wait host target q next (.run k (Activity.answer (net.source host) q.request)))
  | refuse {d : Duty} {σ : ι → Member} {host : ι} {target : Address} {q : Query}
      {next : Except Failure q.Answer → Activity d.Result} {e : Failure} (fault : net.fails target e) :
      Step net σ (.run host (.ask (.query target q) next)) .quiet σ (.run host (next (.error e)))
  | reply {d : Duty} {σ : ι → Member} {host k : ι} {target : Address} {q : Query}
      {next : Except Failure q.Answer → Activity d.Result} {report : Message} :
      Step net σ (.wait host target q next (.run k (.done (some report)))) .quiet σ (.run host (next (q.read report)))
  | close {d : Duty} {σ : ι → Member} {host k : ι} {target : Address} {q : Query}
      {next : Except Failure q.Answer → Activity d.Result} :
      Step net σ (.wait host target q next (.run k (.done none))) .quiet σ (.run host (next (.error .closedEarly)))
  | abandon {d : Duty} {σ : ι → Member} {host : ι} {target : Address} {q : Query}
      {next : Except Failure q.Answer → Activity d.Result} {callee : Strand ι (.serve q)} {e : Failure}
      (fault : net.fails target e) :
      Step net σ (.wait host target q next callee) (.left q callee) σ (.run host (next (.error e)))
  | serve {d : Duty} {σ σ' : ι → Member} {host : ι} {target : Address} {q : Query}
      {next : Except Failure q.Answer → Activity d.Result} {callee callee' : Strand ι (.serve q)} {event : Event ι}
      (inner : Step net σ callee event σ' callee') :
      Step net σ (.wait host target q next callee) event σ' (.wait host target q next callee')

/-! ## The whole overlay -/

/-- The activities of one duty at one host, and what their results together will change. -/
structure Front (ι : Type) where
  host : ι
  duty : Duty
  jobs : List (Strand ι duty)
  finish : List duty.Result → View → View

namespace Front

/-- The front of an operation that begins. -/
def ofOperation (host : ι) (o : Operation) (m : Member) : Front ι :=
  ⟨host, .own o, (o.gathering m).jobs.map fun a => .run host a, (o.gathering m).finish⟩

/-- An activity whose asker is gone. -/
def stray (q : Query) (callee : Strand ι (.serve q)) : Front ι :=
  ⟨callee.host, .serve q, [callee], fun _ view => view⟩

end Front

/-- The activity a step has left behind. -/
def Event.strays : Event ι → List (Front ι)
  | .left q callee => [.stray q callee]
  | _ => []

/-- All members, and all that they are busy with. -/
structure World (ι : Type) where
  members : ι → Member
  fronts : List (Front ι)

/-- One step of the overlay, where `may` says which member may begin which operation. -/
inductive World.Step (net : Net ι) (may : ι → Operation → Prop) : World ι → World ι → Prop
  | start {σ : ι → Member} {fronts : List (Front ι)} {host : ι} {o : Operation} (allowed : may host o) :
      Step net may ⟨σ, fronts⟩ ⟨σ, .ofOperation host o (σ host) :: fronts⟩
  | work {σ σ' : ι → Member} {before after : List (Front ι)} {host : ι} {d : Duty} {done rest : List (Strand ι d)}
      {t t' : Strand ι d} {finish : List d.Result → View → View} {event : Event ι}
      (step : t.Step net σ event σ' t') :
      Step net may ⟨σ, before ++ ⟨host, d, done ++ t :: rest, finish⟩ :: after⟩
        ⟨σ', before ++ ⟨host, d, done ++ t' :: rest, finish⟩ :: (after ++ event.strays)⟩
  | finish {σ : ι → Member} {before after : List (Front ι)} {host : ι} {d : Duty}
      {results : List (ι × d.Result)} {finish : List d.Result → View → View} :
      Step net may ⟨σ, before ++ ⟨host, d, results.map fun r => .run r.1 (.done r.2), finish⟩ :: after⟩
        ⟨Function.update σ host { σ host with view := finish (results.map Prod.snd) (σ host).view }, before ++ after⟩

/-- Nobody is at work. -/
def World.idle (σ : ι → Member) : World ι := ⟨σ, []⟩

/-- The runs of the overlay through states that satisfy `given`. -/
def World.Run (net : Net ι) (may : ι → Operation → Prop) (given : (ι → Member) → Prop) : World ι → World ι → Prop :=
  Relation.ReflTransGen fun w w' => World.Step net may w w' ∧ given w'.members

end ChordOverlay
