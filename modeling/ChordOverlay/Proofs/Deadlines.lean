import ChordOverlay.Proofs.LoopFreedom

/-!
# Lookups under a clock

A call is refused at once, or worked on at once by the member that listens, or taken and never answered; who has called
gives up at a deadline of its own. Only waiting takes time: the clock moves when nobody can do anything but wait, and it
passes no deadline.
-/

namespace ChordOverlay.Timed

/-- What becomes of a call to an address. -/
inductive Manner (ι : Type) where
  | works (k : ι)
  | refuses
  | silent
deriving DecidableEq

/-- What is behind each address, where on the ring each working member stands, and which address it is seen at. -/
structure Terrain (ι : Type) where
  manner : Address → Manner ι
  place : ι → RingId
  source : ι → Ipv4

/-- An activity at work at its host, or waiting there until its question is answered or the call is given up. -/
inductive Strand (ι : Type) : Duty → Type where
  | run {d : Duty} (host : ι) (rest : Activity d.Result) : Strand ι d
  | wait {d : Duty} (host : ι) (target : Address) (q : Query) (next : Except Failure q.Answer → Activity d.Result)
      (due : Nat) (callee : Strand ι (.serve q)) : Strand ι d
  | hang {d : Duty} (host : ι) (target : Address) (q : Query) (next : Except Failure q.Answer → Activity d.Result)
      (due : Nat) : Strand ι d

namespace Strand

variable {ι : Type}

/-- The member at which the activity is at work. -/
def host : {d : Duty} → Strand ι d → ι
  | _, .run host _ | _, .wait host .. | _, .hang host .. => host

/-- When the calls on the way are given up, the outermost first. -/
def dues : {d : Duty} → Strand ι d → List Nat
  | _, .run .. => []
  | _, .wait _ _ _ _ due callee => due :: dues callee
  | _, .hang _ _ _ _ due => [due]

end Strand

/-- What a step of a strand shows: a call that has failed, and the activity of the callee if one is left behind. -/
inductive Sign (ι : Type) where
  | quiet
  | failed (host : ι) (target : Address)
  | left (host : ι) (target : Address) (q : Query) (callee : Strand ι (.serve q))

/-- Whose call has failed, and to which address. -/
def Sign.failures {ι : Type} : Sign ι → List (ι × Address)
  | .quiet => []
  | .failed host target | .left host target _ _ => [(host, target)]

section Strands

variable {ι : Type} [DecidableEq ι]

/-- One stretch of an activity, or one thing that happens to its call, at the time `now`. -/
inductive Strand.Step (land : Terrain ι) (s : Settings) (now : Nat) :
    {d : Duty} → (ι → Member) → Strand ι d → Sign ι → (ι → Member) → Strand ι d → Prop
  | go {d : Duty} {σ : ι → Member} {host : ι} {rest : Activity d.Result} (busy : rest.waits = false) :
      Step land s now σ (.run host rest) .quiet (Function.update σ host (rest.proceed (σ host)).2)
        (.run host (rest.proceed (σ host)).1)
  | refuse {d : Duty} {σ : ι → Member} {host : ι} {target : Address} {q : Query}
      {next : Except Failure q.Answer → Activity d.Result} (refused : land.manner target = .refuses) :
      Step land s now σ (.run host (.ask (.query target q) next)) (.failed host target) σ
        (.run host (next (.error (.network (.refused target)))))
  | tooLarge {d : Duty} {σ : ι → Member} {host : ι} {target : Address} {q : Query}
      {next : Except Failure q.Answer → Activity d.Result} {e : Failure} (taken : land.manner target ≠ .refuses)
      (unframed : q.request.frame s.maxMessageLength = .error e) :
      Step land s now σ (.run host (.ask (.query target q) next)) (.failed host target) σ (.run host (next (.error e)))
  | call {d : Duty} {σ : ι → Member} {host k : ι} {target : Address} {q : Query}
      {next : Except Failure q.Answer → Activity d.Result} {bytes : Bytes} (reached : land.manner target = .works k)
      (framed : q.request.frame s.maxMessageLength = .ok bytes) :
      Step land s now σ (.run host (.ask (.query target q) next)) .quiet σ
        (.wait host target q next (now + q.patience s) (.run k (Activity.answer (land.source host) q.request)))
  | hang {d : Duty} {σ : ι → Member} {host : ι} {target : Address} {q : Query}
      {next : Except Failure q.Answer → Activity d.Result} {bytes : Bytes} (silent : land.manner target = .silent)
      (framed : q.request.frame s.maxMessageLength = .ok bytes) :
      Step land s now σ (.run host (.ask (.query target q) next)) .quiet σ
        (.hang host target q next (now + q.patience s))
  | reply {d : Duty} {σ : ι → Member} {host k : ι} {target : Address} {q : Query}
      {next : Except Failure q.Answer → Activity d.Result} {due : Nat} {report : Message} {bytes : Bytes}
      (framed : report.frame s.maxMessageLength = .ok bytes) :
      Step land s now σ (.wait host target q next due (.run k (.done (some report)))) .quiet σ
        (.run host (next (q.read report)))
  | close {d : Duty} {σ : ι → Member} {host k : ι} {target : Address} {q : Query}
      {next : Except Failure q.Answer → Activity d.Result} {due : Nat} {outcome : Option Message}
      (unsent : ∀ report ∈ outcome, ∀ bytes, report.frame s.maxMessageLength ≠ .ok bytes) :
      Step land s now σ (.wait host target q next due (.run k (.done outcome))) (.failed host target) σ
        (.run host (next (.error .closedEarly)))
  | expire {d : Duty} {σ : ι → Member} {host : ι} {target : Address} {q : Query}
      {next : Except Failure q.Answer → Activity d.Result} {due : Nat} {callee : Strand ι (.serve q)} (late : due ≤ now) :
      Step land s now σ (.wait host target q next due callee) (.left host target q callee) σ
        (.run host (next (.error .timedOut)))
  | giveUp {d : Duty} {σ : ι → Member} {host : ι} {target : Address} {q : Query}
      {next : Except Failure q.Answer → Activity d.Result} {due : Nat} (late : due ≤ now) :
      Step land s now σ (.hang host target q next due) (.failed host target) σ (.run host (next (.error .timedOut)))
  | serve {d : Duty} {σ σ' : ι → Member} {host : ι} {target : Address} {q : Query}
      {next : Except Failure q.Answer → Activity d.Result} {due : Nat} {callee callee' : Strand ι (.serve q)}
      {sign : Sign ι} (inner : Step land s now σ callee sign σ' callee') :
      Step land s now σ (.wait host target q next due callee) sign σ' (.wait host target q next due callee')

/-- Nothing can be done before time goes on. -/
def Strand.Still (land : Terrain ι) (s : Settings) (now : Nat) (σ : ι → Member) {d : Duty} (t : Strand ι d) : Prop :=
  ∀ sign σ' t', ¬ t.Step land s now σ sign σ' t'

namespace Strand.Still

variable {land : Terrain ι} {s : Settings} {now : Nat} {σ : ι → Member} {d : Duty} {host : ι}

/-- Whoever is at work goes on, so what is still has ended. -/
theorem done {rest : Activity d.Result} (h : (run host rest : Strand ι d).Still land s now σ) : ∃ r, rest = .done r := by
  cases rest with
  | done r => exact ⟨r, rfl⟩
  | ask op next =>
      cases op with
      | look => exact absurd (.go rfl) (h _ _ _)
      | store m => exact absurd (.go rfl) (h _ _ _)
      | query target q =>
          cases hmanner : land.manner target with
          | refuses => exact absurd (.refuse hmanner) (h _ _ _)
          | works k =>
              cases hframe : q.request.frame s.maxMessageLength with
              | error e => exact absurd (.tooLarge (by rw [hmanner]; nofun) hframe) (h _ _ _)
              | ok bytes => exact absurd (.call hmanner hframe) (h _ _ _)
          | silent =>
              cases hframe : q.request.frame s.maxMessageLength with
              | error e => exact absurd (.tooLarge (by rw [hmanner]; nofun) hframe) (h _ _ _)
              | ok bytes => exact absurd (.hang hmanner hframe) (h _ _ _)

variable {target : Address} {q : Query} {next : Except Failure q.Answer → Activity d.Result} {due : Nat}
  {inner : Strand ι (.serve q)}

theorem callee (h : (wait host target q next due inner : Strand ι d).Still land s now σ) : inner.Still land s now σ :=
  fun _ _ _ hstep => h _ _ _ (.serve hstep)

theorem unanswered {k : ι} {outcome : Option Message}
    (h : (wait host target q next due (.run k (.done outcome)) : Strand ι d).Still land s now σ) : False := by
  cases outcome with
  | none => exact h _ _ _ (.close nofun)
  | some report =>
      cases hframe : report.frame s.maxMessageLength with
      | ok bytes => exact h _ _ _ (.reply hframe)
      | error e =>
          refine h _ _ _ (.close fun r hr bytes => ?_)
          cases hr
          rw [hframe]
          nofun

end Strand.Still

theorem Strand.still_hang {land : Terrain ι} {s : Settings} {now due : Nat} {σ : ι → Member} {d : Duty} {host : ι}
    {target : Address} {q : Query} {next : Except Failure q.Answer → Activity d.Result} (h : now < due) :
    (Strand.hang host target q next due : Strand ι d).Still land s now σ := by
  intro _ _ _ hstep
  cases hstep with
  | giveUp late => exact Nat.not_le.mpr h late

theorem Strand.still_wait {land : Terrain ι} {s : Settings} {now due : Nat} {σ : ι → Member} {d : Duty} {host : ι}
    {target : Address} {q : Query} {next : Except Failure q.Answer → Activity d.Result} {callee : Strand ι (.serve q)}
    (h : now < due) (hcallee : callee.Still land s now σ) (hbusy : ∀ k outcome, callee ≠ .run k (.done outcome)) :
    (Strand.wait host target q next due callee : Strand ι d).Still land s now σ := by
  intro _ _ _ hstep
  cases hstep with
  | reply => exact hbusy _ _ rfl
  | close => exact hbusy _ _ rfl
  | expire late => exact Nat.not_le.mpr h late
  | serve inner => exact hcallee _ _ _ inner

end Strands

/-! ## Members under one clock -/

/-- The activities of one duty at one host, and what their results together will change. -/
structure Front (ι : Type) where
  host : ι
  duty : Duty
  jobs : List (Strand ι duty)
  finish : List duty.Result → View → View

/-- The front of an operation that begins. -/
def Front.ofOperation {ι : Type} (host : ι) (o : Operation) (m : Member) : Front ι :=
  ⟨host, .own o, (o.gathering m).jobs.map fun a => .run host a, (o.gathering m).finish⟩

/-- The activity that a step has left behind. -/
def Sign.strays {ι : Type} : Sign ι → List (Front ι)
  | .left _ _ q callee => [⟨callee.host, .serve q, [callee], fun _ view => view⟩]
  | _ => []

/-- The time, the members and what they are busy with, and whose calls to whom have failed so far. -/
structure World (ι : Type) where
  now : Nat
  members : ι → Member
  fronts : List (Front ι)
  failures : List (ι × Address)

/-- Nobody is at work. -/
def World.idle {ι : Type} (now : Nat) (σ : ι → Member) : World ι := ⟨now, σ, [], []⟩

/-- Nobody works at the address. -/
def Terrain.Dead {ι : Type} (land : Terrain ι) (target : Address) : Prop := ∀ k, land.manner target ≠ .works k

/-- An entry for an address where nobody works has the position of no working member. -/
def Terrain.Apart {ι : Type} (land : Terrain ι) (p : Peer) : Prop := land.Dead p.address → ∀ k, p.id ≠ land.place k

instance {n : Nat} (land : Terrain (Fin n)) (target : Address) : Decidable (land.Dead target) :=
  inferInstanceAs (Decidable (∀ k, land.manner target ≠ .works k))

instance {n : Nat} (land : Terrain (Fin n)) (p : Peer) : Decidable (land.Apart p) :=
  inferInstanceAs (Decidable (land.Dead p.address → ∀ k, p.id ≠ land.place k))

/-- The member that works as `k`, with the settings of all, and nothing but tidy entries. -/
structure Terrain.Fair {ι : Type} (land : Terrain ι) (s : Settings) (k : ι) (m : Member) : Prop where
  settings : m.settings = s
  place : m.self.id = land.place k
  sound : m.view.Sound
  self : land.Apart m.self
  entries : ∀ p ∈ m.view.recorded, land.Apart p

section Worlds

variable {ι : Type} [DecidableEq ι]

/-- One step of the lookups that members begin. -/
inductive World.Step (land : Terrain ι) (s : Settings) : World ι → World ι → Prop
  | start {now : Nat} {σ : ι → Member} {fronts : List (Front ι)} {failures : List (ι × Address)} {host : ι} {o : Operation}
      (lookup : (Duty.own o).IsLookup) :
      Step land s ⟨now, σ, fronts, failures⟩ ⟨now, σ, .ofOperation host o (σ host) :: fronts, failures⟩
  | work {now : Nat} {σ σ' : ι → Member} {before after : List (Front ι)} {failures : List (ι × Address)} {host : ι}
      {d : Duty} {done rest : List (Strand ι d)} {t t' : Strand ι d} {finish : List d.Result → View → View} {sign : Sign ι}
      (step : t.Step land s now σ sign σ' t') :
      Step land s ⟨now, σ, before ++ ⟨host, d, done ++ t :: rest, finish⟩ :: after, failures⟩
        ⟨now, σ', before ++ ⟨host, d, done ++ t' :: rest, finish⟩ :: (after ++ sign.strays), failures ++ sign.failures⟩
  | finish {now : Nat} {σ : ι → Member} {before after : List (Front ι)} {failures : List (ι × Address)} {host : ι}
      {d : Duty} {results : List (ι × d.Result)} {finish : List d.Result → View → View} :
      Step land s ⟨now, σ, before ++ ⟨host, d, results.map fun r => .run r.1 (.done r.2), finish⟩ :: after, failures⟩
        ⟨now, Function.update σ host { σ host with view := finish (results.map Prod.snd) (σ host).view }, before ++ after,
          failures⟩
  | tick {now later : Nat} {σ : ι → Member} {fronts : List (Front ι)} {failures : List (ι × Address)}
      (onward : now < later) (still : ∀ f ∈ fronts, ∀ t ∈ f.jobs, t.Still land s now σ)
      (dues : ∀ f ∈ fronts, ∀ t ∈ f.jobs, ∀ due ∈ t.dues, later ≤ due) :
      Step land s ⟨now, σ, fronts, failures⟩ ⟨later, σ, fronts, failures⟩

/-- What else members do between two such steps. -/
inductive World.Aside (land : Terrain ι) (s : Settings) : World ι → World ι → Prop
  | intro {now : Nat} {σ σ' : ι → Member} {fronts : List (Front ι)} {failures : List (ι × Address)}
      (fair : ∀ k, land.Fair s k (σ' k)) : Aside land s ⟨now, σ, fronts, failures⟩ ⟨now, σ', fronts, failures⟩

/-- Any number of steps, with members doing other things in between. -/
def World.Run (land : Terrain ι) (s : Settings) : World ι → World ι → Prop :=
  Relation.ReflTransGen fun w w' => Step land s w w' ∨ Aside land s w w'

theorem World.Step.first {land : Terrain ι} {s : Settings} {now : Nat} {σ σ' : ι → Member}
    {others : List (Front ι)} {failures : List (ι × Address)} {host : ι} {d : Duty} {t t' : Strand ι d}
    {finish : List d.Result → View → View} {sign : Sign ι} (step : t.Step land s now σ sign σ' t') :
    World.Step land s ⟨now, σ, ⟨host, d, [t], finish⟩ :: others, failures⟩
      ⟨now, σ', ⟨host, d, [t'], finish⟩ :: (others ++ sign.strays), failures ++ sign.failures⟩ :=
  @World.Step.work _ _ land s now σ σ' [] others failures host d [] [] t t' finish sign step

theorem World.Step.pause {land : Terrain ι} {s : Settings} {now later : Nat} {σ : ι → Member}
    {failures : List (ι × Address)} {host : ι} {d : Duty} {t : Strand ι d} {finish : List d.Result → View → View}
    (onward : now < later) (still : t.Still land s now σ) (dues : ∀ due ∈ t.dues, later ≤ due) :
    World.Step land s ⟨now, σ, [⟨host, d, [t], finish⟩], failures⟩ ⟨later, σ, [⟨host, d, [t], finish⟩], failures⟩ := by
  refine .tick onward ?_ ?_ <;> intro f hf <;> cases List.mem_singleton.mp hf <;> intro t' ht <;>
    cases List.mem_singleton.mp ht
  · exact still
  · exact dues

end Worlds

end ChordOverlay.Timed
