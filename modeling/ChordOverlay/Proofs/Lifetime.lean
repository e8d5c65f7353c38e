import ChordOverlay.Proofs.Evolution

/-!
# The life of a member

A member may be told to create a ring, to join one, or to shut down, at any time and again and again, also while
joins of it wait for their answers. It becomes part of a ring at most once, its rounds run just as long as it is part
of it, and once it is shut down it stays so.
-/

namespace ChordOverlay

/-! ## Stretches of an activity -/

/-- The member is in the same phase and keeps the same rounds running. -/
def Member.Abides (m m' : Member) : Prop := m'.phase = m.phase ∧ m'.rounds = m.rounds

theorem Member.Abides.turns {m m' m'' : Member} (h : m.Abides m') (hturns : m'.Turns m'') : m.Abides m'' :=
  ⟨hturns.phase.1.trans h.1, hturns.phase.2.trans h.2⟩

namespace Activity

variable {α β : Type} {stay : Member → Member → Prop} {begun now : Member}

/--
Seen from where it began, each stretch leaves the member as `stay` says where it has to wait, and as `ends` says
where the activity ends. While it waits, anything may happen to the member.
-/
def Paces (stay : Member → Member → Prop) (ends : Member → α → Member → Prop) : Activity α → Member → Member → Prop
  | .done a, begun, now => ends begun a now
  | .ask .look next, begun, now => Paces stay ends (next now) begun now
  | .ask (.store m) next, begun, _ => Paces stay ends (next ()) begun m
  | .ask (.query _ _) next, begun, now => stay begun now ∧ ∀ r m, Paces stay ends (next r) m m

theorem Paces.bind {mid : Member → α → Member → Prop} {ends : Member → β → Member → Prop} {a : Activity α}
    {f : α → Activity β} (h : a.Paces stay mid begun now)
    (hf : ∀ begun x now, mid begun x now → (f x).Paces stay ends begun now) : Paces stay ends (a.bind f) begun now := by
  induction a generalizing begun now with
  | done x => exact hf begun x now h
  | ask op next ih =>
      cases op with
      | look => exact ih now h
      | store m => exact ih () h
      | query target q => exact ⟨h.1, fun r m => ih r (h.2 r m)⟩

theorem Paces.proceed {ends : Member → α → Member → Prop} {a : Activity α} (h : a.Paces stay ends begun now) :
    (∃ x m, a.proceed now = (.done x, m) ∧ ends begun x m) ∨
      ∃ target q next m, a.proceed now = (.ask (.query target q) next, m) ∧ stay begun m ∧
        ∀ r n, Paces stay ends (next r) n n := by
  induction a generalizing now with
  | done x => exact Or.inl ⟨x, now, rfl, h⟩
  | ask op next ih =>
      cases op with
      | look => exact ih now h
      | store m => exact ih () h
      | query target q => exact Or.inr ⟨target, q, next, now, rfl, h.1, h.2⟩

theorem paces_look {ends : Member → α → Member → Prop} {f : Member → Activity α} :
    Paces stay ends (look >>= f) begun now ↔ Paces stay ends (f now) begun now := Iff.rfl

theorem Stores.paces {a : Activity α} (h : a.Stores Member.Turns now) (hstay : begun.Abides now) :
    a.Paces Member.Abides (fun begun _ now => begun.Abides now) begun now := by
  induction a generalizing begun now with
  | done x => exact hstay
  | ask op next ih =>
      cases op with
      | look => exact ih now h hstay
      | store m => exact ih () h.2 (hstay.turns h.1)
      | query target q => exact ⟨hstay, fun r m => ih r (h r m) ⟨rfl, rfl⟩⟩

end Activity

/-! ## Calls -/

/-- What the user of a member may ask of it. -/
inductive Call where
  | create
  | join (bootstrap : Address)
  | shutdown

/-- What comes of a call; the successor, if it is a join. -/
abbrev Call.Outcome := Except Failure (Option Peer)

/-- What a call does, with the successor as the result of a join. -/
def Call.activity : Call → Activity Call.Outcome
  | .create => do return (← Activity.create).map fun _ => none
  | .join bootstrap => do return (← Activity.join bootstrap).map some
  | .shutdown => do
    Activity.leave
    return .ok none

/-- The last stretch of a join. -/
inductive Member.Ends : Member → Call.Outcome → Member → Prop
  | joined {m m' : Member} (p : Peer) (phase : m.phase = .joining) (phase' : m'.phase = .joined)
      (rounds : m'.rounds = m.rounds ++ Round.all) : Ends m (.ok (some p)) m'
  | failed {m m' : Member} (e : Failure) (phase : m.phase = .joining) (phase' : m'.phase = .created)
      (rounds : m'.rounds = m.rounds) : Ends m (.error e) m'
  | late {m m' : Member} (phase : m.phase ≠ .joining) (abides : m.Abides m') :
      Ends m (.error (.invalidState m.phase.name)) m'

theorem Member.transition_cases (m : Member) (source target : Phase) :
    (m.phase = source ∧ m.transition source target = .ok { m with phase := target }) ∨
      (m.phase ≠ source ∧ m.transition source target = .error (.invalidState m.phase.name)) := by
  unfold Member.transition
  split
  · rename_i h
    exact Or.inl ⟨h, rfl⟩
  · rename_i h
    exact Or.inr ⟨h, rfl⟩

namespace Activity

/-- The last part of a join, when the way through the bootstrap is done. -/
def conclude : Except Failure Peer → Activity (Except Failure Peer)
  | .ok successor => do
    match (← look).transition .joining .joined with
    | .error e => pure (.error e)
    | .ok m =>
      store m.startRounds
      pure (.ok successor)
  | .error e => do
    match (← look).transition .joining .created with
    | .error e => pure (.error e)
    | .ok m =>
      store m
      pure (.error (joinFailure e))

theorem paces_conclude (r : Except Failure Peer) {begun now : Member} (h : begun.Abides now) :
    Paces Member.Abides (fun begun r now => begun.Ends (r.map some) now) (conclude r) begun now := by
  cases r with
  | ok successor =>
      rw [conclude, paces_look]
      rcases now.transition_cases .joining .joined with ⟨hphase, heq⟩ | ⟨hphase, heq⟩ <;> rw [heq]
      · exact .joined successor (h.1.symm.trans hphase) rfl (congrArg (· ++ Round.all) h.2)
      · rw [h.1] at hphase ⊢
        exact .late hphase h
  | error e =>
      rw [conclude, paces_look]
      rcases now.transition_cases .joining .created with ⟨hphase, heq⟩ | ⟨hphase, heq⟩ <;> rw [heq]
      · exact .failed _ (h.1.symm.trans hphase) rfl h.2
      · rw [h.1] at hphase ⊢
        exact .late hphase h

end Activity

namespace Call

theorem proceed_join_eq (bootstrap : Address) (m : Member) : (Call.join bootstrap).activity.proceed m =
    match m.transition .created .joining with
    | .error e => (.done (.error e), m)
    | .ok m => Activity.proceed ((Activity.joinVia bootstrap >>= Activity.conclude) >>= fun r => pure (r.map some)) m := by
  rw [activity, Activity.join, Program.bind_eq, Activity.proceed_look_bind]
  cases m.transition .created .joining <;> rfl

theorem proceed_create_eq (m : Member) : Call.create.activity.proceed m =
    match m.create with
    | .error e => (.done (.error e), m)
    | .ok m => (.done (.ok none), m) := by
  rw [activity, Activity.create, Program.bind_eq, Activity.proceed_look_bind]
  cases m.create <;> rfl

theorem proceed_join (bootstrap : Address) {m : Member} (hm : m.phase = .created) :
    ∃ target q next, (Call.join bootstrap).activity.proceed m = (.ask (.query target q) next, { m with phase := .joining }) ∧
      ∀ r n, Activity.Paces Member.Abides Member.Ends (next r) n n := by
  have hpaces : Activity.Paces Member.Abides Member.Ends
      ((Activity.joinVia bootstrap >>= Activity.conclude) >>= fun r => pure (r.map some))
      { m with phase := .joining } { m with phase := .joining } :=
    (((Activity.stores_joinVia bootstrap _).paces ⟨rfl, rfl⟩).bind fun _ r _ h => Activity.paces_conclude r h).bind
      fun _ _ _ h => h
  have hjoin := proceed_join_eq bootstrap m
  rw [Member.transition, if_pos hm] at hjoin
  exact ⟨_, _, _, hjoin, hpaces.2⟩

theorem proceed_create {m : Member} (hm : m.phase = .created) : Call.create.activity.proceed m =
    (.done (.ok none), { m with phase := .joined, view := m.view.create, rounds := m.rounds ++ Round.all }) := by
  rw [proceed_create_eq, Member.create, Member.transition, if_pos hm]
  rfl

theorem proceed_refused {c : Call} (hc : c ≠ .shutdown) {m : Member} (hm : m.phase ≠ .created) :
    c.activity.proceed m = (.done (.error (.invalidState m.phase.name)), m) := by
  cases c with
  | create =>
      rw [proceed_create_eq, Member.create, Member.transition, if_neg hm]
      rfl
  | join bootstrap => rw [proceed_join_eq, Member.transition, if_neg hm]
  | shutdown => exact absurd rfl hc

theorem proceed_shutdown (m : Member) : Call.shutdown.activity.proceed m = (.done (.ok none), m.shutdown) := rfl

end Call

/-! ## Calls that overlap -/

/-- The result, if the activity has come to it. -/
def Activity.result? {α : Type} : Activity α → Option α
  | .done a => some a
  | .ask .. => none

/-- A call that waits for an answer, and what is left of it. -/
structure Call.Pending where
  call : Call
  rest : Activity Call.Outcome

/-- What is left to wait for of a call after one stretch of it. -/
def Call.left (c : Call) (rest : Activity Outcome) : List Pending :=
  if rest.result?.isSome then [] else [⟨c, rest⟩]

/-- A member, with all calls that have not returned. -/
structure Life where
  member : Member
  pending : List Call.Pending

namespace Life

/-- When something happens: as a call is made, as it goes on, or in between. -/
inductive Moment where
  | called (c : Call)
  | resumed (c : Call)
  | meanwhile

/-- A stretch of work on a member: what gave rise to it, and what it returned to the user, if anything. -/
structure Stretch where
  moment : Moment
  result : Option Call.Outcome
  before : Member
  after : Member

/-- A call may come at any time, and so may any answer to one that waits; in between, the view may become any other. -/
inductive Step : Life → Stretch → Life → Prop
  | call {m m' : Member} {pending : List Call.Pending} {rest : Activity Call.Outcome} (c : Call)
      (goes : c.activity.proceed m = (rest, m')) :
      Step ⟨m, pending⟩ ⟨.called c, rest.result?, m, m'⟩ ⟨m', pending ++ c.left rest⟩
  | resume {m m' : Member} {before after : List Call.Pending} {rest : Activity Call.Outcome} {c : Call}
      {target : Address} {q : Query} {next : Except Failure q.Answer → Activity Call.Outcome}
      (r : Except Failure q.Answer) (goes : (next r).proceed m = (rest, m')) :
      Step ⟨m, before ++ ⟨c, .ask (.query target q) next⟩ :: after⟩ ⟨.resumed c, rest.result?, m, m'⟩
        ⟨m', before ++ c.left rest ++ after⟩
  | meanwhile {m : Member} {pending : List Call.Pending} (view : View) :
      Step ⟨m, pending⟩ ⟨.meanwhile, none, m, { m with view }⟩ ⟨{ m with view }, pending⟩

/-- All that has happened to a member since it was `m`. -/
inductive Run (m : Member) : List Stretch → Life → Prop
  | begin : Run m [] ⟨m, []⟩
  | step {history : List Stretch} {l l' : Life} {s : Stretch} (past : Run m history l) (step : l.Step s l') :
      Run m (history ++ [s]) l'

/-- A change of the member of the kind that happens meanwhile. -/
def Passes (m m' : Member) : Prop :=
  ∀ pending, Step ⟨m, pending⟩ ⟨.meanwhile, none, m, m'⟩ ⟨m', pending⟩

theorem passes_of_turns {m m' : Member} (h : m.Turns m') : Passes m m' := by
  obtain ⟨op, rfl⟩ := h
  exact fun _ => .meanwhile _

/-- All that a member does in its rounds is of that kind. -/
theorem upkeep_passes {o : Operation} (ho : o.IsUpkeep) (n m : Member) :
    ∀ a ∈ (o.gathering n).jobs, Activity.Stores Passes a m :=
  fun a ha => (Operation.stores_jobs ho n m a ha).mono fun _ _ => passes_of_turns

/-- So is all that it does to answer a request. -/
theorem answer_passes (source : Ipv4) (message : Message) (m : Member) :
    (Activity.answer source message).Stores Passes m :=
  (Activity.stores_answer source message m).mono fun _ _ => passes_of_turns

end Life

/-! ## What one stretch can do -/

/-- A join that waits, and does what a join does from here on. -/
def Call.Pending.Joins (p : Call.Pending) : Prop :=
  ∃ bootstrap target q next, p = ⟨.join bootstrap, .ask (.query target q) next⟩ ∧
    ∀ r n, Activity.Paces Member.Abides Member.Ends (next r) n n

theorem Call.left_done (c : Call) (x : Outcome) : c.left (.done x) = [] := rfl

namespace Life

variable {l l' : Life} {s : Stretch}

/-- All that a stretch can do to a member and to the calls that wait. -/
inductive Change (l : Life) : Stretch → Life → Prop
  | create (view : View) (phase : l.member.phase = .created) :
      Change l ⟨.called .create, some (.ok none), l.member,
          { l.member with phase := .joined, view, rounds := l.member.rounds ++ Round.all }⟩
        ⟨{ l.member with phase := .joined, view, rounds := l.member.rounds ++ Round.all }, l.pending⟩
  | join {p : Call.Pending} (bootstrap : Address) (phase : l.member.phase = .created) (joins : p.Joins) :
      Change l ⟨.called (.join bootstrap), none, l.member, { l.member with phase := .joining }⟩
        ⟨{ l.member with phase := .joining }, l.pending ++ [p]⟩
  | refuse {c : Call} (call : c ≠ .shutdown) (phase : l.member.phase ≠ .created) :
      Change l ⟨.called c, some (.error (.invalidState l.member.phase.name)), l.member, l.member⟩ l
  | shutdown : Change l ⟨.called .shutdown, some (.ok none), l.member, l.member.shutdown⟩ ⟨l.member.shutdown, l.pending⟩
  | wait {before after : List Call.Pending} {p p' : Call.Pending} {m : Member} (bootstrap : Address)
      (pending : l.pending = before ++ p :: after) (joins : p'.Joins) (abides : l.member.Abides m) :
      Change l ⟨.resumed (.join bootstrap), none, l.member, m⟩ ⟨m, before ++ p' :: after⟩
  | finish {before after : List Call.Pending} {p : Call.Pending} {m : Member} {x : Call.Outcome} (bootstrap : Address)
      (pending : l.pending = before ++ p :: after) (ends : l.member.Ends x m) :
      Change l ⟨.resumed (.join bootstrap), some x, l.member, m⟩ ⟨m, before ++ after⟩
  | meanwhile (view : View) :
      Change l ⟨.meanwhile, none, l.member, { l.member with view }⟩ ⟨{ l.member with view }, l.pending⟩

theorem change_refuse {m : Member} {pending : List Call.Pending} {rest : Activity Call.Outcome} {m' : Member} {c : Call}
    (hc : c ≠ .shutdown) (hm : m.phase ≠ .created) (hgoes : c.activity.proceed m = (rest, m')) :
    Change ⟨m, pending⟩ ⟨.called c, rest.result?, m, m'⟩ ⟨m', pending ++ c.left rest⟩ := by
  rw [Call.proceed_refused hc hm] at hgoes
  cases hgoes
  rw [Call.left_done, List.append_nil]
  exact Change.refuse (l := ⟨m, pending⟩) hc hm

theorem Step.change (h : l.Step s l') (hl : ∀ p ∈ l.pending, p.Joins) : l.Change s l' := by
  cases h with
  | @call m m' pending rest c goes =>
      cases c with
      | create =>
          by_cases hm : m.phase = .created
          · rw [Call.proceed_create hm] at goes
            cases goes
            rw [Call.left_done, List.append_nil]
            exact Change.create (l := ⟨m, pending⟩) _ hm
          · exact change_refuse (by nofun) hm goes
      | join bootstrap =>
          by_cases hm : m.phase = .created
          · obtain ⟨target, q, next, hproceed, hnext⟩ := Call.proceed_join bootstrap hm
            rw [hproceed] at goes
            cases goes
            exact Change.join (l := ⟨m, pending⟩) bootstrap hm ⟨bootstrap, target, q, next, rfl, hnext⟩
          · exact change_refuse (by nofun) hm goes
      | shutdown =>
          rw [Call.proceed_shutdown] at goes
          cases goes
          rw [Call.left_done, List.append_nil]
          exact Change.shutdown (l := ⟨m, pending⟩)
  | @resume m m' before after rest c target q next r goes =>
      -- Only a join ever waits, so it is a join that goes on.
      obtain ⟨bootstrap, _, _, _, heq, hnext⟩ := hl _ (List.mem_append_right _ List.mem_cons_self)
      cases heq
      rcases (hnext r m).proceed with ⟨x, n, hproceed, hends⟩ | ⟨target', q', next', n, hproceed, habides, hnext'⟩
      · rw [hproceed] at goes
        cases goes
        rw [Call.left_done, List.append_nil]
        exact .finish bootstrap rfl hends
      · rw [hproceed] at goes
        cases goes
        change Change _ _ ⟨m', before ++ [_] ++ after⟩
        rw [List.append_assoc]
        exact .wait bootstrap rfl ⟨bootstrap, target', q', next', rfl, hnext'⟩ habides
  | meanwhile view => exact .meanwhile view

/-! ## The phases a member goes through -/

/-- Every change of the phase that there is, with what the user gets for it. -/
inductive Moves : Moment → Option Call.Outcome → Phase → Phase → Prop
  | created : Moves (.called .create) (some (.ok none)) .created .joined
  | begun (bootstrap : Address) : Moves (.called (.join bootstrap)) none .created .joining
  | refused {c : Call} {p : Phase} (call : c ≠ .shutdown) (phase : p ≠ .created) :
      Moves (.called c) (some (.error (.invalidState p.name))) p p
  | shutdown (p : Phase) : Moves (.called .shutdown) (some (.ok none)) p .destroyed
  | waited (bootstrap : Address) (p : Phase) : Moves (.resumed (.join bootstrap)) none p p
  | joined (bootstrap : Address) (successor : Peer) :
      Moves (.resumed (.join bootstrap)) (some (.ok (some successor))) .joining .joined
  | failed (bootstrap : Address) (e : Failure) : Moves (.resumed (.join bootstrap)) (some (.error e)) .joining .created
  | late (bootstrap : Address) : Moves (.resumed (.join bootstrap))
      (some (.error (.invalidState Phase.destroyed.name))) .destroyed .destroyed
  | meanwhile (p : Phase) : Moves .meanwhile none p p

/-- It returns to the user that the member is in a ring. -/
def Stretch.grants (s : Stretch) : Bool :=
  match s.moment, s.result with
  | .called .shutdown, _ => false
  | _, some (.ok _) => true
  | _, _ => false

/-- A round more runs after the stretch. -/
def Stretch.starts (s : Stretch) : Bool := s.before.rounds.length < s.after.rounds.length

/--
Where a member stands after all that has happened to it: the rounds that run, the joins that wait, and how often it has
become part of a ring and started rounds.
-/
structure Standing (history : List Stretch) (l : Life) : Prop where
  rounds : l.member.rounds = if l.member.phase = .joined then Round.all else []
  pending : l.pending.length ≤ if l.member.phase = .joining ∨ l.member.phase = .destroyed then 1 else 0
  grants : history.countP Stretch.grants ≤ if l.member.phase = .joined ∨ l.member.phase = .destroyed then 1 else 0
  starts : history.countP Stretch.starts ≤ if l.member.phase = .joined ∨ l.member.phase = .destroyed then 1 else 0

variable {history : List Stretch}

theorem Standing.begin {m : Member} (hphase : m.phase = .created) (hrounds : m.rounds = []) : Standing [] ⟨m, []⟩ := by
  constructor <;> simp [hphase, hrounds]

/-- A join waits during the time of joining, or after the end. -/
theorem Standing.waiting (hl : Standing history l) {before after : List Call.Pending} {p : Call.Pending}
    (hpending : l.pending = before ++ p :: after) :
    (l.member.phase = .joining ∨ l.member.phase = .destroyed) ∧ before = [] ∧ after = [] := by
  have hlength := hl.pending
  rw [hpending, List.length_append, List.length_cons] at hlength
  split at hlength
  · rename_i hphase
    exact ⟨hphase, List.length_eq_zero_iff.mp (by omega), List.length_eq_zero_iff.mp (by omega)⟩
  · omega

theorem countP_snoc (p : Stretch → Bool) : (history ++ [s]).countP p = history.countP p + (p s).toNat := by
  rw [List.countP_append, List.countP_singleton, Bool.toNat, Bool.cond_eq_ite]

/-- A stretch that keeps the phase and grants nothing leaves a member where it stands. -/
theorem Standing.same (hl : Standing history l) (hgrants : s.grants = false) (habides : s.before.Abides s.after)
    (hbefore : s.before = l.member) (hafter : s.after = l'.member) (hpending : l'.pending.length ≤ l.pending.length) :
    Standing (history ++ [s]) l' := by
  have hstarts : s.starts = false := decide_eq_false (habides.2 ▸ lt_irrefl _)
  rw [hbefore, hafter] at habides
  refine ⟨?_, ?_, ?_, ?_⟩
  · rw [habides.2, habides.1, hl.rounds]
  · rw [habides.1]
    exact hpending.trans hl.pending
  · rw [habides.1, countP_snoc, hgrants]
    exact hl.grants
  · rw [habides.1, countP_snoc, hstarts]
    exact hl.starts

/-- Until it is part of a ring, a member has never been, and no rounds run. -/
theorem Standing.early (hl : Standing history l) (hphase : l.member.phase = .created ∨ l.member.phase = .joining) :
    l.member.rounds = [] ∧ history.countP Stretch.grants = 0 ∧ history.countP Stretch.starts = 0 := by
  obtain ⟨hrounds, -, hgrants, hstarts⟩ := hl
  rcases hphase with h | h <;>
    · simp only [h, reduceCtorEq, or_self, if_false, Nat.le_zero] at hrounds hgrants hstarts
      exact ⟨hrounds, hgrants, hstarts⟩

theorem Standing.enter (hl : Standing history l) (hphase : l.member.phase = .created ∨ l.member.phase = .joining)
    (hphase' : l'.member.phase = .joined) (hrounds' : l'.member.rounds = l.member.rounds ++ Round.all)
    (hpending' : l'.pending = []) : Standing (history ++ [s]) l' := by
  obtain ⟨hrounds, hgrants, hstarts⟩ := hl.early hphase
  refine ⟨?_, ?_, ?_, ?_⟩
  · rw [hrounds', hrounds, if_pos hphase', List.nil_append]
  · rw [hpending']
    exact Nat.zero_le _
  · rw [countP_snoc, hgrants, Nat.zero_add, if_pos (Or.inl hphase')]
    exact Bool.toNat_le _
  · rw [countP_snoc, hstarts, Nat.zero_add, if_pos (Or.inl hphase')]
    exact Bool.toNat_le _

/-- A join begins, or ends without success. -/
theorem Standing.outside (hl : Standing history l) (hphase : l.member.phase = .created ∨ l.member.phase = .joining)
    (hphase' : l'.member.phase = .created ∨ l'.member.phase = .joining) (hgrants' : s.grants = false)
    (hrounds' : s.after.rounds = s.before.rounds) (hbefore : s.before = l.member) (hafter : s.after = l'.member)
    (hpending' : l'.pending.length ≤ if l'.member.phase = .joining then 1 else 0) : Standing (history ++ [s]) l' := by
  obtain ⟨hrounds, hgrants, hstarts⟩ := hl.early hphase
  have hstarts' : s.starts = false := decide_eq_false (hrounds' ▸ lt_irrefl _)
  rw [hbefore, hafter, hrounds] at hrounds'
  refine ⟨?_, ?_, ?_, ?_⟩
  · rw [hrounds']
    rcases hphase' with h | h <;> rw [h] <;> rfl
  · rcases hphase' with h | h <;> rw [h] at hpending' ⊢ <;> exact hpending'
  · rw [countP_snoc, hgrants, hgrants']
    exact Nat.zero_le _
  · rw [countP_snoc, hstarts, hstarts']
    exact Nat.zero_le _

theorem Change.moves (h : l.Change s l') (hl : Standing history l) :
    Moves s.moment s.result s.before.phase s.after.phase := by
  cases h with
  | create view phase => exact phase ▸ .created
  | join bootstrap phase joins => exact phase ▸ .begun bootstrap
  | refuse call phase => exact .refused call phase
  | shutdown => exact .shutdown _
  | wait bootstrap pending joins abides => exact abides.1 ▸ .waited bootstrap _
  | finish bootstrap pending ends =>
      cases ends with
      | joined successor phase phase' rounds => exact phase ▸ phase' ▸ .joined bootstrap successor
      | failed e phase phase' rounds => exact phase ▸ phase' ▸ .failed bootstrap e
      | late phase abides =>
          -- While a join waits, nothing but the end moves its member on.
          have hphase := (hl.waiting pending).1.resolve_left phase
          rw [show _ = l.member.phase from abides.1, hphase]
          exact .late bootstrap
  | meanwhile view => exact .meanwhile _

theorem Change.standing (h : l.Change s l') (hl : Standing history l) : Standing (history ++ [s]) l' := by
  cases h with
  | create view phase =>
      have hpending := hl.pending
      rw [phase] at hpending
      exact hl.enter (Or.inl phase) rfl rfl (List.eq_nil_of_length_eq_zero (Nat.le_zero.mp hpending))
  | join bootstrap phase joins =>
      refine hl.outside (Or.inl phase) (Or.inr rfl) rfl rfl rfl rfl ?_
      have hpending := hl.pending
      rw [phase] at hpending
      rw [List.length_append]
      exact Nat.add_le_add_right hpending 1
  | @refuse c call phase =>
      refine hl.same ?_ ⟨rfl, rfl⟩ rfl rfl le_rfl
      cases c <;> rfl
  | shutdown =>
      -- A join that waits stays, whatever it will find when it goes on.
      refine ⟨rfl, hl.pending.trans ?_, ?_, ?_⟩
      · split <;> simp [Member.shutdown]
      · rw [countP_snoc]
        refine le_trans hl.grants ?_
        split <;> simp [Member.shutdown]
      · have hnone : Stretch.starts ⟨.called .shutdown, some (.ok none), l.member, l.member.shutdown⟩ = false :=
          decide_eq_false (Nat.not_lt_zero _)
        rw [countP_snoc, hnone]
        refine le_trans hl.starts ?_
        split <;> simp [Member.shutdown]
  | wait bootstrap pending joins abides => exact hl.same rfl abides rfl rfl (by simp [pending])
  | finish bootstrap pending ends =>
      obtain ⟨-, rfl, rfl⟩ := hl.waiting pending
      cases ends with
      | joined successor phase phase' rounds => exact hl.enter (Or.inr phase) phase' rounds rfl
      | failed e phase phase' rounds =>
          exact hl.outside (Or.inr phase) (Or.inl phase') rfl rounds rfl rfl (Nat.zero_le _)
      | late phase abides => exact hl.same rfl abides rfl rfl (Nat.zero_le _)
  | meanwhile view => exact hl.same rfl ⟨rfl, rfl⟩ rfl rfl le_rfl

theorem Change.joins (h : l.Change s l') (hl : ∀ p ∈ l.pending, p.Joins) : ∀ p ∈ l'.pending, p.Joins := by
  intro p hp
  cases h with
  | join bootstrap phase joins =>
      rcases List.mem_append.mp hp with hp | hp
      · exact hl p hp
      · exact List.mem_singleton.mp hp ▸ joins
  | wait bootstrap pending joins abides =>
      rcases List.mem_append.mp hp with hp | hp
      · exact hl p (pending ▸ List.mem_append_left _ hp)
      · rcases List.mem_cons.mp hp with rfl | hp
        · exact joins
        · exact hl p (pending ▸ List.mem_append_right _ (List.mem_cons_of_mem _ hp))
  | finish bootstrap pending ends =>
      rcases List.mem_append.mp hp with hp | hp
      · exact hl p (pending ▸ List.mem_append_left _ hp)
      · exact hl p (pending ▸ List.mem_append_right _ (List.mem_cons_of_mem _ hp))
  | _ => exact hl p hp

/-! ## Whole lives -/

theorem Run.standing {m : Member} (h : Run m history l) (hphase : m.phase = .created) (hrounds : m.rounds = []) :
    (∀ p ∈ l.pending, p.Joins) ∧ Standing history l := by
  induction h with
  | begin => exact ⟨fun _ hp => absurd hp List.not_mem_nil, .begin hphase hrounds⟩
  | step past step ih =>
      have hchange := step.change ih.1
      exact ⟨hchange.joins ih.1, hchange.standing ih.2⟩

theorem Run.changes {m : Member} (h : Run m history l) (hphase : m.phase = .created) (hrounds : m.rounds = []) :
    ∀ s ∈ history, ∃ past l l', Run m past l ∧ l.Change s l' ∧ Standing past l := by
  induction h with
  | begin => exact fun _ hs => absurd hs List.not_mem_nil
  | step past step ih =>
      intro s hs
      rcases List.mem_append.mp hs with hs | hs
      · exact ih s hs
      · obtain rfl := List.mem_singleton.mp hs
        obtain ⟨hjoins, hstanding⟩ := past.standing hphase hrounds
        exact ⟨_, _, _, past, step.change hjoins, hstanding⟩

theorem Change.ends_at (h : l.Change s l') : s.before = l.member ∧ s.after = l'.member := by
  cases h <;> exact ⟨rfl, rfl⟩

theorem Moves.of_destroyed {moment : Moment} {result : Option Call.Outcome} {p : Phase}
    (h : Moves moment result .destroyed p) : p = .destroyed := by
  cases h <;> rfl

theorem Moves.of_shutdown {result : Option Call.Outcome} {p p' : Phase}
    (h : Moves (.called .shutdown) result p p') : p' = .destroyed := by
  cases h with
  | refused call phase => exact absurd rfl call
  | shutdown p => rfl

theorem Run.destroyed {m : Member} (h : Run m history l) (hphase : m.phase = .created) (hrounds : m.rounds = []) :
    ∀ s ∈ history, s.after.phase = .destroyed → l.member.phase = .destroyed := by
  induction h with
  | begin => exact fun _ hs => absurd hs List.not_mem_nil
  | step past step ih =>
      intro s hs hafter
      obtain ⟨hjoins, hstanding⟩ := past.standing hphase hrounds
      have hchange := step.change hjoins
      rcases List.mem_append.mp hs with hs | hs
      · have hmoves := hchange.moves hstanding
        rw [hchange.ends_at.1, hchange.ends_at.2, ih s hs hafter] at hmoves
        exact hmoves.of_destroyed
      · obtain rfl := List.mem_singleton.mp hs
        rw [← hchange.ends_at.2, hafter]

theorem Change.refused (h : l.Change s l') {c : Call} (hcall : s.moment = .called c) (hc : c ≠ .shutdown)
    (hphase : s.before.phase ≠ .created) :
    s.result = some (.error (.invalidState s.before.phase.name)) ∧ s.after = s.before := by
  cases h with
  | create view phase => exact absurd phase hphase
  | join bootstrap phase joins => exact absurd phase hphase
  | refuse call phase => exact ⟨rfl, rfl⟩
  | shutdown =>
      cases hcall
      exact absurd rfl hc
  | wait bootstrap pending joins abides => cases hcall
  | finish bootstrap pending ends => cases hcall
  | meanwhile view => cases hcall

/-- What a member has gone through, and where that has left it. -/
structure OneMembership (history : List Stretch) (l : Life) : Prop where
  moves : ∀ s ∈ history, Moves s.moment s.result s.before.phase s.after.phase
  refused : ∀ s ∈ history, ∀ c : Call, s.moment = .called c → c ≠ .shutdown → s.before.phase ≠ .created →
    s.result = some (.error (.invalidState s.before.phase.name)) ∧ s.after = s.before
  granted : history.countP Stretch.grants ≤ 1
  waiting : l.pending.length ≤ 1 ∧ ∀ p ∈ l.pending, ∃ bootstrap, p.call = .join bootstrap
  started : history.countP Stretch.starts ≤ 1
  rounds : l.member.rounds = if l.member.phase = .joined then Round.all else []
  ended : ∀ s ∈ history, s.moment = .called .shutdown ∨ s.after.phase = .destroyed →
    l.member.phase = .destroyed ∧ l.member.rounds = []

/-- However calls overlap, a member is part of a ring at most once, and of none any more once it is shut down. -/
theorem one_membership {self : Peer} {settings : Settings} (h : Run (Member.fresh self settings) history l) :
    OneMembership history l := by
  obtain ⟨hjoins, hstanding⟩ := h.standing rfl rfl
  have hchanges := h.changes rfl rfl
  refine ⟨?moves, ?refused, ?granted, ⟨?single, ?joins⟩, ?started, hstanding.rounds, ?ended⟩
  case moves =>
    intro s hs
    obtain ⟨past, before, after, _, hchange, hpast⟩ := hchanges s hs
    exact hchange.moves hpast
  case refused =>
    intro s hs c
    obtain ⟨past, before, after, _, hchange, _⟩ := hchanges s hs
    exact hchange.refused
  case granted =>
    refine hstanding.grants.trans ?_
    split <;> decide
  case single =>
    refine hstanding.pending.trans ?_
    split <;> decide
  case joins =>
    intro p hp
    obtain ⟨bootstrap, _, _, _, rfl, _⟩ := hjoins p hp
    exact ⟨bootstrap, rfl⟩
  case started =>
    refine hstanding.starts.trans ?_
    split <;> decide
  case ended =>
    intro s hs hover
    obtain ⟨past, before, after, _, hchange, hpast⟩ := hchanges s hs
    have hafter : s.after.phase = .destroyed := by
      rcases hover with hcall | hafter
      · have hmoves := hchange.moves hpast
        rw [hcall] at hmoves
        exact hmoves.of_shutdown
      · exact hafter
    have hphase := h.destroyed rfl rfl s hs hafter
    refine ⟨hphase, ?_⟩
    rw [hstanding.rounds, hphase]
    rfl

/--
A join waits while a ring is to be created and another one joined; the member is shut down before the notice of the
join is answered.
-/
theorem one_membership_of_overlapping_calls : ∃ history l, Run (Member.fresh default {}) history l ∧
    OneMembership history l ∧ history.map Stretch.result =
      [none, some (.error (.invalidState "Joining")), some (.error (.invalidState "Joining")), none, some (.ok none),
        some (.error (.invalidState "Destroyed"))] := by
  have hbegun := Run.step (Run.begin (m := Member.fresh default {})) (.call (.join default) rfl)
  have hrefused := Run.step (Run.step hbegun (.call .create rfl)) (.call (.join default) rfl)
  have hanswered := Run.step hrefused
    (@Step.resume _ _ [] [] _ _ _ _ _ (.ok (some { (default : Peer) with id := 5 })) rfl)
  have hshut := Run.step hanswered (.call .shutdown rfl)
  have hover := Run.step hshut (@Step.resume _ _ [] [] _ _ _ _ _ (.ok true) rfl)
  exact ⟨_, _, hover, one_membership hover, rfl⟩

end Life

end ChordOverlay
