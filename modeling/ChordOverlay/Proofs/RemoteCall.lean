import ChordOverlay.Proofs.LocalCall

/-!
# A remote call is a local call

A member that is called over a connection does what a local call would have it do, and whoever calls gets what the local
call gives, if that is there in time: whatever each side waits for, whoever else is at work meanwhile, and whenever the
reply is read.
-/

namespace ChordOverlay

/-! ## A call under way -/

/-- A query that a host is to put to whoever listens at an address. -/
structure Inquiry where
  party : Option Nat
  ip : Ipv4
  settings : Settings
  target : Address
  query : Query

/-- When whoever calls gives up. -/
def Inquiry.due (c : Inquiry) (m : Machine) : Nat := m.now + c.query.patience c.settings

/-- The party `k` is the member `v`, and listens at an address that answers. -/
structure Machine.Serves (m : Machine) (target : Address) (k : Nat) (v : Member) : Prop where
  listens : m.network.holder? target = some k
  answers : m.network.isSwallowing target = false
  hosts : m.Hosts k v
  prompt : m.Prompt

/-- On a machine that has come about from the empty one, it is enough that the member listens there. -/
theorem Machine.Serves.of_happens {m : Machine} {target : Address} {k : Nat} {v : Member}
    (h : Relation.ReflTransGen Happens .empty m) (listens : m.network.holder? target = some k)
    (answers : m.network.isSwallowing target = false) (hosts : m.Hosts k v) : m.Serves target k v :=
  ⟨listens, answers, hosts, prompt_empty.of_happens h⟩

/-- What is left of a call on either side, and what has happened to the member that is called. -/
structure Talk (q : Query) where
  machine : Machine
  caller : Dialog (Except Failure q.Answer)
  callee : Dialog Unit
  past : List Moment

/-- The caller has just connected to `target`, and the party `k` has begun to serve the connection `link` from `host`. -/
inductive Opens (c : Inquiry) (m : Machine) (link k : Nat) (host : Ipv4) : Talk c.query → Prop
  | intro {m' : Machine} {next : Nat → Except NetFault End → Dialog (Except Failure c.query.Answer)} {callee : Dialog Unit}
      (asks : Dialog.inquire c.settings c.target c.query = .ask .clock fun start : Nat => .ask (.connect c.target) (next start))
      (connects : m.meet c.party c.ip (.connect c.target) = (m', some (Except.ok ⟨link, .caller⟩)))
      (serves : m'.threads = m.threads ++ [⟨some k, host, callee⟩]) :
      Opens c m link k host ⟨m', next m.now (.ok ⟨link, .caller⟩), callee, []⟩

namespace Talk

/-- One of the two goes on, or others do something elsewhere. -/
inductive Step (c : Inquiry) (link k : Nat) (host : Ipv4) : Talk c.query → Talk c.query → Prop
  | caller {t : Talk c.query} {m : Machine} {op : DialogOp}
      {next : DialogOps.Answer op → Dialog (Except Failure c.query.Answer)} {x : DialogOps.Answer op}
      (asks : t.caller = .ask op next) (met : t.machine.meet c.party c.ip op = (m, some x)) :
      Step c link k host t ⟨m, next x, t.callee, t.past⟩
  | callee {t : Talk c.query} {m : Machine} {op : DialogOp} {next : DialogOps.Answer op → Dialog Unit}
      {x : DialogOps.Answer op} (asks : t.callee = .ask op next) (met : t.machine.meet (some k) host op = (m, some x)) :
      Step c link k host t ⟨m, t.caller, next x, t.past ++ [.met op x]⟩
  | others {t : Talk c.query} {m : Machine} {v : Member} (elsewhere : t.machine.Elsewhere link k v m)
      (free : ¬ Dialog.Stores t.callee) :
      Step c link k host t ⟨m, t.caller, t.callee, t.past ++ [.drift v]⟩

/-- The call goes on from one state to the other. -/
def Run (c : Inquiry) (link k : Nat) (host : Ipv4) : Talk c.query → Talk c.query → Prop :=
  Relation.ReflTransGen (Step c link k host)

/-- Something has been sent back. -/
def Answered {q : Query} (link : Nat) (t : Talk q) : Prop := t.past.any (Moment.writes ⟨link, .callee⟩) = true

instance {q : Query} (link : Nat) (t : Talk q) : Decidable (t.Answered link) := inferInstanceAs (Decidable (_ = true))

end Talk

/--
What has happened to the member `v` on account of a query from `source`: it has been left alone (`heard`), then the local
call has been carried out (`served`) and has given `r`, and since then it has been left alone again (`told`).
-/
structure Resolved (q : Query) (source : Ipv4) (v : Member) (past : List Moment) (r : q.Answer)
    (heard served told : List Moment) : Prop where
  parts : past = heard ++ served ++ told
  before : ∀ x ∈ heard, x.Idle
  during : Leads ((q.resolve source).toDialog v.settings) (after v heard) served (.done r)
  since : ∀ x ∈ told, x.Idle

/-- The caller is given `r` as soon as it goes on, and the member is what the local call has left, but for what others did. -/
structure AsLocal (c : Inquiry) (k : Nat) (v : Member) (t : Talk c.query) (r : c.query.Answer)
    (heard served told : List Moment) : Prop where
  resolved : Resolved c.query c.ip v t.past r heard served told
  returned : (t.machine.advance c.party c.ip t.caller).2 = .ok (.ok r)
  hosts : t.machine.Hosts k (after (after (after v heard) served) told)

/-! ## One end of a connection -/

theorem Pipe.room_empty : 0 < Pipe.empty.room := Nat.succ_pos _

namespace Machine

variable {m m' : Machine} {party : Option Nat} {ip : Ipv4} {e : End} {bytes : Bytes} {l : Link}

theorem canMeet_push (hl : m.network.link? e.link = some l) (hroom : 0 < (l.outgoing e.side).room) (deadline : Option Nat) :
    m.canMeet (.push e bytes deadline) = true := by simp [canMeet, hl, hroom]

theorem canMeet_take (hl : m.network.link? e.link = some l) (hheld : (l.incoming e.side).held ≠ [])
    (limit deadline : Option Nat) : m.canMeet (.take e limit deadline) = true := by simp [canMeet, hl, hheld]

theorem canMeet_take_empty (hl : m.network.link? e.link = some l) (hempty : l.incoming e.side = .empty) (due : Nat) :
    m.canMeet (.take e none (some due)) = decide (due ≤ m.now) := by simp [canMeet, hl, hempty, Pipe.empty, isDue]

/-- Whoever writes where there is room for something gets that much written. -/
theorem meet_push_room (hl : m.network.link? e.link = some l) (hopen : (l.outgoing e.side).closed = false)
    (hroom : 0 < (l.outgoing e.side).room) (deadline : Option Nat) : m.meet party ip (.push e bytes deadline) =
      (m.relink e.link (Link.setOutgoing · e.side ((l.outgoing e.side).push bytes).1),
        some (Pushed.accepted ((l.outgoing e.side).push bytes).2)) := by
  have hpush : m.push e bytes = (m.relink e.link (Link.setOutgoing · e.side ((l.outgoing e.side).push bytes).1),
      .accepted ((l.outgoing e.side).push bytes).2) := by
    simp only [push, hl, hopen, Nat.ne_of_gt hroom]
    rfl
  rw [meet, if_pos (canMeet_push hl hroom deadline)]
  simp only [hpush]
  rfl

/-- What is written into an empty pipe arrives as a whole. -/
theorem meet_push (hl : m.network.link? e.link = some l) (hempty : l.outgoing e.side = .empty)
    (hbytes : bytes.length ≤ Pipe.capacity) (deadline : Option Nat) : m.meet party ip (.push e bytes deadline) =
      (m.relink e.link (Link.setOutgoing · e.side ⟨bytes, false⟩), some (Pushed.accepted bytes.length)) := by
  have hwritten : Pipe.empty.push bytes = (⟨bytes, false⟩, bytes.length) := by
    simp only [Pipe.push, Pipe.empty, Pipe.room, List.length_nil, Nat.sub_zero, List.take_of_length_le hbytes,
      List.nil_append]
  rw [meet_push_room hl (hempty ▸ rfl) (hempty ▸ Pipe.room_empty) deadline, hempty, hwritten]

/-- What there is to be read is read as a whole, whatever the time. -/
theorem meet_take (hl : m.network.link? e.link = some l) (hheld : (l.incoming e.side).held = bytes) (hbytes : 0 < bytes.length)
    (deadline : Option Nat) : m.meet party ip (.take e none deadline) =
      (m.relink e.link (Link.setIncoming · e.side ⟨[], (l.incoming e.side).closed⟩), some (Taken.bytes bytes)) := by
  have hsome : bytes.isEmpty = false := by cases bytes <;> simp_all
  have htake : m.take e none =
      (m.relink e.link (Link.setIncoming · e.side ⟨[], (l.incoming e.side).closed⟩), .bytes bytes) := by
    simp only [take, hl, hheld, hsome, Pipe.take]
    rfl
  rw [meet, if_pos (canMeet_take hl (hheld ▸ List.ne_nil_of_length_pos hbytes) none deadline)]
  simp only [htake]
  rfl

/-- Where all has been read and no more can come, whoever reads meets the end. -/
theorem meet_take_ended (hl : m.network.link? e.link = some l) (hempty : (l.incoming e.side).held = [])
    (hclosed : (l.incoming e.side).closed = true) (deadline : Option Nat) :
    m.meet party ip (.take e none deadline) = (m, some Taken.ended) := by
  have htake : m.take e none = (m, .ended) := by simp [take, hl, hempty, hclosed]
  have hmeet : m.canMeet (.take e none deadline) = true := by simp [canMeet, hl, hclosed]
  rw [meet, if_pos hmeet]
  simp only [htake]
  rfl

/-- Where nothing is to be read, whoever does not wait any longer has reached its deadline. -/
theorem meet_take_empty {due : Nat} {x : Taken} (hl : m.network.link? e.link = some l)
    (hempty : l.incoming e.side = .empty) (hmet : m.meet party ip (.take e none (some due)) = (m', some x)) :
    x = .late ∧ m' = m ∧ due ≤ m.now := by
  have htake : m.take e none = (m, .late) := by
    simp only [take, hl, hempty]
    rfl
  rw [meet, canMeet_take_empty hl hempty due] at hmet
  split at hmet
  · rename_i hdue
    simp only [htake] at hmet
    cases hmet
    exact ⟨rfl, rfl, of_decide_eq_true hdue⟩
  · cases hmet

theorem advance_ask {β : Type} {op : DialogOp} {next : DialogOps.Answer op → Dialog β} {x : DialogOps.Answer op}
    (hmet : m.meet party ip op = (m', some x)) : m.advance party ip (.ask op next) = m'.advance party ip (next x) := by
  rw [advance.eq_def]
  simp only [hmet]

theorem link?_relink {f : Link → Link} {link : Nat} (hl : m.network.link? link = some l) (hheld : (f l).isHeld = true) :
    (m.relink link f).network.link? link = some (f l) :=
  Network.link?_updateLink hl hheld

theorem Hosts.met {k : Nat} {v : Member} {op : DialogOp} {x : DialogOps.Answer op} (h : m.Hosts k v)
    (hmet : m.meet (some k) ip op = (m', some x)) : m'.Hosts k (Moment.apply v (.met op x)) := by
  by_cases hop : op.IsStore
  · cases op with
    | store v' =>
        change (m.setMember (some k) v', some ()) = (m', some x) at hmet
        cases hmet
        exact h.setMember v'
    | _ => cases hop
  · rw [Moment.apply_met hop]
    exact (moves_meet hmet).hosts hop h

theorem Serves.connects {target : Address} {k : Nat} {v : Member} (h : m.Serves target k v) (ip : Ipv4) :
    ∃ l, m.network.listener? target = some l ∧
      m.network.connect ip target = (m.network.enqueue ip target, .ok ⟨m.network.next, .caller⟩) := by
  obtain ⟨l, hl, -⟩ := Option.map_eq_some_iff.mp h.listens
  refine ⟨l, hl, ?_⟩
  rcases m.network.connect_cases ip target with ⟨hswallows, -⟩ | ⟨-, -, hconnect⟩ | ⟨-, hlistens, -⟩
  · rw [h.answers] at hswallows
    cases hswallows
  · exact hconnect
  · rw [Network.isListening, hl] at hlistens
    cases hlistens

/-- Whoever connects is served at once. -/
theorem Serves.meet_connect {target : Address} {k : Nat} {v : Member} (h : m.Serves target k v) {p : Party}
    (hp : m.parties[k]? = some p) (party : Option Nat) (ip : Ipv4) : m.meet party ip (.connect target) =
      ({ m with
          network := (m.network.enqueue ip target).dequeue target
          threads := m.threads ++ [⟨some k, p.ip, Dialog.serveAs (m.handle k) ⟨m.network.next, ⟨ip, m.network.ephemeralPort⟩⟩⟩] },
        some (Except.ok ⟨m.network.next, .caller⟩)) := by
  obtain ⟨p', app, hp', hrole⟩ := h.hosts
  cases hp.symm.trans hp'
  obtain ⟨l, hl, hconnect⟩ := h.connects ip
  have haccept := acceptAt_enqueue (m := m) hl (h.prompt l (Network.mem_of_listener? hl).1) ip
  have howner : l.owner = k := Option.some.inj ((congrArg (Option.map Listener.owner) hl).symm.trans h.listens)
  change (acceptAt { m with network := (m.network.connect ip target).1 } target, some (m.network.connect ip target).2) = _
  rw [hconnect]
  dsimp only
  rw [haccept, howner, serveAt]
  simp only [hp, hrole]

theorem Serves.connect {target : Address} {k : Nat} {v : Member} (h : m.Serves target k v) (party : Option Nat) (ip : Ipv4) :
    ∃ host m', m.meet party ip (.connect target) = (m', some (Except.ok ⟨m.network.next, .caller⟩)) ∧
      m'.threads = m.threads ++
        [⟨some k, host, Dialog.serveAs (m.handle k) ⟨m.network.next, ⟨ip, m.network.ephemeralPort⟩⟩⟩] ∧
      m'.now = m.now ∧ m'.network.next = m.network.next + 1 ∧ m'.network.link? m.network.next = some .fresh ∧ m'.Hosts k v := by
  obtain ⟨p, app, hp, hrole⟩ := h.hosts
  refine ⟨p.ip, _, h.meet_connect hp party ip, rfl, rfl, rfl, ?_, p, app, hp, hrole⟩
  simp [Network.link?, Network.dequeue, Network.enqueue, Network.addLink]

end Machine

/-! ## How far a call has come -/

/-- The end of a connection at which it was made. -/
def Inbound.there (inbound : Inbound) : End := ⟨inbound.link, .caller⟩

/-- The member is what others have made of it, with its settings kept, and nothing has been written to the caller. -/
structure Quiet (link : Nat) (v : Member) (past : List Moment) : Prop where
  idle : ∀ x ∈ past, x.Idle
  silent : past.any (Moment.writes ⟨link, .callee⟩) = false
  settings : (after v past).settings = v.settings

/-- The query has not been heard yet. -/
inductive Hearing (v : Member) (inbound : Inbound) (q : Query) : Dialog Unit → Prop
  | enter (handle : Handling) : Hearing v inbound q (Dialog.serveAs handle inbound)
  | start {next : Nat → Dialog Unit} (listens : ∀ start, Dialog.Listens v.settings inbound q (next start)) :
      Hearing v inbound q (.ask .clock next)
  | listen {d : Dialog Unit} (listens : Dialog.Listens v.settings inbound q d) : Hearing v inbound q d

namespace Talk

variable {q : Query}

/-- The time is up, or the callee closes the connection without a reply. -/
def Missed (inbound : Inbound) (due : Nat) (t : Talk q) : Prop :=
  due ≤ t.machine.now ∨
    Dialog.Only (DialogOp.Closes inbound.here) t.callee ∧ t.past.any (Moment.writes inbound.here) = false

/-- Where the call stands before it is answered. -/
inductive Pending (inbound : Inbound) (due : Nat) (v : Member) : Talk q → Prop
  | asking {t : Talk q} (callee : Hearing v inbound q t.callee) (quiet : Quiet inbound.link v t.past)
      (caller : Dialog.Puts q inbound.there due t.caller) (link : t.machine.network.link? inbound.link = some .fresh) :
      Pending inbound due v t
  | asked {t : Talk q} (callee : Hearing v inbound q t.callee) (quiet : Quiet inbound.link v t.past)
      (caller : Dialog.Waits q inbound.there due t.caller)
      (link : t.machine.network.link? inbound.link = some { Link.fresh with there := ⟨q.request.wire, false⟩ }) :
      Pending inbound due v t
  | serving {t : Talk q} {heard served : List Moment} {rest : Dialog q.Answer}
      (caller : Dialog.Waits q inbound.there due t.caller) (link : t.machine.network.link? inbound.link = some .fresh)
      (parts : t.past = heard ++ served) (before : ∀ x ∈ heard, x.Idle)
      (during : Leads ((q.resolve inbound.source.ip).toDialog v.settings) (after v heard) served rest)
      (callee : t.callee = rest.bind (Dialog.handOver v.settings inbound.here q))
      (only : Dialog.Only (fun op => op = .look ∨ op.IsStore ∨ op.Calls) rest) (avoids : Dialog.Avoids inbound.link rest)
      (silent : t.past.any (Moment.writes inbound.here) = false) : Pending inbound due v t

/-- The reply has been written, and is on its way or has been read. -/
inductive Settled (inbound : Inbound) (due : Nat) (v : Member) : Talk q → Prop
  | answered {t : Talk q} {r : q.Answer} {heard served told : List Moment} {l : Link}
      (resolved : Resolved q inbound.source.ip v t.past r heard served told)
      (callee : Dialog.Only (DialogOp.Closes inbound.here) t.callee) (caller : Dialog.Waits q inbound.there due t.caller)
      (link : t.machine.network.link? inbound.link = some l) (held : l.back.held = (q.report r).wire)
      (waits : l.callerHeld = true) : Settled inbound due v t
  | returned {t : Talk q} {r : q.Answer} {heard served told : List Moment}
      (resolved : Resolved q inbound.source.ip v t.past r heard served told)
      (callee : Dialog.Only (DialogOp.Closes inbound.here) t.callee)
      (caller : t.caller = .ask (.release inbound.there) (fun _ => .done (.ok r)) ∨ t.caller = .done (.ok r)) :
      Settled inbound due v t

end Talk

/-! ## What one step does to it -/

section Steps

variable {link : Nat} {v v' : Member} {past : List Moment} {op : DialogOp} {x : DialogOps.Answer op}

theorem any_append_singleton {f : Moment → Bool} (h : past.any f = false) {y : Moment} (hy : f y = false) :
    (past ++ [y]).any f = false := by
  rw [List.any_append, h, List.any_cons, hy]
  rfl

theorem Quiet.met (h : Quiet link v past) (hop : ¬ op.IsStore)
    (hpush : ∀ bytes deadline, op ≠ .push ⟨link, .callee⟩ bytes deadline) : Quiet link v (past ++ [.met op x]) where
  idle := List.forall_mem_append.mpr ⟨h.idle, List.forall_mem_singleton.mpr hop⟩
  silent := any_append_singleton h.silent (Moment.writes_met hpush x)
  settings := by rw [after_append, Moment.apply_met hop, h.settings]

theorem Quiet.drift (h : Quiet link v past) (hsettings : v'.settings = (after v past).settings) :
    Quiet link v (past ++ [.drift v']) where
  idle := List.forall_mem_append.mpr ⟨h.idle, List.forall_mem_singleton.mpr trivial⟩
  silent := any_append_singleton h.silent rfl
  settings := by rw [after_append]; exact hsettings.trans h.settings

theorem Resolved.idle {q : Query} {source : Ipv4} {r : q.Answer} {heard served told : List Moment}
    (h : Resolved q source v past r heard served told) {y : Moment} (hy : y.Idle) :
    Resolved q source v (past ++ [y]) r heard served (told ++ [y]) where
  parts := by rw [h.parts, List.append_assoc]
  before := h.before
  during := h.during
  since := List.forall_mem_append.mpr ⟨h.since, List.forall_mem_singleton.mpr hy⟩

variable {q : Query} {inbound : Inbound} {m m' : Machine} {k : Nat} {host : Ipv4} {d : Dialog Unit}
  {next : DialogOps.Answer op → Dialog Unit}

/-- What is read first is either nothing, if time is up, or the query; before that the callee does nothing but wait. -/
theorem Hearing.met (hlimit : 11 ≤ v.settings.maxMessageLength) (hearing : Hearing v inbound q d)
    (quiet : Quiet inbound.link v past) (hosts : m.Hosts k (after v past)) (asks : d = .ask op next)
    (met : m.meet (some k) host op = (m', some x)) :
    Quiet inbound.link v (past ++ [.met op x]) ∧ (m' = m ∧ Hearing v inbound q (next x) ∨
      ∃ (due : Nat) (taken : Taken), m.meet (some k) host (.take inbound.here none (some due)) = (m', some taken) ∧
        (taken = .late → Dialog.Only (DialogOp.Closes inbound.here) (next x)) ∧
        (taken = .bytes q.request.wire → next x = Dialog.reply v.settings inbound q)) := by
  cases hearing with
  | enter handle =>
      obtain ⟨begun, hserve, hlistens⟩ := Dialog.exists_serveAs handle inbound q
      rw [hserve] at asks
      cases asks
      change (m, some (m.member (some k))) = (m', some x) at met
      cases met
      have hsettings : (m.member (some k)).settings = v.settings := hosts.member.symm ▸ quiet.settings
      exact ⟨quiet.met id nofun, .inl ⟨rfl, .start fun start => hsettings ▸ hlistens _ start (hsettings ▸ hlimit)⟩⟩
  | start listens =>
      cases asks
      change (m, some m.now) = (m', some x) at met
      cases met
      exact ⟨quiet.met id nofun, .inl ⟨rfl, .listen (listens _)⟩⟩
  | listen listens =>
      obtain ⟨due, heard, hd, hreply, hlate⟩ := listens
      rw [hd] at asks
      cases asks
      refine ⟨quiet.met id nofun, .inr ⟨due, x, met, ?_, ?_⟩⟩
      · rintro rfl
        exact hlate
      · rintro rfl
        exact hreply

end Steps

namespace Talk

variable {c : Inquiry} {inbound : Inbound} {k due : Nat} {host : Ipv4} {v : Member} {t t' : Talk c.query}

/-- The call goes on, with its connection and its member where they were. -/
structure Underway (inbound : Inbound) (k : Nat) (v : Member) {q : Query} (t : Talk q) : Prop where
  hosts : t.machine.Hosts k (after v t.past)
  made : inbound.link < t.machine.network.next
  calls : Dialog.Only DialogOp.Calls t.caller

theorem Step.time (h : Step c inbound.link k host t t') : t.machine.now ≤ t'.machine.now := by
  cases h with
  | caller asks met => exact Nat.le_of_eq (Machine.moves_meet met).forward.1.symm
  | callee asks met => exact Nat.le_of_eq (Machine.moves_meet met).forward.1.symm
  | others elsewhere free => exact elsewhere.time

theorem Underway.step (h : Underway inbound k v t) (step : Step c inbound.link k host t t') : Underway inbound k v t' := by
  cases step with
  | caller asks met =>
      obtain ⟨hcalls, hnext⟩ := asks ▸ h.calls
      have hmoves := Machine.moves_meet met
      exact ⟨hmoves.hosts (not_isStore_of_calls hcalls) h.hosts, Nat.lt_of_lt_of_le h.made hmoves.forward.2, hnext _⟩
  | callee asks met =>
      refine ⟨?_, Nat.lt_of_lt_of_le h.made (Machine.moves_meet met).forward.2, h.calls⟩
      rw [after_append]
      exact h.hosts.met met
  | others elsewhere free =>
      refine ⟨?_, Nat.lt_of_lt_of_le h.made elsewhere.next, h.calls⟩
      rw [after_append]
      exact elsewhere.hosts

theorem Missed.step (h : Missed inbound due t) (step : Step c inbound.link k host t t') : Missed inbound due t' := by
  rcases h with hlate | ⟨hcloses, hsilent⟩
  · exact .inl (Nat.le_trans hlate step.time)
  · refine .inr ?_
    cases step with
    | caller asks met => exact ⟨hcloses, hsilent⟩
    | callee asks met =>
        obtain ⟨hop, hnext⟩ := asks ▸ hcloses
        refine ⟨hnext _, any_append_singleton hsilent (Moment.writes_met (fun bytes deadline hpush => ?_) _)⟩
        rcases hop with hop | hop <;> rw [hpush] at hop <;> cases hop
    | others elsewhere free => exact ⟨hcloses, any_append_singleton hsilent rfl⟩

variable {m m' : Machine} {op : DialogOp} {x : DialogOps.Answer op}

theorem closes_met {l : Link} (hop : op.Closes inbound.here) (hl : m.network.link? inbound.link = some l)
    (hwaits : l.callerHeld = true) (met : m.meet (some k) host op = (m', some x)) :
    ∃ l', m'.network.link? inbound.link = some l' ∧ l'.back.held = l.back.held ∧ l'.callerHeld = true := by
  have hheld : (l.callerHeld || l.calleeHeld) = true := by rw [hwaits]; rfl
  rcases hop with rfl | rfl
  · change (m.relink inbound.link fun l => l.setOutgoing .callee (l.outgoing .callee).close, some ()) = (m', some x) at met
    cases met
    exact ⟨_, Machine.link?_relink hl hheld, rfl, hwaits⟩
  · change (m.relink inbound.link fun l => l.release .callee, some ()) = (m', some x) at met
    cases met
    exact ⟨_, Machine.link?_relink hl (by rw [Link.isHeld, Link.release, hwaits]; rfl), rfl, hwaits⟩

theorem Settled.step (h : Settled inbound due v t) (step : Step c inbound.link k host t t') : Settled inbound due v t' := by
  cases step with
  | others elsewhere free =>
      cases h with
      | answered resolved callee caller link held waits =>
          exact .answered (resolved.idle trivial) callee caller (elsewhere.link.trans link) held waits
      | returned resolved callee caller => exact .returned (resolved.idle trivial) callee caller
  | caller asks met =>
      cases h with
      | answered resolved callee caller link held waits =>
          -- What has been written is there to be read, however late that is.
          obtain ⟨next, hcaller, hread⟩ := caller
          rw [hcaller] at asks
          cases asks
          rw [Machine.meet_take (e := inbound.there) link held (Message.length_wire_pos _)] at met
          cases met
          exact .returned resolved callee (.inl (hread _))
      | returned resolved callee caller =>
          rcases caller with hcaller | hcaller <;> rw [hcaller] at asks <;> cases asks
          exact .returned resolved callee (.inr rfl)
  | callee asks met =>
      cases h with
      | answered resolved callee caller link held waits =>
          obtain ⟨hop, hnext⟩ := asks ▸ callee
          obtain ⟨l', hlink, hheld, hwaits⟩ := closes_met hop link waits met
          exact .answered (resolved.idle (hop.idle _)) (hnext _) caller hlink (hheld.trans held) hwaits
      | returned resolved callee caller =>
          obtain ⟨hop, hnext⟩ := asks ▸ callee
          exact .returned (resolved.idle (hop.idle _)) (hnext _) caller

theorem Pending.serve {heard served : List Moment} {op : DialogOp} {next : DialogOps.Answer op → Dialog c.query.Answer}
    {x : DialogOps.Answer op} {m : Machine} (underway : Underway inbound k v t)
    (caller : Dialog.Waits c.query inbound.there due t.caller)
    (link : t.machine.network.link? inbound.link = some .fresh) (parts : t.past = heard ++ served)
    (before : ∀ x ∈ heard, x.Idle)
    (during : Leads ((c.query.resolve inbound.source.ip).toDialog v.settings) (after v heard) served (.ask op next))
    (only : Dialog.Only (fun op => op = .look ∨ op.IsStore ∨ op.Calls) (.ask op next))
    (avoids : Dialog.Avoids inbound.link (.ask op next)) (silent : t.past.any (Moment.writes inbound.here) = false)
    (met : t.machine.meet (some k) host op = (m, some x)) :
    Pending inbound due v ⟨m, t.caller, (next x).bind (Dialog.handOver v.settings inbound.here c.query),
      t.past ++ [.met op x]⟩ := by
  have hpast : after (after v heard) served = after v t.past := by rw [after_after, parts]
  have hsees : op.Sees (after (after v heard) served) x := by
    cases op with
    | look =>
        change (t.machine, some (t.machine.member (some k))) = (m, some x) at met
        cases met
        exact hpast ▸ underway.hosts.member
    | _ => trivial
  have hlink : m.network.link? inbound.link = t.machine.network.link? inbound.link := by
    rcases only.1 with hlook | hstore | hcalls
    · exact ((Machine.moves_meet met).beside (.inl hlook) avoids.1 underway.made).link
    · cases op with
      | store v' =>
          change (t.machine.setMember (some k) v', some ()) = (m, some x) at met
          cases met
          rfl
      | _ => cases hstore
    · exact ((Machine.moves_meet met).beside (.inr hcalls) avoids.1 underway.made).link
  have hspares : op.Spares inbound.link x := Machine.spares_meet underway.made met
  refine .serving caller (hlink.trans link) (by rw [parts, List.append_assoc]) before (during.met hsees) rfl (only.2 x)
    (avoids.2 x hspares) (any_append_singleton silent (Moment.writes_met (fun bytes deadline hpush => ?_) x))
  exact avoids.1 inbound.here (hpush ▸ rfl) rfl

theorem late_of_waits {q : Query} {d : Dialog (Except Failure q.Answer)}
    {next : DialogOps.Answer op → Dialog (Except Failure q.Answer)} {l : Link} (h : Dialog.Waits q inbound.there due d)
    (asks : d = .ask op next) (hl : m.network.link? inbound.link = some l) (hempty : l.back = .empty)
    (met : m.meet c.party c.ip op = (m', some x)) : due ≤ m'.now := by
  obtain ⟨_, hd, -⟩ := h
  rw [hd] at asks
  cases asks
  obtain ⟨-, rfl, hlate⟩ := Machine.meet_take_empty (e := inbound.there) hl hempty met
  exact hlate

theorem Pending.step (hanswerer : 11 ≤ v.settings.maxMessageLength)
    (h : Pending inbound due v t) (underway : Underway inbound k v t) (step : Step c inbound.link k host t t') :
    Missed inbound due t' ∨ Pending inbound due v t' ∨ Settled inbound due v t' := by
  cases step with
  | others elsewhere free =>
      refine .inr (.inl ?_)
      have hsettings := elsewhere.settings.trans (congrArg Member.settings underway.hosts.member)
      cases h with
      | asking callee quiet caller link =>
          exact .asking callee (quiet.drift hsettings) caller (elsewhere.link.trans link)
      | asked callee quiet caller link =>
          exact .asked callee (quiet.drift hsettings) caller (elsewhere.link.trans link)
      | serving caller link parts before during callee only avoids silent =>
          have hfree : ¬ Dialog.Stores _ := fun ⟨v', next, hrest⟩ => free ⟨v', _, callee.trans (congrArg (Program.bind · _) hrest)⟩
          exact .serving caller (elsewhere.link.trans link) (by rw [parts, List.append_assoc]) before (during.drift hfree)
            callee only avoids (any_append_singleton silent rfl)
  | caller asks met =>
      cases h with
      | asking callee quiet caller link =>
          obtain ⟨next, hcaller, hwaits⟩ := caller
          rw [hcaller] at asks
          cases asks
          rw [Machine.meet_push (e := inbound.there) link rfl (Message.length_wire_le c.query.length_request)] at met
          cases met
          exact .inr (.inl (.asked callee quiet hwaits (Machine.link?_relink link rfl)))
      -- As long as nothing has been written to it, a caller that waits goes on only when its time is up.
      | asked callee quiet caller link => exact .inl (.inl (late_of_waits caller asks link rfl met))
      | serving caller link parts before during callee only avoids silent =>
          exact .inl (.inl (late_of_waits caller asks link rfl met))
  | callee asks met =>
      cases h with
      | asking callee quiet caller link =>
          obtain ⟨hquiet, ⟨rfl, hhearing⟩ | ⟨due', taken, htake, hlate, -⟩⟩ := callee.met hanswerer quiet underway.hosts asks met
          · exact .inr (.inl (.asking hhearing hquiet caller link))
          · obtain ⟨rfl, rfl, -⟩ := Machine.meet_take_empty (e := inbound.here) link rfl htake
            exact .inl (.inr ⟨hlate rfl, hquiet.silent⟩)
      | asked callee quiet caller link =>
          obtain ⟨hquiet, ⟨rfl, hhearing⟩ | ⟨due', taken, htake, -, hreply⟩⟩ := callee.met hanswerer quiet underway.hosts asks met
          · exact .inr (.inl (.asked hhearing hquiet caller link))
          · rw [Machine.meet_take (e := inbound.here) link rfl (Message.length_wire_pos _)] at htake
            cases htake
            exact .inr (.inl (.serving caller (Machine.link?_relink link rfl) (List.append_nil _).symm hquiet.idle .refl
              (hreply rfl) (Dialog.only_toDialog _ _) (Dialog.avoids_toDialog _ _) hquiet.silent))
      | serving caller link parts before during callee only avoids silent =>
          rename_i heard served rest
          cases rest with
          | ask op next =>
              rw [callee] at asks
              cases asks
              exact .inr (.inl (.serve underway caller link parts before during only avoids silent met))
          | done r =>
              obtain ⟨next, hhand, hcloses⟩ := Dialog.exists_handOver hanswerer inbound.here c.query r
              rw [callee.trans hhand] at asks
              cases asks
              rw [Machine.meet_push (e := inbound.here) link rfl (Message.length_wire_le (c.query.length_report r))] at met
              cases met
              refine .inr (.inr (.answered ⟨by rw [parts], before, during, ?_⟩ hcloses caller
                (Machine.link?_relink link rfl) rfl rfl))
              exact List.forall_mem_singleton.mpr id

theorem Pending.silent (h : Pending inbound due v t) : t.past.any (Moment.writes inbound.here) = false := by
  cases h with
  | asking callee quiet caller link => exact quiet.silent
  | asked callee quiet caller link => exact quiet.silent
  | serving caller link parts before during callee only avoids silent => exact silent

/-- Before it is settled a call is pending, or it has come to nothing. -/
theorem Run.stage (hanswerer : 11 ≤ v.settings.maxMessageLength) (hunderway : Underway inbound k v t)
    (hpending : Pending inbound due v t) (h : Run c inbound.link k host t t') :
    Underway inbound k v t' ∧ (Missed inbound due t' ∨ Pending inbound due v t' ∨ Settled inbound due v t') := by
  induction h with
  | refl => exact ⟨hunderway, .inr (.inl hpending)⟩
  | tail _ step ih =>
      obtain ⟨hunder, hstage⟩ := ih
      refine ⟨hunder.step step, ?_⟩
      rcases hstage with hmissed | hpending | hsettled
      · exact .inl (hmissed.step step)
      · exact hpending.step hanswerer hunder step
      · exact .inr (.inr (hsettled.step step))

theorem Run.settled (hunderway : Underway inbound k v t) (hsettled : Settled inbound due v t)
    (h : Run c inbound.link k host t t') : Underway inbound k v t' ∧ Settled inbound due v t' := by
  induction h with
  | refl => exact ⟨hunderway, hsettled⟩
  | tail _ step ih => exact ⟨ih.1.step step, ih.2.step step⟩

theorem Settled.asLocal (h : Settled inbound due v t) (hsource : inbound.source.ip = c.ip) (underway : Underway inbound k v t) :
    ∃ r heard served told, AsLocal c k v t r heard served told := by
  have hhosts {r : c.query.Answer} {heard served told : List Moment}
      (resolved : Resolved c.query inbound.source.ip v t.past r heard served told) :
      t.machine.Hosts k (after (after (after v heard) served) told) := by
    rw [after_after, after_after, ← List.append_assoc, ← resolved.parts]
    exact underway.hosts
  cases h with
  | answered resolved callee caller link held waits =>
      obtain ⟨next, hcaller, hread⟩ := caller
      refine ⟨_, _, _, _, hsource ▸ resolved, ?_, hhosts resolved⟩
      have hmet : t.machine.meet c.party c.ip (.take inbound.there none (some due)) = _ :=
        Machine.meet_take (e := inbound.there) link held (Message.length_wire_pos _) (some due)
      rw [hcaller]
      refine (congrArg Prod.snd (Machine.advance_ask hmet)).trans ?_
      rw [hread]
      rfl
  | returned resolved callee caller =>
      refine ⟨_, _, _, _, hsource ▸ resolved, ?_, hhosts resolved⟩
      rcases caller with hcaller | hcaller <;> rw [hcaller] <;> rfl

end Talk

theorem Opens.pending {c : Inquiry} {m : Machine} {link k : Nat} {host : Ipv4} {v : Member} {t : Talk c.query}
    (hserves : m.Serves c.target k v) (hasker : 11 ≤ c.settings.maxMessageLength) (h : Opens c m link k host t) :
    ∃ port, Talk.Underway ⟨link, ⟨c.ip, port⟩⟩ k v t ∧ Talk.Pending ⟨link, ⟨c.ip, port⟩⟩ (c.due m) v t := by
  cases h with
  | intro asks connects serves =>
      rename_i m' next callee
      obtain ⟨host', _, hmeet, hthreads, hnow, hnext, hlink, hhosts⟩ := hserves.connect c.party c.ip
      rw [hmeet] at connects
      cases connects
      obtain rfl : Dialog.serveAs (m.handle k) ⟨m.network.next, ⟨c.ip, m.network.ephemeralPort⟩⟩ = callee :=
        congrArg Thread.rest (List.cons.inj (List.append_cancel_left (hthreads.symm.trans serves))).1
      have hproceeds : Dialog.proceedWith c.settings c.query m.now = next m.now := by
        have hclock := (Dialog.inquire_eq c.settings c.target c.query).symm.trans asks
        injection hclock with _ hclock
        injection congrFun hclock m.now
      have hcalls := Dialog.only_inquire c.settings c.target c.query
      rw [asks] at hcalls
      have hputs := Dialog.puts_proceedWith hasker c.query m.now ⟨m.network.next, .caller⟩
      rw [hproceeds] at hputs
      have hquiet : Quiet m.network.next v [] := ⟨List.forall_mem_nil _, rfl, rfl⟩
      exact ⟨m.network.ephemeralPort, ⟨hhosts, Nat.lt_of_lt_of_eq (Nat.lt_succ_self _) hnext.symm, (hcalls.2 m.now).2 _⟩,
        .asking (.enter _) hquiet hputs hlink⟩

/--
A query put to a member that listens, where the limits on both sides leave room for it: the connection is made, and once
the reply has been written before the time of the caller is up, the caller gets what the local call gives.
-/
theorem remote_call_is_local {c : Inquiry} {m : Machine} {k : Nat} {v : Member} (hserves : m.Serves c.target k v)
    (hasker : 11 ≤ c.settings.maxMessageLength) (hanswerer : 11 ≤ v.settings.maxMessageLength) :
    (∃ host t, Opens c m m.network.next k host t) ∧ ∀ link host t₀ t₁ t, Opens c m link k host t₀ →
      Talk.Run c link k host t₀ t₁ → t₁.Answered link → t₁.machine.now < c.due m → Talk.Run c link k host t₁ t →
        ∃ r heard served told, AsLocal c k v t r heard served told := by
  refine ⟨?_, fun link host t₀ t₁ t hopens hready hanswered hintime hlater => ?_⟩
  · obtain ⟨host, m', hmeet, hthreads, -⟩ := hserves.connect c.party c.ip
    exact ⟨host, _, .intro (Dialog.inquire_eq c.settings c.target c.query) hmeet hthreads⟩
  · obtain ⟨port, hunderway, hpending⟩ := hopens.pending hserves hasker
    have hready' : Talk.Run c (Inbound.mk link ⟨c.ip, port⟩).link k host t₀ t₁ := hready
    obtain ⟨hunder, hmissed | hpending | hsettled⟩ := hready'.stage hanswerer hunderway hpending
    · exfalso
      rcases hmissed with hlate | ⟨-, hsilent⟩
      · exact absurd hlate (Nat.not_le.mpr hintime)
      · exact Bool.false_ne_true (hsilent.symm.trans hanswered)
    · exact absurd (hpending.silent.symm.trans hanswered) Bool.false_ne_true
    · obtain ⟨hunder, hsettled⟩ := Talk.Run.settled hunder hsettled hlater
      exact hsettled.asLocal rfl hunder

namespace Talk

variable {c : Inquiry} {k : Nat} {host : Ipv4}

/-- Lets one of the two go on, if it can. -/
def turn (c : Inquiry) (k : Nat) (host : Ipv4) (t : Talk c.query) : Side → Talk c.query
  | .caller =>
    match t.caller with
    | .done _ => t
    | .ask op next =>
      match t.machine.meet c.party c.ip op with
      | (m, some x) => ⟨m, next x, t.callee, t.past⟩
      | (_, none) => t
  | .callee =>
    match t.callee with
    | .done _ => t
    | .ask op next =>
      match t.machine.meet (some k) host op with
      | (m, some x) => ⟨m, t.caller, next x, t.past ++ [.met op x]⟩
      | (_, none) => t

theorem run_turn (link : Nat) (t : Talk c.query) (side : Side) : Run c link k host t (t.turn c k host side) := by
  cases side with
  | caller =>
      unfold turn
      cases hcaller : t.caller with
      | done r => exact .refl
      | ask op next =>
          dsimp only
          split
          · rename_i met
            exact .single (.caller hcaller met)
          · exact .refl
  | callee =>
      unfold turn
      cases hcallee : t.callee with
      | done r => exact .refl
      | ask op next =>
          dsimp only
          split
          · rename_i met
            exact .single (.callee hcallee met)
          · exact .refl

theorem run_turns (link : Nat) (t : Talk c.query) (sides : List Side) :
    Run c link k host t (sides.foldl (turn c k host) t) := by
  induction sides generalizing t with
  | nil => exact .refl
  | cons side sides ih => exact (run_turn link t side).trans (ih _)

end Talk

/-- A member alone in a ring, which takes the shortest messages only. -/
def founder : Member := ⟨{ maxMessageLength := 11 }, .joined, (View.fresh ⟨1000, ⟨10, 2, 0, 1⟩, 7000⟩ 3).create, []⟩

/-- A machine on which the founder listens. -/
def foundation : Machine where
  now := 5
  network := { Network.empty with listeners := [⟨⟨⟨10, 2, 0, 1⟩, 7000⟩, 0, []⟩] }
  parties := [⟨⟨10, 2, 0, 1⟩, .member founder none, []⟩]
  threads := []

/-- A stranger says that it may be the predecessor. -/
def introduction : Inquiry := ⟨none, ⟨10, 2, 0, 9⟩, { maxMessageLength := 11 }, ⟨⟨10, 2, 0, 1⟩, 7000⟩, .notify 4000 7009⟩

/-- Somebody gives notice of itself; the connection has just been made. -/
def introduced : Talk introduction.query where
  machine := (foundation.meet none ⟨10, 2, 0, 9⟩ (.connect ⟨⟨10, 2, 0, 1⟩, 7000⟩)).1
  caller := Dialog.proceedWith introduction.settings introduction.query 5 (.ok ⟨0, .caller⟩)
  callee := Dialog.serveAs (foundation.handle 0) ⟨0, ⟨⟨10, 2, 0, 9⟩, 40000⟩⟩
  past := []

/-- The notice has been served, and the reply is there. -/
def accepted : Talk introduction.query :=
  [.caller, .callee, .callee, .callee, .callee, .callee, .callee].foldl (Talk.turn introduction 0 ⟨10, 2, 0, 1⟩) introduced

theorem foundation_serves : foundation.Serves introduction.target 0 founder :=
  .of_happens (.head (.listen ⟨10, 2, 0, 1⟩ 7000 0) (.single (.away rfl))) rfl rfl ⟨_, _, rfl, rfl⟩

theorem remote_call_is_local_introduction :
    foundation.Serves introduction.target 0 founder ∧ 11 ≤ introduction.settings.maxMessageLength ∧
      11 ≤ founder.settings.maxMessageLength ∧ Opens introduction foundation 0 0 ⟨10, 2, 0, 1⟩ introduced ∧
      Talk.Run introduction 0 0 ⟨10, 2, 0, 1⟩ introduced accepted ∧ accepted.Answered 0 ∧
      accepted.machine.now < introduction.due foundation ∧
      (∃ r heard served told, AsLocal introduction 0 founder accepted r heard served told) ∧
      (accepted.machine.advance none ⟨10, 2, 0, 9⟩ accepted.caller).2.toOption = some (.ok true) ∧
      (accepted.machine.member (some 0)).view.predecessor = some ⟨4000, ⟨10, 2, 0, 9⟩, 7009⟩ := by
  have hopens : Opens introduction foundation 0 0 ⟨10, 2, 0, 1⟩ introduced :=
    .intro (Dialog.inquire_eq introduction.settings introduction.target introduction.query) rfl rfl
  have hready : Talk.Run introduction 0 0 ⟨10, 2, 0, 1⟩ introduced accepted := Talk.run_turns 0 introduced _
  have hanswered : accepted.Answered 0 := by decide +kernel
  have hintime : accepted.machine.now < introduction.due foundation := by decide +kernel
  obtain ⟨-, hlocal⟩ := remote_call_is_local foundation_serves (le_refl 11) (le_refl 11)
  exact ⟨foundation_serves, le_refl 11, le_refl 11, hopens, hready, hanswered, hintime,
    hlocal 0 _ _ _ _ hopens hready hanswered hintime .refl, by decide +kernel, by decide +kernel⟩

end ChordOverlay
