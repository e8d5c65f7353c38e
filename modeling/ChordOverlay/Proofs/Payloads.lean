import ChordOverlay.Proofs.HostedRing

/-!
# Payloads and their owners

A payload is passed to the member at the other end of a connection, piece by piece, and that hands it to its application
once all of it has arrived: exactly as it was sent, once, and nobody else hears of it. One that is too large is not sent
at all.
-/

namespace ChordOverlay

/-! ## The sending side -/

theorem Message.frame_of_large {m : Message} {limit : Nat} (hlarge : limit < m.body.length)
    (hsize : m.body.length < UInt32.size) :
    m.frame limit = .error (.tooLarge m.body.length limit) := by
  have hmin : min m.body.length maxDeclared = m.body.length := Nat.min_eq_left (Nat.le_sub_one_of_lt hsize)
  rw [frame, hmin, if_pos hlarge]

namespace Dialog

/-- What is done when a payload has been written, or could not be. -/
def wrapUp (e : End) : Except Failure Unit → Dialog (Except Failure Unit)
  | .ok () => do
    finish e
    release e
    pure (.ok ())
  | .error f => do
    release e
    pure (.error f)

/-- What is done once it has been tried to connect. -/
def sendOn (s : Settings) (payload : Bytes) : Except NetFault End → Dialog (Except Failure Unit)
  | .error fault => pure (.error (.network fault))
  | .ok e => do
    let start ← clock
    send e s.maxMessageLength (some (start + s.patience)) (.payload payload) >>= wrapUp e

theorem sendPayload_eq (s : Settings) (target : Address) (payload : Bytes) :
    sendPayload s target payload = .ask (.connect target) (sendOn s payload) := by
  refine congrArg (Program.ask (I := DialogOps) (DialogOp.connect target)) (funext fun connected => ?_)
  rcases (connected : Except NetFault End) with fault | e
  · rfl
  · refine congrArg (Program.ask (I := DialogOps) DialogOp.clock) (funext fun (start : Nat) => ?_)
    refine (Program.bind_assoc (send e s.maxMessageLength (some (start + s.patience)) (.payload payload)) _ _).trans ?_
    refine congrArg (Program.bind _) (funext fun sent => ?_)
    rcases sent with f | ⟨⟨⟩⟩ <;> rfl

theorem sendOn_ok {s : Settings} {payload : Bytes} (hlimit : payload.length ≤ s.maxMessageLength)
    (hsize : payload.length < UInt32.size) (e : End) : sendOn s payload (.ok e) = .ask .clock fun start : Nat =>
      (sendBytesIn e (some (start + s.patience)) (Message.payload payload).wire.length (Message.payload payload).wire).bind
        (wrapUp e) := by
  have hframe : (Message.payload payload).frame s.maxMessageLength = .ok (Message.payload payload).wire :=
    Message.frame_eq hlimit hsize
  refine congrArg (Program.ask (I := DialogOps) DialogOp.clock) (funext fun (start : Nat) => ?_)
  have hsend : send e s.maxMessageLength (some (start + s.patience)) (.payload payload) =
      sendBytes e (some (start + s.patience)) (Message.payload payload).wire := by
    rw [send, hframe]
  exact congrArg (Program.bind · (wrapUp e)) hsend

theorem sendOn_large {s : Settings} {payload : Bytes} (hlarge : s.maxMessageLength < payload.length)
    (hsize : payload.length < UInt32.size) (e : End) : sendOn s payload (.ok e) = .ask .clock fun _ : Nat =>
      .ask (.release e) fun _ => .done (.error (.tooLarge payload.length s.maxMessageLength)) := by
  have hframe : (Message.payload payload).frame s.maxMessageLength = .error (.tooLarge payload.length s.maxMessageLength) :=
    Message.frame_of_large hlarge hsize
  refine congrArg (Program.ask (I := DialogOps) DialogOp.clock) (funext fun (start : Nat) => ?_)
  have hsend : send e s.maxMessageLength (some (start + s.patience)) (.payload payload) =
      .done (.error (.tooLarge payload.length s.maxMessageLength)) := by
    rw [send, hframe]
    rfl
  exact congrArg (Program.bind · (wrapUp e)) hsend

/-- Either all has been written, and the connection is closed, or the rest is written, as far as there is room. -/
theorem write_cases (e : End) (deadline : Option Nat) {n : Nat} {rest : Bytes} (hfuel : rest.length ≤ n) :
    rest = [] ∧ (sendBytesIn e deadline n rest).bind (wrapUp e) =
        .ask (.finish e) (fun _ => .ask (.release e) fun _ => .done (.ok ())) ∨
      rest ≠ [] ∧ ∃ next : Pushed → Dialog (Except Failure Unit),
        (sendBytesIn e deadline n rest).bind (wrapUp e) = .ask (.push e rest deadline) next ∧ ∀ count, 0 < count →
          ∃ n', (rest.drop count).length ≤ n' ∧
            next (.accepted count) = (sendBytesIn e deadline n' (rest.drop count)).bind (wrapUp e) := by
  cases rest with
  | nil => exact .inl ⟨rfl, by cases n <;> rfl⟩
  | cons byte rest =>
      cases n with
      | zero => exact absurd hfuel (Nat.not_succ_le_zero _)
      | succ n =>
          refine .inr ⟨List.cons_ne_nil _ _, _, rfl, fun count hcount => ⟨n, ?_, rfl⟩⟩
          rw [List.length_drop]
          omega

end Dialog

/-! ## The receiving side -/

/-- It is no concern of anybody else: nobody is called, nothing is stored, and no arrival is noted. -/
def DialogOp.Private : DialogOp → Prop
  | .store _ | .leave | .connect _ => False
  | .note entry => ¬ entry.Arrives
  | _ => True

/-- What the applications do away from their connections they keep private. -/
def Handling.Discreet (handle : Handling) : Prop :=
  ∀ e app source payload, (handle e app source payload).Keeps DialogOp.Private

theorem App.discreet_handler : Handling.Discreet fun e => App.handler e :=
  fun e app source payload => keeps_handler (fun _ hentry => hentry) e app source payload

/-- What is left to do by somebody who keeps it private, and notes nothing but as `k`. -/
def DialogOp.Chats (k : Nat) (party : Option Nat) (op : DialogOp) : Prop :=
  op.Private ∧ ∀ entry, op = .note entry → party = some k

/-- Whoever only ends connections keeps it private, and notes nothing. -/
theorem DialogOp.Closes.chats {e : End} {op : DialogOp} (h : op.Closes e) (k : Nat) (party : Option Nat) :
    op.Chats k party := by
  rcases h with rfl | rfl <;> exact ⟨trivial, fun _ hnote => by cases hnote⟩

/-- Whatever the application does on its connection, all of it is private as long as it is so away from there. -/
theorem Dialog.chats_conduct {e : End} {handler : Handler e} (h : handler.Keeps DialogOp.Private) (k limit : Nat)
    (s : FrameStream) : (conduct e limit handler s).Only (DialogOp.Chats k (some k)) :=
  (only_conduct (fun _ => trivial) trivial h s).mono fun _ hprivate => ⟨hprivate, fun _ _ => rfl⟩

/-- The application is told of the payload, and then goes on with the connection. -/
theorem Dialog.exists_attendTo {handle : Handling} (hdiscreet : handle.Discreet) (k : Nat) (v : Member) (inbound : Inbound)
    (payload : Bytes) (s : FrameStream) : ∃ next : Option App → Dialog Unit,
      attendTo handle v inbound (some (.message (.payload payload)), s) = .ask .app next ∧ ∀ app, ∃ rest : Unit → Dialog Unit,
        next (some app) = .ask (.note (.arrived inbound.source payload)) rest ∧
          (rest ()).Only (DialogOp.Chats k (some k)) := by
  refine ⟨_, rfl, fun app => ⟨_, rfl, ?_⟩⟩
  refine Only.bind ?_ fun _ => ⟨⟨trivial, nofun⟩, fun _ => trivial⟩
  exact (chats_conduct (hdiscreet _ app inbound.source payload) k v.settings.maxMessageLength s).bind fun _ => trivial

namespace Machine

variable {g m m' : Machine} {dusk k : Nat} {party : Option Nat} {ip host : Ipv4} {payload : Bytes}

/-! ## What is delivered -/

/--
The party `k` has been told of the payload, once and as coming from `ip`. Of all parties nothing else has changed but what
that one has noted since.
-/
def Delivered (g : Machine) (k : Nat) (ip : Ipv4) (payload : Bytes) (m : Machine) : Prop :=
  ∃ (port : UInt16) (more : List Note), (∀ entry ∈ more, ¬ entry.Arrives) ∧
    m.parties = g.parties.modify k fun p => { p with journal := p.journal ++ .arrived ⟨ip, port⟩ payload :: more }

theorem Delivered.chat {op : DialogOp} {x : DialogOps.Answer op} (h : Delivered g k ip payload m)
    (hop : DialogOp.Chats k party op)
    (hmet : m.meet party host op = (m', some x)) : Delivered g k ip payload m' := by
  cases moves_meet hmet with
  | rest => exact h
  | work f own => exact h
  | note entry =>
      obtain rfl := hop.2 entry rfl
      have hentry : ¬ entry.Arrives := hop.1
      obtain ⟨port, more, hmore, hparties⟩ := h
      refine ⟨port, more ++ [entry], ?_, ?_⟩
      · exact List.forall_mem_append.mpr ⟨hmore, List.forall_mem_singleton.mpr hentry⟩
      · simp [Machine.updateParty, hparties, List.modify_modify_eq, Function.comp_def]
  | store v => cases hop.1
  | leave owner => cases hop.1
  | connect target => cases hop.1

/-! ## The receiving side -/

variable {v : Member} {inbound : Inbound} {app : App} {rest : Bytes}

/-- Of the payload `rest` has not been written yet; what has been is on its way, or has been told to the application. -/
inductive Receiving (g : Machine) (dusk k : Nat) (host : Ipv4) (v : Member) (inbound : Inbound) (payload : Bytes) :
    Bytes → Machine → Prop
  | hears {m : Machine} {l : Link} {got rest : Bytes}
      (listens : Listens g dusk [] k host v inbound (.payload payload) got l m)
      (parts : got ++ l.there.held ++ rest = (Message.payload payload).wire) (stays : l.calleeHeld = true)
      (opened : rest ≠ [] → l.there.closed = false) : Receiving g dusk k host v inbound payload rest m
  | heard {m : Machine} {l : Link} {s : FrameStream} (stays : l.calleeHeld = true)
      (attended : Attended g dusk [] k host inbound.link l
        (Dialog.attendTo (g.handle k) v inbound (some (.message (.payload payload)), s)) m) :
      Receiving g dusk k host v inbound payload [] m
  | tells {m : Machine} {l : Link} {next : Unit → Dialog Unit} (stays : l.calleeHeld = true)
      (attended : Attended g dusk [] k host inbound.link l (.ask (.note (.arrived inbound.source payload)) next) m)
      (chats : (next ()).Only (DialogOp.Chats k (some k))) : Receiving g dusk k host v inbound payload [] m
  | delivered {m : Machine} (delivered : Delivered g k inbound.source.ip payload m)
      (chats : ∀ t ∈ m.threads, t.rest.Only (DialogOp.Chats k t.party)) : Receiving g dusk k host v inbound payload [] m

namespace Receiving

theorem parties (h : Receiving g dusk k host v inbound payload rest m) :
    m.parties = g.parties ∨ Delivered g k inbound.source.ip payload m := by
  cases h with
  | hears listens parts stays opened => exact .inl listens.intact.parties
  | heard stays attended => exact .inl attended.intact.parties
  | tells stays attended chats => exact .inl attended.intact.parties
  | delivered delivered chats => exact .inr delivered

theorem since (h : Receiving g dusk k host v inbound payload rest m) (hrest : rest ≠ []) : g.now ≤ m.now := by
  cases h with
  | hears listens parts stays opened => exact listens.intact.since
  | _ => exact absurd rfl hrest

/-- The callee can go on as long as there is something to read, and until it has told the application. -/
theorem goes (h : Receiving g dusk k host v inbound payload [] m) (hawaits : g.Awaits dusk k v (.payload payload)) :
    (∃ m', m.Works m') ∨ Delivered g k inbound.source.ip payload m := by
  cases h with
  | hears listens parts stays opened =>
      refine .inl (listens.goes hawaits fun hheld => ?_)
      rw [hheld, List.append_nil, List.append_nil] at parts
      exact listens.ne_wire parts
  | heard stays attended => exact .inl (attended.goes rfl)
  | tells stays attended chats => exact .inl (attended.goes rfl)
  | delivered delivered chats => exact .inr delivered

/-- What the sender does to the connection afterwards does not matter. -/
theorem relink (h : Receiving g dusk k host v inbound payload [] m) {f : Link → Link} (hf : ∀ l, (f l).calleeHeld = l.calleeHeld)
    (hheld : ∀ l, (f l).there.held = l.there.held) :
    Receiving g dusk k host v inbound payload [] (m.relink inbound.link f) := by
  have hlink {l : Link} (stays : l.calleeHeld = true) : (f l).isHeld = true := by
    rw [Link.isHeld, hf, stays, Bool.or_true]
  cases h with
  | hears listens parts stays opened =>
      refine .hears (listens.reset (link?_relink listens.intact.link (hlink stays))) ?_ ((hf _).trans stays) ?_
      · rw [hheld]
        exact parts
      · exact fun hrest => absurd rfl hrest
  | heard stays attended =>
      exact .heard ((hf _).trans stays) (attended.reset (link?_relink attended.intact.link (hlink stays)))
  | tells stays attended chats =>
      exact .tells ((hf _).trans stays) (attended.reset (link?_relink attended.intact.link (hlink stays))) chats
  | delivered delivered chats => exact .delivered delivered chats

/-- Whoever goes on, what has been written of the payload is read, and when all is read the application is told. -/
theorem works (h : Receiving g dusk k host v inbound payload rest m) (hawaits : g.Awaits dusk k v (.payload payload))
    (happ : g.app (some k) = some app) (hdiscreet : (g.handle k).Discreet) (hworks : m.Works m') :
    Receiving g dusk k host v inbound payload rest m' := by
  cases h with
  | @hears _ l got _ listens parts stays opened =>
      by_cases hheld : l.there.held = []
      · -- There is more to come, and the callee waits for it.
        have hrest : rest ≠ [] := by
          rintro rfl
          rw [hheld, List.append_nil, List.append_nil] at parts
          exact listens.ne_wire parts
        have hempty : l.there = .empty := by
          rw [Pipe.empty, ← hheld, ← opened hrest]
        exact .hears (listens.waits hawaits hempty hworks) parts stays opened
      · rcases listens.reads hawaits hheld stays hworks with hlistens | ⟨next, hminds, hattended⟩
        · exact .hears hlistens parts stays opened
        · by_cases hrest : rest = []
          · subst hrest
            rw [List.append_nil] at parts
            obtain ⟨s, hnext⟩ := hminds.whole parts
            exact .heard (l := l.setIncoming .callee ⟨[], l.there.closed⟩) stays (hnext ▸ hattended)
          · refine .hears (l := l.setIncoming .callee ⟨[], l.there.closed⟩)
              ⟨_, hattended, hminds.part parts hheld hrest⟩ ?_ stays opened
            exact (congrArg (· ++ rest) (List.append_nil _)).trans parts
  | @heard _ l s stays attended =>
      rcases attended.works hworks with ⟨i, op, next, x, hcallee, hlull, met, hthread⟩ | hothers
      · obtain ⟨next', hask, hnext'⟩ := Dialog.exists_attendTo hdiscreet k v inbound payload s
        cases hask.symm.trans hcallee
        have hsame : (m.aside i).app (some k) = some app := by
          rw [← happ, Machine.app, Machine.app, party?, party?, hlull.parties]
        obtain ⟨haside, hx⟩ := Prod.mk.inj met
        cases hx
        obtain ⟨tell, htell, hchats⟩ := hnext' app
        rw [hsame, htell] at hthread
        exact .tells stays ⟨i, hthread, haside ▸ hlull⟩ hchats
      · exact .heard stays hothers
  | tells stays attended chats =>
      rcases attended.works hworks with ⟨i, op, next, x, hcallee, hlull, met, hthread⟩ | hothers
      · cases hcallee
        obtain ⟨haside, -⟩ := Prod.mk.inj met
        have hparties : m'.parties = (m'.aside i).parties := rfl
        have hothers : (m'.aside i).threads = (m.aside i).threads := by
          rw [← haside]
          rfl
        refine .delivered ⟨inbound.source.port, [], List.forall_mem_nil _, ?_⟩ fun t ht => ?_
        · rw [hparties, ← haside, ← hlull.parties]
          rfl
        · rcases mem_aside hthread ht with rfl | ht
          · exact chats
          · rw [hothers] at ht
            obtain ⟨e, hcloses, -⟩ := hlull.closers t ht
            exact hcloses.mono fun op hop => hop.chats k t.party
      · exact .tells stays hothers chats
  | delivered delivered chats =>
      cases hworks with
      | @intro n _ _ _ _ after _ thread met =>
          obtain ⟨hop, hnext⟩ := chats _ (List.mem_of_getElem? thread)
          have hthreads := threads_of_met met fun target hconnect => by
            subst hconnect
            exact hop.1
          have hdelivered : Delivered g k inbound.source.ip payload after := delivered.chat hop met
          refine .delivered hdelivered fun t ht => ?_
          change t ∈ List.set _ _ _ at ht
          rw [hthreads] at ht
          rcases List.mem_or_eq_of_mem_set ht with ht | rfl
          · exact chats t ht
          · exact hnext _

theorem steady (hawaits : g.Awaits dusk k v (.payload payload)) (happ : g.app (some k) = some app)
    (hdiscreet : (g.handle k).Discreet) :
    Steady dusk (Receiving g dusk k host v inbound payload rest) where
  tame here := by
    cases here with
    | hears listens parts stays opened => exact listens.tame hawaits
    | heard stays attended => exact attended.tame nofun
    | tells stays attended chats => exact attended.tame nofun
    | delivered delivered chats =>
        intro t ht target next hask
        exact (hask ▸ chats t ht).1.1
  works here := here.works hawaits happ hdiscreet
  passes here later early := by
    cases here with
    | hears listens parts stays opened => exact .hears (listens.passes later early) parts stays opened
    | heard stays attended => exact .heard stays (attended.passes later early)
    | tells stays attended chats => exact .tells stays (attended.passes later early) chats
    | delivered delivered chats => exact .delivered delivered chats

/-- In the end the application has been told. -/
theorem settles (h : Receiving g dusk k host v inbound payload [] m) (hawaits : g.Awaits dusk k v (.payload payload))
    (happ : g.app (some k) = some app) (hdiscreet : (g.handle k).Discreet) :
    m.Settles dusk (Delivered g k inbound.source.ip payload) :=
  (steady hawaits happ hdiscreet).settles
    (fun here hstill => (here.goes hawaits).elim (fun ⟨m', hworks⟩ => absurd hworks (hstill m')) id) h

/-- What the sender writes goes on its way, as soon as there is room for it. -/
theorem push {due : Nat} (h : Receiving g dusk k host v inbound payload rest m) (hrest : rest ≠ []) (hlate : dusk ≤ due)
    (hawaits : g.Awaits dusk k v (.payload payload)) :
    (m.canMeet (.push inbound.there rest (some due)) = true ∨ ∃ m', m.Works m') ∧
      ∀ {party ip m'} {pushed : Pushed}, m.meet party ip (.push inbound.there rest (some due)) = (m', some pushed) →
        ∃ count, 0 < count ∧ pushed = .accepted count ∧ Receiving g dusk k host v inbound payload (rest.drop count) m' := by
  cases h with
  | @hears _ l got _ listens parts stays opened =>
      have hopen : (l.outgoing inbound.there.side).closed = false := opened hrest
      rcases Nat.eq_zero_or_pos (l.outgoing inbound.there.side).room with hfull | hroom
      · have hblocked : m.canMeet (.push inbound.there rest (some due)) = false := by
          have hlink : m.network.link? inbound.there.link = some l := listens.intact.link
          have hdue := Nat.lt_of_lt_of_le listens.intact.early hlate
          simp [canMeet, hlink, hopen, hfull, isDue, hdue]
        refine ⟨.inr (listens.goes hawaits fun hheld => ?_), fun hmet => ?_⟩
        · change Pipe.capacity - l.there.held.length = 0 at hfull
          rw [hheld] at hfull
          cases hfull
        · rw [canMeet_of_met hmet] at hblocked
          cases hblocked
      · refine ⟨.inl (canMeet_push (e := inbound.there) listens.intact.link hroom (some due)), fun hmet => ?_⟩
        rw [meet_push_room (e := inbound.there) listens.intact.link hopen hroom] at hmet
        obtain ⟨rfl, hpushed⟩ := Prod.mk.inj hmet
        have hlink := link?_relink (f := (Link.setOutgoing · Side.caller (l.there.push rest).1)) listens.intact.link (by
          rw [Link.isHeld, Link.setOutgoing, stays, Bool.or_true])
        refine ⟨_, ?_, (Option.some.inj hpushed).symm, ?_⟩
        · have hlength := List.length_pos_iff.mpr hrest
          change 0 < (rest.take _).length
          rw [List.length_take]
          omega
        · refine .hears (l := l.setOutgoing Side.caller (l.there.push rest).1) (listens.reset hlink) ?_ stays fun _ => hopen
          have hheld := Pipe.push_held l.there rest
          rw [List.append_assoc] at parts ⊢
          exact (congrArg (got ++ ·) hheld).trans parts
  | _ => exact absurd rfl hrest

end Receiving

/-! ## Both sides -/

variable {s : Settings} {target : Address} {p : Party}

/-- Piece by piece the payload is written, and then the connection is closed. -/
theorem Receiving.ends {n due : Nat} (h : Receiving g dusk k host v inbound payload rest m) (hfuel : rest.length ≤ n)
    (hlate : dusk ≤ due) (hawaits : g.Awaits dusk k v (.payload payload)) (happ : g.app (some k) = some app)
    (hdiscreet : (g.handle k).Discreet) :
    Ends dusk party ip (fun m => m.parties = g.parties ∨ Delivered g k inbound.source.ip payload m)
      (fun m r => r = .ok () ∧ m.Settles dusk (Delivered g k inbound.source.ip payload)) m
      ((Dialog.sendBytesIn inbound.there (some due) n rest).bind (Dialog.wrapUp inbound.there)) := by
  induction hlength : rest.length using Nat.strong_induction_on generalizing rest n m with
  | _ length ih =>
      rcases Dialog.write_cases inbound.there (some due) hfuel with ⟨rfl, hask⟩ | ⟨hrest, next, hask, hnext⟩
      · rw [hask]
        refine (steady hawaits happ hdiscreet).ends (fun here => here.parties) (fun _ => .inl rfl) (fun here met => ?_) h
        cases met
        have hfinished := here.relink (f := fun l => l.setOutgoing .caller (l.outgoing .caller).close) (fun _ => rfl) fun _ => rfl
        refine (steady hawaits happ hdiscreet).ends (fun here => here.parties) (fun _ => .inl rfl) (fun here met => ?_) hfinished
        cases met
        have hreleased := here.relink (f := (Link.release · .caller)) (fun _ => rfl) fun _ => rfl
        exact .done hreleased.parties ⟨rfl, hreleased.settles hawaits happ hdiscreet⟩
      · rw [hask]
        refine (steady hawaits happ hdiscreet).ends (fun here => here.parties) (fun here => (here.push hrest hlate hawaits).1)
          (fun here met => ?_) h
        obtain ⟨count, hcount, rfl, hreceiving⟩ := (here.push hrest hlate hawaits).2 met
        obtain ⟨n', hfuel', hsame⟩ := hnext count hcount
        rw [hsame]
        refine ih _ ?_ hreceiving hfuel' rfl
        have hpositive := List.length_pos_iff.mpr hrest
        rw [List.length_drop]
        omega

/-- A payload that is not too large is passed on to the application of whoever listens at the target. -/
theorem ends_sending (h : Lull g dusk [] m) (hserves : g.Serves target k v) (hp : g.parties[k]? = some p)
    (happ : g.app (some k) = some app) (hdiscreet : (g.handle k).Discreet) (hawaits : g.Awaits dusk k v (.payload payload))
    (htime : dusk ≤ g.now + s.patience)
    (hlimit : payload.length ≤ s.maxMessageLength) :
    Ends dusk party ip (fun m => m.parties = g.parties ∨ Delivered g k ip payload m)
      (fun m r => r = .ok () ∧ m.Settles dusk (Delivered g k ip payload)) m (Dialog.sendPayload s target payload) := by
  rw [Dialog.sendPayload_eq]
  refine (Lull.steady g dusk []).ends (fun here => .inl here.parties) (fun _ => .inl rfl) (fun here met => ?_) h
  obtain ⟨inbound, rfl, hx, hattended⟩ := here.connect hserves hp met
  rw [hx, Dialog.sendOn_ok hlimit hawaits.sized]
  have hreceiving : Receiving g dusk k p.ip v inbound payload (Message.payload payload).wire _ :=
    .hears ⟨_, hattended, .enter⟩ rfl rfl fun _ => rfl
  refine (Receiving.steady hawaits happ hdiscreet).ends (fun here => here.parties) (fun _ => .inl rfl)
    (fun here met => ?_) hreceiving
  cases met
  have hsince := here.since (List.ne_nil_of_length_pos (Message.length_wire_pos _))
  exact here.ends (Nat.le_refl _) (Nat.le_trans htime (Nat.add_le_add_right hsince _)) hawaits happ hdiscreet

/-! ## Payloads that are too large -/

/-- Nothing has been written to the callee, or it is done but for closing the connection. -/
inductive Idling (g : Machine) (dusk k : Nat) (host : Ipv4) (v : Member) (inbound : Inbound) : Machine → Prop
  | hears {m : Machine} {l : Link} (listens : Listens g dusk [] k host v inbound (.payload []) [] l m)
      (silent : l.there.held = []) (stays : l.calleeHeld = true) : Idling g dusk k host v inbound m
  | closes {m : Machine} (lull : Lull g dusk [] m) : Idling g dusk k host v inbound m

namespace Idling

theorem parties (h : Idling g dusk k host v inbound m) : m.parties = g.parties := by
  cases h with
  | hears listens silent stays => exact listens.intact.parties
  | closes lull => exact lull.parties

theorem release (h : Idling g dusk k host v inbound m) :
    Idling g dusk k host v inbound (m.relink inbound.link (Link.release · .caller)) := by
  cases h with
  | hears listens silent stays =>
      have hlink := link?_relink (f := (Link.release · .caller)) listens.intact.link (by
        rw [Link.isHeld, Link.release, stays, Bool.or_true])
      exact .hears (listens.reset hlink) silent stays
  | closes lull => exact .closes (lull.relink (List.forall_mem_nil _) _)

theorem steady (hawaits : g.Awaits dusk k v (.payload [])) : Steady dusk (Idling g dusk k host v inbound) where
  tame here := by
    cases here with
    | hears listens silent stays => exact listens.tame hawaits
    | closes lull => exact lull.tame
  works here works := by
    cases here with
    | @hears l listens silent stays =>
        cases hclosed : l.there.closed with
        | false =>
            have hempty : l.there = .empty := by
              rw [Pipe.empty, ← silent, ← hclosed]
            exact .hears (listens.waits hawaits hempty works) silent stays
        | true =>
            rcases listens.ends hawaits silent hclosed works with hlistens | ⟨next, hminds, hattended⟩
            · exact .hears hlistens silent stays
            · exact .closes (hattended.lull (hminds.ended rfl))
    | closes lull => exact .closes (lull.works works)
  passes here later early := by
    cases here with
    | hears listens silent stays => exact .hears (listens.passes later early) silent stays
    | closes lull => exact .closes (lull.passes later early)

end Idling

/-- A payload that is too large is refused, and nobody hears of it. -/
theorem ends_refusing (h : Lull g dusk [] m) (hserves : g.Serves target k v) (hp : g.parties[k]? = some p)
    (htime : dusk ≤ g.now + v.settings.patience) (hlarge : s.maxMessageLength < payload.length)
    (hsize : payload.length < UInt32.size) :
    Ends dusk party ip (fun m => m.parties = g.parties)
      (fun m r => r = .error (.tooLarge payload.length s.maxMessageLength) ∧ m.Settles dusk fun m' => m'.parties = g.parties) m
      (Dialog.sendPayload s target payload) := by
  have hawaits : g.Awaits dusk k v (.payload []) := ⟨hserves.hosts, htime, Nat.zero_le _, by decide⟩
  rw [Dialog.sendPayload_eq]
  refine (Lull.steady g dusk []).ends (fun here => here.parties) (fun _ => .inl rfl) (fun here met => ?_) h
  obtain ⟨inbound, -, hx, hattended⟩ := here.connect hserves hp met
  rw [hx, Dialog.sendOn_large hlarge hsize]
  have hidling : Idling g dusk k p.ip v inbound _ := .hears ⟨_, hattended, .enter⟩ rfl rfl
  refine (Idling.steady hawaits).ends (fun here => here.parties) (fun _ => .inl rfl) (fun here met => ?_) hidling
  cases met
  refine (Idling.steady hawaits).ends (fun here => here.parties) (fun _ => .inl rfl) (fun here met => ?_) here
  cases met
  exact .done here.release.parties ⟨rfl, (Idling.steady hawaits).settles (fun here _ => here.parties) here.release⟩

end Machine

end ChordOverlay
