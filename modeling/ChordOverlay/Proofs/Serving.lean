import ChordOverlay.Proofs.FirstFrame
import ChordOverlay.Proofs.WireGrammar

/-!
# Serving a connection

To serve a connection is to read the first item on it, to do what that asks for, and to close the connection. What is
written in reply to a request is one report.
-/

namespace ChordOverlay

/-! ## What programs give -/

namespace Program

variable {I J : Interface} {α β : Type} {Q : α → Prop} {R : β → Prop}

/-- However its requests are met, the program ends with a value of a kind. -/
def Gives (Q : α → Prop) : Program I α → Prop
  | .done a => Q a
  | .ask _ next => ∀ x, Gives Q (next x)

theorem Gives.bind {p : Program I α} {f : α → Program I β} (h : p.Gives Q) (hf : ∀ a, Q a → (f a).Gives R) :
    (p.bind f).Gives R := by
  induction p with
  | done a => exact hf a h
  | ask op next ih => exact fun x => ih x (h x)

theorem gives_true (p : Program I α) : p.Gives fun _ => True := by
  induction p with
  | done a => trivial
  | ask op next ih => exact ih

theorem Gives.compile {p : Program I α} (h : p.Gives Q) (g : (op : I.Op) → Program J (I.Answer op)) :
    (p.compile g).Gives Q := by
  induction p with
  | done a => exact h
  | ask op next ih => exact (gives_true (g op)).bind fun x _ => ih x (h x)

end Program

namespace Dialog

variable {α : Type} {w : Surroundings} {e : End} {past : List Act} {m : Member}

theorem gives_value {Q : α → Prop} {d : Dialog α} (h : d.Gives Q) : Q (run w d past m).value := by
  induction d generalizing past m with
  | done a => exact h
  | ask op next ih =>
      rw [run_ask, Trace.since_value]
      exact ih _ (h _)

end Dialog

/-! ## Reports -/

/-- The kind of the report to a request. -/
def Kind.report : Kind → Option Kind
  | .lookup => some .lookupReport
  | .predecessorQuery => some .predecessorReport
  | .aliveCheck => some .aliveReport
  | .notice => some .noticeReport
  | _ => none

theorem Activity.gives_answer (source : Ipv4) (message : Message) :
    (answer source message).Gives fun reply => reply.map Message.kind = message.kind.report := by
  cases message with
  | lookup id ttl => exact (Program.gives_true _).bind fun r _ => by cases r <;> rfl
  | predecessorQuery asker => exact fun _ => rfl
  | notice id port =>
      intro m
      change Program.Gives _ (ite (m.phase = Phase.joined) _ _)
      split
      · exact fun _ => rfl
      · rfl
  | _ => rfl

theorem Message.length_body_of_report {m : Message} {kind : Kind} (h : kind.report = some m.kind) :
    m.body.length ≤ 11 := by
  -- The longest is one that names a peer.
  cases m with
  | lookupReport owner => cases owner <;> simp [body, Body.ofPeer?, Peer.toBytes, RingId.toBytes, Ipv4.toBytes]
  | predecessorReport predecessor => cases predecessor <;> simp [body, Body.ofPeer?, Peer.toBytes, RingId.toBytes, Ipv4.toBytes]
  | aliveReport alive => simp [body, Body.ofFlag]
  | noticeReport accepted => simp [body, Body.ofFlag]
  | _ => cases kind <;> cases h

/-- Nothing but one frame is written, and all of it unless the connection breaks; then nothing more will be. -/
structure Replies (e : End) (reply : Message) (acts : List Act) : Prop where
  front : written e acts <+: reply.wire
  whole : (∀ bytes, Act.asked (.push e bytes none) Pushed.broken ∉ acts) →
    written e acts = reply.wire ∧ ∃ before, acts = before ++ [.asked (.finish e) ()]

theorem Replies.since {e : End} {reply : Message} {before acts : List Act} (hbefore : written e before = [])
    (h : Replies e reply acts) : Replies e reply (before ++ acts) := by
  obtain ⟨front, whole⟩ := h
  have hwritten : written e (before ++ acts) = written e acts := by rw [written_append, hbefore, List.nil_append]
  refine ⟨hwritten ▸ front, fun hunbroken => ?_⟩
  obtain ⟨hwhole, earlier, rfl⟩ := whole fun bytes hbytes => hunbroken bytes (List.mem_append_right _ hbytes)
  exact ⟨hwritten.trans hwhole, before ++ earlier, (List.append_assoc ..).symm⟩

/-- What a connection can begin with. -/
inductive Opening : Option Item → Prop
  | request {request : Message} {kind : Kind} (report : request.kind.report = some kind) : Opening (some (.message request))
  | payload (payload : Bytes) : Opening (some (.message (.payload payload)))
  | other {item : Option Item} (other : ∀ message, item = some (.message message) →
      message.kind.report = none ∧ message.kind ≠ .payload) : Opening item

/-- A payload is dropped unless there is an application; then that is told, and may go on with the connection. -/
inductive Handed (source : Address) (payload : Bytes) : List Act → Prop
  | nobody : Handed source payload [.asked .app (none : Option App)]
  | app (app : App) (rest : List Act) : Handed source payload
      (.asked .app (some app : Option App) :: .asked (.note (.arrived source payload)) () :: rest)

/-- All that is done when a connection is served. -/
def Surroundings.serving (w : Surroundings) (inbound : Inbound) (m : Member) : List Act :=
  (Dialog.run w (Dialog.serve inbound) [] m).acts

/-- All that is done is to wait for what arrives. -/
def Act.Listens (e : End) (act : Act) : Prop :=
  act.op = .clock ∨ ∃ deadline, act.op = .take e none deadline

namespace Dialog

variable {α : Type} {w : Surroundings} {e : End} {past : List Act} {m : Member} {f : Inflow} {inbound : Inbound}

/-! ## Replying -/

/-- Writes a report, and says that no more will come. -/
def deliver (limit : Nat) (e : End) : Option Message → Dialog Unit
  | none => pure ()
  | some reply => do
    match ← send e limit none reply with
    | .ok () => finish e
    | .error _ => pure ()

/-- Answers a request and sends the report. -/
def respond (member : Settings) (e : End) (source : Ipv4) (request : Message) : Dialog Unit :=
  (Activity.answer source request).toDialog member >>= deliver member.maxMessageLength e

theorem only_deliver {P : DialogOp → Prop} (hpush : ∀ bytes, P (.push e bytes none)) (hfinish : P (.finish e)) (limit : Nat)
    (reply : Option Message) : (deliver limit e reply).Only P := by
  cases reply with
  | none => trivial
  | some reply =>
      refine (only_send hpush limit reply).bind fun sent => ?_
      cases sent with
      | ok sent => exact ⟨hfinish, fun _ => trivial⟩
      | error failure => trivial

theorem replies_deliver {reply : Message} {limit : Nat} (hlimit : reply.body.length ≤ limit)
    (hsize : reply.body.length < UInt32.size) :
    Replies e reply (run w (deliver limit e (some reply)) past m).acts := by
  have hwrites : Writes e none reply.wire (run w (send e limit none reply) past m) := by
    rw [send, Message.frame_eq hlimit hsize]
    exact writes_sendBytesIn none (le_refl reply.wire.length)
  rw [deliver, Program.bind_eq, run_bind]
  generalize run w (send e limit none reply) past m = t at hwrites
  obtain ⟨front, whole, broken⟩ := hwrites
  cases hvalue : t.value with
  | ok sent =>
      have hfinish : written e (t.acts ++ [.asked (.finish e) ()]) = written e t.acts := by
        rw [written_append]
        exact List.append_nil _
      refine ⟨hfinish ▸ front, fun _ => ⟨hfinish.trans (whole hvalue), t.acts, rfl⟩⟩
  | error failure =>
      have hfailed : t.value ≠ .ok () := by simp [hvalue]
      obtain ⟨bytes, hbroken⟩ := broken hfailed rfl
      refine ⟨?_, fun h => absurd (List.mem_append_left _ hbroken) (h bytes)⟩
      change written e (t.acts ++ []) <+: reply.wire
      rwa [List.append_nil]

theorem replies_respond (he : e.side = .callee) {member : Settings} {source : Ipv4} {request reply : Message}
    (hvalue : (run w ((Activity.answer source request).toDialog member) past m).value = some reply)
    (hlimit : reply.body.length ≤ member.maxMessageLength) (hsize : reply.body.length < UInt32.size) :
    Replies e reply (run w (respond member e source request) past m).acts := by
  -- To find the reply, others may be called, but nothing is done at this end.
  have haway : (run w ((Activity.answer source request).toDialog member) past m).Away e := away_toDialog he member _
  rw [respond, Program.bind_eq, run_bind, hvalue]
  generalize run w ((Activity.answer source request).toDialog member) past m = t at haway
  exact (replies_deliver hlimit hsize).since (written_of_away haway)

theorem exists_reply {request : Message} {kind : Kind} (hreport : request.kind.report = some kind) (member : Settings)
    (source : Ipv4) (past : List Act) (m : Member) :
    ∃ reply, (run w ((Activity.answer source request).toDialog member) past m).value = some reply ∧ reply.kind = kind := by
  have hgives := (Activity.gives_answer source request).compile (carryOut member)
  rw [hreport] at hgives
  exact Option.map_eq_some_iff.mp (gives_value hgives)

/-! ## Serving -/

/-- What is done about the first item of a connection; all that is left of the connection is for the application. -/
def attend (member : Settings) (e : End) (source : Address) (s : FrameStream) : Option Item → Dialog Unit
  | some (.message (.payload payload)) => do
    match (← perform .app : Option App) with
    | some app => converse app e member.maxMessageLength source payload s
    | none => pure ()
  | some (.message request) => respond member e source.ip request
  | _ => pure ()

/-- What is done before the first item is there. -/
def listen (member : Settings) (e : End) : Dialog (Option Item × FrameStream) :=
  clock >>= fun start => receive e (some (start + member.patience)) (.start member.maxMessageLength)

theorem serve_eq (inbound : Inbound) : serve inbound = look >>= fun m => listen m.settings inbound.here >>=
    fun received => attend m.settings inbound.here inbound.source received.2 received.1 >>=
      fun _ => release inbound.here := by
  refine congrArg (Program.ask (I := DialogOps) DialogOp.look) (funext fun m => ?_)
  refine congrArg (Program.ask (I := DialogOps) DialogOp.clock) (funext fun start => ?_)
  refine congrArg (Program.bind (receive _ _ _)) (funext fun received => ?_)
  obtain ⟨item, s⟩ := received
  rcases item with _ | message | failure | _
  · rfl
  · cases message <;> rfl
  · rfl
  · rfl

theorem only_listen {P : DialogOp → Prop} (hclock : P .clock) (htake : ∀ deadline, P (.take e none deadline))
    (member : Settings) : (listen member e).Only P :=
  ⟨hclock, fun _ => only_receiveIn (htake _) _ _⟩

theorem listen_acts (member : Settings) : ∀ act ∈ (run w (listen member e) past m).acts, act.Listens e :=
  (only_listen (P := fun op => op = .clock ∨ ∃ deadline, op = .take e none deadline) (.inl rfl)
    (fun deadline => .inr ⟨deadline, rfl⟩) member).acts

theorem listen_item (hw : w.Delivers e f) (member : Settings) :
    (run w (listen member e) [] m).item = f.first member.maxMessageLength :=
  meets (Q := fun t => Trace.item t = _) .clock trivial fun _ _ _ _ => item_receive (fun past => hw past _) rfl _

theorem listen_only (member : Settings) : (listen member e).Only fun op => ¬ op.IsStore :=
  only_listen id (fun _ => id) member

theorem opening (item : Option Item) : Opening item := by
  rcases item with _ | message | failure | _
  · exact .other nofun
  · cases message with
    | payload payload => exact .payload payload
    | lookup id ttl => exact .request rfl
    | predecessorQuery asker => exact .request rfl
    | aliveCheck => exact .request rfl
    | notice id port => exact .request rfl
    | _ => exact .other fun message h => by cases h; exact ⟨rfl, nofun⟩
  · exact .other nofun
  · exact .other nofun

theorem attend_request {request : Message} {kind : Kind} (hreport : request.kind.report = some kind) (member : Settings)
    (e : End) (source : Address) (s : FrameStream) :
    attend member e source s (some (.message request)) = respond member e source.ip request := by
  cases request <;> first | rfl | cases hreport

theorem attend_other {item : Option Item}
    (hitem : ∀ message, item = some (.message message) → message.kind.report = none ∧ message.kind ≠ .payload)
    (member : Settings) (e : End) (source : Address) (s : FrameStream) : attend member e source s item = .done () := by
  rcases item with _ | message | failure | _
  · rfl
  · obtain ⟨hreport, hpayload⟩ := hitem message rfl
    cases message <;> first | rfl | exact absurd rfl hpayload | cases hreport
  · rfl
  · rfl

theorem attend_payload (member : Settings) (e : End) (source : Address) (s : FrameStream) (payload : Bytes) :
    Handed source payload (run w (attend member e source s (some (.message (.payload payload)))) past m).acts := by
  refine meets (Q := fun t => Handed source payload t.acts) .app trivial fun handler m' _ _ => ?_
  cases (handler : Option App) with
  | none => exact .nobody
  | some app => exact .app app _

/-- To serve is to listen, to attend to what has been heard, and to close. -/
theorem run_serve (hw : w.Delivers inbound.here f) : ∃ s,
    let heard := run w (listen m.settings inbound.here) [] m
    let served := run w (attend m.settings inbound.here inbound.source s (f.first m.settings.maxMessageLength))
      heard.acts heard.member
    (run w (serve inbound) [] m).acts = heard.acts ++ served.acts ++ [.asked (.release inbound.here) ()] ∧
      ∃ past, (run w (serve inbound) [] m).member = w.drift past served.member := by
  have hitem := listen_item (m := m) hw m.settings
  refine ⟨(run w (listen m.settings inbound.here) [] m).value.2, ?_⟩
  rw [← hitem, serve_eq]
  change (run w (listen m.settings inbound.here >>= _) [] m).acts = _ ∧
    ∃ past, (run w (listen m.settings inbound.here >>= _) [] m).member = _
  rw [Program.bind_eq, run_bind, Program.bind_eq, run_bind]
  exact ⟨by simp; rfl, _, rfl⟩

/-- A request gets one reply, which is what is found for it after the listening. -/
theorem replies_serve (hw : w.Delivers inbound.here f) {request reply : Message} {kind : Kind}
    (hfirst : f.first m.settings.maxMessageLength = some (.message request)) (hreport : request.kind.report = some kind)
    (hvalue : (run w ((Activity.answer inbound.source.ip request).toDialog m.settings)
      (run w (listen m.settings inbound.here) [] m).acts (run w (listen m.settings inbound.here) [] m).member).value = some reply)
    (hlimit : reply.body.length ≤ m.settings.maxMessageLength) (hsize : reply.body.length < UInt32.size) :
    ∃ before, w.serving inbound m = before ++ [.asked (.release inbound.here) ()] ∧ Replies inbound.here reply before := by
  obtain ⟨s, hacts, -⟩ := run_serve (m := m) hw
  have hheard : ∀ act ∈ (run w (listen m.settings inbound.here) [] m).acts, act.Listens inbound.here := listen_acts _
  rw [hfirst, attend_request hreport] at hacts
  have hside : inbound.here.side = .callee := rfl
  have hreplies := replies_respond hside hvalue hlimit hsize
  refine ⟨_, hacts, hreplies.since (written_eq_nil fun act hact bytes deadline hop => ?_)⟩
  rcases hheard act hact with h | ⟨_, h⟩ <;> rw [hop] at h <;> cases h

end Dialog

end ChordOverlay
