import ChordOverlay.Proofs.Elsewhere
import ChordOverlay.Proofs.Serving

/-!
# The local call behind a remote one

To answer a query is to do what a user of the member could have it do, and to wrap the outcome into a report. All that is
done around that, on either side, is to carry the query there and the outcome back.
-/

namespace ChordOverlay

/-! ## What a query asks for -/

namespace Query

instance : (q : Query) → DecidableEq q.Answer
  | .owner .. | .predecessor .. => inferInstanceAs (DecidableEq (Option Peer))
  | .alive | .notify .. => inferInstanceAs (DecidableEq Bool)

/-- What a member does about a query from a host at `source`. -/
def resolve (source : Ipv4) : (q : Query) → Activity q.Answer
  | .owner id ttl => Activity.lookup id ttl >>= fun r => pure r.toOption
  | .predecessor _ => Activity.look >>= fun m => pure m.view.predecessor
  | .alive => pure true
  | .notify id port => do
    let m ← Activity.look
    if m.phase = .joined then
      let (view, accepted) := m.view.notify ⟨id, source, port⟩
      Activity.store { m with view }
      pure accepted
    else pure false

/-- The report that carries an answer. -/
def report : (q : Query) → q.Answer → Message
  | .owner _ _, p => .lookupReport p
  | .predecessor _, p => .predecessorReport p
  | .alive, flag => .aliveReport flag
  | .notify _ _, flag => .noticeReport flag

theorem answer_request (source : Ipv4) (q : Query) :
    Activity.answer source q.request = (q.resolve source).bind fun v => .done (some (q.report v)) := by
  cases q with
  | owner id ttl =>
      rw [resolve, Program.bind_eq, Program.bind_assoc]
      refine congrArg (Activity.lookup id ttl).bind (funext fun r => ?_)
      cases r <;> rfl
  | notify id port =>
      refine congrArg (Program.ask (I := MemberOps) MemberOp.look) (funext fun m => ?_)
      change ite (Member.phase m = Phase.joined) _ _ = Program.bind (ite (Member.phase m = Phase.joined) _ _) _
      split <;> rfl
  | _ => rfl

@[simp] theorem read_report (q : Query) (v : q.Answer) : q.read (q.report v) = .ok v := by cases q <;> rfl

theorem length_request (q : Query) : q.request.body.length ≤ 11 := by
  cases q <;> simp [request, Message.body, Body.ofFlag, RingId.toBytes]

theorem length_report (q : Query) (v : q.Answer) : (q.report v).body.length ≤ 11 := by
  have hreport : q.request.kind.report = some (q.report v).kind := by cases q <;> rfl
  exact Message.length_body_of_report hreport

end Query

namespace Message

variable {m : Message} {limit : Nat}

theorem length_lt_size (hm : m.body.length ≤ 11) : m.body.length < UInt32.size := Nat.lt_of_le_of_lt hm (by decide)

theorem length_wire_pos (m : Message) : 0 < m.wire.length := Nat.succ_pos _

theorem length_wire_le (hm : m.body.length ≤ 11) : m.wire.length ≤ Pipe.capacity := by
  obtain ⟨hlength, -⟩ := @upperHex_spec 8 m.body.length (by decide) (length_lt_size hm)
  rw [wire, List.length_cons, List.length_append, hlength]
  exact Nat.le_trans (Nat.add_le_add_right (Nat.add_le_add_left hm 8) 1) (by decide)

theorem item_wire (hm : m.body.length ≤ 11) (hlimit : 11 ≤ limit) :
    ((Codec.start limit).decode m.wire).item false = some (.message m) := by
  have hdecode := Codec.decode_written (Nat.le_trans hm hlimit) (length_lt_size hm) []
  rw [List.append_nil] at hdecode
  rw [hdecode]
  rfl

end Message

/-! ## What happens in the meantime -/

/-- What happens to a member while a dialog of it is under way: a request is met, or others change the member. -/
inductive Moment where
  | met (op : DialogOp) (answer : DialogOps.Answer op)
  | drift (v : Member)

namespace Moment

/-- What becomes of the member at a moment. -/
def apply (v : Member) : Moment → Member
  | .met (.store v') _ => v'
  | .met _ _ => v
  | .drift v' => v'

/-- The member is not changed by its own doing. -/
def Idle : Moment → Prop
  | .met op _ => ¬ op.IsStore
  | .drift _ => True

/-- Something has been written at the end `e`. -/
def writes (e : End) : Moment → Bool
  | .met (.push e' _ _) (.accepted _) => e' = e
  | _ => false

theorem apply_met {op : DialogOp} (hop : ¬ op.IsStore) (v : Member) (x : DialogOps.Answer op) : apply v (.met op x) = v := by
  cases op with
  | store v' => exact absurd trivial hop
  | _ => rfl

theorem writes_met {e : End} {op : DialogOp} (hop : ∀ bytes deadline, op ≠ .push e bytes deadline) (x : DialogOps.Answer op) :
    writes e (.met op x) = false := by
  unfold writes
  split
  · rename_i e' bytes deadline count hmoment
    cases hmoment
    exact decide_eq_false fun heq => hop bytes deadline (heq ▸ rfl)
  · rfl

end Moment

/-- The member after all these moments. -/
def after (v : Member) (past : List Moment) : Member := past.foldl Moment.apply v

@[simp] theorem after_append (v : Member) (past : List Moment) (x : Moment) : after v (past ++ [x]) = x.apply (after v past) := by
  simp [after]

theorem after_after (v : Member) (xs ys : List Moment) : after (after v xs) ys = after v (xs ++ ys) :=
  List.foldl_append.symm

/-- A member that looks at itself sees what it is. -/
def DialogOp.Sees (v : Member) : (op : DialogOp) → DialogOps.Answer op → Prop
  | .look, seen => seen = v
  | _, _ => True

/-- The request closes the end, for one direction or for both. -/
def DialogOp.Closes (e : End) (op : DialogOp) : Prop := op = .finish e ∨ op = .release e

theorem DialogOp.Closes.idle {e : End} {op : DialogOp} (h : op.Closes e) (x : DialogOps.Answer op) :
    (Moment.met op x).Idle := by
  rcases h with rfl | rfl <;> exact id

/-- A dialog has worked out what to make of its member, and nobody else comes in between. -/
def Dialog.Stores {α : Type} (d : Dialog α) : Prop := ∃ v next, d = .ask (.store v) next

/-- From the member `v` on, the dialog `d` comes through all of `past` to be `d'`. -/
inductive Leads {α : Type} (d : Dialog α) (v : Member) : List Moment → Dialog α → Prop
  | refl : Leads d v [] d
  | met {past : List Moment} {op : DialogOp} {next : DialogOps.Answer op → Dialog α} {x : DialogOps.Answer op}
      (before : Leads d v past (.ask op next)) (sees : DialogOp.Sees (after v past) op x) :
      Leads d v (past ++ [.met op x]) (next x)
  | drift {past : List Moment} {d' : Dialog α} {v' : Member} (before : Leads d v past d') (free : ¬ d'.Stores) :
      Leads d v (past ++ [.drift v']) d'

namespace Dialog

variable {α : Type} {e : End} {limit due : Nat} {deadline : Option Nat} {m : Message} {q : Query} {s : Settings}
  {inbound : Inbound}

/-! ## One message -/

theorem exists_send (hm : m.body.length ≤ 11) (hlimit : 11 ≤ limit) (e : End) (deadline : Option Nat) :
    ∃ next, send e limit deadline m = .ask (.push e m.wire deadline) next ∧
      next (Pushed.accepted m.wire.length) = .done (.ok ()) := by
  obtain ⟨n, hn⟩ := Nat.exists_eq_succ_of_ne_zero (Nat.ne_of_gt m.length_wire_pos)
  have hwrites : m.wire.isEmpty = false := by simp [Message.wire]
  have hends (k : Nat) : sendBytesIn e deadline k [] = .done (.ok ()) := by cases k <;> rfl
  rw [send, Message.frame_eq (Nat.le_trans hm hlimit) (Message.length_lt_size hm)]
  change ∃ next, sendBytesIn e deadline m.wire.length m.wire = _ ∧ _
  rw [hn, sendBytesIn, if_neg (by rw [hwrites]; exact Bool.false_ne_true)]
  refine ⟨_, rfl, ?_⟩
  change sendBytesIn e deadline n (m.wire.drop (n + 1)) = _
  rw [List.drop_eq_nil_of_le (Nat.le_of_eq hn), hends]

theorem exists_receive (hlimit : 11 ≤ limit) (e : End) (due : Nat) :
    ∃ next, receive e (some due) (.start limit) = .ask (.take e none (some due)) next ∧
      (∃ s, next Taken.late = .done (none, s)) ∧
      ∀ m : Message, m.body.length ≤ 11 → ∃ s, next (Taken.bytes m.wire) = .done (some (.message m), s) := by
  have hwait : (Codec.start limit).decode [] = ⟨.start limit, [], .ok none⟩ := rfl
  rw [receive_start, receiveIn_of_wait hwait]
  refine ⟨_, rfl, ⟨_, rfl⟩, fun m hm => ?_⟩
  exact receiveIn_of_item (Message.item_wire hm hlimit) e (some due) (Header.size + limit + 1)

/-! ## The calling side -/

/-- The answer is awaited: whatever it is, it will be returned once the connection is closed. -/
def Waits (q : Query) (e : End) (due : Nat) (d : Dialog (Except Failure q.Answer)) : Prop :=
  ∃ next : Taken → Dialog (Except Failure q.Answer), d = .ask (.take e none (some due)) next ∧ ∀ v,
    next (.bytes (q.report v).wire) = .ask (.release e) fun _ => .done (.ok v)

/-- The query is about to be written, and the answer is awaited then. -/
def Puts (q : Query) (e : End) (due : Nat) (d : Dialog (Except Failure q.Answer)) : Prop :=
  ∃ next : Pushed → Dialog (Except Failure q.Answer), d = .ask (.push e q.request.wire (some due)) next ∧
    Waits q e due (next (.accepted q.request.wire.length))

/-- What the first item on a connection means to whoever waits for a reply there. -/
def heed (received : Option Item × FrameStream) : Dialog (Except Failure Message) :=
  match received.1 with
  | none => pure (.error .timedOut)
  | some (.message reply) => pure (.ok reply)
  | some (.failure f) => pure (.error f)
  | some .finished => pure (.error .closedEarly)

theorem exists_requestOn (hm : m.body.length ≤ 11) (hlimit : 11 ≤ limit) (e : End) (due : Nat) :
    ∃ (sent : Pushed → Dialog (Except Failure Message)) (heard : Taken → Dialog (Except Failure Message)),
      requestOn e limit due m = .ask (.push e m.wire (some due)) sent ∧
        sent (.accepted m.wire.length) = .ask (.take e none (some due)) heard ∧
        ∀ reply : Message, reply.body.length ≤ 11 → heard (.bytes reply.wire) = .done (.ok reply) := by
  obtain ⟨sent, hsend, hsent⟩ := exists_send hm hlimit e (some due)
  obtain ⟨heard, hreceive, -, hheard⟩ := exists_receive hlimit e due
  refine ⟨_, fun taken => (heard taken).bind heed, congrArg (Program.bind · _) hsend,
    (congrArg (Program.bind · _) hsent).trans (congrArg (fun d => Program.bind d heed) hreceive), fun reply hreply => ?_⟩
  obtain ⟨s, hs⟩ := hheard reply hreply
  exact congrArg (fun d => Program.bind d heed) hs

/-- The answer that is read off a reply. -/
def conclude (q : Query) : Except Failure Message → Dialog (Except Failure q.Answer)
  | .ok reply => pure (q.read reply)
  | .error f => pure (.error f)

/-- What a caller does once it has tried to connect. -/
def proceedWith (s : Settings) (q : Query) (start : Nat) : Except NetFault End → Dialog (Except Failure q.Answer)
  | .error fault => pure (.error (.network fault))
  | .ok e => (requestOn e s.maxMessageLength (start + q.patience s) q.request >>= fun reply =>
      release e >>= fun _ => pure reply) >>= conclude q

theorem inquire_eq (s : Settings) (target : Address) (q : Query) :
    inquire s target q = .ask .clock fun start : Nat => .ask (.connect target) (proceedWith s q start) := by
  refine congrArg (Program.ask (I := DialogOps) DialogOp.clock) (funext fun start => ?_)
  refine congrArg (Program.ask (I := DialogOps) (DialogOp.connect target)) (funext fun connected => ?_)
  cases (connected : Except NetFault End) <;> rfl

theorem puts_proceedWith (hlimit : 11 ≤ s.maxMessageLength) (q : Query) (start : Nat) (e : End) :
    Puts q e (start + q.patience s) (proceedWith s q start (.ok e)) := by
  obtain ⟨sent, heard, hrequest, hsent, hheard⟩ := exists_requestOn q.length_request hlimit e (start + q.patience s)
  refine ⟨_, congrArg (fun d => Program.bind (Program.bind d _) (conclude q)) hrequest, _,
    congrArg (fun d => Program.bind (Program.bind d _) (conclude q)) hsent, fun v => ?_⟩
  refine (congrArg (fun d => Program.bind (Program.bind d _) (conclude q)) (hheard _ (q.length_report v))).trans ?_
  refine congrArg (Program.ask (I := DialogOps) (DialogOp.release e)) (funext fun _ => ?_)
  exact congrArg Program.done (q.read_report v)

/-! ## The called side -/

/-- Sends the report and gives the end up. -/
def handOver (s : Settings) (e : End) (q : Query) (v : q.Answer) : Dialog Unit :=
  (deliver s.maxMessageLength e (some (q.report v))).bind fun _ => release e

/-- The query is found out, and the report on it is written. -/
def reply (s : Settings) (inbound : Inbound) (q : Query) : Dialog Unit :=
  ((q.resolve inbound.source.ip).toDialog s).bind (handOver s inbound.here q)

/-- The query is awaited: when it comes it is replied to, and when nothing comes the connection is closed. -/
def Listens (s : Settings) (inbound : Inbound) (q : Query) (d : Dialog Unit) : Prop :=
  ∃ (due : Nat) (next : Taken → Dialog Unit), d = .ask (.take inbound.here none (some due)) next ∧
    next (.bytes q.request.wire) = reply s inbound q ∧ Only (DialogOp.Closes inbound.here) (next .late)

theorem attendTo_query (handle : Handling) (v : Member) (inbound : Inbound) (q : Query) (stream : FrameStream) :
    attendTo handle v inbound (some (.message q.request), stream) = reply v.settings inbound q := by
  obtain ⟨kind, hkind⟩ : ∃ kind, q.request.kind.report = some kind := by cases q <;> exact ⟨_, rfl⟩
  have hresolve : (Activity.answer inbound.source.ip q.request).toDialog v.settings =
      ((q.resolve inbound.source.ip).toDialog v.settings).bind fun r => .done (some (q.report r)) :=
    (congrArg (Activity.toDialog v.settings) (q.answer_request inbound.source.ip)).trans (Program.compile_bind _ _ _)
  rw [attendTo, attendWith_request hkind, respond, hresolve, Program.bind_eq, Program.bind_assoc, Program.bind_assoc,
    Program.bind_assoc]
  rfl

theorem exists_serveAs (handle : Handling) (inbound : Inbound) (q : Query) :
    ∃ next : Member → Nat → Dialog Unit,
      serveAs handle inbound = .ask .look (fun v : Member => .ask .clock (next v)) ∧
        ∀ v start, 11 ≤ v.settings.maxMessageLength → Listens v.settings inbound q (next v start) := by
  rw [serveAs_eq]
  refine ⟨_, rfl, fun v start hlimit => ?_⟩
  obtain ⟨heard, hreceive, ⟨s, hlate⟩, hheard⟩ := exists_receive hlimit inbound.here (start + v.settings.patience)
  refine ⟨_, _, congrArg (Program.bind · _) hreceive, ?_, ?_⟩
  · obtain ⟨stream, hstream⟩ := hheard _ q.length_request
    exact (congrArg (Program.bind · _) hstream).trans (attendTo_query handle v inbound q stream)
  · rw [hlate]
    exact ⟨.inr rfl, fun _ => trivial⟩

theorem exists_handOver (hlimit : 11 ≤ s.maxMessageLength) (e : End) (q : Query) (v : q.Answer) :
    ∃ next : Pushed → Dialog Unit, handOver s e q v = .ask (.push e (q.report v).wire none) next ∧
      Only (DialogOp.Closes e) (next (.accepted (q.report v).wire.length)) := by
  obtain ⟨sent, hsend, hsent⟩ := exists_send (q.length_report v) hlimit e none
  refine ⟨_, congrArg (fun d => Program.bind (Program.bind d _) _) hsend, ?_⟩
  refine (congrArg (fun d => Only _ (Program.bind (Program.bind d _) _)) hsent).mpr ?_
  exact ⟨.inl rfl, fun _ => ⟨.inr rfl, fun _ => trivial⟩⟩

end Dialog

end ChordOverlay
