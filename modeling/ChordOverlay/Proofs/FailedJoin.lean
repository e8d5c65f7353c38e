import ChordOverlay.Proofs.Influence
import ChordOverlay.Proofs.Lifetime
import ChordOverlay.Proofs.Reception

/-!
# A join that fails

While a member waits to be told its successor, it serves others as before, and its user may ask other things of it. As
none of that reaches what it knows, a join that fails leaves the member as it was, whatever has been answered to it.
-/

namespace ChordOverlay

/-! ## Who does nothing to a member outside a ring -/

namespace Dialog

variable {α β : Type} {d : Dialog α} {f : α → Dialog β} {m : Member} {op : DialogOp}
  {next : DialogOps.Answer op → Dialog α}

/-- As long as its member is in no ring, the dialog stores nothing. -/
def LooksOn : Dialog α → Prop
  | .done _ => True
  | .ask .look next => ∀ m : Member, m.phase ≠ .joined → LooksOn (next m)
  | .ask (.store _) _ => False
  | .ask _ next => ∀ x, LooksOn (next x)

theorem LooksOn.bind (h : d.LooksOn) (hf : ∀ a, (f a).LooksOn) : LooksOn (d.bind f) := by
  induction d with
  | done a => exact hf a
  | ask op next ih =>
      cases op with
      | look => exact fun m hm => ih m (h m hm)
      | store m => exact h
      | _ => exact fun x => ih x (h x)

theorem Only.looksOn (h : d.Only fun op => ¬ op.IsStore) : d.LooksOn := by
  induction d with
  | done a => trivial
  | ask op next ih =>
      cases op with
      | look => exact fun m _ => ih m (h.2 m)
      | store m => exact h.1 trivial
      | _ => exact fun x => ih x (h.2 x)

/-- The dialog, with nothing given back. -/
def discard (d : Dialog α) : Dialog Unit := d.bind fun _ => .done ()

theorem LooksOn.discard (h : d.LooksOn) : d.discard.LooksOn := h.bind fun _ => trivial

theorem LooksOn.answered (h : LooksOn (.ask op next)) (hop : op.Asks) (x : DialogOps.Answer op) : (next x).LooksOn := by
  cases op <;> first | exact h x | cases hop

theorem LooksOn.ahead (h : d.LooksOn) (hm : m.phase ≠ .joined) : (d.ahead m).1.LooksOn ∧ (d.ahead m).2 = m := by
  induction d with
  | done a => exact ⟨trivial, rfl⟩
  | ask op next ih =>
      cases op with
      | look => exact ih m (h m hm)
      | store m' => exact h.elim
      | _ => exact ⟨h, rfl⟩

theorem ahead_bind_of_done {a : α} {m' : Member} (h : d.ahead m = (.done a, m')) :
    Dialog.ahead (d.bind f) m = (f a).ahead m' := by
  induction d generalizing m with
  | done b =>
      cases h
      rfl
  | ask op next ih =>
      cases op with
      | look => exact ih m h
      | store m => exact ih () h
      | _ => cases h

theorem only_openWith (s : Settings) (target : Address) (payload : Bytes) :
    (openWith s target payload).Only fun op => ¬ op.IsStore := by
  refine ⟨id, fun connected => ?_⟩
  cases (connected : Except NetFault End) with
  | error fault => trivial
  | ok e =>
      refine ⟨id, fun _ => (only_send (fun _ => id) _ _).bind fun sent => ?_⟩
      cases sent with
      | ok _ => trivial
      | error f => exact ⟨id, fun _ => trivial⟩

theorem only_sendPayload (s : Settings) (target : Address) (payload : Bytes) :
    (sendPayload s target payload).Only fun op => ¬ op.IsStore := by
  refine (only_openWith s target payload).bind fun opened => ?_
  cases opened with
  | error f => trivial
  | ok e => exact ⟨id, fun _ => ⟨id, fun _ => trivial⟩⟩

section Members

variable (s : Settings)

theorem looksOn_answer (source : Ipv4) (request : Message) : ((Activity.answer source request).toDialog s).LooksOn := by
  cases request with
  | lookup id ttl =>
      intro m hm
      change LooksOn (Activity.toDialog s (Program.bind (ite (m.phase = .joined) _ _) _))
      rw [if_neg hm]
      trivial
  | notice id port =>
      intro m hm
      change LooksOn (Activity.toDialog s (ite (m.phase = .joined) _ _))
      rw [if_neg hm]
      trivial
  | predecessorQuery asker => exact fun _ _ => trivial
  | _ => trivial

theorem looksOn_findSuccessor (id : RingId) : ((Activity.findSuccessor id).toDialog s).LooksOn := by
  intro m hm
  change LooksOn (Activity.toDialog s (ite (m.phase = .joined) _ _))
  rw [if_neg hm]
  trivial

theorem looksOn_route (id : RingId) (payload : Bytes) : (route s id payload).LooksOn := by
  refine (looksOn_findSuccessor s id).bind fun found => ?_
  cases found with
  | error f => trivial
  | ok owner => exact ((only_sendPayload s owner.address payload).bind fun sent => by cases sent <;> trivial).looksOn

theorem looksOn_attend (e : End) (source : Address) (stream : FrameStream) (item : Option Item) :
    (attend s e source stream item).LooksOn := by
  cases opening item with
  | @request request kind hreport =>
      rw [attend_request hreport]
      exact (looksOn_answer s source.ip request).bind fun reply => (only_deliver (fun _ => id) id _ reply).looksOn
  | payload payload =>
      intro handler
      cases (handler : Option App) with
      | none => trivial
      | some app => exact (only_converse app _ source payload stream).looksOn
  | other hother =>
      rw [attend_other hother]
      trivial

end Members

theorem looksOn_serve (inbound : Inbound) : (serve inbound).LooksOn := by
  rw [serve_eq]
  exact fun m _ => (listen_only (e := inbound.here) m.settings).looksOn.bind fun received =>
    (looksOn_attend m.settings inbound.here inbound.source received.2 received.1).bind fun _ => fun _ => trivial

end Dialog

/-! ## What a join comes to -/

/-- The bootstrap peer has named a peer that is where the member itself is. -/
def Member.Duplicated (m : Member) (acts : List Act) : Prop :=
  ∃ p, firstReceived m.settings.maxMessageLength acts = some (.message (.lookupReport (some p))) ∧ p.id = m.self.id

/-- How a join that fails says why. -/
structure Member.Blames (m : Member) (acts : List Act) (f : Failure) : Prop where
  duplicate : m.Duplicated acts → f = .duplicateId m.self.id
  other : ¬ m.Duplicated acts → ∃ why, f = .joinFailed why

/-- If the join has failed, the member is as it was. -/
def Member.Recovers (m : Member) (acts : List Act) (n : Member) (r : Except Failure Peer) : Prop :=
  ∀ f, r = .error f → n = m ∧ m.Blames acts f

/-- The same, while the member still waits to be told what has come of it. -/
def Member.Waits (m : Member) (acts : List Act) (n : Member) (r : Except Failure Peer) : Prop :=
  n.phase = .joining ∧ ∀ f, r = .error f → n = { m with phase := .joining } ∧ m.Blames acts (Activity.joinFailure f)

theorem Activity.joinFailure_of_faultless {f : Failure} (h : ¬ f.IsDuplicate) : joinFailure f = .joinFailed f.message := by
  cases f <;> first | rfl | exact absurd trivial h

theorem Member.Blames.of_faultless {m : Member} {acts : List Act} {f : Failure} (hacts : ¬ m.Duplicated acts)
    (hf : ¬ f.IsDuplicate) : m.Blames acts (Activity.joinFailure f) :=
  ⟨fun h => absurd h hacts, fun _ => ⟨f.message, Activity.joinFailure_of_faultless hf⟩⟩

/-- The last part of the way through the bootstrap, when that has named another peer and the member has decided on it. -/
def Activity.adopt (m : Member) (successor : Peer) : View × Decision → Activity (Except Failure Peer)
  | (view, decision) => do
    store { m with view }
    match decision with
    | .contact next (.notify me) =>
      let _ ← query next.address (.notify me.id me.port)
      pure (.ok successor)
    | _ => pure (.ok successor)

theorem DialogOp.Calls.asks {op : DialogOp} (h : op.Calls) : op.Asks := by
  cases op <;> trivial

namespace Dialog

variable {m : Member} {past : List Act}

theorem settles_adopt {successor : Peer} (hid : successor.id ≠ m.view.self.id) :
    Settles .joining m.Waits ((Activity.adopt { m with phase := .joining } successor (m.view.join successor)).toDialog
      m.settings) past { m with phase := .joining } := by
  rw [View.join, if_neg hid]
  -- The notice may be lost; the join has come through all the same.
  change Settles .joining _ ((inquire m.settings successor.address (.notify m.self.id m.self.port)).bind _) past
    { m with phase := .joining, view := _ }
  refine Settles.bind (settles_of_only (fun _ => DialogOp.Calls.asks) (only_inquire _ _ _) (Program.gives_true _) rfl
    fun _ _ _ _ => ?_)
  have hdone : ∀ f, (Except.ok successor : Except Failure Peer) = .error f → False := fun _ h => by cases h
  exact ⟨rfl, fun f hf => (hdone f hf).elim⟩

theorem settles_joinVia (bootstrap : Address) :
    Settles .joining m.Waits ((Activity.joinVia bootstrap).toDialog m.settings) [] { m with phase := .joining } := by
  change Settles .joining _ ((inquire m.settings bootstrap (.owner m.self.id m.settings.maxHops)).bind _) []
    { m with phase := .joining }
  refine Settles.bind (settles_lookup rfl (fun _ hact => absurd hact List.not_mem_nil) fun past r hr => ?_)
  have hfails : ∀ f, m.Blames past (Activity.joinFailure f) → m.Waits past { m with phase := .joining } (.error f) := by
    rintro f hblames
    exact ⟨rfl, fun f' hf => by cases hf; exact ⟨rfl, hblames⟩⟩
  cases hr with
  | none first faultless =>
      refine hfails _ (.of_faultless ?_ faultless)
      rintro ⟨p, hfirst, -⟩
      exact first _ hfirst
  | @report owner first =>
      cases owner with
      | none =>
          refine hfails _ (.of_faultless ?_ id)
          rintro ⟨p, hfirst, -⟩
          cases first.symm.trans hfirst
      | some successor =>
          change Settles .joining _ (Activity.toDialog m.settings (ite (successor.id = m.self.id) _ _)) past
            { m with phase := .joining }
          by_cases hid : successor.id = m.self.id
          · rw [if_pos hid]
            exact hfails _ ⟨fun _ => rfl, fun h => absurd ⟨successor, first, hid⟩ h⟩
          · rw [if_neg hid]
            exact settles_adopt hid

/-- When the way through the bootstrap has failed, the member goes back to where it has come from. -/
theorem settles_conclude (s : Settings) (hm : m.phase = .created) {n : Member} {r : Except Failure Peer}
    (h : m.Waits past n r) : Settles .joining m.Recovers ((Activity.conclude r).toDialog s) past n := by
  obtain ⟨hphase, hfails⟩ := h
  cases r with
  | ok successor =>
      obtain ⟨settings, phase, view, rounds⟩ := n
      cases hphase
      exact nofun
  | error f =>
      obtain ⟨rfl, hblames⟩ := hfails f rfl
      have hback : ({ m with phase := .created } : Member) = m := by rw [← hm]
      rintro f' ⟨⟩
      exact ⟨hback, hblames⟩

theorem settles_join (bootstrap : Address) (hm : m.phase = .created) :
    Settles .joining m.Recovers ((Activity.join bootstrap).toDialog m.settings) [] m := by
  have hbegun : Settles .joining m.Recovers
      (Activity.toDialog m.settings ((Activity.joinVia bootstrap).bind Activity.conclude)) [] { m with phase := .joining } := by
    rw [Activity.toDialog_bind]
    exact Settles.bind ((settles_joinVia bootstrap).mono fun _ _ _ h => settles_conclude m.settings hm h)
  obtain ⟨settings, phase, view, rounds⟩ := m
  cases hm
  exact hbegun

end Dialog

/-! ## A newcomer among others -/

/-- A member that is in no ring: the join its user has called, as far as it has come, and all else that it is busy with. -/
structure Newcomer where
  member : Member
  call : Option (Dialog (Except Failure Peer))
  others : List (Dialog Unit)

namespace Newcomer

/-- What else may come up: a peer connects, or the user asks for something that is no end to the member. -/
inductive Guest (s : Newcomer) : Dialog Unit → Prop
  | peer (inbound : Inbound) : Guest s (Dialog.serve inbound)
  | find (id : RingId) : Guest s (Dialog.discard ((Activity.findSuccessor id).toDialog s.member.settings))
  | route (id : RingId) (payload : Bytes) : Guest s (Dialog.discard (Dialog.route s.member.settings id payload))
  | send (target : Address) (payload : Bytes) : Guest s (Dialog.discard (Dialog.sendPayload s.member.settings target payload))
  | opens (target : Address) (payload : Bytes) : Guest s (Dialog.discard (Dialog.openWith s.member.settings target payload))
  | call (c : Call) (lasting : c ≠ .shutdown) {d : Dialog (Except Failure Peer)} (waits : s.call = some d) :
      Guest s (Dialog.discard (c.activity.toDialog s.member.settings))

/-- The user has not been told yet what has come of the join, if one has been called. -/
def Open (s : Newcomer) : Prop := ∀ r, s.call ≠ some (.done r)

theorem waiting {n : Member} {op : DialogOps.Op} {next : DialogOps.Answer op → Dialog (Except Failure Peer)}
    {others : List (Dialog Unit)} : Open ⟨n, some (.ask op next), others⟩ := nofun

/--
What may happen to a member that is in no ring, in any order. All that is asked for is met in any way, and when a join
has failed, another one may be called. The acts are those of the join that has been called last.
-/
inductive Run (m : Member) : List Act → Newcomer → Prop
  | begin : Run m [] ⟨m, none, []⟩
  | call {acts : List Act} {n : Member} {others : List (Dialog Unit)} (bootstrap : Address)
      (past : Run m acts ⟨n, none, others⟩) :
      Run m [] ⟨(((Activity.join bootstrap).toDialog n.settings).ahead n).2,
        some (((Activity.join bootstrap).toDialog n.settings).ahead n).1, others⟩
  | answer {acts : List Act} {n : Member} {op : DialogOp} {next : DialogOps.Answer op → Dialog (Except Failure Peer)}
      {others : List (Dialog Unit)} (x : DialogOps.Answer op) (asks : op.Asks) (admits : op.Admits x)
      (past : Run m acts ⟨n, some (.ask op next), others⟩) :
      Run m (acts ++ [.asked op x]) ⟨((next x).ahead n).2, some ((next x).ahead n).1, others⟩
  | fails {acts : List Act} {n : Member} {f : Failure} {others : List (Dialog Unit)}
      (past : Run m acts ⟨n, some (.done (.error f)), others⟩) : Run m acts ⟨n, none, others⟩
  | arrive {acts : List Act} {s : Newcomer} {d : Dialog Unit} (guest : s.Guest d) (still : s.Open) (past : Run m acts s) :
      Run m acts ⟨(d.ahead s.member).2, s.call, s.others ++ [(d.ahead s.member).1]⟩
  | other {acts : List Act} {n : Member} {call : Option (Dialog (Except Failure Peer))} {op : DialogOp}
      {next : DialogOps.Answer op → Dialog Unit} {before after : List (Dialog Unit)} (x : DialogOps.Answer op)
      (asks : op.Asks) (still : Open ⟨n, call, before ++ .ask op next :: after⟩)
      (past : Run m acts ⟨n, call, before ++ .ask op next :: after⟩) :
      Run m acts ⟨((next x).ahead n).2, call, before ++ ((next x).ahead n).1 :: after⟩

/-- The member is where it was, or on its way with its join. -/
structure Apart (m : Member) (acts : List Act) (s : Newcomer) : Prop where
  none : s.call = none → s.member = m
  call {d : Dialog (Except Failure Peer)} : s.call = some d → d.Settles .joining m.Recovers acts s.member
  phase {d : Dialog (Except Failure Peer)} : s.call = some d → (∃ r, d = .done r) ∨ s.member.phase = .joining
  others : ∀ d ∈ s.others, d.LooksOn

variable {m : Member} {acts : List Act} {s : Newcomer}

theorem Apart.joining (h : Apart m acts s) (still : s.Open) {d : Dialog (Except Failure Peer)} (hd : s.call = some d) :
    s.member.phase = .joining := by
  refine (h.phase hd).resolve_left ?_
  rintro ⟨r, rfl⟩
  exact still r hd

theorem Apart.outside (h : Apart m acts s) (hm : m.phase = .created) (still : s.Open) : s.member.phase ≠ .joined := by
  cases hcall : s.call with
  | none => simp [h.none hcall, hm]
  | some d => simp [h.joining still hcall]

/-- The join goes on; those who look on are not concerned. -/
theorem Apart.goes {d : Dialog (Except Failure Peer)} {n : Member} {others : List (Dialog Unit)}
    (hd : d.Settles .joining m.Recovers acts n) (hothers : ∀ d ∈ others, d.LooksOn) :
    Apart m acts ⟨(d.ahead n).2, some (d.ahead n).1, others⟩ where
  none := nofun
  call h := by
    cases h
    exact hd.ahead
  phase h := by
    cases h
    exact hd.halts
  others := hothers

/-- As long as its member stays as it is, so does the join. -/
theorem Apart.keeps (h : Apart m acts s) {n : Member} {others : List (Dialog Unit)} (hn : n = s.member)
    (hothers : ∀ d ∈ others, d.LooksOn) : Apart m acts ⟨n, s.call, others⟩ := by
  subst hn
  exact ⟨h.none, h.call, h.phase, hothers⟩

theorem Guest.looksOn {d : Dialog Unit} (h : s.Guest d) (hs : Apart m acts s) (hm : m.phase = .created) (still : s.Open) :
    (d.ahead s.member).1.LooksOn ∧ (d.ahead s.member).2 = s.member := by
  have houtside := hs.outside hm still
  cases h with
  | peer inbound => exact (Dialog.looksOn_serve inbound).ahead houtside
  | find id => exact (Dialog.looksOn_findSuccessor _ id).discard.ahead houtside
  | route id payload => exact (Dialog.looksOn_route _ id payload).discard.ahead houtside
  | send target payload => exact (Dialog.only_sendPayload _ target payload).looksOn.discard.ahead houtside
  | opens target payload => exact (Dialog.only_openWith _ target payload).looksOn.discard.ahead houtside
  | call c lasting waits =>
      -- Only from the first phase on could it do anything.
      have hphase : s.member.phase ≠ .created := by simp [hs.joining still waits]
      have hahead := Activity.ahead_toDialog s.member.settings c.activity s.member
      rw [Call.proceed_refused lasting hphase] at hahead
      rw [Dialog.discard, Dialog.ahead_bind_of_done hahead]
      exact ⟨trivial, rfl⟩

theorem Run.apart (h : Run m acts s) (hm : m.phase = .created) : Apart m acts s := by
  induction h with
  | begin => exact ⟨fun _ => rfl, nofun, nofun, fun _ h => absurd h List.not_mem_nil⟩
  | call bootstrap past ih =>
      obtain rfl := ih.none rfl
      exact .goes (Dialog.settles_join bootstrap hm) ih.others
  | answer x asks admits past ih => exact .goes (((Dialog.settles_ask asks).mp (ih.call rfl)).2 x admits) ih.others
  | fails past ih => exact ⟨fun _ => (ih.call rfl _ rfl).1, nofun, nofun, ih.others⟩
  | arrive guest still past ih =>
      obtain ⟨hlooksOn, hmember⟩ := guest.looksOn ih hm still
      exact ih.keeps hmember (List.forall_mem_append.mpr ⟨ih.others, List.forall_mem_singleton.mpr hlooksOn⟩)
  | @other acts n call op next before after x asks still past ih =>
      obtain ⟨hbefore, hrest⟩ := List.forall_mem_append.mp ih.others
      obtain ⟨hasked, hafter⟩ := List.forall_mem_cons.mp hrest
      obtain ⟨hlooksOn, hmember⟩ := (hasked.answered asks x).ahead (ih.outside hm still)
      exact ih.keeps hmember (List.forall_mem_append.mpr ⟨hbefore, List.forall_mem_cons.mpr ⟨hlooksOn, hafter⟩⟩)

/-- What a join that has failed leaves behind: the member as it was, free to enter a ring like any other. -/
structure Untouched (m : Member) (acts : List Act) (n : Member) (f : Failure) : Prop where
  member : n = m
  phase : n.phase = .created
  rounds : n.rounds = []
  blames : m.Blames acts f
  create : n.create = .ok { m with phase := .joined, view := m.view.create, rounds := Round.all }
  join (bootstrap : Address) : ∃ op next, op.Asks ∧ ((Activity.join bootstrap).toDialog n.settings).ahead n =
    (.ask op next, { m with phase := .joining })

/-- Whatever is answered to a join, and whoever else comes meanwhile: if it fails, the member is as it was. -/
theorem failed_join_leaves_no_trace {n : Member} {f : Failure} {others : List (Dialog Unit)} (hphase : m.phase = .created)
    (hrounds : m.rounds = []) (h : Run m acts ⟨n, some (.done (.error f)), others⟩) : Untouched m acts n f := by
  have hrecovers : m.Recovers acts n (.error f) := (h.apart hphase).call rfl
  obtain ⟨rfl, hblames⟩ := hrecovers f rfl
  refine ⟨rfl, hphase, hrounds, hblames, ?create, fun bootstrap => ?join⟩
  case create =>
    rw [Member.create, Member.transition, if_pos hphase]
    change Except.ok _ = Except.ok _
    rw [hrounds]
    rfl
  case join =>
    obtain ⟨settings, phase, view, rounds⟩ := n
    cases hphase
    exact ⟨.clock, _, trivial, rfl⟩

/--
A member is told of a peer at its own position, after another peer has given it notice; it calls another join, and that
is refused.
-/
theorem failed_join_leaves_no_trace_twice : ∃ acts n others acts' n' others' why,
    Run (Member.fresh default {}) acts ⟨n, some (.done (.error (.duplicateId 0))), others⟩ ∧
      Untouched (Member.fresh default {}) acts n (.duplicateId 0) ∧
      Run (Member.fresh default {}) acts' ⟨n', some (.done (.error (.joinFailed why))), others'⟩ ∧
      Untouched (Member.fresh default {}) acts' n' (.joinFailed why) := by
  have hnamed : (Message.lookupReport (some default)).wire ≠ [] := by decide
  have hcalled := Run.call default (Run.begin (m := Member.fresh default {}))
  have hguest := Run.arrive (.peer gate) waiting hcalled
  have hclock := @Run.answer _ _ _ .clock _ _ (0 : Nat) trivial trivial hguest
  have hconnected := @Run.answer _ _ _ (.connect default) _ _ (.ok ⟨1, .caller⟩ : Except NetFault End) trivial trivial hclock
  have hasked := @Run.answer _ _ _ (.push ⟨1, .caller⟩ _ _) _ _ (Pushed.accepted 14) trivial trivial hconnected
  have hserving := @Run.other _ _ _ _ .clock _ [] [] (0 : Nat) trivial waiting hasked
  have hnoticed := @Run.other _ _ _ _ (.take gate.here _ _) _ [] []
    (Taken.bytes [78, 48, 48, 48, 48, 48, 48, 48, 54, 0, 0, 0, 50, 27, 88]) trivial waiting hserving
  have hreported := @Run.other _ _ _ _ (.push gate.here _ _) _ [] [] (Pushed.accepted 10) trivial waiting hnoticed
  have hanswered := @Run.answer _ _ _ (.take ⟨1, .caller⟩ _ _) _ _
    (Taken.bytes (Message.lookupReport (some default)).wire) trivial hnamed hreported
  have hreleased := @Run.answer _ _ _ (.release ⟨1, .caller⟩) _ _ () trivial trivial hanswered
  have hagain := Run.call default (Run.fails hreleased)
  have hrefused := @Run.answer _ _ _ (.connect default) _ _ (.error (.refused default) : Except NetFault End) trivial trivial
    (@Run.answer _ _ _ .clock _ _ (5 : Nat) trivial trivial hagain)
  exact ⟨_, _, _, _, _, _, _, hreleased, failed_join_leaves_no_trace rfl rfl hreleased, hrefused,
    failed_join_leaves_no_trace rfl rfl hrefused⟩

end Newcomer

end ChordOverlay
