import ChordOverlay.Proofs.Serving

/-!
# One reply to one request

A connection is read until its first frame is there. A request gets the report of its kind and nothing else; all that is
not a request is met with silence, but for payloads, which are the business of the application. The connection is closed
in the end, and what has arrived behind a request makes no difference.
-/

namespace ChordOverlay

/-- The connection is handed to the application. -/
def DialogOp.Hands : DialogOp → Prop
  | .app | .note _ => True
  | _ => False

/-- What is done but for reading at an end. -/
def apart (e : End) (acts : List Act) : List Act := acts.filter fun act => !act.takes e

/--
Two surroundings that differ in nothing but what they give to read at an end, and that leave the member alone while it
is read there.
-/
structure Surroundings.Alike (e : End) (w w' : Surroundings) : Prop where
  answers {past past' : List Act} (same : apart e past = apart e past') {op : DialogOp} (other : op.takes e = false) :
    w'.answer past' op = w.answer past op
  drifts {past past' : List Act} (same : apart e past = apart e past') (m : Member) :
    w'.drift past' m = w.drift past m
  idle {act : Act} (reads : act.takes e = true) (past : List Act) (m : Member) : w.drift (past ++ [act]) m = m

namespace Dialog

variable {α : Type} {w w' : Surroundings} {e : End} {past past' : List Act} {m : Member} {f f' : Inflow}
  {inbound : Inbound}

/-! ## What arrives behind a request -/

theorem apart_append (e : End) (xs ys : List Act) : apart e (xs ++ ys) = apart e xs ++ apart e ys := List.filter_append ..

theorem meet_alike (h : w.Alike e w') (hpast : apart e past = apart e past') {op : DialogOp} (hop : op.takes e = false) :
    w'.meet past' m op = w.meet past m op := by
  have hanswer := h.answers hpast hop
  have hsame : apart e (past ++ [.asked op (w.answer past op)]) = apart e (past' ++ [.asked op (w.answer past op)]) := by
    rw [apart_append, apart_append, hpast]
  have hdrift := h.drifts hsame m
  cases op with
  | look => rfl
  | store m' => rfl
  | _ => simp only [Surroundings.meet, hanswer, hdrift]

/-- A dialog that does not read at an end takes the same course whatever there is to read. -/
theorem run_alike (h : w.Alike e w') {d : Dialog α} (hpast : apart e past = apart e past')
    (hd : ∀ act ∈ (run w d past m).acts, act.takes e = false) : run w' d past' m = run w d past m := by
  induction d generalizing past past' m with
  | done a => rfl
  | ask op next ih =>
      have hop : DialogOp.takes e op = false := by
        cases op with
        | look => rfl
        | store m' => rfl
        | _ => exact hd _ (List.mem_append_left _ List.mem_cons_self)
      have hmeet := meet_alike (m := m) h hpast hop
      rw [run_ask, run_ask, hmeet]
      refine congrArg _ (ih _ ?_ fun act hact => hd act (List.mem_append_right _ hact))
      rw [apart_append, apart_append, hpast]

/-- A dialog that does nothing but read leaves no trace but that. -/
theorem Only.idle (hw : ∀ {act : Act}, act.takes e = true → ∀ past m, w.drift (past ++ [act]) m = m) {d : Dialog α}
    (h : d.Only fun op => ∃ deadline, op = .take e none deadline) :
    (run w d past m).member = m ∧ apart e (run w d past m).acts = [] := by
  induction d generalizing past m with
  | done a => exact ⟨rfl, rfl⟩
  | ask op next ih =>
      obtain ⟨⟨deadline, hop⟩, hnext⟩ := h
      have hmeet : (w.meet past m op).member = m ∧ apart e (w.meet past m op).acts = [] := by
        subst hop
        have htakes (x : Taken) : Act.takes e (.asked (.take e none deadline) x) = true := decide_eq_true rfl
        refine ⟨hw (htakes _) past m, List.filter_eq_nil_iff.mpr fun act hact => ?_⟩
        rw [List.mem_singleton.mp hact]
        exact fun hnot => absurd (htakes _) (by simpa using hnot)
      rw [run_ask, hmeet.1]
      obtain ⟨hmember, hrest⟩ := ih _ (hnext (w.meet past m op).value)
      exact ⟨hmember, by rw [Trace.since_acts, apart_append, hmeet.2, hrest, List.append_nil]⟩

/-- Whatever there is to read, the first item is awaited in the same way. -/
theorem listen_alike (h : w.Alike e w') (member : Settings) :
    (run w' (listen member e) [] m).member = (run w (listen member e) [] m).member ∧
      apart e (run w' (listen member e) [] m).acts = apart e (run w (listen member e) [] m).acts := by
  have hrun (w : Surroundings) : run w (listen member e) [] m =
      (run w (receive e (some (Nat.add (w.meet [] m .clock).value member.patience)) (.start member.maxMessageLength))
        (w.meet [] m .clock).acts (w.meet [] m .clock).member).since (w.meet [] m .clock).acts := rfl
  have hclock : w'.meet [] m .clock = w.meet [] m .clock := meet_alike h rfl rfl
  rw [hrun w, hrun w', hclock]
  generalize w.meet [] m .clock = t
  have hreads (deadline : Nat) : (receive e (some deadline) (.start member.maxMessageLength)).Only
      fun op => ∃ deadline, op = .take e none deadline := only_receiveIn ⟨_, rfl⟩ _ _
  have hidle' {act : Act} (hact : act.takes e = true) (past : List Act) (m : Member) : w'.drift (past ++ [act]) m = m :=
    (h.drifts rfl m).trans (h.idle hact past m)
  obtain ⟨hmember, hacts⟩ := (hreads _).idle h.idle
  obtain ⟨hmember', hacts'⟩ := (hreads _).idle hidle'
  simp only [Trace.since_member, Trace.since_acts, apart_append]
  exact ⟨hmember'.trans hmember.symm, by rw [hacts, hacts']⟩

/-! ## Who is served how -/

theorem respond_takes (he : e.side = .callee) (member : Settings) (source : Ipv4) (request : Message) :
    ∀ act ∈ (run w (respond member e source request) past m).acts, act.takes e = false := by
  intro act hact
  rw [respond, Program.bind_eq, run_bind, Trace.since_acts, List.mem_append] at hact
  rcases hact with hact | hact
  · have haway := away_toDialog he member _ act hact
    cases hop : act.op <;> simp_all [Act.takes, DialogOp.takes, DialogOp.end?]
  · exact (only_deliver (P := fun op => op.takes e = false) (fun _ => rfl) rfl _ _).acts act hact

theorem respond_hands (member : Settings) (source : Ipv4) (request : Message) :
    ∀ act ∈ (run w (respond member e source request) past m).acts, ¬ act.op.Hands := by
  have honly : (respond member e source request).Only fun op => ¬ op.Hands := by
    refine ((only_toDialog member _).mono fun op hop => ?_).bind fun reply => only_deliver (fun _ => id) id _ _
    cases op <;> simp_all [DialogOp.Hands, DialogOp.IsStore, DialogOp.Calls]
  exact honly.acts

theorem attend_hands {item : Option Item} (hitem : ∀ payload, item ≠ some (.message (.payload payload))) {member : Settings}
    {source : Address} {s : FrameStream} :
    ∀ act ∈ (run w (attend member e source s item) past m).acts, ¬ act.op.Hands := by
  cases opening item with
  | request hreport =>
      rw [attend_request hreport]
      exact respond_hands member source.ip _
  | payload payload => exact absurd rfl (hitem payload)
  | other hother => simp [attend_other hother]

end Dialog

/-! ## Serving a connection -/

/-- How a connection on which `f` arrives is served. -/
structure Served (w : Surroundings) (inbound : Inbound) (f : Inflow) (m : Member) : Prop where
  closed : ∃ before, w.serving inbound m = before ++ [.asked (.release inbound.here) ()]
  replied {request : Message} {kind : Kind} (first : f.first m.settings.maxMessageLength = some (.message request))
    (report : request.kind.report = some kind) :
    ∃ reply : Message, reply.kind = kind ∧ reply.frame m.settings.maxMessageLength = .ok reply.wire ∧
      ∃ before, w.serving inbound m = before ++ [.asked (.release inbound.here) ()] ∧ Replies inbound.here reply before
  deaf {request : Message} {kind : Kind} (first : f.first m.settings.maxMessageLength = some (.message request))
    (report : request.kind.report = some kind) {w' : Surroundings} {f' : Inflow} (alike : w.Alike inbound.here w')
    (delivers : w'.Delivers inbound.here f')
    (first' : f'.first m.settings.maxMessageLength = some (.message request)) :
    apart inbound.here (w'.serving inbound m) = apart inbound.here (w.serving inbound m)
  silent (other : ∀ message, f.first m.settings.maxMessageLength = some (.message message) →
    message.kind.report = none ∧ message.kind ≠ .payload) :
    ∃ heard, (∀ act ∈ heard, act.Listens inbound.here) ∧
      w.serving inbound m = heard ++ [.asked (.release inbound.here) ()]
  handed {payload : Bytes} (first : f.first m.settings.maxMessageLength = some (.message (.payload payload))) :
    ∃ heard acts, (∀ act ∈ heard, act.Listens inbound.here) ∧ Handed inbound.source payload acts ∧
      w.serving inbound m = heard ++ acts ++ [.asked (.release inbound.here) ()]
  reserved {act : Act} (done : act ∈ w.serving inbound m) (hands : act.op.Hands) :
    ∃ payload, f.first m.settings.maxMessageLength = some (.message (.payload payload))

namespace Served

variable {w w' : Surroundings} {inbound : Inbound} {f f' : Inflow} {m : Member} {request : Message} {kind : Kind}

theorem reply (hw : w.Delivers inbound.here f) (hlimit : 11 ≤ m.settings.maxMessageLength)
    (hfirst : f.first m.settings.maxMessageLength = some (.message request)) (hreport : request.kind.report = some kind) :
    ∃ reply : Message, reply.kind = kind ∧ reply.frame m.settings.maxMessageLength = .ok reply.wire ∧
      ∃ before, w.serving inbound m = before ++ [.asked (.release inbound.here) ()] ∧ Replies inbound.here reply before := by
  obtain ⟨reply, hreply, hkind⟩ := Dialog.exists_reply hreport m.settings inbound.source.ip
    (Dialog.run w (Dialog.listen m.settings inbound.here) [] m).acts
    (Dialog.run w (Dialog.listen m.settings inbound.here) [] m).member
  have hlength : reply.body.length ≤ 11 := Message.length_body_of_report (hreport.trans (congrArg some hkind.symm))
  have hsize : reply.body.length < UInt32.size := Nat.lt_of_le_of_lt hlength (by decide)
  exact ⟨reply, hkind, Message.frame_eq (hlength.trans hlimit) hsize,
    Dialog.replies_serve hw hfirst hreport hreply (hlength.trans hlimit) hsize⟩

/-- What comes behind a request makes no difference. -/
theorem same (hw : w.Delivers inbound.here f) (hw' : w'.Delivers inbound.here f') (halike : w.Alike inbound.here w')
    (hfirst : f.first m.settings.maxMessageLength = some (.message request))
    (hfirst' : f'.first m.settings.maxMessageLength = some (.message request)) (hreport : request.kind.report = some kind) :
    apart inbound.here (w'.serving inbound m) = apart inbound.here (w.serving inbound m) := by
  obtain ⟨s, hacts, -⟩ := Dialog.run_serve (m := m) hw
  obtain ⟨s', hacts', -⟩ := Dialog.run_serve (m := m) hw'
  rw [hfirst, Dialog.attend_request hreport] at hacts
  rw [hfirst', Dialog.attend_request hreport] at hacts'
  obtain ⟨hmember, hheard⟩ := Dialog.listen_alike (m := m) halike m.settings
  have htakes : ∀ act ∈ (Dialog.run w (Dialog.respond m.settings inbound.here inbound.source.ip request)
      (Dialog.run w (Dialog.listen m.settings inbound.here) [] m).acts
      (Dialog.run w (Dialog.listen m.settings inbound.here) [] m).member).acts, act.takes inbound.here = false :=
    Dialog.respond_takes rfl _ _ _
  have hserved := Dialog.run_alike halike hheard.symm htakes
  rw [Surroundings.serving, Surroundings.serving, hacts, hacts', hmember, hserved]
  simp only [Dialog.apart_append, hheard]

end Served

/-- A request is answered by one report of its kind; nothing else is answered but by the application. -/
theorem one_reply {w : Surroundings} {inbound : Inbound} {f : Inflow} {m : Member} (hw : w.Delivers inbound.here f)
    (hlimit : 11 ≤ m.settings.maxMessageLength) : Served w inbound f m := by
  obtain ⟨s, hacts, -⟩ := Dialog.run_serve (m := m) hw
  change w.serving inbound m = _ at hacts
  have hheard : ∀ act ∈ (Dialog.run w (Dialog.listen m.settings inbound.here) [] m).acts, act.Listens inbound.here :=
    Dialog.listen_acts _
  generalize Dialog.run w (Dialog.listen m.settings inbound.here) [] m = heard at hacts hheard
  refine ⟨⟨_, hacts⟩, Served.reply hw hlimit, ?deaf, ?silent, ?handed, ?reserved⟩
  case deaf =>
    intro request kind hfirst hreport w' f' halike hw' hfirst'
    exact Served.same hw hw' halike hfirst hfirst' hreport
  case silent =>
    intro hother
    rw [Dialog.attend_other hother] at hacts
    exact ⟨heard.acts, hheard, by simpa using hacts⟩
  case handed =>
    intro payload hfirst
    rw [hfirst] at hacts
    exact ⟨heard.acts, _, hheard, Dialog.attend_payload .., hacts⟩
  case reserved =>
    intro act hact hhands
    by_contra hnot
    rw [hacts, List.mem_append, List.mem_append, List.mem_singleton] at hact
    rcases hact with (hact | hact) | rfl
    · rcases hheard act hact with h | ⟨_, h⟩ <;> rw [h] at hhands <;> exact hhands
    · exact Dialog.attend_hands (fun payload hfirst => hnot ⟨payload, hfirst⟩) act hact hhands
    · exact hhands

/-- A connection to somebody, from a port that was drawn. -/
def door : Inbound := ⟨0, ⟨⟨10, 0, 0, 1⟩, 40000⟩⟩

/-- A check, its header cut in two, with the beginning of another request behind it. -/
def checkInPieces : Inflow := ⟨[[65, 48, 48, 48], [48, 48, 48, 48, 48, 83, 48]], true, by decide⟩

/-- A member that takes the shortest messages only. -/
def narrow : Member := .fresh default { maxMessageLength := 11 }

theorem one_reply_check :
    11 ≤ narrow.settings.maxMessageLength ∧ checkInPieces.first 11 = some (.message .aliveCheck) ∧
      Served (.quiet door.here checkInPieces) door checkInPieces narrow ∧
      written door.here ((Surroundings.quiet door.here checkInPieces).serving door narrow) =
        (Message.aliveReport true).wire :=
  ⟨le_refl 11, by decide +kernel, one_reply (Surroundings.quiet_delivers door.here checkInPieces) (le_refl 11),
    by decide +kernel⟩

end ChordOverlay
