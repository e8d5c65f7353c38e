import ChordOverlay.Proofs.Handlers
import ChordOverlay.Proofs.Evolution

/-!
# What those who call can change

Whatever is sent on a connection, a member in a ring changes by it in two ways only: a notice may give it a predecessor,
at the address the notice comes from, and a lookup may cost it a finger that failed to answer. A member in no ring does
not change at all.
-/

namespace ChordOverlay

/-! ## Stores and the questions before them -/

/-- A question that has been put, by whom and to whom, and what came of it. -/
structure Asked where
  asker : Member
  target : Address
  query : Query
  result : Except Failure query.Answer

/-- A member that is watched together with the question put last; others leave its phase as it is. -/
def Watch.asking : Watch (Option Asked × Member) where
  member k := k.2
  store _ m := (none, m)
  Meanwhile k := { m : Member // m.phase = k.2.phase }
  answer k target q r m := (some ⟨k.2, target, q, r⟩, m)

/--
Every store of the activity, begun at `m` after some question, is a change of the kind `R` of the member as it is at
that time, seen together with the question right before it.
-/
abbrev Activity.Tells {α : Type} (R : Option Asked → Member → Member → Prop) (a : Activity α) (last : Option Asked)
    (m : Member) : Prop :=
  a.Within .asking (Function.uncurry R) (last, m)

/-- What a request may change about a member of a ring, given the question that has been put last. -/
inductive Effect (source : Ipv4) : Message → Option Asked → Member → Member → Prop
  | drop {id : RingId} {ttl : UInt8} {asker m : Member} {hop : Peer} {e : Failure}
      (decided : asker.view.findSuccessor id = .contact hop (.findSuccessor id)) :
      Effect source (.lookup id ttl) (some ⟨asker, hop.address, .owner id (ttl - 1), .error e⟩) m
        { m with view := { m.view with fingers := m.view.fingers.erase hop.id } }
  | note {id : RingId} {port : UInt16} {last : Option Asked} {m : Member} :
      Effect source (.notice id port) last m { m with view := (m.view.notify ⟨id, source, port⟩).1 }

namespace Activity

theorem tells_lookupFrom (source : Ipv4) (id : RingId) (ttl : UInt8) (n : Nat) (e : Failure) (last : Option Asked) (m : Member) :
    (lookupFrom id ttl n e).Tells (Effect source (.lookup id ttl)) last m :=
  within_lookupFrom (fun _ _ _ _ hdecision => .drop hdecision) n e (last, m)

theorem tells_answer (source : Ipv4) (message : Message) (m : Member) :
    (answer source message).Tells (fun last m' m'' => m.phase = .joined ∧ Effect source message last m' m'') none m := by
  cases message with
  | lookup id ttl =>
      refine Within.bind ?_ fun r _ => by cases r <;> trivial
      change Tells _ (ite (m.phase = .joined) _ _) none m
      split
      · rename_i hphase
        exact (tells_lookupFrom source id ttl _ _ none m).mono fun _ _ h => ⟨hphase, h⟩
      · trivial
  | notice id port =>
      change Tells _ (ite (m.phase = .joined) _ _) none m
      split
      · rename_i hphase
        exact ⟨⟨hphase, .note⟩, trivial⟩
      · trivial
  | _ => trivial

end Activity

/-- What a connection may change about a member that is in some phase, by its first item. -/
def Permits (phase : Phase) (source : Ipv4) (first : Option Item) (last : Option Asked) (before after : Member) : Prop :=
  phase = .joined ∧ ∃ message, first = some (.message message) ∧ Effect source message last before after

/-! ## Stores of a run -/

/-- The last that has been done is to put the question, by the settings `s`. -/
def Asked.Just (q : Asked) (w : Surroundings) (s : Settings) (past : List Act) (m : Member) : Prop :=
  ∃ earlier acts, past = earlier ++ acts ∧
    Dialog.run w (Dialog.inquire s q.target q.query) earlier q.asker = ⟨q.result, m, acts⟩

/-- Every store among the acts is a change of the kind `R`, seen together with a question right before it. -/
def Told (R : Option Asked → Member → Member → Prop) (w : Surroundings) (s : Settings) (past acts : List Act) : Prop :=
  ∀ xs before after ys, acts = xs ++ .stored before after :: ys →
    ∃ last, R last before after ∧ ∀ q ∈ last, q.Just w s (past ++ xs) before

section Runs

variable {α : Type} {R : Option Asked → Member → Member → Prop} {w : Surroundings} {s : Settings} {past acts : List Act}
  {m : Member} {last : Option Asked}

theorem not_isStore_of_calls {op : DialogOp} (h : op.Calls) : ¬ op.IsStore := by
  cases op <;> first | exact id | cases h

theorem told_of_storeless (h : ∀ act ∈ acts, ¬ act.op.IsStore) : Told R w s past acts := by
  rintro xs before after ys rfl
  exact absurd trivial (h _ (List.mem_append_right _ List.mem_cons_self))

theorem Told.append {more : List Act} (h : Told R w s past acts) (hmore : Told R w s (past ++ acts) more) :
    Told R w s past (acts ++ more) := by
  intro xs before after ys heq
  rcases List.append_eq_append_iff.mp heq with ⟨zs, rfl, hzs⟩ | ⟨zs, hacts, hzs⟩
  · rw [← List.append_assoc]
    exact hmore zs before after ys hzs
  · cases zs with
    | nil =>
        rw [List.append_nil] at hacts
        obtain ⟨last, hR, hjust⟩ := hmore [] before after ys hzs.symm
        rw [List.append_nil, hacts] at hjust
        exact ⟨last, hR, hjust⟩
    | cons z zs =>
        cases hzs
        exact h xs before after zs hacts

/-- What holds of the stores of an activity holds of those of the dialog that carries it out. -/
theorem Activity.Tells.told {a : Activity α} (hw : w.KeepsPhase) (ha : a.Tells R last m)
    (hlast : ∀ q ∈ last, q.Just w s past m) : Told R w s past (Dialog.run w (a.toDialog s) past m).acts := by
  induction a generalizing last past m with
  | done x => exact told_of_storeless fun _ hact => absurd hact List.not_mem_nil
  | ask op next ih =>
      cases op with
      | look =>
          change Told R w s past (Dialog.run w (Activity.toDialog s (next m)) (past ++ []) m).acts
          rw [List.append_nil]
          exact ih m ha hlast
      | store m' =>
          have hstore : Told R w s past [.stored m m'] := by
            intro xs before after ys heq
            rw [List.cons_eq_append_iff] at heq
            rcases heq with ⟨rfl, heq⟩ | ⟨xs', rfl, heq⟩
            · cases heq
              exact ⟨last, ha.1, by simpa using hlast⟩
            · simp at heq
          exact hstore.append (ih () ha.2 (by simp))
      | query target q =>
          change Told R w s past
            (Dialog.run w ((Dialog.inquire s target q).bind fun r => Activity.toDialog s (next r)) past m).acts
          rw [Dialog.run_bind, Trace.since_acts]
          -- The call itself stores nothing, so it is what comes right before the next store.
          have honly := (Dialog.only_inquire s target q).mono fun op hop => not_isStore_of_calls hop
          exact (told_of_storeless honly.acts).append (ih _ (ha _ ⟨_, honly.phase hw⟩) fun q' hq' => by
            cases hq'
            exact ⟨past, _, rfl, rfl⟩)

end Runs

/-! ## The application -/

namespace Dialog

variable {α : Type} {w : Surroundings} {e : End} {past : List Act} {m : Member}

/-- The application leaves the member alone. -/
theorem only_converse (app : App) (limit : Nat) (source : Address) (payload : Bytes) (s : FrameStream) :
    (converse app e limit source payload s).Only fun op => ¬ op.IsStore := by
  rw [← conduct_handler]
  have hkeeps : (app.handler e source payload).Keeps fun op => ¬ op.IsStore :=
    App.keeps_handler (fun _ _ => id) e app source payload
  exact ⟨id, fun _ => (only_conduct (fun _ => id) id hkeeps s).bind fun _ => trivial⟩

theorem told_attend (hw : w.KeepsPhase) (member : Settings) (source : Address) (s : FrameStream) (item : Option Item) :
    Told (Permits m.phase source.ip item) w member past (run w (attend member e source s item) past m).acts := by
  cases opening item with
  | @request request kind hreport =>
      rw [attend_request hreport, respond, Program.bind_eq, run_bind]
      have htells : (Activity.answer source.ip request).Tells (Permits m.phase source.ip (some (.message request))) none m :=
        (Activity.tells_answer source.ip request m).mono fun _ _ h => ⟨h.1, request, rfl, h.2⟩
      have hdeliver (reply : Option Message) : (deliver member.maxMessageLength e reply).Only fun op => ¬ op.IsStore :=
        only_deliver (fun _ => id) id _ _
      exact (htells.told hw fun _ hlast => absurd hlast (Option.not_mem_none _)).append
        (told_of_storeless (hdeliver _).acts)
  | payload payload =>
      have honly : (attend member e source s (some (.message (.payload payload)))).Only fun op => ¬ op.IsStore := by
        refine ⟨id, fun handler => ?_⟩
        cases (handler : Option App) with
        | none => trivial
        | some app => exact only_converse app _ source payload s
      exact told_of_storeless honly.acts
  | other hother => exact told_of_storeless (by simp [attend_other hother])

theorem told_serving {f : Inflow} {inbound : Inbound} (hdelivers : w.Delivers inbound.here f) (hw : w.KeepsPhase) :
    Told (Permits m.phase inbound.source.ip (f.first m.settings.maxMessageLength)) w m.settings [] (w.serving inbound m) := by
  obtain ⟨s, hacts, -⟩ := run_serve (m := m) hdelivers
  change w.serving inbound m = _ at hacts
  have hphase : (run w (listen m.settings inbound.here) [] m).member.phase = m.phase := (listen_only _).phase hw
  have hheard : ∀ act ∈ (run w (listen m.settings inbound.here) [] m).acts, ¬ act.op.IsStore := (listen_only _).acts
  have hclosed : ∀ act ∈ [Act.asked (.release inbound.here) ()], ¬ act.op.IsStore := by simp [Act.op, DialogOp.IsStore]
  rw [hacts, ← hphase, List.append_assoc]
  exact (told_of_storeless hheard).append ((told_attend hw _ _ s _).append (told_of_storeless hclosed))

end Dialog

/-! ## What is left of it -/

theorem View.notify_cases_accepted (v : View) (candidate : Peer) :
    ((v.notify candidate).2 = true ∧ (v.notify candidate).1 = { v with predecessor := some candidate }) ∨
      ((v.notify candidate).2 = false ∧ (v.notify candidate).1 = v) := by
  unfold notify
  split
  · exact .inr ⟨rfl, rfl⟩
  · split
    · exact .inl ⟨rfl, rfl⟩
    · exact .inr ⟨rfl, rfl⟩

theorem View.notify_accepted_congr {v v' : View} (hself : v'.self = v.self) (hpredecessor : v'.predecessor = v.predecessor)
    (candidate : Peer) : (v'.notify candidate).2 = (v.notify candidate).2 := by
  have hprefers : v'.prefers candidate = v.prefers candidate := by rw [prefers, prefers, hpredecessor, hself]
  unfold notify
  rw [hself, hprefers]
  split
  · rfl
  · split <;> rfl

/-- What becomes of a member in some phase under the influence of a connection, by the first item of that. -/
structure Yields (during : Phase) (source : Ipv4) (first : Option Item) (m m' : Member) : Prop where
  settings : m'.settings = m.settings
  phase : m'.phase = m.phase
  rounds : m'.rounds = m.rounds
  self : m'.view.self = m.view.self
  successors : m'.view.successors = m.view.successors
  predecessor : m'.view.predecessor ≠ m.view.predecessor → during = .joined ∧
    ∃ id port, first = some (.message (.notice id port)) ∧ (m.view.notify ⟨id, source, port⟩).2 = true ∧
      m'.view.predecessor = some ⟨id, source, port⟩
  fingers : m'.view.fingers ≠ m.view.fingers → during = .joined ∧ ∃ id ttl, first = some (.message (.lookup id ttl))
  known : ∀ p, some p ∈ m'.view.fingers.slots → some p ∈ m.view.fingers.slots

namespace Yields

variable {during : Phase} {source : Ipv4} {first : Option Item} {m m' m'' : Member}

theorem refl (m : Member) : Yields during source first m m :=
  ⟨rfl, rfl, rfl, rfl, rfl, fun h => absurd rfl h, fun h => absurd rfl h, fun _ h => h⟩

theorem trans (h : Yields during source first m m') (h' : Yields during source first m' m'') :
    Yields during source first m m'' := by
  refine ⟨h'.settings.trans h.settings, h'.phase.trans h.phase, h'.rounds.trans h.rounds, h'.self.trans h.self,
    h'.successors.trans h.successors, fun hne => ?_, fun hne => ?_, fun p hp => h.known p (h'.known p hp)⟩
  · by_cases hfirst : m'.view.predecessor = m.view.predecessor
    · obtain ⟨hphase, id, port, hnotice, haccepted, hbecomes⟩ := h'.predecessor (hfirst ▸ hne)
      rw [View.notify_accepted_congr h.self hfirst] at haccepted
      exact ⟨hphase, id, port, hnotice, haccepted, hbecomes⟩
    · obtain ⟨hphase, id, port, hnotice, haccepted, hbecomes⟩ := h.predecessor hfirst
      refine ⟨hphase, id, port, hnotice, haccepted, ?_⟩
      -- If it changes again, the same item names the same peer.
      by_cases hsecond : m''.view.predecessor = m'.view.predecessor
      · exact hsecond.trans hbecomes
      · obtain ⟨_, id', port', hnotice', _, hbecomes'⟩ := h'.predecessor hsecond
        cases hnotice.symm.trans hnotice'
        exact hbecomes'
  · by_cases hfirst : m'.view.fingers = m.view.fingers
    · exact h'.fingers (hfirst ▸ hne)
    · exact h.fingers hfirst

theorem of_permits {last : Option Asked} (h : Permits during source first last m m') : Yields during source first m m' := by
  obtain ⟨hphase, message, rfl, heffect⟩ := h
  cases heffect with
  | drop decided =>
      exact ⟨rfl, rfl, rfl, rfl, rfl, fun h => absurd rfl h, fun _ => ⟨hphase, _, _, rfl⟩,
        fun p hp => (Fingers.mem_erase hp).1⟩
  | @note id port last m =>
      rcases m.view.notify_cases_accepted ⟨id, source, port⟩ with ⟨haccepted, heq⟩ | ⟨_, heq⟩ <;> rw [heq]
      · exact ⟨rfl, rfl, rfl, rfl, rfl, fun _ => ⟨hphase, id, port, rfl, haccepted, rfl⟩, fun h => absurd rfl h,
          fun _ h => h⟩
      · exact refl m

end Yields

/-! ## Outside a ring -/

namespace Dialog

variable {w : Surroundings} {past : List Act} {m : Member} {s : Settings}

theorem value_lookup_outside (hm : m.phase ≠ .joined) (source : Ipv4) (id : RingId) (ttl : UInt8) :
    (run w ((Activity.answer source (.lookup id ttl)).toDialog s) past m).value = some (.lookupReport none) := by
  change (run w (Activity.toDialog s (Program.bind (ite (m.phase = .joined) _ _) _)) (past ++ []) m).value = _
  rw [if_neg hm]
  rfl

theorem value_notice_outside (hm : m.phase ≠ .joined) (source : Ipv4) (id : RingId) (port : UInt16) :
    (run w ((Activity.answer source (.notice id port)).toDialog s) past m).value = some (.noticeReport false) := by
  change (run w (Activity.toDialog s (ite (m.phase = .joined) _ _)) (past ++ []) m).value = _
  rw [if_neg hm]
  rfl

end Dialog

/-- What the first item of a connection can do to a member that serves it. -/
structure Influence (w : Surroundings) (inbound : Inbound) (m : Member) (first : Option Item) : Prop where
  stored {xs ys : List Act} {before after : Member} (acts : w.serving inbound m = xs ++ .stored before after :: ys) :
    Yields m.phase inbound.source.ip first before after
  dropped {xs ys : List Act} {before after : Member} (acts : w.serving inbound m = xs ++ .stored before after :: ys)
    (changed : after.view.fingers ≠ before.view.fingers) :
    ∃ id ttl hop, first = some (.message (.lookup id ttl)) ∧ after.view.fingers = before.view.fingers.erase hop.id ∧
      ∃ asker e, asker.view.findSuccessor id = .contact hop (.findSuccessor id) ∧
        (⟨asker, hop.address, .owner id (ttl - 1), .error e⟩ : Asked).Just w m.settings xs before
  outside (phase : m.phase ≠ .joined) (before after : Member) : .stored before after ∉ w.serving inbound m
  unfound (phase : m.phase ≠ .joined) {id : RingId} {ttl : UInt8} (asks : first = some (.message (.lookup id ttl))) :
    ∃ before, w.serving inbound m = before ++ [.asked (.release inbound.here) ()] ∧
      Replies inbound.here (.lookupReport none) before
  unheeded (phase : m.phase ≠ .joined) {id : RingId} {port : UInt16} (asks : first = some (.message (.notice id port))) :
    ∃ before, w.serving inbound m = before ++ [.asked (.release inbound.here) ()] ∧
      Replies inbound.here (.noticeReport false) before
  undisturbed (alone : ∀ past m, w.drift past m = m) :
    Yields m.phase inbound.source.ip first m (Dialog.run w (Dialog.serve inbound) [] m).member ∧
      (m.phase ≠ .joined → (Dialog.run w (Dialog.serve inbound) [] m).member = m)

/-- A caller changes nothing but a predecessor that it may itself be, and fingers that fail. -/
theorem influence_of_callers {w : Surroundings} {inbound : Inbound} {f : Inflow} {m : Member}
    (hdelivers : w.Delivers inbound.here f) (hw : w.KeepsPhase) :
    Influence w inbound m (f.first m.settings.maxMessageLength) := by
  have htold := Dialog.told_serving (m := m) hdelivers hw
  have hstored {xs ys : List Act} {before after : Member} (hacts : w.serving inbound m = xs ++ .stored before after :: ys) :
      Yields m.phase inbound.source.ip (f.first m.settings.maxMessageLength) before after := by
    obtain ⟨last, hpermits, -⟩ := htold xs before after ys hacts
    exact .of_permits hpermits
  have houtside (hphase : m.phase ≠ .joined) (before after : Member) : .stored before after ∉ w.serving inbound m := by
    intro hact
    obtain ⟨xs, ys, hacts⟩ := List.append_of_mem hact
    obtain ⟨last, hpermits, -⟩ := htold xs before after ys hacts
    exact hphase hpermits.1
  have hphase : (Dialog.run w (Dialog.listen m.settings inbound.here) [] m).member.phase = m.phase :=
    (Dialog.listen_only _).phase hw
  refine ⟨hstored, ?dropped, houtside, ?unfound, ?unheeded, ?undisturbed⟩
  case dropped =>
    intro xs ys before after hacts hchanged
    obtain ⟨last, ⟨-, message, hfirst, heffect⟩, hjust⟩ := htold xs before after ys hacts
    cases heffect with
    | drop decided => exact ⟨_, _, _, hfirst, rfl, _, _, decided, hjust _ rfl⟩
    | @note id port =>
        rcases before.view.notify_cases_accepted ⟨id, inbound.source.ip, port⟩ with ⟨_, heq⟩ | ⟨_, heq⟩ <;>
          exact absurd (by rw [heq]) hchanged
  case unfound =>
    intro houtside id ttl hfirst
    obtain ⟨body, hlimit, hfits⟩ := Inflow.exists_body hfirst
    have hroom : (Message.lookupReport none).body.length ≤ m.settings.maxMessageLength := by
      rcases hfits with h | h <;> rw [h] at hlimit <;> exact Nat.le_trans (by decide) hlimit
    exact Dialog.replies_serve hdelivers hfirst rfl (Dialog.value_lookup_outside (hphase ▸ houtside) _ id ttl) hroom
      (by decide)
  case unheeded =>
    intro houtside id port hfirst
    obtain ⟨body, hlimit, hfits⟩ := Inflow.exists_body hfirst
    have hroom : (Message.noticeReport false).body.length ≤ m.settings.maxMessageLength :=
      Nat.le_trans (by decide) ((show body.length = 6 from hfits) ▸ hlimit)
    exact Dialog.replies_serve hdelivers hfirst rfl (Dialog.value_notice_outside (hphase ▸ houtside) _ id port) hroom
      (by decide)
  case undisturbed =>
    intro halone
    refine ⟨Dialog.run_member .refl .trans (fun past m => ?_) fun before after hact => ?_, fun hphase => ?_⟩
    · rw [halone]
      exact .refl m
    · obtain ⟨xs, ys, hacts⟩ := List.append_of_mem hact
      exact hstored hacts
    · exact Dialog.run_member (R := fun m m' => m' = m) (fun _ => rfl) (fun h h' => h'.trans h) halone
        fun before after hact => absurd hact (houtside hphase before after)

/-- A connection to somebody, from a host that is in no ring. -/
def gate : Inbound := ⟨0, ⟨⟨10, 0, 0, 9⟩, 40000⟩⟩

/-- A member of a ring that knows a successor and a finger. -/
def gatekeeper : Member :=
  { Member.fresh default { maxMessageLength := 11 } with
    phase := .joined
    view := (((View.fresh default 3).join { (default : Peer) with id := 8 }).1.join { (default : Peer) with id := 100 }).1 }

/-- A notice, its header cut in two. -/
def noticeInPieces : Inflow := ⟨[[78, 48, 48, 48, 48], [48, 48, 48, 54, 0, 0, 0, 50, 27, 88]], false, by decide⟩

/-- A lookup of what lies behind the finger. -/
def lookupInPieces : Inflow := ⟨[[83, 48, 48, 48, 48], [48, 48, 48, 53, 0, 0, 0, 200, 5]], false, by decide⟩

/-- A notice makes a predecessor of whom it comes from, and a lookup costs the finger, as nobody answers. -/
theorem influence_of_callers_gatekeeper :
    (Surroundings.quiet gate.here noticeInPieces).KeepsPhase ∧ (Surroundings.quiet gate.here lookupInPieces).KeepsPhase ∧
      noticeInPieces.first 11 = some (.message (.notice 50 7000)) ∧
      lookupInPieces.first 11 = some (.message (.lookup 200 5)) ∧
      Influence (.quiet gate.here noticeInPieces) gate gatekeeper (noticeInPieces.first 11) ∧
      Influence (.quiet gate.here lookupInPieces) gate gatekeeper (lookupInPieces.first 11) ∧
      (Dialog.run (.quiet gate.here noticeInPieces) (Dialog.serve gate) [] gatekeeper).member.view.predecessor =
        some ⟨50, ⟨10, 0, 0, 9⟩, 7000⟩ ∧
      (Dialog.run (.quiet gate.here lookupInPieces) (Dialog.serve gate) [] gatekeeper).member.view.fingers =
        gatekeeper.view.fingers.erase 100 ∧
      gatekeeper.view.fingers.erase 100 ≠ gatekeeper.view.fingers :=
  ⟨fun _ _ => rfl, fun _ _ => rfl, by decide +kernel, by decide +kernel,
    influence_of_callers (Surroundings.quiet_delivers gate.here noticeInPieces) fun _ _ => rfl,
    influence_of_callers (Surroundings.quiet_delivers gate.here lookupInPieces) fun _ _ => rfl,
    by decide +kernel, by decide +kernel, by decide +kernel⟩

end ChordOverlay
