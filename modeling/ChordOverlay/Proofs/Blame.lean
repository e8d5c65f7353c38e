import ChordOverlay.Proofs.Caution
import ChordOverlay.Proofs.Serving

/-!
# Who is blamed for a failed lookup

A member drops a finger from its table when a call to it has failed. A hop that works never fails its caller: it decides and
is refused within no time, an answer ends its lookup, and so does the silence of the next hop, a margin before its own caller
gives up. So however long a chain of forwards is, only the last member of it, which has been refused or has waited in vain,
drops a finger, and one behind which nobody works.
-/

namespace ChordOverlay.Timed

variable {ι : Type} {land : Terrain ι} {s : Settings} {k : ι} {m : Member} {p : Peer}

/-! ## Deadlines of a chain -/

/-- A peer that has failed a member, where nobody works, and whose position is that of no working member. -/
structure Blamed (land : Terrain ι) (failures : List (ι × Address)) (k : ι) (p : Peer) : Prop where
  called : (k, p.address) ∈ failures
  dead : land.Dead p.address
  strange : ∀ j, p.id ≠ land.place j

/--
A lookup with `ttl` hops left, begun at the time `begun`, is in time. As long as it asks no time has passed; it waits no
longer than the next hop may take; and it ends before whoever waits for it gives up.
-/
inductive Timely (land : Terrain ι) (s : Settings) (now : Nat) (failures : List (ι × Address)) (begun : Nat) :
    {d : Duty} → UInt8 → Strand ι d → Prop
  | asking {d : Duty} {ttl : UInt8} {host : ι} {rest : Activity d.Result} {blame : Option Peer}
      (careful : ∀ m, land.Fair s host m → Careful land s host ttl (Clean land d) true blame rest m)
      (blamed : ∀ p ∈ blame, Blamed land failures host p) (time : now = begun) :
      Timely land s now failures begun ttl (.run host rest)
  | ending {d : Duty} {ttl : UInt8} {host : ι} {rest : Activity d.Result} {blame : Option Peer}
      (careful : ∀ m, land.Fair s host m → Careful land s host ttl (Clean land d) false blame rest m)
      (blamed : ∀ p ∈ blame, Blamed land failures host p) (time : now < begun + s.lookupPatience ttl) :
      Timely land s now failures begun ttl (.run host rest)
  | wait {d : Duty} {ttl : UInt8} {host : ι} {target : Address} {q : Query}
      {next : Except Failure q.Answer → Activity d.Result} {due : Nat} {callee : Strand ι (.serve q)}
      (question : Question land s host ttl (Clean land d) target q next) (bounded : due = begun + q.patience s)
      (served : Timely land s now failures begun (ttl - 1) callee) :
      Timely land s now failures begun ttl (.wait host target q next due callee)
  | hang {d : Duty} {ttl : UInt8} {host : ι} {target : Address} {q : Query}
      {next : Except Failure q.Answer → Activity d.Result} {due : Nat}
      (question : Question land s host ttl (Clean land d) target q next) (dead : land.Dead target)
      (bounded : due = begun + q.patience s) (time : now ≤ due) :
      Timely land s now failures begun ttl (.hang host target q next due)

theorem lookupPatience_pred_lt (hmargin : 0 < s.hopMargin) {ttl : UInt8} (httl : ttl ≠ 0) :
    s.lookupPatience (ttl - 1) < s.lookupPatience ttl := by
  rw [Settings.lookupPatience, Settings.lookupPatience, ← hops_left httl, Nat.mul_succ, ← Nat.add_assoc]
  exact Nat.lt_add_of_pos_right hmargin

theorem frame_lookup (hlimit : 11 ≤ s.maxMessageLength) (id : RingId) (hops : UInt8) :
    (Query.owner id hops).request.frame s.maxMessageLength = .ok (Message.lookup id hops).wire :=
  Message.frame_eq (Nat.le_trans (by decide : 5 ≤ 11) hlimit) (by decide : 5 < UInt32.size)

theorem frame_lookupReport (hlimit : 11 ≤ s.maxMessageLength) (owner : Option Peer) :
    (Message.lookupReport owner).frame s.maxMessageLength = .ok (Message.lookupReport owner).wire := by
  have hlength : (Message.lookupReport owner).body.length ≤ 11 := @Message.length_body_of_report (.lookupReport owner) .lookup rfl
  exact Message.frame_eq (Nat.le_trans hlength hlimit) (Nat.lt_of_le_of_lt hlength (by decide))

namespace Timely

variable {now later begun : Nat} {failures failures' : List (ι × Address)} {d : Duty} {ttl : UInt8} {t t' : Strand ι d}
  {host : ι}

theorem mono (h : Timely land s now failures begun ttl t) (hsub : ∀ f ∈ failures, f ∈ failures') :
    Timely land s now failures' begun ttl t := by
  have hblamed {k : ι} {p : Peer} (hp : Blamed land failures k p) : Blamed land failures' k p :=
    ⟨hsub _ hp.called, hp.dead, hp.strange⟩
  induction h with
  | asking careful blamed time => exact .asking careful (fun p hp => hblamed (blamed p hp)) time
  | ending careful blamed time => exact .ending careful (fun p hp => hblamed (blamed p hp)) time
  | wait question bounded _ ih => exact .wait question bounded ih
  | hang question dead bounded time => exact .hang question dead bounded time

/-- The deadlines nest: a lookup is over before the deadline of whoever waits for it. -/
theorem time_lt (hmargin : 0 < s.hopMargin) (hpatience : 0 < s.patience) (h : Timely land s now failures begun ttl t) :
    now < begun + s.lookupPatience ttl := by
  induction h with
  | asking careful blamed time =>
      rw [time, Settings.lookupPatience]
      omega
  | ending careful blamed time => exact time
  | wait question bounded served ih =>
      cases question with
      | owner left => exact Nat.lt_trans ih (Nat.add_lt_add_left (lookupPatience_pred_lt hmargin left) begun)
  | hang question dead bounded time =>
      cases question with
      | owner left =>
          exact Nat.lt_of_le_of_lt (bounded ▸ time) (Nat.add_lt_add_left (lookupPatience_pred_lt hmargin left) begun)

theorem clean {r : d.Result} (hm : land.Fair s host m) (h : Timely land s now failures begun ttl (.run host (.done r))) :
    Clean land d r := by
  cases h with
  | asking careful => exact careful m hm
  | ending careful => exact careful m hm

theorem serving (k : ι) (source : Ipv4) (id : RingId) (htime : now = begun) : Timely land s now failures begun ttl
    (.run k (Activity.answer source (.lookup id ttl)) : Strand ι (.serve (.owner id ttl))) := by
  have hcareful : ∀ m, land.Fair s k m → Careful land s k ttl (Clean land (.serve (.owner id ttl))) true none
      (Activity.answer source (.lookup id ttl)) m := fun m hm => careful_answer source hm
  exact .asking hcareful nofun htime

theorem question {target : Address} {q : Query} {next : Except Failure q.Answer → Activity d.Result}
    (hm : land.Fair s host m) (h : Timely land s now failures begun ttl (.run host (.ask (.query target q) next))) :
    now = begun ∧ Question land s host ttl (Clean land d) target q next := by
  cases h with
  | asking careful _ time => exact ⟨time, (careful m hm).question.2⟩
  | ending careful => cases (careful m hm).question.1

end Timely

section Steps

variable {now later begun : Nat} {failures failures' : List (ι × Address)} {d : Duty} {ttl : UInt8} {t t' : Strand ι d}
  {host : ι} {σ σ' : ι → Member}

/-- What a strand in time may do to the members: one of them drops a peer that it may blame. -/
def Drops [DecidableEq ι] (land : Terrain ι) (failures : List (ι × Address)) (σ σ' : ι → Member) : Prop :=
  σ' = σ ∨ ∃ k p, Blamed land failures k p ∧ σ' = Function.update σ k (dropped (σ k) p.id)

variable [DecidableEq ι]

theorem Careful.stretch {α : Type} {post : α → Prop} {asks : Bool} {blame : Option Peer} {rest : Activity α}
    (careful : ∀ m, land.Fair s host m → Careful land s host ttl post asks blame rest m)
    (blamed : ∀ p ∈ blame, Blamed land failures host p) (hm : land.Fair s host (σ host)) :
    Drops land failures σ (Function.update σ host (rest.proceed (σ host)).2) ∧
      ∃ blame', (∀ p ∈ blame', Blamed land failures host p) ∧
        ∀ m, Careful land s host ttl post asks blame' (rest.proceed (σ host)).1 m := by
  have hwaits := Activity.waits_proceed rest (σ host)
  rcases (careful _ hm).proceed with ⟨hsame, hrest⟩ | ⟨p, hp, hdrop, hrest⟩
  · refine ⟨.inl ?_, blame, blamed, hrest.waiting hwaits⟩
    rw [hsame, Function.update_eq_self]
  · refine ⟨.inr ⟨host, p, blamed p hp, ?_⟩, none, nofun, hrest.waiting hwaits⟩
    rw [hdrop]

/-- A hop that works never fails its caller, so no call to one is given up, and only peers that do not work are blamed. -/
theorem Timely.step (hmargin : 0 < s.hopMargin) (hpatience : 0 < s.patience) (hlimit : 11 ≤ s.maxMessageLength)
    {sign : Sign ι} (h : Timely land s now failures begun ttl t) (hσ : ∀ k, land.Fair s k (σ k))
    (hstep : t.Step land s now σ sign σ' t') (hold : ∀ f ∈ failures, f ∈ failures')
    (hnew : ∀ f ∈ sign.failures, f ∈ failures') :
    Timely land s now failures' begun ttl t' ∧ sign.strays = [] ∧ Drops land failures σ σ' := by
  induction hstep generalizing ttl with
  | @go d σ host rest busy =>
      cases h with
      | asking careful blamed time =>
          obtain ⟨hdrops, blame, hblamed, hrest⟩ := Careful.stretch careful blamed (hσ host)
          exact ⟨(Timely.asking (fun m _ => hrest m) hblamed time).mono hold, rfl, hdrops⟩
      | ending careful blamed time =>
          obtain ⟨hdrops, blame, hblamed, hrest⟩ := Careful.stretch careful blamed (hσ host)
          exact ⟨(Timely.ending (fun m _ => hrest m) hblamed time).mono hold, rfl, hdrops⟩
  | @refuse d σ host target q next refused =>
      -- No time has passed, so the lookup may ask the next peer.
      obtain ⟨time, question⟩ := h.question (hσ host)
      cases question with
      | @owner _ _ p left entry answer silence failure =>
          have hdead : land.Dead p.address := fun j hj => by rw [refused] at hj; cases hj
          refine ⟨.asking (fun m hm => failure m hm _ nofun) (fun p' hp' => ?_) time, rfl, .inl rfl⟩
          cases hp'
          exact ⟨hnew _ List.mem_cons_self, hdead, entry hdead⟩
  | @tooLarge d σ host target q next e taken unframed =>
      obtain ⟨_, question⟩ := h.question (hσ host)
      cases question with
      | owner left =>
          rw [frame_lookup hlimit] at unframed
          cases unframed
  | @call d σ host k target q next bytes reached framed =>
      obtain ⟨time, question⟩ := h.question (hσ host)
      refine ⟨.wait question (by rw [time]) ?_, rfl, .inl rfl⟩
      cases question with
      | owner left => exact .serving _ _ _ time
  | @hang d σ host target q next bytes silent framed =>
      obtain ⟨time, question⟩ := h.question (hσ host)
      exact ⟨.hang question (fun j hj => by rw [silent] at hj; cases hj) (by rw [time]) (Nat.le_add_right _ _), rfl, .inl rfl⟩
  | @reply d σ host k target q next due report bytes framed =>
      have htime := h.time_lt hmargin hpatience
      cases h with
      | wait question bounded served =>
          cases question with
          | owner left entry answer =>
              obtain ⟨owner, howner, hclean⟩ := served.clean (hσ k)
              cases howner
              exact ⟨.ending (fun m hm => answer m hm owner hclean) nofun htime, rfl, .inl rfl⟩
  | @close d σ host k target q next due outcome unsent =>
      cases h with
      | wait question bounded served =>
          cases question with
          | owner left =>
              -- The report of a lookup always fits the limit, so a member that works writes one.
              obtain ⟨owner, rfl, _⟩ := served.clean (hσ k)
              exact absurd (frame_lookupReport hlimit owner) (unsent _ rfl _)
  | expire late =>
      -- The deadlines nest, so the callee would have been over before this one.
      cases h with
      | wait question bounded served =>
          have htime := served.time_lt hmargin hpatience
          cases question with
          | owner left => exact absurd late (Nat.not_le.mpr (bounded ▸ htime))
  | @giveUp d σ host target q next due late =>
      have htime := h.time_lt hmargin hpatience
      cases h with
      | hang question dead bounded time =>
          cases question with
          | @owner _ _ p left entry answer silence failure =>
              refine ⟨.ending (fun m hm => silence m hm) (fun p' hp' => ?_) htime, rfl, .inl rfl⟩
              cases hp'
              exact ⟨hnew _ List.mem_cons_self, dead, entry dead⟩
  | serve inner ih =>
      cases h with
      | wait question bounded served =>
          obtain ⟨hserved, hstrays, hdrops⟩ := ih served hσ hnew
          exact ⟨.wait question bounded hserved, hstrays, hdrops⟩

/-- Whoever cannot do anything but wait has ended, or is still in time when the clock moves on to a deadline at most. -/
theorem Timely.tick (h : Timely land s now failures begun ttl t)
    (hstill : t.Still land s now σ) (hdues : ∀ due ∈ t.dues, later ≤ due) :
    (∃ host r, t = .run host (.done r)) ∨ Timely land s later failures begun ttl t := by
  induction h with
  | @asking d ttl host rest blame careful blamed time =>
      obtain ⟨r, rfl⟩ := hstill.done
      exact .inl ⟨host, r, rfl⟩
  | @ending d ttl host rest blame careful blamed time =>
      obtain ⟨r, rfl⟩ := hstill.done
      exact .inl ⟨host, r, rfl⟩
  | wait question bounded served ih =>
      rcases ih hstill.callee fun due hdue => hdues due (List.mem_cons_of_mem _ hdue) with ⟨k, outcome, rfl⟩ | hserved
      -- An answer that is there is handed over before the clock moves.
      · exact absurd hstill.unanswered id
      · exact .inr (.wait question bounded hserved)
  | hang question dead bounded time => exact .inr (.hang question dead bounded (hdues _ List.mem_cons_self))

end Steps

/-! ## What becomes of a finger -/

theorem setFingers_slot (found : List (Except Failure Peer × Nat)) (v : View) (i : Nat) :
    let v' := found.foldl (fun v r => match r.1 with
      | .ok p => v.setFinger r.2 (some p)
      | .error _ => v) v
    v'.fingers.get? i = v.fingers.get? i ∨ ∃ p k, (.ok p, k) ∈ found ∧
      v'.fingers.get? i = (some p).filter fun q => q.id ≠ v.fingers.owner.id := by
  induction found generalizing v with
  | nil => exact .inl rfl
  | cons r found ih =>
      obtain ⟨r, k⟩ := r
      rw [List.foldl_cons]
      cases r with
      | error e =>
          rcases ih v with hsame | ⟨p, k', hp, hslot⟩
          · exact .inl hsame
          · exact .inr ⟨p, k', List.mem_cons_of_mem _ hp, hslot⟩
      | ok p =>
          rcases ih (v.setFinger k (some p)) with hsame | ⟨p', k', hp, hslot⟩
          · dsimp only
            rw [hsame]
            rcases v.fingers.get?_set k (some p) i with hkept | hset
            · exact .inl hkept
            · exact .inr ⟨p, k, List.mem_cons_self, hset⟩
          · exact .inr ⟨p', k', List.mem_cons_of_mem _ hp, hslot⟩

theorem fixFingers_slot (m : Member) (results : List (Except Failure Peer)) (v : View) (i : Nat) :
    ((Gathering.fixFingers m).finish results v).fingers.get? i = v.fingers.get? i ∨ ∃ p, .ok p ∈ results ∧
      ((Gathering.fixFingers m).finish results v).fingers.get? i = (some p).filter fun q => q.id ≠ v.fingers.owner.id := by
  rcases setFingers_slot results.zipIdx v i with hsame | ⟨p, k, hp, hslot⟩
  · exact .inl hsame
  · exact .inr ⟨p, List.fst_mem_of_mem_zipIdx hp, hslot⟩

/-- The activities of lookups, and what comes of them: nothing but answers, or a table filled anew. -/
inductive Front.OfLookups : Front ι → Prop
  | solo {host : ι} {d : Duty} {jobs : List (Strand ι d)} (lookup : d.IsLookup) : OfLookups ⟨host, d, jobs, fun _ view => view⟩
  | repair {host : ι} {jobs : List (Strand ι (.own .fixFingers))} (m : Member) :
      OfLookups ⟨host, .own .fixFingers, jobs, (Gathering.fixFingers m).finish⟩

/-- A repair of fingers at `k` has come to an end, and found `p`. -/
def World.Found (w : World ι) (k : ι) (p : Peer) : Prop :=
  ∃ (jobs : List (Strand ι (.own .fixFingers))) (finish : List (Except Failure Peer) → View → View) (host : ι),
    ⟨k, .own .fixFingers, jobs, finish⟩ ∈ w.fronts ∧ .run host (.done (Except.ok p)) ∈ jobs

/-- What becomes of a slot: it keeps its peer, or the peer has the position of one to blame, or it takes what a repair found. -/
inductive Fate (land : Terrain ι) (w : World ι) (k : ι) : Option Peer → Option Peer → Prop
  | kept (slot : Option Peer) : Fate land w k slot slot
  | dropped {p hop : Peer} (slot : Option Peer) (blamed : Blamed land w.failures k hop) (same : p.id = hop.id) :
      Fate land w k (some p) slot
  | refilled {p : Peer} (slot : Option Peer) (found : w.Found k p) :
      Fate land w k slot ((some p).filter fun q => q.id ≠ (w.members k).self.id)

/--
Wherever lookups start, in whatever state members are, whoever does not work, and however long the chains of forwards get
while members do other things as well: no step of the lookups takes a peer from a slot of anybody, unless the peer has the
position of one that was called and does not work, which no working member has, or a repair of fingers puts another there.
-/
def Blameless (s : Settings) : Prop :=
  ∀ (ι : Type) [DecidableEq ι] (land : Terrain ι) (σ : ι → Member), (∀ k, land.Fair s k (σ k)) →
    ∀ now w w', World.Run land s (.idle now σ) w → World.Step land s w w' →
      ∀ k i, Fate land w k ((w.members k).view.fingers.get? i) ((w'.members k).view.fingers.get? i)

/-- The lookup has come to a clean result, or is in time at every call on its way. -/
def Strand.InTime (land : Terrain ι) (s : Settings) (now : Nat) (failures : List (ι × Address)) {d : Duty} (t : Strand ι d) :
    Prop :=
  (∃ host r, t = .run host (.done r) ∧ Clean land d r) ∨ ∃ begun ttl, Timely land s now failures begun ttl t

/-- Members are as they should be, and nothing is under way but lookups in time. -/
structure World.InTime (land : Terrain ι) (s : Settings) (w : World ι) : Prop where
  fair : ∀ k, land.Fair s k (w.members k)
  lookups : ∀ f ∈ w.fronts, f.OfLookups
  jobs : ∀ f ∈ w.fronts, ∀ t ∈ f.jobs, t.InTime land s w.now w.failures

theorem Strand.InTime.mono {now : Nat} {failures failures' : List (ι × Address)} {d : Duty} {t : Strand ι d}
    (h : t.InTime land s now failures) (hsub : ∀ f ∈ failures, f ∈ failures') : t.InTime land s now failures' :=
  h.imp_right fun ⟨begun, ttl, ht⟩ => ⟨begun, ttl, ht.mono hsub⟩

theorem Front.ofLookups_ofOperation {o : Operation} (ho : (Duty.own o).IsLookup) (host : ι) (m : Member) :
    (Front.ofOperation host o m).OfLookups := by
  cases o with
  | lookup id ttl => exact .solo ho
  | findSuccessor id => exact .solo ho
  | fixFingers => exact .repair m
  | _ => cases ho

section Worlds

variable {w w' : World ι} {σ σ' : ι → Member} {failures : List (ι × Address)}

theorem Front.OfLookups.change {host : ι} {d : Duty} {jobs : List (Strand ι d)} {finish : List d.Result → View → View}
    (h : Front.OfLookups ⟨host, d, jobs, finish⟩) (jobs' : List (Strand ι d)) :
    Front.OfLookups ⟨host, d, jobs', finish⟩ := by
  cases h with
  | solo lookup => exact .solo lookup
  | repair m => exact .repair m

theorem Front.OfLookups.finish {host : ι} {d : Duty} {jobs : List (Strand ι d)} {finish : List d.Result → View → View}
    (h : Front.OfLookups ⟨host, d, jobs, finish⟩) (hm : land.Fair s host m) {results : List (ι × d.Result)}
    (hjobs : jobs = results.map fun r => .run r.1 (.done r.2)) (hclean : ∀ r ∈ results, Clean land d r.2)
    (hw : ⟨host, d, jobs, finish⟩ ∈ w.fronts) (hhere : w.members host = m) :
    land.Fair s host { m with view := finish (results.map Prod.snd) m.view } ∧
      ∀ i, Fate land w host (m.view.fingers.get? i) ((finish (results.map Prod.snd) m.view).fingers.get? i) := by
  cases h with
  | solo lookup => exact ⟨hm, fun i => .kept _⟩
  | @repair _ jobs n =>
      have hslot (i : Nat) := fixFingers_slot n (results.map Prod.snd) m.view i
      have hfound {p : Peer} (hp : Except.ok p ∈ results.map Prod.snd) : w.Found host p ∧ land.Apart p := by
        obtain ⟨⟨k, r⟩, hr, rfl⟩ := List.mem_map.mp hp
        refine ⟨⟨jobs, _, k, hw, ?_⟩, hclean _ hr p rfl⟩
        rw [hjobs]
        exact List.mem_map_of_mem hr
      obtain ⟨fingers, hsound, howner, hview⟩ := Gathering.fixFingers_finish n (results.map Prod.snd) hm.sound
      have hfinished : ((Gathering.fixFingers n).finish (results.map Prod.snd) m.view).Sound := by
        rw [hview]
        exact ⟨hm.sound.list, hm.sound.list_owner, hsound, howner, hm.sound.before⟩
      refine ⟨hm.refill hfinished (by rw [hview]) (by rw [hview]) (by rw [hview]) fun i p hp => ?_, fun i => ?_⟩
      · rcases hslot i with hsame | ⟨q, hq, hset⟩
        · exact hm.finger (hsame ▸ hp)
        · rw [hset] at hp
          rw [← (Option.filter_eq_some_iff.mp hp).1 |> Option.some.inj]
          exact (hfound hq).2
      · rcases hslot i with hsame | ⟨q, hq, hset⟩
        · rw [hsame]
          exact .kept _
        · rw [hset, hm.sound.table_owner]
          have hrefilled : Fate land w host (m.view.fingers.get? i) ((some q).filter fun p => p.id ≠ (w.members host).self.id) :=
            .refilled _ (hfound hq).1
          rwa [hhere] at hrefilled

section OneFront

variable {now : Nat} {before after : List (Front ι)} {host : ι} {d : Duty} {finish : List d.Result → View → View}

/-- One strand is followed by another that is in time, and more calls may have failed. -/
theorem World.InTime.change {failures' : List (ι × Address)} {done rest : List (Strand ι d)} {t t' : Strand ι d}
    (h : World.InTime land s ⟨now, σ, before ++ ⟨host, d, done ++ t :: rest, finish⟩ :: after, failures⟩)
    (hfair : ∀ k, land.Fair s k (σ' k)) (hsub : ∀ f ∈ failures, f ∈ failures') (ht' : t'.InTime land s now failures') :
    World.InTime land s ⟨now, σ', before ++ ⟨host, d, done ++ t' :: rest, finish⟩ :: after, failures'⟩ := by
  obtain ⟨_, hlookups, hjobs⟩ := h
  rw [List.forall_mem_append, List.forall_mem_cons] at hlookups hjobs
  obtain ⟨hbefore, hhere, hafter⟩ := hjobs
  have hothers : ∀ t' ∈ done ++ t :: rest, t'.InTime land s now failures := hhere
  rw [List.forall_mem_append, List.forall_mem_cons] at hothers
  refine ⟨hfair, ?_, ?_⟩
  · rw [List.forall_mem_append, List.forall_mem_cons]
    exact ⟨hlookups.1, hlookups.2.1.change _, hlookups.2.2⟩
  · rw [List.forall_mem_append, List.forall_mem_cons]
    refine ⟨fun f hf t ht => (hbefore f hf t ht).mono hsub, ?_, fun f hf t ht => (hafter f hf t ht).mono hsub⟩
    change ∀ t ∈ done ++ t' :: rest, t.InTime land s now failures'
    rw [List.forall_mem_append, List.forall_mem_cons]
    exact ⟨fun t ht => (hothers.1 t ht).mono hsub, ht', fun t ht => (hothers.2.2 t ht).mono hsub⟩

theorem World.InTime.without {f : Front ι} (h : World.InTime land s ⟨now, σ, before ++ f :: after, failures⟩)
    (hfair : ∀ k, land.Fair s k (σ' k)) : World.InTime land s ⟨now, σ', before ++ after, failures⟩ := by
  have hsub : ∀ g ∈ before ++ after, g ∈ before ++ f :: after := fun g hg => by
    rw [List.mem_append] at hg ⊢
    exact hg.imp_right (List.mem_cons_of_mem _)
  exact ⟨hfair, fun g hg => h.lookups g (hsub g hg), fun g hg => h.jobs g (hsub g hg)⟩

theorem World.InTime.clean {results : List (ι × d.Result)} (h : w.InTime land s)
    (hmem : ⟨host, d, results.map fun r => .run r.1 (.done r.2), finish⟩ ∈ w.fronts) : ∀ r ∈ results, Clean land d r.2 := by
  intro r hr
  have ht : (Strand.run r.1 (.done r.2) : Strand ι d).InTime land s w.now w.failures :=
    h.jobs _ hmem _ (List.mem_map_of_mem (f := fun r : ι × d.Result => (.run r.1 (.done r.2) : Strand ι d)) hr)
  rcases ht with ⟨k, x, heq, hx⟩ | ⟨begun, ttl, htimely⟩
  · cases heq
    exact hx
  · exact htimely.clean (h.fair _)

end OneFront

variable [DecidableEq ι]

theorem Drops.fair (h : Drops land failures σ σ') (hσ : ∀ k, land.Fair s k (σ k)) : ∀ k, land.Fair s k (σ' k) := by
  rcases h with rfl | ⟨j, p, _, rfl⟩
  · exact hσ
  · exact (Function.forall_update_iff σ fun k m => land.Fair s k m).mpr ⟨(hσ j).dropped p.id, fun k _ => hσ k⟩

theorem Drops.fate (h : Drops land w.failures w.members σ') :
    ∀ k i, Fate land w k ((w.members k).view.fingers.get? i) ((σ' k).view.fingers.get? i) := by
  rcases h with rfl | ⟨j, p, hblamed, rfl⟩
  · exact fun k i => .kept _
  · refine (Function.forall_update_iff w.members fun k m =>
      ∀ i, Fate land w k ((w.members k).view.fingers.get? i) (m.view.fingers.get? i)).mpr ⟨fun i => ?_, fun k _ i => .kept _⟩
    rcases (w.members j).view.fingers.get?_erase p.id i with hsame | ⟨q, hq, hid⟩
    · change Fate land w j _ (((w.members j).view.fingers.erase p.id).get? i)
      rw [hsame]
      exact .kept _
    · rw [hq]
      exact .dropped _ hblamed hid

/-- One step of lookups keeps all that is under way in time, and blames nobody who works. -/
theorem World.Step.inTime (hmargin : 0 < s.hopMargin) (hpatience : 0 < s.patience) (hlimit : 11 ≤ s.maxMessageLength)
    (hstep : World.Step land s w w') (h : w.InTime land s) : w'.InTime land s ∧
      ∀ k i, Fate land w k ((w.members k).view.fingers.get? i) ((w'.members k).view.fingers.get? i) := by
  cases hstep with
  | @start now σ fronts failures host o lookup =>
      refine ⟨⟨h.fair, List.forall_mem_cons.mpr ⟨Front.ofLookups_ofOperation lookup host (σ host), h.lookups⟩,
        List.forall_mem_cons.mpr ⟨fun t ht => ?_, h.jobs⟩⟩, fun k i => .kept _⟩
      obtain ⟨ttl, hcareful⟩ := careful_jobs lookup (σ host) (h.fair host)
      obtain ⟨a, ha, rfl⟩ := List.mem_map.mp ht
      exact .inr ⟨now, ttl, .asking (hcareful a ha) nofun rfl⟩
  | @work now σ σ' before after failures host d done rest t t' finish sign step =>
      have ht : t.InTime land s now failures :=
        h.jobs _ (List.mem_append_right before List.mem_cons_self) t (List.mem_append_right done List.mem_cons_self)
      rcases ht with ⟨k, r, rfl, _⟩ | ⟨begun, ttl, htimely⟩
      · cases step with
        | go busy => cases busy
      · obtain ⟨ht', hstrays, hdrops⟩ := htimely.step hmargin hpatience hlimit h.fair step
          (fun _ => List.mem_append_left sign.failures) fun _ => List.mem_append_right failures
        rw [hstrays, List.append_nil]
        exact ⟨h.change (hdrops.fair h.fair) (fun _ => List.mem_append_left _) (.inr ⟨begun, ttl, ht'⟩), hdrops.fate⟩
  | @finish now σ before after failures host d results finish =>
      have hmem : (⟨host, d, results.map fun r => .run r.1 (.done r.2), finish⟩ : Front ι) ∈
          before ++ ⟨host, d, results.map fun r => .run r.1 (.done r.2), finish⟩ :: after :=
        List.mem_append_right _ List.mem_cons_self
      obtain ⟨hhost, hfate⟩ := (h.lookups _ hmem).finish (h.fair host) rfl (h.clean hmem) hmem rfl
      refine ⟨h.without ?_, ?_⟩
      · exact (Function.forall_update_iff σ fun k m => land.Fair s k m).mpr ⟨hhost, fun k _ => h.fair k⟩
      · exact (Function.forall_update_iff σ fun k m => ∀ i, Fate land _ k ((σ k).view.fingers.get? i)
          (m.view.fingers.get? i)).mpr ⟨hfate, fun k _ i => .kept _⟩
  | @tick now later σ fronts failures onward still dues =>
      refine ⟨⟨h.fair, h.lookups, fun f hf t ht => ?_⟩, fun k i => .kept _⟩
      rcases h.jobs f hf t ht with hdone | ⟨begun, ttl, htimely⟩
      · exact .inl hdone
      · rcases htimely.tick (still f hf t ht) (dues f hf t ht) with ⟨host, r, rfl⟩ | hlater
        · exact .inl ⟨host, r, rfl, htimely.clean (h.fair host)⟩
        · exact .inr ⟨begun, ttl, hlater⟩

theorem World.Run.inTime (hmargin : 0 < s.hopMargin) (hpatience : 0 < s.patience) (hlimit : 11 ≤ s.maxMessageLength)
    (h : World.Run land s w w') (hw : w.InTime land s) : w'.InTime land s := by
  induction h with
  | refl => exact hw
  | tail _ hstep ih =>
      rcases hstep with hstep | haside
      · exact (hstep.inTime hmargin hpatience hlimit ih).1
      · cases haside with
        | intro hfair => exact ⟨hfair, ih.lookups, ih.jobs⟩

end Worlds

/-- With some patience and a margin for each hop, and messages that may name a peer, nobody who works is ever dropped. -/
theorem no_working_hop_is_dropped (hmargin : 0 < s.hopMargin) (hpatience : 0 < s.patience) (hlimit : 11 ≤ s.maxMessageLength) :
    Blameless s := by
  intro ι _ land σ hσ now w w' hrun hstep
  have hidle : (World.idle now σ).InTime land s := ⟨hσ, nofun, nofun⟩
  exact (hstep.inTime hmargin hpatience hlimit (hrun.inTime hmargin hpatience hlimit hidle)).2

/-- Two members far apart. -/
def chain (k : Fin 2) : Peer := ⟨[1000, 5000].getD k.val 0, ⟨10, 1, 0, UInt8.ofNat (k.val + 1)⟩, 7000⟩

/-- Somebody at a position and a host of choice. -/
def stranger (id : RingId) (host : UInt8) : Peer := ⟨id, ⟨10, 1, 0, host⟩, 7000⟩

/-- The two members work, one stranger never answers, and everybody else refuses. -/
def chainLand : Terrain (Fin 2) where
  manner target := ((List.finRange 2).find? fun k => (chain k).address = target).elim
    (if target = (stranger 5500 3).address then .silent else .refuses) .works
  place k := (chain k).id
  source k := (chain k).ip

/-- The first member has the second one as a finger, and the second a peer that is silent. -/
def chainView (k : Fin 2) : View :=
  (if k.val = 0 then [.create, .join (stranger 2000 9), .setFinger 11 (some (chain (.last 1)))]
    else [.create, .join (stranger 5100 9), .setFinger 8 (some (stranger 5500 3))]).foldl View.apply (View.fresh (chain k) 3)

/-- The two members, with these settings. -/
def chainMembers (s : Settings) (k : Fin 2) : Member := ⟨s, .joined, chainView k, []⟩

theorem chain_fair (s : Settings) (k : Fin 2) : chainLand.Fair s k (chainMembers s k) where
  settings := rfl
  place := by
    change (chainView k).self.id = (chain k).id
    revert k
    decide
  sound := by
    have hsound (ops : List View.Op) : (ops.foldl View.apply (View.fresh (chain k) 3)).Sound :=
      View.Evolves.sound ⟨ops, rfl⟩ (.fresh _ _)
    exact hsound _
  self := by
    change chainLand.Apart (chainView k).self
    revert k
    decide
  entries := by
    change ∀ p ∈ (chainView k).recorded, chainLand.Apart p
    revert k
    decide +kernel

theorem chain_run (s : Settings) (id : RingId) (ttl : UInt8) :
    World.Run chainLand s (.idle 0 (chainMembers s))
      ⟨0, chainMembers s, [⟨0, .own (.lookup id ttl), [.run 0 (Activity.lookup id ttl)], fun _ view => view⟩], []⟩ :=
  .single (.inl (.start trivial))

/-- The second member waits for the silent peer, and drops it a margin before the first one would drop the second. -/
theorem no_working_hop_is_dropped_chain : 0 < ({} : Settings).hopMargin ∧ 0 < ({} : Settings).patience ∧
    11 ≤ ({} : Settings).maxMessageLength ∧ ∃ w w', World.Run chainLand {} (.idle 0 (chainMembers {})) w ∧
    World.Step chainLand {} w w' ∧ w.now = 5000 ∧
    (∀ k i, Fate chainLand w k ((w.members k).view.fingers.get? i) ((w'.members k).view.fingers.get? i)) ∧
    (w.members 1).view.fingers.get? 8 = some (stranger 5500 3) ∧ (w'.members 1).view.fingers.get? 8 = none ∧
    (w'.members 0).view.fingers.get? 11 = some (chain 1) := by
  have hquestion := ((((chain_run {} 6000 2).tail (.inl (.first (.go rfl)))).tail (.inl (.first (.call rfl rfl)))).tail
    (.inl (.first (.serve (.go rfl))))).tail (.inl (.first (.serve (.hang rfl rfl))))
  have hsilence := hquestion.tail (.inl (.pause (by decide : 0 < 5000) (Strand.still_wait (by decide)
    (Strand.still_hang (by decide)) nofun) (by decide)))
  have hrun := hsilence.tail (.inl (.first (.serve (.giveUp (Nat.le_refl 5000)))))
  exact ⟨by decide, by decide, by decide, _, _, hrun, .first (.serve (.go rfl)), rfl,
    no_working_hop_is_dropped (by decide) (by decide) (by decide) (Fin 2) chainLand _ (chain_fair _) 0 _ _ hrun
      (.first (.serve (.go rfl))), by decide +kernel, by decide +kernel, by decide +kernel⟩

theorem Fate.unjust {ι : Type} {land : Terrain ι} {w : World ι} {k j : ι} {p : Peer} {slot : Option Peer}
    (h : Fate land w k (some p) slot) (hchanged : slot ≠ some p) (hworks : p.id = land.place j)
    (hidle : ∀ f ∈ w.fronts, f.duty ≠ .own .fixFingers) : False := by
  cases h with
  | kept => exact hchanged rfl
  | dropped _ blamed same => exact blamed.strange j (same.symm.trans hworks)
  | refilled _ found =>
      obtain ⟨_, _, _, hfront, _⟩ := found
      exact hidle _ hfront rfl

/-- Whoever waits no time at all, or writes no report that names a peer, fails its callers though it works. -/
theorem working_hop_is_dropped : ¬ Blameless { patience := 0 } ∧ ¬ Blameless { maxMessageLength := 10 } := by
  refine ⟨fun h => ?_, fun h => ?_⟩
  · have hrun := (((chain_run { patience := 0 } 5050 1).tail (.inl (.first (.go rfl)))).tail
      (.inl (.first (.call rfl rfl)))).tail (.inl (.first (.expire (Nat.le_refl 0))))
    have hfate := h (Fin 2) chainLand _ (chain_fair _) 0 _ _ hrun (.first (.go rfl)) 0 11
    exact hfate.unjust (j := 1) (p := chain 1) (by decide +kernel) rfl
      (List.forall_mem_cons.mpr ⟨nofun, List.forall_mem_cons.mpr ⟨nofun, nofun⟩⟩)
  · have hrun := ((((chain_run { maxMessageLength := 10 } 5050 1).tail (.inl (.first (.go rfl)))).tail
      (.inl (.first (.call rfl rfl)))).tail (.inl (.first (.serve (.go rfl))))).tail
      (.inl (.first (.close (by rintro _ ⟨⟩ bytes; nofun))))
    have hfate := h (Fin 2) chainLand _ (chain_fair _) 0 _ _ hrun (.first (.go rfl)) 0 11
    exact hfate.unjust (j := 1) (p := chain 1) (by decide +kernel) rfl (List.forall_mem_cons.mpr ⟨nofun, nofun⟩)

end ChordOverlay.Timed
