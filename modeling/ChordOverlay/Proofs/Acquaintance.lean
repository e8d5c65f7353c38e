import ChordOverlay.Proofs.Evolution
import ChordOverlay.Proofs.Unity

/-!
# Whom members know

Without failures, and with everybody seen where it says it is, members hear of nobody but each other. Whatever they
do side by side, each peer in a list and each predecessor is one of them.
-/

namespace ChordOverlay

namespace Acquaintance

variable {ι : Type} {n₀ k : ι} {fresh σ : ι → Member} {m : Member} {v : View} {id : RingId} {p : Peer}

/-- The peer is one of the members, as they have been from the beginning. -/
def Known (fresh : ι → Member) (p : Peer) : Prop := ∃ j, p = (fresh j).self

/-- What `m` has to satisfy to stand for member `k`; the creator of the ring never forgets its predecessor. -/
structure Knows (n₀ : ι) (fresh : ι → Member) (k : ι) (m : Member) : Prop where
  grown : (fresh k).Evolves m
  sound : m.view.Sound
  peers : ∀ p ∈ m.view.successors.peers, Known fresh p
  before : ∀ p, m.view.predecessor = some p → Known fresh p
  founded : k = n₀ → m.phase = .joined → m.view.predecessor ≠ none

namespace Knows

theorem self (h : Knows n₀ fresh k m) : m.view.self = (fresh k).self := h.grown.self

theorem successor (h : Knows n₀ fresh k m) : Known fresh m.view.successor := by
  by_cases hnil : m.view.successors.peers = []
  · rw [View.successor, Successors.nearest_nil hnil, h.sound.list_owner]
    exact ⟨k, h.self⟩
  · exact h.peers _ (View.successor_mem hnil)

theorem found (h : Knows n₀ fresh k m) (hfound : m.view.findSuccessor id = .found p) : Known fresh p := by
  rcases h.sound.of_found hfound with ⟨_, rfl⟩ | ⟨_, rfl, _⟩
  · exact ⟨k, h.self⟩
  · exact h.successor

theorem phase (h : Knows n₀ fresh k m) (phase : Phase) (rounds : List Round)
    (hfounded : k = n₀ → phase = .joined → m.view.predecessor ≠ none) : Knows n₀ fresh k { m with phase, rounds } :=
  { h with
    grown := h.grown.trans (.phase m phase rounds)
    founded := hfounded }

/-- The member goes on with what it knew and heard of. -/
theorem view (h : Knows n₀ fresh k m) (hv : m.view.Evolves v) (hlist : ∀ p ∈ v.successors.peers, Known fresh p)
    (hbefore : ∀ p, v.predecessor = some p → Known fresh p) (hkept : v.predecessor = none → m.view.predecessor = none) :
    Knows n₀ fresh k { m with view := v } where
  grown := h.grown.trans ⟨hv, rfl⟩
  sound := hv.sound h.sound
  peers := hlist
  before := hbefore
  founded := fun hk hjoined hnone => h.founded hk hjoined (hkept hnone)

theorem notify (h : Knows n₀ fresh k m) (hp : Known fresh p) :
    Knows n₀ fresh k { m with view := (m.view.notify p).1 } := by
  refine h.view (.apply _ (.notify p)) ?_ ?_ ?_ <;>
    rcases m.view.notify_cases p with ⟨_, _, heq⟩ | ⟨_, heq⟩ <;> rw [heq]
  · exact h.peers
  · exact h.peers
  · rintro q ⟨⟩
    exact hp
  · exact h.before
  · nofun
  · exact id

theorem stabilize (h : Knows n₀ fresh k m) {reported : Option Peer} (hp : ∀ p, reported = some p → Known fresh p) :
    Knows n₀ fresh k { m with view := (m.view.stabilize reported).1 } := by
  refine h.view (.apply _ (.stabilize reported)) (fun q hq => ?_) ?_ ?_
  · rcases View.mem_stabilize hq with hq | hq
    · exact hp q hq
    · exact h.peers q hq
  · rw [View.stabilize_predecessor]
    exact h.before
  · rw [View.stabilize_predecessor]
    exact id

theorem syncSuccessors (h : Knows n₀ fresh k m) {walked : List Peer} (hwalked : ∀ q ∈ walked, Known fresh q) :
    Knows n₀ fresh k { m with view := m.view.syncSuccessors walked } := by
  refine h.view (.apply _ (.syncSuccessors walked)) ?_ ?_ ?_ <;> unfold View.syncSuccessors <;> split
  · exact h.peers
  · exact fun q hq => hwalked q (Successors.mem_replace hq)
  · exact h.before
  · exact h.before
  · exact id
  · exact id

theorem join (h : Knows n₀ fresh k m) (hp : Known fresh p) : Knows n₀ fresh k { m with view := (m.view.join p).1 } := by
  refine h.view (.apply _ (.join p)) ?_ ?_ ?_ <;> unfold View.join <;> split
  · exact h.peers
  · intro q hq
    rcases Successors.mem_insert hq with rfl | hq
    · exact hp
    · exact h.peers q hq
  · exact h.before
  · exact h.before
  · exact id
  · exact id

theorem fingers (h : Knows n₀ fresh k m) (fingers : Fingers) (hv : m.view.Evolves { m.view with fingers }) :
    Knows n₀ fresh k { m with view.fingers := fingers } :=
  h.view hv h.peers h.before id

theorem create (h : Knows n₀ fresh k m) (phase : Phase) (rounds : List Round) :
    Knows n₀ fresh k { m with phase, rounds, view := m.view.create } where
  grown := (h.grown.trans (.apply m .create)).trans (.phase _ phase rounds)
  sound := h.sound.create
  peers := fun q hq => by cases Successors.mem_replace hq
  before := fun p hp => by
    cases hp
    exact ⟨k, h.self⟩
  founded := fun _ _ => Option.some_ne_none _

end Knows

/-- Every member knows nobody but members. -/
def Acquainted (n₀ : ι) (fresh σ : ι → Member) : Prop := ∀ k, Knows n₀ fresh k (σ k)

theorem acquainted_fresh (n₀ : ι) (self : ι → Peer) (settings : ι → Settings) :
    Acquainted n₀ (fun k => .fresh (self k) (settings k)) fun k => .fresh (self k) (settings k) := fun _ => {
  grown := .refl _
  sound := .fresh _ _
  peers := nofun
  before := nofun
  founded := fun _ hphase => by cases hphase }

variable [DecidableEq ι]

theorem Acquainted.store (h : Acquainted n₀ fresh σ) (hm : Knows n₀ fresh k m) :
    Acquainted n₀ fresh (Function.update σ k m) :=
  (Function.forall_update_iff σ fun j m => Knows n₀ fresh j m).mpr ⟨hm, fun j _ => h j⟩

/-! ## The pact -/

/-- A notice is about the member that gives it. -/
def Asks (fresh : ι → Member) (k : ι) : Query → Prop
  | .notify id port => id = (fresh k).self.id ∧ port = (fresh k).self.port
  | _ => True

/-- Every request is answered, and whoever an answer names is a member. -/
def Answers (fresh : ι → Member) : (q : Query) → Except Failure q.Answer → Prop
  | .owner _ _, .ok (some p) => Known fresh p
  | .predecessor _, .ok (some p) => Known fresh p
  | .alive, .ok alive => alive = true
  | _, .ok _ => True
  | _, .error _ => False

/-- Members ask with their own names only, and are answered with those of members. -/
def pact (n₀ : ι) (fresh : ι → Member) : Pact ι where
  given _ := True
  inv := Acquainted n₀ fresh
  moves _ _ := True
  asks _ _ k _ q := Asks fresh k q
  answers _ := Answers fresh
  yields _ := Unity.Yields

variable {d : Duty} {ttl : UInt8}

theorem finds {post : (ι → Member) → Except Failure Peer → Prop} (hok : ∀ σ p, Known fresh p → post σ (.ok p))
    (herror : ∀ σ e, post σ (.error e)) : (pact n₀ fresh).Finds d k id ttl (fun _ => True) post where
  stable := fun _ _ _ => trivial
  found := fun hi _ hfound => hok _ _ ((hi k).found hfound)
  contact := fun _ _ _ _ _ => trivial
  answer := fun _ hr => hok _ _ hr
  failure := fun e _ => herror _ e
  drop := fun x hi _ => ⟨trivial, hi.store ((hi k).fingers _ (.apply _ (.eraseFinger x)))⟩

theorem keeps_lookup {post : (ι → Member) → Except Failure Peer → Prop} (h : Acquainted n₀ fresh σ)
    (hok : ∀ σ p, Known fresh p → post σ (.ok p)) (herror : ∀ σ e, post σ (.error e)) :
    (Activity.lookup id ttl).Keeps (pact n₀ fresh) d k post σ :=
  Activity.keeps_lookup (finds hok herror) h fun _ => trivial

theorem keeps_answer (h : Acquainted n₀ fresh σ) {q : Query} {j : ι} {source : Ipv4}
    (hsource : source = (fresh j).self.ip) (hq : Asks fresh j q) :
    (Activity.answer source q.request).Keeps (pact n₀ fresh) (.serve q) k ((pact n₀ fresh).results · (.serve q)) σ := by
  cases q with
  | owner id ttl =>
      refine Activity.Keeps.bind (keeps_lookup h (fun σ p hp => ?_) fun σ e => ?_)
      · exact hp
      · trivial
  | predecessor asker =>
      refine Activity.keeps_look.mpr ?_
      change Answers fresh (.predecessor asker) (.ok (σ k).view.predecessor)
      cases hb : (σ k).view.predecessor with
      | none => trivial
      | some p => exact (h k).before p hb
  | alive => exact rfl
  | notify id port =>
      refine Activity.keeps_look.mpr ?_
      split
      · obtain ⟨rfl, rfl⟩ := hq
        exact ⟨trivial, h.store ((h k).notify ⟨j, by rw [hsource]⟩), trivial⟩
      · trivial

/-! ## The operations of a member -/

omit [DecidableEq ι] in
/-- A walk meets only members. -/
theorem walks : (pact n₀ fresh).Walks d k fun _ => Known fresh where
  refl := fun _ => trivial
  trans := fun _ _ => trivial
  asks := trivial
  stays := fun hp _ => hp
  meets := id

theorem keeps_syncSuccessors {post : (ι → Member) → Unit → Prop} (h : Acquainted n₀ fresh σ) (hpost : ∀ σ, post σ ()) :
    Activity.syncSuccessors.Keeps (pact n₀ fresh) d k post σ := by
  refine Activity.keeps_look.mpr ?_
  change Activity.Keeps (pact n₀ fresh) d k post (ite _ _ _) σ
  split
  · exact hpost σ
  · refine Activity.Keeps.bind (Activity.keeps_walk walks h (fun q hq => ?_) fun σ' qs _ hi hqs _ => ?_)
    · rw [List.mem_singleton.mp hq]
      exact (h k).successor
    · exact ⟨trivial, hi.store ((hi k).syncSuccessors hqs), hpost _⟩

theorem keeps_askPredecessor {post : (ι → Member) → Except Failure (Option Peer) → Prop} (h : Acquainted n₀ fresh σ)
    (hpost : ∀ σ' reported, Acquainted n₀ fresh σ' → (∀ p, reported = some p → Known fresh p) → post σ' (.ok reported)) :
    (Activity.askPredecessor (σ k)).Keeps (pact n₀ fresh) d k post σ := by
  change Activity.Keeps (pact n₀ fresh) d k post (ite _ _ _) σ
  split
  · exact hpost σ _ h (h k).before
  · refine ⟨fun _ => trivial, fun σ' r _ hi hr => ?_⟩
    cases r with
    | error e => exact hr.elim
    | ok reported =>
        refine hpost σ' reported hi fun p hp => ?_
        subst hp
        exact hr

theorem keeps_stabilize {post : (ι → Member) → Except Failure Unit → Prop} (h : Acquainted n₀ fresh σ)
    (hpost : ∀ σ r, post σ r) : Activity.stabilize.Keeps (pact n₀ fresh) d k post σ := by
  refine Activity.keeps_look.mpr (Activity.Keeps.bind (keeps_askPredecessor h fun σ' reported hi hknown => ?_))
  refine Activity.keeps_look.mpr ?_
  have hknows := (hi k).stabilize hknown
  have hend : ∀ σ, Acquainted n₀ fresh σ → Activity.Keeps (pact n₀ fresh) d k post
      (Activity.syncSuccessors >>= fun _ => pure (.ok ())) σ :=
    fun σ hi => Activity.Keeps.bind (keeps_syncSuccessors hi fun _ => hpost _ _)
  have hdecision := (σ' k).view.stabilize_decision reported
  cases hstab : (σ' k).view.stabilize reported with
  | mk view decision =>
      rw [hstab] at hknows hdecision
      have hi' := hi.store hknows
      refine Activity.keeps_store.mpr ⟨trivial, hi', ?_⟩
      cases halone : view.isAlone with
      | true =>
          obtain rfl : decision = .nothing := by simpa [halone] using hdecision
          exact hend _ hi'
      | false =>
          -- Whomever it has just taken for its successor, it gives notice of nobody but itself.
          obtain rfl : decision = .contact view.successor (.notify (σ' k).view.self) := by
            simpa [halone] using hdecision
          have hself : (σ' k).view.self = (fresh k).self := (hi k).self
          exact Activity.keeps_query.mpr ⟨fun _ => by simp only [pact, Asks, hself, and_self],
            fun σ'' _ _ hi'' _ => hend σ'' hi''⟩

theorem keeps_joinVia {bootstrap : Address} {post : (ι → Member) → Except Failure Peer → Prop}
    (hpost : ∀ σ r, Acquainted n₀ fresh σ → post σ r) :
    (Activity.joinVia bootstrap).Keeps (pact n₀ fresh) d k post σ := by
  refine Activity.keeps_look.mpr (Activity.keeps_query.mpr ⟨fun _ => trivial, fun σ' r _ hi hr => ?_⟩)
  cases r with
  | error e => exact hr.elim
  | ok p =>
      cases p with
      | none => exact hpost σ' _ hi
      | some p =>
          change Activity.Keeps (pact n₀ fresh) d k post (ite _ _ _) σ'
          split
          · exact hpost σ' _ hi
          · refine Activity.keeps_look.mpr ?_
            have hknows := (hi k).join hr
            have hself : (σ' k).view.self = (fresh k).self := (hi k).self
            unfold View.join at hknows ⊢
            split at hknows
            · rename_i hid
              rw [if_pos hid]
              exact ⟨trivial, hi.store hknows, hpost _ _ (hi.store hknows)⟩
            · rename_i hid
              rw [if_neg hid]
              refine Activity.keeps_store.mpr ⟨trivial, hi.store hknows, Activity.keeps_query.mpr
                ⟨fun _ => by simp only [pact, Asks, hself, and_self], fun σ'' _ _ hi'' _ => hpost σ'' _ hi''⟩⟩

/-- Only the creator has a predecessor from the beginning on. -/
theorem keeps_join {bootstrap : Address} {post : (ι → Member) → Except Failure Peer → Prop} (h : Acquainted n₀ fresh σ)
    (hk : k ≠ n₀) (hpost : ∀ σ r, post σ r) : (Activity.join bootstrap).Keeps (pact n₀ fresh) d k post σ := by
  have hphase : ∀ {σ}, Acquainted n₀ fresh σ → ∀ phase rounds,
      Acquainted n₀ fresh (Function.update σ k { σ k with phase, rounds }) :=
    fun hi phase rounds => hi.store ((hi k).phase phase rounds fun hk₀ => absurd hk₀ hk)
  refine Activity.keeps_look.mpr ?_
  cases htransition : (σ k).transition .created .joining with
  | error e => exact hpost σ _
  | ok m =>
      obtain rfl := Unity.transition_eq_ok htransition
      refine Activity.keeps_store.mpr ⟨trivial, hphase h .joining _, Activity.Keeps.bind (keeps_joinVia fun σ' r hi => ?_)⟩
      cases r with
      | ok p =>
          refine Activity.keeps_look.mpr ?_
          cases htransition' : (σ' k).transition .joining .joined with
          | error e => exact hpost σ' _
          | ok m =>
              obtain rfl := Unity.transition_eq_ok htransition'
              exact ⟨trivial, hphase hi .joined _, hpost _ _⟩
      | error e =>
          refine Activity.keeps_look.mpr ?_
          cases htransition' : (σ' k).transition .joining .created with
          | error e => exact hpost σ' _
          | ok m =>
              obtain rfl := Unity.transition_eq_ok htransition'
              exact ⟨trivial, hphase hi .created _, hpost _ _⟩

theorem keeps_create {post : (ι → Member) → Except Failure Unit → Prop} (h : Acquainted n₀ fresh σ)
    (hpost : ∀ σ r, post σ r) : Activity.create.Keeps (pact n₀ fresh) d k post σ := by
  refine Activity.keeps_look.mpr ?_
  unfold Member.create
  cases htransition : (σ k).transition .created .joined with
  | error e => exact hpost σ _
  | ok m =>
      obtain rfl := Unity.transition_eq_ok htransition
      exact ⟨trivial, h.store ((h k).create .joined _), hpost _ _⟩

omit [DecidableEq ι] in
theorem knows_finish (h : Acquainted n₀ fresh σ) {o : Operation} (m : Member) {results : List o.Result}
    (hresults : ∀ r ∈ results, Unity.Yields o r) :
    Knows n₀ fresh k { σ k with view := (o.gathering m).finish results (σ k).view } := by
  cases o with
  | fixFingers =>
      have hevolves := Operation.evolves_finish .fixFingers m results (σ k).view
      obtain ⟨fingers, _, _, heq⟩ := Gathering.fixFingers_finish m results (h k).sound
      change Knows n₀ fresh k { σ k with view := (Gathering.fixFingers m).finish results (σ k).view }
      change (σ k).view.Evolves ((Gathering.fixFingers m).finish results (σ k).view) at hevolves
      rw [heq] at hevolves ⊢
      exact (h k).fingers fingers hevolves
  | checkSuccessors =>
      change Knows n₀ fresh k { σ k with view := (Gathering.checkSuccessors m).finish results (σ k).view }
      rw [Gathering.checkSuccessors_finish m hresults]
      exact h k
  | _ => exact h k

omit [DecidableEq ι] in
theorem Answers.alive {r : Except Failure Bool} (h : Answers fresh .alive r) : r = .ok true := by
  cases r with
  | error e => exact h.elim
  | ok alive => exact congrArg Except.ok h

theorem tended (n₀ : ι) (fresh : ι → Member) : Unity.Tended (pact n₀ fresh) n₀ where
  alive := Answers.alive
  asks := trivial
  yields := id
  create := keeps_create
  join := keeps_join
  lookup := fun hi hpost => keeps_lookup hi (fun σ _ _ => hpost σ _) fun σ _ => hpost σ _
  stabilize := keeps_stabilize
  syncSuccessors := fun hi hpost => keeps_syncSuccessors hi fun σ => hpost σ ()

theorem kept {net : Net ι} (hnet : ∀ target e, ¬ net.fails target e) (hseen : ∀ k, net.source k = (fresh k).self.ip) :
    (pact n₀ fresh).Kept net (Unity.May n₀) where
  refl := fun _ => trivial
  trans := fun _ _ => trivial
  asks_mono := fun hq _ _ => hq
  answers_mono := fun hr _ _ => hr
  yields_mono := fun hr _ _ => hr
  fails := fun hfails => absurd hfails (hnet _ _)
  serve := fun {_ _ host _ _ _} hi hq _ => keeps_answer hi (hseen host) hq
  start := fun {σ host _} hmay _ a ha _ _ hi => (tended n₀ fresh).jobs hmay hi (σ host) a ha
  finish := fun {σ host _} _ _ _ _ _ hi' hrs => ⟨trivial, hi'.store (knows_finish hi' (σ host) hrs)⟩

/-- After any run without failures all members know each other and nobody else. -/
theorem acquainted_run {net : Net ι} (hnet : ∀ target e, ¬ net.fails target e) {self : ι → Peer}
    {settings : ι → Settings} (hseen : ∀ k, net.source k = (self k).ip) {w : World ι}
    (hrun : World.Run net (Unity.May n₀) (fun _ => True) (.idle fun k => .fresh (self k) (settings k)) w) :
    Acquainted n₀ (fun k => .fresh (self k) (settings k)) w.members := by
  obtain ⟨_, hkeeps, _⟩ := World.Run.keeps (P := pact n₀ fun k => .fresh (self k) (settings k)) (kept hnet hseen) hrun
    ⟨acquainted_fresh n₀ self settings, nofun⟩ trivial
  exact hkeeps.1

end Acquaintance

end ChordOverlay
