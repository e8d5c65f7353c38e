import ChordOverlay.Proofs.Alignment
import ChordOverlay.Proofs.Alone
import ChordOverlay.Proofs.HopBound

/-!
# What a round leaves

Members that answer at once, among peers that are either such members or gone for good. What one of them does with
nobody else at work then depends on nothing but their views, and is given here as a function of them.
-/

namespace ChordOverlay

variable {ι : Type} {net : Net ι} {len : Nat} {σ : ι → Member} {j k : ι} {p : Peer} {v : View}

/-! ## The company of members -/

/-- A peer that is a member or gone. -/
def Familiar (net : Net ι) (σ : ι → Member) (p : Peer) : Prop := (∃ j, p = (σ j).self) ∨ Activity.Lost net p.address

/-- Members that answer each other, and whose successors and predecessors are such members or gone. -/
structure Company (net : Net ι) (σ : ι → Member) : Prop where
  joined : ∀ k, (σ k).phase = .joined
  sound : ∀ k, (σ k).view.Sound
  reached : ∀ k, net.reach (σ k).self.address = some k
  answered : ∀ k e, ¬ net.fails (σ k).self.address e
  seen : ∀ k, net.source k = (σ k).self.ip
  successor : ∀ k, Familiar net σ (σ k).view.successor
  before : ∀ k p, (σ k).view.predecessor = some p → Familiar net σ p

/-- Members of one ring that answer each other, and that know nobody but each other and peers that are gone. -/
structure Society (net : Net ι) (len : Nat) (σ : ι → Member) : Prop where
  distinct : Distinct σ
  joined : ∀ k, (σ k).phase = .joined
  sound : ∀ k, (σ k).view.Sound
  bound : ∀ k, (σ k).view.successors.bound = len
  setting : ∀ k, max 1 (σ k).settings.successorListLength = len
  reached : ∀ k, net.reach (σ k).self.address = some k
  answered : ∀ k e, ¬ net.fails (σ k).self.address e
  seen : ∀ k, net.source k = (σ k).self.ip
  successors : ∀ k, ∀ p ∈ (σ k).view.successors.peers, Familiar net σ p
  before : ∀ k p, (σ k).view.predecessor = some p → Familiar net σ p

theorem Society.room (h : Society net len σ) (k : ι) : 0 < len := by
  have := h.setting k
  omega

theorem Society.successor (h : Society net len σ) (k : ι) : Familiar net σ (σ k).view.successor := by
  by_cases hnil : (σ k).view.successors.peers = []
  · rw [View.successor, Successors.nearest_nil hnil, (h.sound k).list_owner]
    exact Or.inl ⟨k, rfl⟩
  · exact h.successors k _ (View.successor_mem hnil)

theorem Society.company (h : Society net len σ) : Company net σ :=
  ⟨h.joined, h.sound, h.reached, h.answered, h.seen, h.successor, h.before⟩

/-! ## One member changes its view -/

variable [DecidableEq ι]

/-- All members as they were, but for the view of one. -/
def revise (σ : ι → Member) (k : ι) (v : View) : ι → Member := Function.update σ k { σ k with view := v }

theorem revise_at (σ : ι → Member) (k : ι) (v : View) : revise σ k v k = { σ k with view := v } :=
  Function.update_self _ _ _

theorem revise_of_ne (h : j ≠ k) : revise σ k v j = σ j := Function.update_of_ne h _ _

theorem revise_view (σ : ι → Member) (k : ι) : revise σ k (σ k).view = σ := Function.update_eq_self k σ

theorem revise_cases (σ : ι → Member) (k : ι) (v : View) (j : ι) :
    revise σ k v j = σ j ∨ j = k ∧ revise σ k v j = { σ j with view := v } := by
  by_cases hjk : j = k
  · subst hjk
    exact Or.inr ⟨rfl, revise_at _ _ _⟩
  · exact Or.inl (revise_of_ne hjk)

theorem revise_self (h : v.self = (σ k).self) (j : ι) : (revise σ k v j).self = (σ j).self := by
  rcases revise_cases σ k v j with heq | ⟨rfl, heq⟩ <;> rw [heq]
  exact h

theorem familiar_revise (h : v.self = (σ k).self) : Familiar net (revise σ k v) p ↔ Familiar net σ p := by
  simp only [Familiar, revise_self h]

theorem Company.revise (h : Company net σ) (hv : (σ k).view.Evolves v) (hsuccessor : Familiar net σ v.successor)
    (hbefore : ∀ p, v.predecessor = some p → Familiar net σ p) : Company net (revise σ k v) := by
  have hself : ∀ j, (ChordOverlay.revise σ k v j).self = (σ j).self := revise_self hv.self
  have hcases := revise_cases σ k v
  constructor
  case joined =>
    intro j
    rcases hcases j with heq | ⟨_, heq⟩ <;> rw [heq] <;> exact h.joined j
  case sound =>
    intro j
    rcases hcases j with heq | ⟨rfl, heq⟩ <;> rw [heq]
    · exact h.sound j
    · exact hv.sound (h.sound j)
  case reached =>
    intro j
    rw [hself]
    exact h.reached j
  case answered =>
    intro j
    rw [hself]
    exact h.answered j
  case seen =>
    intro j
    rw [hself]
    exact h.seen j
  case successor =>
    intro j
    rw [familiar_revise hv.self]
    rcases hcases j with heq | ⟨_, heq⟩ <;> rw [heq]
    · exact h.successor j
    · exact hsuccessor
  case before =>
    intro j
    simp only [familiar_revise hv.self]
    rcases hcases j with heq | ⟨_, heq⟩ <;> rw [heq]
    · exact h.before j
    · exact hbefore

/-- Whoever goes on with what it knows leaves the company as it is. -/
theorem Society.revise (h : Society net len σ) (hv : (σ k).view.Evolves v)
    (hlist : ∀ p ∈ v.successors.peers, Familiar net σ p) (hbefore : ∀ p, v.predecessor = some p → Familiar net σ p) :
    Society net len (revise σ k v) := by
  have hself : ∀ j, (ChordOverlay.revise σ k v j).self = (σ j).self := revise_self hv.self
  have hsuccessor : Familiar net σ v.successor := by
    by_cases hnil : v.successors.peers = []
    · rw [View.successor, Successors.nearest_nil hnil, (hv.sound (h.sound k)).list_owner, hv.self]
      exact Or.inl ⟨k, rfl⟩
    · exact hlist _ (View.successor_mem hnil)
  obtain ⟨joined, sound, reached, answered, seen, _, before⟩ := h.company.revise hv hsuccessor hbefore
  have hcases := revise_cases σ k v
  refine ⟨fun i j => ?_, joined, sound, fun j => ?_, fun j => ?_, reached, answered, seen, fun j => ?_, before⟩
  · rw [hself, hself]
    exact h.distinct i j
  · rcases hcases j with heq | ⟨rfl, heq⟩ <;> rw [heq]
    · exact h.bound j
    · exact hv.bound.trans (h.bound j)
  · rcases hcases j with heq | ⟨_, heq⟩ <;> rw [heq] <;> exact h.setting j
  · simp only [familiar_revise hv.self]
    rcases hcases j with heq | ⟨_, heq⟩ <;> rw [heq]
    · exact h.successors j
    · exact hlist

namespace Company

theorem notify (h : Company net σ) (hp : Familiar net σ p) :
    Company net (ChordOverlay.revise σ k ((σ k).view.notify p).1) := by
  refine h.revise (.apply _ (.notify p)) ?_ fun q hq => ?_
  · rw [View.successor, View.notify_successors]
    exact h.successor k
  · rcases View.notify_predecessor hq with rfl | hq
    · exact hp
    · exact h.before k q hq

theorem stabilize (h : Company net σ) {reported : Option Peer} (hp : ∀ p, reported = some p → Familiar net σ p) :
    Company net (ChordOverlay.revise σ k ((σ k).view.stabilize reported).1) := by
  refine h.revise (.apply _ (.stabilize reported)) ?_ ?_
  · rcases (σ k).view.stabilize_cases reported with ⟨x, rfl, hadopts, heq⟩ | ⟨_, heq⟩
    · rw [((h.sound k).successor_adopted hadopts).2]
      exact hp x rfl
    · rw [heq]
      exact h.successor k
  · rw [View.stabilize_predecessor]
    exact h.before k

end Company

namespace Society

theorem notify (h : Society net len σ) (hp : Familiar net σ p) :
    Society net len (ChordOverlay.revise σ k ((σ k).view.notify p).1) := by
  refine h.revise (.apply _ (.notify p)) ?_ fun q hq => ?_
  · rw [View.notify_successors]
    exact h.successors k
  · rcases View.notify_predecessor hq with rfl | hq
    · exact hp
    · exact h.before k q hq

theorem stabilize (h : Society net len σ) {reported : Option Peer} (hp : ∀ p, reported = some p → Familiar net σ p) :
    Society net len (ChordOverlay.revise σ k ((σ k).view.stabilize reported).1) := by
  refine h.revise (.apply _ (.stabilize reported)) (fun q hq => ?_) ?_
  · rcases View.mem_stabilize hq with hq | hq
    · exact hp q hq
    · exact h.successors k q hq
  · rw [View.stabilize_predecessor]
    exact h.before k

theorem syncSuccessors (h : Society net len σ) {walked : List Peer} (hwalked : ∀ p ∈ walked, Familiar net σ p) :
    Society net len (ChordOverlay.revise σ k ((σ k).view.syncSuccessors walked)) := by
  refine h.revise (.apply _ (.syncSuccessors walked)) ?_ ?_ <;> unfold View.syncSuccessors <;> split
  · exact h.successors k
  · exact fun q hq => hwalked q (Successors.mem_replace hq)
  · exact h.before k
  · exact h.before k

end Society

/-! ## Stabilization -/

/-- What a member hears of the predecessor of its successor, if that answers. -/
def heard (net : Net ι) (σ : ι → Member) (k : ι) : Option (Option Peer) :=
  if (σ k).view.isAlone then some (σ k).view.predecessor
  else (net.reach (σ k).view.successor.address).map fun j => (σ j).view.predecessor

omit [DecidableEq ι] in
theorem heard_eq (hids : Distinct σ) (hreach : ∀ k, net.reach (σ k).self.address = some k)
    (hj : (σ k).view.successor = (σ j).self) : heard net σ k = some (σ j).view.predecessor := by
  unfold heard
  split
  · rename_i halone
    have hid := of_decide_eq_true halone
    rw [hj] at hid
    rw [hids j k hid]
  · rw [hj, hreach j]
    rfl

/-- After a member has notified its successor. -/
def notified (net : Net ι) (σ : ι → Member) (k : ι) : ι → Member :=
  if (σ k).view.isAlone then σ
  else
    match net.reach (σ k).view.successor.address with
    | none => σ
    | some j => revise σ j ((σ j).view.notify (σ k).self).1

/-- After a member has walked along the ring. -/
def synced (net : Net ι) (σ : ι → Member) (k : ι) : ι → Member :=
  if (σ k).view.isAlone then σ
  else
    revise σ k ((σ k).view.syncSuccessors (trail net σ (σ k).self.id
      (max 1 (σ k).settings.successorListLength - 1) (σ k).view.successor [(σ k).view.successor]))

/-- After a whole round of stabilization. -/
def stabilized (net : Net ι) (σ : ι → Member) (k : ι) : ι → Member :=
  match heard net σ k with
  | none => revise σ k ((σ k).view.erase (σ k).view.successor)
  | some reported => synced net (notified net (revise σ k ((σ k).view.stabilize reported).1) k) k

/-- A notice changes nothing but a predecessor. -/
theorem notified_frame (net : Net ι) (σ : ι → Member) (k j : ι) : notified net σ k j =
    { σ j with view := { (σ j).view with predecessor := (notified net σ k j).view.predecessor } } := by
  unfold notified
  split
  · rfl
  · cases net.reach (σ k).view.successor.address with
    | none => rfl
    | some i =>
        simp only
        rcases revise_cases σ i ((σ i).view.notify (σ k).self).1 j with heq | ⟨rfl, heq⟩ <;> rw [heq]
        rcases (σ j).view.notify_cases (σ k).self with ⟨_, _, hview⟩ | ⟨_, hview⟩ <;> simp only [hview]

theorem notified_self (net : Net ι) (σ : ι → Member) (k j : ι) : (notified net σ k j).self = (σ j).self :=
  congrArg (fun m => m.view.self) (notified_frame net σ k j)

theorem notified_successors (net : Net ι) (σ : ι → Member) (k j : ι) :
    (notified net σ k j).view.successors = (σ j).view.successors :=
  congrArg (fun m => m.view.successors) (notified_frame net σ k j)

theorem synced_of_ne (h : j ≠ k) : synced net σ k j = σ j := by
  unfold synced
  split
  · rfl
  · exact revise_of_ne h

/-- A walk changes nothing but a successor list. -/
theorem synced_frame (net : Net ι) (σ : ι → Member) (k j : ι) : synced net σ k j =
    { σ j with view := { (σ j).view with successors := (synced net σ k j).view.successors } } := by
  by_cases hjk : j = k
  · subst hjk
    unfold synced
    split
    · rfl
    · rw [revise_at]
      simp only [View.syncSuccessors]
      split <;> rfl
  · rw [synced_of_ne hjk]

theorem synced_self (net : Net ι) (σ : ι → Member) (k j : ι) : (synced net σ k j).self = (σ j).self :=
  congrArg (fun m => m.view.self) (synced_frame net σ k j)

theorem synced_predecessor (net : Net ι) (σ : ι → Member) (k j : ι) :
    (synced net σ k j).view.predecessor = (σ j).view.predecessor :=
  congrArg (fun m => m.view.predecessor) (synced_frame net σ k j)

theorem stabilized_self (net : Net ι) (σ : ι → Member) (k j : ι) : (stabilized net σ k j).self = (σ j).self := by
  unfold stabilized
  cases heard net σ k with
  | none => exact revise_self (View.erase_self _ _) j
  | some reported => exact (synced_self _ _ _ _).trans ((notified_self _ _ _ _).trans (revise_self (View.stabilize_self _ _) j))

namespace Company

open Activity

variable {host : ι}

theorem answered_predecessor (h : Company net σ) (host j : ι) (asker : RingId) :
    Answered net σ host (σ j).self.address (.predecessor asker) σ (.ok (σ j).view.predecessor) :=
  ⟨j, .predecessorReport (σ j).view.predecessor, σ j, h.reached j, h.answered j, rfl,
    (Function.update_eq_self j σ).symm, rfl⟩

theorem answered_alive (h : Company net σ) (host j : ι) :
    Answered net σ host (σ j).self.address .alive σ (.ok true) :=
  ⟨j, .aliveReport true, σ j, h.reached j, h.answered j, rfl, (Function.update_eq_self j σ).symm, rfl⟩

theorem answered_owner (h : Company net σ) (host j : ι) :
    Answered net σ host (σ j).self.address (.owner ((σ j).self.id.advance 1) 0) σ (.ok (some (σ j).view.successor)) := by
  refine ⟨j, .lookupReport (some (σ j).view.successor), σ j, h.reached j, h.answered j, ?_,
    (Function.update_eq_self j σ).symm, rfl⟩
  exact proceed_lookup_found _ (h.joined j) (h.sound j).findSuccessor_behind

theorem answered_notify (h : Company net σ) (host j : ι) :
    ∃ r, Answered net σ host (σ j).self.address (.notify (σ host).self.id (σ host).self.port)
      (ChordOverlay.revise σ j ((σ j).view.notify (σ host).self).1) r := by
  refine ⟨_, j, .noticeReport ((σ j).view.notify (σ host).self).2, _, h.reached j, h.answered j, ?_, rfl, rfl⟩
  change proceed (ite _ _ _) (σ j) = _
  rw [if_pos (h.joined j), h.seen host]
  rfl

/-! ## Alone at work -/

variable {α : Type} {post : (ι → Member) → α → Prop}

/-- A question to a familiar peer is answered by the member that it is, or it fails. -/
theorem alone_query (h : Company net σ) (hp : Familiar net σ p) {q : Query} {f : Except Failure q.Answer → Activity α}
    (hanswered : ∀ j, p = (σ j).self → net.reach p.address = some j →
      ∃ σ' r, Answered net σ host p.address q σ' r ∧ (f r).Alone net host post σ')
    (hlost : net.reach p.address = none → ∀ e, (f (.error e)).Alone net host post σ) :
    (query p.address q >>= f).Alone net host post σ := by
  rcases hp with ⟨j, rfl⟩ | hp
  · exact Or.inl (hanswered j rfl (h.reached j))
  · exact Or.inr ⟨hp, fun e _ => hlost hp.1 e⟩

theorem alone_walk (h : Company net σ) (hp : Familiar net σ p) (self : RingId) (n : Nat) (walked : List Peer) :
    (walk self n p walked).Alone net host (fun σ' qs => σ' = σ ∧ qs = trail net σ self n p walked) σ := by
  induction n generalizing p walked with
  | zero => exact ⟨rfl, rfl⟩
  | succ n ih =>
      refine h.alone_query hp (fun j hj hreach => ?_) fun hreach e => ?_
      · subst hj
        refine ⟨σ, _, h.answered_owner host j, ?_⟩
        simp only [trail, hreach]
        split
        · exact ih (h.successor j) _
        · exact ⟨rfl, rfl⟩
      · simp only [trail, hreach]
        exact ⟨rfl, rfl⟩

theorem alone_syncSuccessors (h : Company net σ) :
    Activity.syncSuccessors.Alone net k (fun σ' _ => σ' = ChordOverlay.synced net σ k) σ := by
  refine alone_look.mpr ?_
  unfold ChordOverlay.synced
  by_cases halone : (σ k).view.successor.id = (σ k).self.id
  · rw [if_pos (show (σ k).view.isAlone = true from decide_eq_true halone)]
    change Alone net k _ (ite _ _ _) σ
    rw [if_pos halone]
    rfl
  · rw [if_neg (show ¬ (σ k).view.isAlone = true from fun h => halone (of_decide_eq_true h))]
    change Alone net k _ (ite _ _ _) σ
    rw [if_neg halone]
    refine Alone.bind ((h.alone_walk (h.successor k) _ _ _).mono ?_)
    rintro σ' walked ⟨rfl, rfl⟩
    rfl

theorem alone_askPredecessor (h : Company net σ) :
    (askPredecessor (σ k)).Alone net k (fun σ' r => σ' = σ ∧
      match heard net σ k with
      | none => ∃ e, r = .error e
      | some reported => r = .ok reported) σ := by
  unfold askPredecessor heard
  by_cases halone : (σ k).view.successor.id = (σ k).self.id
  · rw [if_pos (show (σ k).view.isAlone = true from decide_eq_true halone), if_pos halone]
    exact ⟨rfl, rfl⟩
  · rw [if_neg (show ¬ (σ k).view.isAlone = true from fun h => halone (of_decide_eq_true h)), if_neg halone]
    refine h.alone_query (f := .done) (h.successor k) (fun j hj hreach => ?_) fun hreach e => ?_
    · rw [hreach, hj]
      exact ⟨σ, _, h.answered_predecessor k j _, rfl, rfl⟩
    · rw [hreach]
      exact ⟨rfl, e, rfl⟩

omit [DecidableEq ι] in
theorem familiar_heard (h : Company net σ) {reported : Option Peer} (hheard : heard net σ k = some reported) :
    ∀ p, reported = some p → Familiar net σ p := by
  rintro p rfl
  unfold heard at hheard
  split at hheard
  · exact h.before k p (Option.some.inj hheard)
  · obtain ⟨j, _, hj⟩ := Option.map_eq_some_iff.mp hheard
    exact h.before j p hj

/-- The end of a round of stabilization: the notice, if there is anybody to notify, and the walk. -/
theorem alone_conclude (h : Company net σ) (decision : Decision) :
    (decision = if (σ k).view.isAlone then .nothing else .contact (σ k).view.successor (.notify (σ k).self)) →
    Alone net k
      (fun σ' (_ : Except Failure Unit) => σ' = ChordOverlay.synced net (ChordOverlay.notified net σ k) k)
      (match decision with
        | .nothing => do
          Activity.syncSuccessors
          pure (.ok ())
        | .contact target (.notify me) => do
          let _ ← query target.address (.notify me.id me.port)
          Activity.syncSuccessors
          pure (.ok ())
        | decision => pure (.error (.unexpectedDecision decision))) σ := by
  intro hdecision
  unfold ChordOverlay.notified
  cases halone : (σ k).view.isAlone with
  | true =>
      obtain rfl : decision = .nothing := by simpa [halone] using hdecision
      exact Alone.bind h.alone_syncSuccessors
  | false =>
      obtain rfl : decision = .contact (σ k).view.successor (.notify (σ k).self) := by simpa [halone] using hdecision
      refine h.alone_query (h.successor k) (fun j hj hreach => ?_) fun hreach e => ?_
      · obtain ⟨r, hr⟩ := h.answered_notify k j
        simp only [hreach]
        rw [hj]
        exact ⟨_, r, hr, Alone.bind (h.notify (Or.inl ⟨k, rfl⟩)).alone_syncSuccessors⟩
      · simp only [hreach]
        exact Alone.bind h.alone_syncSuccessors

theorem alone_stabilize (h : Company net σ) :
    Activity.stabilize.Alone net k (fun σ' _ => σ' = ChordOverlay.stabilized net σ k) σ := by
  refine alone_look.mpr (Alone.bind (h.alone_askPredecessor.mono ?_))
  rintro σ' r ⟨rfl, hr⟩
  unfold ChordOverlay.stabilized
  cases hheard : heard net σ' k with
  | none =>
      rw [hheard] at hr
      obtain ⟨e, rfl⟩ := hr
      rfl
  | some reported =>
      rw [hheard] at hr
      obtain rfl := hr
      have h₁ := h.stabilize (k := k) (h.familiar_heard hheard)
      refine alone_look.mpr (alone_store.mpr (h₁.alone_conclude _ ?_))
      rw [revise_self (View.stabilize_self _ _), revise_at]
      exact (σ' k).view.stabilize_decision reported

theorem ends_stabilize (h : Company net σ) {post : (ι → Member) → Prop}
    (hpost : post (ChordOverlay.stabilized net σ k)) :
    World.Ends net post ⟨σ, [.ofOperation k .stabilize (σ k)]⟩ :=
  World.ends_of_alone rfl (h.alone_stabilize.mono fun _ _ heq => heq ▸ hpost)

end Company

namespace Society

theorem synced (h : Society net len σ) (k : ι) : Society net len (ChordOverlay.synced net σ k) := by
  unfold ChordOverlay.synced
  split
  · exact h
  · refine h.syncSuccessors (forall_trail h.successor fun q hq => ?_)
    rw [List.mem_singleton.mp hq]
    exact h.successor k

theorem notified (h : Society net len σ) (k : ι) : Society net len (ChordOverlay.notified net σ k) := by
  unfold ChordOverlay.notified
  split
  · exact h
  · split
    · exact h
    · exact h.notify (Or.inl ⟨k, rfl⟩)

/-- A member whose successor answers goes on among the same company. -/
theorem stabilized (h : Society net len σ) {reported : Option Peer} (hheard : heard net σ k = some reported) :
    Society net len (ChordOverlay.stabilized net σ k) := by
  rw [ChordOverlay.stabilized, hheard]
  exact ((h.stabilize (h.company.familiar_heard hheard)).notified k).synced k

theorem ends_stabilize (h : Society net len σ) {post : (ι → Member) → Prop}
    (hpost : post (ChordOverlay.stabilized net σ k)) :
    World.Ends net post ⟨σ, [.ofOperation k .stabilize (σ k)]⟩ :=
  h.company.ends_stabilize hpost

end Society

/-! ## Liveness checks -/

/-- Whether anybody is reached at the address of `p`. -/
def alive (net : Net ι) (p : Peer) : Bool := (net.reach p.address).isSome

omit [DecidableEq ι] in
theorem alive_iff : alive net p = true ↔ ∃ j, net.reach p.address = some j := Option.isSome_iff_exists

omit [DecidableEq ι] in
theorem Society.alive_self (h : Society net len σ) (k : ι) : alive net (σ k).self = true :=
  alive_iff.mpr ⟨k, h.reached k⟩

/-- What becomes of the members when `k` checks its predecessor. -/
def checkedPredecessor (net : Net ι) (σ : ι → Member) (k : ι) : ι → Member :=
  match (σ k).view.predecessor with
  | none => σ
  | some p =>
    if p.id = (σ k).self.id ∨ alive net p = true then σ else revise σ k ((σ k).view.clearPredecessorIf p).1

/-- What becomes of the members when `k` checks its successors. -/
def checkedSuccessors (net : Net ι) (σ : ι → Member) (k : ι) : ι → Member :=
  revise σ k (((σ k).view.successors.peers.filter fun p => !alive net p).foldl View.erase (σ k).view)

theorem Gathering.finish_checkSuccessors (m : Member) (f : Peer → Bool) (v : View) :
    (Gathering.checkSuccessors m).finish (m.view.successors.peers.map f) v =
      (m.view.successors.peers.filter fun p => !f p).foldl View.erase v := by
  simp only [Gathering.checkSuccessors]
  generalize m.view.successors.peers = ps
  induction ps generalizing v with
  | nil => rfl
  | cons p ps ih => cases hp : f p <;> simp [hp, ih]

namespace Society

open Activity

theorem alone_ping (h : Society net len σ) (hp : Familiar net σ p) :
    (ping p.address).Alone net host (fun σ' r => σ' = σ ∧ r = alive net p) σ := by
  unfold alive
  refine h.company.alone_query (q := .alive) hp (fun j hj hreach => ?_) fun hreach e => ?_
  · rw [hreach, hj]
    exact ⟨σ, _, h.company.answered_alive host j, rfl, rfl⟩
  · rw [hreach]
    exact ⟨rfl, rfl⟩

theorem alone_checkPredecessor (h : Society net len σ) :
    Activity.checkPredecessor.Alone net k (fun σ' _ => σ' = ChordOverlay.checkedPredecessor net σ k) σ := by
  refine alone_look.mpr ?_
  unfold ChordOverlay.checkedPredecessor
  cases hbefore : (σ k).view.predecessor with
  | none => rfl
  | some p =>
      change Alone net k _ (ite _ _ _) σ
      simp only
      by_cases hself : p.id = (σ k).self.id
      · rw [if_pos hself, if_pos (Or.inl hself)]
        rfl
      rw [if_neg hself]
      refine Alone.bind ((h.alone_ping (h.before k p hbefore)).mono ?_)
      rintro σ' r ⟨rfl, rfl⟩
      cases halive : alive net p with
      | true => exact (if_pos (Or.inr rfl)).symm
      | false =>
          rw [if_neg (by simp [hself])]
          rfl

/-- All successors are pinged side by side. -/
theorem rests_pings (h : Society net len σ) {ps : List Peer} (hps : ∀ p ∈ ps, Familiar net σ p) :
    ∃ n, Front.Rests (d := .own .checkSuccessors) net σ n (ps.map fun p => .run k (ping p.address)) (ps.map (alive net)) := by
  induction ps with
  | nil => exact ⟨0, .nil⟩
  | cons p ps ih =>
      obtain ⟨n, hrests⟩ := ih fun q hq => hps q (List.mem_cons_of_mem _ hq)
      have hfirst : Strand.Rests (d := .own .checkSuccessors) net σ (alive net p) 2 (.run k (ping p.address)) := by
        unfold alive
        rcases hps p List.mem_cons_self with ⟨j, rfl⟩ | hlost
        · rw [h.reached j]
          exact .call (m := 0) (n := 0) (h.reached j) (h.answered j) .done .done
        · rw [hlost.1]
          exact .refuse hlost fun e => .done
      exact ⟨_, .cons hfirst hrests⟩

theorem ends_checkPredecessor (h : Society net len σ) {post : (ι → Member) → Prop}
    (hpost : post (checkedPredecessor net σ k)) : World.Ends net post ⟨σ, [.ofOperation k .checkPredecessor (σ k)]⟩ :=
  World.ends_of_alone rfl (h.alone_checkPredecessor.mono fun _ _ heq => heq ▸ hpost)

theorem ends_checkSuccessors (h : Society net len σ) {post : (ι → Member) → Prop}
    (hpost : post (checkedSuccessors net σ k)) : World.Ends net post ⟨σ, [.ofOperation k .checkSuccessors (σ k)]⟩ := by
  obtain ⟨n, hrests⟩ := h.rests_pings (k := k) (h.successors k)
  have hfront : Front.ofOperation k .checkSuccessors (σ k) =
      ⟨k, .own .checkSuccessors, (σ k).view.successors.peers.map fun p => .run k (ping p.address),
        (Gathering.checkSuccessors (σ k)).finish⟩ := by
    rw [Front.ofOperation, Operation.gathering, Gathering.checkSuccessors, List.map_map]
    rfl
  rw [hfront]
  refine World.ends_of_jobs hrests ?_
  rw [Gathering.finish_checkSuccessors]
  exact hpost

end Society

end ChordOverlay
