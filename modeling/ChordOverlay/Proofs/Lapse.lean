import ChordOverlay.Proofs.Recovery

/-!
# How the last successor alive is lost

A member that has forgotten a stopped successor takes it over again when it is told of it by somebody who still has it
for a predecessor, and the walk that follows leaves nobody else in the list. Where nobody has a stopped predecessor any
more, no order of rounds leaves a member without a successor that is alive.
-/

namespace ChordOverlay

section Company

variable {ι : Type} {net : Net ι} {len : Nat} {σ : ι → Member} {j k : ι} {p : Peer}

/-! ## Lists with somebody alive in them -/

/-- Everybody has a successor that is alive, and nobody a predecessor that is not. -/
structure Backed (net : Net ι) (len : Nat) (σ : ι → Member) : Prop extends Society net len σ where
  kept : ∀ k, ∃ p ∈ (σ k).view.successors.peers, alive net p = true
  befores : ∀ k p, (σ k).view.predecessor = some p → alive net p = true

namespace Backed

theorem not_alone (h : Backed net len σ) (k : ι) : (σ k).view.isAlone = false := by
  obtain ⟨p, hp, _⟩ := h.kept k
  rw [Bool.eq_false_iff]
  exact fun halone => List.ne_nil_of_mem hp ((h.sound k).isAlone_iff.mp halone)

theorem successor_mem (h : Backed net len σ) (k : ι) : (σ k).view.successor ∈ (σ k).view.successors.peers := by
  obtain ⟨p, hp, _⟩ := h.kept k
  exact View.successor_mem (List.ne_nil_of_mem hp)

/-- Whoever hears anything has a successor that is alive, and hears of nobody who is not. -/
theorem alive_heard (h : Backed net len σ) {reported : Option Peer} (hheard : heard net σ k = some reported) :
    alive net (σ k).view.successor = true ∧ ∀ p, reported = some p → alive net p = true := by
  rw [heard, if_neg (by simp [h.not_alone k])] at hheard
  obtain ⟨j, hj, rfl⟩ := Option.map_eq_some_iff.mp hheard
  exact ⟨alive_iff.mpr ⟨j, hj⟩, h.befores j⟩

theorem exists_alive (h : Backed net len σ) (k : ι) : ∃ j, (σ j).self ∈ (σ k).view.successors.peers := by
  obtain ⟨p, hp, halive⟩ := h.kept k
  rcases h.successors k p hp with ⟨j, rfl⟩ | hlost
  · exact ⟨j, hp⟩
  · rw [alive, hlost.1] at halive
    cases halive

variable [DecidableEq ι]

theorem of_revise {v : View} (h : Backed net len σ) (hsociety : Society net len (revise σ k v))
    (hkept : ∃ p ∈ v.successors.peers, alive net p = true)
    (hbefore : ∀ p, v.predecessor = some p → alive net p = true) : Backed net len (revise σ k v) where
  toSociety := hsociety
  kept := fun j => by
    rcases revise_cases σ k v j with heq | ⟨rfl, heq⟩ <;> rw [heq]
    · exact h.kept j
    · exact hkept
  befores := fun j => by
    rcases revise_cases σ k v j with heq | ⟨rfl, heq⟩ <;> rw [heq]
    · exact h.befores j
    · exact hbefore

/-! ## Stabilization -/

theorem forget (h : Backed net len σ) (k : ι) (ps : List Peer)
    (hps : ∀ p ∈ ps, p ∈ (σ k).view.successors.peers ∧ alive net p = false) :
    Backed net len (revise σ k (ps.foldl View.erase (σ k).view)) := by
  obtain ⟨q, hq, halive⟩ := h.kept k
  have hapart : ∀ p ∈ ps, q.id ≠ p.id := fun p hp hid => by
    rw [(h.sound k).list.eq_of_id hq (hps p hp).1 hid, (hps p hp).2] at halive
    cases halive
  obtain ⟨hlist, hbefore⟩ := View.foldl_erase hq hapart
  have hleft : ∀ p, (ps.foldl View.erase (σ k).view).predecessor = some p → (σ k).view.predecessor = some p := by
    intro p hp
    rw [hbefore] at hp
    exact (Option.filter_eq_some_iff.mp hp).1
  refine h.of_revise (h.revise (View.evolves_foldl_erase ps _) (fun p hp => ?_) fun p hp => h.before k p (hleft p hp))
    ⟨q, ?_, halive⟩ fun p hp => h.befores k p (hleft p hp)
  · rw [hlist] at hp
    exact h.successors k p (List.mem_filter.mp hp).1
  · rw [hlist]
    exact List.mem_filter.mpr ⟨hq, List.all_eq_true.mpr fun p hp => by simpa using hapart p hp⟩

theorem adopt (h : Backed net len σ) {reported : Option Peer} (hheard : heard net σ k = some reported) :
    Backed net len (revise σ k ((σ k).view.stabilize reported).1) ∧
      alive net ((σ k).view.stabilize reported).1.successor = true := by
  obtain ⟨hsuccessor, hreported⟩ := h.alive_heard hheard
  have hsociety := h.toSociety.stabilize (k := k) (h.company.familiar_heard hheard)
  rcases (σ k).view.stabilize_cases reported with ⟨x, rfl, hadopts, heq⟩ | ⟨_, heq⟩
  · obtain ⟨hmem, hx⟩ := (h.sound k).successor_adopted hadopts
    refine ⟨h.of_revise hsociety ⟨x, hmem, hreported x rfl⟩ ?_, ?_⟩
    · rw [View.stabilize_predecessor]
      exact h.befores k
    · rw [hx]
      exact hreported x rfl
  · rw [heq] at hsociety ⊢
    exact ⟨h.of_revise hsociety (h.kept k) (h.befores k), hsuccessor⟩

theorem notified (h : Backed net len σ) (k : ι) : Backed net len (notified net σ k) := by
  have hsociety := h.toSociety.notified k
  unfold ChordOverlay.notified at hsociety ⊢
  split at hsociety
  · rename_i halone
    rw [if_pos halone]
    exact h
  · rename_i halone
    rw [if_neg halone]
    split at hsociety
    · exact h
    · rename_i j _
      refine h.of_revise hsociety ?_ fun p hp => ?_
      · rw [View.notify_successors]
        exact h.kept j
      · rcases View.notify_predecessor hp with rfl | hp
        · exact h.alive_self k
        · exact h.befores j p hp

theorem synced (h : Backed net len σ) (halive : alive net (σ k).view.successor = true) :
    Backed net len (synced net σ k) := by
  have hsociety := h.toSociety.synced k
  have hlist := (h.sound k).list
  rw [ChordOverlay.synced, if_neg (by simp [h.not_alone k]), h.setting k] at hsociety ⊢
  generalize hwalked : trail net σ (σ k).self.id (len - 1) (σ k).view.successor [(σ k).view.successor] = walked
    at hsociety ⊢
  have hfirst : (σ k).view.successor ∈ walked := by
    rw [← hwalked]
    exact mem_trail List.mem_cons_self
  have hfits : walked.length ≤ len := by
    have hroom := h.room k
    have := length_trail net σ (σ k).self.id (len - 1) (σ k).view.successor [(σ k).view.successor]
    rw [hwalked, List.length_singleton] at this
    omega
  have hapart : walked.Pairwise fun p q => p.id ≠ q.id := by
    rw [← hwalked]
    exact pairwise_trail (List.pairwise_singleton _ _)
  -- All that the walk has met fit into the list, the successor that it began with among them.
  have hkept : (σ k).view.successor ∈ ((σ k).view.successors.replace walked).peers :=
    Successors.mem_closest_of_apart hapart (by rwa [h.bound k]) hfirst (hlist.others _ (h.successor_mem k))
  have hsync : (σ k).view.syncSuccessors walked =
      { (σ k).view with successors := (σ k).view.successors.replace walked } := by
    cases walked with
    | nil => cases hfirst
    | cons q qs => rfl
  rw [hsync] at hsociety ⊢
  exact h.of_revise hsociety ⟨_, hkept, halive⟩ (h.befores k)

theorem stabilized (h : Backed net len σ) (k : ι) : Backed net len (stabilized net σ k) := by
  unfold ChordOverlay.stabilized
  cases hheard : heard net σ k with
  | none =>
      rw [heard, if_neg (by simp [h.not_alone k]), Option.map_eq_none_iff] at hheard
      refine h.forget k [(σ k).view.successor] fun p hp => ?_
      rw [List.mem_singleton.mp hp, alive, hheard]
      exact ⟨h.successor_mem k, rfl⟩
  | some reported =>
      obtain ⟨h₁, halive⟩ := h.adopt hheard
      refine (h₁.notified k).synced ?_
      have hsame : (ChordOverlay.notified net (revise σ k ((σ k).view.stabilize reported).1) k k).view.successor =
          ((σ k).view.stabilize reported).1.successor := by
        rw [View.successor, notified_successors, revise_at]
        rfl
      rwa [hsame]

/-! ## Checks -/

theorem checkedPredecessor_eq (h : Backed net len σ) (k : ι) : ChordOverlay.checkedPredecessor net σ k = σ := by
  unfold ChordOverlay.checkedPredecessor
  split
  · rfl
  · rename_i p hp
    exact if_pos (Or.inr (h.befores k p hp))

theorem checkedSuccessors (h : Backed net len σ) (k : ι) : Backed net len (checkedSuccessors net σ k) :=
  h.forget k _ fun p hp => by
    obtain ⟨hmem, hdead⟩ := List.mem_filter.mp hp
    exact ⟨hmem, by simpa using hdead⟩

theorem checkedSuccessors_self (net : Net ι) (σ : ι → Member) (k j : ι) :
    (ChordOverlay.checkedSuccessors net σ k j).self = (σ j).self :=
  revise_self (View.evolves_foldl_erase _ _).self j

/-- The rounds that keep a neighbourhood true. -/
def Upkeep : Operation → Prop
  | .stabilize | .checkPredecessor | .checkSuccessors => True
  | _ => False

theorem ends_upkeep (h : Backed net len σ) {o : Operation} (ho : Upkeep o) :
    World.Ends net (fun σ' => Backed net len σ' ∧ ∀ j, (σ' j).self = (σ j).self) ⟨σ, [.ofOperation k o (σ k)]⟩ := by
  cases o with
  | stabilize => exact h.ends_stabilize ⟨h.stabilized k, stabilized_self net σ k⟩
  | checkPredecessor =>
      refine h.ends_checkPredecessor ?_
      rw [h.checkedPredecessor_eq k]
      exact ⟨h, fun _ => rfl⟩
  | checkSuccessors => exact h.ends_checkSuccessors ⟨h.checkedSuccessors k, checkedSuccessors_self net σ k⟩
  | _ => exact ho.elim

theorem inTurn (h : Backed net len σ) {tasks : List (ι × Operation)} (htasks : ∀ task ∈ tasks, Upkeep task.2) :
    InTurn net (fun σ' => Backed net len σ' ∧ ∀ j, (σ' j).self = (σ j).self) tasks σ := by
  induction tasks generalizing σ with
  | nil => exact ⟨h, fun _ => rfl⟩
  | cons task tasks ih =>
      refine (h.ends_upkeep (htasks task List.mem_cons_self)).mono fun σ₁ h₁ => ?_
      refine (ih h₁.1 fun task' htask' => htasks task' (List.mem_cons_of_mem _ htask')).mono fun σ' h' => ?_
      exact ⟨h'.1, fun j => (h'.2 j).trans (h₁.2 j)⟩

end Backed

/-! ## The relapse -/

theorem trail_of_lost (hlost : net.reach p.address = none) (self : RingId) (n : Nat) (walked : List Peer) :
    trail net σ self n p walked = walked := by
  cases n with
  | zero => rfl
  | succ n => simp only [trail, hlost]

/-- The walk from a stopped peer leaves nobody else in the list. -/
theorem peers_synced (hv : (σ k).view.Sound) (hp : (σ k).view.successor = p) (hid : p.id ≠ (σ k).self.id)
    (hlost : net.reach p.address = none) [DecidableEq ι] : (synced net σ k k).view.successors.peers = [p] := by
  have halone : (σ k).view.isAlone = false := by
    rw [View.isAlone, decide_eq_false_iff_not, hp]
    exact hid
  rw [synced, if_neg (by simp [halone]), revise_at, hp, trail_of_lost hlost]
  refine Successors.closest_of_ordered (List.pairwise_singleton _ _) (fun q hq => ?_) hv.list.roomy
  rw [List.mem_singleton.mp hq, hv.list_owner]
  exact hid

theorem peers_of_adopted [DecidableEq ι] (h : Society net len σ) (hj : (σ k).view.successor = (σ j).self)
    (hp : (σ j).view.predecessor = some p) (hadopts : (σ k).view.adopts p = true)
    (hlost : net.reach p.address = none) : (stabilized net σ k k).view.successors.peers = [p] := by
  have hheard := heard_eq h.distinct h.reached hj
  have h₁ := h.stabilize (k := k) (h.company.familiar_heard hheard)
  rw [hp] at hheard h₁
  have hsuccessor : (revise σ k ((σ k).view.stabilize (some p)).1 k).view.successor = p := by
    rw [revise_at]
    exact ((h.sound k).successor_adopted hadopts).2
  have hid : p.id ≠ (revise σ k ((σ k).view.stabilize (some p)).1 k).self.id := by
    rw [revise_self (View.stabilize_self _ _)]
    exact of_decide_eq_true (Bool.and_eq_true_iff.mp hadopts).1
  -- The notice does not arrive, and the walk takes place all the same.
  have hnotified : notified net (revise σ k ((σ k).view.stabilize (some p)).1) k =
      revise σ k ((σ k).view.stabilize (some p)).1 := by
    unfold notified
    split
    · rfl
    · rw [hsuccessor, hlost]
  simp only [stabilized, hheard, hnotified]
  exact peers_synced (h₁.sound k) hsuccessor hid hlost

end Company

/-! ## Among the survivors -/

namespace Burst

variable {ι : Type} [Fintype ι] {live : ι → Prop} {net : Net {k // live k}} {len : Nat} {σ : ι → Member}
  {τ : {k // live k} → Member} {x y : ι} {k : {k // live k}}

/-- Where those who come after a stopped member have checked their predecessors, everybody is backed. -/
theorem backed (h : Burst live net len σ) (hτ : Checking net len σ τ)
    (hchecked : ∀ (k : {k // live k}) x, ¬ live x → Next σ x (σ k).self → Checked net σ τ (k, .checkPredecessor)) :
    Backed net len τ where
  toSociety := hτ.toSociety
  kept := fun k => by
    obtain ⟨j, hj, _⟩ := h.exists_first k
    have hmem : (σ j).self ∈ (σ k).view.successors.peers.filter (alive net) := List.mem_of_mem_head? (by rw [hj]; rfl)
    refine ⟨(σ j).self, ?_, (List.mem_filter.mp hmem).2⟩
    rcases hτ.lists k with heq | heq <;> rw [heq]
    · exact (List.mem_filter.mp hmem).1
    · exact hmem
  befores := fun k p hp => by
    obtain ⟨x, hx, hnext⟩ := h.ring.before k
    by_cases hlive : live x
    · rcases hτ.befores k with heq | heq <;> rw [heq, hx] at hp
      · cases hp
        exact h.alive_self.mpr hlive
      · exact (Option.filter_eq_some_iff.mp hp).2
    · have hbefore : (τ k).view.predecessor = _ := hchecked k x hlive hnext
      rw [hbefore] at hp
      exact (Option.filter_eq_some_iff.mp hp).2

/--
Members of a true ring stop at once. After checks in which whoever comes after a stopped one checks its predecessor, no
rounds of the survivors, in whatever order, leave any of them without a survivor in its list.
-/
theorem survivor_stays_listed [DecidableEq ι] (h : Burst live net len σ)
    {checks rounds : List ({k // live k} × Operation)}
    (honly : ∀ task ∈ checks, task.2 = .checkPredecessor ∨ task.2 = .checkSuccessors)
    (hchecks : ∀ (k : {k // live k}) x, ¬ live x → Next σ x (σ k).self → (k, .checkPredecessor) ∈ checks)
    (hrounds : ∀ task ∈ rounds, Backed.Upkeep task.2) :
    InTurn net (fun τ => ∀ k, ∃ j : {k // live k}, (σ j).self ∈ (τ k).view.successors.peers) (checks ++ rounds)
      fun k => σ k := by
  refine InTurn.append (InTurn.all (Checking net len σ) (Checked net σ)
    (fun task htask τ hτ => h.ends_check hτ (honly task htask)) h.checking fun τ hτ hgood _ => ?_)
  have hbacked := h.backed hτ fun k x hx hnext => hgood _ (hchecks k x hx hnext)
  refine (hbacked.inTurn hrounds).mono fun τ' h' k => ?_
  obtain ⟨j, hj⟩ := h'.1.exists_alive k
  rw [h'.2 j, hτ.self j] at hj
  exact ⟨j, hj⟩

/-- The fourth member has checked its predecessor, and the second one may stabilize as often as it likes. -/
theorem survivor_stays_listed_four : Burst Left leftNet 3 Settled.fourMembers ∧
    InTurn leftNet (fun τ => ∀ k, ∃ j : {k // Left k}, (Settled.fourMembers j).self ∈ (τ k).view.successors.peers)
      ([(⟨3, by decide⟩, .checkPredecessor)] ++ [(⟨1, by decide⟩, .stabilize), (⟨1, by decide⟩, .stabilize)])
      fun k => Settled.fourMembers k := by
  refine ⟨burst_four, burst_four.survivor_stays_listed (by simp) (fun k x hx hnext => ?_) (by simp [Backed.Upkeep])⟩
  obtain rfl : x = 2 := Fin.ext (not_not.mp hx)
  have hnext' : Next Settled.fourMembers 2 (Settled.fourMembers 3).self := burst_four.ring.next 2
  have hk : k = ⟨3, by decide⟩ := Subtype.ext (hnext.unique burst_four.ring.distinct hnext')
  rw [hk]
  exact List.mem_cons_self

theorem list_two (h : Burst live net len σ) (hlen : 2 ≤ len) {k : ι} (hx : Next σ k (σ x).self)
    (hy : Next σ x (σ y).self) (hxk : x ≠ k) (hyk : y ≠ k) :
    ∃ ps, (σ k).view.successors.peers = (σ x).self :: (σ y).self :: ps := by
  have hids := h.ring.distinct
  have hgap := gap_next hids hxk hy
  have hlt := gap_lt hids hyk
  obtain ⟨js, hrow, hpeers⟩ := h.ring.list k
  have hlength := h.ring.length k
  rw [hpeers, List.length_map] at hlength
  match js, hrow with
  | [], _ => simp at hlength; omega
  | [_], _ => simp at hlength; omega
  | i :: j :: js, hrow =>
      obtain ⟨hi, hrow⟩ := List.isChain_cons_cons.mp hrow
      obtain rfl := hi.unique hids hx
      obtain rfl := (List.isChain_cons_cons.mp hrow).1.unique hids hy
      exact ⟨_, hpeers⟩

variable [DecidableEq ι]

/-- A member whose successor has stopped forgets it, and has the one after that for its successor. -/
theorem forgets (h : Burst live net len σ) (hlen : 2 ≤ len) (hx : Next σ k (σ x).self) (hy : Next σ x (σ y).self)
    (hdead : ¬ live x) (hyk : y ≠ k) : ∃ v,
      stabilized net (fun k : {k // live k} => σ k) k = revise (fun k : {k // live k} => σ k) k v ∧
        Society net len (revise (fun k : {k // live k} => σ k) k v) ∧ v.self = (σ k).self ∧ v.successor = (σ y).self := by
  have hids := h.ring.distinct
  have hxk : x ≠ k := by
    rintro rfl
    exact hdead k.2
  have hxy : (σ y).self.id ≠ (σ x).self.id := fun hid => by
    obtain rfl := hids _ _ hid
    exact hyk (hy.2.1 rfl k).symm
  obtain ⟨ps, hpeers⟩ := h.list_two hlen hx hy hxk hyk
  have hsuccessor : (σ k).view.successor = (σ x).self := by simp [View.successor, Successors.nearest, hpeers]
  have herase := View.erase_of_mem (v := (σ k).view) (p := (σ x).self) (q := (σ y).self) (by simp [hpeers]) hxy
  refine ⟨(σ k).view.erase (σ x).self, ?_, ?_, View.erase_self _ _, ?_⟩
  · have hheard : heard net (fun k : {k // live k} => σ k) k = none := by
      have halone : (σ k).view.isAlone = false := by
        rw [View.isAlone, decide_eq_false_iff_not, hsuccessor]
        exact fun hid => hxk (hids _ _ hid)
      rw [heard, if_neg (by simp [halone]), hsuccessor, (h.silent x hdead).1]
      rfl
    simp only [stabilized, hheard, hsuccessor]
  · have hsociety := h.checking.toSociety
    refine hsociety.revise (.apply _ (.erase (σ x).self)) (fun p hp => ?_) fun p hp => ?_ <;> rw [herase] at hp
    · exact hsociety.successors k p (List.mem_filter.mp hp).1
    · exact hsociety.before k p (Option.filter_eq_some_iff.mp hp).1
  · rw [herase]
    simp [View.successor, Successors.nearest, Successors.erase, hpeers, hxy]

/--
The member before a stopped one forgets it in one round, and in the next it hears of it again and adopts it. The walk it
takes then ends where it begins, and its list names nobody else any more.
-/
theorem relapses (h : Burst live net len σ) (hlen : 2 ≤ len) (hx : Next σ k (σ x).self) (hy : Next σ x (σ y).self)
    (hdead : ¬ live x) (hlive : live y) (hyk : y ≠ k) :
    InTurn net (fun τ => (τ k).view.successors.peers = [(σ x).self]) [(k, .stabilize), (k, .stabilize)] fun k => σ k := by
  have hids := h.ring.distinct
  obtain ⟨v, hfirst, hsociety, hself, hsuccessor⟩ := h.forgets hlen hx hy hdead hyk
  refine h.checking.toSociety.ends_stabilize ?_
  rw [hfirst]
  refine hsociety.ends_stabilize ?_
  have hy' : revise (fun k : {k // live k} => σ k) k v ⟨y, hlive⟩ = σ y :=
    revise_of_ne fun heq => hyk (congrArg Subtype.val heq)
  -- The member after the stopped one has not checked its predecessor, and still reports it.
  refine peers_of_adopted hsociety (j := ⟨y, hlive⟩) ?_ ?_ ?_ (h.silent x hdead).1
  · rw [hy', revise_at]
    exact hsuccessor
  · rw [hy']
    obtain ⟨i, hi, hnext⟩ := h.ring.before y
    rwa [hnext.previous_unique hids hy] at hi
  · have hxk : x ≠ k := by
      rintro rfl
      exact hdead k.2
    have hxy := mem_between.mp (hy.mem_between hids hxk)
    rw [span_of_ne hids hyk] at hxy
    rw [revise_at, View.adopts_iff_between, hself, hsuccessor]
    · exact hxy
    · rw [hself, hsuccessor]
      exact fun hid => hyk (hids _ _ hid)

/-- The second member before the third, which has stopped. -/
theorem relapses_four : InTurn leftNet (fun τ => (τ ⟨1, by decide⟩).view.successors.peers = [Ideal.four 2])
    [(⟨1, by decide⟩, .stabilize), (⟨1, by decide⟩, .stabilize)] fun k => Settled.fourMembers k := by
  have hnext : ∀ k, Next Settled.fourMembers k (Settled.fourMembers k).view.successor := burst_four.ring.next
  exact burst_four.relapses (x := 2) (y := 3) (by decide) (hnext 1) (hnext 2) (by decide) (by decide) (by decide)

end Burst

end ChordOverlay
