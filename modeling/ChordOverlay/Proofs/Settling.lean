import ChordOverlay.Proofs.Rounds

/-!
# From true successors to a true ring

Once every member has its true successor, one round of stabilization of each makes the rest true as well: it is
made known to its successor, and the walk that it takes meets the members in their order.
-/

namespace ChordOverlay

variable {ι : Type} {net : Net ι} {len : Nat} {σ σ' : ι → Member} {i j k : ι} {p : Peer}

/-- A company in which all successors are true, and no predecessor is wrong though it may be unknown. -/
structure Headed (net : Net ι) (len : Nat) (σ : ι → Member) : Prop extends Society net len σ where
  next : ∀ k, Next σ k (σ k).view.successor
  none_wrong : ∀ k p, (σ k).view.predecessor = some p → ∃ j, p = (σ j).self ∧ Next σ j (σ k).self
  founded : ∀ k, (∀ j, j = k) → (σ k).view.predecessor ≠ none

/-- The member after `k` knows it for its predecessor. -/
def Met (σ : ι → Member) (k : ι) : Prop :=
  ∀ i, Next σ k (σ i).self → (σ i).view.predecessor = some (σ k).self

/-- The list of `k` is true, and its successor knows it. -/
def Trued [Fintype ι] (len : Nat) (σ : ι → Member) (k : ι) : Prop :=
  (Following σ k (σ k).view.successors.peers ∧ (σ k).view.successors.peers.length = min len (Fintype.card ι - 1)) ∧ Met σ k

theorem next_congr (hself : ∀ k, (σ' k).self = (σ k).self) : Next σ' k p ↔ Next σ k p := by
  simp only [Next, hself]

theorem following_congr (hself : ∀ k, (σ' k).self = (σ k).self) {ps : List Peer} : Following σ' k ps ↔ Following σ k ps := by
  simp only [Following, Row, next_congr hself, hself]

theorem Met.congr (h : Met σ k) (hself : ∀ k, (σ' k).self = (σ k).self)
    (hbefore : ∀ i, (σ' i).view.predecessor = (σ i).view.predecessor) : Met σ' k := by
  intro i hi
  rw [next_congr hself, hself] at hi
  rw [hbefore, hself]
  exact h i hi

/-- The notice of the member right before it is taken by everybody who knows only members. -/
theorem Next.notify_eq [Fintype ι] (hids : Distinct σ) (hnext : Next σ k (σ j).self) (hjk : j ≠ k)
    (hmember : ∀ p, (σ j).view.predecessor = some p → ∃ i, p = (σ i).self) :
    ((σ j).view.notify (σ k).self).1 = { (σ j).view with predecessor := some (σ k).self } := by
  have hid : (σ k).self.id ≠ (σ j).view.self.id := fun hid => hjk (hids _ _ hid).symm
  rcases (σ j).view.notify_cases (σ k).self with ⟨_, _, heq⟩ | ⟨hprefers, heq⟩
  · exact heq
  · refine absurd (hprefers hid) ?_
    rw [Bool.not_eq_false, View.prefers_iff]
    intro p hp
    obtain ⟨i, rfl⟩ := hmember p hp
    by_cases hij : i = j
    · exact Or.inl (by rw [hij]; rfl)
    by_cases hik : i = k
    · exact Or.inr (Or.inl (by rw [hik]))
    · -- From anybody else on, `k` is passed last before `j`.
      have hmem := ChordOverlay.mem_between.mp (hnext.mem_between hids (Ne.symm hik))
      rw [span_of_ne hids (Ne.symm hij)] at hmem
      exact Or.inr (Or.inr hmem)

theorem Society.next_of_list [Fintype ι] (h : Society net len σ) (hlist : Following σ k (σ k).view.successors.peers)
    (hlength : (σ k).view.successors.peers.length = min len (Fintype.card ι - 1)) : Next σ k (σ k).view.successor := by
  obtain ⟨js, hrow, hpeers⟩ := hlist
  rw [hpeers, List.length_map] at hlength
  rw [View.successor, Successors.nearest, hpeers]
  cases js with
  | nil =>
      have hroom := h.room k
      simp only [List.length_nil] at hlength
      have hself : (σ k).view.successors.owner = (σ k).self := (h.sound k).list_owner
      change Next σ k (σ k).view.successors.owner
      rw [hself, ← gap_eq_zero h.distinct, gap_self h.distinct]
      omega
  | cons j js => exact (List.isChain_cons_cons.mp hrow).1

namespace Headed

theorem ring (h : Headed net len σ) : Ring σ := ⟨h.joined, h.distinct, h.sound, h.next⟩

theorem exists_next (h : Headed net len σ) (k : ι) : ∃ j, (σ k).view.successor = (σ j).self ∧ Next σ k (σ j).self := by
  have hnext := h.next k
  obtain ⟨j, hj⟩ := hnext.1
  exact ⟨j, hj, hj ▸ hnext⟩

theorem only_of_alone (h : Headed net len σ) (halone : (σ k).view.isAlone = true) (j : ι) : j = k := by
  have hnext := h.next k
  rw [(h.sound k).successor_of_alone halone] at hnext
  exact hnext.2.1 rfl j

variable [Fintype ι]

theorem aligned (h : Headed net len σ) (htrued : ∀ k, Trued len σ k) : Aligned len σ where
  toRing := h.ring
  bound := h.bound
  setting := h.setting
  list := fun k => (htrued k).1.1
  length := fun k => (htrued k).1.2
  before := fun k => by
    obtain ⟨j, hj⟩ := exists_previous h.distinct k
    exact ⟨j, (htrued j).2 k hj, hj⟩

theorem heard_eq (h : Headed net len σ) (k : ι) : heard net σ k = some none ∨ heard net σ k = some (some (σ k).self) := by
  unfold heard
  cases halone : (σ k).view.isAlone with
  | true =>
      rw [if_pos rfl]
      cases hbefore : (σ k).view.predecessor with
      | none => exact Or.inl rfl
      | some p =>
          obtain ⟨j, rfl, _⟩ := h.none_wrong k p hbefore
          rw [h.only_of_alone halone j]
          exact Or.inr rfl
  | false =>
      obtain ⟨j, hj, hnext⟩ := h.exists_next k
      rw [if_neg (by simp), hj, h.reached j]
      cases hbefore : (σ j).view.predecessor with
      | none => exact Or.inl (congrArg some hbefore)
      | some p =>
          obtain ⟨i, rfl, hi⟩ := h.none_wrong j p hbefore
          rw [hi.previous_unique h.distinct hnext] at hbefore
          exact Or.inr (congrArg some hbefore)

variable [DecidableEq ι]

theorem stabilized_eq (h : Headed net len σ) (k : ι) : stabilized net σ k = synced net (notified net σ k) k := by
  rcases h.heard_eq k with hheard | hheard <;> simp only [stabilized, hheard]
  · change ChordOverlay.synced net (ChordOverlay.notified net (revise σ k (σ k).view) k) k = _
    rw [revise_view]
  · rw [View.stabilize_of_self (p := (σ k).self) rfl, revise_view]

/-! ## The notice -/

omit [Fintype ι] in
theorem notified_of_next (h : Headed net len σ) (halone : (σ k).view.isAlone = false)
    (hj : (σ k).view.successor = (σ j).self) : notified net σ k = revise σ j ((σ j).view.notify (σ k).self).1 ∧ j ≠ k := by
  constructor
  · rw [notified, if_neg (by simp [halone]), hj, h.reached j]
  · rintro rfl
    rw [View.isAlone, decide_eq_false_iff_not] at halone
    exact halone (congrArg Peer.id hj)

theorem notified_at (h : Headed net len σ) (hnext : Next σ k (σ i).self) : notified net σ k i =
    { σ i with view := { (σ i).view with predecessor := some (σ k).self } } := by
  cases halone : (σ k).view.isAlone with
  | true =>
      -- Nobody gives notice to itself, and it need not: whoever is the only member has known itself before.
      obtain rfl := h.only_of_alone halone i
      rw [notified, if_pos halone]
      cases hbefore : (σ i).view.predecessor with
      | none => exact absurd hbefore (h.founded i (h.only_of_alone halone))
      | some p =>
          obtain ⟨j, rfl, _⟩ := h.none_wrong i p hbefore
          rw [h.only_of_alone halone j] at hbefore
          rw [← hbefore]
  | false =>
      obtain ⟨j, hj, hnext'⟩ := h.exists_next k
      obtain rfl := hnext.unique h.distinct hnext'
      obtain ⟨heq, hik⟩ := h.notified_of_next halone hj
      have hmember : ∀ p, (σ i).view.predecessor = some p → ∃ j, p = (σ j).self := fun p hp => by
        obtain ⟨j, rfl, _⟩ := h.none_wrong i p hp
        exact ⟨j, rfl⟩
      rw [heq, revise_at, hnext.notify_eq h.distinct hik hmember]

omit [Fintype ι] in
theorem notified_of_not (h : Headed net len σ) (hnot : ¬ Next σ k (σ i).self) : notified net σ k i = σ i := by
  cases halone : (σ k).view.isAlone with
  | true => rw [notified, if_pos halone]
  | false =>
      obtain ⟨j, hj, hnext⟩ := h.exists_next k
      rw [(h.notified_of_next halone hj).1]
      refine revise_of_ne ?_
      rintro rfl
      exact hnot hnext

/-- Every predecessor is what it was, or is made true. -/
theorem notified_predecessor (h : Headed net len σ) (k i : ι) :
    (notified net σ k i).view.predecessor = (σ i).view.predecessor ∨
      Next σ k (σ i).self ∧ (notified net σ k i).view.predecessor = some (σ k).self := by
  by_cases hnext : Next σ k (σ i).self
  · exact Or.inr ⟨hnext, by rw [h.notified_at hnext]⟩
  · exact Or.inl (by rw [h.notified_of_not hnext])

theorem notified (h : Headed net len σ) (k : ι) : Headed net len (notified net σ k) where
  toSociety := h.toSociety.notified k
  next := fun i => by
    rw [next_congr (notified_self net σ k)]
    have hsuccessor : (ChordOverlay.notified net σ k i).view.successor = (σ i).view.successor :=
      congrArg Successors.nearest (notified_successors net σ k i)
    rw [hsuccessor]
    exact h.next i
  none_wrong := fun i p hp => by
    simp only [notified_self, next_congr (notified_self net σ k)]
    rcases h.notified_predecessor k i with heq | ⟨hnext, heq⟩ <;> rw [heq] at hp
    · exact h.none_wrong i p hp
    · cases hp
      exact ⟨k, rfl, hnext⟩
  founded := fun i honly => by
    rcases h.notified_predecessor k i with heq | ⟨_, heq⟩ <;> rw [heq]
    · exact h.founded i honly
    · simp

/-! ## The walk -/

theorem synced_list (h : Headed net len σ) (k : ι) : Following σ k (synced net σ k k).view.successors.peers ∧
    (synced net σ k k).view.successors.peers.length = min len (Fintype.card ι - 1) := by
  cases halone : (σ k).view.isAlone with
  | true =>
      have hnext := h.next k
      rw [(h.sound k).successor_of_alone halone] at hnext
      have hcard := (gap_eq_zero h.distinct).mpr hnext
      rw [gap_self h.distinct] at hcard
      rw [synced, if_pos halone, (h.sound k).isAlone_iff.mp halone, hcard]
      exact ⟨⟨[], .singleton k, rfl⟩, (Nat.min_zero len).symm⟩
  | false =>
      have hother : (σ k).view.successor.id ≠ (σ k).self.id := of_decide_eq_false halone
      obtain ⟨js, hrow, hlength, htrail, hview⟩ :=
        h.ring.exists_synced h.reached ((h.bound k).trans (h.setting k).symm) hother
      have hpeers : (synced net σ k k).view.successors.peers = js.map fun j => (σ j).self := by
        rw [synced, if_neg (by simp [halone]), revise_at, htrail, hview]
      rw [hpeers]
      exact ⟨⟨js, hrow, rfl⟩, by rw [List.length_map, hlength, h.setting k]⟩

theorem synced (h : Headed net len σ) (k : ι) : Headed net len (synced net σ k) where
  toSociety := h.toSociety.synced k
  next := fun i => by
    rw [next_congr (synced_self net σ k)]
    by_cases hik : i = k
    · subst hik
      have hlist := h.synced_list i
      have hnext := (h.toSociety.synced i).next_of_list
        ((following_congr (synced_self net σ i)).mpr hlist.1) hlist.2
      rwa [next_congr (synced_self net σ i)] at hnext
    · rw [synced_of_ne hik]
      exact h.next i
  none_wrong := fun i p hp => by
    rw [synced_predecessor] at hp
    simp only [synced_self, next_congr (synced_self net σ k)]
    exact h.none_wrong i p hp
  founded := fun i honly => by
    rw [synced_predecessor]
    exact h.founded i honly

/-! ## The whole round -/

theorem stabilized (h : Headed net len σ) (k : ι) : Headed net len (stabilized net σ k) := by
  rw [h.stabilized_eq k]
  exact (h.notified k).synced k

theorem trued_stabilized (h : Headed net len σ) (k : ι) : Trued len (ChordOverlay.stabilized net σ k) k := by
  have hself := stabilized_self net σ k
  have hlist := (h.notified k).synced_list k
  rw [following_congr (notified_self net σ k)] at hlist
  refine ⟨?_, fun i hi => ?_⟩
  · rw [following_congr hself, h.stabilized_eq k]
    exact hlist
  · rw [next_congr hself, hself] at hi
    rw [hself, h.stabilized_eq k, synced_predecessor, h.notified_at hi]

/-- What is true stays so when others stabilize. -/
theorem Trued.stabilized (h : Headed net len σ) (hj : Trued len σ j) : Trued len (ChordOverlay.stabilized net σ k) j := by
  by_cases hjk : j = k
  · subst hjk
    exact h.trued_stabilized j
  have hself := stabilized_self net σ k
  refine ⟨?_, fun i hi => ?_⟩
  · rw [following_congr hself, h.stabilized_eq k, synced_of_ne hjk, notified_successors]
    exact hj.1
  · rw [next_congr hself, hself] at hi
    have hbefore := hj.2 i hi
    rw [hself, h.stabilized_eq k, synced_predecessor]
    rcases h.notified_predecessor k i with heq | ⟨hnext, heq⟩
    · exact heq.trans hbefore
    · rw [heq, hnext.previous_unique h.distinct hi]

/-- After everybody has stabilized once, in whatever order, the ring is true. -/
theorem inTurn_aligned (h : Headed net len σ) {ks : List ι} (hall : ∀ k, k ∈ ks) :
    InTurn net (fun σ' => Aligned len σ' ∧ ∀ k, (σ' k).self = (σ k).self) (ks.map fun k => (k, .stabilize)) σ := by
  refine InTurn.all (fun σ' => Headed net len σ' ∧ ∀ k, (σ' k).self = (σ k).self)
    (fun σ task => Trued len σ task.1) (fun task htask σ₁ h₁ => ?_) ⟨h, fun _ => rfl⟩ fun σ' h' hgood _ => ?_
  · obtain ⟨k, _, rfl⟩ := List.mem_map.mp htask
    obtain ⟨h₁, hself⟩ := h₁
    exact h₁.ends_stabilize ⟨⟨h₁.stabilized k, fun j => (stabilized_self net σ₁ k j).trans (hself j)⟩,
      h₁.trued_stabilized k, fun task htrued => Trued.stabilized h₁ htrued⟩
  · exact ⟨h'.1.aligned fun k => hgood (k, .stabilize) (List.mem_map_of_mem (hall k)), h'.2⟩

end Headed

end ChordOverlay
