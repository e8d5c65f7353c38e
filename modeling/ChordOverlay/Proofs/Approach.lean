import ChordOverlay.Proofs.Settling

/-!
# What stabilization brings closer

Members that know only each other. A round of stabilization never leads anybody to a successor that is farther away,
it leads to whom the old successor reports if that is closer, and whoever has its true successor then is known to it.
-/

namespace ChordOverlay

variable {ι : Type} {net : Net ι} {len : Nat} {σ σ' : ι → Member} {i j k x : ι} {n : Nat} {p : Peer} {v : View}

/-- Members that answer each other, and whose successors and predecessors are among them. -/
structure Circle (net : Net ι) (σ : ι → Member) : Prop where
  distinct : Distinct σ
  joined : ∀ k, (σ k).phase = .joined
  sound : ∀ k, (σ k).view.Sound
  reached : ∀ k, net.reach (σ k).self.address = some k
  answered : ∀ k e, ¬ net.fails (σ k).self.address e
  seen : ∀ k, net.source k = (σ k).self.ip
  successor : ∀ k, ∃ j, (σ k).view.successor = (σ j).self
  before : ∀ k p, (σ k).view.predecessor = some p → ∃ j, p = (σ j).self

theorem Circle.company (h : Circle net σ) : Company net σ :=
  ⟨h.joined, h.sound, h.reached, h.answered, h.seen, fun k => Or.inl (h.successor k),
    fun k p hp => Or.inl (h.before k p hp)⟩

/-- Where no request fails, nobody has gone. -/
theorem member_of_familiar (hnet : ∀ target e, ¬ net.fails target e) (h : Familiar net σ p) : ∃ j, p = (σ j).self := by
  rcases h with hmember | ⟨_, e, he⟩
  · exact hmember
  · exact absurd he (hnet _ e)

theorem Society.circle (h : Society net len σ) (hnet : ∀ target e, ¬ net.fails target e) : Circle net σ :=
  ⟨h.distinct, h.joined, h.sound, h.reached, h.answered, h.seen, fun k => member_of_familiar hnet (h.successor k),
    fun k p hp => member_of_familiar hnet (h.before k p hp)⟩

namespace Circle

variable [DecidableEq ι]

theorem revise (h : Circle net σ) (hv : (σ k).view.Evolves v) (hsuccessor : ∃ j, v.successor = (σ j).self)
    (hbefore : ∀ p, v.predecessor = some p → ∃ j, p = (σ j).self) : Circle net (revise σ k v) := by
  have hself : ∀ j, (ChordOverlay.revise σ k v j).self = (σ j).self := revise_self hv.self
  obtain ⟨joined, sound, reached, answered, seen, _, _⟩ :=
    h.company.revise hv (Or.inl hsuccessor) fun p hp => Or.inl (hbefore p hp)
  refine ⟨fun i j => ?_, joined, sound, reached, answered, seen, fun j => ?_, fun j => ?_⟩
  · rw [hself, hself]
    exact h.distinct i j
  · simp only [hself]
    rcases revise_cases σ k v j with heq | ⟨rfl, heq⟩ <;> rw [heq]
    · exact h.successor j
    · exact hsuccessor
  · simp only [hself]
    rcases revise_cases σ k v j with heq | ⟨rfl, heq⟩ <;> rw [heq]
    · exact h.before j
    · exact hbefore

theorem notified (h : Circle net σ) (k : ι) : Circle net (notified net σ k) := by
  unfold ChordOverlay.notified
  split
  · exact h
  · split
    · exact h
    · rename_i j _
      refine h.revise (.apply _ (.notify (σ k).self)) ?_ fun p hp => ?_
      · rw [View.successor, View.notify_successors]
        exact h.successor j
      · rcases View.notify_predecessor hp with rfl | hp
        · exact ⟨k, rfl⟩
        · exact h.before j p hp

end Circle

/-! ## How far the successor is -/

variable [Fintype ι]

/-- The successor of `k` is a member with at most `n` others before it. -/
def Near (σ : ι → Member) (n : Nat) (k : ι) : Prop := ∃ i, (σ k).view.successor = (σ i).self ∧ gap σ k i ≤ n

theorem Near.congr (h : Near σ n k) (hself : ∀ k, (σ' k).self = (σ k).self)
    (hsuccessor : (σ' k).view.successor = (σ k).view.successor) : Near σ' n k := by
  obtain ⟨i, hi, hle⟩ := h
  exact ⟨i, by rw [hsuccessor, hself, hi], by rwa [gap_congr hself]⟩

theorem Near.mono {m : Nat} (h : Near σ n k) (hle : n ≤ m) : Near σ m k := by
  obtain ⟨i, hi, hgap⟩ := h
  exact ⟨i, hi, Nat.le_trans hgap hle⟩

/-- The predecessor a member hears of is adopted just if it lies in front of its successor. -/
theorem adopts_iff (hids : Distinct σ) (hi : (σ k).view.successor = (σ i).self) :
    (σ k).view.adopts (σ x).self = true ↔ x ∈ between σ k i := by
  have hself : (σ k).view.self = (σ k).self := rfl
  rw [mem_between, RingId.distance_pos]
  by_cases hik : i = k
  · subst hik
    have halone : (σ i).view.isAlone = true := decide_eq_true (congrArg Peer.id hi)
    have hlt := RingId.distance_lt (σ i).self.id (σ x).self.id
    rw [View.adopts, halone, Bool.true_or, Bool.and_true, span_self, hself, decide_eq_true_eq, ne_comm]
    exact (and_iff_left hlt).symm
  · have hid : (σ k).view.successor.id ≠ (σ k).view.self.id := by
      rw [hi]
      exact fun hid => hik (hids _ _ hid)
    rw [View.adopts_iff_between hid, hi, span_of_ne hids hik, ← RingId.distance_pos]
    exact Iff.rfl

/-- The report of the successor brings a closer one if there is a closer one in it, and never one farther away. -/
theorem exists_closer (h : Circle net σ) (hi : (σ k).view.successor = (σ i).self) :
    ∃ i', ((σ k).view.stabilize (σ i).view.predecessor).1.successor = (σ i').self ∧ gap σ k i' ≤ gap σ k i ∧
      ∀ x ∈ between σ k i, (σ i).view.predecessor = some (σ x).self → gap σ k i' ≤ gap σ k x := by
  rcases (σ k).view.stabilize_cases (σ i).view.predecessor with ⟨p, hp, hadopts, _⟩ | ⟨hrefuses, heq⟩
  · obtain ⟨x, rfl⟩ := h.before i p hp
    have hlt := gap_lt_of_mem h.distinct ((adopts_iff h.distinct hi).mp hadopts)
    rw [hp]
    refine ⟨x, ((h.sound k).successor_adopted hadopts).2, Nat.le_of_lt hlt, fun y _ hy => ?_⟩
    rw [h.distinct x y (congrArg Peer.id (Option.some.inj hy))]
  · rw [heq]
    refine ⟨i, hi, Nat.le_refl _, fun x hx hp => ?_⟩
    have := hrefuses _ hp
    rw [(adopts_iff h.distinct hi).mpr hx] at this
    cases this

/-- A walk leads to a successor that is not farther away than the one it began with. -/
theorem nearest_walked (h : Circle net σ) (hi : (σ k).view.successor = (σ i).self) (hik : i ≠ k) (self : RingId)
    (n : Nat) : ∃ i', ((σ k).view.syncSuccessors (trail net σ self n (σ i).self [(σ i).self])).successor = (σ i').self ∧
      gap σ k i' ≤ gap σ k i := by
  have hlist := (h.sound k).list
  have howner : (σ k).view.successors.owner = (σ k).self := (h.sound k).list_owner
  have hfirst : (σ i).self ∈ trail net σ self n (σ i).self [(σ i).self] := mem_trail List.mem_cons_self
  have hmembers : ∀ p ∈ trail net σ self n (σ i).self [(σ i).self], ∃ j, p = (σ j).self := by
    refine forall_trail h.successor fun p hp => ?_
    rw [List.mem_singleton.mp hp]
    exact ⟨i, rfl⟩
  generalize trail net σ self n (σ i).self [(σ i).self] = walked at hfirst hmembers ⊢
  have hsync : (σ k).view.syncSuccessors walked =
      { (σ k).view with successors := (σ k).view.successors.replace walked } := by
    cases walked with
    | nil => cases hfirst
    | cons q qs => rfl
  obtain ⟨hsome, hle⟩ := hlist.nearest_replace hfirst (by rw [howner]; exact fun hid => hik (h.distinct _ _ hid))
  have hmem := Successors.nearest_mem hsome
  obtain ⟨i', hi'⟩ := hmembers _ (Successors.mem_replace hmem)
  have hik' : i' ≠ k := by
    rintro rfl
    refine (hlist.replace walked).others _ hmem ?_
    rw [hi']
    exact congrArg Peer.id howner.symm
  rw [hi', howner] at hle
  rw [hsync]
  exact ⟨i', hi', gap_le_of_distance_le h.distinct hik' hle⟩

/-! ## The notice -/

omit [Fintype ι] in
theorem notify_of_next (hids : Distinct σ) (hnext : Next σ j (σ i).self)
    (hbefore : (σ i).view.predecessor = some (σ j).self) :
    ((σ i).view.notify (σ k).self).1.predecessor = some (σ j).self := by
  rcases (σ i).view.notify_cases (σ k).self with ⟨hid, hprefers, heq⟩ | ⟨_, heq⟩ <;> rw [heq]
  · -- Another one would have to come after `j` and before `i`, where nobody is.
    rcases View.prefers_iff.mp hprefers _ hbefore with hself | hsame | ⟨hpos, hlt⟩
    · obtain rfl := hids j i hself
      rw [hnext.2.1 rfl k] at hid
      exact absurd rfl hid
    · exact congrArg some hsame.symm
    · have hkj : k ≠ j := by
        rintro rfl
        simp at hpos
      exact absurd (hnext.2.2 k hkj) (Nat.not_le.mpr hlt)
  · exact hbefore

variable [DecidableEq ι]

omit [Fintype ι] in
theorem notified_eq (h : Circle net σ) (hi : (σ k).view.successor = (σ i).self) :
    notified net σ k = revise σ i ((σ i).view.notify (σ k).self).1 := by
  unfold notified
  split
  · rename_i halone
    have hid := of_decide_eq_true halone
    rw [hi] at hid
    obtain rfl := h.distinct i k hid
    have hself : ((σ i).view.notify (σ i).self).1 = (σ i).view := by simp [View.notify, Member.self]
    rw [hself, revise_view]
  · rw [hi, h.reached i]

omit [Fintype ι] in
theorem Met.notified (h : Circle net σ) (hmet : Met σ j) (k : ι) : Met (notified net σ k) j := by
  intro m hm
  have hself := notified_self net σ k
  obtain ⟨i, hi⟩ := h.successor k
  rw [next_congr hself, hself] at hm
  rw [hself, notified_eq h hi]
  rcases revise_cases σ i ((σ i).view.notify (σ k).self).1 m with heq | ⟨rfl, heq⟩ <;> rw [heq]
  · exact hmet m hm
  · exact notify_of_next h.distinct hm (hmet m hm)

theorem met_notified (h : Circle net σ) (hfounded : (∀ j, j = k) → Met σ k)
    (hi : (σ k).view.successor = (σ i).self) (hnext : Next σ k (σ i).self) : Met (notified net σ k) k := by
  intro m hm
  have hself := notified_self net σ k
  rw [next_congr hself, hself] at hm
  obtain rfl := hm.unique h.distinct hnext
  rw [hself, notified_eq h hi, revise_at]
  by_cases hmk : m = k
  · subst hmk
    exact notify_of_next h.distinct hnext (hfounded (hnext.2.1 rfl) m hnext)
  · rw [hnext.notify_eq h.distinct hmk (h.before m)]

/-! ## The whole round -/

theorem Near.notified (hnear : Near σ n j) (k : ι) : Near (notified net σ k) n j :=
  hnear.congr (notified_self net σ k) (congrArg Successors.nearest (notified_successors net σ k j))

omit [Fintype ι] in
theorem Met.synced (hmet : Met σ j) (k : ι) : Met (synced net σ k) j :=
  hmet.congr (synced_self net σ k) (synced_predecessor net σ k)

theorem Near.synced (h : Circle net σ) (hnear : Near σ n j) (k : ι) : Near (synced net σ k) n j := by
  by_cases hjk : j = k
  · subst hjk
    cases halone : (σ j).view.isAlone with
    | true =>
        rw [ChordOverlay.synced, if_pos halone]
        exact hnear
    | false =>
        obtain ⟨i, hi, hle⟩ := hnear
        have hij : i ≠ j := by
          rintro rfl
          rw [View.isAlone, decide_eq_false_iff_not, hi] at halone
          exact halone rfl
        obtain ⟨i', hi', hle'⟩ := nearest_walked h hi hij (σ j).self.id (max 1 (σ j).settings.successorListLength - 1)
        refine ⟨i', ?_, ?_⟩
        · rw [synced_self, ChordOverlay.synced, if_neg (by simp [halone]), revise_at, hi]
          exact hi'
        · rw [gap_congr (synced_self net σ j)]
          exact Nat.le_trans hle' hle
  · exact hnear.congr (synced_self net σ k) (by rw [synced_of_ne hjk])

/-- The state in which `k` gives notice, after a report of `i`. -/
def adopted (σ : ι → Member) (k i : ι) : ι → Member := revise σ k ((σ k).view.stabilize (σ i).view.predecessor).1

omit [Fintype ι] in
theorem adopted_self (σ : ι → Member) (k i j : ι) : (adopted σ k i j).self = (σ j).self :=
  revise_self (View.stabilize_self _ _) j

omit [Fintype ι] in
theorem adopted_predecessor (σ : ι → Member) (k i j : ι) :
    (adopted σ k i j).view.predecessor = (σ j).view.predecessor := by
  rcases revise_cases σ k ((σ k).view.stabilize (σ i).view.predecessor).1 j with heq | ⟨rfl, heq⟩ <;>
    rw [adopted, heq]
  exact View.stabilize_predecessor _ _

theorem Circle.adopted (h : Circle net σ) (hi : (σ k).view.successor = (σ i).self) : Circle net (adopted σ k i) := by
  obtain ⟨i', hi', _⟩ := exists_closer h hi
  refine h.revise (.apply _ (.stabilize _)) ⟨i', hi'⟩ fun p hp => h.before k p ?_
  rwa [View.stabilize_predecessor] at hp

omit [Fintype ι] in
theorem stabilized_eq (h : Circle net σ) (hi : (σ k).view.successor = (σ i).self) :
    stabilized net σ k = synced net (notified net (adopted σ k i) k) k := by
  rw [stabilized, heard_eq h.distinct h.reached hi]
  rfl

theorem Near.stabilized (h : Circle net σ) (hnear : Near σ n j) (k : ι) : Near (stabilized net σ k) n j := by
  obtain ⟨i, hi⟩ := h.successor k
  have hnear₁ : Near (ChordOverlay.adopted σ k i) n j := by
    by_cases hjk : j = k
    · subst hjk
      obtain ⟨i₀, hi₀, hle₀⟩ := hnear
      obtain rfl : i₀ = i := h.distinct _ _ (congrArg Peer.id (hi₀.symm.trans hi))
      obtain ⟨i', hi', hle', _⟩ := exists_closer h hi
      refine ⟨i', ?_, ?_⟩
      · rw [adopted_self, ChordOverlay.adopted, revise_at]
        exact hi'
      · rw [gap_congr (adopted_self σ j i₀)]
        exact Nat.le_trans hle' hle₀
    · exact hnear.congr (adopted_self σ k i) (by rw [ChordOverlay.adopted, revise_of_ne hjk])
  rw [stabilized_eq h hi]
  exact (hnear₁.notified k).synced ((h.adopted hi).notified k) k

theorem Met.stabilized (h : Circle net σ) (hmet : Met σ j) (k : ι) : Met (stabilized net σ k) j := by
  obtain ⟨i, hi⟩ := h.successor k
  have hmet₁ : Met (ChordOverlay.adopted σ k i) j := hmet.congr (adopted_self σ k i) (adopted_predecessor σ k i)
  rw [stabilized_eq h hi]
  exact (hmet₁.notified (h.adopted hi) k).synced k

/-- The successor of `k` comes as close as the report allows, and if it is the true one then, it knows `k`. -/
theorem near_stabilized (h : Circle net σ) (hfounded : (∀ j, j = k) → Met σ k)
    (hi : (σ k).view.successor = (σ i).self) :
    ∃ n, Near (stabilized net σ k) n k ∧ n ≤ gap σ k i ∧
      (∀ x ∈ between σ k i, (σ i).view.predecessor = some (σ x).self → n ≤ gap σ k x) ∧
      (n = 0 → Met (stabilized net σ k) k) := by
  have h₁ := h.adopted hi
  have hself := adopted_self σ k i
  obtain ⟨i', hi', hle, hcloser⟩ := exists_closer h hi
  have hsuccessor : (adopted σ k i k).view.successor = (adopted σ k i i').self := by
    rw [hself, adopted, revise_at]
    exact hi'
  have hnear : Near (adopted σ k i) (gap σ k i') k := ⟨i', hsuccessor, Nat.le_of_eq (gap_congr hself k i')⟩
  rw [stabilized_eq h hi]
  refine ⟨gap σ k i', (hnear.notified k).synced (h₁.notified k) k, hle, hcloser, fun hzero => ?_⟩
  refine (met_notified h₁ (fun honly => ?_) hsuccessor ?_).synced k
  · exact (hfounded honly).congr hself (adopted_predecessor σ k i)
  · rw [hself, next_congr hself]
    exact (gap_eq_zero h.distinct).mp hzero

end ChordOverlay
