import ChordOverlay.Proofs.Acquaintance
import ChordOverlay.Proofs.Approach
import ChordOverlay.Proofs.SuccessorCycle

/-!
# Stabilization closes the ring

The ring closes backwards from its creator. In every round whoever does not have its true successor yet gets one that
is a place closer, because the member right before its successor has made itself known there a round earlier.
-/

namespace ChordOverlay

variable {ι : Type} [Fintype ι] {net : Net ι} {len : Nat} {σ : ι → Member} {n₀ j k : ι} {t : Nat}

/-- What `t` rounds do for `k`; the fewer members there are up to the creator, the sooner it is done. -/
structure Advanced (n₀ : ι) (σ : ι → Member) (t : Nat) (k : ι) : Prop where
  near : Near σ (gap σ k n₀ - (t - 1)) k
  met : gap σ k n₀ < t → Met σ k

/-- What holds of a society after `t` rounds. -/
structure Closing (net : Net ι) (len : Nat) (n₀ : ι) (t : Nat) (σ : ι → Member) : Prop extends Society net len σ where
  founded : ∀ k, (∀ j, j = k) → Met σ k
  advanced : ∀ k, Advanced n₀ σ t k

/-- After as many rounds as there are members all successors are true, and everybody is known to its own. -/
theorem Closing.headed (h : Closing net len n₀ t σ) (ht : Fintype.card ι ≤ t) : Headed net len σ where
  toSociety := h.toSociety
  next := fun k => by
    have hle := gap_le h.distinct k n₀
    obtain ⟨i, hi, hgap⟩ := (h.advanced k).near
    rw [hi]
    exact (gap_eq_zero h.distinct).mp (by omega)
  none_wrong := fun k p hp => by
    obtain ⟨j, hj⟩ := exists_previous h.distinct k
    have hle := gap_le h.distinct j n₀
    have hcard : 0 < Fintype.card ι := Fintype.card_pos_iff.mpr ⟨k⟩
    have hknown := (h.advanced j).met (by omega) k hj
    exact ⟨j, Option.some.inj (hp.symm.trans hknown), hj⟩
  founded := fun k honly => by
    obtain ⟨j, hj⟩ := exists_previous h.distinct k
    obtain rfl := honly j
    rw [h.founded j honly j hj]
    exact Option.some_ne_none _

/-! ## Rounds -/

variable [DecidableEq ι]

theorem Advanced.stabilized (h : Circle net σ) (hj : Advanced n₀ σ t j) (k : ι) :
    Advanced n₀ (stabilized net σ k) t j where
  near := by
    rw [gap_congr (stabilized_self net σ k)]
    exact hj.near.stabilized h k
  met := by
    rw [gap_congr (stabilized_self net σ k)]
    exact fun hlt => (hj.met hlt).stabilized h k

section Round

variable (hnet : ∀ target e, ¬ net.fails target e)

include hnet

namespace Closing

theorem stabilized (h : Closing net len n₀ t σ) (k : ι) : Closing net len n₀ t (stabilized net σ k) where
  toSociety := by
    obtain ⟨i, hi⟩ := member_of_familiar hnet (h.successor k)
    exact h.toSociety.stabilized (heard_eq h.distinct h.reached hi)
  founded := fun j honly => (h.founded j honly).stabilized (h.circle hnet) k
  advanced := fun j => (h.advanced j).stabilized (h.circle hnet) k

theorem advances (h : Closing net len n₀ t σ) (k : ι) :
    Advanced n₀ (ChordOverlay.stabilized net σ k) (t + 1) k := by
  have hids := h.distinct
  obtain ⟨⟨i, hi, hgap⟩, _⟩ := h.advanced k
  obtain ⟨n, hnear, hle, hcloser, hmet⟩ := near_stabilized (h.circle hnet) (h.founded k) hi
  have hn : n ≤ gap σ k n₀ - t := by
    by_cases hfar : gap σ k i ≤ gap σ k n₀ - t
    · exact Nat.le_trans hle hfar
    · -- The successor is as far away as `t` rounds allow. Then the member `x` right before it has fewer than `t` others
      -- up to the creator, so it has made itself known there, and `k` hears of it.
      obtain ⟨x, hx, hnext⟩ := exists_before hids (k := k) (j := i) (by omega)
      have hxk := ne_of_mem_between hx
      have hxi := gap_next hids hxk hnext
      have hsplit := gap_split hids (mem_between_of_gap_lt hids (j := n₀) hxk (by omega))
      have hknown := (h.advanced x).met (by omega) i hnext
      have := hcloser x hx hknown
      omega
  have hself := stabilized_self net σ k
  constructor
  · rw [gap_congr hself]
    exact hnear.mono hn
  · rw [gap_congr hself]
    exact fun hlt => hmet (by omega)

theorem round (h : Closing net len n₀ t σ) {ks : List ι} (hall : ∀ k, k ∈ ks) :
    InTurn net (fun σ' => Closing net len n₀ (t + 1) σ' ∧ ∀ k, (σ' k).self = (σ k).self)
      (ks.map fun k => (k, .stabilize)) σ := by
  refine InTurn.all (fun σ' => Closing net len n₀ t σ' ∧ ∀ k, (σ' k).self = (σ k).self)
    (fun σ task => Advanced n₀ σ (t + 1) task.1) (fun task htask σ₁ h₁ => ?_) ⟨h, fun _ => rfl⟩
    fun σ' h' hgood _ => ?_
  · obtain ⟨k, _, rfl⟩ := List.mem_map.mp htask
    obtain ⟨h₁, hself⟩ := h₁
    exact h₁.ends_stabilize ⟨⟨h₁.stabilized hnet k, fun j => (stabilized_self net σ₁ k j).trans (hself j)⟩,
      h₁.advances hnet k, fun _ hadvanced => hadvanced.stabilized (h₁.circle hnet) k⟩
  · exact ⟨{ h'.1 with advanced := fun k => hgood (k, .stabilize) (List.mem_map_of_mem (hall k)) }, h'.2⟩

theorem rounds (h : Closing net len n₀ t σ) {rounds : List (List ι)} (hall : ∀ ks ∈ rounds, ∀ k, k ∈ ks) :
    InTurn net (fun σ' => Closing net len n₀ (t + rounds.length) σ' ∧ ∀ k, (σ' k).self = (σ k).self)
      (rounds.flatten.map fun k => (k, .stabilize)) σ := by
  induction rounds generalizing σ t with
  | nil => exact ⟨h, fun _ => rfl⟩
  | cons ks rounds ih =>
      rw [List.flatten_cons, List.map_append]
      refine InTurn.append ((h.round hnet (hall ks List.mem_cons_self)).mono fun σ₁ h₁ => ?_)
      refine (ih h₁.1 fun ks' hks' => hall ks' (List.mem_cons_of_mem _ hks')).mono fun σ' h' => ⟨?_, fun k => ?_⟩
      · rw [List.length_cons, Nat.add_comm rounds.length, ← Nat.add_assoc]
        exact h'.1
      · exact (h'.2 k).trans (h₁.2 k)

theorem rounds_aligned (h : Closing net len n₀ 0 σ) {rounds : List (List ι)} (hall : ∀ ks ∈ rounds, ∀ k, k ∈ ks)
    (hrounds : Fintype.card ι < rounds.length) :
    InTurn net (fun σ' => Aligned len σ' ∧ ∀ k, (σ' k).self = (σ k).self)
      (rounds.flatten.map fun k => (k, .stabilize)) σ := by
  -- When as many rounds as there are members have made all successors true, the next one makes the lists true.
  rw [← List.take_append_drop (Fintype.card ι) rounds, List.flatten_append, List.map_append]
  refine InTurn.append ((h.rounds hnet fun ks hks => hall ks (List.mem_of_mem_take hks)).mono fun σ₁ h₁ => ?_)
  have hheaded := h₁.1.headed (by rw [List.length_take]; omega)
  have hlast : ∀ k, k ∈ (rounds.drop (Fintype.card ι)).flatten := fun k => by
    refine List.mem_flatten.mpr ⟨rounds[Fintype.card ι], ?_, hall _ (List.getElem_mem _) k⟩
    rw [List.drop_eq_getElem_cons hrounds]
    exact List.mem_cons_self
  exact (hheaded.inTurn_aligned hlast).mono fun σ' h' => ⟨h'.1, fun k => (h'.2 k).trans (h₁.2 k)⟩

end Closing

end Round

/-! ## From any run of one creator and any number of joiners -/

namespace Unity

variable {self : ι → Peer} {settings : ι → Settings}

/-- When all have joined and nothing is in flight any more, the ring can close. -/
theorem closing_of_run (hnet : ∀ target e, ¬ net.fails target e) (hids : ∀ j k, (self j).id = (self k).id → j = k)
    (hreach : ∀ k, net.reach (self k).address = some k) (hseen : ∀ k, net.source k = (self k).ip)
    (hlen : ∀ k, max 1 (settings k).successorListLength = len)
    (hrun : World.Run net (May n₀) (fun _ => True) (.idle fun k => .fresh (self k) (settings k)) (.idle σ))
    (hjoined : ∀ k, (σ k).phase = .joined) : Closing net len n₀ 0 σ ∧ ∀ k, (σ k).self = self k := by
  obtain ⟨hgrows, hunited⟩ : Grows n₀ (fun k => .fresh (self k) (settings k)) σ ∧ United n₀ σ :=
    united_run hnet (united_fresh n₀ self settings) rfl hrun
  have hknows : Acquaintance.Acquainted n₀ (fun k => .fresh (self k) (settings k)) σ :=
    Acquaintance.acquainted_run hnet hseen hrun
  have hself : ∀ k, (σ k).self = self k := hgrows.self
  have hmember : ∀ {p}, Acquaintance.Known (fun k => .fresh (self k) (settings k)) p → ∃ j, p = (σ j).self :=
    fun ⟨j, hj⟩ => ⟨j, hj.trans (hself j).symm⟩
  have hsociety : Society net len σ := {
    distinct := fun j k hid => hids j k (by rwa [hself, hself] at hid)
    joined := hjoined
    sound := fun k => (hknows k).sound
    bound := fun k => (hknows k).grown.view.bound.trans (hlen k)
    setting := fun k => by
      rw [(hknows k).grown.settings]
      exact hlen k
    reached := fun k => by
      rw [hself]
      exact hreach k
    answered := fun k => hnet _
    seen := fun k => by
      rw [hself]
      exact hseen k
    successors := fun k p hp => Or.inl (hmember ((hknows k).peers p hp))
    before := fun k p hp => Or.inl (hmember ((hknows k).before p hp)) }
  refine ⟨{ hsociety with founded := ?_, advanced := ?_ }, hself⟩
  · rintro k honly i -
    obtain rfl := honly i
    cases hbefore : (σ i).view.predecessor with
    | none => exact absurd hbefore ((hknows i).founded (honly n₀).symm (hjoined i))
    | some p =>
        obtain ⟨j, rfl⟩ := hmember ((hknows i).before p hbefore)
        rw [honly j]
  · intro k
    refine ⟨?_, nofun⟩
    obtain ⟨i, hi⟩ := member_of_familiar hnet (hsociety.successor k)
    refine ⟨i, hi, ?_⟩
    by_cases hk : k = n₀
    · subst hk
      rw [gap_self hsociety.distinct]
      exact gap_le hsociety.distinct k i
    · -- Whoever joins takes a successor that does not come after the creator.
      have ha := (hunited k).joined hk (hjoined k)
      obtain ⟨hpos, hle⟩ := hunited.successor_distance hk ha
      rw [hi] at hpos hle
      refine gap_le_of_distance_le hsociety.distinct ?_ hle
      rintro rfl
      simp at hpos

/--
While one member creates a ring and any others join it, no request fails and everybody is seen where it says it is. From
the moment when all have joined and nothing is in flight, twice as many rounds of stabilization as there are members
come to their end, in whatever order the members take their turns, and leave the ring true.
-/
theorem rounds_align (hnet : ∀ target e, ¬ net.fails target e) (hids : ∀ j k, (self j).id = (self k).id → j = k)
    (hreach : ∀ k, net.reach (self k).address = some k) (hseen : ∀ k, net.source k = (self k).ip)
    (hlen : ∀ k, max 1 (settings k).successorListLength = len)
    (hrun : World.Run net (May n₀) (fun _ => True) (.idle fun k => .fresh (self k) (settings k)) (.idle σ))
    (hjoined : ∀ k, (σ k).phase = .joined) {rounds : List (List ι)} (hrounds : 2 * Fintype.card ι ≤ rounds.length)
    (hall : ∀ ks ∈ rounds, ∀ k, k ∈ ks) :
    InTurn net (fun σ' => Aligned len σ' ∧ ∀ k, (σ' k).self = self k) (rounds.flatten.map fun k => (k, .stabilize)) σ := by
  obtain ⟨hclosing, hself⟩ := closing_of_run hnet hids hreach hseen hlen hrun hjoined
  have hcard : 0 < Fintype.card ι := Fintype.card_pos_iff.mpr ⟨n₀⟩
  exact (hclosing.rounds_aligned hnet hall (by omega)).mono fun σ' h' => ⟨h'.1, fun k => (h'.2 k).trans (hself k)⟩

/-- The members of the pair take turns, the other one first every time. -/
theorem rounds_align_pair : World.Run (.flawless pair) (May 0) (fun _ => True) (.idle pairFresh)
      (.idle pairJoined) ∧ (∀ k, (pairJoined k).phase = .joined) ∧
    InTurn (.flawless pair) (fun σ' => Aligned 3 σ' ∧ ∀ k, (σ' k).self = pair k)
      ([[0, 1], [1, 0], [0, 1], [1, 0]].flatten.map fun k => (k, .stabilize)) pairJoined := by
  have hjoined : ∀ k, (pairJoined k).phase = .joined := by decide
  exact ⟨run_pairJoined, hjoined, rounds_align (fun _ _ => id) (by decide) (by decide) (fun _ => rfl)
    (fun _ => rfl) run_pairJoined hjoined (by decide) (by decide)⟩

end Unity

end ChordOverlay
