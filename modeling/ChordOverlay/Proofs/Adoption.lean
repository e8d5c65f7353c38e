import ChordOverlay.Proofs.Neighbourhood
import ChordOverlay.Proofs.SuccessorChoice

/-!
# Who is adopted as the successor

A peer that is reported to be closer than the successor goes to the front of the list, where no list can turn it away.
A full list gives up its last place for it, and nothing else is lost.
-/

namespace ChordOverlay

variable {p : Peer}

/-- Whoever is closer than a whole list comes before all of it. -/
theorem Successors.Sound.insert_front {s : Successors} (h : s.Sound) (hid : p.id ≠ s.owner.id)
    (hfront : ∀ q ∈ s.peers, reach s.owner p < reach s.owner q) :
    (s.insert p).1 = { s with peers := p :: if s.isFull then s.peers.dropLast else s.peers } := by
  have hfirst : ∀ i, firstAt i (s.peers ++ [p]) = firstAt i (p :: s.peers) := by
    intro i
    by_cases hi : p.id = i
    · have hnone : firstAt i s.peers = none := by
        rw [firstAt, List.find?_eq_none]
        intro q hq hqi
        exact id_ne_of_lt (hfront q hq) (hi.trans (of_decide_eq_true hqi).symm)
      rw [firstAt_append, hnone]
      simp [firstAt, hi]
    · simp [firstAt, hi]
  have hordered : (p :: s.peers).Pairwise fun p q => reach s.owner p < reach s.owner q :=
    List.pairwise_cons.mpr ⟨hfront, h.ordered⟩
  have hothers : ∀ q ∈ p :: s.peers, q.id ≠ s.owner.id := by
    intro q hq
    rcases List.mem_cons.mp hq with rfl | hq
    · exact hid
    · exact h.others q hq
  obtain ⟨n, hn⟩ : ∃ n, s.bound = n + 1 := Nat.exists_eq_succ_of_ne_zero (Nat.ne_of_gt h.roomy)
  have hfits := h.fits
  have htake : s.peers.take n = if s.isFull then s.peers.dropLast else s.peers := by
    cases hfull : s.isFull with
    | true =>
        have hle : s.bound ≤ s.peers.length := of_decide_eq_true hfull
        rw [if_pos rfl, List.dropLast_eq_take, show s.peers.length - 1 = n by omega]
    | false =>
        have hlt : ¬ s.bound ≤ s.peers.length := of_decide_eq_false hfull
        rw [if_neg Bool.false_ne_true, List.take_of_length_le (by omega)]
  rw [h.insert_eq, Successors.replace, closest_congr hfirst, closest_eq_take hordered hothers, hn, List.take_succ_cons, htake]

namespace View

variable {v : View}

/-- Alone, a member takes whom it can get, and otherwise just a closer one than it has. -/
theorem adopts_iff_closer : v.adopts p = true ↔
    p.id ≠ v.self.id ∧ (v.isAlone = true ∨ v.self.id.distance p.id < v.self.id.distance v.successor.id) := by
  cases halone : v.isAlone with
  | true => simp [adopts, halone]
  | false =>
      have hne : v.successor.id ≠ v.self.id := of_decide_eq_false halone
      rw [adopts_iff_between hne, RingId.Between, RingId.distance_pos]
      simp [eq_comm]

theorem Sound.closer_of_adopts (h : v.Sound) (hadopts : v.adopts p = true) :
    ∀ q ∈ v.successors.peers, Successors.reach v.successors.owner p < Successors.reach v.successors.owner q := by
  intro q hq
  rcases (adopts_iff_closer.mp hadopts).2 with halone | hlt
  · rw [h.isAlone_iff.mp halone] at hq
    cases hq
  · have hle := h.list.nearest_le hq
    rw [h.list_owner] at hle ⊢
    exact Nat.lt_of_lt_of_le hlt hle

theorem Sound.alone_or_followed (h : v.Sound) : (v.isAlone = true ∧ v.successors.peers = []) ∨
    ∃ p rest, v.isAlone = false ∧ v.successors.peers = p :: rest ∧ v.successor = p := by
  cases hpeers : v.successors.peers with
  | nil => exact Or.inl ⟨h.isAlone_iff.mpr hpeers, rfl⟩
  | cons p rest =>
      refine Or.inr ⟨p, rest, ?_, rfl, by simp [successor, Successors.nearest, hpeers]⟩
      rw [← Bool.not_eq_true, h.isAlone_iff, hpeers]
      exact List.cons_ne_nil p rest

/--
What one round of stabilization does to any view that operations led to. A closer peer is adopted: it goes in front of
the list, of which the last entry is lost if the list is full, and into the fingers. Nobody else is, and then nothing
changes. Whoever is the successor after that is to be told, if there is one.
-/
theorem stabilize_takes_closer (self : Peer) (bound : Nat) (ops : List Op) (reported : Option Peer) :
    let v := ops.foldl View.apply (View.fresh self bound)
    let w := (v.stabilize reported).1
    ((∃ x, reported = some x ∧ x.id ≠ self.id ∧
        (v.successor.id = self.id ∨ self.id.distance x.id < self.id.distance v.successor.id) ∧ w.successor = x ∧
        w = { v with
          successors.peers := x :: if v.successors.isFull then v.successors.peers.dropLast else v.successors.peers
          fingers := v.fingers.join x }) ∨
      (∀ x, reported = some x → x.id = self.id ∨
        v.successor.id ≠ self.id ∧ self.id.distance v.successor.id ≤ self.id.distance x.id) ∧ w = v) ∧
    w.predecessor = v.predecessor ∧
    ((w.successor.id = self.id ∧ w.successors.peers = [] ∧ (v.stabilize reported).2 = .nothing) ∨
      ∃ p rest, w.successor.id ≠ self.id ∧ w.successors.peers = p :: rest ∧
        (v.stabilize reported).2 = .contact p (.notify self)) := by
  intro v w
  have hevolves : (fresh self bound).Evolves v := ⟨ops, rfl⟩
  have hv : v.Sound := hevolves.sound (.fresh self bound)
  have hself : v.self = self := hevolves.self
  have hw : w.Sound := hv.stabilize reported
  have hself' : w.self = self := (stabilize_self v reported).trans hself
  refine ⟨?_, ?_, ?_⟩
  · rcases v.stabilize_cases reported with ⟨x, rfl, hadopts, heq⟩ | ⟨hnone, heq⟩
    · obtain ⟨hid, hcloser⟩ := adopts_iff_closer.mp hadopts
      rw [isAlone, decide_eq_true_eq, hself] at hcloser
      refine Or.inl ⟨x, rfl, hself ▸ hid, hcloser, (hv.successor_adopted hadopts).2, heq.trans ?_⟩
      rw [hv.list.insert_front (hv.list_owner ▸ hid) (hv.closer_of_adopts hadopts)]
    · refine Or.inr ⟨fun x hx => ?_, heq⟩
      have hnot := hnone x hx
      rw [← Bool.not_eq_true, adopts_iff_closer, isAlone, decide_eq_true_eq, hself, not_and_or, not_or, not_not,
        Nat.not_lt] at hnot
      exact hnot
  · exact stabilize_predecessor v reported
  · rw [stabilize_decision]
    rcases hw.alone_or_followed with ⟨halone, hnil⟩ | ⟨p, rest, halone, hpeers, hsuccessor⟩
    · refine Or.inl ⟨?_, hnil, if_pos halone⟩
      rw [hw.successor_of_alone halone, hself']
    · refine Or.inr ⟨p, rest, ?_, hpeers, ?_⟩
      · rw [← hself']
        exact of_decide_eq_false halone
      · change (if w.isAlone then _ else Decision.contact w.successor (.notify v.self)) = _
        rw [halone, hsuccessor, hself]
        rfl

-- Even the only place in a list goes to who is closer, here across zero.
example : (((View.fresh ⟨0xFFFFFFF0, ⟨10, 0, 0, 1⟩, 7000⟩ 1).join ⟨9, ⟨10, 0, 0, 2⟩, 7000⟩).1.stabilize
    (some ⟨3, ⟨10, 0, 0, 3⟩, 7000⟩)).1.successors.peers = [⟨3, ⟨10, 0, 0, 3⟩, 7000⟩] := by decide

end View

end ChordOverlay
