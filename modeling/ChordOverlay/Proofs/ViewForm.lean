import ChordOverlay.Proofs.Neighbourhood

/-!
# The form of a view

Whatever a view is told by its operations: its member stands in none of its own tables, the tables stay in order and
within their size, and no decision ever sends the member to its own position.
-/

namespace ChordOverlay

/-- The decision is not to contact anybody at this position. -/
def Decision.Leaves (d : Decision) (id : RingId) : Prop := ∀ target errand, d = .contact target errand → target.id ≠ id

namespace Successors

variable {s : Successors}

theorem Sound.nodup (h : s.Sound) : (s.peers.map Peer.id).Nodup := ids_nodup h.ordered

end Successors

namespace View

variable {v : View}

/-! ## Nobody is sent to himself -/

theorem join_leaves (v : View) (p : Peer) : (v.join p).2.Leaves v.self.id := by
  intro target errand hcontact
  unfold join at hcontact
  split at hcontact
  · cases hcontact
  · rename_i hid
    cases hcontact
    exact hid

theorem Sound.findSuccessor_leaves (h : v.Sound) (id : RingId) : (v.findSuccessor id).Leaves v.self.id := by
  intro target errand hcontact
  obtain ⟨_, _, _, hbetween⟩ := h.of_contact hcontact
  exact (RingId.distance_pos.mp hbetween.1).symm

theorem stabilize_leaves (v : View) (reported : Option Peer) : (v.stabilize reported).2.Leaves v.self.id := by
  intro target errand hcontact
  rw [stabilize_decision] at hcontact
  split at hcontact
  · cases hcontact
  · rename_i halone
    cases hcontact
    rw [isAlone, decide_eq_true_eq, stabilize_self] at halone
    exact halone

/-! ## The successor of an empty list -/

theorem Sound.successor_eq_self (h : v.Sound) : v.successor = v.self ↔ v.successors.peers = [] := by
  constructor
  · intro hself
    exact h.isAlone_iff.mp (decide_eq_true (congrArg Peer.id hself))
  · intro hnil
    exact h.successor_of_alone (h.isAlone_iff.mpr hnil)

/-! ## All operations -/

/-- Any operations, with any arguments, on a view that began empty. -/
theorem operations_keep_form (self : Peer) (bound : Nat) (ops : List Op) :
    let v := ops.foldl View.apply (View.fresh self bound)
    ((∀ p ∈ v.successors.peers, p.id ≠ self.id) ∧
      (v.successors.peers.Pairwise fun p q => self.id.distance p.id < self.id.distance q.id) ∧
      (v.successors.peers.map Peer.id).Nodup ∧ v.successors.peers.length ≤ max 1 bound) ∧
    (v.fingers.slots.length = 32 ∧ ∀ p, some p ∈ v.fingers.slots → p.id ≠ self.id) ∧
    (v.predecessor = none ∨ v.predecessor = some self ∨ ∃ p, v.predecessor = some p ∧ p.id ≠ self.id) ∧
    ((v.successor = self ↔ v.successors.peers = []) ∧ (v.successor.id = self.id ↔ v.successors.peers = [])) ∧
    (∀ p, (v.join p).2.Leaves self.id) ∧ (∀ id, (v.findSuccessor id).Leaves self.id) ∧
      ∀ reported, (v.stabilize reported).2.Leaves self.id := by
  intro v
  have hevolves : (fresh self bound).Evolves v := ⟨ops, rfl⟩
  have hv : v.Sound := hevolves.sound (.fresh self bound)
  have hself : v.self = self := hevolves.self
  have howner : v.successors.owner = self := hv.list_owner.trans hself
  have hbound : v.successors.bound = max 1 bound := hevolves.bound
  have hbefore : v.predecessor = none ∨ v.predecessor = some self ∨ ∃ p, v.predecessor = some p ∧ p.id ≠ self.id := by
    cases hp : v.predecessor with
    | none => exact Or.inl rfl
    | some p =>
        rcases hv.before p hp with rfl | hid
        · exact Or.inr (Or.inl (congrArg some hself))
        · exact Or.inr (Or.inr ⟨p, rfl, hself ▸ hid⟩)
  have hlist := hv.list
  have htable := hv.table.others
  have hempty := hv.successor_eq_self
  have halone := hv.isAlone_iff
  rw [isAlone, decide_eq_true_eq] at halone
  rw [hself] at hempty halone
  rw [hv.table_owner, hself] at htable
  refine ⟨⟨howner ▸ hlist.others, howner ▸ hlist.ordered, hlist.nodup, hbound ▸ hlist.fits⟩,
    ⟨hv.table.slots_length, htable⟩, hbefore, ⟨hempty, halone⟩, ?_, ?_, ?_⟩
  · exact fun p => hself ▸ v.join_leaves p
  · exact fun id => hself ▸ hv.findSuccessor_leaves id
  · exact fun reported => hself ▸ v.stabilize_leaves reported

end View

end ChordOverlay
