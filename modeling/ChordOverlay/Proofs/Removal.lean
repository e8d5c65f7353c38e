import ChordOverlay.Proofs.Adoption
import ChordOverlay.Proofs.FingerOrder

/-!
# Who is forgotten, and who takes the place

A peer that is removed is gone from everything a member knows, and nobody else is. When the list runs empty the lowest
finger is promoted.
-/

namespace ChordOverlay

variable {p q x : Peer}

theorem Successors.Sound.insert_nil {s : Successors} (h : s.Sound) (hnil : s.peers = []) (hid : p.id ≠ s.owner.id) :
    (s.insert p).1 = { s with peers := [p] } := by
  rw [h.insert_front hid (by simp [hnil]), hnil]
  simp

theorem Successors.erase_peers_eq_nil {s : Successors} : (s.erase x).peers = [] ↔ ∀ p ∈ s.peers, p.id = x.id := by
  simp [Successors.erase]

theorem Successors.erase_of_not_mem {s : Successors} (h : ∀ p ∈ s.peers, p.id ≠ x.id) : s.erase x = s := by
  rw [Successors.erase, List.filter_eq_self.mpr fun p hp => by simpa using h p hp]

namespace View

variable {v : View} {op : Op}

/-! ## What is left of a view -/

@[simp] theorem erase_fingers (v : View) (x : Peer) : (v.erase x).fingers = v.fingers.erase x.id := rfl

@[simp] theorem erase_predecessor (v : View) (x : Peer) :
    (v.erase x).predecessor = v.predecessor.filter fun p => p.id ≠ x.id := rfl

/-- An empty list takes the lowest finger that is left, and any other list is what is left of it. -/
theorem Sound.erase_cases (h : v.Sound) (x : Peer) :
    (v.erase x).successors = v.successors.erase x ∧
        ((v.successors.erase x).peers ≠ [] ∨ (v.erase x).fingers.first? = none) ∨
      ∃ p, (v.successors.erase x).peers = [] ∧ (v.erase x).fingers.first? = some p ∧
        (v.erase x).successors = { v.successors with peers := [p] } := by
  simp only [View.erase]
  by_cases hnil : (v.successors.erase x).peers = []
  · have hempty : (v.successors.erase x).isEmpty = true := by simp [Successors.isEmpty, hnil]
    rw [if_pos hempty]
    cases hfirst : (v.fingers.erase x.id).first? with
    | none => exact Or.inl ⟨rfl, Or.inr rfl⟩
    | some p =>
        have hother : p.id ≠ v.self.id := by
          rw [← h.table_owner]
          exact h.table.others p (Fingers.mem_erase (Fingers.first?_mem hfirst)).1
        refine Or.inr ⟨p, hnil, rfl, ?_⟩
        exact (h.list.erase x).insert_nil hnil (h.list_owner.symm ▸ hother)
  · have hfilled : ¬ (v.successors.erase x).isEmpty = true := by simpa [Successors.isEmpty] using hnil
    rw [if_neg hfilled]
    exact Or.inl ⟨rfl, Or.inl hnil⟩

theorem Sound.erase_successors_ne (h : v.Sound) (hp : p ∈ (v.erase x).successors.peers) : p.id ≠ x.id := by
  rcases h.erase_cases x with ⟨heq, _⟩ | ⟨q, _, hfirst, heq⟩ <;> rw [heq] at hp
  · exact (Successors.mem_erase hp).2
  · rw [List.mem_singleton.mp hp]
    exact (Fingers.mem_erase (Fingers.first?_mem hfirst)).2

theorem Sound.erase_isAlone (h : v.Sound) (x : Peer) : (v.erase x).isAlone = true ↔
    (∀ p ∈ v.successors.peers, p.id = x.id) ∧ ∀ p, some p ∈ v.fingers.slots → p.id = x.id := by
  rw [(h.erase x).isAlone_iff, ← Successors.erase_peers_eq_nil]
  have hleft : (∀ p, some p ∈ v.fingers.slots → p.id = x.id) ↔ (v.erase x).fingers.first? = none := by
    rw [Fingers.first?_eq_none, erase_fingers]
    constructor
    · intro hall p hp
      obtain ⟨hmem, hid⟩ := Fingers.mem_erase hp
      exact hid (hall p hmem)
    · intro hnobody p hp
      by_contra hid
      exact hnobody p (Fingers.mem_erase_of_ne hp hid)
  rw [hleft]
  rcases h.erase_cases x with ⟨heq, hcase⟩ | ⟨p, _, hfirst, heq⟩ <;> rw [heq]
  · constructor
    · intro hnil
      exact ⟨hnil, hcase.resolve_left (not_not.mpr hnil)⟩
    · exact And.left
  · rw [hfirst]
    simp

/-- Where nobody is left in the list but somebody in the table, the list goes to the lowest finger. -/
theorem Sound.erase_promotes (h : v.Sound) (hleft : ∀ p ∈ v.successors.peers, p.id = x.id)
    (hq : some q ∈ (v.erase x).fingers.slots) :
    ∃ p, (v.erase x).fingers.first? = some p ∧ (v.erase x).successors.peers = [p] := by
  rcases h.erase_cases x with ⟨_, hne | hnone⟩ | ⟨p, _, hfirst, heq⟩
  · exact absurd (Successors.erase_peers_eq_nil.mpr hleft) hne
  · exact absurd hq (Fingers.first?_eq_none.mp hnone q)
  · exact ⟨p, hfirst, congrArg Successors.peers heq⟩

/-- There is nothing to remove a second time, and if the list is empty now there is nobody to promote either. -/
theorem Sound.erase_erase (h : v.Sound) (x : Peer) : (v.erase x).erase x = v.erase x := by
  have hfingers : ((v.erase x).erase x).fingers = (v.erase x).fingers :=
    Fingers.erase_of_not_mem fun p hp => (Fingers.mem_erase hp).2
  have hpredecessor : ((v.erase x).erase x).predecessor = (v.erase x).predecessor := by simp [Option.filter_filter]
  have hkept : (v.erase x).successors.erase x = (v.erase x).successors :=
    Successors.erase_of_not_mem fun p hp => h.erase_successors_ne hp
  have hsuccessors : ((v.erase x).erase x).successors = (v.erase x).successors := by
    rcases (h.erase x).erase_cases x with ⟨heq, _⟩ | ⟨p, hnil, hfirst, _⟩
    · rw [heq, hkept]
    · rw [hkept] at hnil
      rw [hfingers] at hfirst
      rcases h.erase_cases x with ⟨heq, hcase⟩ | ⟨_, _, _, heq⟩ <;> rw [heq] at hnil
      · rcases hcase with hne | hnone
        · exact absurd hnil hne
        · rw [hfirst] at hnone
          cases hnone
      · cases hnil
  calc (v.erase x).erase x
      = ⟨v.self, ((v.erase x).erase x).successors, ((v.erase x).erase x).fingers, ((v.erase x).erase x).predecessor⟩ := rfl
    _ = v.erase x := by rw [hsuccessors, hfingers, hpredecessor]; rfl

/--
What is left when `x` is removed from any view that operations led to. Nothing is at its position, and whatever is at
another one is still where it was. The list only gets somebody new when it has nobody left: the lowest finger, which
then is the only successor, so the member is alone just if it knew nobody else. A second removal changes nothing.
-/
theorem removed_peer_is_gone (self : Peer) (bound : Nat) (ops : List Op) (x : Peer) :
    let v := ops.foldl View.apply (View.fresh self bound)
    let w := v.erase x
    ((∀ p ∈ w.successors.peers, p.id ≠ x.id) ∧ (∀ p, some p ∈ w.fingers.slots → p.id ≠ x.id) ∧
      ∀ p, w.predecessor = some p → p.id ≠ x.id) ∧
    ((∀ k, (∀ p, v.fingers.get? k = some p → p.id ≠ x.id) → w.fingers.get? k = v.fingers.get? k) ∧
      ((∀ p, v.predecessor = some p → p.id ≠ x.id) → w.predecessor = v.predecessor)) ∧
    ((∃ p ∈ v.successors.peers, p.id ≠ x.id) →
      w.successors.peers = v.successors.peers.filter fun p => p.id ≠ x.id) ∧
    ((∀ p ∈ v.successors.peers, p.id = x.id) → (∃ p, some p ∈ w.fingers.slots) →
      ∃ p, w.fingers.first? = some p ∧ w.successors.peers = [p]) ∧
    (w.successor.id = self.id ↔
      (∀ p ∈ v.successors.peers, p.id = x.id) ∧ ∀ p, some p ∈ v.fingers.slots → p.id = x.id) ∧
    w.erase x = w := by
  intro v w
  have hevolves : (fresh self bound).Evolves v := ⟨ops, rfl⟩
  have hv : v.Sound := hevolves.sound (.fresh self bound)
  have hself : v.self = self := hevolves.self
  refine ⟨⟨fun p hp => hv.erase_successors_ne hp, fun p hp => (Fingers.mem_erase hp).2, fun p hp => ?_⟩,
    ⟨fun k => Fingers.get?_erase_of_ne, fun hother => ?_⟩, fun hleft => ?_,
    fun hleft hfinger => hfinger.elim fun _ hq => hv.erase_promotes hleft hq, ?_, hv.erase_erase x⟩
  · simpa using (Option.filter_eq_some_iff.mp hp).2
  · change v.predecessor.filter _ = v.predecessor
    cases hp : v.predecessor with
    | none => rfl
    | some p => simp [hother p hp]
  · rcases hv.erase_cases x with ⟨heq, _⟩ | ⟨_, hnil, _⟩
    · exact congrArg Successors.peers heq
    · obtain ⟨p, hp, hid⟩ := hleft
      exact absurd (Successors.erase_peers_eq_nil.mp hnil p hp) hid
  · rw [← hv.erase_isAlone x, isAlone, decide_eq_true_eq, erase_self, hself]

/-- The peer that goes. -/
def leaver : Peer := ⟨200, ⟨10, 0, 0, 2⟩, 7000⟩

/-- A list with room for one, whose only entry has fingers on both sides of a gap and of somebody else. -/
def patchwork : List Op :=
  [.join leaver, .join ⟨0x80000000, ⟨10, 0, 0, 3⟩, 7000⟩, .notify leaver, .setFinger 2 none,
    .setFinger 4 (some ⟨0x90000000, ⟨10, 0, 0, 4⟩, 7000⟩)]

theorem removed_peer_is_gone_patchwork :
    let v := patchwork.foldl View.apply (View.fresh ⟨100, ⟨10, 0, 0, 1⟩, 7000⟩ 1)
    (∀ p ∈ v.successors.peers, p.id = leaver.id) ∧
      (v.erase leaver).successors.peers = [⟨0x80000000, ⟨10, 0, 0, 3⟩, 7000⟩] ∧
      (v.erase leaver).fingers.get? 2 = none ∧
      (v.erase leaver).fingers.get? 4 = some ⟨0x90000000, ⟨10, 0, 0, 4⟩, 7000⟩ ∧
      (v.erase leaver).erase leaver = v.erase leaver := by
  intro v
  obtain ⟨_, ⟨hfingers, _⟩, _, hpromoted, _, hagain⟩ :=
    removed_peer_is_gone ⟨100, ⟨10, 0, 0, 1⟩, 7000⟩ 1 patchwork leaver
  have hlist : ∀ p ∈ v.successors.peers, p.id = leaver.id := by decide
  obtain ⟨p, hfirst, hpeers⟩ := hpromoted hlist ⟨⟨0x80000000, ⟨10, 0, 0, 3⟩, 7000⟩, by decide⟩
  have hlowest : (v.erase leaver).fingers.first? = some ⟨0x80000000, ⟨10, 0, 0, 3⟩, 7000⟩ := by decide
  have hgap : ∀ p ∈ v.fingers.get? 2, p.id ≠ leaver.id := by decide
  have hother : ∀ p ∈ v.fingers.get? 4, p.id ≠ leaver.id := by decide
  refine ⟨hlist, ?_, (hfingers 2 hgap).trans (by decide), (hfingers 4 hother).trans (by decide), hagain⟩
  rw [hpeers, Option.some.inj (hfirst.symm.trans hlowest)]

end View

end ChordOverlay
