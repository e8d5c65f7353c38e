import ChordOverlay.Proofs.Evolution
import ChordOverlay.Proofs.FingerRepair
import ChordOverlay.Proofs.Removal

/-!
# When the closest finger is promoted

The lowest finger is the closest one as long as the table is in order. A repair of all fingers brings it in order, and
nothing but another repair can disturb it. One that fails for some slots does: then a nearer finger may be passed over.
-/

namespace ChordOverlay

/-- A completed repair leaves the fingers in order: what a lower slot asks for is met on the way to a higher one. -/
theorem Repaired.ascending {ι : Type} {σ : ι → Member} {k : ι} {t : Fingers}
    (hids : ∀ j k, (σ j).self.id = (σ k).self.id → j = k) (howner : t.owner = (σ k).self)
    (hlength : t.slots.length = RingId.bits) (h : ∀ i < RingId.bits, Repaired σ k t i) : t.Ascending := by
  intro a b q hab hq
  have hb : b < RingId.bits := hlength ▸ Fingers.lt_length hq
  have ha : a < RingId.bits := Nat.lt_of_le_of_lt hab hb
  obtain ⟨p, hp, hslot⟩ := h a ha
  obtain ⟨q', hq', hslot'⟩ := h b hb
  have hne : q' ≠ (σ k).self := by
    rintro rfl
    rw [if_pos rfl, hq] at hslot'
    cases hslot'
  rw [if_neg hne, hq] at hslot'
  cases hslot'
  -- Both starts lie on the way from the member to `q`, and `p` is met no later than `q` is.
  have hstart := RingId.distance_fingerStart (σ k).self.id ha
  have hpow : Nat.pow 2 a ≤ Nat.pow 2 b := Nat.pow_le_pow_right Nat.two_pos hab
  have hbeyond := hq'.beyond_start hids hb hne
  have hway := RingId.distance_add (a := (σ k).self.id) (b := (σ k).self.id.fingerStart a) (c := q.id)
    (by rw [hstart]; exact Nat.le_trans hpow hbeyond)
  have hle : ((σ k).self.id.fingerStart a).distance p.id ≤ ((σ k).self.id.fingerStart a).distance q.id := by
    obtain ⟨j, rfl⟩ := hq'.1
    exact hp.2 j
  have hlt := RingId.distance_lt (σ k).self.id q.id
  have hway' := RingId.distance_add_of_lt (a := (σ k).self.id) (b := (σ k).self.id.fingerStart a) (c := p.id) (by omega)
  have hpos : 0 < Nat.pow 2 a := Nat.two_pow_pos a
  have hother : p ≠ (σ k).self := by
    rintro rfl
    rw [RingId.distance_self] at hway'
    omega
  rw [if_neg hother] at hslot
  refine ⟨p, hslot, ?_⟩
  rw [howner]
  omega

namespace View

variable {v : View} {op : Op} {ops : List Op}

theorem apply_ascending (h : v.fingers.Ascending) (hop : ∀ k p, op ≠ .setFinger k p) : (v.apply op).fingers.Ascending := by
  cases op with
  | create => exact h
  | join p =>
      simp only [apply, join]
      split
      · exact h
      · exact h.join p
  | notify candidate => rcases v.notify_cases candidate with ⟨_, _, heq⟩ | ⟨_, heq⟩ <;> rw [apply, heq] <;> exact h
  | stabilize reported =>
      rcases v.stabilize_cases reported with ⟨x, _, _, heq⟩ | ⟨_, heq⟩ <;> rw [apply, heq]
      · exact h.join x
      · exact h
  | syncSuccessors walked =>
      simp only [apply, syncSuccessors]
      split <;> exact h
  | setFinger k p => exact absurd rfl (hop k p)
  | eraseFinger id => exact h.erase id
  | erase p => exact h.erase p.id
  | clearPredecessorIf p =>
      simp only [apply, clearPredecessorIf]
      split
      · split <;> exact h
      · exact h

theorem foldl_ascending (h : v.fingers.Ascending) (hops : ∀ op ∈ ops, ∀ k p, op ≠ .setFinger k p) :
    (ops.foldl apply v).fingers.Ascending := by
  induction ops generalizing v with
  | nil => exact h
  | cons op ops ih =>
      obtain ⟨hop, hops⟩ := List.forall_mem_cons.mp hops
      exact ih (apply_ascending h hop) hops

/--
Operations that led to a view whose fingers are in order, and any more that set no single finger: if then the list runs
empty by a removal, and a finger is left, the closest of all that are left is promoted.
-/
theorem closest_finger_is_promoted {self : Peer} {bound : Nat} {v₀ : View} (hevolves : (fresh self bound).Evolves v₀)
    (hascending : v₀.fingers.Ascending) (ops : List Op) (hops : ∀ op ∈ ops, ∀ k p, op ≠ .setFinger k p) (x : Peer) :
    let v := ops.foldl View.apply v₀
    let w := v.erase x
    (∀ p ∈ v.successors.peers, p.id = x.id) → (∃ q, some q ∈ w.fingers.slots) →
      ∃ p, w.successors.peers = [p] ∧ some p ∈ w.fingers.slots ∧
        ∀ q, some q ∈ w.fingers.slots → self.id.distance p.id ≤ self.id.distance q.id := by
  intro v w hleft hfinger
  have hv : (fresh self bound).Evolves v := hevolves.trans ⟨ops, rfl⟩
  have hsound : v.Sound := hv.sound (.fresh self bound)
  obtain ⟨q, hq⟩ := hfinger
  obtain ⟨p, hfirst, hpeers⟩ := hsound.erase_promotes hleft hq
  refine ⟨p, hpeers, Fingers.first?_mem hfirst, fun r hr => ?_⟩
  have hle := ((foldl_ascending hascending hops).erase x.id).first?_le hfirst hr
  rwa [Fingers.erase_owner, hsound.table_owner, hv.self] at hle

/-- The first of four has repaired its fingers; then it hears of a fifth and of no other successor than its own. -/
def hearsay (next : Peer) : List Op := [.join ⟨5000, ⟨10, 0, 0, 9⟩, 7000⟩, .syncSuccessors [next]]

theorem closest_finger_is_promoted_four :
    let v := (hearsay (Ideal.four 1)).foldl View.apply (Ideal.fourView 0)
    (fresh (Ideal.four 0) 3).Evolves (Ideal.fourView 0) ∧ (Ideal.fourView 0).fingers.Ascending ∧
      (∀ op ∈ hearsay (Ideal.four 1), ∀ k p, op ≠ .setFinger k p) ∧
      (∀ p ∈ v.successors.peers, p.id = (Ideal.four 1).id) ∧
      (v.erase (Ideal.four 1)).successors.peers = [Ideal.four 2] := by
  intro v
  have hevolves : (fresh (Ideal.four 0) 3).Evolves (Ideal.fourView 0) :=
    (Evolves.apply _ (.join (Ideal.four 1))).trans (Operation.evolves_finish .fixFingers default _ _)
  have hascending : (Ideal.fourView 0).fingers.Ascending :=
    Repaired.ascending (σ := Ideal.fourMembers) (k := 0) Ideal.ideal_four.distinct (Ideal.ideal_four.sound 0).table_owner
      (Ideal.ideal_four.sound 0).table.slots_length (Ideal.ideal_four.fingers 0)
  have hops : ∀ op ∈ hearsay (Ideal.four 1), ∀ k p, op ≠ .setFinger k p := by simp [hearsay]
  have hleft : ∀ p ∈ v.successors.peers, p.id = (Ideal.four 1).id := by decide
  refine ⟨hevolves, hascending, hops, hleft, ?_⟩
  obtain ⟨p, hpeers, hp, hleast⟩ :=
    closest_finger_is_promoted hevolves hascending _ hops (Ideal.four 1) hleft ⟨Ideal.four 2, by decide⟩
  have hslots : ∀ slot ∈ (v.erase (Ideal.four 1)).fingers.slots, ∀ p ∈ slot,
      p = Ideal.four 2 ∨ (Ideal.four 0).id.distance (Ideal.four 2).id < (Ideal.four 0).id.distance p.id := by
    decide
  rcases hslots _ hp p rfl with rfl | hfar
  · exact hpeers
  · exact absurd (hleast (Ideal.four 2) (by decide)) (Nat.not_le.mpr hfar)

/-! ## A repair that fails for some slots -/

/-- The member whose successor goes. -/
def hub : Peer := ⟨0, ⟨10, 0, 0, 1⟩, 7000⟩

/-- The successor that goes. -/
def beside : Peer := ⟨4, ⟨10, 0, 0, 2⟩, 7000⟩

/-- The closest of the fingers. -/
def near : Peer := ⟨0x100000, ⟨10, 0, 0, 6⟩, 7000⟩

/-- The finger in the lowest slot. -/
def far : Peer := ⟨0x80000000, ⟨10, 0, 0, 7⟩, 7000⟩

/-- Two lookups run out of hops; the slots below them and above are brought up to date. -/
def answers : List (Except Failure Peer) :=
  List.replicate 3 (.ok beside) ++ [.error (.noSuccessor 8), .error (.noSuccessor 16)] ++ List.replicate 16 (.ok near) ++
    List.replicate 11 (.ok far)

/-- A member that joined behind `far`, came to know a closer successor, and has repaired some of its fingers. -/
def partlyRepaired : View :=
  (Gathering.fixFingers default).finish answers
    ([Op.join far, .stabilize (some beside), .syncSuccessors [beside]].foldl View.apply (fresh hub 1))

/-- The slots that were not brought up to date come first, so the nearer finger is passed over. -/
theorem nearer_finger_is_passed_over : (∀ p ∈ partlyRepaired.successors.peers, p.id = beside.id) ∧
    some near ∈ (partlyRepaired.erase beside).fingers.slots ∧ (partlyRepaired.erase beside).successors.peers = [far] ∧
    hub.id.distance near.id < hub.id.distance far.id := by decide

end View

end ChordOverlay
