import ChordOverlay.Proofs.Passage
import Mathlib.Data.List.Induction

/-!
# Finger repair

A round of repair looks up the owners of all starts at once, in tables that may be as stale as they like. Every lookup
that has hops enough brings its slot up to date; no other slot changes, and nothing else does.
-/

namespace ChordOverlay

/-! ## What is put into the slots -/

namespace Fingers

variable {t : Fingers} {i k : Nat} {r : Option Peer}

theorem get?_set_self (hk : k < t.slots.length) : (t.set k r).get? k = r.filter fun q => q.id ≠ t.owner.id := by
  simp [Fingers.get?, Fingers.set, hk]

theorem get?_set_of_ne (h : k ≠ i) : (t.set k r).get? i = t.get? i := by
  simp [Fingers.get?, Fingers.set, List.getElem?_set_ne h]

end Fingers

namespace Gathering

/-- What a slot holds after its lookup. -/
def refilled (owner : RingId) (slot : Option Peer) : Option (Except Failure Peer) → Option Peer
  | some (.ok p) => (some p).filter fun q => q.id ≠ owner
  | _ => slot

theorem fixFingers_concat (m : Member) (results : List (Except Failure Peer)) (r : Except Failure Peer) (v : View) :
    (fixFingers m).finish (results ++ [r]) v = match r with
      | .ok p => ((fixFingers m).finish results v).setFinger results.length (some p)
      | .error _ => (fixFingers m).finish results v := by
  cases r <;> simp [fixFingers, List.zipIdx_append]

/-- Every result is for the slot of its own number. -/
theorem fixFingers_get? (m : Member) (results : List (Except Failure Peer)) {v : View} (hv : v.Sound) {i : Nat}
    (hi : i < RingId.bits) : ((fixFingers m).finish results v).fingers.get? i =
      refilled v.self.id (v.fingers.get? i) results[i]? := by
  induction results using List.reverseRecOn with
  | nil => rfl
  | append_singleton results r ih =>
      rw [fixFingers_concat]
      rcases Nat.lt_trichotomy i results.length with hlt | rfl | hgt
      · rw [List.getElem?_append_left hlt, ← ih]
        cases r with
        | error e => rfl
        | ok p => exact Fingers.get?_set_of_ne (Nat.ne_of_gt hlt)
      · rw [List.getElem?_concat_length]
        cases r with
        | error e =>
            rw [ih, List.getElem?_eq_none (Nat.le_refl _)]
            rfl
        | ok p =>
            obtain ⟨fingers, hsound, howner, heq⟩ := fixFingers_finish m results hv
            rw [heq]
            change (fingers.set _ _).get? _ = _
            rw [Fingers.get?_set_self (hsound.slots_length ▸ hi), howner]
            rfl
      · have hbeyond : (results ++ [r]).length ≤ i := by simpa using Nat.succ_le_of_lt hgt
        rw [List.getElem?_eq_none hbeyond, ← List.getElem?_eq_none (Nat.le_of_lt hgt), ← ih]
        cases r with
        | error e => rfl
        | ok p => exact Fingers.get?_set_of_ne (Nat.ne_of_lt hgt)

end Gathering

theorem Front.ofOperation_fixFingers {ι : Type} (host : ι) (m : Member) :
    Front.ofOperation host .fixFingers m = ⟨host, .own .fixFingers,
      m.view.fingerStarts.map fun id => .run host (Activity.lookup id m.settings.maxHops), (Gathering.fixFingers m).finish⟩ := by
  rw [Front.ofOperation, Operation.gathering, Gathering.fixFingers, List.map_map]
  rfl

theorem View.getElem?_fingerStarts (v : View) {i : Nat} (hi : i < RingId.bits) :
    v.fingerStarts[i]? = some (v.self.id.fingerStart i) := by
  simp [View.fingerStarts, hi]

/-! ## The whole round -/

/-- Slot `i` of the table holds the owner of its start, and nobody where that is the member itself. -/
def Repaired {ι : Type} (σ : ι → Member) (k : ι) (t : Fingers) (i : Nat) : Prop :=
  ∃ p, Owns σ ((σ k).self.id.fingerStart i) p ∧ t.get? i = if p = (σ k).self then none else some p

theorem Repaired.get?_eq {ι : Type} {σ : ι → Member} {k : ι} {t : Fingers} {i : Nat} {p : Peer} (h : Repaired σ k t i)
    (hids : ∀ j k, (σ j).self.id = (σ k).self.id → j = k) (hp : Owns σ ((σ k).self.id.fingerStart i) p) :
    t.get? i = if p = (σ k).self then none else some p := by
  obtain ⟨q, hq, hslot⟩ := h
  rwa [hq.unique hids hp] at hslot

namespace Seated

variable {ι κ : Type} {net : Net ι} {σ : ι → Member} {seat : κ → ι} {k : κ} {p : Peer} {id : RingId} {n : Nat}

theorem slot_of_outcome {t : Fingers} {slot : Option Peer} {r : Except Failure Peer} {ttl : UInt8} {i : Nat}
    (h : Seated net σ seat) (hr : Outcome (fun j => σ (seat j)) ((σ (seat k)).self.id.fingerStart i) n ttl r)
    (hslot : t.get? i = Gathering.refilled (σ (seat k)).self.id slot (some r)) :
    (n ≤ ttl.toNat → Repaired (fun j => σ (seat j)) k t i) ∧ (ttl.toNat < n → t.get? i = slot) := by
  cases r with
  | ok p =>
      obtain ⟨hle, howns⟩ := hr
      refine ⟨fun _ => ⟨p, howns, ?_⟩, fun hlt => absurd hle (Nat.not_le.mpr hlt)⟩
      rw [hslot]
      exact h.toRing.others_only k howns.1
  | error e => exact ⟨fun hle => absurd hle (Nat.not_le.mpr hr), fun _ => hslot⟩

variable [Fintype κ]

theorem passed_le (h : Seated net σ seat) (hpassed : Passed (fun k => σ (seat k)) id n k) : n ≤ Fintype.card κ - 1 := by
  obtain ⟨m, hm, hpassed'⟩ := h.exists_passed k id
  rw [hpassed.unique h.distinct hpassed']
  exact Nat.le_trans hm (card_ahead_le _ k id)

variable [DecidableEq ι]

theorem rests_lookups (h : Seated net σ seat) (k : κ) (ttl : UInt8) (ids : List RingId) :
    ∃ m, ∃ rs : List (Except Failure Peer),
      Front.Rests (d := .own .fixFingers) net σ m (ids.map fun id => .run (seat k) (Activity.lookup id ttl)) rs ∧
      ∀ (i : Nat) id, ids[i]? = some id → ∃ n r, rs[i]? = some r ∧ Passed (fun k => σ (seat k)) id n k ∧
        Outcome (fun k => σ (seat k)) id n ttl r := by
  induction ids with
  | nil => exact ⟨0, [], .nil, nofun⟩
  | cons id ids ih =>
      obtain ⟨m', rs, hrests, hrs⟩ := ih
      obtain ⟨n, _, hpassed⟩ := h.exists_passed k id
      obtain ⟨m, r, hr, hfirst⟩ := h.rests_passed (d := .own .fixFingers) hpassed ttl fun r => r
      rw [Program.bind_done] at hfirst
      refine ⟨m + m', r :: rs, .cons hfirst hrests, fun i id' hid => ?_⟩
      cases i with
      | zero =>
          cases hid
          exact ⟨n, r, rfl, hpassed, hr⟩
      | succ i => exact hrs i id' hid

/--
A round of finger repair at any member of a true ring, over whatever members stand in the tables: in the end nothing
but its slots has changed. Each slot whose lookup has hops enough is exact, as are all of them if there are as many
hops as other members, and each other slot is what it was.
-/
theorem repaired_slots_are_exact (h : Seated net σ seat) (k : κ) :
    World.Ends net
      (fun σ' => ∃ t : Fingers, t.slots.length = RingId.bits ∧ t.owner = (σ (seat k)).view.fingers.owner ∧
        σ' = Function.update σ (seat k) { σ (seat k) with view.fingers := t } ∧
        (Fintype.card κ - 1 ≤ (σ (seat k)).settings.maxHops.toNat →
          ∀ i < RingId.bits, Repaired (fun j => σ (seat j)) k t i) ∧
        ∀ i < RingId.bits, ∃ n,
          (∀ m, Passed (fun j => σ (seat j)) ((σ (seat k)).self.id.fingerStart i) m k ↔ m = n) ∧
          (n ≤ (σ (seat k)).settings.maxHops.toNat → Repaired (fun j => σ (seat j)) k t i) ∧
          ((σ (seat k)).settings.maxHops.toNat < n → t.get? i = (σ (seat k)).view.fingers.get? i))
      ⟨σ, [.ofOperation (seat k) .fixFingers (σ (seat k))]⟩ := by
  have hv := h.sound k
  obtain ⟨m, rs, hrests, hrs⟩ := h.rests_lookups k (σ (seat k)).settings.maxHops (σ (seat k)).view.fingerStarts
  obtain ⟨t, hsound, howner, heq⟩ := Gathering.fixFingers_finish (σ (seat k)) rs hv
  have hslots : ∀ i < RingId.bits, ∃ n, Passed (fun j => σ (seat j)) ((σ (seat k)).self.id.fingerStart i) n k ∧
      (n ≤ (σ (seat k)).settings.maxHops.toNat → Repaired (fun j => σ (seat j)) k t i) ∧
      ((σ (seat k)).settings.maxHops.toNat < n → t.get? i = (σ (seat k)).view.fingers.get? i) := by
    intro i hi
    obtain ⟨n, r, hr, hpassed, houtcome⟩ := hrs i _ ((σ (seat k)).view.getElem?_fingerStarts hi)
    have hslot := Gathering.fixFingers_get? (σ (seat k)) rs hv hi
    rw [heq, hr] at hslot
    exact ⟨n, hpassed, h.slot_of_outcome houtcome hslot⟩
  rw [Front.ofOperation_fixFingers]
  refine World.ends_of_jobs hrests ⟨t, hsound.slots_length, howner.trans hv.table_owner.symm, ?_, ?_, ?_⟩
  · rw [heq]
  · intro hhops i hi
    obtain ⟨n, hpassed, hexact, _⟩ := hslots i hi
    exact hexact (Nat.le_trans (h.passed_le hpassed) hhops)
  · intro i hi
    obtain ⟨n, hpassed, hslot⟩ := hslots i hi
    refine ⟨n, fun m => ⟨fun hm => hm.unique h.distinct hpassed, ?_⟩, hslot⟩
    rintro rfl
    exact hpassed

/-- Four members that know their successors, and have a finger that has fallen behind. -/
def hasty (hops : UInt8) (k : Fin 4) : Member :=
  let view := ((View.fresh (Ideal.four k) 3).join (Ideal.fourOwner ((Ideal.four k).id.advance 1))).1
  ⟨{ maxHops := hops }, .joined, view.setFinger 11 (some (Ideal.fourOwner 1000)), []⟩

theorem seated_hasty {hops : UInt8} (hhops : hops = 1 ∨ hops = 3) : Seated (.flawless Ideal.four) (hasty hops) fun k => k where
  joined := fun _ => rfl
  distinct := by rcases hhops with rfl | rfl <;> decide
  sound := fun k => ((View.Sound.fresh (Ideal.four k) 3).join _).setFinger 11 _
  next := by
    unfold Next
    rcases hhops with rfl | rfl <;> decide
  fingers := by
    have hslots : ∀ k, ∀ slot ∈ (hasty hops k).view.fingers.slots, ∀ p ∈ slot, ∃ j, p = (hasty hops j).self := by
      rcases hhops with rfl | rfl <;> decide
    exact fun k p hp => hslots k _ hp p rfl
  reached := by rcases hhops with rfl | rfl <;> decide
  answered := fun _ _ => id

/-- With one hop the start of the next slot is reached and the one after that is not; with three hops both are. -/
theorem repaired_slots_are_exact_four :
    Seated (.flawless Ideal.four) (hasty 1) (fun k => k) ∧ Seated (.flawless Ideal.four) (hasty 3) (fun k => k) ∧
    World.Ends (.flawless Ideal.four)
      (fun σ' => (σ' 0).view.fingers.get? 10 = some (Ideal.four 2) ∧ (σ' 0).view.fingers.get? 11 = some (Ideal.four 1))
      ⟨hasty 1, [.ofOperation 0 .fixFingers (hasty 1 0)]⟩ ∧
    World.Ends (.flawless Ideal.four)
      (fun σ' => (σ' 0).view.fingers.get? 10 = some (Ideal.four 2) ∧ (σ' 0).view.fingers.get? 11 = none)
      ⟨hasty 3, [.ofOperation 0 .fixFingers (hasty 3 0)]⟩ := by
  have hone := seated_hasty (Or.inl rfl)
  have hthree := seated_hasty (Or.inr rfl)
  have hnear : ∀ hops, hops = 1 ∨ hops = 3 → Owns (hasty hops) ((hasty hops 0).self.id.fingerStart 10) (Ideal.four 2) := by
    unfold Owns
    rintro _ (rfl | rfl) <;> decide
  have hround : Owns (hasty 3) ((hasty 3 0).self.id.fingerStart 11) (Ideal.four 0) := by
    unfold Owns
    decide
  have hfirst : Passed (hasty 1) ((hasty 1 0).self.id.fingerStart 10) 1 0 :=
    .onward (j := 1) (by decide) (.here (p := Ideal.four 2) (by decide))
  have hsecond : Passed (hasty 1) ((hasty 1 0).self.id.fingerStart 11) 3 0 :=
    .onward (j := 1) (by decide) (.onward (j := 2) (by decide) (.onward (j := 3) (by decide)
      (.here (p := Ideal.four 0) (by decide))))
  refine ⟨hone, hthree, (hone.repaired_slots_are_exact 0).mono ?_, (hthree.repaired_slots_are_exact 0).mono ?_⟩
  · rintro _ ⟨t, _, _, rfl, _, hslots⟩
    obtain ⟨n, hn, hexact, _⟩ := hslots 10 (by decide)
    obtain ⟨m, hm, _, hkept⟩ := hslots 11 (by decide)
    rw [← (hn 1).mp hfirst] at hexact
    rw [← (hm 3).mp hsecond] at hkept
    rw [Function.update_self]
    exact ⟨(hexact (by decide)).get?_eq hone.distinct (hnear 1 (Or.inl rfl)), hkept (by decide)⟩
  · rintro _ ⟨t, _, _, rfl, hexact, _⟩
    have hall := hexact (by decide)
    rw [Function.update_self]
    exact ⟨(hall 10 (by decide)).get?_eq hthree.distinct (hnear 3 (Or.inr rfl)),
      (hall 11 (by decide)).get?_eq hthree.distinct hround⟩

end Seated

end ChordOverlay
