import ChordOverlay.Proofs.Alone
import ChordOverlay.Proofs.Gap
import ChordOverlay.Proofs.HopBound

/-!
# Lookups with any fingers

On a ring whose fingers are members, whichever those are, every hop passes at least one member on the way. So a lookup
that may be passed on as often as there are other members comes to the owner, and one that may not be passed on as often
as it would have to be fails.
-/

namespace ChordOverlay

variable {ι κ : Type} {net : Net ι} {σ : ι → Member} {seat : κ → ι} {j k : κ} {id : RingId} {n : Nat} {ttl : UInt8}

/-- Where the fingers are members, so is the next hop. -/
theorem Ring.exists_hop {k : ι} (h : Ring σ) (hfingers : ∀ p, some p ∈ (σ k).view.fingers.slots → ∃ j, p = (σ j).self)
    (hid : id ≠ (σ k).self.id) : ∃ j, (σ k).view.hop id = (σ j).self := by
  rcases (σ k).view.hop_mem id with hfinger | hsuccessor
  · have howner := (h.sound k).table_owner
    have hmem := (Fingers.closestPreceding?_eq_some (by rw [howner]; exact hid) hfinger).1
    exact hfingers _ hmem
  · rw [hsuccessor]
    exact (h.next k).1

/-- The members at some of the hosts form a ring; they answer, and their fingers are among them. -/
structure Seated (net : Net ι) (σ : ι → Member) (seat : κ → ι) : Prop extends Ring fun k => σ (seat k) where
  fingers : ∀ k p, some p ∈ (σ (seat k)).view.fingers.slots → ∃ j, p = (σ (seat j)).self
  reached : ∀ k, net.reach (σ (seat k)).self.address = some (seat k)
  answered : ∀ k e, ¬ net.fails (σ (seat k)).self.address e

theorem Seated.congr {σ' : ι → Member} (h : Seated net σ seat) (heq : ∀ k, σ' (seat k) = σ (seat k)) :
    Seated net σ' seat := by
  obtain ⟨hring, hfingers, hreached, hanswered⟩ := h
  refine ⟨?_, ?_, ?_, ?_⟩ <;> simp only [heq] <;> assumption

/-- The members a lookup of `id` may be passed on to from `k`. -/
def ahead [Fintype ι] (σ : ι → Member) (k : ι) (id : RingId) : Finset ι :=
  Finset.univ.filter fun j => RingId.Between (σ k).self.id (σ j).self.id id

section Counting

variable [Fintype ι] {i j : ι}

theorem mem_ahead : j ∈ ahead σ i id ↔ RingId.Between (σ i).self.id (σ j).self.id id := by simp [ahead]

theorem card_ahead_le (σ : ι → Member) (i : ι) (id : RingId) : (ahead σ i id).card ≤ Fintype.card ι - 1 := by
  classical
  have hnot : i ∉ ahead σ i id := fun h => by simpa using (mem_ahead.mp h).1
  have hsub : ahead σ i id ⊆ Finset.univ.erase i := fun j hj =>
    Finset.mem_erase.mpr ⟨fun hji => hnot (hji ▸ hj), Finset.mem_univ j⟩
  rw [← Finset.card_univ, ← Finset.card_erase_of_mem (Finset.mem_univ i)]
  exact Finset.card_le_card hsub

/-- Whoever is passed on to has fewer ahead. -/
theorem card_ahead_lt (hj : j ∈ ahead σ i id) : (ahead σ j id).card < (ahead σ i id).card := by
  have hbetween := mem_ahead.mp hj
  refine Finset.card_lt_card (Finset.ssubset_iff_of_subset (fun x hx => ?_) |>.mpr ⟨j, hj, fun hjj => ?_⟩)
  · have hx := mem_ahead.mp hx
    have hway := RingId.distance_add (Nat.le_of_lt hbetween.2)
    have hsize := RingId.distance_lt (σ i).self.id id
    obtain ⟨hpos, hlt⟩ := hx
    have hsum := RingId.distance_add_of_lt (a := (σ i).self.id) (b := (σ j).self.id) (c := (σ x).self.id) (by omega)
    have := hbetween.1
    exact mem_ahead.mpr ⟨by omega, by omega⟩
  · simpa using (mem_ahead.mp hjj).1

end Counting

/-- On its way from `k` to a member that names the owner of `id`, a lookup is passed on `n` times. -/
inductive Passed (σ : ι → Member) (id : RingId) : Nat → ι → Prop
  | here {k : ι} {p : Peer} (found : (σ k).view.findSuccessor id = .found p) : Passed σ id 0 k
  | onward {n : Nat} {j k : ι} (contact : (σ k).view.findSuccessor id = .contact (σ j).self (.findSuccessor id))
      (rest : Passed σ id n j) : Passed σ id (n + 1) k

theorem Passed.unique {k : ι} {m : Nat} (hids : ∀ j k, (σ j).self.id = (σ k).self.id → j = k) (h : Passed σ id n k)
    (h' : Passed σ id m k) : n = m := by
  induction h generalizing m with
  | here found =>
      cases h' with
      | here => rfl
      | onward contact =>
          rw [found] at contact
          cases contact
  | onward contact rest ih =>
      cases h' with
      | here found =>
          rw [contact] at found
          cases found
      | onward contact' rest' =>
          rw [contact] at contact'
          rw [hids _ _ (congrArg Peer.id (Decision.contact.inj contact').1)] at ih
          rw [ih rest']

namespace Seated

/-- Each hop passes a member on the way, so there are no more hops than members ahead. -/
theorem exists_passed [Fintype κ] (h : Seated net σ seat) (k : κ) (id : RingId) :
    ∃ n ≤ (ahead (fun k => σ (seat k)) k id).card, Passed (fun k => σ (seat k)) id n k := by
  induction hcard : (ahead (fun k => σ (seat k)) k id).card using Nat.strong_induction_on generalizing k with
  | h c ih =>
      rcases (h.sound k).findSuccessor_cases id with ⟨_, heq⟩ | ⟨_, heq, _⟩ | ⟨hid, heq, _, _, hbetween⟩
      · exact ⟨0, Nat.zero_le _, .here heq⟩
      · exact ⟨0, Nat.zero_le _, .here heq⟩
      · obtain ⟨j, hj⟩ := h.toRing.exists_hop (h.fingers k) hid
        rw [hj] at heq hbetween
        have hlt := card_ahead_lt (σ := fun k => σ (seat k)) (mem_ahead.mpr hbetween)
        obtain ⟨n, hn, hpassed⟩ := ih _ (hcard ▸ hlt) j rfl
        exact ⟨n + 1, by omega, .onward heq hpassed⟩

variable [DecidableEq ι] {d : Duty}

/-- What a lookup comes to that may be passed on `ttl` times and would have to be `n` times. -/
def Outcome (σ : κ → Member) (id : RingId) (n : Nat) (ttl : UInt8) : Except Failure Peer → Prop
  | .ok p => n ≤ ttl.toNat ∧ Owns σ id p
  | .error _ => ttl.toNat < n

/-- With enough hops a lookup comes to the owner, and otherwise to nothing. It changes nobody on the way. -/
theorem rests_passed (h : Seated net σ seat) (hpassed : Passed (fun k => σ (seat k)) id n k) (ttl : UInt8)
    (g : Except Failure Peer → d.Result) :
    ∃ m r, Outcome (fun k => σ (seat k)) id n ttl r ∧
      Strand.Rests net σ (g r) m (.run (seat k) ((Activity.lookup id ttl).bind fun r => .done (g r))) := by
  induction hpassed generalizing ttl d with
  | @here k p found =>
      exact ⟨1, .ok p, ⟨Nat.zero_le _, h.found found⟩, .go (Activity.proceed_lookup_found _ (h.joined k) found) .done⟩
  | @onward n j k contact rest ih =>
      by_cases httl : ttl = 0
      · subst httl
        exact ⟨1, .error _, Nat.succ_pos n, .go (Activity.proceed_lookup_exhausted _ (h.joined k) contact) .done⟩
      obtain ⟨next, hproceed, hfound, hnone⟩ :=
        Activity.proceed_lookup_contact (fun r => Program.done (g r)) (h.joined k) httl contact
      have hhops := hops_left httl
      -- The hop answers with what its own lookup returns.
      obtain ⟨m, r, hr, hcallee⟩ := ih (d := .serve (.owner id (ttl - 1))) (ttl - 1) Ideal.report
      rw [← Ideal.answer_owner (net.source (seat k))] at hcallee
      cases r with
      | ok p =>
          have hback : next ((Query.owner id (ttl - 1)).read (.lookupReport (some p))) = .done (g (.ok p)) := hfound p
          refine ⟨_, .ok p, ⟨?_, hr.2⟩, .go hproceed (.call (n := 0) (h.reached j) (h.answered j) hcallee ?_)⟩
          · have := hr.1
            omega
          · rw [hback]
            exact .done
      | error e =>
          have hback : next ((Query.owner id (ttl - 1)).read (.lookupReport none)) = .done (g (.error (.noSuccessor id))) :=
            hnone
          refine ⟨_, .error (.noSuccessor id), ?_, .go hproceed (.call (n := 0) (h.reached j) (h.answered j) hcallee ?_)⟩
          · have hshort : (ttl - 1).toNat < n := hr
            change ttl.toNat < n + 1
            omega
          · rw [hback]
            exact .done

/-- A lookup that may be passed on often enough comes to the owner, and changes nobody on the way. -/
theorem rests_lookup [Fintype κ] (h : Seated net σ seat) (hhops : (ahead (fun k => σ (seat k)) k id).card ≤ ttl.toNat)
    (g : Except Failure Peer → d.Result) :
    ∃ n p, Owns (fun k => σ (seat k)) id p ∧
      Strand.Rests net σ (g (.ok p)) n (.run (seat k) ((Activity.lookup id ttl).bind fun r => .done (g r))) := by
  obtain ⟨n, hn, hpassed⟩ := h.exists_passed k id
  obtain ⟨m, r, hr, hrests⟩ := h.rests_passed hpassed ttl g
  cases r with
  | ok p => exact ⟨m, p, hr.2, hrests⟩
  | error e => exact absurd (Nat.lt_of_lt_of_le hr hn) (Nat.not_lt.mpr hhops)

end Seated

end ChordOverlay
