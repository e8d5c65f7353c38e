import ChordOverlay.Proofs.Distance
import ChordOverlay.Fingers

/-!
# Finger tables

A table keeps its number of slots and never holds its owner. A position that is dropped is gone from every slot,
and what is asked first on the way to a target is the occupant of the highest slot that lies before the target.
-/

namespace ChordOverlay

namespace Fingers

variable {t : Fingers} {i x : RingId} {p q : Peer} {k : Nat} {slots : List (Option Peer)}

/-! ## The occupant of a slot -/

theorem get?_eq_some : t.get? k = some p ↔ t.slots[k]? = some (some p) := by
  rw [get?]
  cases t.slots[k]? <;> simp

theorem mem_slots : some p ∈ t.slots ↔ ∃ k, t.get? k = some p := by
  simp only [get?_eq_some, List.mem_iff_getElem?]

theorem slots_split (hk : t.slots[k]? = some (some p)) : t.slots = t.slots.take k ++ some p :: t.slots.drop (k + 1) := by
  obtain ⟨hlt, hget⟩ := List.getElem?_eq_some_iff.mp hk
  rw [← hget, ← List.drop_eq_getElem_cons hlt, List.take_append_drop]

/-! ## Dropping a position -/

theorem holds_iff {slot : Option Peer} : holds i slot = true ↔ ∃ p, slot = some p ∧ p.id = i := by
  cases slot <;> simp [holds]

theorem contains_iff : t.contains i = true ↔ ∃ p, some p ∈ t.slots ∧ p.id = i := by
  simp only [contains, List.any_eq_true, holds_iff]
  constructor
  · rintro ⟨_, hmem, p, rfl, hid⟩
    exact ⟨p, hmem, hid⟩
  · rintro ⟨p, hmem, hid⟩
    exact ⟨_, hmem, p, rfl, hid⟩

theorem afterLast_eq_some (h : afterLast i slots = some p) : some p ∈ slots ∧ p.id ≠ i := by
  unfold afterLast at h
  have hlast : (slots.reverse.takeWhile fun slot => !holds i slot).getLast? = some (some p) := by
    cases hl : (slots.reverse.takeWhile fun slot => !holds i slot).getLast? with
    | none => simp [hl] at h
    | some slot => simpa [hl] using h
  have hmem := List.mem_of_getLast? hlast
  refine ⟨by simpa using (List.takeWhile_sublist _).mem hmem, fun hid => ?_⟩
  have hnot := List.all_eq_true.mp List.all_takeWhile _ hmem
  simp [holds, hid] at hnot

theorem mem_erase (h : some p ∈ (t.erase i).slots) : some p ∈ t.slots ∧ p.id ≠ i := by
  simp only [erase, List.mem_map] at h
  obtain ⟨slot, hslot, heq⟩ := h
  split at heq
  · exact afterLast_eq_some heq
  · rename_i hnot
    subst heq
    exact ⟨hslot, fun hid => hnot (holds_iff.mpr ⟨p, rfl, hid⟩)⟩

theorem get?_erase_of_ne (hne : ∀ p, t.get? k = some p → p.id ≠ i) : (t.erase i).get? k = t.get? k := by
  rcases hslot : t.slots[k]? with _ | slot
  · simp [get?, erase, hslot]
  · have hnot : ¬ holds i slot = true := by
      rw [holds_iff]
      rintro ⟨p, rfl, hid⟩
      exact hne p (get?_eq_some.mpr hslot) hid
    simp [get?, erase, hslot, hnot]

theorem mem_erase_of_ne (hp : some p ∈ t.slots) (hid : p.id ≠ i) : some p ∈ (t.erase i).slots := by
  obtain ⟨k, hk⟩ := mem_slots.mp hp
  refine mem_slots.mpr ⟨k, ?_⟩
  rw [get?_erase_of_ne, hk]
  rintro q hq
  rw [hk] at hq
  cases hq
  exact hid

theorem erase_of_not_mem (h : ∀ p, some p ∈ t.slots → p.id ≠ i) : t.erase i = t := by
  have hkept : ∀ slot ∈ t.slots, (if holds i slot then afterLast i t.slots else slot) = slot := by
    intro slot hslot
    rw [if_neg]
    rw [holds_iff]
    rintro ⟨p, rfl, hid⟩
    exact h p hslot hid
  rw [erase, List.map_congr_left hkept, List.map_id']

theorem mem_join (h : some q ∈ (t.join p).slots) : some q ∈ t.slots ∨ (q = p ∧ p.id ≠ t.owner.id) := by
  unfold join at h
  split at h
  · exact Or.inl h
  · rename_i hid
    obtain ⟨k, hk, heq⟩ := List.mem_mapIdx.mp h
    split at heq
    · exact Or.inr ⟨(Option.some.inj heq).symm, hid⟩
    · exact Or.inl (heq ▸ List.getElem_mem hk)

theorem mem_set {r : Option Peer} (h : some q ∈ (t.set k r).slots) :
    some q ∈ t.slots ∨ (r = some q ∧ q.id ≠ t.owner.id) := by
  rcases List.mem_or_eq_of_mem_set h with h | h
  · exact Or.inl h
  · have := Option.filter_eq_some_iff.mp h.symm
    exact Or.inr (by simpa using this)

@[simp] theorem erase_owner (t : Fingers) (i : RingId) : (t.erase i).owner = t.owner := rfl

@[simp] theorem set_owner (t : Fingers) (k : Nat) (r : Option Peer) : (t.set k r).owner = t.owner := rfl

@[simp] theorem join_owner (t : Fingers) (p : Peer) : (t.join p).owner = t.owner := by
  unfold join
  split <;> rfl

/-! ## What every table keeps to -/

/-- The form that all operations preserve. -/
structure Sound (t : Fingers) : Prop where
  slots_length : t.slots.length = RingId.bits
  others : ∀ p, some p ∈ t.slots → p.id ≠ t.owner.id

theorem Sound.full (owner : Peer) : (Fingers.full owner).Sound where
  slots_length := List.length_replicate
  others := fun p hp => by cases List.eq_of_mem_replicate hp

theorem Sound.erase (h : t.Sound) (i : RingId) : (t.erase i).Sound where
  slots_length := by simp [Fingers.erase, h.slots_length]
  others := fun p hp => h.others p (mem_erase hp).1

theorem Sound.set (h : t.Sound) (k : Nat) (r : Option Peer) : (t.set k r).Sound where
  slots_length := by simp [Fingers.set, h.slots_length]
  others := fun p hp => by
    rcases mem_set hp with hp | ⟨_, hid⟩
    · exact h.others p hp
    · exact hid

theorem Sound.join (h : t.Sound) (p : Peer) : (t.join p).Sound where
  slots_length := by
    unfold Fingers.join
    split
    · exact h.slots_length
    · simp [h.slots_length]
  others := fun q hq => by
    rw [join_owner]
    rcases mem_join hq with hq | ⟨rfl, hid⟩
    · exact h.others q hq
    · exact hid

/-! ## The highest finger before a target -/

theorem closestPreceding?_eq_some (hx : x ≠ t.owner.id) (h : t.closestPreceding? x = some p) :
    some p ∈ t.slots ∧ RingId.Between t.owner.id p.id x := by
  unfold closestPreceding? at h
  have hmem := List.mem_of_find?_eq_some h
  have hpred := List.find?_some h
  rw [Bool.and_eq_true, RingId.inArc_neither (Ne.symm hx)] at hpred
  refine ⟨?_, hpred.1⟩
  simpa using hmem

/-- The slot from which the next hop is taken: nothing above it lies before the target. -/
theorem closestPreceding?_of_highest (hx : x ≠ t.owner.id) (hk : t.slots[k]? = some (some p))
    (hp : RingId.Between t.owner.id p.id x)
    (habove : ∀ j q, k < j → t.slots[j]? = some (some q) → ¬ RingId.Between t.owner.id q.id x) :
    t.closestPreceding? x = some p := by
  have hpid : p.id ≠ x := RingId.ne_of_distance_lt hp.2
  have hnone : ((t.slots.drop (k + 1)).reverse.filterMap id).find?
      (fun q => q.id.inArc t.owner.id x .neither && q.id ≠ x) = none := by
    rw [List.find?_eq_none]
    intro q hq
    obtain ⟨j, hj⟩ := List.mem_iff_getElem?.mp (by simpa using hq : some q ∈ t.slots.drop (k + 1))
    rw [List.getElem?_drop] at hj
    rw [Bool.and_eq_true, RingId.inArc_neither (Ne.symm hx)]
    exact fun h => habove _ q (by omega) hj h.1
  unfold closestPreceding?
  rw [slots_split hk, List.reverse_append, List.reverse_cons, List.append_assoc, List.filterMap_append,
    List.find?_append, hnone, Option.none_or, List.singleton_append, List.filterMap_cons_some (f := id) rfl,
    List.find?_cons_of_pos]
  rw [Bool.and_eq_true, RingId.inArc_neither (Ne.symm hx)]
  exact ⟨hp, by simpa using hpid⟩

end Fingers

end ChordOverlay
