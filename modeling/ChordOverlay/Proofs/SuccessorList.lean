import ChordOverlay.Proofs.Distance
import ChordOverlay.Successors
import Mathlib.Data.List.Pairwise
import Mathlib.Data.List.Sort

/-!
# Successor lists

A successor list never names its owner, goes strictly clockwise and stays within its bound. Every operation
keeps this, and the nearest entry after an operation is at most as far as anything that was offered.
-/

namespace ChordOverlay

namespace Successors

variable {owner p q : Peer} {bound : Nat} {ps : List Peer} {s : Successors}

/-! ## Sorting -/

theorem sortByReach_eq (owner : Peer) (ps : List Peer) :
    sortByReach owner ps = ps.insertionSort fun p q => reach owner p ≤ reach owner q := by
  have hinsert : ∀ p qs, insertByReach owner p qs = qs.orderedInsert (fun p q => reach owner p ≤ reach owner q) p := by
    intro p qs
    induction qs with
    | nil => rfl
    | cons q qs ih => simp only [insertByReach, List.orderedInsert_cons, ih]
  induction ps with
  | nil => rfl
  | cons p ps ih =>
      rw [List.insertionSort_cons, ← ih, ← hinsert]
      rfl

theorem mem_sortByReach : q ∈ sortByReach owner ps ↔ q ∈ ps := by
  rw [sortByReach_eq, List.mem_insertionSort]

theorem pairwise_sortByReach (owner : Peer) (ps : List Peer) :
    (sortByReach owner ps).Pairwise fun p q => reach owner p ≤ reach owner q := by
  rw [sortByReach_eq]
  have : Std.Total fun p q : Peer => reach owner p ≤ reach owner q := ⟨fun _ _ => Nat.le_total _ _⟩
  have : IsTrans Peer fun p q => reach owner p ≤ reach owner q := ⟨fun _ _ _ => Nat.le_trans⟩
  exact List.pairwise_insertionSort _ ps

/-! ## One entry per position -/

theorem skipRepeats_sublist (kept : RingId) (ps : List Peer) : (skipRepeats kept ps).Sublist ps := by
  induction ps generalizing kept with
  | nil => exact .slnil
  | cons p ps ih =>
      simp only [skipRepeats]
      split
      · exact (ih kept).cons p
      · exact (ih p.id).cons_cons p

theorem reach_eq : reach owner p = reach owner q ↔ p.id = q.id := RingId.distance_inj

theorem id_ne_of_lt (h : reach owner p < reach owner q) : p.id ≠ q.id := fun hid => Nat.ne_of_lt h (reach_eq.mpr hid)

theorem ids_nodup (h : ps.Pairwise fun p q => reach owner p < reach owner q) : (ps.map Peer.id).Nodup := by
  rw [List.Nodup, List.pairwise_map]
  exact h.imp id_ne_of_lt

/-- In a list sorted by reach, what is left lies strictly behind the entry kept last, and strictly in order. -/
theorem pairwise_skipRepeats {kept : Peer} (hkept : ∀ q ∈ ps, reach owner kept ≤ reach owner q)
    (hsorted : ps.Pairwise fun p q => reach owner p ≤ reach owner q) :
    (kept :: skipRepeats kept.id ps).Pairwise fun p q => reach owner p < reach owner q := by
  induction ps generalizing kept with
  | nil => exact List.pairwise_singleton _ _
  | cons p ps ih =>
      obtain ⟨hp, hps⟩ := List.pairwise_cons.mp hsorted
      have hle : reach owner kept ≤ reach owner p := hkept p List.mem_cons_self
      simp only [skipRepeats]
      split
      · exact ih (fun q hq => hkept q (List.mem_cons_of_mem _ hq)) hps
      · rename_i hid
        have hlt : reach owner kept < reach owner p :=
          Nat.lt_of_le_of_ne hle fun h => hid (reach_eq.mp h).symm
        refine List.pairwise_cons.mpr ⟨fun q hq => ?_, ih hp hps⟩
        rcases List.mem_cons.mp hq with rfl | hq
        · exact hlt
        · exact Nat.lt_of_lt_of_le hlt (hp q ((skipRepeats_sublist _ _).mem hq))

theorem onePerId_sublist (ps : List Peer) : (onePerId ps).Sublist ps := by
  cases ps with
  | nil => exact .slnil
  | cons p ps => exact (skipRepeats_sublist p.id ps).cons_cons p

theorem pairwise_onePerId (hsorted : ps.Pairwise fun p q => reach owner p ≤ reach owner q) :
    (onePerId ps).Pairwise fun p q => reach owner p < reach owner q := by
  cases ps with
  | nil => exact .nil
  | cons p ps =>
      obtain ⟨hp, hps⟩ := List.pairwise_cons.mp hsorted
      exact pairwise_skipRepeats hp hps

/-! ## The closest peers -/

theorem mem_closest (h : q ∈ closest owner bound ps) : q ∈ ps ∧ q.id ≠ owner.id := by
  have hq := mem_sortByReach.mp ((onePerId_sublist _).mem (List.mem_of_mem_take h))
  simpa using List.mem_filter.mp hq

theorem pairwise_closest (owner : Peer) (bound : Nat) (ps : List Peer) :
    (closest owner bound ps).Pairwise fun p q => reach owner p < reach owner q :=
  (pairwise_onePerId (pairwise_sortByReach _ _)).sublist (List.take_sublist _ _)

theorem length_closest (owner : Peer) (bound : Nat) (ps : List Peer) : (closest owner bound ps).length ≤ bound :=
  List.length_take_le _ _

/-- The first of the closest peers is at most as far as any that was offered. -/
theorem closest_head (hbound : 0 < bound) (hq : q ∈ ps) (hid : q.id ≠ owner.id) :
    ∃ p rest, closest owner bound ps = p :: rest ∧ reach owner p ≤ reach owner q := by
  have hmem : q ∈ sortByReach owner (ps.filter fun p => p.id ≠ owner.id) :=
    mem_sortByReach.mpr (List.mem_filter.mpr ⟨hq, by simpa using hid⟩)
  have hsorted := pairwise_sortByReach owner (ps.filter fun p => p.id ≠ owner.id)
  obtain ⟨n, rfl⟩ : ∃ n, bound = n + 1 := ⟨bound - 1, by omega⟩
  unfold closest
  cases hlist : sortByReach owner (ps.filter fun p => p.id ≠ owner.id) with
  | nil =>
      rw [hlist] at hmem
      cases hmem
  | cons p rest =>
      rw [hlist] at hmem hsorted
      refine ⟨p, _, rfl, ?_⟩
      rcases List.mem_cons.mp hmem with rfl | hmem
      · exact Nat.le_refl _
      · exact (List.pairwise_cons.mp hsorted).1 q hmem

theorem skipRepeats_of_ordered {kept : Peer} (h : (kept :: ps).Pairwise fun p q => reach owner p < reach owner q) :
    skipRepeats kept.id ps = ps := by
  induction ps generalizing kept with
  | nil => rfl
  | cons p ps ih =>
      obtain ⟨hkept, hrest⟩ := List.pairwise_cons.mp h
      have hlt := hkept p List.mem_cons_self
      have hid : p.id ≠ kept.id := (id_ne_of_lt hlt).symm
      simp only [skipRepeats, if_neg hid, ih hrest]

theorem onePerId_of_ordered (h : ps.Pairwise fun p q => reach owner p < reach owner q) : onePerId ps = ps := by
  cases ps with
  | nil => rfl
  | cons p ps => rw [onePerId, skipRepeats_of_ordered h]

/-- Of a list that is in order, the front is kept. -/
theorem closest_eq_take (hord : ps.Pairwise fun p q => reach owner p < reach owner q)
    (hothers : ∀ p ∈ ps, p.id ≠ owner.id) : closest owner bound ps = ps.take bound := by
  have hfilter : (ps.filter fun p => p.id ≠ owner.id) = ps := List.filter_eq_self.mpr fun p hp => by simpa using hothers p hp
  have hsort : sortByReach owner ps = ps := by
    rw [sortByReach_eq]
    exact List.Pairwise.insertionSort_eq (hord.imp fun h => Nat.le_of_lt h)
  rw [closest, hfilter, hsort, onePerId_of_ordered hord]

/-- A list that has the form already is kept as it is. -/
theorem closest_of_ordered (hord : ps.Pairwise fun p q => reach owner p < reach owner q)
    (hothers : ∀ p ∈ ps, p.id ≠ owner.id) (hfits : ps.length ≤ bound) : closest owner bound ps = ps := by
  rw [closest_eq_take hord hothers, List.take_of_length_le hfits]

/-- Where there is room for all and no two have one position, everybody is kept. -/
theorem mem_closest_of_apart (hapart : ps.Pairwise fun p q => p.id ≠ q.id) (hfits : ps.length ≤ bound) (hq : q ∈ ps)
    (hid : q.id ≠ owner.id) : q ∈ closest owner bound ps := by
  have hperm : (sortByReach owner (ps.filter fun p => p.id ≠ owner.id)).Perm (ps.filter fun p => p.id ≠ owner.id) := by
    rw [sortByReach_eq]
    exact List.perm_insertionSort _ _
  have hordered : (sortByReach owner (ps.filter fun p => p.id ≠ owner.id)).Pairwise fun p q => reach owner p < reach owner q := by
    refine ((pairwise_sortByReach owner _).and (hperm.symm.pairwise (hapart.filter _) Ne.symm)).imp ?_
    rintro p q ⟨hle, hne⟩
    exact Nat.lt_of_le_of_ne hle fun h => hne (reach_eq.mp h)
  rw [closest, onePerId_of_ordered hordered, List.take_of_length_le]
  · exact mem_sortByReach.mpr (List.mem_filter.mpr ⟨hq, by simpa using hid⟩)
  · rw [hperm.length_eq]
    exact Nat.le_trans (List.length_filter_le _ _) hfits

/-! ## What every list keeps to -/

/-- The form that all operations preserve. -/
structure Sound (s : Successors) : Prop where
  ordered : s.peers.Pairwise fun p q => reach s.owner p < reach s.owner q
  others : ∀ p ∈ s.peers, p.id ≠ s.owner.id
  fits : s.peers.length ≤ s.bound
  roomy : 0 < s.bound

theorem Sound.empty (owner : Peer) (bound : Nat) : (Successors.empty owner bound).Sound :=
  ⟨.nil, by simp [Successors.empty], by simp [Successors.empty], by simp [Successors.empty]⟩

theorem Sound.closest (h : s.Sound) (ps : List Peer) :
    Sound { s with peers := Successors.closest s.owner s.bound ps } :=
  ⟨pairwise_closest _ _ _, fun _ hp => (mem_closest hp).2, length_closest _ _ _, h.roomy⟩

theorem Sound.replace (h : s.Sound) (ps : List Peer) : (s.replace ps).Sound := h.closest ps

theorem Sound.insert (h : s.Sound) (p : Peer) : (s.insert p).1.Sound := by
  unfold Successors.insert
  split
  · exact h
  · split
    · exact h
    · exact h.closest _

theorem Sound.erase (h : s.Sound) (p : Peer) : (s.erase p).Sound where
  ordered := h.ordered.sublist List.filter_sublist
  others := fun q hq => h.others q (List.mem_filter.mp hq).1
  fits := Nat.le_trans (List.length_filter_le _ _) h.fits
  roomy := h.roomy

@[simp] theorem insert_owner (s : Successors) (p : Peer) : (s.insert p).1.owner = s.owner := by
  unfold Successors.insert
  split
  · rfl
  · split <;> rfl

@[simp] theorem insert_bound (s : Successors) (p : Peer) : (s.insert p).1.bound = s.bound := by
  unfold Successors.insert
  split
  · rfl
  · split <;> rfl

/-! ## What an operation leaves in the list -/

theorem mem_insert (h : q ∈ (s.insert p).1.peers) : q = p ∨ q ∈ s.peers := by
  unfold Successors.insert at h
  split at h
  · exact Or.inr h
  · split at h
    · exact Or.inr h
    · have := (mem_closest h).1
      simpa [or_comm] using this

theorem mem_replace (h : q ∈ (s.replace ps).peers) : q ∈ ps := (mem_closest h).1

theorem mem_erase (h : q ∈ (s.erase p).peers) : q ∈ s.peers ∧ q.id ≠ p.id := by
  simpa [Successors.erase] using h

/-! ## The nearest entry -/

theorem nearest_nil (h : s.peers = []) : s.nearest = s.owner := by simp [nearest, h]

theorem nearest_mem (h : s.peers ≠ []) : s.nearest ∈ s.peers := by
  cases hp : s.peers with
  | nil => exact absurd hp h
  | cons p ps => simp [nearest, hp]

theorem Sound.eq_of_id (h : s.Sound) (hp : p ∈ s.peers) (hq : q ∈ s.peers) (hid : p.id = q.id) : p = q := by
  by_contra hne
  have hapart : s.peers.Pairwise fun p q => p.id ≠ q.id := h.ordered.imp id_ne_of_lt
  have : Std.Symm fun p q : Peer => p.id ≠ q.id := ⟨fun _ _ => Ne.symm⟩
  exact hapart.forall hp hq hne hid

theorem Sound.nearest_id (h : s.Sound) : s.nearest.id = s.owner.id ↔ s.peers = [] :=
  ⟨fun hid => by_contra fun hne => h.others _ (nearest_mem hne) hid, fun hnil => by rw [nearest_nil hnil]⟩

theorem Sound.nearest_le (h : s.Sound) (hq : q ∈ s.peers) : reach s.owner s.nearest ≤ reach s.owner q := by
  have hord := h.ordered
  cases hp : s.peers with
  | nil => simp [hp] at hq
  | cons p ps =>
      rw [hp] at hq hord
      have hnear : s.nearest = p := by simp [nearest, hp]
      rw [hnear]
      rcases List.mem_cons.mp hq with rfl | hq
      · exact Nat.le_refl _
      · exact Nat.le_of_lt ((List.pairwise_cons.mp hord).1 q hq)

theorem Sound.le_farthest (h : s.Sound) (hq : q ∈ s.peers) : reach s.owner q ≤ reach s.owner s.farthest := by
  have hne : s.peers ≠ [] := List.ne_nil_of_mem hq
  have hfar : s.farthest = s.peers.getLast hne := by
    rw [farthest, List.getLast?_eq_some_getLast hne]
    rfl
  have hsplit := List.dropLast_concat_getLast hne
  have hord := h.ordered
  rw [hfar]
  rw [← hsplit] at hq hord
  rcases List.mem_append.mp hq with hq | hq
  · exact Nat.le_of_lt ((List.pairwise_append.mp hord).2.2 q hq _ (List.mem_singleton.mpr rfl))
  · rw [List.mem_singleton.mp hq]

/-- After a list has been replaced, the nearest entry is one of the new peers and at most as far as any of them. -/
theorem Sound.nearest_replace (h : s.Sound) (hq : q ∈ ps) (hid : q.id ≠ s.owner.id) :
    (s.replace ps).peers ≠ [] ∧ reach s.owner (s.replace ps).nearest ≤ reach s.owner q := by
  obtain ⟨p, rest, heq, hle⟩ := closest_head h.roomy hq hid
  have hpeers : (s.replace ps).peers = p :: rest := heq
  exact ⟨by simp [hpeers], by simpa [nearest, hpeers] using hle⟩

/-- After `p` has been offered, the nearest entry is at most as far as `p` and as any entry from before. -/
theorem Sound.nearest_insert (h : s.Sound) (hid : p.id ≠ s.owner.id) (hq : q = p ∨ q ∈ s.peers) :
    (s.insert p).1.peers ≠ [] ∧ reach s.owner (s.insert p).1.nearest ≤ reach s.owner q := by
  -- The entry that stands for `p` when `p` is turned away: one at its position, or the farthest.
  have hkept : ∀ x ∈ s.peers, reach s.owner x ≤ reach s.owner p →
      s.peers ≠ [] ∧ reach s.owner s.nearest ≤ reach s.owner q := by
    intro x hx hle
    refine ⟨List.ne_nil_of_mem hx, ?_⟩
    rcases hq with rfl | hq
    · exact Nat.le_trans (h.nearest_le hx) hle
    · exact h.nearest_le hq
  unfold Successors.insert
  split
  · rename_i hc
    simp only [Bool.or_eq_true, decide_eq_true_eq] at hc
    rcases hc with hc | hc
    · obtain ⟨x, hx, hxp⟩ := List.any_eq_true.mp hc
      exact hkept x hx (Nat.le_of_eq (reach_eq.mpr (of_decide_eq_true hxp)))
    · exact absurd hc hid
  · split
    · rename_i hfull
      obtain ⟨hsize, hfar⟩ := Bool.and_eq_true_iff.mp hfull
      have hne : s.peers ≠ [] := by
        intro hnil
        have hroom := h.roomy
        have hle : s.bound ≤ s.peers.length := of_decide_eq_true hsize
        rw [hnil, List.length_nil] at hle
        omega
      exact hkept _ (nearest_mem hne) (Nat.le_trans (h.le_farthest (nearest_mem hne)) (of_decide_eq_true hfar))
    · refine h.nearest_replace ?_ ?_
      · simpa [or_comm] using hq
      · rcases hq with rfl | hq
        · exact hid
        · exact h.others q hq

end Successors

end ChordOverlay
