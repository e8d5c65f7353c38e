import ChordOverlay.Proofs.SuccessorList
import Mathlib.Data.List.Perm.Subperm

/-!
# What a successor list chooses

Of all peers that were offered, a list keeps the first at each of the closest positions. So it makes no difference
whether they are offered one by one or all at once: whoever is turned away or pushed out would not have stayed either.
-/

namespace ChordOverlay

/-- The first of the peers at position `id`. -/
def firstAt (id : RingId) (ps : List Peer) : Option Peer := ps.find? fun p => p.id = id

variable {owner p q : Peer} {bound : Nat} {ps l m xs ys : List Peer} {s : Successors} {i : RingId}

/-! ## The first at a position -/

theorem firstAt_eq_some (h : firstAt i ps = some p) : p ∈ ps ∧ p.id = i := by
  have hid := List.find?_some h
  exact ⟨List.mem_of_find?_eq_some h, by simpa using hid⟩

theorem exists_firstAt (hq : q ∈ ps) : ∃ p, firstAt q.id ps = some p := by
  rw [← Option.isSome_iff_exists, firstAt, List.find?_isSome]
  exact ⟨q, hq, by simp⟩

theorem firstAt_append (i : RingId) (ps xs : List Peer) : firstAt i (ps ++ xs) = (firstAt i ps).or (firstAt i xs) :=
  List.find?_append

/-- Whoever is first at a position stays so, whoever comes later. -/
theorem firstAt_stays (h : firstAt i ps = some p) (xs : List Peer) : firstAt i (ps ++ xs) = some p := by
  rw [firstAt_append, h]
  rfl

/-- Whoever comes to a position where nobody was is the first there. -/
theorem firstAt_newcomer (hnew : ∀ x ∈ ps, x.id ≠ q.id) : firstAt q.id (ps ++ [q]) = some q := by
  rw [firstAt_append]
  cases hold : firstAt q.id ps with
  | none => simp [firstAt]
  | some x =>
      obtain ⟨hx, hid⟩ := firstAt_eq_some hold
      exact absurd hid (hnew x hx)

/-- Where the same come first, the same positions are there. -/
theorem forall_id_congr {Q : RingId → Prop} (hfirst : ∀ i, firstAt i ys = firstAt i xs) (h : ∀ p ∈ xs, Q p.id) :
    ∀ q ∈ ys, Q q.id := by
  intro q hq
  obtain ⟨x, hx⟩ := exists_firstAt hq
  rw [hfirst] at hx
  obtain ⟨hmem, hid⟩ := firstAt_eq_some hx
  rw [← hid]
  exact h x hmem

/-- Where positions tell peers apart, the order of the peers does not matter, nor does it matter who comes twice. -/
theorem firstAt_congr (hmem : ∀ p, p ∈ ys ↔ p ∈ xs) (hapart : ∀ p ∈ xs, ∀ q ∈ xs, p.id = q.id → p = q)
    (i : RingId) : firstAt i ys = firstAt i xs := by
  have hle : ∀ p, firstAt i ys = some p → firstAt i xs = some p := by
    intro p hp
    obtain ⟨hy, rfl⟩ := firstAt_eq_some hp
    obtain ⟨q, hq⟩ := exists_firstAt ((hmem p).mp hy)
    obtain ⟨hx, hid⟩ := firstAt_eq_some hq
    rw [hq, hapart q hx p ((hmem p).mp hy) hid]
  cases hfirst : firstAt i ys with
  | some p => rw [hle p hfirst]
  | none =>
      cases hother : firstAt i xs with
      | none => rfl
      | some q =>
          obtain ⟨hx, rfl⟩ := firstAt_eq_some hother
          obtain ⟨p, hp⟩ := exists_firstAt ((hmem q).mpr hx)
          rw [hfirst] at hp
          cases hp

namespace Successors

/-- `l` lists the first of `ps` at each of the `bound` positions closest behind `owner`, by distance. -/
structure Chooses (owner : Peer) (bound : Nat) (ps l : List Peer) : Prop where
  ordered : l.Pairwise fun p q => reach owner p < reach owner q
  others : ∀ p ∈ l, p.id ≠ owner.id
  first : ∀ p ∈ l, firstAt p.id ps = some p
  fits : l.length ≤ bound
  full : ∀ q ∈ ps, q.id ≠ owner.id →
    (∃ p ∈ l, p.id = q.id) ∨ l.length = bound ∧ ∀ p ∈ l, reach owner p < reach owner q

theorem firstAt_of_ordered (h : ps.Pairwise fun p q => reach owner p < reach owner q) (hp : p ∈ ps) :
    firstAt p.id ps = some p := by
  induction ps with
  | nil => cases hp
  | cons x ps ih =>
      obtain ⟨hx, hps⟩ := List.pairwise_cons.mp h
      rcases List.mem_cons.mp hp with rfl | hp
      · simp [firstAt]
      · have hne : x.id ≠ p.id := id_ne_of_lt (hx p hp)
        simpa [firstAt, hne] using ih hps hp

/-! ## The closest peers are a choice -/

theorem firstAt_insertByReach (i : RingId) (owner p : Peer) (ps : List Peer) :
    firstAt i (insertByReach owner p ps) = firstAt i (p :: ps) := by
  induction ps with
  | nil => rfl
  | cons q ps ih =>
      simp only [insertByReach]
      split
      · rfl
      · rename_i hfar
        have hne : p.id ≠ q.id := by
          intro hid
          exact hfar (Nat.le_of_eq (reach_eq.mpr hid))
        simp only [firstAt, List.find?_cons] at ih ⊢
        rw [ih]
        by_cases hq : q.id = i
        · have hp : p.id ≠ i := by
            rw [← hq]
            exact hne
          simp [hq, hp]
        · simp [hq]

theorem firstAt_sortByReach (i : RingId) (owner : Peer) (ps : List Peer) :
    firstAt i (sortByReach owner ps) = firstAt i ps := by
  induction ps with
  | nil => rfl
  | cons p ps ih =>
      change firstAt i (insertByReach owner p (sortByReach owner ps)) = _
      rw [firstAt_insertByReach]
      simp only [firstAt, List.find?_cons] at ih ⊢
      rw [ih]

theorem firstAt_skipRepeats {kept : RingId} (hi : i ≠ kept) (ps : List Peer) :
    firstAt i (skipRepeats kept ps) = firstAt i ps := by
  induction ps generalizing kept with
  | nil => rfl
  | cons p ps ih =>
      simp only [skipRepeats]
      split
      · rename_i hkept
        have hp : p.id ≠ i := by
          rw [hkept]
          exact Ne.symm hi
        simpa [firstAt, hp] using ih hi
      · by_cases hp : p.id = i
        · simp [firstAt, hp]
        · simpa [firstAt, hp] using ih (Ne.symm hp)

theorem firstAt_onePerId (i : RingId) (ps : List Peer) : firstAt i (onePerId ps) = firstAt i ps := by
  cases ps with
  | nil => rfl
  | cons p ps =>
      by_cases hp : p.id = i
      · simp [onePerId, firstAt, hp]
      · simpa [onePerId, firstAt, hp] using firstAt_skipRepeats (Ne.symm hp) ps

theorem firstAt_others (hi : i ≠ owner.id) (ps : List Peer) :
    firstAt i (ps.filter fun p => p.id ≠ owner.id) = firstAt i ps := by
  rw [firstAt, List.find?_filter, firstAt]
  congr 1
  funext p
  by_cases hp : p.id = i
  · simp [hp, hi]
  · simp [hp]

theorem chooses_closest (owner : Peer) (bound : Nat) (ps : List Peer) :
    Chooses owner bound ps (closest owner bound ps) := by
  -- All candidates in order, before the list is cut to its length.
  generalize hall : onePerId (sortByReach owner (ps.filter fun p => p.id ≠ owner.id)) = all
  have hordered : all.Pairwise fun p q => reach owner p < reach owner q := by
    rw [← hall]
    exact pairwise_onePerId (pairwise_sortByReach owner _)
  have hfirst : ∀ i, i ≠ owner.id → firstAt i all = firstAt i ps := by
    intro i hi
    rw [← hall, firstAt_onePerId, firstAt_sortByReach, firstAt_others hi]
  have hcut : closest owner bound ps = all.take bound := by rw [closest, hall]
  refine ⟨pairwise_closest owner bound ps, fun p hp => (mem_closest hp).2, ?_, length_closest owner bound ps, ?_⟩
  · intro p hp
    have hid := (mem_closest hp).2
    rw [hcut] at hp
    rw [← hfirst p.id hid]
    exact firstAt_of_ordered hordered (List.mem_of_mem_take hp)
  · intro q hq hid
    obtain ⟨p, hp⟩ := exists_firstAt hq
    rw [← hfirst q.id hid] at hp
    obtain ⟨hmem, hpid⟩ := firstAt_eq_some hp
    rw [← List.take_append_drop bound all] at hmem hordered
    rcases List.mem_append.mp hmem with hkept | hcutoff
    · exact Or.inl ⟨p, hcut ▸ hkept, hpid⟩
    · have hlong : bound < all.length := by
        by_contra hshort
        rw [List.drop_of_length_le (Nat.le_of_not_lt hshort)] at hcutoff
        cases hcutoff
      refine Or.inr ⟨?_, ?_⟩
      · rw [hcut, List.length_take, Nat.min_eq_left (Nat.le_of_lt hlong)]
      · intro x hx
        rw [hcut] at hx
        rw [← reach_eq.mpr hpid]
        exact (List.pairwise_append.mp hordered).2.2 x hx p hcutoff

/-! ## There is one choice -/

theorem subperm_of_covered (hordered : m.Pairwise fun p q => reach owner p < reach owner q)
    (hsub : ∀ x ∈ m, ∃ p ∈ l, p.id = x.id) : (m.map Peer.id).Subperm (l.map Peer.id) := by
  apply List.subperm_of_subset (ids_nodup hordered)
  intro i hi
  obtain ⟨x, hx, rfl⟩ := List.mem_map.mp hi
  obtain ⟨p, hp, hid⟩ := hsub x hx
  exact List.mem_map.mpr ⟨p, hp, hid⟩

theorem length_le_of_covered (hordered : m.Pairwise fun p q => reach owner p < reach owner q)
    (hsub : ∀ x ∈ m, ∃ p ∈ l, p.id = x.id) : m.length ≤ l.length := by
  simpa using (subperm_of_covered hordered hsub).length_le

/-- Two choices of one length are of the same positions as soon as one has all positions of the other. -/
theorem Chooses.covers (h : Chooses owner bound ps l) (hordered : m.Pairwise fun p q => reach owner p < reach owner q)
    (hfull : m.length = bound) (hsub : ∀ x ∈ m, ∃ p ∈ l, p.id = x.id) (hp : p ∈ l) : ∃ x ∈ m, x.id = p.id := by
  have hperm : (m.map Peer.id).Perm (l.map Peer.id) := by
    apply (subperm_of_covered hordered hsub).perm_of_length_le
    rw [List.length_map, List.length_map, hfull]
    exact h.fits
  exact List.mem_map.mp (hperm.mem_iff.mpr (List.mem_map.mpr ⟨p, hp, rfl⟩))

/-- Whoever is the first at a chosen position is chosen. -/
theorem Chooses.mem_of_first (h : Chooses owner bound ps l) (hfirst : firstAt p.id ps = some p)
    (hchosen : ∃ x ∈ l, x.id = p.id) : p ∈ l := by
  obtain ⟨x, hx, hid⟩ := hchosen
  have hx' := h.first x hx
  rw [hid, hfirst] at hx'
  exact Option.some.inj hx' ▸ hx

theorem Chooses.mem (h : Chooses owner bound ps l) (h' : Chooses owner bound ps m) (hp : p ∈ l) : p ∈ m := by
  have hfirst := h.first p hp
  rcases h'.full p (firstAt_eq_some hfirst).1 (h.others p hp) with hchosen | ⟨hlength, hcloser⟩
  · exact h'.mem_of_first hfirst hchosen
  · -- All of `m` lies before `p`, so it is in `l`, and there is no room for `p` in there.
    have hsub : ∀ x ∈ m, ∃ y ∈ l, y.id = x.id := by
      intro x hx
      rcases h.full x (firstAt_eq_some (h'.first x hx)).1 (h'.others x hx) with hkept | ⟨_, hbehind⟩
      · exact hkept
      · exact absurd (hbehind p hp) (Nat.lt_asymm (hcloser x hx))
    obtain ⟨x, hx, hid⟩ := h.covers h'.ordered hlength hsub hp
    exact absurd hid (id_ne_of_lt (hcloser x hx))

theorem Chooses.unique (h : Chooses owner bound ps l) (h' : Chooses owner bound ps m) : l = m := by
  have hperm : l.Perm m := by
    rw [List.perm_ext_iff_of_nodup (List.Nodup.of_map _ (ids_nodup h.ordered)) (List.Nodup.of_map _ (ids_nodup h'.ordered))]
    exact fun p => ⟨h.mem h', h'.mem h⟩
  apply hperm.eq_of_pairwise _ h.ordered h'.ordered
  intro p q _ _ hlt hgt
  exact absurd hgt (Nat.lt_asymm hlt)

theorem Chooses.eq_closest (h : Chooses owner bound ps l) : l = closest owner bound ps :=
  h.unique (chooses_closest owner bound ps)

/-- Only who is first at each position matters for the choice. -/
theorem Chooses.congr (h : Chooses owner bound xs l) (hfirst : ∀ i, firstAt i ys = firstAt i xs) :
    Chooses owner bound ys l := by
  refine ⟨h.ordered, h.others, fun p hp => (hfirst _).trans (h.first p hp), h.fits, ?_⟩
  exact forall_id_congr (Q := fun i => i ≠ owner.id → (∃ p ∈ l, p.id = i) ∨
    l.length = bound ∧ ∀ p ∈ l, reach owner p < owner.id.distance i) hfirst h.full

theorem closest_congr (hfirst : ∀ i, firstAt i ys = firstAt i xs) : closest owner bound ys = closest owner bound xs :=
  ((chooses_closest owner bound xs).congr hfirst).eq_closest.symm

/-! ## Offering more -/

section Offering

variable (h : Chooses owner bound ps l) (hm : Chooses owner bound (l ++ xs) m)

include h hm

/-- Whoever is chosen now is the first of all at its position, and not just of those who were left. -/
theorem Chooses.first_append (hx : p ∈ m) : firstAt p.id (ps ++ xs) = some p := by
  have hfirst := hm.first p hx
  rw [firstAt_append] at hfirst ⊢
  cases hold : firstAt p.id l with
  | some y =>
      rw [hold] at hfirst
      obtain rfl := Option.some.inj hfirst
      rw [h.first y (firstAt_eq_some hold).1]
      rfl
  | none =>
      rw [hold] at hfirst
      cases hgone : firstAt p.id ps with
      | none => exact hfirst
      | some y =>
          -- If `y` has lost its place to a full list, then so has everybody at its position.
          obtain ⟨hmem, hid⟩ := firstAt_eq_some hgone
          have hunlisted : ∀ z ∈ l, z.id ≠ p.id := by
            intro z hz hzid
            obtain ⟨w, hw⟩ := exists_firstAt hz
            rw [hzid, hold] at hw
            cases hw
          rcases h.full y hmem (hid ▸ hm.others p hx) with ⟨z, hz, hzid⟩ | ⟨hlength, hcloser⟩
          · exact absurd (hzid.trans hid) (hunlisted z hz)
          · rw [reach_eq.mpr hid] at hcloser
            have hall : ∀ z ∈ l, ∃ w ∈ m, w.id = z.id := by
              intro z hz
              rcases hm.full z (List.mem_append_left xs hz) (h.others z hz) with hkept | ⟨_, hbehind⟩
              · exact hkept
              · exact absurd (hbehind p hx) (Nat.lt_asymm (hcloser z hz))
            obtain ⟨z, hz, hzid⟩ := hm.covers h.ordered hlength hall hx
            exact absurd hzid (hunlisted z hz)

/-- Whoever lost its place to a full list finds no place among more. -/
theorem Chooses.full_append (hlength : l.length = bound) (hcloser : ∀ y ∈ l, reach owner y < reach owner q) :
    m.length = bound ∧ ∀ z ∈ m, reach owner z < reach owner q := by
  by_cases hsub : ∀ y ∈ l, ∃ z ∈ m, z.id = y.id
  · -- The choice is still of the same positions.
    have hle := length_le_of_covered h.ordered hsub
    rw [hlength] at hle
    refine ⟨Nat.le_antisymm hm.fits hle, ?_⟩
    intro z hz
    obtain ⟨y, hy, hyid⟩ := hm.covers h.ordered hlength hsub hz
    rw [← reach_eq.mpr hyid]
    exact hcloser y hy
  · obtain ⟨y, hy, hgone⟩ : ∃ y ∈ l, ¬ ∃ z ∈ m, z.id = y.id := by simpa using hsub
    rcases hm.full y (List.mem_append_left xs hy) (h.others y hy) with hkept | ⟨hmlength, hbefore⟩
    · exact absurd hkept hgone
    · exact ⟨hmlength, fun z hz => Nat.lt_trans (hbefore z hz) (hcloser y hy)⟩

/-- Whoever was not chosen will not be missed: to choose among the chosen and others is to choose among all. -/
theorem Chooses.append : Chooses owner bound (ps ++ xs) m := by
  refine ⟨hm.ordered, hm.others, fun p hp => h.first_append hm hp, hm.fits, ?_⟩
  intro q hq hid
  rcases List.mem_append.mp hq with hq | hq
  · rcases h.full q hq hid with ⟨p, hp, hpid⟩ | ⟨hlength, hcloser⟩
    · have hcase := hm.full p (List.mem_append_left xs hp) (hpid ▸ hid)
      rwa [hpid, reach_eq.mpr hpid] at hcase
    · exact Or.inr (h.full_append hm hlength hcloser)
  · exact hm.full q (List.mem_append_right l hq) hid

end Offering

theorem closest_append (owner : Peer) (bound : Nat) (ps xs : List Peer) :
    closest owner bound (closest owner bound ps ++ xs) = closest owner bound (ps ++ xs) :=
  ((chooses_closest owner bound ps).append (chooses_closest owner bound _)).eq_closest

/-! ## One offer -/

theorem Sound.chooses (h : s.Sound) : Chooses s.owner s.bound s.peers s.peers := by
  have hclosest := chooses_closest s.owner s.bound s.peers
  rwa [closest_of_ordered h.ordered h.others h.fits] at hclosest

theorem contains_iff : s.contains p = true ↔ ∃ q ∈ s.peers, q.id = p.id := by
  simp [contains]

theorem Sound.farthest_mem (h : s.Sound) (hfull : s.isFull = true) : s.farthest ∈ s.peers := by
  have hne : s.peers ≠ [] := by
    intro hnil
    have hroom := h.roomy
    simp [isFull, size, hnil] at hfull
    omega
  rw [farthest, List.getLast?_eq_some_getLast hne]
  exact List.getLast_mem hne

/-- The shortcuts by which an offer is turned away leave what the choice among all would leave. -/
theorem Sound.insert_eq (h : s.Sound) (p : Peer) : (s.insert p).1 = s.replace (s.peers ++ [p]) := by
  have hstays : (p.id = s.owner.id ∨ (∃ q ∈ s.peers, q.id = p.id) ∨
      s.peers.length = s.bound ∧ ∀ q ∈ s.peers, reach s.owner q < reach s.owner p) →
      s = s.replace (s.peers ++ [p]) := by
    intro hturned
    have hkept : s.peers = Successors.closest s.owner s.bound (s.peers ++ [p]) := by
      apply Chooses.eq_closest
      refine ⟨h.ordered, h.others, fun q hq => firstAt_stays (h.chooses.first q hq) _, h.fits, fun q hq hid => ?_⟩
      rcases List.mem_append.mp hq with hq | hq
      · exact h.chooses.full q hq hid
      · obtain rfl := List.mem_singleton.mp hq
        rcases hturned with howner | hcase
        · exact absurd howner hid
        · exact hcase
    rw [Successors.replace, ← hkept]
  unfold Successors.insert
  split
  · rename_i hturned
    rw [Bool.or_eq_true, contains_iff, decide_eq_true_eq] at hturned
    exact hstays (hturned.symm.imp_right Or.inl)
  · rename_i hnew
    rw [Bool.or_eq_true, contains_iff, not_or] at hnew
    split
    · rename_i hfar
      obtain ⟨hfull, hfar⟩ := Bool.and_eq_true_iff.mp hfar
      refine hstays (Or.inr (Or.inr ⟨?_, ?_⟩))
      · exact Nat.le_antisymm h.fits (of_decide_eq_true hfull)
      · intro q hq
        refine Nat.lt_of_le_of_ne (Nat.le_trans (h.le_farthest hq) (of_decide_eq_true hfar)) ?_
        intro hreach
        exact hnew.1 ⟨q, hq, reach_eq.mp hreach⟩
    · rfl

/-- An offer that is not turned away at once makes the cut. -/
theorem Sound.mem_of_offered (h : s.Sound) (hid : p.id ≠ s.owner.id) (hnew : ∀ q ∈ s.peers, q.id ≠ p.id)
    (hnear : s.isFull = true → reach s.owner p < reach s.owner s.farthest) :
    p ∈ Successors.closest s.owner s.bound (s.peers ++ [p]) := by
  have hkept := chooses_closest s.owner s.bound (s.peers ++ [p])
  generalize Successors.closest s.owner s.bound (s.peers ++ [p]) = kept at hkept
  have hfirst : firstAt p.id (s.peers ++ [p]) = some p := firstAt_newcomer hnew
  rcases hkept.full p (List.mem_append_right _ (List.mem_singleton_self p)) hid with hchosen | ⟨hlength, hcloser⟩
  · exact hkept.mem_of_first hfirst hchosen
  · -- Otherwise the list would be full, of peers closer than `p`.
    exfalso
    have hold : ∀ x ∈ kept, ∃ q ∈ s.peers, q.id = x.id := by
      intro x hx
      rcases List.mem_append.mp (firstAt_eq_some (hkept.first x hx)).1 with hq | hq
      · exact ⟨x, hq, rfl⟩
      · exact absurd (congrArg Peer.id (List.mem_singleton.mp hq)) (id_ne_of_lt (hcloser x hx))
    have hle := length_le_of_covered hkept.ordered hold
    rw [hlength] at hle
    have hfull : s.isFull = true := decide_eq_true hle
    obtain ⟨x, hx, hxid⟩ := h.chooses.covers hkept.ordered hlength hold (h.farthest_mem hfull)
    have hlt := hcloser x hx
    rw [reach_eq.mpr hxid] at hlt
    exact absurd (hnear hfull) (Nat.lt_asymm hlt)

/-- An offer is handed back exactly if it is in the list then and was not before; otherwise nothing changes. -/
theorem Sound.insert_cases (h : s.Sound) (p : Peer) :
    ((s.insert p).2 = some p ∧ p ∈ (s.insert p).1.peers ∧ p ∉ s.peers) ∨ s.insert p = (s, none) := by
  unfold Successors.insert
  split
  · exact Or.inr rfl
  · rename_i hnew
    rw [Bool.or_eq_true, contains_iff, decide_eq_true_eq, not_or] at hnew
    obtain ⟨hunlisted, hid⟩ := hnew
    split
    · exact Or.inr rfl
    · rename_i hnear
      have hmem : p ∈ Successors.closest s.owner s.bound (s.peers ++ [p]) := by
        apply h.mem_of_offered hid
        · intro q hq hqid
          exact hunlisted ⟨q, hq, hqid⟩
        · intro hfull
          rw [hfull, Bool.true_and, decide_eq_true_eq] at hnear
          exact Nat.lt_of_not_le hnear
      refine Or.inl ⟨?_, hmem, ?_⟩
      · simp [hmem]
      · intro hp
        exact hunlisted ⟨p, hp, rfl⟩

/-! ## Many offers -/

theorem extend_cons (s : Successors) (p : Peer) (xs : List Peer) : (s.extend (p :: xs)).1 = ((s.insert p).1.extend xs).1 := rfl

theorem Sound.extend_eq (h : s.Sound) (xs : List Peer) : (s.extend xs).1 = s.replace (s.peers ++ xs) := by
  induction xs generalizing s with
  | nil =>
      rw [List.append_nil, Successors.replace, closest_of_ordered h.ordered h.others h.fits]
      rfl
  | cons p xs ih =>
      rw [extend_cons, ih (h.insert p), h.insert_eq]
      simp only [Successors.replace, closest_append, List.append_assoc, List.singleton_append]

/-- The successor lists of `owner` that its operations can lead to. -/
inductive Held (owner : Peer) (bound : Nat) : Successors → Prop
  | empty : Held owner bound (.empty owner bound)
  | insert {s : Successors} (h : Held owner bound s) (p : Peer) : Held owner bound (s.insert p).1
  | extend {s : Successors} (h : Held owner bound s) (xs : List Peer) : Held owner bound (s.extend xs).1
  | erase {s : Successors} (h : Held owner bound s) (p : Peer) : Held owner bound (s.erase p)
  | replace {s : Successors} (h : Held owner bound s) (xs : List Peer) : Held owner bound (s.replace xs)

theorem Held.sound (h : Held owner bound s) : s.Sound ∧ s.owner = owner ∧ s.bound = max 1 bound := by
  induction h with
  | empty => exact ⟨.empty owner bound, rfl, rfl⟩
  | insert _ p ih => simpa using ⟨ih.1.insert p, ih.2⟩
  | extend _ xs ih =>
      rw [ih.1.extend_eq]
      exact ⟨ih.1.replace _, ih.2⟩
  | erase _ p ih => exact ⟨ih.1.erase p, ih.2⟩
  | replace _ xs ih => exact ⟨ih.1.replace xs, ih.2⟩

/--
Peers offered one after the other leave the list that all of them together with the old list would leave: the first at
each of the closest positions. Each offer is handed back exactly if it is new in the list, and otherwise changes
nothing. Where positions tell the peers apart, neither their order nor a repetition matters for the list.
-/
theorem Held.extend_chooses_closest (h : Held owner bound s) (xs : List Peer) :
    (s.extend xs).1 = s.replace (s.peers ++ xs) ∧
    (∀ l, (s.extend xs).1.peers = l ↔ Chooses owner (max 1 bound) (s.peers ++ xs) l) ∧
    (∀ p, ((s.insert p).2 = some p ∧ p ∈ (s.insert p).1.peers ∧ p ∉ s.peers) ∨ s.insert p = (s, none)) ∧
    ∀ ys, (∀ p, p ∈ ys ↔ p ∈ xs) → (∀ p ∈ xs, ∀ q ∈ xs, p.id = q.id → p = q) → (s.extend ys).1 = (s.extend xs).1 := by
  obtain ⟨hsound, rfl, hbound⟩ := h.sound
  refine ⟨hsound.extend_eq xs, ?_, hsound.insert_cases, ?_⟩
  · intro l
    rw [hsound.extend_eq, ← hbound]
    constructor
    · rintro rfl
      exact chooses_closest s.owner s.bound _
    · intro hl
      exact hl.eq_closest.symm
  · intro ys hmem hapart
    have hfirst : ∀ i, firstAt i (s.peers ++ ys) = firstAt i (s.peers ++ xs) := by
      intro i
      rw [firstAt_append, firstAt_append, firstAt_congr hmem hapart]
    rw [hsound.extend_eq, hsound.extend_eq, Successors.replace, Successors.replace, closest_congr hfirst]

/-- A list for two that begins right before zero. -/
def lastHouse : Peer := ⟨0xFFFF0000, ⟨10, 0, 0, 1⟩, 7000⟩

/-- The closest peer behind the last house, across zero. -/
def oldHouse : Peer := ⟨5, ⟨10, 0, 0, 6⟩, 7000⟩

/-- A full list that goes on across zero. -/
def street : Successors := ((((Successors.empty lastHouse 2).insert oldHouse).1.insert ⟨100, ⟨10, 0, 0, 7⟩, 7000⟩)).1

/-- Among those who are offered are the position of an entry and that of the owner, at other addresses. -/
def newHouses : List Peer :=
  [⟨5, ⟨10, 0, 0, 2⟩, 7000⟩, ⟨0xFFFF0000, ⟨10, 0, 0, 3⟩, 7000⟩, ⟨0xFFFFFFFF, ⟨10, 0, 0, 4⟩, 7000⟩,
    ⟨100, ⟨10, 0, 0, 5⟩, 7000⟩]

/-- In any order, the entry keeps its address and the farther one is pushed out. -/
theorem Held.extend_chooses_closest_around_zero : Held lastHouse 2 street ∧
    (∀ p, p ∈ newHouses.reverse ++ newHouses ↔ p ∈ newHouses) ∧
    (∀ p ∈ newHouses, ∀ q ∈ newHouses, p.id = q.id → p = q) ∧
    (street.extend (newHouses.reverse ++ newHouses)).1.peers = [⟨0xFFFFFFFF, ⟨10, 0, 0, 4⟩, 7000⟩, oldHouse] := by
  have hheld : Held lastHouse 2 street := (Held.empty.insert oldHouse).insert _
  have hmem : ∀ p, p ∈ newHouses.reverse ++ newHouses ↔ p ∈ newHouses := by simp
  have hapart : ∀ p ∈ newHouses, ∀ q ∈ newHouses, p.id = q.id → p = q := by decide
  obtain ⟨_, _, _, horder⟩ := hheld.extend_chooses_closest newHouses
  refine ⟨hheld, hmem, hapart, ?_⟩
  rw [horder _ hmem hapart]
  decide

-- Who is handed back does depend on the order, as some make the cut only for a while.
example : ((Successors.empty lastHouse 1).extend newHouses).2 ≠
    ((Successors.empty lastHouse 1).extend newHouses.reverse).2 := by decide

end Successors

end ChordOverlay
