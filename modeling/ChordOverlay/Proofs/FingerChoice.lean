import ChordOverlay.Proofs.FingerOrder
import ChordOverlay.Proofs.SuccessorChoice
import Mathlib.Data.List.Induction

/-!
# What a finger table chooses

Of all peers that were joined to a new table, each slot keeps the first at the closest position it admits. Where
positions tell peers apart, nothing is left of the order in which they came.
-/

namespace ChordOverlay

namespace Fingers

variable {owner p q : Peer} {ps qs : List Peer} {k size : Nat}

/-- Of `ps`, the first at the closest position that slot `k` admits. -/
structure Suits (owner : Peer) (k : Nat) (ps : List Peer) (p : Peer) : Prop where
  first : firstAt p.id ps = some p
  admitted : Nat.pow 2 k ≤ owner.id.distance p.id
  least : ∀ q ∈ ps, Nat.pow 2 k ≤ owner.id.distance q.id → owner.id.distance p.id ≤ owner.id.distance q.id

namespace Suits

theorem mem (h : Suits owner k ps p) : p ∈ ps := (firstAt_eq_some h.first).1

theorem unique (hp : Suits owner k ps p) (hq : Suits owner k ps q) : p = q := by
  have hid : p.id = q.id :=
    RingId.distance_inj.mp (Nat.le_antisymm (hp.least q hq.mem hq.admitted) (hq.least p hp.mem hp.admitted))
  have hfirst := hp.first
  rw [hid, hq.first] at hfirst
  exact (Option.some.inj hfirst).symm

theorem keep (h : Suits owner k ps p)
    (hq : Nat.pow 2 k ≤ owner.id.distance q.id → owner.id.distance p.id ≤ owner.id.distance q.id) :
    Suits owner k (ps ++ [q]) p where
  first := firstAt_stays h.first [q]
  admitted := h.admitted
  least := List.forall_mem_append.mpr ⟨h.least, List.forall_mem_singleton.mpr hq⟩

theorem newcomer (hadmitted : Nat.pow 2 k ≤ owner.id.distance q.id)
    (hcloser : ∀ x ∈ ps, Nat.pow 2 k ≤ owner.id.distance x.id → owner.id.distance q.id < owner.id.distance x.id) :
    Suits owner k (ps ++ [q]) q where
  first := firstAt_newcomer fun x hx hid => by
    have hlt := hcloser x hx (hid ▸ hadmitted)
    rw [hid] at hlt
    exact Nat.lt_irrefl _ hlt
  admitted := hadmitted
  least := List.forall_mem_append.mpr
    ⟨fun x hx hadmitted' => Nat.le_of_lt (hcloser x hx hadmitted'), List.forall_mem_singleton.mpr fun _ => Nat.le_refl _⟩

/-- Only who is first at each position matters. -/
theorem congr (h : Suits owner k ps p) (hfirst : ∀ i, firstAt i qs = firstAt i ps) : Suits owner k qs p where
  first := (hfirst _).trans h.first
  admitted := h.admitted
  least := forall_id_congr (Q := fun i => Nat.pow 2 k ≤ owner.id.distance i → owner.id.distance p.id ≤ owner.id.distance i)
    hfirst h.least

end Suits

/-! ## Peers joined one after another -/

/-- Peers join the table one after the other. -/
def joinAll (t : Fingers) (ps : List Peer) : Fingers := ps.foldl join t

theorem joinAll_concat (t : Fingers) (ps : List Peer) (p : Peer) : t.joinAll (ps ++ [p]) = (t.joinAll ps).join p := by
  rw [joinAll, List.foldl_concat]
  rfl

@[simp] theorem joinAll_owner (t : Fingers) (ps : List Peer) : (t.joinAll ps).owner = t.owner := by
  induction ps using List.reverseRecOn with
  | nil => rfl
  | append_singleton ps p ih => rw [joinAll_concat, join_owner, ih]

@[simp] theorem length_joinAll (t : Fingers) (ps : List Peer) : (t.joinAll ps).slots.length = t.slots.length := by
  induction ps using List.reverseRecOn with
  | nil => rfl
  | append_singleton ps p ih => rw [joinAll_concat, length_join, ih]

/-- A slot is empty as long as it admits nobody who came, and has who suits it from then on. -/
theorem joinAll_cases (owner : Peer) (ps : List Peer) (hk : k < size) :
    (((empty owner size).joinAll ps).get? k = none ∧ ∀ q ∈ ps, owner.id.distance q.id < Nat.pow 2 k) ∨
      ∃ p, ((empty owner size).joinAll ps).get? k = some p ∧ Suits owner k ps p := by
  induction ps using List.reverseRecOn with
  | nil => exact Or.inl ⟨get?_empty owner size k, nofun⟩
  | append_singleton ps p ih =>
      have hlt : k < ((empty owner size).joinAll ps).slots.length := by
        rw [length_joinAll]
        exact List.length_replicate.symm ▸ hk
      have howner : ((empty owner size).joinAll ps).owner = owner := joinAll_owner _ ps
      rw [joinAll_concat, get?_join hlt]
      split
      · rename_i himproves
        obtain ⟨hadmitted, hcloser⟩ := improves_iff.mp himproves
        rw [howner] at hadmitted hcloser
        refine Or.inr ⟨p, rfl, .newcomer hadmitted fun x hx hx' => ?_⟩
        rcases ih with ⟨_, hnobody⟩ | ⟨q, hq, hsuits⟩
        · exact absurd hx' (Nat.not_le.mpr (hnobody x hx))
        · exact Nat.lt_of_lt_of_le (hcloser q hq) (hsuits.least x hx hx')
      · rename_i hkept
        rcases ih with ⟨hnone, hnobody⟩ | ⟨q, hq, hsuits⟩
        · refine Or.inl ⟨hnone, fun x hx => ?_⟩
          rcases List.mem_append.mp hx with hx | hx
          · exact hnobody x hx
          · rw [List.mem_singleton.mp hx]
            refine Nat.lt_of_not_le fun hadmitted => hkept (improves_iff.mpr ?_)
            rw [howner, hnone]
            exact ⟨hadmitted, nofun⟩
        · refine Or.inr ⟨q, hq, hsuits.keep fun hadmitted => ?_⟩
          rw [← howner] at hadmitted
          obtain ⟨r, hr, hle⟩ := exists_of_not_improves hadmitted hkept
          rw [hq] at hr
          cases hr
          rwa [howner] at hle

theorem get?_joinAll (owner : Peer) (ps : List Peer) (hk : k < size) :
    ((empty owner size).joinAll ps).get? k = some p ↔ Suits owner k ps p := by
  rcases joinAll_cases owner ps hk with ⟨hnone, hnobody⟩ | ⟨q, hq, hsuits⟩
  · rw [hnone]
    exact ⟨nofun, fun h => absurd h.admitted (Nat.not_le.mpr (hnobody p h.mem))⟩
  · rw [hq]
    constructor
    · rintro ⟨⟩
      exact hsuits
    · intro h
      rw [hsuits.unique h]

theorem get?_joinAll_eq_none (owner : Peer) (ps : List Peer) (hk : k < size) :
    ((empty owner size).joinAll ps).get? k = none ↔ ∀ q ∈ ps, owner.id.distance q.id < Nat.pow 2 k := by
  rcases joinAll_cases owner ps hk with ⟨hnone, hnobody⟩ | ⟨p, hp, hsuits⟩
  · exact ⟨fun _ => hnobody, fun _ => hnone⟩
  · rw [hp]
    exact ⟨nofun, fun h => absurd hsuits.admitted (Nat.not_le.mpr (h p hsuits.mem))⟩

theorem ext_get? {t u : Fingers} (howner : t.owner = u.owner) (hlength : t.slots.length = u.slots.length)
    (hslots : ∀ k < t.slots.length, t.get? k = u.get? k) : t = u := by
  have heq : t.slots = u.slots := by
    refine List.ext_getElem hlength fun k hk hk' => ?_
    simpa [get?, hk, hk'] using hslots k hk
  cases t
  cases u
  cases howner
  cases heq
  rfl

/-- Whoever has a position that was joined before is as close as somebody who is there. -/
theorem join_joinAll (owner : Peer) (size : Nat) (hq : q ∈ ps) (hid : q.id = p.id) :
    ((empty owner size).joinAll ps).join p = (empty owner size).joinAll ps := by
  refine ext_get? (join_owner _ p) (length_join _ p) fun k hk => ?_
  rw [length_join] at hk
  have hsize : k < size := by simpa [empty] using hk
  rw [get?_join hk, if_neg]
  intro himproves
  obtain ⟨hadmitted, hcloser⟩ := improves_iff.mp himproves
  rw [joinAll_owner, ← hid] at hadmitted hcloser
  rcases joinAll_cases owner ps hsize with ⟨_, hnobody⟩ | ⟨r, hr, hsuits⟩
  · exact Nat.not_le.mpr (hnobody q hq) hadmitted
  · exact Nat.not_lt.mpr (hsuits.least q hq hadmitted) (hcloser r hr)

theorem joinAll_congr (owner : Peer) (size : Nat) (hfirst : ∀ i, firstAt i qs = firstAt i ps) :
    (empty owner size).joinAll qs = (empty owner size).joinAll ps := by
  refine ext_get? (by simp) (by simp) fun k hk => ?_
  have hsize : k < size := by simpa [empty] using hk
  apply Option.ext
  intro p
  rw [get?_joinAll owner qs hsize, get?_joinAll owner ps hsize]
  exact ⟨fun h => h.congr fun i => (hfirst i).symm, fun h => h.congr hfirst⟩

/--
Whatever peers are joined to a new table of any size: each slot has the first at the closest position it admits, and is
empty if it admits nobody. A position that was joined before changes nothing, and where positions tell the peers apart
neither does the order of the peers.
-/
theorem joined_slots_are_exact (owner : Peer) (size : Nat) (ps : List Peer) :
    let t := (empty owner size).joinAll ps
    (t.slots.length = size ∧ ∀ k < size, (∀ p, t.get? k = some p ↔ Suits owner k ps p) ∧
      (t.get? k = none ↔ ∀ q ∈ ps, owner.id.distance q.id < Nat.pow 2 k)) ∧
    (∀ p, ∀ q ∈ ps, q.id = p.id → t.join p = t) ∧
    ∀ qs, (∀ p, p ∈ qs ↔ p ∈ ps) → (∀ p ∈ ps, ∀ q ∈ ps, p.id = q.id → p = q) → (empty owner size).joinAll qs = t := by
  intro t
  refine ⟨⟨?_, fun k hk => ⟨fun p => get?_joinAll owner ps hk, get?_joinAll_eq_none owner ps hk⟩⟩, ?_, ?_⟩
  · exact (length_joinAll _ ps).trans List.length_replicate
  · exact fun p q hq hid => join_joinAll owner size hq hid
  · exact fun qs hmem hapart => joinAll_congr owner size (firstAt_congr hmem hapart)

/-- Two on either side of what slot 8 admits, and the owner. -/
def doors : List Peer :=
  [⟨0x000000FF, ⟨10, 0, 0, 2⟩, 7000⟩, ⟨0, ⟨10, 0, 0, 1⟩, 7000⟩, ⟨0x00000100, ⟨10, 0, 0, 3⟩, 7000⟩]

/-- Slot 8 goes to the one at its very start, whoever comes first and however often. -/
theorem joined_slots_are_exact_at_start :
    let t := (empty ⟨0, ⟨10, 0, 0, 1⟩, 7000⟩ 10).joinAll (doors.reverse ++ doors)
    (∀ p, p ∈ doors.reverse ++ doors ↔ p ∈ doors) ∧ (∀ p ∈ doors, ∀ q ∈ doors, p.id = q.id → p = q) ∧
      t.get? 7 = some ⟨0xFF, ⟨10, 0, 0, 2⟩, 7000⟩ ∧ t.get? 8 = some ⟨0x100, ⟨10, 0, 0, 3⟩, 7000⟩ ∧ t.get? 9 = none := by
  intro t
  have hmem : ∀ p, p ∈ doors.reverse ++ doors ↔ p ∈ doors := by simp
  have hapart : ∀ p ∈ doors, ∀ q ∈ doors, p.id = q.id → p = q := by decide
  obtain ⟨⟨_, hslots⟩, _, horder⟩ := joined_slots_are_exact ⟨0, ⟨10, 0, 0, 1⟩, 7000⟩ 10 doors
  have ht : t = (empty ⟨0, ⟨10, 0, 0, 1⟩, 7000⟩ 10).joinAll doors := horder _ hmem hapart
  refine ⟨hmem, hapart, ?_⟩
  rw [ht]
  refine ⟨((hslots 7 (by decide)).1 _).mpr ⟨?_, ?_, ?_⟩, ((hslots 8 (by decide)).1 _).mpr ⟨?_, ?_, ?_⟩,
    (hslots 9 (by decide)).2.mpr ?_⟩ <;> decide

-- Of two at one position the first stays.
example : (((empty ⟨0, ⟨10, 0, 0, 1⟩, 7000⟩ 3).joinAll
    [⟨7, ⟨10, 0, 0, 2⟩, 7000⟩, ⟨7, ⟨10, 0, 0, 3⟩, 7000⟩]).get? 2) = some ⟨7, ⟨10, 0, 0, 2⟩, 7000⟩ := by decide

end Fingers

end ChordOverlay
