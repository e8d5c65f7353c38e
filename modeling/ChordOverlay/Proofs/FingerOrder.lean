import ChordOverlay.Proofs.FingerTable
import Mathlib.Data.Nat.Find

/-!
# The order of the fingers

In a table that only takes peers in and drops positions, the occupied slots come first and go strictly outwards. For this
reason the lowest finger is the closest, and a lookup that goes through the slots from above leaps as far as it may.
-/

namespace ChordOverlay

namespace Fingers

variable {t : Fingers} {i x : RingId} {p q : Peer} {j k l : Nat}

/-! ## Slots after a change -/

theorem get?_of_length_le (h : t.slots.length ≤ k) : t.get? k = none := by
  rw [get?, List.getElem?_eq_none h]
  rfl

theorem lt_length (h : t.get? k = some p) : k < t.slots.length := by
  by_contra hge
  rw [get?_of_length_le (Nat.le_of_not_lt hge)] at h
  cases h

@[simp] theorem get?_empty (owner : Peer) (size k : Nat) : (empty owner size).get? k = none := by
  rw [← Option.not_isSome_iff_eq_none, Option.isSome_iff_exists]
  rintro ⟨p, hp⟩
  cases List.eq_of_mem_replicate (mem_slots.mpr ⟨k, hp⟩)

theorem improves_iff {slot : Option Peer} : t.improves p k slot = true ↔
    Nat.pow 2 k ≤ t.owner.id.distance p.id ∧ ∀ q, slot = some q → t.owner.id.distance p.id < t.owner.id.distance q.id := by
  cases slot <;> simp [improves]

theorem exists_of_not_improves (hadmitted : Nat.pow 2 k ≤ t.owner.id.distance p.id) (h : ¬ t.improves p k (t.get? k) = true) :
    ∃ q, t.get? k = some q ∧ t.owner.id.distance q.id ≤ t.owner.id.distance p.id := by
  by_contra hnone
  exact h (improves_iff.mpr ⟨hadmitted, fun q hq => Nat.lt_of_not_le fun hle => hnone ⟨q, hq, hle⟩⟩)

@[simp] theorem length_join (t : Fingers) (p : Peer) : (t.join p).slots.length = t.slots.length := by
  unfold join
  split
  · rfl
  · exact List.length_mapIdx

@[simp] theorem length_erase (t : Fingers) (i : RingId) : (t.erase i).slots.length = t.slots.length := List.length_map _

/-- The owner is at no distance from itself, so it improves no slot either. -/
theorem get?_join (hk : k < t.slots.length) :
    (t.join p).get? k = if t.improves p k (t.get? k) then some p else t.get? k := by
  by_cases hid : p.id = t.owner.id
  · have hnot : ¬ t.improves p k (t.get? k) = true := by
      rw [improves_iff, hid, RingId.distance_self]
      exact fun h => absurd h.1 (Nat.not_le.mpr (Nat.two_pow_pos k))
    rw [join, if_pos hid, if_neg hnot]
  · rw [join, if_neg hid]
    simp only [get?, List.getElem?_mapIdx, List.getElem?_eq_getElem hk, Option.map_some, Option.join_some]

/-! ## The highest slot of a kind -/

theorem exists_highest {P : Peer → Prop} (hp : t.get? k = some p) (h : P p) :
    ∃ l q, k ≤ l ∧ t.get? l = some q ∧ P q ∧ ∀ m r, l < m → t.get? m = some r → ¬ P r := by
  classical
  let Q := fun l => ∃ q, t.get? l = some q ∧ P q
  have hk : k ≤ t.slots.length := Nat.le_of_lt (lt_length hp)
  obtain ⟨q, hq, hPq⟩ : Q (Nat.findGreatest Q t.slots.length) := Nat.findGreatest_spec hk ⟨p, hp, h⟩
  refine ⟨_, q, Nat.le_findGreatest hk ⟨p, hp, h⟩, hq, hPq, ?_⟩
  intro m r hlt hr hPr
  exact Nat.findGreatest_is_greatest hlt (Nat.le_of_lt (lt_length hr)) ⟨r, hr, hPr⟩

/-- What takes the place of a position is behind the last slot that holds it. -/
theorem afterLast_eq (hl : t.get? l = some q) (hid : q.id = i) (hlast : ∀ m r, l < m → t.get? m = some r → r.id ≠ i) :
    afterLast i t.slots = t.get? (l + 1) := by
  have hbehind : ∀ slot ∈ (t.slots.drop (l + 1)).reverse, (!holds i slot) = true := by
    intro slot hslot
    obtain ⟨m, hm⟩ := List.mem_iff_getElem?.mp (List.mem_reverse.mp hslot)
    rw [List.getElem?_drop] at hm
    rw [Bool.not_eq_true', ← Bool.not_eq_true, holds_iff]
    rintro ⟨r, rfl, hr⟩
    exact hlast _ r (by omega) (get?_eq_some.mpr hm) hr
  have hheld : ¬ (!holds i (some q)) = true := by simp [holds, hid]
  have hrun : (t.slots.reverse.takeWhile fun slot => !holds i slot) = (t.slots.drop (l + 1)).reverse := by
    conv_lhs => rw [slots_split (get?_eq_some.mp hl)]
    rw [List.reverse_append, List.reverse_cons, List.append_assoc, List.takeWhile_append_of_pos hbehind,
      List.singleton_append, List.takeWhile_cons_of_neg (p := fun slot => !holds i slot) hheld, List.append_nil]
  rw [afterLast, hrun, List.getLast?_reverse, List.head?_drop, get?]

/-! ## Slots in order -/

/-- Below an occupied slot all are occupied, by peers at most as far away. -/
def Ascending (t : Fingers) : Prop :=
  ∀ ⦃j k q⦄, j ≤ k → t.get? k = some q →
    ∃ p, t.get? j = some p ∧ t.owner.id.distance p.id ≤ t.owner.id.distance q.id

theorem Ascending.empty (owner : Peer) (size : Nat) : (empty owner size).Ascending := by
  intro j k q _ hq
  rw [get?_empty] at hq
  cases hq

theorem Ascending.join (h : t.Ascending) (p : Peer) : (t.join p).Ascending := by
  intro j k q hjk hq
  have hk : k < t.slots.length := by simpa using lt_length hq
  rw [get?_join hk] at hq
  rw [get?_join (Nat.lt_of_le_of_lt hjk hk), join_owner]
  by_cases hj : t.improves p j (t.get? j) = true
  · rw [if_pos hj]
    refine ⟨p, rfl, ?_⟩
    split at hq
    · cases hq
      exact Nat.le_refl _
    · obtain ⟨r, hr, hle⟩ := h hjk hq
      exact Nat.le_trans (Nat.le_of_lt ((improves_iff.mp hj).2 r hr)) hle
  · rw [if_neg hj]
    split at hq
    · rename_i hk'
      cases hq
      have hadmitted : Nat.pow 2 j ≤ t.owner.id.distance p.id :=
        Nat.le_trans (Nat.pow_le_pow_right Nat.two_pos hjk) (improves_iff.mp hk').1
      exact exists_of_not_improves hadmitted hj
    · exact h hjk hq

/-- The slots that hold one position stand together. -/
theorem Ascending.id_between (h : t.Ascending) (hjk : j ≤ k) (hkl : k ≤ l) (hp : t.get? j = some p)
    (hq : t.get? l = some q) (hpq : p.id = q.id) : ∃ r, t.get? k = some r ∧ r.id = q.id := by
  obtain ⟨r, hr, hrq⟩ := h hkl hq
  obtain ⟨p', hp', hpr⟩ := h hjk hr
  rw [hp] at hp'
  cases hp'
  rw [hpq] at hpr
  exact ⟨r, hr, RingId.distance_inj.mp (Nat.le_antisymm hrq hpr)⟩

theorem get?_erase_of_mem (hp : t.get? k = some p) (hid : p.id = i) : (t.erase i).get? k = afterLast i t.slots := by
  have hslot := get?_eq_some.mp hp
  have hheld : holds i (some p) = true := holds_iff.mpr ⟨p, rfl, hid⟩
  simp [get?, erase, hslot, hheld]

/-- When a position is dropped, each slot takes what is in the first one from there on that does not hold it. -/
theorem Ascending.get?_erase (h : t.Ascending) (i : RingId) (k : Nat) :
    ∃ l, k ≤ l ∧ (∀ m, k ≤ m → m < l → ∃ p, t.get? m = some p ∧ p.id = i) ∧
      (∀ p, t.get? l = some p → p.id ≠ i) ∧ (t.erase i).get? k = t.get? l := by
  by_cases hk : ∃ p, t.get? k = some p ∧ p.id = i
  · obtain ⟨p, hp, hid⟩ := hk
    obtain ⟨l, q, hkl, hq, hqi, hlast⟩ := exists_highest (P := fun p => p.id = i) hp hid
    refine ⟨l + 1, Nat.le_succ_of_le hkl, ?_, fun r hr => hlast _ r (Nat.lt_succ_self l) hr, ?_⟩
    · intro m hkm hml
      rw [← hqi]
      exact h.id_between hkm (Nat.le_of_lt_succ hml) hp hq (hid.trans hqi.symm)
    · rw [get?_erase_of_mem hp hid, afterLast_eq hq hqi hlast]
  · have hne : ∀ p, t.get? k = some p → p.id ≠ i := fun p hp hid => hk ⟨p, hp, hid⟩
    exact ⟨k, Nat.le_refl k, fun m hkm hmk => absurd hkm (Nat.not_le.mpr hmk), hne, get?_erase_of_ne hne⟩

/-- A run of slots that hold a position ends where one does not hold it. -/
theorem run_le (hrun : ∀ m, k ≤ m → m < l → ∃ p, t.get? m = some p ∧ p.id = i) (hkj : k ≤ j)
    (hj : ∀ p, t.get? j = some p → p.id ≠ i) : l ≤ j := by
  by_contra hlt
  obtain ⟨p, hp, hid⟩ := hrun j hkj (Nat.lt_of_not_le hlt)
  exact hj p hp hid

theorem Ascending.erase (h : t.Ascending) (i : RingId) : (t.erase i).Ascending := by
  intro j k q hjk hq
  obtain ⟨a, _, hrun, _, heq⟩ := h.get?_erase i j
  obtain ⟨b, hkb, _, hb, heq'⟩ := h.get?_erase i k
  rw [heq'] at hq
  rw [heq, erase_owner]
  exact h (run_le hrun (Nat.le_trans hjk hkb) hb) hq

/-- The occupant of the nearest slot above `k` that is at another position than `i`. -/
def nextOther (t : Fingers) (i : RingId) (k : Nat) : Option Peer :=
  (t.slots.drop (k + 1)).findSome? fun slot => slot.filter fun p => p.id ≠ i

theorem nextOther_eq_some (hkl : k < l) (hq : t.get? l = some q) (hid : q.id ≠ i)
    (hrun : ∀ m p, k < m → m < l → t.get? m = some p → p.id = i) : t.nextOther i k = some q := by
  have hsplit : t.slots.drop (k + 1) = (t.slots.take l).drop (k + 1) ++ some q :: t.slots.drop (l + 1) := by
    conv_lhs => rw [slots_split (get?_eq_some.mp hq)]
    rw [List.drop_append_of_le_length]
    rw [List.length_take_of_le (Nat.le_of_lt (lt_length hq))]
    exact hkl
  rw [nextOther, List.findSome?_eq_some_iff]
  refine ⟨_, _, _, hsplit, by simp [hid], fun slot hslot => ?_⟩
  obtain ⟨n, hn⟩ := List.mem_iff_getElem?.mp hslot
  rw [List.getElem?_drop, List.getElem?_take] at hn
  split at hn
  · rename_i hlt
    cases slot with
    | none => rfl
    | some p => simpa using hrun _ p (by omega) hlt (get?_eq_some.mpr hn)
  · cases hn

theorem nextOther_eq_none (hrest : ∀ m p, k < m → t.get? m = some p → p.id = i) : t.nextOther i k = none := by
  rw [nextOther, List.findSome?_eq_none_iff]
  intro slot hslot
  obtain ⟨n, hn⟩ := List.mem_iff_getElem?.mp hslot
  rw [List.getElem?_drop] at hn
  cases slot with
  | none => rfl
  | some p => simpa using hrest _ p (by omega) (get?_eq_some.mpr hn)

theorem Ascending.get?_erase_of_mem (h : t.Ascending) (hp : t.get? k = some p) (hid : p.id = i) :
    (t.erase i).get? k = t.nextOther i k := by
  obtain ⟨l, hkl, hrun, hl, heq⟩ := h.get?_erase i k
  have hlt : k < l := Nat.lt_of_le_of_ne hkl (by rintro rfl; exact hl p hp hid)
  have hheld : ∀ m r, k < m → m < l → t.get? m = some r → r.id = i := by
    intro m r hkm hml hr
    obtain ⟨r', hr', hid'⟩ := hrun m (Nat.le_of_lt hkm) hml
    rw [hr] at hr'
    cases hr'
    exact hid'
  rw [heq]
  cases hq : t.get? l with
  | some q => rw [nextOther_eq_some hlt hq (hl q hq) hheld]
  | none =>
      rw [nextOther_eq_none]
      intro m r hkm hr
      refine hheld m r hkm (Nat.lt_of_not_le fun hlm => ?_) hr
      obtain ⟨r', hr', _⟩ := h hlm hr
      rw [hq] at hr'
      cases hr'

/-! ## Who is found in an ordered table -/

/-- The lowest slot has the closest finger, or the table is empty. -/
theorem Ascending.first?_eq (h : t.Ascending) : t.first? = t.get? 0 := by
  have hslot : ∀ slot rest, t.slots = slot :: rest → t.get? 0 = slot := by
    intro slot rest hslots
    simp [get?, hslots]
  rw [first?]
  cases hslots : t.slots with
  | nil => simp [get?, hslots]
  | cons slot rest =>
      rw [hslot slot rest hslots]
      cases slot with
      | some p => rfl
      | none =>
          rw [List.findSome?_cons]
          refine List.findSome?_eq_none_iff.mpr fun slot hmem => ?_
          cases slot with
          | none => rfl
          | some q =>
              obtain ⟨k, hk⟩ := mem_slots.mp (hslots ▸ List.mem_cons_of_mem none hmem)
              obtain ⟨p, hp, _⟩ := h (Nat.zero_le k) hk
              rw [hslot none rest hslots] at hp
              cases hp

theorem Ascending.first?_le (h : t.Ascending) (hp : t.first? = some p) (hq : some q ∈ t.slots) :
    t.owner.id.distance p.id ≤ t.owner.id.distance q.id := by
  obtain ⟨k, hk⟩ := mem_slots.mp hq
  obtain ⟨r, hr, hle⟩ := h (Nat.zero_le k) hk
  rw [h.first?_eq, hr] at hp
  cases hp
  exact hle

theorem first?_mem (hp : t.first? = some p) : some p ∈ t.slots := by
  obtain ⟨slot, hslot, heq⟩ := List.exists_of_findSome?_eq_some hp
  cases heq
  exact hslot

theorem first?_eq_none : t.first? = none ↔ ∀ p, some p ∉ t.slots := by
  rw [first?, List.findSome?_eq_none_iff]
  constructor
  · intro h p hp
    cases h _ hp
  · intro h slot hslot
    cases slot with
    | none => rfl
    | some p => exact absurd hslot (h p)

/-- A lookup is passed on to the farthest finger that lies before its target, if any does. -/
theorem Ascending.exists_closestPreceding? (h : t.Ascending) (hq : some q ∈ t.slots)
    (hbetween : RingId.Between t.owner.id q.id x) : ∃ p, t.closestPreceding? x = some p ∧
      ∀ r, some r ∈ t.slots → RingId.Between t.owner.id r.id x → t.owner.id.distance r.id ≤ t.owner.id.distance p.id := by
  have hx : x ≠ t.owner.id := by
    rintro rfl
    rw [RingId.Between, RingId.distance_self] at hbetween
    exact Nat.not_lt_zero _ hbetween.2
  obtain ⟨k, hk⟩ := mem_slots.mp hq
  obtain ⟨l, p, _, hp, hbefore, hlast⟩ := exists_highest (P := fun p => RingId.Between t.owner.id p.id x) hk hbetween
  refine ⟨p, closestPreceding?_of_highest hx (get?_eq_some.mp hp) hbefore ?_, ?_⟩
  · intro m r hlm hr
    exact hlast m r hlm (get?_eq_some.mpr hr)
  · intro r hr hr'
    obtain ⟨m, hm⟩ := mem_slots.mp hr
    have hml : m ≤ l := Nat.le_of_not_lt fun hlm => hlast m r hlm hm hr'
    obtain ⟨r', hr'', hle⟩ := h hml hp
    rw [hm] at hr''
    cases hr''
    exact hle

/-- The arc from the owner to itself has nobody strictly inside. -/
theorem closestPreceding?_mem (hp : t.closestPreceding? x = some p) :
    some p ∈ t.slots ∧ RingId.Between t.owner.id p.id x := by
  refine closestPreceding?_eq_some ?_ hp
  rintro rfl
  have hnone : t.closestPreceding? t.owner.id = none := by
    rw [closestPreceding?, List.find?_eq_none]
    simp [RingId.inArc_self]
  rw [hnone] at hp
  cases hp

theorem Ascending.closestPreceding?_eq_none (h : t.Ascending) :
    t.closestPreceding? x = none ↔ ∀ p, some p ∈ t.slots → ¬ RingId.Between t.owner.id p.id x := by
  constructor
  · intro hnone p hp hbetween
    obtain ⟨q, hq, _⟩ := h.exists_closestPreceding? hp hbetween
    rw [hnone] at hq
    cases hq
  · intro hnobody
    cases hp : t.closestPreceding? x with
    | none => rfl
    | some p =>
        obtain ⟨hmem, hbetween⟩ := closestPreceding?_mem hp
        exact absurd hbetween (hnobody p hmem)

/-! ## What joining and dropping keep -/

/-- The form of a table that only takes peers in and drops positions. -/
structure Ordered (t : Fingers) : Prop where
  ascending : t.Ascending
  admitted : ∀ k p, t.get? k = some p → Nat.pow 2 k ≤ t.owner.id.distance p.id
  /-- Whoever has a slot has all above it that are within reach. -/
  reaching : ∀ j k p, j ≤ k → k < t.slots.length → Nat.pow 2 k ≤ t.owner.id.distance p.id → t.get? j = some p →
    t.get? k = some p

namespace Ordered

theorem empty (owner : Peer) (size : Nat) : (Fingers.empty owner size).Ordered where
  ascending := .empty owner size
  admitted := by simp
  reaching := by simp

theorem join (h : t.Ordered) (p : Peer) : (t.join p).Ordered where
  ascending := h.ascending.join p
  admitted := by
    intro k q hq
    rw [get?_join (by simpa using lt_length hq)] at hq
    rw [join_owner]
    split at hq
    · rename_i himproves
      cases hq
      exact (improves_iff.mp himproves).1
    · exact h.admitted k q hq
  reaching := by
    intro j k q hjk hk hle hq
    rw [length_join] at hk
    rw [join_owner] at hle
    rw [get?_join (Nat.lt_of_le_of_lt hjk hk)] at hq
    rw [get?_join hk]
    split at hq
    · rename_i hj
      cases hq
      rw [if_pos]
      by_contra hk'
      obtain ⟨r, hr, hrp⟩ := exists_of_not_improves hle hk'
      obtain ⟨r', hr', hr'r⟩ := h.ascending hjk hr
      exact Nat.not_lt.mpr (Nat.le_trans hr'r hrp) ((improves_iff.mp hj).2 r' hr')
    · rename_i hj
      have hkept := h.reaching j k q hjk hk hle hq
      rw [if_neg, hkept]
      intro hk'
      obtain ⟨hadmitted, hcloser⟩ := improves_iff.mp hk'
      obtain ⟨r, hr, hrp⟩ := exists_of_not_improves (Nat.le_trans (Nat.pow_le_pow_right Nat.two_pos hjk) hadmitted) hj
      rw [hq] at hr
      cases hr
      exact Nat.not_lt.mpr hrp (hcloser q hkept)

theorem erase (h : t.Ordered) (i : RingId) : (t.erase i).Ordered where
  ascending := h.ascending.erase i
  admitted := by
    intro k p hp
    obtain ⟨l, hkl, _, _, heq⟩ := h.ascending.get?_erase i k
    exact Nat.le_trans (Nat.pow_le_pow_right Nat.two_pos hkl) (h.admitted l p (heq ▸ hp))
  reaching := by
    intro j k p hjk hk hle hp
    rw [length_erase] at hk
    obtain ⟨a, _, hrun, ha, heq⟩ := h.ascending.get?_erase i j
    obtain ⟨b, hkb, hrun', hb, heq'⟩ := h.ascending.get?_erase i k
    rw [heq] at hp
    rw [heq']
    rcases Nat.lt_or_ge k a with hka | hak
    · -- Slot `k` is in the run that `p` comes from behind of.
      have hab : a = b := Nat.le_antisymm (run_le hrun (Nat.le_trans hjk hkb) hb) (run_le hrun' (Nat.le_of_lt hka) ha)
      rw [← hab, hp]
    · have hkept := h.reaching a k p hak hk hle hp
      have hother : ∀ q, t.get? k = some q → q.id ≠ i := by
        intro q hq
        rw [hkept] at hq
        cases hq
        exact ha _ hp
      rw [Nat.le_antisymm (run_le hrun' (Nat.le_refl k) hother) hkb, hkept]

/-- No two peers of a table are at one position. -/
theorem eq_of_id (h : t.Ordered) (hp : some p ∈ t.slots) (hq : some q ∈ t.slots) (hid : p.id = q.id) : p = q := by
  obtain ⟨j, hj⟩ := mem_slots.mp hp
  obtain ⟨k, hk⟩ := mem_slots.mp hq
  have hpq : t.owner.id.distance p.id = t.owner.id.distance q.id := RingId.distance_inj.mpr hid
  rcases Nat.le_total j k with hjk | hkj
  · have := h.reaching j k p hjk (lt_length hk) (hpq ▸ h.admitted k q hk) hj
    exact Option.some.inj (this.symm.trans hk)
  · have := h.reaching k j q hkj (lt_length hj) (hpq ▸ h.admitted j p hj) hk
    exact Option.some.inj (hj.symm.trans this)

theorem eq_of_distance (h : t.Ordered) (hp : some p ∈ t.slots) (hq : some q ∈ t.slots)
    (hpq : t.owner.id.distance p.id ≤ t.owner.id.distance q.id) (hqp : t.owner.id.distance q.id ≤ t.owner.id.distance p.id) :
    p = q :=
  h.eq_of_id hp hq (RingId.distance_inj.mp (Nat.le_antisymm hpq hqp))

theorem first?_eq_some (h : t.Ordered) : t.first? = some p ↔
    some p ∈ t.slots ∧ ∀ q, some q ∈ t.slots → t.owner.id.distance p.id ≤ t.owner.id.distance q.id := by
  constructor
  · intro hp
    exact ⟨first?_mem hp, fun q hq => h.ascending.first?_le hp hq⟩
  · rintro ⟨hp, hleast⟩
    cases hq : t.first? with
    | none => exact absurd hp (first?_eq_none.mp hq p)
    | some q => rw [h.eq_of_distance (first?_mem hq) hp (h.ascending.first?_le hq hp) (hleast q (first?_mem hq))]

theorem closestPreceding?_eq_some (h : t.Ordered) : t.closestPreceding? x = some p ↔
    some p ∈ t.slots ∧ RingId.Between t.owner.id p.id x ∧
      ∀ q, some q ∈ t.slots → RingId.Between t.owner.id q.id x → t.owner.id.distance q.id ≤ t.owner.id.distance p.id := by
  constructor
  · intro hp
    obtain ⟨hmem, hbetween⟩ := closestPreceding?_mem hp
    obtain ⟨q, hq, hfarthest⟩ := h.ascending.exists_closestPreceding? hmem hbetween
    rw [hp] at hq
    cases hq
    exact ⟨hmem, hbetween, hfarthest⟩
  · rintro ⟨hp, hbetween, hfarthest⟩
    obtain ⟨q, hq, hfarthest'⟩ := h.ascending.exists_closestPreceding? hp hbetween
    obtain ⟨hmem, hbetween'⟩ := closestPreceding?_mem hq
    rw [hq, h.eq_of_distance hmem hp (hfarthest q hmem hbetween') (hfarthest' p hp hbetween)]

end Ordered

/-! ## Any changes of a new table -/

/-- What can happen to a finger table. -/
inductive Change where
  | join (p : Peer)
  | erase (i : RingId)

/-- The table after a change. -/
def apply (t : Fingers) : Change → Fingers
  | .join p => t.join p
  | .erase i => t.erase i

theorem Ordered.apply (h : t.Ordered) (c : Change) : (t.apply c).Ordered := by
  cases c with
  | join p => exact h.join p
  | erase i => exact h.erase i

@[simp] theorem apply_owner (t : Fingers) (c : Change) : (t.apply c).owner = t.owner := by
  cases c <;> simp [Fingers.apply]

@[simp] theorem length_apply (t : Fingers) (c : Change) : (t.apply c).slots.length = t.slots.length := by
  cases c <;> simp [Fingers.apply]

theorem Ordered.foldl_apply (h : t.Ordered) (cs : List Change) : (cs.foldl Fingers.apply t).Ordered ∧
    (cs.foldl Fingers.apply t).owner = t.owner ∧ (cs.foldl Fingers.apply t).slots.length = t.slots.length := by
  induction cs generalizing t with
  | nil => exact ⟨h, rfl, rfl⟩
  | cons c cs ih => simpa using ih (h.apply c)

/--
A new table, however peers are joined to it and positions dropped from it. No slot is lost, and none is too high for a
word. Whoever is in a slot is admitted there, all slots below are occupied too, and distances go upwards. So the first
finger is the closest, and the one that precedes a target is the farthest of those before it, if there are any. Whoever
is dropped is gone; the nearest other finger above moves into the slots it had, and no other slot changes.
-/
theorem changed_table_is_ordered (owner : Peer) (size : Nat) (hsize : size ≤ RingId.bits) (cs : List Change) :
    let t := cs.foldl Fingers.apply (empty owner size)
    (t.slots.length = size ∧ ∀ k < t.slots.length, Nat.pow 2 k < UInt32.size) ∧
    (∀ k p, t.get? k = some p → Nat.pow 2 k ≤ owner.id.distance p.id ∧ p.id ≠ owner.id) ∧
    (∀ j k q, j ≤ k → t.get? k = some q → ∃ p, t.get? j = some p ∧ owner.id.distance p.id ≤ owner.id.distance q.id) ∧
    ((∀ p, t.first? = some p ↔
        some p ∈ t.slots ∧ ∀ q, some q ∈ t.slots → owner.id.distance p.id ≤ owner.id.distance q.id) ∧
      (t.first? = none ↔ ∀ p, some p ∉ t.slots)) ∧
    (∀ x, (∀ p, t.closestPreceding? x = some p ↔ some p ∈ t.slots ∧ RingId.Between owner.id p.id x ∧
        ∀ q, some q ∈ t.slots → RingId.Between owner.id q.id x → owner.id.distance q.id ≤ owner.id.distance p.id) ∧
      (t.closestPreceding? x = none ↔ ∀ p, some p ∈ t.slots → ¬ RingId.Between owner.id p.id x)) ∧
    ∀ i, (∀ p, some p ∈ (t.erase i).slots → p.id ≠ i) ∧ ∀ k,
      (∀ p, t.get? k = some p → p.id = i → (t.erase i).get? k = t.nextOther i k) ∧
        ((∀ p, t.get? k = some p → p.id ≠ i) → (t.erase i).get? k = t.get? k) := by
  intro t
  obtain ⟨h, howner, hlength⟩ : t.Ordered ∧ t.owner = owner ∧ t.slots.length = (empty owner size).slots.length :=
    (Ordered.empty owner size).foldl_apply cs
  have hslots : t.slots.length = size := hlength.trans List.length_replicate
  rw [← howner]
  refine ⟨⟨hslots, fun k hk => ?_⟩, fun k p hp => ⟨h.admitted k p hp, ?_⟩, h.ascending,
    ⟨fun p => h.first?_eq_some, first?_eq_none⟩,
    fun x => ⟨fun p => h.closestPreceding?_eq_some, h.ascending.closestPreceding?_eq_none⟩,
    fun i => ⟨fun p hp => (mem_erase hp).2, fun k => ⟨fun p => h.ascending.get?_erase_of_mem, get?_erase_of_ne⟩⟩⟩
  · exact Nat.pow_lt_pow_right (Nat.lt_succ_self 1) (Nat.lt_of_lt_of_le (hslots ▸ hk) hsize)
  · refine (RingId.distance_pos.mp ?_).symm
    exact Nat.lt_of_lt_of_le (Nat.two_pow_pos k) (h.admitted k p hp)

/-- Three come by a member right before zero, and the closest of them leaves again. -/
def visits : List Change :=
  [.join ⟨0x20, ⟨10, 0, 0, 2⟩, 7000⟩, .join ⟨0xFFFFFFFA, ⟨10, 0, 0, 3⟩, 7000⟩, .join ⟨0xB8, ⟨10, 0, 0, 4⟩, 7000⟩,
    .erase 0xFFFFFFFA]

/-- A table after peers have come and gone. -/
def visited : Fingers := visits.foldl Fingers.apply (empty ⟨0xFFFFFFF0, ⟨10, 0, 0, 1⟩, 7000⟩ 8)

/-- Beyond zero the nearer of the two that are left has six slots, which go to the other one after it. -/
theorem changed_table_is_ordered_around_zero : 8 ≤ RingId.bits ∧
    visited.first? = some ⟨0x20, ⟨10, 0, 0, 2⟩, 7000⟩ ∧
    visited.closestPreceding? 0xB8 = some ⟨0x20, ⟨10, 0, 0, 2⟩, 7000⟩ ∧ visited.closestPreceding? 0x20 = none ∧
    (visited.erase 0x20).get? 5 = some ⟨0xB8, ⟨10, 0, 0, 4⟩, 7000⟩ := by
  have hsize : 8 ≤ RingId.bits := by decide
  obtain ⟨_, _, _, ⟨hfirst, _⟩, hpreceding, herase⟩ :=
    changed_table_is_ordered ⟨0xFFFFFFF0, ⟨10, 0, 0, 1⟩, 7000⟩ 8 hsize visits
  have hslots : ∀ slot ∈ visited.slots, ∀ p ∈ slot, p = ⟨0x20, ⟨10, 0, 0, 2⟩, 7000⟩ ∨ p = ⟨0xB8, ⟨10, 0, 0, 4⟩, 7000⟩ := by
    decide
  refine ⟨hsize, (hfirst _).mpr ⟨by decide, ?_⟩, ((hpreceding _).1 _).mpr ⟨by decide, by decide, ?_⟩,
    (hpreceding _).2.mpr ?_, ?_⟩
  · intro p hp
    rcases hslots _ hp p rfl with rfl | rfl <;> decide
  · intro p hp
    rcases hslots _ hp p rfl with rfl | rfl <;> decide
  · intro p hp
    rcases hslots _ hp p rfl with rfl | rfl <;> decide
  · exact ((herase _).2 5).1 ⟨0x20, ⟨10, 0, 0, 2⟩, 7000⟩ (by decide) rfl

end Fingers

end ChordOverlay
