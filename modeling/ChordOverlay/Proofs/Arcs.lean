import ChordOverlay.Proofs.Distance
import Mathlib.Data.List.Rotate

/-!
# Arcs divide the ring

An arc does not depend on where the numbers of the ring begin. Seen from a position outside it, it is an ordinary range,
and so the arcs from each of several positions to the next, however many they are, hold every position once.
-/

namespace ChordOverlay

namespace RingId

variable {a b o p q x : RingId} {ends : Ends} {ids : List RingId}

theorem advance_inj {n : Nat} : a.advance n = b.advance n ↔ a = b := by
  rw [← distance_eq_zero, distance_advance_advance, distance_eq_zero]

theorem inArc_advance (n : Nat) : (x.advance n).inArc (a.advance n) (b.advance n) ends = x.inArc a b ends := by
  rw [Bool.eq_iff_iff]
  by_cases hab : a = b
  · rw [hab, inArc_self, inArc_self, advance_inj]
  · have hab' : a.advance n ≠ b.advance n := fun heq => hab (advance_inj.mp heq)
    rw [inArc_iff hab', inArc_iff hab, distance_advance_advance, distance_advance_advance]

/-! ## Arcs with their last end, seen from elsewhere -/

theorem inArc_last_ahead (h : o.distance p < o.distance q) :
    x.inArc p q .last = true ↔ o.distance p < o.distance x ∧ o.distance x ≤ o.distance q := by
  rw [inArc_seen_from o (ne_of_distance_lt h), if_pos h, Nat.le_iff_lt_or_eq, distance_inj]
  simp [Ends.includeFirst, Ends.includeLast]

/-- The arc passes `o` itself. -/
theorem inArc_last_across (h : o.distance q < o.distance p) :
    x.inArc p q .last = true ↔ o.distance p < o.distance x ∨ o.distance x ≤ o.distance q := by
  rw [inArc_seen_from o (ne_of_distance_lt h).symm, if_neg (Nat.lt_asymm h), Nat.le_iff_lt_or_eq, distance_inj]
  simp [Ends.includeFirst, Ends.includeLast]

theorem inArc_last_back (h : a ≠ b) : x.inArc b a .last = !x.inArc a b .last := by
  have hpos : a.distance a < a.distance b := by
    rw [distance_self]
    exact distance_pos.mpr h
  rw [Bool.eq_iff_iff, Bool.not_eq_true', ← Bool.not_eq_true, inArc_last_across hpos, inArc_last_ahead hpos]
  omega

/-! ## Many arcs -/

/-- All are met in this order on one way round that begins at `o`. -/
def Clockwise (o : RingId) (ids : List RingId) : Prop := ids.Pairwise fun a b => o.distance a ≤ o.distance b

instance (o : RingId) (ids : List RingId) : Decidable (Clockwise o ids) :=
  inferInstanceAs (Decidable (List.Pairwise _ _))

/-- Each of `ids` with the next one, and the last with the first. -/
def arcs (ids : List RingId) : List (RingId × RingId) := ids.zip (ids.rotate 1)

theorem Clockwise.strict (h : Clockwise o ids) (hdistinct : ids.Nodup) :
    ids.Pairwise fun a b => o.distance a < o.distance b := by
  refine (h.and hdistinct).imp fun ⟨hle, hne⟩ => Nat.lt_of_le_of_ne hle ?_
  exact fun heq => hne (distance_inj.mp heq)

/-- From `p` on, which lies beyond `first`, all the way round to `first` each position is met once. -/
theorem countP_arcs_back (x : RingId) {first : RingId} {rest : List RingId} (hfirst : o.distance first < o.distance p)
    (hsorted : (p :: rest).Pairwise fun a b => o.distance a < o.distance b) :
    ((p :: rest).zip (rest ++ [first])).countP (fun arc => x.inArc arc.1 arc.2 .last) =
      if o.distance p < o.distance x ∨ o.distance x ≤ o.distance first then 1 else 0 := by
  induction rest generalizing p with
  | nil => simp [List.countP_cons, inArc_last_across hfirst]
  | cons q rest ih =>
      obtain ⟨hp, hrest⟩ := List.pairwise_cons.mp hsorted
      have hpq := hp q List.mem_cons_self
      rw [List.cons_append, List.zip_cons_cons, List.countP_cons, ih (Nat.lt_trans hfirst hpq) hrest]
      simp only [inArc_last_ahead hpq]
      split <;> split <;> split <;> omega

theorem countP_arcs (x : RingId) (hlength : 2 ≤ ids.length) (hdistinct : ids.Nodup) (hsorted : Clockwise o ids) :
    (arcs ids).countP (fun arc => x.inArc arc.1 arc.2 .last) = 1 := by
  match ids with
  | first :: q :: rest =>
      obtain ⟨hfirst, hrest⟩ := List.pairwise_cons.mp (hsorted.strict hdistinct)
      have hq := hfirst q List.mem_cons_self
      have hback := countP_arcs_back x hq hrest
      rw [arcs, List.rotate_cons_succ, List.rotate_zero, List.cons_append, List.zip_cons_cons, List.countP_cons, hback]
      simp only [inArc_last_ahead hq]
      split <;> split <;> omega

/--
An arc holds what lies within a range of clockwise distances from where it begins, and it moves along when all is moved
by the same number of steps. Every position lies in exactly one of an arc and the arc back, and in exactly one of the
arcs from each of several positions to the next.
-/
theorem arcs_follow_distance (x : RingId) :
    (∀ a b : RingId, a ≠ b →
      (x.inArc a b .neither = true ↔ 0 < a.distance x ∧ a.distance x < a.distance b) ∧
      (x.inArc a b .last = true ↔ 0 < a.distance x ∧ a.distance x ≤ a.distance b) ∧
      (x.inArc a b .first = true ↔ a.distance x < a.distance b) ∧
      (x.inArc a b .both = true ↔ a.distance x ≤ a.distance b)) ∧
    (∀ (a : RingId) (ends : Ends), x.inArc a a ends = true ↔ x = a) ∧
    (∀ (a b : RingId) (ends : Ends) (n : Nat),
      (x.advance n).inArc (a.advance n) (b.advance n) ends = x.inArc a b ends) ∧
    (∀ a b : RingId, a ≠ b → x.inArc b a .last = !x.inArc a b .last) ∧
    ∀ (o : RingId) (ids : List RingId), 2 ≤ ids.length → ids.Nodup → Clockwise o ids →
      (arcs ids).countP (fun arc => x.inArc arc.1 arc.2 .last) = 1 :=
  ⟨fun _ _ hab => ⟨inArc_neither hab, inArc_last hab, inArc_first hab, inArc_both hab⟩,
    fun _ _ => inArc_self, fun _ _ _ n => inArc_advance n, fun _ _ => inArc_last_back,
    fun _ _ => countP_arcs x⟩

/-- Three positions, of which the second is reached across zero. -/
def crossing : List RingId := [0xFFFFFFF0, 0x10, 0x80000000]

theorem arcs_follow_distance_crossing :
    ((0xFFFFFFF0 : RingId) ≠ 0x10 ∧ RingId.inArc 0x10 0xFFFFFFF0 0x10 .last = true ∧
      RingId.inArc 0x10 0x10 0xFFFFFFF0 .last = false) ∧
    (2 ≤ crossing.length ∧ crossing.Nodup ∧ Clockwise 0xFFFFFFF0 crossing ∧
      (arcs crossing).countP (fun arc => RingId.inArc 0x10 arc.1 arc.2 .last) = 1) := by
  have hne : (0xFFFFFFF0 : RingId) ≠ 0x10 := by decide
  obtain ⟨hranges, _, _, hback, hmany⟩ := arcs_follow_distance 0x10
  have hlast : RingId.inArc 0x10 0xFFFFFFF0 0x10 .last = true := (hranges _ _ hne).2.1.mpr (by decide)
  have hfirst : RingId.inArc 0x10 0x10 0xFFFFFFF0 .last = false := by rw [hback _ _ hne, hlast, Bool.not_true]
  have hsorted : Clockwise 0xFFFFFFF0 crossing := by decide
  exact ⟨⟨hne, hlast, hfirst⟩, by decide, by decide, hsorted, hmany _ _ (by decide) (by decide) hsorted⟩

end RingId

end ChordOverlay
