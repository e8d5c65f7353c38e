import ChordOverlay.Ring.Arc

/-!
# Clockwise distances

Seen from one position, the others are told apart by their distance, and an arc that starts there is a range of
distances. The statements about arcs are carried over to distances here, and later arguments stay with those.
-/

namespace ChordOverlay

namespace RingId

/-- `x` is met strictly after `a` and strictly before `b` on the way clockwise. -/
def Between (a x b : RingId) : Prop := 0 < a.distance x ∧ a.distance x < a.distance b

instance (a x b : RingId) : Decidable (Between a x b) := inferInstanceAs (Decidable (_ ∧ _))

variable {a b c x lo hi : RingId} {ends : Ends}

/-! ## Distances as numbers -/

theorem toNat_inj : a.toNat = b.toNat ↔ a = b :=
  ⟨fun h => by rw [← ofNat_toNat a, h, ofNat_toNat], congrArg toNat⟩

/-- The way to `b` crosses zero exactly when `b` has the smaller number. -/
theorem distance_cases (a b : RingId) :
    (a.toNat ≤ b.toNat ∧ a.distance b = b.toNat - a.toNat) ∨
      (b.toNat < a.toNat ∧ a.distance b = UInt32.size - a.toNat + b.toNat) := by
  have ha := a.toNat_lt
  have hb := b.toNat_lt
  rw [distance_eq]
  rcases Nat.lt_or_ge b.toNat a.toNat with h | h
  · exact Or.inr ⟨h, Nat.mod_eq_of_lt (by omega)⟩
  · refine Or.inl ⟨h, ?_⟩
    rw [show UInt32.size - a.toNat + b.toNat = b.toNat - a.toNat + UInt32.size by omega,
      Nat.add_mod_right, Nat.mod_eq_of_lt (by omega)]

@[simp] theorem distance_eq_zero : a.distance b = 0 ↔ a = b := by
  rw [← toNat_inj]
  have ha := a.toNat_lt
  rcases distance_cases a b with ⟨_, h⟩ | ⟨_, h⟩ <;> omega

theorem distance_pos : 0 < a.distance b ↔ a ≠ b := by
  rw [Nat.pos_iff_ne_zero, ne_eq, distance_eq_zero]

theorem distance_inj : a.distance b = a.distance c ↔ b = c := by
  refine ⟨fun h => toNat_inj.mp ?_, fun h => h ▸ rfl⟩
  have ha := a.toNat_lt
  have hb := b.toNat_lt
  have hc := c.toNat_lt
  rcases distance_cases a b with ⟨_, _⟩ | ⟨_, _⟩ <;> rcases distance_cases a c with ⟨_, _⟩ | ⟨_, _⟩ <;> omega

theorem ne_of_distance_lt (h : a.distance b < a.distance c) : b ≠ c := by
  rintro rfl
  exact Nat.lt_irrefl _ h

/-- `b` is passed on the way from `a` to `c`: the two parts of the way add up. -/
theorem distance_add (h : a.distance b ≤ a.distance c) : a.distance b + b.distance c = a.distance c := by
  have ha := a.toNat_lt
  have hb := b.toNat_lt
  have hc := c.toNat_lt
  rcases distance_cases a b with ⟨_, _⟩ | ⟨_, _⟩ <;> rcases distance_cases a c with ⟨_, _⟩ | ⟨_, _⟩ <;>
    rcases distance_cases b c with ⟨_, _⟩ | ⟨_, _⟩ <;> omega

/-- `b` lies beyond `c`: from `b` to `c` the way leads through `a` again. -/
theorem distance_wrap (h : a.distance c < a.distance b) :
    a.distance b + b.distance c = UInt32.size + a.distance c := by
  have ha := a.toNat_lt
  have hb := b.toNat_lt
  have hc := c.toNat_lt
  rcases distance_cases a b with ⟨_, _⟩ | ⟨_, _⟩ <;> rcases distance_cases a c with ⟨_, _⟩ | ⟨_, _⟩ <;>
    rcases distance_cases b c with ⟨_, _⟩ | ⟨_, _⟩ <;> omega

theorem distance_add_of_lt (h : a.distance b + b.distance c < UInt32.size) :
    a.distance b + b.distance c = a.distance c := by
  rcases Nat.lt_or_ge (a.distance c) (a.distance b) with hlt | hge
  · have := distance_wrap hlt
    omega
  · exact distance_add hge

theorem Between.distance_lt (h : Between a x b) : x.distance b < a.distance b := by
  have hpos := h.1
  have := distance_add (Nat.le_of_lt h.2)
  omega

/-- `x` is passed on the way from `a` to `b` exactly if it has the shorter way to `b`. -/
theorem between_iff_closer (h : x ≠ b) : Between a x b ↔ x.distance b < a.distance b := by
  refine ⟨Between.distance_lt, fun hlt => ?_⟩
  have hax := a.distance_lt x
  have hne : a.distance x ≠ a.distance b := fun e => h (distance_inj.mp e)
  have hpos : 0 < a.distance x := by
    rw [distance_pos]
    rintro rfl
    exact Nat.lt_irrefl _ hlt
  refine ⟨hpos, Nat.lt_of_le_of_ne (Nat.le_of_not_lt fun hbeyond => ?_) hne⟩
  have := distance_wrap hbeyond
  omega

theorem distance_right_inj : a.distance c = b.distance c ↔ a = b := by
  refine ⟨fun h => toNat_inj.mp ?_, fun h => h ▸ rfl⟩
  have ha := a.toNat_lt
  have hb := b.toNat_lt
  have hc := c.toNat_lt
  rcases distance_cases a c with ⟨_, _⟩ | ⟨_, _⟩ <;> rcases distance_cases b c with ⟨_, _⟩ | ⟨_, _⟩ <;> omega

theorem toNat_advance (a : RingId) {n : Nat} (h : n < UInt32.size) : (a.advance n).toNat = (a.toNat + n) % UInt32.size := by
  simp [advance, toNat, UInt32.toNat_add, Nat.mod_eq_of_lt h]

theorem distance_advance (a : RingId) {n : Nat} (h : n < UInt32.size) : a.distance (a.advance n) = n := by
  have ha := a.toNat_lt
  have hn := toNat_advance a h
  rcases Nat.lt_or_ge (a.toNat + n) UInt32.size with hlt | hge
  · rw [Nat.mod_eq_of_lt hlt] at hn
    rcases distance_cases a (a.advance n) with ⟨_, _⟩ | ⟨_, _⟩ <;> omega
  · rw [Nat.mod_eq_sub_mod hge, Nat.mod_eq_of_lt (by omega)] at hn
    rcases distance_cases a (a.advance n) with ⟨_, _⟩ | ⟨_, _⟩ <;> omega

/-- Moving both ends by the same number of steps leaves the way between them as long as it was. -/
theorem distance_advance_advance (a b : RingId) (n : Nat) :
    (a.advance n).distance (b.advance n) = a.distance b := by
  unfold distance advance
  exact congrArg UInt32.toNat (by grind)

/-! ## Arcs as ranges of distances -/

theorem inArc_self : x.inArc a a ends = true ↔ x = a := by
  simp [inArc]

theorem inArc_iff_toNat (h : lo ≠ hi) : x.inArc lo hi ends = true ↔
    if lo.toNat < hi.toNat then
      (lo.toNat < x.toNat ∨ ends.includeFirst = true ∧ x = lo) ∧
        (x.toNat < hi.toNat ∨ ends.includeLast = true ∧ x = hi)
    else
      (lo.toNat < x.toNat ∨ ends.includeFirst = true ∧ x = lo) ∨
        (x.toNat < hi.toNat ∨ ends.includeLast = true ∧ x = hi) := by
  unfold RingId.inArc
  rw [if_neg h]
  simp only [UInt32.lt_iff_toNat_lt]
  change (if lo.toNat < hi.toNat then _ else _) = true ↔ _
  split <;> simp [toNat]

/-- The numbers are the distances from zero, and the distances from any other position tell the same. -/
theorem inArc_seen_from (o : RingId) (h : lo ≠ hi) : x.inArc lo hi ends = true ↔
    if o.distance lo < o.distance hi then
      (o.distance lo < o.distance x ∨ ends.includeFirst = true ∧ x = lo) ∧
        (o.distance x < o.distance hi ∨ ends.includeLast = true ∧ x = hi)
    else
      (o.distance lo < o.distance x ∨ ends.includeFirst = true ∧ x = lo) ∨
        (o.distance x < o.distance hi ∨ ends.includeLast = true ∧ x = hi) := by
  have ho := o.toNat_lt
  have hlo := lo.toNat_lt
  have hhi := hi.toNat_lt
  have hx := x.toNat_lt
  have hne : lo.toNat ≠ hi.toNat := fun e => h (toNat_inj.mp e)
  rw [inArc_iff_toNat h, ← toNat_inj, ← toNat_inj]
  -- An arc changes branches where exactly one of its ends has a smaller number than `o`.
  rcases distance_cases o lo with ⟨_, _⟩ | ⟨_, _⟩ <;> rcases distance_cases o hi with ⟨_, _⟩ | ⟨_, _⟩ <;>
    rcases distance_cases o x with ⟨_, _⟩ | ⟨_, _⟩ <;> grind

/-- Seen from its own beginning an arc never crosses zero. -/
theorem inArc_iff (h : lo ≠ hi) : x.inArc lo hi ends = true ↔
    (0 < lo.distance x ∨ ends.includeFirst = true) ∧
      (lo.distance x < lo.distance hi ∨ ends.includeLast = true ∧ lo.distance x = lo.distance hi) := by
  have hpos := distance_pos.mpr h
  rw [inArc_seen_from lo h, distance_self, if_pos hpos, distance_inj]
  by_cases hx : lo = x
  · subst hx
    simp
  · simp [distance_pos.mpr hx]

theorem inArc_neither (h : lo ≠ hi) : x.inArc lo hi .neither = true ↔ Between lo x hi := by
  simp [inArc_iff h, Between, Ends.includeFirst, Ends.includeLast]

theorem inArc_last (h : lo ≠ hi) :
    x.inArc lo hi .last = true ↔ 0 < lo.distance x ∧ lo.distance x ≤ lo.distance hi := by
  simp [inArc_iff h, Nat.le_iff_lt_or_eq, Ends.includeFirst, Ends.includeLast]

theorem inArc_first (h : lo ≠ hi) : x.inArc lo hi .first = true ↔ lo.distance x < lo.distance hi := by
  simp [inArc_iff h, Ends.includeFirst, Ends.includeLast]

theorem inArc_both (h : lo ≠ hi) : x.inArc lo hi .both = true ↔ lo.distance x ≤ lo.distance hi := by
  simp [inArc_iff h, Nat.le_iff_lt_or_eq, Ends.includeFirst, Ends.includeLast]

end RingId

end ChordOverlay
