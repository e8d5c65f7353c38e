import ChordOverlay.Proofs.Ownership
import Mathlib.Data.Finset.Max
import Mathlib.Data.Fintype.Card

/-!
# The members between two members

Members are counted clockwise. Whoever has nobody between itself and another member is the one right before it, and
from a member to itself the way leads once around, past all the others.
-/

namespace ChordOverlay

variable {ι : Type} [Fintype ι] {σ : ι → Member} {i j k : ι}

/-- No two members are at one position. -/
def Distinct {ι : Type} (σ : ι → Member) : Prop := ∀ j k, (σ j).self.id = (σ k).self.id → j = k

/-- The way from `k` on to `j`. -/
def span {ι : Type} (σ : ι → Member) (k j : ι) : Nat :=
  if (σ k).self.id = (σ j).self.id then UInt32.size else (σ k).self.id.distance (σ j).self.id

/-- The members that lie before `j` on the way from `k`. -/
def between (σ : ι → Member) (k j : ι) : Finset ι :=
  Finset.univ.filter fun i => 0 < (σ k).self.id.distance (σ i).self.id ∧ (σ k).self.id.distance (σ i).self.id < span σ k j

/-- How many members lie before `j` on the way from `k`. -/
def gap (σ : ι → Member) (k j : ι) : Nat := (between σ k j).card

theorem mem_between : i ∈ between σ k j ↔
    0 < (σ k).self.id.distance (σ i).self.id ∧ (σ k).self.id.distance (σ i).self.id < span σ k j := by
  simp [between]

omit [Fintype ι] in
theorem span_self (σ : ι → Member) (k : ι) : span σ k k = UInt32.size := by simp [span]

omit [Fintype ι] in
theorem span_of_ne (hids : Distinct σ) (h : j ≠ k) : span σ k j = (σ k).self.id.distance (σ j).self.id :=
  if_neg fun hid => h (hids k j hid).symm

omit [Fintype ι] in
theorem span_le (σ : ι → Member) (k j : ι) : span σ k j ≤ UInt32.size := by
  unfold span
  split
  · exact Nat.le_refl _
  · exact Nat.le_of_lt (RingId.distance_lt _ _)

omit [Fintype ι] in
theorem distance_le_span (σ : ι → Member) (k j : ι) : (σ k).self.id.distance (σ j).self.id ≤ span σ k j := by
  unfold span
  split
  · exact Nat.le_of_lt (RingId.distance_lt _ _)
  · exact Nat.le_refl _

theorem ne_of_mem_between (h : i ∈ between σ k j) : i ≠ k := by
  rintro rfl
  simpa using (mem_between.mp h).1

theorem span_of_mem (h : i ∈ between σ k j) : span σ k i = (σ k).self.id.distance (σ i).self.id :=
  if_neg (RingId.distance_pos.mp (mem_between.mp h).1)

theorem span_add (h : i ∈ between σ k j) : span σ k i + span σ i j = span σ k j := by
  obtain ⟨hpos, hlt⟩ := mem_between.mp h
  rw [span_of_mem h]
  unfold span at hlt ⊢
  by_cases hkj : (σ k).self.id = (σ j).self.id
  · have hwrap := RingId.distance_wrap (a := (σ k).self.id) (b := (σ i).self.id) (c := (σ k).self.id) (by simpa)
    rw [RingId.distance_self] at hwrap
    rw [if_pos hkj, ← hkj, if_neg fun hid => RingId.distance_pos.mp hpos hid.symm]
    omega
  · rw [if_neg hkj] at hlt ⊢
    have hij : (σ i).self.id ≠ (σ j).self.id := by
      intro hid
      rw [hid] at hlt
      exact Nat.lt_irrefl _ hlt
    rw [if_neg hij]
    exact RingId.distance_add (Nat.le_of_lt hlt)

theorem mem_between_iff (hids : Distinct σ) (h : i ∈ between σ k j) (x : ι) :
    x ∈ between σ k j ↔ x ∈ between σ k i ∨ x = i ∨ x ∈ between σ i j := by
  have hway := span_add h
  have hspan := span_of_mem h
  obtain ⟨hpos, hlt⟩ := mem_between.mp h
  have hsize := span_le σ k j
  simp only [mem_between]
  constructor
  · rintro ⟨hx, hxj⟩
    rcases Nat.lt_trichotomy ((σ k).self.id.distance (σ x).self.id) ((σ k).self.id.distance (σ i).self.id) with hlt | heq | hgt
    · exact Or.inl ⟨hx, by omega⟩
    · exact Or.inr (Or.inl (hids _ _ (RingId.distance_inj.mp heq)))
    · have := RingId.distance_add (Nat.le_of_lt hgt)
      exact Or.inr (Or.inr ⟨by omega, by omega⟩)
  · rintro (⟨hx, hxi⟩ | rfl | ⟨hx, hxj⟩)
    · exact ⟨hx, by omega⟩
    · exact ⟨hpos, hlt⟩
    · have := RingId.distance_add_of_lt (a := (σ k).self.id) (b := (σ i).self.id) (c := (σ x).self.id) (by omega)
      exact ⟨by omega, by omega⟩

theorem gap_split (hids : Distinct σ) (h : i ∈ between σ k j) : gap σ k j = gap σ k i + 1 + gap σ i j := by
  classical
  have hspan := span_of_mem h
  have hway := span_add h
  have hsize := span_le σ k j
  have heq : between σ k j = insert i (between σ k i ∪ between σ i j) := by
    ext x
    rw [mem_between_iff hids h]
    simp only [Finset.mem_insert, Finset.mem_union]
    tauto
  have hdisjoint : Disjoint (between σ k i) (between σ i j) := by
    refine Finset.disjoint_left.mpr fun x hx hx' => ?_
    have hx := mem_between.mp hx
    have hx' := mem_between.mp hx'
    have := RingId.distance_add_of_lt (a := (σ k).self.id) (b := (σ i).self.id) (c := (σ x).self.id) (by omega)
    omega
  have hnot : i ∉ between σ k i ∪ between σ i j := by
    simp only [Finset.mem_union, mem_between, RingId.distance_self, hspan]
    omega
  unfold gap
  rw [heq, Finset.card_insert_of_notMem hnot, Finset.card_union_of_disjoint hdisjoint]
  omega

theorem gap_lt_of_mem (hids : Distinct σ) (h : i ∈ between σ k j) : gap σ k i < gap σ k j := by
  have := gap_split hids h
  omega

theorem gap_mono (h : span σ k i ≤ span σ k j) : gap σ k i ≤ gap σ k j := by
  refine Finset.card_le_card fun x hx => ?_
  obtain ⟨hpos, hlt⟩ := mem_between.mp hx
  exact mem_between.mpr ⟨hpos, by omega⟩

theorem gap_congr {σ' : ι → Member} (hself : ∀ k, (σ' k).self = (σ k).self) (k j : ι) : gap σ' k j = gap σ k j := by
  refine congrArg Finset.card (Finset.ext fun x => ?_)
  simp only [mem_between, span, hself]

theorem span_le_of_gap_le (hids : Distinct σ) (h : gap σ k i ≤ gap σ k j) : span σ k i ≤ span σ k j := by
  refine Nat.le_of_not_lt fun hlt => ?_
  have hsize := span_le σ k i
  have hjk : j ≠ k := by
    rintro rfl
    rw [span_self] at hlt
    omega
  have hmem : j ∈ between σ k i := by
    rw [span_of_ne hids hjk] at hlt
    exact mem_between.mpr ⟨RingId.distance_pos.mpr fun hid => hjk (hids _ _ hid).symm, hlt⟩
  have := gap_lt_of_mem hids hmem
  omega

theorem distance_lt_of_gap_lt (hids : Distinct σ) (hj : j ≠ k) (h : gap σ k i < gap σ k j) :
    (σ k).self.id.distance (σ i).self.id < (σ k).self.id.distance (σ j).self.id := by
  refine Nat.lt_of_not_le fun hle => ?_
  rw [← span_of_ne hids hj] at hle
  have := gap_mono (Nat.le_trans hle (distance_le_span σ k i))
  omega

theorem mem_between_of_gap_lt (hids : Distinct σ) (hx : x ≠ k) (h : gap σ k x < gap σ k j) : x ∈ between σ k j := by
  refine mem_between.mpr ⟨RingId.distance_pos.mpr fun hid => hx (hids _ _ hid).symm, Nat.lt_of_not_le fun hle => ?_⟩
  have := gap_mono (Nat.le_trans hle (distance_le_span σ k x))
  omega

theorem gap_le_of_distance_le (hids : Distinct σ) (hi : i ≠ k)
    (hle : (σ k).self.id.distance (σ i).self.id ≤ (σ k).self.id.distance (σ j).self.id) : gap σ k i ≤ gap σ k j := by
  refine gap_mono ?_
  rw [span_of_ne hids hi]
  exact Nat.le_trans hle (distance_le_span σ k j)

theorem gap_inj (hids : Distinct σ) (hi : i ≠ k) (hj : j ≠ k) (h : gap σ k i = gap σ k j) : i = j := by
  have hij := span_le_of_gap_le hids (Nat.le_of_eq h)
  have hji := span_le_of_gap_le hids (Nat.le_of_eq h.symm)
  rw [span_of_ne hids hi, span_of_ne hids hj] at hij hji
  exact hids _ _ (RingId.distance_inj.mp (Nat.le_antisymm hij hji))

theorem between_self (hids : Distinct σ) [DecidableEq ι] (k : ι) : between σ k k = Finset.univ.erase k := by
  ext x
  have hlt := RingId.distance_lt (σ k).self.id (σ x).self.id
  simp only [mem_between, span_self, hlt, and_true, Finset.mem_erase, Finset.mem_univ, RingId.distance_pos, ne_eq]
  exact ⟨fun h heq => h (by rw [heq]), fun h hid => h (hids _ _ hid).symm⟩

theorem gap_self (hids : Distinct σ) (k : ι) : gap σ k k = Fintype.card ι - 1 := by
  classical
  rw [gap, between_self hids, Finset.card_erase_of_mem (Finset.mem_univ k), Finset.card_univ]

theorem gap_le (hids : Distinct σ) (k j : ι) : gap σ k j ≤ Fintype.card ι - 1 := by
  rw [← gap_self hids k]
  refine gap_mono ?_
  rw [span_self]
  exact span_le σ k j

theorem gap_lt (hids : Distinct σ) (h : j ≠ k) : gap σ k j < Fintype.card ι - 1 := by
  rw [← gap_self hids k]
  refine gap_lt_of_mem hids (mem_between.mpr ⟨RingId.distance_pos.mpr fun hid => h (hids _ _ hid).symm, ?_⟩)
  rw [span_self]
  exact RingId.distance_lt _ _

/-! ## The member after another one -/

theorem gap_eq_zero (hids : Distinct σ) : gap σ k j = 0 ↔ Next σ k (σ j).self := by
  rw [gap, Finset.card_eq_zero, Finset.eq_empty_iff_forall_notMem]
  simp only [mem_between, not_and, Nat.not_lt]
  constructor
  · intro h
    refine ⟨⟨j, rfl⟩, fun heq i => ?_, fun i hi => ?_⟩
    · have hjk : j = k := hids _ _ (congrArg Peer.id heq)
      subst hjk
      refine by_contra fun hi => ?_
      have hsize := h i (RingId.distance_pos.mpr fun hid => hi (hids _ _ hid).symm)
      rw [span_self] at hsize
      exact absurd hsize (Nat.not_le.mpr (RingId.distance_lt _ _))
    · exact Nat.le_trans (distance_le_span σ k j) (h i (RingId.distance_pos.mpr fun hid => hi (hids _ _ hid).symm))
  · rintro ⟨_, halone, hnearest⟩ i hpos
    have hik : i ≠ k := by
      rintro rfl
      simp at hpos
    by_cases hjk : j = k
    · subst hjk
      exact absurd (halone rfl i) hik
    · rw [span_of_ne hids hjk]
      exact hnearest i hik

theorem Next.unique (hids : Distinct σ) (hi : Next σ k (σ i).self) (hj : Next σ k (σ j).self) : i = j := by
  have heq := (gap_eq_zero hids).mpr hi
  have heq' := (gap_eq_zero hids).mpr hj
  by_cases hik : i = k
  · exact (hi.2.1 (by rw [hik]) i).trans (hi.2.1 (by rw [hik]) j).symm
  by_cases hjk : j = k
  · exact (hj.2.1 (by rw [hjk]) i).trans (hj.2.1 (by rw [hjk]) j).symm
  exact gap_inj hids hik hjk (heq.trans heq'.symm)

theorem exists_before (hids : Distinct σ) (h : gap σ k j ≠ 0) : ∃ i ∈ between σ k j, Next σ i (σ j).self := by
  have hsome : (between σ k j).Nonempty := Finset.card_pos.mp (Nat.pos_of_ne_zero h)
  obtain ⟨i, hi, hlast⟩ := Finset.exists_max_image _ (fun x => (σ k).self.id.distance (σ x).self.id) hsome
  -- The farthest one passed has nobody between it and `j`, who would be passed as well and be farther.
  refine ⟨i, hi, (gap_eq_zero hids).mp (Finset.card_eq_zero.mpr (Finset.eq_empty_iff_forall_notMem.mpr fun x hx => ?_))⟩
  have hle := hlast x ((mem_between_iff hids hi x).mpr (Or.inr (Or.inr hx)))
  have hway := span_add hi
  have hspan := span_of_mem hi
  have hsize := span_le σ k j
  obtain ⟨hpos, hlt⟩ := mem_between.mp hx
  have := RingId.distance_add_of_lt (a := (σ k).self.id) (b := (σ i).self.id) (c := (σ x).self.id) (by omega)
  omega

theorem exists_previous (hids : Distinct σ) (j : ι) : ∃ i, Next σ i (σ j).self := by
  by_cases h : gap σ j j = 0
  · exact ⟨j, (gap_eq_zero hids).mp h⟩
  · obtain ⟨i, _, hi⟩ := exists_before hids h
    exact ⟨i, hi⟩

theorem Next.mem_between (hids : Distinct σ) (hj : j ≠ k) (h : Next σ j (σ i).self) : j ∈ between σ k i := by
  have hpos : 0 < (σ k).self.id.distance (σ j).self.id := RingId.distance_pos.mpr fun hid => hj (hids _ _ hid).symm
  refine ChordOverlay.mem_between.mpr ⟨hpos, ?_⟩
  by_cases hik : i = k
  · rw [hik, span_self]
    exact RingId.distance_lt _ _
  rw [span_of_ne hids hik]
  have hback := RingId.distance_wrap (a := (σ k).self.id) (b := (σ j).self.id) (c := (σ k).self.id) (by simpa)
  have hnearest := h.2.2 k (Ne.symm hj)
  rw [RingId.distance_self] at hback
  -- If `i` came first, the way from `j` on to it would lead past `k`, and it would not be next to `j`.
  refine Nat.lt_of_not_le fun hle => ?_
  have hipos : 0 < (σ k).self.id.distance (σ i).self.id := RingId.distance_pos.mpr fun hid => hik (hids _ _ hid).symm
  rcases Nat.lt_or_eq_of_le hle with hlt | heq
  · have := RingId.distance_wrap hlt
    omega
  · have hij : i = j := hids _ _ (RingId.distance_inj.mp heq)
    exact hj (h.2.1 (by rw [hij]) k).symm

/-- The member after `j`, seen from any other, has one more before it. -/
theorem gap_next (hids : Distinct σ) (hj : j ≠ k) (h : Next σ j (σ i).self) : gap σ k i = gap σ k j + 1 := by
  rw [gap_split hids (h.mem_between hids hj), (gap_eq_zero hids).mpr h]

theorem Next.previous_unique (hids : Distinct σ) (hi : Next σ i (σ k).self) (hj : Next σ j (σ k).self) : i = j := by
  refine by_contra fun hne => ?_
  have hi' := gap_next hids (Ne.symm hne) hj
  rw [(gap_eq_zero hids).mpr hi] at hi'
  omega

end ChordOverlay
