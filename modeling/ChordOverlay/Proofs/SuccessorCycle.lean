import ChordOverlay.Proofs.Course
import ChordOverlay.Proofs.Unity
import Mathlib.Data.List.Chain

/-!
# Where the successors lead

Every step from a member to its successor shortens the way that is left to the creator of the ring. So the
successors of all members inside form one cycle, and all ways lead into it.
-/

namespace ChordOverlay

/-! ## Ways that come back -/

theorem returns_of_reaches {α : Type} {r : α → α → Prop} (hr : Relator.RightUnique r) {a z : α}
    (haz : Relation.ReflTransGen r a z) (haa : Relation.TransGen r a a) : Relation.ReflTransGen r z a := by
  induction haz using Relation.ReflTransGen.head_induction_on with
  | refl => exact haa.to_reflTransGen
  | @head a b hab _ ih =>
      obtain ⟨b', hab', hba⟩ := Relation.TransGen.head'_iff.mp haa
      obtain rfl : b = b' := hr hab hab'
      exact (ih (Relation.TransGen.tail' hba hab)).trans hba

/-- Whoever stands in a chain before its last place goes on to a later one. -/
theorem exists_next_of_chain {α : Type} {r : α → α → Prop} {l : List α} {x z : α} (h : (l ++ [z]).IsChain r)
    (hx : x ∈ l) : ∃ y ∈ l.tail ++ [z], r x y := by
  induction l with
  | nil => cases hx
  | cons a l ih =>
      obtain ⟨hnext, hrest⟩ := List.isChain_cons.mp h
      rcases List.mem_cons.mp hx with rfl | hx
      · obtain ⟨y, hy⟩ : ∃ y, (l ++ [z]).head? = some y := by cases l <;> exact ⟨_, rfl⟩
        exact ⟨y, List.mem_of_mem_head? hy, hnext y hy⟩
      · obtain ⟨y, hy, hxy⟩ := ih hrest hx
        refine ⟨y, ?_, hxy⟩
        rcases List.mem_append.mp hy with hy | hy
        · exact List.mem_append_left _ (List.mem_of_mem_tail hy)
        · exact List.mem_append_right _ hy

namespace Unity

variable {ι : Type} {n₀ j k : ι} {σ : ι → Member}

/-- From one member inside to the one inside that has the position of its successor. -/
def Points (n₀ : ι) (σ : ι → Member) (k j : ι) : Prop :=
  Inside n₀ σ k ∧ Inside n₀ σ j ∧ (σ k).view.successor.id = (σ j).self.id

/-- How far it is on from a member to the one that began the ring. -/
def left (n₀ : ι) (σ : ι → Member) (k : ι) : Nat := (σ k).self.id.distance (σ n₀).self.id

theorem United.exists_next (h : United n₀ σ) (hk : Inside n₀ σ k) : ∃ j, Points n₀ σ k j := by
  by_cases ha : (σ k).Adopted
  · obtain ⟨j, hj, hid⟩ := (h k).peers _ (View.successor_mem ha)
    exact ⟨j, hk, hj, hid.symm⟩
  · obtain rfl := hk.resolve_right ha
    refine ⟨k, hk, hk, ?_⟩
    rw [View.successor, Successors.nearest_nil (not_not.mp ha), (h k).sound.list_owner]
    rfl

theorem points_unique (hids : ∀ j k, (σ j).self.id = (σ k).self.id → j = k) : Relator.RightUnique (Points n₀ σ) :=
  fun _ _ _ h h' => hids _ _ (h.2.2.symm.trans h'.2.2)

/-- The successor of a member that has one is somebody else, and no farther away than the creator. -/
theorem United.successor_distance (h : United n₀ σ) (hk : k ≠ n₀) (ha : (σ k).Adopted) :
    0 < (σ k).self.id.distance (σ k).view.successor.id ∧
      (σ k).self.id.distance (σ k).view.successor.id ≤ (σ k).self.id.distance (σ n₀).self.id := by
  refine ⟨RingId.distance_pos.mpr fun hid => ?_, (h k).near hk ha⟩
  refine (h k).sound.list.others _ (View.successor_mem ha) ?_
  rw [(h k).sound.list_owner]
  exact hid.symm

theorem United.left_lt (h : United n₀ σ) (hk : k ≠ n₀) (hp : Points n₀ σ k j) : left n₀ σ j < left n₀ σ k := by
  obtain ⟨hpos, hle⟩ := h.successor_distance hk (hp.1.resolve_left hk)
  have hway := RingId.distance_add hle
  rw [hp.2.2] at hpos hway
  unfold left
  omega

/-- The way from `j` along the successors: it ends at the creator, and what is left gets shorter all along. -/
theorem United.exists_way (h : United n₀ σ) (hj : Inside n₀ σ j) :
    ∃ way : List ι, (way ++ [n₀]).IsChain (Points n₀ σ) ∧ (way ++ [n₀]).head? = some j ∧
      way.Pairwise (fun x y => left n₀ σ y < left n₀ σ x) ∧ ∀ x ∈ way, x ≠ n₀ ∧ left n₀ σ x ≤ left n₀ σ j := by
  generalize hn : left n₀ σ j = n
  induction n using Nat.strong_induction_on generalizing j with
  | _ n ih =>
      subst hn
      by_cases hj₀ : j = n₀
      · subst hj₀
        exact ⟨[], .singleton _, rfl, .nil, nofun⟩
      obtain ⟨s, hs⟩ := h.exists_next hj
      have hlt := h.left_lt hj₀ hs
      obtain ⟨way, hchain, hhead, hpairs, hway⟩ := ih _ hlt hs.2.1 rfl
      refine ⟨j :: way, ?_, rfl, ?_, fun x hx => ?_⟩
      · refine List.isChain_cons.mpr ⟨fun s' hs' => ?_, hchain⟩
        obtain rfl := Option.some.inj (hhead.symm.trans hs')
        exact hs
      · exact List.pairwise_cons.mpr ⟨fun x hx => Nat.lt_of_le_of_lt (hway x hx).2 hlt, hpairs⟩
      · rcases List.mem_cons.mp hx with rfl | hx
        · exact ⟨hj₀, Nat.le_refl _⟩
        · exact ⟨(hway x hx).1, Nat.le_trans (hway x hx).2 (Nat.le_of_lt hlt)⟩

theorem United.reaches (h : United n₀ σ) (hj : Inside n₀ σ j) : Relation.ReflTransGen (Points n₀ σ) j n₀ := by
  obtain ⟨way, hchain, hhead, _, _⟩ := h.exists_way hj
  have hall := hchain.backwards_induction (Relation.ReflTransGen (Points n₀ σ) · n₀) _
    (fun _ _ hxy hy => hy.head hxy) fun _ => by
      rw [List.getLast_concat]
  exact hall j (List.mem_of_mem_head? (by rw [hhead]; rfl))

/-- Seen from the creator, whoever has a shorter way left comes later. -/
theorem distance_lt_of_left_lt {x y : ι} (hids : ∀ j k, (σ j).self.id = (σ k).self.id → j = k) (hx : x ≠ n₀) (hy : y ≠ n₀)
    (hlt : left n₀ σ y < left n₀ σ x) :
    (σ n₀).self.id.distance (σ x).self.id < (σ n₀).self.id.distance (σ y).self.id := by
  have hround : ∀ z, z ≠ n₀ → (σ n₀).self.id.distance (σ z).self.id + left n₀ σ z = UInt32.size := by
    intro z hz
    have hpos : (σ n₀).self.id.distance (σ n₀).self.id < (σ n₀).self.id.distance (σ z).self.id := by
      rw [RingId.distance_self]
      exact RingId.distance_pos.mpr fun hid => hz (hids _ _ hid.symm)
    have := RingId.distance_wrap hpos
    rwa [RingId.distance_self, Nat.add_zero] at this
  have hx' := hround x hx
  have hy' := hround y hy
  omega

/-- The cycle of the successors: from the creator clockwise once around, over everybody on any cycle. -/
theorem United.exists_cycle (h : United n₀ σ) (hids : ∀ j k, (σ j).self.id = (σ k).self.id → j = k) :
    ∃ rest : List ι, (n₀ :: rest ++ [n₀]).IsChain (Points n₀ σ) ∧
      (n₀ :: rest).Pairwise (fun x y => (σ n₀).self.id.distance (σ x).self.id < (σ n₀).self.id.distance (σ y).self.id) ∧
      ∀ k, Relation.TransGen (Points n₀ σ) k k ↔ k ∈ n₀ :: rest := by
  have hn₀ : Inside n₀ σ n₀ := Or.inl rfl
  obtain ⟨s, hs⟩ := h.exists_next hn₀
  obtain ⟨way, hchain, hhead, hpairs, hway⟩ := h.exists_way hs.2.1
  have hcycle : (n₀ :: way ++ [n₀]).IsChain (Points n₀ σ) := by
    refine List.isChain_cons.mpr ⟨fun s' hs' => ?_, hchain⟩
    obtain rfl := Option.some.inj (hhead.symm.trans hs')
    exact hs
  refine ⟨way, hcycle, ?_, fun k => ⟨fun hk => ?_, fun hk => ?_⟩⟩
  · refine List.pairwise_cons.mpr ⟨fun x hx => ?_, ?_⟩
    · rw [RingId.distance_self]
      exact RingId.distance_pos.mpr fun hid => (hway x hx).1 (hids _ _ hid.symm)
    · refine hpairs.imp_of_mem fun hx hy hlt => ?_
      exact distance_lt_of_left_lt hids (hway _ hx).1 (hway _ hy).1 hlt
  · -- Whoever comes back to itself is met from the creator on, and the cycle leads nowhere else.
    have hclosed : ∀ x y, x ∈ n₀ :: way → Points n₀ σ x y → y ∈ n₀ :: way := by
      intro x y hx hxy
      obtain ⟨y', hy', hxy'⟩ := exists_next_of_chain hcycle hx
      obtain rfl := points_unique hids hxy hxy'
      rcases List.mem_append.mp hy' with hy' | hy'
      · exact List.mem_cons_of_mem _ hy'
      · rw [List.mem_singleton.mp hy']
        exact List.mem_cons_self
    have hmet : ∀ y, Relation.ReflTransGen (Points n₀ σ) n₀ y → y ∈ n₀ :: way := by
      intro y hy
      induction hy with
      | refl => exact List.mem_cons_self
      | tail _ hxy ih => exact hclosed _ _ ih hxy
    obtain ⟨_, hfirst, _⟩ := Relation.TransGen.head'_iff.mp hk
    exact hmet k (returns_of_reaches (points_unique hids) (h.reaches hfirst.1) hk)
  · have hfrom := hcycle.induction (Relation.ReflTransGen (Points n₀ σ) n₀ ·) _ (fun _ _ hxy hx => hx.tail hxy)
      (fun _ => .refl) k (List.mem_append_left _ hk)
    by_cases hk₀ : k = n₀
    · subst hk₀
      exact Relation.TransGen.head' hs (h.reaches hs.2.1)
    · obtain ⟨x, _, hx⟩ := (Relation.ReflTransGen.cases_tail hfrom).resolve_left hk₀
      have hto := Relation.reflTransGen_iff_eq_or_transGen.mp (h.reaches hx.2.1)
      exact (hto.resolve_left (Ne.symm hk₀)).trans_left hfrom

/-! ## Every run of one creator and any number of joiners -/

theorem united_fresh (n₀ : ι) (self : ι → Peer) (settings : ι → Settings) :
    United n₀ fun k => Member.fresh (self k) (settings k) := fun _ => {
  self := rfl
  sound := .fresh _ _
  peers := fun _ hp => by cases hp
  before := fun _ hp => by cases hp
  adopted := fun _ ha => ha
  near := fun _ ha => absurd rfl ha
  joined := fun _ hphase => by cases hphase
  bare := fun _ _ => rfl }

variable [DecidableEq ι]

/-- What holds of all members holds on after any run without failures, and all positions stay. -/
theorem united_run {net : Net ι} (hnet : ∀ target e, ¬ net.fails target e) {w w' : World ι} (h : United n₀ w.members)
    (hidle : w.fronts = []) (hrun : World.Run net (May n₀) (fun _ => True) w w') :
    Grows n₀ w.members w'.members ∧ United n₀ w'.members := by
  obtain ⟨hgrows, hkeeps, _⟩ := World.Run.keeps (P := pact n₀) (kept hnet) hrun
    ⟨h, fun f hf => by rw [hidle] at hf; cases hf⟩ trivial
  exact ⟨hgrows, hkeeps.1⟩

/--
While one member creates a ring and any others join it, and no request fails: whoever has a successor has it no
farther away than the creator, and its successors lead to the creator. Everybody inside has exactly one successor
inside, and these form a single cycle, which goes clockwise once around from the creator.
-/
theorem successors_form_one_cycle {net : Net ι} (hnet : ∀ target e, ¬ net.fails target e) {self : ι → Peer}
    {settings : ι → Settings} (hids : ∀ j k, (self j).id = (self k).id → j = k) {w : World ι}
    (hrun : World.Run net (May n₀) (fun _ => True) (.idle fun k => .fresh (self k) (settings k)) w) :
    (∀ k, k ≠ n₀ → (w.members k).Adopted →
      0 < (self k).id.distance (w.members k).view.successor.id ∧
        (self k).id.distance (w.members k).view.successor.id ≤ (self k).id.distance (self n₀).id ∧
        Relation.ReflTransGen (Points n₀ w.members) k n₀) ∧
      (∀ k, Inside n₀ w.members k → ∃! j, Points n₀ w.members k j) ∧
      ∃ rest : List ι, (n₀ :: rest ++ [n₀]).IsChain (Points n₀ w.members) ∧
        (n₀ :: rest).Pairwise (fun j k => (self n₀).id.distance (self j).id < (self n₀).id.distance (self k).id) ∧
        ∀ k, Relation.TransGen (Points n₀ w.members) k k ↔ k ∈ n₀ :: rest := by
  obtain ⟨hgrows, hunited⟩ := united_run hnet (united_fresh n₀ self settings) rfl hrun
  have hself : ∀ k, (w.members k).self = self k := hgrows.self
  have hids' : ∀ j k, (w.members j).self.id = (w.members k).self.id → j = k := by
    intro j k hjk
    rw [hself, hself] at hjk
    exact hids j k hjk
  refine ⟨fun k hk ha => ?_, fun k hk => ?_, ?_⟩
  · have hdistance := hunited.successor_distance hk ha
    rw [hself, hself] at hdistance
    exact ⟨hdistance.1, hdistance.2, hunited.reaches (Or.inr ha)⟩
  · obtain ⟨j, hj⟩ := hunited.exists_next hk
    exact ⟨j, hj, fun _ hj' => points_unique hids' hj' hj⟩
  · have hcycle := hunited.exists_cycle hids'
    simp only [hself] at hcycle
    exact hcycle

/-- Two members, of which the second joins the ring that the first has created. -/
def pair (k : Fin 2) : Peer := ⟨.ofNat (1000 * (k.val + 1)), ⟨10, 0, 0, UInt8.ofNat k.val⟩, 7000⟩

/-- Two members before anything has begun. -/
def pairFresh (k : Fin 2) : Member := .fresh (pair k) {}

/-- The first has begun a ring. -/
def pairCreated : Fin 2 → Member :=
  ((Strand.run 0 Activity.create : Strand (Fin 2) (.own .create)).drive (.flawless pair) 2 pairFresh).1

/-- The second has joined it. -/
def pairJoined : Fin 2 → Member :=
  ((Strand.run 1 (Activity.join (pair 0).address) : Strand (Fin 2) (.own (.join (pair 0).address))).drive
    (.flawless pair) 10 pairCreated).1

theorem run_pairJoined : World.Run (.flawless pair) (May 0) (fun _ => True) (.idle pairFresh) (.idle pairJoined) := by
  have hcreated : World.Run (.flawless pair) (May 0) (fun _ => True) (.idle pairFresh) (.idle pairCreated) := by
    exact World.Run.alone 0 .create 2 rfl rfl rfl fun _ _ => trivial
  have hjoined : World.Run (.flawless pair) (May 0) (fun _ => True) (.idle pairCreated) (.idle pairJoined) := by
    exact World.Run.alone 1 (.join (pair 0).address) 10 (by decide : (1 : Fin 2) ≠ 0) rfl rfl fun _ _ => trivial
  exact Relation.ReflTransGen.trans hcreated hjoined

theorem successors_form_one_cycle_pair :
    World.Run (.flawless pair) (May 0) (fun _ => True) (.idle pairFresh) (.idle pairJoined) ∧
      (pairJoined 1).Adopted ∧ 0 < (pair 1).id.distance (pairJoined 1).view.successor.id ∧
      Relation.ReflTransGen (Points 0 pairJoined) 1 0 := by
  have hids : ∀ j k, (pair j).id = (pair k).id → j = k := by decide
  have ha : (pairJoined 1).Adopted := by decide
  have hcycle := successors_form_one_cycle (fun _ _ => id) hids run_pairJoined
  obtain ⟨hpos, _, hway⟩ := hcycle.1 1 (by decide) ha
  exact ⟨run_pairJoined, ha, hpos, hway⟩

end Unity

end ChordOverlay
