import ChordOverlay.Proofs.Requests
import ChordOverlay.Proofs.Rounds

/-!
# The walk along the successors

On a ring whose members all know the next one, the walk of a member meets the members after it, one by one, and each
of them answers from what it knows by itself. Whatever the answers are, the walk comes to its end, and what it leaves
is a list of the form that every list has.
-/

namespace ChordOverlay

variable {ι : Type} {net : Net ι} {σ : ι → Member} {k : ι}

/-- What a walk of `k` asks of `p`: who owns the position right behind it, to be answered without a hop. -/
def askBehind (k : ι) (p : Peer) : Contact ι := ⟨k, p.address, .owner (p.id.advance 1) 0⟩

/-! ## On a ring -/

namespace Ring

open Activity

variable [DecidableEq ι]

theorem answered_behind (h : Ring σ) (hreach : ∀ k, net.reach (σ k).self.address = some k)
    (hanswered : ∀ k e, ¬ net.fails (σ k).self.address e) (k j : ι) :
    Answered net σ k (σ j).self.address (.owner ((σ j).self.id.advance 1) 0) σ (.ok (some (σ j).view.successor)) :=
  ⟨j, .lookupReport (some (σ j).view.successor), σ j, hreach j, hanswered j,
    proceed_lookup_found _ (h.joined j) (h.sound j).findSuccessor_behind, (Function.update_eq_self j σ).symm, rfl⟩

/-- The walk asks `i` and then whomever it meets, but not the last one once it has met as many as it may. -/
theorem comes_walk (h : Ring σ) (hreach : ∀ k, net.reach (σ k).self.address = some k)
    (hanswered : ∀ k e, ¬ net.fails (σ k).self.address e) {d : Duty} {f : List Peer → Activity d.Result}
    {post : List (Contact ι) → (ι → Member) → d.Result → Prop} (self : RingId) (n : Nat) {i : ι} {walked : List Peer}
    {log : List (Contact ι)}
    (hrest : ∀ met, trail net σ self n (σ i).self walked = walked ++ met →
      Comes net k post (log ++ (((σ i).self :: met).take n).map (askBehind k)) (f (walked ++ met)) σ) :
    Comes net k post log ((walk self n (σ i).self walked).bind f) σ := by
  induction n generalizing i walked log with
  | zero =>
      have hnone := hrest [] (List.append_nil walked).symm
      rwa [List.append_nil, List.take_zero, List.map_nil, List.append_nil] at hnone
  | succ n ih =>
      refine comes_answered (h.answered_behind hreach hanswered k i) ?_
      obtain ⟨j, hj⟩ := (h.next i).1
      simp only [trail, hreach, hj] at hrest
      rw [hj]
      by_cases hnew : (σ j).self.id ≠ self ∧ ¬ walked.any fun p => p.id = (σ j).self.id
      · change Comes net k post _ (Program.bind (ite _ _ _) f) σ
        rw [if_pos hnew]
        refine ih fun met hmet => ?_
        have hall := hrest ((σ j).self :: met) (by rw [if_pos hnew, hmet, List.append_assoc, List.singleton_append])
        rw [List.take_succ_cons, List.map_cons] at hall
        rwa [List.append_assoc, List.append_assoc, List.singleton_append, List.singleton_append]
      · change Comes net k post _ (Program.bind (ite _ _ _) f) σ
        rw [if_neg hnew]
        have hall := hrest [] (by rw [if_neg hnew, List.append_nil])
        rwa [List.append_nil, List.take_succ_cons, List.take_nil] at hall

/-- What the walk of `k` leaves, and whom it asks: all the members it lists but the last one it has room for. -/
theorem comes_syncSuccessors [Fintype ι] (h : Ring σ) (hreach : ∀ k, net.reach (σ k).self.address = some k)
    (hanswered : ∀ k e, ¬ net.fails (σ k).self.address e)
    (hroom : (σ k).view.successors.bound = max 1 (σ k).settings.successorListLength)
    (hother : (σ k).view.successor.id ≠ (σ k).self.id) :
    ∃ js, Row σ k js ∧ js.length = min (max 1 (σ k).settings.successorListLength) (Fintype.card ι - 1) ∧
      Comes (d := .own .syncSuccessors) net k
        (fun log σ' _ =>
          log = (js.take (max 1 (σ k).settings.successorListLength - 1)).map (fun j => askBehind k (σ j).self) ∧
          σ' = Function.update σ k { σ k with view.successors.peers := js.map fun j => (σ j).self })
        [] syncSuccessors σ := by
  obtain ⟨js, hrow, hlength, htrail, hview⟩ := h.exists_synced hreach hroom hother
  refine ⟨js, hrow, hlength, comes_look.mpr ?_⟩
  change Comes net k _ [] (ite _ _ _) σ
  rw [if_neg hother]
  obtain ⟨j, hj⟩ := (h.next k).1
  rw [hj] at htrail ⊢
  refine h.comes_walk hreach hanswered _ _ fun met hmet => ?_
  rw [htrail, List.singleton_append] at hmet
  rw [List.singleton_append, ← hmet]
  refine comes_look.mpr (comes_store.mpr (comes_done ⟨?_, ?_⟩))
  · rw [List.nil_append, ← List.map_take, List.map_map]
    rfl
  · exact congrArg (fun view => Function.update σ k { σ k with view }) hview

end Ring

/-! ## Among strangers -/

/-- The list of `m`, as it is in `m'`: in strict order from `m` on, without `m`, and no longer than it may be. -/
structure Listed (m m' : Member) : Prop where
  ordered : m'.view.successors.peers.Pairwise fun p q => m.self.id.distance p.id < m.self.id.distance q.id
  others : ∀ p ∈ m'.view.successors.peers, p.id ≠ m.self.id
  fits : m'.view.successors.peers.length ≤ max 1 m.settings.successorListLength

namespace Activity

variable {m : Member}

theorem costs_walk (self : RingId) (n : Nat) (current : Peer) (walked : List Peer) :
    (walk self n current walked).Costs (fun m' _ => m.Evolves m') n m := by
  suffices hwalk : ∀ m', m.Evolves m' → (walk self n current walked).Costs (fun m' _ => m.Evolves m') n m' from
    hwalk m (.refl m)
  induction n generalizing current walked with
  | zero => exact fun m' hm => hm
  | succ n ih =>
      refine fun m' hm => costs_query fun r m'' hm' => ?_
      have hstop : (pure walked : Activity (List Peer)).Costs (fun m' _ => m.Evolves m') n m'' := hm.trans hm'
      rcases r with e | _ | next
      · exact hstop
      · exact hstop
      · change Costs _ (ite _ _ _) n m''
        split
        · exact ih next (walked ++ [next]) m'' (hm.trans hm')
        · exact hstop

theorem listed_of_evolves {m' : Member} (hv : m.view.Sound)
    (hroom : m.view.successors.bound = max 1 m.settings.successorListLength) (h : m.Evolves m') : Listed m m' := by
  have hv' := h.view.sound hv
  have howner : m'.view.successors.owner = m.self := hv'.list_owner.trans h.self
  obtain ⟨hordered, hothers, hfits, _⟩ := hv'.list
  rw [howner] at hordered hothers
  exact ⟨hordered, hothers, by rw [← hroom, ← h.view.bound]; exact hfits⟩

/-- The walk is over after fewer requests than the list has room for, whatever is answered. -/
theorem costs_syncSuccessors (hv : m.view.Sound)
    (hroom : m.view.successors.bound = max 1 m.settings.successorListLength) :
    syncSuccessors.Costs (fun m' _ => Listed m m') (max 1 m.settings.successorListLength - 1) m := by
  refine costs_look.mpr ?_
  change Costs _ (ite _ _ _) _ m
  split
  · exact listed_of_evolves hv hroom (.refl m)
  · refine Costs.bind (j := 0) ((costs_walk _ _ _ _).mono (Nat.le_refl _) fun m' walked hm => ?_)
    exact listed_of_evolves hv hroom (hm.trans (.apply m' (.syncSuccessors walked)))

end Activity

/-! ## Both together -/

variable [Fintype ι] [DecidableEq ι]

/--
On a ring of at least two members that answer, the walk of `k` always comes to its end, and leaves in the list of `k`
just the members after it, in their order, as many as it has room for or as there are. Nobody but `k` asks anybody
anything on the way, and every request is answered without a hop. Among any peers, whatever they answer, the walk is
over after at most as many requests, and leaves a list in strict order, without its owner and not too long.
-/
theorem Ring.walk_lists_next_members (h : Ring σ) (hreach : ∀ k, net.reach (σ k).self.address = some k)
    (hanswered : ∀ k e, ¬ net.fails (σ k).self.address e) (hcard : 2 ≤ Fintype.card ι) (k : ι)
    (hroom : (σ k).view.successors.bound = max 1 (σ k).settings.successorListLength) :
    (∃ js, Row σ k js ∧ js.length = min (max 1 (σ k).settings.successorListLength) (Fintype.card ι - 1) ∧
      Strand.Comes net k
        (fun log σ' _ =>
          log = (js.take (max 1 (σ k).settings.successorListLength - 1)).map (fun j => askBehind k (σ j).self) ∧
          σ' = Function.update σ k { σ k with view.successors.peers := js.map fun j => (σ j).self })
        [] σ (.run k Activity.syncSuccessors : Strand ι (.own .syncSuccessors))) ∧
    ∀ m : Member, m.view.Sound → m.view.successors.bound = max 1 m.settings.successorListLength →
      Activity.syncSuccessors.Costs (fun m' _ => Listed m m') (max 1 m.settings.successorListLength - 1) m := by
  refine ⟨?_, fun m hv hroom => Activity.costs_syncSuccessors hv hroom⟩
  have hother : (σ k).view.successor.id ≠ (σ k).self.id := by
    intro hid
    have hnext := h.next k
    rw [(h.sound k).successor_of_alone (decide_eq_true hid)] at hnext
    have hnobody := (gap_eq_zero h.distinct).mpr hnext
    rw [gap_self h.distinct] at hnobody
    omega
  obtain ⟨js, hrow, hlength, hcomes⟩ := h.comes_syncSuccessors hreach hanswered hroom hother
  exact ⟨js, hrow, hlength, .of_proceed hcomes⟩

/-- The first of four members, which knows only the second, asks that and the third, and then knows all three. -/
theorem Ring.walk_lists_next_members_four : Ring Ideal.fourMembers ∧
    (∀ k, (Net.flawless Ideal.four).reach (Ideal.fourMembers k).self.address = some k) ∧
    (∀ k e, ¬ (Net.flawless Ideal.four).fails (Ideal.fourMembers k).self.address e) ∧ 2 ≤ Fintype.card (Fin 4) ∧
    (Ideal.fourMembers 0).view.successors.bound = max 1 (Ideal.fourMembers 0).settings.successorListLength ∧
    Strand.Comes (.flawless Ideal.four) 0
      (fun log σ' _ => log = [askBehind 0 (Ideal.four 1), askBehind 0 (Ideal.four 2)] ∧
        (σ' 0).view.successors.peers = [Ideal.four 1, Ideal.four 2, Ideal.four 3])
      [] Ideal.fourMembers (.run 0 Activity.syncSuccessors : Strand (Fin 4) (.own .syncSuccessors)) ∧
    (Ideal.fourMembers 0).view.Sound ∧
    Activity.syncSuccessors.Costs (fun m' _ => m'.view.successors.peers.length ≤ 3) 2 (Ideal.fourMembers 0) := by
  have h := Ideal.ideal_four
  have hwalk := h.toRing.walk_lists_next_members h.reached (fun k => h.answered _) (by decide) 0 (by decide)
  obtain ⟨⟨js, hrow, hlength, hcomes⟩, hcosts⟩ := hwalk
  have hjs : js = [1, 2, 3] := by
    refine hrow.unique h.distinct ?_ hlength
    unfold Row Next
    decide
  subst hjs
  refine ⟨h.toRing, h.reached, fun k => h.answered _, by decide, by decide, hcomes.mono ?_, h.sound 0, ?_⟩
  · rintro log σ' _ ⟨rfl, rfl⟩
    exact ⟨rfl, rfl⟩
  · exact (hcosts _ (h.sound 0) (by decide)).mono (Nat.le_refl _) fun m' _ hm => hm.fits


end ChordOverlay
