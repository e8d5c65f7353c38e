import ChordOverlay.Proofs.Passage
import ChordOverlay.Proofs.Requests

/-!
# Lookups past dead fingers

Some fingers are at positions where nobody is, and whoever is asked there is refused. Each refusal drops one such
position from the table, so a lookup that may decide more often than there are such positions comes to ask a member,
and it ends with the owner as if all fingers were members. Nothing but fingers that were refused is lost on the way.
-/

namespace ChordOverlay

variable {ι : Type} {net : Net ι} {σ σ₀ : ι → Member} {k : ι} {id : RingId} {p : Peer} {n : Nat} {t : Fingers}
  {log log' : List (Contact ι)} {ttl : UInt8}

/-- Nobody is at the position of the peer, and every connection to it is refused. -/
def Dead (net : Net ι) (σ : ι → Member) (p : Peer) : Prop :=
  (∀ j, (σ j).self.id ≠ p.id) ∧ net.reach p.address = none ∧
    ∀ e, net.fails p.address e ↔ e = .network (.refused p.address)

/-- The dead fingers of the table are at fewer than `n` positions. -/
def FewDead (net : Net ι) (σ : ι → Member) (n : Nat) (t : Fingers) : Prop :=
  ∃ ids : Finset RingId, ids.card < n ∧ ∀ p, some p ∈ t.slots → Dead net σ p → p.id ∈ ids

/-- A ring whose members answer, and whose fingers are members or dead, at fewer positions than a lookup has attempts. -/
structure Weathered (net : Net ι) (σ : ι → Member) : Prop extends Ring σ where
  reached : ∀ k, net.reach (σ k).self.address = some k
  answered : ∀ k e, ¬ net.fails (σ k).self.address e
  fingers : ∀ k p, some p ∈ (σ k).view.fingers.slots → (∃ j, p = (σ j).self) ∨ Dead net σ p
  few : ∀ k, FewDead net σ Activity.lookupAttempts (σ k).view.fingers

/-- Since `σ₀` each member has dropped nothing but dead fingers that it has asked for the owner of `id`. -/
def Dropped (net : Net ι) (σ₀ : ι → Member) (id : RingId) (log : List (Contact ι)) (σ : ι → Member) : Prop :=
  ∀ k, ∃ xs : List Peer, (∀ x ∈ xs, Dead net σ₀ x ∧ ∃ ttl, ⟨k, x.address, .owner id ttl⟩ ∈ log) ∧
    σ k = { σ₀ k with view.fingers := xs.foldl (fun t x => t.erase x.id) (σ₀ k).view.fingers }

/-! ## Dead fingers -/

theorem dead_congr (hself : ∀ k, (σ k).self = (σ₀ k).self) : Dead net σ p ↔ Dead net σ₀ p := by
  simp only [Dead, hself]

theorem Dead.lost (h : Dead net σ p) : Activity.Lost net p.address := ⟨h.2.1, _, (h.2.2 _).mpr rfl⟩

theorem FewDead.congr (h : FewDead net σ n t) (hself : ∀ k, (σ k).self = (σ₀ k).self) : FewDead net σ₀ n t := by
  simpa only [FewDead, dead_congr hself] using h

/-- What stands in for a dropped finger is at another position, so there is one dead position less. -/
theorem FewDead.erase (h : FewDead net σ (n + 1) t) (hp : some p ∈ t.slots) (hdead : Dead net σ p) :
    FewDead net σ n (t.erase p.id) := by
  obtain ⟨ids, hcard, hids⟩ := h
  have hmem := hids p hp hdead
  refine ⟨ids.erase p.id, ?_, fun q hq hq' => ?_⟩
  · have := Finset.card_pos.mpr ⟨_, hmem⟩
    rw [Finset.card_erase_of_mem hmem]
    omega
  · obtain ⟨hold, hne⟩ := Fingers.mem_erase hq
    exact Finset.mem_erase.mpr ⟨hne, hids q hold hq'⟩

theorem FewDead.of_erase {x : RingId} (h : FewDead net σ n t) : FewDead net σ n (t.erase x) := by
  obtain ⟨ids, hcard, hids⟩ := h
  exact ⟨ids, hcard, fun q hq => hids q (Fingers.mem_erase hq).1⟩

/-! ## What is dropped on the way -/

namespace Dropped

theorem refl (net : Net ι) (σ : ι → Member) (id : RingId) (log : List (Contact ι)) : Dropped net σ id log σ :=
  fun _ => ⟨[], nofun, rfl⟩

theorem mono (h : Dropped net σ₀ id log σ) (hlog : log ⊆ log') : Dropped net σ₀ id log' σ := fun k => by
  obtain ⟨xs, hxs, heq⟩ := h k
  refine ⟨xs, fun x hx => ?_, heq⟩
  obtain ⟨hdead, ttl, hasked⟩ := hxs x hx
  exact ⟨hdead, ttl, hlog hasked⟩

theorem self (h : Dropped net σ₀ id log σ) (k : ι) : (σ k).self = (σ₀ k).self := by
  obtain ⟨xs, _, heq⟩ := h k
  rw [heq]
  rfl

variable [DecidableEq ι]

theorem drop (h : Dropped net σ₀ id log σ) (hdead : Dead net σ₀ p) (hasked : ⟨k, p.address, .owner id ttl⟩ ∈ log) :
    Dropped net σ₀ id log (Function.update σ k { σ k with view.fingers := (σ k).view.fingers.erase p.id }) := fun j => by
  obtain ⟨xs, hxs, heq⟩ := h j
  by_cases hjk : j = k
  · subst hjk
    refine ⟨xs ++ [p], fun x hx => ?_, ?_⟩
    · rcases List.mem_append.mp hx with hx | hx
      · exact hxs x hx
      · rw [List.mem_singleton.mp hx]
        exact ⟨hdead, ttl, hasked⟩
    · rw [Function.update_self, heq, List.foldl_append]
      rfl
  · exact ⟨xs, hxs, by rw [Function.update_of_ne hjk, heq]⟩

end Dropped

namespace Weathered

variable [DecidableEq ι]

theorem drop (h : Weathered net σ) (k : ι) (x : RingId) :
    Weathered net (Function.update σ k { σ k with view.fingers := (σ k).view.fingers.erase x }) := by
  obtain ⟨hsteady, hring⟩ := h.toRing.fingers k ((h.sound k).table.erase x) (h.sound k).table_owner
  generalize hσ' : Function.update σ k { σ k with view.fingers := (σ k).view.fingers.erase x } = σ' at hsteady hring ⊢
  have hself : ∀ j, (σ' j).self = (σ j).self := hsteady.self
  have hslots : ∀ j, (σ' j).view.fingers = (σ j).view.fingers ∨ (σ' j).view.fingers = (σ j).view.fingers.erase x := by
    intro j
    rw [← hσ']
    by_cases hjk : j = k
    · subst hjk
      exact Or.inr (by rw [Function.update_self])
    · exact Or.inl (by rw [Function.update_of_ne hjk])
  refine ⟨hring, fun j => ?_, fun j => ?_, fun j p hp => ?_, fun j => ?_⟩
  · rw [hself]
    exact h.reached j
  · rw [hself]
    exact h.answered j
  · simp only [hself, dead_congr hself]
    rcases hslots j with heq | heq <;> rw [heq] at hp
    · exact h.fingers j p hp
    · exact h.fingers j p (Fingers.mem_erase hp).1
  · refine FewDead.congr ?_ fun k => (hself k).symm
    rcases hslots j with heq | heq <;> rw [heq]
    · exact h.few j
    · exact (h.few j).of_erase

/-! ## One lookup -/

open Activity

omit [DecidableEq ι] in
theorem hop_cases (h : Weathered net σ) (hid : id ≠ (σ k).self.id) :
    (∃ j, (σ k).view.hop id = (σ j).self) ∨
      some ((σ k).view.hop id) ∈ (σ k).view.fingers.slots ∧ Dead net σ ((σ k).view.hop id) := by
  rcases (σ k).view.hop_mem id with hfinger | hsuccessor
  · have hmem := (Fingers.closestPreceding?_eq_some (by rw [(h.sound k).table_owner]; exact hid) hfinger).1
    exact (h.fingers k _ hmem).imp_right fun hdead => ⟨hmem, hdead⟩
  · rw [hsuccessor]
    exact Or.inl (h.next k).1

/-- From this search at `k` on, whatever can go on from the owner goes on from it. -/
def Finds (net : Net ι) (σ₀ : ι → Member) (k : ι) (id : RingId) (d : Duty) (log : List (Contact ι))
    (search : Activity (Except Failure Peer)) (σ : ι → Member) : Prop :=
  ∀ (g : Except Failure Peer → Activity d.Result) (post : List (Contact ι) → (ι → Member) → d.Result → Prop),
    (∀ log' σ' p, Weathered net σ' → Dropped net σ₀ id log' σ' → Owns σ' id p → Comes net k post log' (g (.ok p)) σ') →
      Comes net k post log (search.bind g) σ

variable [Fintype ι] {d : Duty}

theorem finds_lookupFrom (hhops : (ahead σ₀ k id).card ≤ ttl.toNat)
    (hserved : ttl ≠ 0 → ∀ j ∈ ahead σ₀ k id, ∀ log σ, Weathered net σ → Dropped net σ₀ id log σ →
      Finds net σ₀ j id (.serve (.owner id (ttl - 1))) log (lookup id (ttl - 1)) σ)
    (last : Failure) (h : Weathered net σ) (hdropped : Dropped net σ₀ id log σ)
    (hfew : FewDead net σ₀ n (σ k).view.fingers) : Finds net σ₀ k id d log (lookupFrom id ttl n last) σ := by
  intro g post hrest
  induction n generalizing σ log last with
  | zero =>
      obtain ⟨ids, hnone, _⟩ := hfew
      exact absurd hnone (Nat.not_lt_zero _)
  | succ n ih =>
      have hfound : ∀ p, (σ k).view.findSuccessor id = .found p →
          Comes net k post log ((lookupFrom id ttl (n + 1) last).bind g) σ := by
        intro p hp
        rw [Comes, lookupFrom, proceed_look_bind, hp]
        exact hrest log σ p h hdropped (h.found hp)
      rcases (h.sound k).findSuccessor_cases id with ⟨_, heq⟩ | ⟨_, heq, _⟩ | ⟨hid, heq, _, hsuccessor, hbetween⟩
      · exact hfound _ heq
      · exact hfound _ heq
      have hahead : ∀ {j}, RingId.Between (σ k).self.id (σ j).self.id id → j ∈ ahead σ₀ k id := fun {j} hj =>
        mem_ahead.mpr (by rwa [← hdropped.self k, ← hdropped.self j])
      -- The successor itself is ahead, so there is a hop left to take.
      obtain ⟨i, hi⟩ := (h.next k).1
      rw [hi] at hsuccessor
      have httl : ttl ≠ 0 := by
        rintro rfl
        exact absurd (Finset.card_pos.mpr ⟨i, hahead hsuccessor⟩) (Nat.not_lt.mpr hhops)
      rw [Comes, lookupFrom, proceed_look_bind, heq]
      simp only [if_neg httl]
      rcases h.hop_cases hid with ⟨j, hj⟩ | ⟨hmem, hdead⟩
      · rw [hj] at hbetween ⊢
        refine comes_call (h.reached j) (h.answered j) ?_
        rw [Ideal.answer_owner]
        refine hserved httl j (hahead hbetween) _ _ h (hdropped.mono (List.subset_append_left _ _)) _ _ ?_
        exact fun log' σ' p h' hdropped' hp => comes_done ⟨_, rfl, hrest log' σ' p h' hdropped' hp⟩
      · generalize (σ k).view.hop id = x at hmem hdead
        have hdead₀ := (dead_congr hdropped.self).mp hdead
        have hother : x.id ≠ (σ k).view.successor.id := by
          rw [hi]
          exact (hdead.1 i).symm
        refine comes_refused hdead.lost fun e he => ?_
        obtain rfl := (hdead.2.2 e).mp he
        change Comes net k post _ (Program.bind (ite _ _ _) g) σ
        rw [if_neg hother]
        refine comes_store.mpr ?_
        -- One attempt is spent, and there is one dead position less in the table.
        refine ih _ (h.drop k x.id) ((hdropped.mono (List.subset_append_left _ _)).drop hdead₀
          (List.mem_append_right _ (List.mem_singleton_self _))) ?_
        rw [Function.update_self]
        exact hfew.erase hmem hdead₀

/-- With a hop for everybody ahead, the lookup finds the owner. -/
theorem finds_lookup (h : Weathered net σ) (hdropped : Dropped net σ₀ id log σ)
    (hhops : (ahead σ₀ k id).card ≤ ttl.toNat) : Finds net σ₀ k id d log (lookup id ttl) σ := by
  induction hcard : (ahead σ₀ k id).card using Nat.strong_induction_on generalizing σ k ttl d log with
  | h c ih =>
      intro g post hrest
      rw [Comes, proceed_lookup g (h.joined k)]
      refine finds_lookupFrom hhops (fun httl j hj log' σ' h' hdropped' => ?_) _ h hdropped
        ((h.few k).congr hdropped.self) g post hrest
      have hfewer := card_ahead_lt hj
      have hleft := hops_left httl
      exact ih _ (hcard ▸ hfewer) h' hdropped' (by omega) rfl

end Weathered

/-! ## What it comes to -/

variable [DecidableEq ι] [Fintype ι]

/--
On a ring whose members answer, with fingers that are members or refuse every connection, the latter at no more than
two positions in each table, a lookup with a hop for every other member comes to the owner from wherever it begins.
All that has changed by then is that members have dropped fingers which refused them on its behalf.
-/
theorem Weathered.lookup_survives_dead_fingers (h : Weathered net σ) (k : ι) (id : RingId)
    (hhops : Fintype.card ι - 1 ≤ ttl.toNat) :
    Strand.Comes (d := .own (.lookup id ttl)) net k
      (fun log σ' r => (∃ owner, Owns σ id owner ∧ r = .ok owner) ∧ Dropped net σ id log σ')
      [] σ (.run k (Activity.lookup id ttl)) := by
  refine .of_proceed ?_
  have hfinds := h.finds_lookup (d := .own (.lookup id ttl)) (.refl net σ id []) (Nat.le_trans (card_ahead_le σ k id) hhops)
  rw [← Program.bind_done (Activity.lookup id ttl)]
  refine hfinds .done _ fun log σ' p h' hdropped hp => Activity.comes_done ⟨⟨p, ?_, rfl⟩, hdropped⟩
  simpa only [Owns, hdropped.self] using hp

/-- Three members, each with fingers at two positions where nobody is any more. -/
def forsaken : Peer := ⟨2300, ⟨10, 0, 0, 8⟩, 7000⟩

/-- Two who are gone refuse all connections. -/
def raggedNet : Net (Fin 3) :=
  { Net.flawless Ring.trio with
    fails := fun target e => target ∈ [Ring.gone.address, forsaken.address] ∧ e = .network (.refused target) }

/-- The trio, with one more finger that is dead. -/
def raggedMembers (k : Fin 3) : Member := ⟨{}, .joined, (Ring.trioView k).setFinger 9 (some forsaken), []⟩

theorem dead_ragged (hp : p = Ring.gone ∨ p = forsaken) : Dead raggedNet raggedMembers p := by
  rcases hp with rfl | rfl
  · exact ⟨by decide, by decide, fun e => ⟨fun h => h.2, fun h => ⟨by decide, h⟩⟩⟩
  · exact ⟨by decide, by decide, fun e => ⟨fun h => h.2, fun h => ⟨by decide, h⟩⟩⟩

theorem fingers_ragged (k : Fin 3) (hp : some p ∈ (raggedMembers k).view.fingers.slots) :
    (∃ j, p = (raggedMembers j).self) ∨ p = Ring.gone ∨ p = forsaken := by
  have hslots : ∀ k, ∀ slot ∈ (raggedMembers k).view.fingers.slots, ∀ p ∈ slot,
      (∃ j, p = (raggedMembers j).self) ∨ p = Ring.gone ∨ p = forsaken := by decide
  exact hslots k _ hp p rfl

theorem weathered_ragged : Weathered raggedNet raggedMembers where
  joined := by decide
  distinct := by decide
  sound := fun k => (Ring.ring_trio.sound k).setFinger 9 (some forsaken)
  next := by
    unfold Next
    decide
  reached := by decide
  answered := fun k e he => by
    have haway : ∀ k, (raggedMembers k).self.address ∉ [Ring.gone.address, forsaken.address] := by decide
    exact haway k he.1
  fingers := fun k p hp => (fingers_ragged k hp).imp_right dead_ragged
  few := fun k => by
    refine ⟨{Ring.gone.id, forsaken.id}, by decide, fun p hp hdead => ?_⟩
    rcases fingers_ragged k hp with ⟨j, hj⟩ | rfl | rfl
    · exact absurd (congrArg Peer.id hj.symm) (hdead.1 j)
    · decide
    · decide

/-- The first member is refused at both positions, and is then told the owner by the second. -/
theorem Weathered.lookup_survives_dead_fingers_ragged : Weathered raggedNet raggedMembers ∧
    Fintype.card (Fin 3) - 1 ≤ (2 : UInt8).toNat ∧
    Strand.Comes (d := .own (.lookup 2500 2)) raggedNet 0
      (fun log σ' r => r = .ok (Ring.trio 2) ∧ Dropped raggedNet raggedMembers 2500 log σ')
      [] raggedMembers (.run 0 (Activity.lookup 2500 2)) := by
  have hhops : Fintype.card (Fin 3) - 1 ≤ (2 : UInt8).toNat := by simp
  refine ⟨weathered_ragged, hhops, (weathered_ragged.lookup_survives_dead_fingers 0 2500 hhops).mono ?_⟩
  rintro log σ' r ⟨⟨owner, howner, rfl⟩, hdropped⟩
  have hthird : Owns raggedMembers 2500 (Ring.trio 2) := by
    unfold Owns
    decide
  exact ⟨by rw [howner.unique weathered_ragged.distinct hthird], hdropped⟩

end ChordOverlay
