import ChordOverlay.Proofs.Evolution
import ChordOverlay.Proofs.Fixpoint
import ChordOverlay.Proofs.Settling
import Mathlib.Data.Fintype.Sets

/-!
# Recovery from many failures

Members of a true ring stop, but never so many in a row that a list has nobody left. Once all others have checked
their neighbours, each has its next survivor for its successor, and one round of stabilization makes the rest true.
-/

namespace ChordOverlay

namespace View

variable {v : View} {p q : Peer} {ps : List Peer}

theorem erase_of_mem (hq : q ∈ v.successors.peers) (hid : q.id ≠ p.id) : v.erase p =
    { v with
      successors := v.successors.erase p
      fingers := v.fingers.erase p.id
      predecessor := v.predecessor.filter fun q => q.id ≠ p.id } := by
  have hleft : (v.successors.erase p).isEmpty = false := by
    have hmem : q ∈ (v.successors.erase p).peers := List.mem_filter.mpr ⟨hq, by simpa using hid⟩
    rw [Successors.isEmpty, List.isEmpty_eq_false_iff]
    exact List.ne_nil_of_mem hmem
  simp only [erase, hleft]
  rfl

/-- The list is not refilled from the fingers as long as `q` is left in it. -/
theorem foldl_erase (hq : q ∈ v.successors.peers) (hids : ∀ p ∈ ps, q.id ≠ p.id) :
    (ps.foldl erase v).successors.peers = v.successors.peers.filter (fun q => ps.all fun p => q.id ≠ p.id) ∧
      (ps.foldl erase v).predecessor = v.predecessor.filter fun q => ps.all fun p => q.id ≠ p.id := by
  induction ps generalizing v with
  | nil =>
      refine ⟨(List.filter_eq_self.mpr fun _ _ => rfl).symm, ?_⟩
      cases hbefore : v.predecessor <;> exact hbefore
  | cons p ps ih =>
      have hid := hids p List.mem_cons_self
      have heq := erase_of_mem hq hid
      have hq' : q ∈ (v.erase p).successors.peers := by
        rw [heq]
        exact List.mem_filter.mpr ⟨hq, by simpa using hid⟩
      obtain ⟨hlist, hbefore⟩ := ih hq' fun p' hp' => hids p' (List.mem_cons_of_mem _ hp')
      rw [List.foldl_cons, hlist, hbefore, heq]
      simp only [Successors.erase, List.filter_filter, Option.filter_filter, List.all_cons, and_true]
      exact List.filter_congr fun q _ => Bool.and_comm _ _

theorem evolves_foldl_erase (ps : List Peer) (v : View) : v.Evolves (ps.foldl erase v) :=
  Operation.evolves_foldl (fun v p => .apply v (.erase p)) ps v

end View

/-- A true ring of which some have stopped: never `len` in a row, and two at least are left. -/
structure Burst {ι : Type} [Fintype ι] (live : ι → Prop) (net : Net {k // live k}) (len : Nat) (σ : ι → Member) :
    Prop where
  ring : Aligned len σ
  reached : ∀ k : {k // live k}, net.reach (σ k).self.address = some k
  answered : ∀ (k : {k // live k}) e, ¬ net.fails (σ k).self.address e
  seen : ∀ k : {k // live k}, net.source k = (σ k).self.ip
  silent : ∀ k, ¬ live k → Activity.Lost net (σ k).self.address
  spaced : ∀ js : List ι, js.IsChain (fun i j => Next σ i (σ j).self) → js.length = len → ∃ j ∈ js, live j
  several : ∃ j k, live j ∧ live k ∧ j ≠ k

namespace Burst

variable {ι : Type} [Fintype ι] {live : ι → Prop} {net : Net {k // live k}} {len : Nat} {σ : ι → Member}
  {τ : {k // live k} → Member} {j k : ι}

theorem alive_self (h : Burst live net len σ) : alive net (σ j).self = true ↔ live j := by
  unfold alive
  constructor
  · intro hsome
    refine by_contra fun hdead => ?_
    rw [(h.silent j hdead).1] at hsome
    cases hsome
  · intro hlive
    rw [h.reached ⟨j, hlive⟩]
    rfl

/-! ## The first survivor of a list -/

theorem exists_live (h : Burst live net len σ) {js : List ι} (hrow : Row σ k js)
    (hlength : js.length = min len (Fintype.card ι - 1)) : ∃ j ∈ js, live j := by
  have hids := h.ring.distinct
  by_cases hlen : len ≤ Fintype.card ι - 1
  · exact h.spaced js (List.isChain_cons.mp hrow).2 (by omega)
  · -- The list names everybody else.
    obtain ⟨j, hj, hjk⟩ : ∃ j, live j ∧ j ≠ k := by
      obtain ⟨i, j, hi, hj, hij⟩ := h.several
      by_cases hik : i = k
      · exact ⟨j, hj, fun hjk => hij (hik.trans hjk.symm)⟩
      · exact ⟨i, hi, hik⟩
    refine ⟨j, (hrow.mem_iff hids (by omega)).mpr ⟨hjk, ?_⟩, hj⟩
    have := gap_lt hids hjk
    omega

theorem exists_first (h : Burst live net len σ) (k : {k // live k}) : ∃ j : {k // live k},
    ((σ k).view.successors.peers.filter (alive net)).head? = some (σ j).self ∧
      Next (fun k : {k // live k} => σ k) k (σ j).self := by
  have hids := h.ring.distinct
  obtain ⟨js, hrow, hpeers⟩ := h.ring.list k
  have hlength := h.ring.length k
  rw [hpeers, List.length_map] at hlength
  obtain ⟨i, hi, hlive⟩ := h.exists_live hrow hlength
  have hsome : (js.find? (alive net ∘ fun j => (σ j).self)).isSome :=
    List.find?_isSome.mpr ⟨i, hi, h.alive_self.mpr hlive⟩
  obtain ⟨j, hj⟩ := Option.isSome_iff_exists.mp hsome
  obtain ⟨halive, n, hn, rfl, hdead⟩ := List.find?_eq_some_iff_getElem.mp hj
  obtain ⟨hgap, hne⟩ := hrow.gap_getElem hids (by omega) hn
  refine ⟨⟨js[n], h.alive_self.mp halive⟩, ?_, ⟨_, rfl⟩, fun hself => ?_, fun x hx => ?_⟩
  · rw [List.head?_filter, hpeers, List.find?_map, hj]
    rfl
  · exact absurd (hids _ _ (congrArg Peer.id hself)) hne
  · have hxk : (x : ι) ≠ k := fun heq => hx (Subtype.ext heq)
    -- Whoever has fewer before it stands earlier in the list, and all those are gone.
    have hle : gap σ k js[n] ≤ gap σ k x := by
      rw [hgap]
      refine Nat.le_of_not_lt fun hlt => ?_
      have hlt' : gap σ k x < js.length := Nat.lt_trans hlt hn
      obtain ⟨hgap', hne'⟩ := hrow.gap_getElem hids (by omega) hlt'
      have hx' := gap_inj hids hne' hxk hgap'
      have hnot := hdead _ hlt
      rw [Function.comp_apply, hx', h.alive_self.mpr x.2] at hnot
      cases hnot
    have hspan := span_le_of_gap_le hids hle
    rwa [span_of_ne hids hne, span_of_ne hids hxk] at hspan

/-! ## The checks -/

/-- The survivors among their checks: who has checked a neighbourhood has forgotten just those in it that are gone. -/
structure Checking (net : Net {k // live k}) (len : Nat) (σ : ι → Member) (τ : {k // live k} → Member) : Prop
    extends Society net len τ where
  self : ∀ k, (τ k).self = (σ k).self
  lists : ∀ k, (τ k).view.successors.peers = (σ k).view.successors.peers ∨
    (τ k).view.successors.peers = (σ k).view.successors.peers.filter (alive net)
  befores : ∀ k, (τ k).view.predecessor = (σ k).view.predecessor ∨
    (τ k).view.predecessor = (σ k).view.predecessor.filter (alive net)

/-- What a check is for. -/
def Checked (net : Net {k // live k}) (σ : ι → Member) (τ : {k // live k} → Member) : {k // live k} × Operation → Prop
  | (k, .checkPredecessor) => (τ k).view.predecessor = (σ k).view.predecessor.filter (alive net)
  | (k, .checkSuccessors) => (τ k).view.successors.peers = (σ k).view.successors.peers.filter (alive net)
  | _ => True

theorem familiar (h : Burst live net len σ) (j : ι) : Familiar net (fun k : {k // live k} => σ k) (σ j).self := by
  by_cases hj : live j
  · exact Or.inl ⟨⟨j, hj⟩, rfl⟩
  · exact Or.inr (h.silent j hj)

theorem checking (h : Burst live net len σ) : Checking net len σ fun k => σ k where
  distinct := fun j k hid => Subtype.ext (h.ring.distinct _ _ hid)
  joined := fun k => h.ring.joined k
  sound := fun k => h.ring.sound k
  bound := fun k => h.ring.bound k
  setting := fun k => h.ring.setting k
  reached := h.reached
  answered := h.answered
  seen := h.seen
  successors := fun k p hp => by
    obtain ⟨js, _, hpeers⟩ := h.ring.list k
    rw [hpeers] at hp
    obtain ⟨j, _, rfl⟩ := List.mem_map.mp hp
    exact h.familiar j
  before := fun k p hp => by
    obtain ⟨j, hj, _⟩ := h.ring.before k
    rw [hj] at hp
    cases hp
    exact h.familiar j
  self := fun _ => rfl
  lists := fun _ => Or.inl rfl
  befores := fun _ => Or.inl rfl

variable [DecidableEq ι] {k : {k // live k}}

omit [Fintype ι] in
/-- A survivor goes on with a view whose list and predecessor are as they were, or as a check leaves them. -/
theorem Checking.revise (h : Checking net len σ τ) {v : View} (hv : (τ k).view.Evolves v)
    (hlist : v.successors.peers = (τ k).view.successors.peers ∨
      v.successors.peers = (σ k).view.successors.peers.filter (alive net))
    (hbefore : v.predecessor = (τ k).view.predecessor ∨
      v.predecessor = (σ k).view.predecessor.filter (alive net)) : Checking net len σ (revise τ k v) where
  toSociety := by
    refine h.toSociety.revise hv (fun p hp => h.successors k p ?_) fun p hp => h.before k p ?_
    · rcases hlist with heq | heq <;> rw [heq] at hp
      · exact hp
      · rcases h.lists k with heq' | heq' <;> rw [heq']
        · exact (List.mem_filter.mp hp).1
        · exact hp
    · rcases hbefore with heq | heq <;> rw [heq] at hp
      · exact hp
      · rcases h.befores k with heq' | heq' <;> rw [heq']
        · exact (Option.filter_eq_some_iff.mp hp).1
        · exact hp
  self := fun j => (revise_self hv.self j).trans (h.self j)
  lists := fun j => by
    rcases revise_cases τ k v j with heq | ⟨rfl, heq⟩ <;> rw [heq]
    · exact h.lists j
    · rcases hlist with heq' | heq'
      · rw [heq']
        exact h.lists j
      · exact Or.inr heq'
  befores := fun j => by
    rcases revise_cases τ k v j with heq | ⟨rfl, heq⟩ <;> rw [heq]
    · exact h.befores j
    · rcases hbefore with heq' | heq'
      · rw [heq']
        exact h.befores j
      · exact Or.inr heq'

omit [Fintype ι] in
theorem Checked.revise {v : View} {task : {k // live k} × Operation} (h : Checked net σ τ task)
    (hlist : v.successors.peers = (τ k).view.successors.peers ∨
      v.successors.peers = (σ k).view.successors.peers.filter (alive net))
    (hbefore : v.predecessor = (τ k).view.predecessor ∨
      v.predecessor = (σ k).view.predecessor.filter (alive net)) : Checked net σ (ChordOverlay.revise τ k v) task := by
  obtain ⟨j, o⟩ := task
  have hcases := revise_cases τ k v j
  cases o with
  | checkPredecessor =>
      change (ChordOverlay.revise τ k v j).view.predecessor = _
      rcases hcases with heq | ⟨rfl, heq⟩ <;> rw [heq]
      · exact h
      · exact hbefore.elim (fun heq => heq.trans h) id
  | checkSuccessors =>
      change (ChordOverlay.revise τ k v j).view.successors.peers = _
      rcases hcases with heq | ⟨rfl, heq⟩ <;> rw [heq]
      · exact h
      · exact hlist.elim (fun heq => heq.trans h) id
  | _ => trivial

/-! ## One check -/

omit [DecidableEq ι] in
theorem exists_self (h : Burst live net len σ) (hτ : Checking net len σ τ) {p : Peer}
    (hp : p ∈ (τ k).view.successors.peers ∨ (τ k).view.predecessor = some p) : ∃ j, p = (σ j).self := by
  rcases hp with hp | hp
  · have hmem : p ∈ (σ k).view.successors.peers := by
      rcases hτ.lists k with heq | heq <;> rw [heq] at hp
      · exact hp
      · exact (List.mem_filter.mp hp).1
    obtain ⟨js, _, hpeers⟩ := h.ring.list k
    rw [hpeers] at hmem
    obtain ⟨j, _, rfl⟩ := List.mem_map.mp hmem
    exact ⟨j, rfl⟩
  · have hbefore : (σ k).view.predecessor = some p := by
      rcases hτ.befores k with heq | heq <;> rw [heq] at hp
      · exact hp
      · exact (Option.filter_eq_some_iff.mp hp).1
    obtain ⟨j, hj, _⟩ := h.ring.before k
    exact ⟨j, Option.some.inj (hbefore.symm.trans hj)⟩

omit [Fintype ι] [DecidableEq ι] in
theorem Checking.filter_list (h : Checking net len σ τ) (k : {k // live k}) :
    (τ k).view.successors.peers.filter (alive net) = (σ k).view.successors.peers.filter (alive net) := by
  rcases h.lists k with heq | heq <;> rw [heq]
  simp only [List.filter_filter, Bool.and_self]

omit [Fintype ι] [DecidableEq ι] in
theorem Checking.filter_before (h : Checking net len σ τ) (k : {k // live k}) :
    (τ k).view.predecessor.filter (alive net) = (σ k).view.predecessor.filter (alive net) := by
  rcases h.befores k with heq | heq <;> rw [heq]
  simp only [Option.filter_filter, Bool.and_self]

theorem checkedPredecessor_eq (h : Burst live net len σ) (hτ : Checking net len σ τ) (k : {k // live k}) :
    ∃ v, checkedPredecessor net τ k = ChordOverlay.revise τ k v ∧ (τ k).view.Evolves v ∧
      v.successors.peers = (τ k).view.successors.peers ∧
      v.predecessor = (σ k).view.predecessor.filter (alive net) := by
  rw [← hτ.filter_before k]
  unfold checkedPredecessor
  cases hp : (τ k).view.predecessor with
  | none => exact ⟨(τ k).view, (revise_view τ k).symm, .refl _, rfl, hp⟩
  | some p =>
      obtain ⟨j, rfl⟩ := h.exists_self hτ (Or.inr hp)
      simp only
      cases halive : alive net (σ j).self with
      | true =>
          rw [if_pos (Or.inr rfl)]
          exact ⟨(τ k).view, (revise_view τ k).symm, .refl _, rfl, hp.trans (if_pos halive).symm⟩
      | false =>
          have hself : (σ j).self.id ≠ (τ k).self.id := by
            rw [hτ.self k]
            intro hid
            rw [h.ring.distinct _ _ hid, h.alive_self.mpr k.2] at halive
            cases halive
          rw [if_neg (by simp [hself])]
          refine ⟨_, rfl, .apply _ (.clearPredecessorIf (σ j).self), ?_, ?_⟩
          · simp only [View.clearPredecessorIf, hp, if_pos]
          · simp only [View.clearPredecessorIf, hp, if_pos]
            exact (if_neg (by simp [halive])).symm

theorem checkedSuccessors_eq (h : Burst live net len σ) (hτ : Checking net len σ τ) (k : {k // live k}) :
    ∃ v, checkedSuccessors net τ k = ChordOverlay.revise τ k v ∧ (τ k).view.Evolves v ∧
      v.successors.peers = (σ k).view.successors.peers.filter (alive net) ∧
      (v.predecessor = (τ k).view.predecessor ∨ v.predecessor = (σ k).view.predecessor.filter (alive net)) := by
  rw [← hτ.filter_list k, ← hτ.filter_before k]
  obtain ⟨j, hj, _⟩ := h.exists_first k
  have hjmem : (σ j).self ∈ (τ k).view.successors.peers ∧ alive net (σ j).self = true := by
    refine List.mem_filter.mp (List.mem_of_mem_head? ?_)
    rw [hτ.filter_list k, hj]
    rfl
  -- Nobody who is left has the position of anybody who is gone.
  have hapart : ∀ i, alive net (σ i).self = true →
      ∀ p ∈ (τ k).view.successors.peers.filter fun p => !alive net p, (σ i).self.id ≠ p.id := by
    intro i hi p hp hid
    obtain ⟨hmem, hdead⟩ := List.mem_filter.mp hp
    obtain ⟨i', rfl⟩ := h.exists_self hτ (Or.inl hmem)
    rw [← h.ring.distinct _ _ hid, hi] at hdead
    cases hdead
  obtain ⟨hlist, hbefore⟩ := View.foldl_erase hjmem.1 (hapart j hjmem.2)
  refine ⟨_, rfl, View.evolves_foldl_erase _ _, ?_, ?_⟩
  · rw [hlist]
    refine List.filter_congr fun q hq => ?_
    obtain ⟨i, rfl⟩ := h.exists_self hτ (Or.inl hq)
    cases halive : alive net (σ i).self with
    | true => exact List.all_eq_true.mpr fun p hp => by simpa using hapart i halive p hp
    | false => exact List.all_eq_false.mpr ⟨_, List.mem_filter.mpr ⟨hq, by simp [halive]⟩, by simp⟩
  · rw [hbefore]
    cases hp : (τ k).view.predecessor with
    | none => exact Or.inl rfl
    | some p =>
        obtain ⟨i, rfl⟩ := h.exists_self hτ (Or.inr hp)
        cases hall : ((τ k).view.successors.peers.filter fun p => !alive net p).all fun q => (σ i).self.id ≠ q.id with
        | true => exact Or.inl (if_pos hall)
        | false =>
            refine Or.inr ((if_neg fun htrue => Bool.false_ne_true (hall.symm.trans htrue)).trans (if_neg ?_).symm)
            intro halive
            obtain ⟨q, hq, hid⟩ := List.all_eq_false.mp hall
            exact absurd (by simpa using hapart i halive q hq) hid

theorem ends_check (h : Burst live net len σ) (hτ : Checking net len σ τ) {task : {k // live k} × Operation}
    (htask : task.2 = .checkPredecessor ∨ task.2 = .checkSuccessors) :
    World.Ends net (fun τ' => Checking net len σ τ' ∧ Checked net σ τ' task ∧
      ∀ task', Checked net σ τ task' → Checked net σ τ' task') ⟨τ, [.ofOperation task.1 task.2 (τ task.1)]⟩ := by
  obtain ⟨k, o⟩ := task
  rcases htask with rfl | rfl
  · refine hτ.toSociety.ends_checkPredecessor ?_
    obtain ⟨v, heq, hv, hlist, hbefore⟩ := h.checkedPredecessor_eq hτ k
    rw [heq]
    refine ⟨hτ.revise hv (Or.inl hlist) (Or.inr hbefore), ?_, fun _ h => Checked.revise h (Or.inl hlist) (Or.inr hbefore)⟩
    change (ChordOverlay.revise τ k v k).view.predecessor = _
    rw [revise_at]
    exact hbefore
  · refine hτ.toSociety.ends_checkSuccessors ?_
    obtain ⟨v, heq, hv, hlist, hbefore⟩ := h.checkedSuccessors_eq hτ k
    rw [heq]
    refine ⟨hτ.revise hv (Or.inr hlist) hbefore, ?_, fun _ h => Checked.revise h (Or.inr hlist) hbefore⟩
    change (ChordOverlay.revise τ k v k).view.successors.peers = _
    rw [revise_at]
    exact hlist

/-! ## After the checks -/

omit [DecidableEq ι] in
theorem headed (h : Burst live net len σ) (hτ : Checking net len σ τ)
    (hchecked : ∀ k o, o = .checkPredecessor ∨ o = .checkSuccessors → Checked net σ τ (k, o)) : Headed net len τ where
  toSociety := hτ.toSociety
  next := fun k => by
    obtain ⟨j, hj, hnext⟩ := h.exists_first k
    have hlist : (τ k).view.successors.peers = _ := hchecked k .checkSuccessors (Or.inr rfl)
    rw [next_congr hτ.self, View.successor, Successors.nearest, hlist, hj]
    exact hnext
  none_wrong := fun k p hp => by
    have hbefore : (τ k).view.predecessor = _ := hchecked k .checkPredecessor (Or.inl rfl)
    rw [hbefore] at hp
    obtain ⟨hp, halive⟩ := Option.filter_eq_some_iff.mp hp
    obtain ⟨j, hj, hnext⟩ := h.ring.before k
    obtain rfl := Option.some.inj (hp.symm.trans hj)
    refine ⟨⟨j, h.alive_self.mp halive⟩, (hτ.self ⟨j, _⟩).symm, ?_⟩
    rw [next_congr hτ.self, hτ.self]
    exact hnext.restrict Subtype.val_injective
  founded := fun k honly => by
    obtain ⟨i, j, hi, hj, hij⟩ := h.several
    have := (honly ⟨i, hi⟩).trans (honly ⟨j, hj⟩).symm
    exact absurd (congrArg Subtype.val this) hij

/--
Any number of members stop at once. After checks of both sides by all others and then a round of stabilization by each,
in whatever order, the survivors are a true ring.
-/
theorem survivors_align [DecidablePred live] (h : Burst live net len σ) {checks : List ({k // live k} × Operation)}
    {ks : List {k // live k}}
    (honly : ∀ task ∈ checks, task.2 = .checkPredecessor ∨ task.2 = .checkSuccessors)
    (hchecks : ∀ k, (k, .checkPredecessor) ∈ checks ∧ (k, .checkSuccessors) ∈ checks) (hall : ∀ k, k ∈ ks) :
    InTurn net (fun τ => Aligned len τ ∧ ∀ k, (τ k).self = (σ k).self)
      (checks ++ ks.map fun k => (k, .stabilize)) fun k => σ k := by
  refine InTurn.append (InTurn.all (Checking net len σ) (Checked net σ)
    (fun task htask τ hτ => h.ends_check hτ (honly task htask)) h.checking fun τ hτ hgood _ => ?_)
  have hheaded := h.headed hτ fun k o ho => by
    rcases ho with rfl | rfl
    · exact hgood _ (hchecks k).1
    · exact hgood _ (hchecks k).2
  refine (hheaded.inTurn_aligned hall).mono fun τ' hτ' => ⟨hτ'.1, fun k => (hτ'.2 k).trans (hτ.self k)⟩

/-- Four members of whom the third has stopped. -/
def Left (k : Fin 4) : Prop := k.val ≠ 2

instance : DecidablePred Left := fun k => inferInstanceAs (Decidable (k.val ≠ 2))

/-- The three that are left reach each other, and the one that stopped refuses. -/
def leftNet : Net {k // Left k} where
  reach target := ((List.finRange 4).find? fun k => (Ideal.four k).address = target).bind fun k =>
    if h : Left k then some ⟨k, h⟩ else none
  source k := (Ideal.four k).ip
  fails target e := e = .network (.refused target) ∧ ∃ k, ¬ Left k ∧ target = (Ideal.four k).address

theorem burst_four : Burst Left leftNet 3 Settled.fourMembers where
  ring := Settled.settled_four.toAligned
  reached := by decide
  answered := fun k e hfails => by
    have hid : ∀ j k, Left k → ¬ Left j → (Settled.fourMembers k).self.address ≠ (Ideal.four j).address := by decide
    obtain ⟨_, j, hj, haddress⟩ := hfails
    exact hid j k k.2 hj haddress
  seen := by decide
  silent := fun k hk => by
    obtain rfl : k = 2 := Fin.ext (not_not.mp hk)
    exact ⟨rfl, _, rfl, 2, hk, rfl⟩
  spaced := by
    intro js hchain hlength
    match js, hlength with
    | [i, j, _], _ =>
        by_cases hi : Left i
        · exact ⟨i, by simp, hi⟩
        · obtain rfl : i = 2 := Fin.ext (not_not.mp hi)
          refine ⟨j, by simp, fun hj => ?_⟩
          obtain rfl : j = 2 := Fin.ext hj
          have hself := (List.isChain_cons_cons.mp hchain).1.2.1 rfl 0
          cases hself
  several := ⟨0, 1, by decide, by decide, by decide⟩

/-- Those who are left, the last first. -/
def left : List {k // Left k} :=
  (List.finRange 4).reverse.filterMap fun k => if h : Left k then some ⟨k, h⟩ else none

/-- The other three check their neighbours and stabilize, last to first. -/
theorem survivors_align_four : Burst Left leftNet 3 Settled.fourMembers ∧
    InTurn leftNet (fun τ => Aligned 3 τ ∧ ∀ k, (τ k).self = (Settled.fourMembers k).self)
      (left.flatMap (fun k => [(k, .checkSuccessors), (k, .checkPredecessor)]) ++ left.map fun k => (k, .stabilize))
      fun k => Settled.fourMembers k := by
  have hall : ∀ k, k ∈ left := by decide
  refine ⟨burst_four, burst_four.survivors_align (fun task htask => ?_) (fun k => ⟨?_, ?_⟩) hall⟩
  · obtain ⟨k, _, hk⟩ := List.mem_flatMap.mp htask
    rcases List.mem_pair.mp hk with rfl | rfl
    · exact Or.inr rfl
    · exact Or.inl rfl
  · exact List.mem_flatMap.mpr ⟨k, hall k, List.mem_pair.mpr (Or.inr rfl)⟩
  · exact List.mem_flatMap.mpr ⟨k, hall k, List.mem_pair.mpr (Or.inl rfl)⟩

end Burst

end ChordOverlay
