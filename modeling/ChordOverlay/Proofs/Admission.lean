import ChordOverlay.Proofs.Approach
import ChordOverlay.Proofs.Fixpoint
import ChordOverlay.Proofs.Passage
import Mathlib.Data.Fintype.Option

/-!
# Joining a true ring

A newcomer is placed right before the owner of its position. Until then nobody but the owner has changed, and one round
of stabilization of the member before the newcomer makes the larger ring true.
-/

namespace ChordOverlay

variable {ι : Type} {σ : ι → Member} {p : Peer}

/-- Everybody knows the member after it and the one before it; whoever is alone is both to itself. -/
def Exact (σ : ι → Member) : Prop :=
  ∀ k, Next σ k (σ k).view.successor ∧ ∃ j, (σ k).view.predecessor = some (σ j).self ∧ Next σ j (σ k).self

/-- Where all successors are true and known to be, so are all predecessors. -/
theorem exact_of_near [Fintype ι] (hids : Distinct σ) (hnear : ∀ k, Near σ 0 k) (hmet : ∀ k, Met σ k) :
    Exact σ := by
  refine fun k => ⟨?_, ?_⟩
  · obtain ⟨i, hi, hgap⟩ := hnear k
    rw [hi]
    exact (gap_eq_zero hids).mp (Nat.le_zero.mp hgap)
  · obtain ⟨j, hj⟩ := exists_previous hids k
    exact ⟨j, hmet j k hj, hj⟩

/-! ## One member more -/

section Newcomer

variable {σ : Option ι → Member} {i k o : ι}

/-- Without the one in between, the member after it is the next one. -/
theorem Next.skip (hids : Distinct σ) (hbefore : Next σ (some i) (σ none).self)
    (hafter : Next σ none (σ (some o)).self) : Next (fun k => σ (some k)) i (σ (some o)).self := by
  have hpos : 0 < (σ (some i)).self.id.distance (σ none).self.id :=
    RingId.distance_pos.mpr fun hid => nomatch hids _ _ hid
  have hway : ∀ k, k ≠ i → 0 < (σ (some i)).self.id.distance (σ (some o)).self.id ∧
      (σ (some i)).self.id.distance (σ (some o)).self.id ≤ (σ (some i)).self.id.distance (σ (some k)).self.id := by
    intro k hk
    have hfirst := hbefore.2.2 (some k) (by simpa using hk)
    have hthen := hafter.2.2 (some k) nofun
    have hsplit := RingId.distance_add hfirst
    have hlt := RingId.distance_lt (σ (some i)).self.id (σ (some k)).self.id
    have hsum := RingId.distance_add_of_lt (a := (σ (some i)).self.id) (b := (σ none).self.id)
      (c := (σ (some o)).self.id) (by omega)
    omega
  refine ⟨⟨o, rfl⟩, fun heq k => by_contra fun hk => ?_, fun k hk => (hway k hk).2⟩
  have hzero := RingId.distance_eq_zero.mpr (congrArg Peer.id heq.symm)
  exact Nat.ne_of_gt (hway k hk).1 hzero

/-- Whoever is not right before the newcomer keeps the member after it. -/
theorem Next.among [Fintype ι] (hids : Distinct σ) (hbefore : Next σ (some i) (σ none).self) (hki : k ≠ i)
    (h : Next (fun k => σ (some k)) k p) : Next σ (some k) p := by
  obtain ⟨⟨s, rfl⟩, halone, hnearest⟩ := h
  have hsk : s ≠ k := by
    rintro rfl
    exact hki (halone rfl i).symm
  refine ⟨⟨some s, rfl⟩, fun heq => ?_, fun j hj => ?_⟩
  · exact absurd (halone heq i).symm hki
  · cases j with
    | some j => exact hnearest j (by simpa using hj)
    | none =>
        refine Nat.le_of_not_lt fun hlt => hki ?_
        -- Otherwise the newcomer would be next to `k`.
        have hnext : Next σ (some k) (σ none).self := by
          refine ⟨⟨none, rfl⟩, fun heq => ?_, fun j hj => ?_⟩
          · exact nomatch hids _ _ (congrArg Peer.id heq)
          · cases j with
            | none => exact Nat.le_refl _
            | some j => exact Nat.le_trans (Nat.le_of_lt hlt) (hnearest j (by simpa using hj))
        exact Option.some.inj (hnext.previous_unique hids hbefore)

end Newcomer

/-- A true ring at the hosts `some k`, and at `none` a newcomer that is in no ring yet. -/
structure Doorstep (net : Net (Option ι)) (σ : Option ι → Member) (newcomer : Peer) (settings : Settings) : Prop
    extends Seated net σ some where
  exact : Exact fun k => σ (some k)
  fresh : σ none = .fresh newcomer settings
  welcome : net.reach newcomer.address = some none
  undisturbed : ∀ e, ¬ net.fails newcomer.address e
  seen : ∀ k, net.source k = (σ k).self.ip

namespace Doorstep

open Activity

variable {net : Net (Option ι)} {σ σ' : Option ι → Member} {newcomer : Peer} {settings : Settings} {o : ι}

section Facts

theorem self_none (h : Doorstep net σ newcomer settings) : (σ none).self = newcomer := by
  rw [h.fresh]
  rfl

variable (hfree : ∀ k, (σ (some k)).self.id ≠ newcomer.id)
include hfree

theorem distinct_all (h : Doorstep net σ newcomer settings) : Distinct σ := by
  rintro (_ | j) (_ | k) hid
  · rfl
  · rw [h.self_none] at hid
    exact absurd hid.symm (hfree k)
  · rw [h.self_none] at hid
    exact absurd hid (hfree j)
  · exact congrArg some (h.distinct j k hid)

theorem next_owner (h : Doorstep net σ newcomer settings)
    (howns : Owns (fun k => σ (some k)) newcomer.id (σ (some o)).self) : Next σ none (σ (some o)).self := by
  refine ⟨⟨some o, rfl⟩, fun heq => ?_, fun j hj => ?_⟩
  · rw [h.self_none] at heq
    exact absurd (congrArg Peer.id heq) (hfree o)
  · cases j with
    | none => exact absurd rfl hj
    | some j =>
        rw [h.self_none]
        exact howns.2 j

end Facts

/-! ## The newcomer at work -/

/-- The newcomer while it waits for its successor. -/
def waiting (newcomer : Peer) (settings : Settings) : Member :=
  { Member.fresh newcomer settings with phase := .joining }

/-- The newcomer that has adopted its successor. -/
def entered (newcomer : Peer) (settings : Settings) (owner : Peer) : Member :=
  ⟨settings, .joined, ((View.fresh newcomer settings.successorListLength).join owner).1, Round.all⟩

theorem entered_successor {p : Peer} (hid : p.id ≠ newcomer.id) :
    (entered newcomer settings p).view.successor = p := by
  have hsound : (Successors.empty newcomer settings.successorListLength).Sound := (View.Sound.fresh newcomer _).list
  obtain ⟨hsome, _⟩ := hsound.nearest_insert hid (Or.inl rfl)
  have hlist : (entered newcomer settings p).view.successors =
      ((Successors.empty newcomer settings.successorListLength).insert p).1 := by
    change ((View.fresh newcomer _).join p).1.successors = _
    rw [View.join, if_neg (show p.id ≠ (View.fresh newcomer _).self.id from hid)]
    rfl
  rw [View.successor, hlist]
  rcases Successors.mem_insert (Successors.nearest_mem hsome) with heq | hmem
  · exact heq
  · cases hmem

theorem entered_predecessor (newcomer : Peer) (settings : Settings) (p : Peer) :
    (entered newcomer settings p).view.predecessor = none := by
  change ((View.fresh newcomer _).join p).1.predecessor = none
  unfold View.join
  split <;> rfl

variable [DecidableEq ι]

/-- After the newcomer has been let in before `o`. -/
def admitted (σ : Option ι → Member) (newcomer : Peer) (settings : Settings) (o : ι) : Option ι → Member :=
  Function.update (revise σ (some o) ((σ (some o)).view.notify newcomer).1) none
    (entered newcomer settings (σ (some o)).self)

theorem answered_notice (h : Doorstep net σ newcomer settings) (o : ι) {m : Member} :
    ∃ r, Answered net (Function.update σ none m) none (σ (some o)).self.address (.notify newcomer.id newcomer.port)
      (revise (Function.update σ none m) (some o) ((σ (some o)).view.notify newcomer).1) r := by
  have hat : Function.update σ none m (some o) = σ (some o) := Function.update_of_ne (Option.some_ne_none o) _ _
  have hsource : net.source none = newcomer.ip := by rw [h.seen, h.self_none]
  refine ⟨_, some o, .noticeReport ((σ (some o)).view.notify newcomer).2, _, h.reached o, h.answered o, ?_, rfl, rfl⟩
  rw [hat, hsource]
  change proceed (ite _ _ _) (σ (some o)) = _
  rw [if_pos (h.joined o)]
  rfl

/-- The newcomer asks the bootstrap for the owner of its position, and goes back or goes on with the owner. -/
theorem ends_join [Fintype ι] (h : Doorstep net σ newcomer settings)
    (hhops : Fintype.card ι - 1 ≤ settings.maxHops.toNat) (b : ι) :
    ∃ o, Owns (fun k => σ (some k)) newcomer.id (σ (some o)).self ∧
      Strand.Ends (d := .own (.join (σ (some b)).self.address)) net none
        (fun σ' r => if (σ (some o)).self.id = newcomer.id then σ' = σ ∧ r = .error (.duplicateId newcomer.id)
          else σ' = admitted σ newcomer settings o ∧ r = .ok (σ (some o)).self)
        σ (.run none (Activity.join (σ (some b)).self.address)) := by
  have hsame : ∀ k, Function.update σ none (waiting newcomer settings) (some k) = σ (some k) :=
    fun k => Function.update_of_ne (Option.some_ne_none k) _ _
  obtain ⟨n, p, howns, hcallee⟩ := (h.toSeated.congr hsame).rests_lookup (k := b)
    (d := .serve (.owner newcomer.id settings.maxHops)) (Nat.le_trans (card_ahead_le _ _ _) hhops) Ideal.report
  rw [← Ideal.answer_owner (net.source none)] at hcallee
  simp only [hsame] at howns
  obtain ⟨o, rfl⟩ := howns.1
  refine ⟨o, howns, .of_proceed ?_⟩
  rw [h.fresh]
  change Strand.Ends (d := .own (.join (σ (some b)).self.address)) net none _
    (Function.update σ none (waiting newcomer settings))
    (.run none (.ask (.query (σ (some b)).self.address (.owner newcomer.id settings.maxHops)) _))
  refine .send (h.reached b) (h.answered b) (.wait_of_rests (h.answered b) hcallee (Strand.ends_of_alone ?_))
  refine Alone.bind ?_
  change Alone net none _ (ite ((σ (some o)).self.id = newcomer.id) _ _) _
  by_cases htaken : (σ (some o)).self.id = newcomer.id
  · -- Nothing has been stored but the phase, and that is taken back.
    rw [if_pos htaken]
    refine alone_look.mpr ?_
    rw [Function.update_self]
    refine alone_store.mpr ?_
    simp only [if_pos htaken]
    refine ⟨?_, rfl⟩
    rw [Function.update_idem]
    have hback : { waiting newcomer settings with phase := .created } = σ none := h.fresh.symm
    rw [hback, Function.update_eq_self]
  · -- The notice reaches the owner, whatever it makes of it.
    rw [if_neg htaken]
    refine alone_look.mpr ?_
    rw [Function.update_self]
    have hjoin : (waiting newcomer settings).view.join (σ (some o)).self =
        ((entered newcomer settings (σ (some o)).self).view, .contact (σ (some o)).self (.notify newcomer)) :=
      Prod.ext rfl (View.join_decision htaken)
    rw [hjoin]
    refine alone_store.mpr ?_
    rw [Function.update_idem]
    obtain ⟨r, hr⟩ := h.answered_notice o
    refine alone_query.mpr (Or.inl ⟨_, r, hr, alone_look.mpr ?_⟩)
    rw [revise_of_ne (Option.some_ne_none o).symm, Function.update_self]
    refine alone_store.mpr ?_
    simp only [if_neg htaken]
    refine ⟨?_, rfl⟩
    rw [revise, Function.update_of_ne (Option.some_ne_none o), Function.update_comm (Option.some_ne_none o).symm,
      Function.update_idem]
    rfl

/-! ## The ring with the newcomer -/

/-- The newcomer has been let in before `o`, and nobody else has noticed. -/
structure Admitted (σ σ' : Option ι → Member) (newcomer : Peer) (o : ι) : Prop where
  self : (σ' none).self = newcomer
  joined : (σ' none).phase = .joined
  sound : (σ' none).view.Sound
  successor : (σ' none).view.successor = (σ (some o)).self
  unknown : (σ' none).view.predecessor = none
  owner : σ' (some o) = { σ (some o) with view.predecessor := some newcomer }
  others : ∀ k, k ≠ o → σ' (some k) = σ (some k)

theorem admitted_spec [Fintype ι] (h : Doorstep net σ newcomer settings)
    (hfree : ∀ k, (σ (some k)).self.id ≠ newcomer.id)
    (howns : Owns (fun k => σ (some k)) newcomer.id (σ (some o)).self) :
    Admitted σ (admitted σ newcomer settings o) newcomer o where
  self := View.join_self _ _
  joined := rfl
  sound := (View.Sound.fresh newcomer _).join _
  successor := entered_successor (hfree o)
  unknown := entered_predecessor newcomer settings _
  owner := by
    have hmember : ∀ p, (σ (some o)).view.predecessor = some p → ∃ i, p = (σ i).self := by
      obtain ⟨_, j, hj, _⟩ := h.exact o
      intro p hp
      exact ⟨some j, Option.some.inj (hp.symm.trans hj)⟩
    have hnotify := (h.next_owner hfree howns).notify_eq (h.distinct_all hfree) (Option.some_ne_none o) hmember
    rw [h.self_none] at hnotify
    rw [admitted, Function.update_of_ne (Option.some_ne_none o), revise_at, hnotify]
  others := fun k hk => by
    rw [admitted, Function.update_of_ne (Option.some_ne_none k), revise_of_ne (fun heq => hk (Option.some.inj heq))]

namespace Admitted

section Around

omit [DecidableEq ι]

/-- All that is new to a member of the ring is the predecessor of `o`. -/
theorem eq_or (ha : Admitted σ σ' newcomer o) (k : ι) :
    σ' (some k) = σ (some k) ∨ k = o ∧ σ' (some k) = { σ (some k) with view.predecessor := some newcomer } := by
  by_cases hk : k = o
  · subst hk
    exact Or.inr ⟨rfl, ha.owner⟩
  · exact Or.inl (ha.others k hk)

theorem successor_some (ha : Admitted σ σ' newcomer o) (k : ι) :
    (σ' (some k)).view.successor = (σ (some k)).view.successor := by
  rcases ha.eq_or k with heq | ⟨_, heq⟩ <;> simp only [heq, View.successor]

variable (h : Doorstep net σ newcomer settings)
include h

theorem self_eq (ha : Admitted σ σ' newcomer o) : ∀ k, (σ' k).self = (σ k).self
  | none => ha.self.trans h.self_none.symm
  | some k => by rcases ha.eq_or k with heq | ⟨_, heq⟩ <;> simp only [heq, Member.self]

variable (hfree : ∀ k, (σ (some k)).self.id ≠ newcomer.id)
include hfree

theorem circle (ha : Admitted σ σ' newcomer o) : Circle net σ' := by
  have hself := ha.self_eq h
  constructor
  case distinct =>
    intro j k
    rw [hself, hself]
    exact h.distinct_all hfree j k
  case joined =>
    rintro (_ | k)
    · exact ha.joined
    · rcases ha.eq_or k with heq | ⟨_, heq⟩ <;> rw [heq] <;> exact h.joined k
  case sound =>
    rintro (_ | k)
    · exact ha.sound
    · obtain ⟨list, list_owner, table, table_owner, before⟩ := h.sound k
      rcases ha.eq_or k with heq | ⟨rfl, heq⟩ <;> rw [heq]
      · exact h.sound k
      · refine ⟨list, list_owner, table, table_owner, ?_⟩
        rintro p ⟨⟩
        exact Or.inr (hfree k).symm
  case reached =>
    rintro (_ | k) <;> rw [hself]
    · rw [h.self_none]
      exact h.welcome
    · exact h.reached k
  case answered =>
    rintro (_ | k) <;> rw [hself]
    · rw [h.self_none]
      exact h.undisturbed
    · exact h.answered k
  case seen =>
    intro k
    rw [hself]
    exact h.seen k
  case successor =>
    rintro (_ | k)
    · exact ⟨some o, by rw [ha.successor, hself]⟩
    · obtain ⟨j, hj⟩ := (h.exact k).1.1
      exact ⟨some j, by rw [ha.successor_some, hself, hj]⟩
  case before =>
    rintro (_ | k) p hp
    · rw [ha.unknown] at hp
      cases hp
    · rcases ha.eq_or k with heq | ⟨rfl, heq⟩ <;> rw [heq] at hp
      · obtain ⟨_, j, hj, _⟩ := h.exact k
        exact ⟨some j, by rw [hself]; exact Option.some.inj (hp.symm.trans hj)⟩
      · cases hp
        exact ⟨none, ha.self.symm⟩

variable [Fintype ι] (hafter : Next σ none (σ (some o)).self) {i : ι} (hbefore : Next σ (some i) (σ none).self)
include hafter hbefore

/-- Everybody but the member right before the newcomer has its true successor. -/
theorem near_of_ne (ha : Admitted σ σ' newcomer o) {k : Option ι} (hk : k ≠ some i) : Near σ' 0 k := by
  have hself := ha.self_eq h
  have hids := h.distinct_all hfree
  have hnext : Next σ k (σ' k).view.successor := by
    cases k with
    | none =>
        rw [ha.successor]
        exact hafter
    | some k =>
        rw [ha.successor_some]
        exact Next.among hids hbefore (fun heq => hk (congrArg some heq)) (h.exact k).1
  obtain ⟨j, hj⟩ := hnext.1
  refine ⟨j, by rw [hj, hself], ?_⟩
  rw [gap_congr hself]
  exact Nat.le_of_eq ((gap_eq_zero hids).mpr (hj ▸ hnext))

theorem met_of_ne (ha : Admitted σ σ' newcomer o) {k : Option ι} (hk : k ≠ some i) : Met σ' k := by
  have hself := ha.self_eq h
  have hids := h.distinct_all hfree
  intro m hm
  rw [next_congr hself, hself] at hm
  rw [hself]
  cases k with
  | none =>
      obtain rfl := hm.unique hids hafter
      rw [ha.owner, h.self_none]
  | some k =>
      cases m with
      | none => exact absurd (hm.previous_unique hids hbefore) hk
      | some m =>
          have hmo : m ≠ o := by
            rintro rfl
            exact Option.some_ne_none k (hm.previous_unique hids hafter)
          obtain ⟨_, j, hj, hjm⟩ := h.exact m
          have hkm := hm.restrict (Option.some_injective ι)
          rw [ha.others m hmo, hj, hjm.previous_unique h.distinct hkm]

end Around

/-- One round of the member before the newcomer makes it known there, and the larger ring is true. -/
theorem ends_stabilize [Fintype ι] (ha : Admitted σ σ' newcomer o) (h : Doorstep net σ newcomer settings)
    (hfree : ∀ k, (σ (some k)).self.id ≠ newcomer.id) (hafter : Next σ none (σ (some o)).self) {i : ι}
    (hbefore : Next σ (some i) (σ none).self) :
    World.Ends net (fun σ'' => Exact σ'' ∧ ∀ k, (σ'' k).self = (σ' k).self)
      ⟨σ', [.ofOperation (some i) .stabilize (σ' (some i))]⟩ := by
  have hself := ha.self_eq h
  have hids := h.distinct_all hfree
  have hcircle := ha.circle h hfree
  have hsuccessor : (σ' (some i)).view.successor = (σ' (some o)).self := by
    have hold := (h.exact i).1
    obtain ⟨s, hs⟩ := hold.1
    rw [hs] at hold
    rw [ha.successor_some, hself, hs, hold.unique h.distinct (Next.skip hids hbefore hafter)]
  have hseen : none ∈ between σ' (some i) (some o) := by
    refine Next.mem_between hcircle.distinct (Option.some_ne_none i).symm ?_
    rwa [next_congr hself, hself]
  have hreported : (σ' (some o)).view.predecessor = some (σ' none).self := by rw [ha.owner, ha.self]
  have hgap : gap σ' (some i) none = 0 := by rwa [gap_congr hself, gap_eq_zero hids]
  obtain ⟨n, hnear, _, hcloser, hmet⟩ :=
    near_stabilized hcircle (fun honly => absurd (honly none) (Option.some_ne_none i).symm) hsuccessor
  obtain rfl : n = 0 := Nat.le_zero.mp (hgap ▸ hcloser none hseen hreported)
  have hself' := stabilized_self net σ' (some i)
  refine hcircle.company.ends_stabilize ⟨exact_of_near (fun j k => ?_) (fun k => ?_) fun k => ?_, hself'⟩
  · rw [hself', hself']
    exact hcircle.distinct j k
  · by_cases hk : k = some i
    · exact hk ▸ hnear
    · exact (ha.near_of_ne h hfree hafter hbefore hk).stabilized hcircle _
  · by_cases hk : k = some i
    · exact hk ▸ hmet rfl
    · exact (ha.met_of_ne h hfree hafter hbefore hk).stabilized hcircle _

end Admitted

/--
Whoever asks to join a true ring is turned away if its position is taken, and the ring is as before. Otherwise it is
placed right before the owner of its position, and one round of the member before it makes the larger ring true.
-/
theorem newcomer_is_placed [Fintype ι] (h : Doorstep net σ newcomer settings)
    (hhops : Fintype.card ι - 1 ≤ settings.maxHops.toNat) (b : ι) :
    ((∃ k, (σ (some k)).self.id = newcomer.id) →
      Strand.Ends (d := .own (.join (σ (some b)).self.address)) net none
        (fun σ' r => r = .error (.duplicateId newcomer.id) ∧ (σ' none).phase = .created ∧ σ' = σ)
        σ (.run none (Activity.join (σ (some b)).self.address))) ∧
    ((∀ k, (σ (some k)).self.id ≠ newcomer.id) →
      ∃ o, Owns (fun k => σ (some k)) newcomer.id (σ (some o)).self ∧
        Strand.Ends (d := .own (.join (σ (some b)).self.address)) net none
          (fun σ' r => r = .ok (σ (some o)).self ∧ Admitted σ σ' newcomer o ∧
            ∃ i, Next σ' (some i) newcomer ∧
              World.Ends net (fun σ'' => Exact σ'' ∧ ∀ k, (σ'' k).self = (σ' k).self)
                ⟨σ', [.ofOperation (some i) .stabilize (σ' (some i))]⟩)
          σ (.run none (Activity.join (σ (some b)).self.address))) := by
  obtain ⟨o, howns, hends⟩ := h.ends_join hhops b
  constructor
  · rintro ⟨k, hk⟩
    have hid : (σ (some o)).self.id = newcomer.id := by rw [howns.eq_self h.distinct hk, hk]
    simp only [if_pos hid] at hends
    refine hends.mono ?_
    rintro σ' r ⟨rfl, rfl⟩
    exact ⟨rfl, by rw [h.fresh]; rfl, rfl⟩
  · intro hfree
    refine ⟨o, howns, ?_⟩
    simp only [if_neg (hfree o)] at hends
    refine hends.mono ?_
    rintro σ' r ⟨rfl, rfl⟩
    have ha := h.admitted_spec hfree howns
    have hids := h.distinct_all hfree
    have hafter := h.next_owner hfree howns
    obtain ⟨i, hbefore⟩ := exists_previous hids none
    cases i with
    | none => exact absurd (hbefore.2.1 rfl (some o)) (Option.some_ne_none o)
    | some i =>
        refine ⟨rfl, ha, i, ?_, ha.ends_stabilize h hfree hafter hbefore⟩
        rw [next_congr (ha.self_eq h), ← h.self_none]
        exact hbefore

/-- Somebody who comes late, at a position of choice. -/
def late (id : RingId) : Peer := ⟨id, ⟨10, 0, 0, 9⟩, 7000⟩

/-- A true ring of four, and somebody who is in no ring yet. -/
def lateMembers (id : RingId) : Option (Fin 4) → Member
  | none => .fresh (late id) {}
  | some k => Settled.fourMembers k

/-- Everybody is reached where it listens, and nothing fails. -/
def lateNet : Net (Option (Fin 4)) where
  reach target :=
    if target = (late 0).address then some none
    else ((List.finRange 4).find? fun k => (Ideal.four k).address = target).map some
  source k := (k.elim (late 0) Ideal.four).ip
  fails _ _ := False

theorem doorstep_four (id : RingId) : Doorstep lateNet (lateMembers id) (late id) {} where
  toRing := Settled.settled_four.toRing
  fingers := by
    have hslots : ∀ k, ∀ slot ∈ (Settled.fourMembers k).view.fingers.slots,
        slot = none ∨ ∃ j, slot = some (Settled.fourMembers j).self := by decide
    intro k p hp
    rcases hslots k _ hp with hnone | ⟨j, hj⟩
    · cases hnone
    · exact ⟨j, Option.some.inj hj⟩
  reached := by
    have hreached : ∀ k, lateNet.reach (Settled.fourMembers k).self.address = some (some k) := by decide
    exact hreached
  answered := fun _ _ => not_false
  exact := fun k => ⟨Settled.settled_four.next k, Settled.settled_four.before k⟩
  fresh := rfl
  welcome := rfl
  undisturbed := fun _ => not_false
  seen := by
    have hseen : ∀ k, lateNet.source (some k) = (Settled.fourMembers k).self.ip := by decide
    rintro (_ | k)
    · rfl
    · exact hseen k

/-- The third member sits at 1500 already; position 5000 belongs to the first one, past zero. -/
theorem newcomer_is_placed_four : (∀ id, Doorstep lateNet (lateMembers id) (late id) {}) ∧
    Strand.Ends (d := .own (.join (Ideal.four 1).address)) lateNet none
      (fun σ' r => r = .error (.duplicateId 1500) ∧ (σ' none).phase = .created ∧ σ' = lateMembers 1500)
      (lateMembers 1500) (.run none (Activity.join (Ideal.four 1).address)) ∧
    Strand.Ends (d := .own (.join (Ideal.four 1).address)) lateNet none
      (fun σ' r => r = .ok (Ideal.four 0) ∧ Admitted (lateMembers 5000) σ' (late 5000) 0 ∧
        ∃ i, Next σ' (some i) (late 5000) ∧
          World.Ends lateNet (fun σ'' => Exact σ'' ∧ ∀ k, (σ'' k).self = (σ' k).self)
            ⟨σ', [.ofOperation (some i) .stabilize (σ' (some i))]⟩)
      (lateMembers 5000) (.run none (Activity.join (Ideal.four 1).address)) := by
  have htaken := (newcomer_is_placed (doorstep_four 1500) (by decide) 1).1 ⟨2, rfl⟩
  obtain ⟨o, howns, hplaced⟩ := (newcomer_is_placed (doorstep_four 5000) (by decide) 1).2 (by decide)
  obtain rfl : o = 0 := by
    have hfirst : Owns Settled.fourMembers 5000 (Ideal.four 0) := by
      unfold Owns
      decide
    exact Settled.settled_four.distinct _ _ (congrArg Peer.id (howns.unique Settled.settled_four.distinct hfirst))
  exact ⟨doorstep_four, htaken, hplaced⟩

end Doorstep

end ChordOverlay
