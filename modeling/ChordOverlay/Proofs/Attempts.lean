import ChordOverlay.Proofs.Evolution

/-!
# The attempts of one lookup

A lookup asks one peer after another, each time by what its member knows by then. A peer that failed is not asked
again, unless some other operation of the member has put its position back while a later peer was being asked.
-/

namespace ChordOverlay

/-- A request of an activity: what the member knew when it was sent, and what it knew when the answer was there. -/
structure Exchange where
  before : View
  target : Address
  query : Query
  after : View

/-- While the answer was awaited, the member came to offer the position `x` that it did not offer before. -/
def Exchange.Restores (e : Exchange) (x : RingId) : Prop := ¬ e.before.Offers x ∧ e.after.Offers x

namespace Activity

variable {α : Type} {a b : Activity α} {m n : Member} {es : List Exchange} {e : Exchange} {id x : RingId} {ttl : UInt8}

/-- The activity, begun at `m`, makes these requests one after another, while others work on the member as well. -/
inductive Makes : Activity α → Member → List Exchange → Prop
  | nil (a : Activity α) (m : Member) : Makes a m []
  | cons {a : Activity α} {m m' n : Member} {target : Address} {q : Query}
      {next : Except Failure q.Answer → Activity α} {r : Except Failure q.Answer} {es : List Exchange}
      (asks : a.proceed m = (.ask (.query target q) next, m')) (others : m'.view.Evolves n.view)
      (rest : Makes (next r) n es) : Makes a m (⟨m'.view, target, q, n.view⟩ :: es)

theorem Makes.congr (h : Makes a m es) (heq : b.proceed n = a.proceed m) : Makes b n es := by
  cases h with
  | nil => exact .nil b n
  | cons asks others rest => exact .cons (heq.trans asks) others rest

theorem Makes.not_done {r : α} (h : a.Makes m (e :: es)) : a.proceed m ≠ (.done r, n) := by
  intro hdone
  cases h with
  | cons asks others rest =>
      rw [hdone] at asks
      cases asks

/-- What a lookup does once it has somebody to ask, up to its next request. -/
theorem proceed_lookupFrom_contact {p : Peer} (n : Nat) (last : Failure)
    (hcontact : m.view.findSuccessor id = .contact p (.findSuccessor id)) (httl : ttl ≠ 0) :
    ∃ next, proceed (lookupFrom id ttl (n + 1) last) m = (.ask (.query p.address (.owner id (ttl - 1))) next, m) ∧
      (∀ answer later, ∃ r, proceed (next (.ok answer)) later = (.done r, later)) ∧
      ∀ f later, proceed (next (.error f)) later =
        if p.id = later.view.successor.id then (.done (.error f), later)
        else if f = .timedOut then (.done (.error f), { later with view := later.view.apply (.eraseFinger p.id) })
        else proceed (lookupFrom id ttl n f) { later with view := later.view.apply (.eraseFinger p.id) } := by
  rw [lookupFrom, proceed_look, hcontact]
  simp only [if_neg httl]
  refine ⟨_, rfl, fun answer later => ?_, fun f later => ?_⟩
  · cases answer with
    | none => exact ⟨_, rfl⟩
    | some p => exact ⟨_, rfl⟩
  · change proceed (look >>= fun later => ite _ _ _) later = _
    rw [proceed_look]
    split
    · rfl
    · rw [proceed_store]
      split <;> rfl

/-- The first request of a lookup, and how the lookup goes on after it, if at all. -/
theorem makes_lookupFrom {n : Nat} {last : Failure} (hm : m.view.Sound)
    (h : (lookupFrom id ttl (n + 1) last).Makes m (e :: es)) :
    (id ≠ m.view.self.id ∧ ttl ≠ 0 ∧ RingId.Between m.view.self.id (m.view.hop id).id id) ∧
      (e.before = m.view ∧ e.target = (m.view.hop id).address ∧ e.query = .owner id (ttl - 1)) ∧
      m.view.Evolves e.after ∧
      (es = [] ∨ (m.view.hop id).id ≠ e.after.successor.id ∧ ∃ m' last',
        m'.view = e.after.apply (.eraseFinger (m.view.hop id).id) ∧ (lookupFrom id ttl n last').Makes m' es) := by
  cases h with
  | @cons _ _ _ later target q next r _ asks others rest =>
      cases hdecision : m.view.findSuccessor id with
      | nothing =>
          rw [lookupFrom, proceed_look, hdecision] at asks
          cases asks
      | found p =>
          rw [lookupFrom, proceed_look, hdecision] at asks
          cases asks
      | contact p errand =>
          obtain rfl := View.findSuccessor_errand hdecision
          obtain ⟨hid, rfl, _, hbetween⟩ := hm.of_contact hdecision
          by_cases httl : ttl = 0
          · rw [lookupFrom, proceed_look, hdecision] at asks
            simp only [if_pos httl] at asks
            cases asks
          obtain ⟨next, hasks, hdone, hfailed⟩ := proceed_lookupFrom_contact n last hdecision httl
          rw [hasks] at asks
          cases asks
          refine ⟨⟨hid, httl, hbetween⟩, ⟨rfl, rfl, rfl⟩, others, ?_⟩
          cases es with
          | nil => exact Or.inl rfl
          | cons e' es =>
              cases r with
              | ok answer =>
                  obtain ⟨r, hr⟩ := hdone answer later
                  exact absurd hr rest.not_done
              | error f =>
                  have hproceed := hfailed f later
                  by_cases hsuccessor : (m.view.hop id).id = later.view.successor.id
                  · rw [if_pos hsuccessor] at hproceed
                    exact absurd hproceed rest.not_done
                  rw [if_neg hsuccessor] at hproceed
                  by_cases htime : f = .timedOut
                  · rw [if_pos htime] at hproceed
                    exact absurd hproceed rest.not_done
                  · rw [if_neg htime] at hproceed
                    exact Or.inr ⟨hsuccessor, _, f, rfl, rest.congr hproceed.symm⟩

/-- A peer that fails, but not by its silence, is dropped, and the lookup goes on. -/
theorem makes_after_failure {p : Peer} {k : Nat} {last f : Failure}
    (hcontact : m.view.findSuccessor id = .contact p (.findSuccessor id)) (httl : ttl ≠ 0)
    (hothers : m.view.Evolves n.view) (hsuccessor : p.id ≠ n.view.successor.id) (htime : f ≠ .timedOut)
    (hrest : (lookupFrom id ttl k f).Makes { n with view := n.view.apply (.eraseFinger p.id) } es) :
    (lookupFrom id ttl (k + 1) last).Makes m (⟨m.view, p.address, .owner id (ttl - 1), n.view⟩ :: es) := by
  obtain ⟨next, hasks, _, hfailed⟩ := proceed_lookupFrom_contact k last hcontact httl
  have hproceed := hfailed f n
  rw [if_neg hsuccessor, if_neg htime] at hproceed
  exact .cons hasks hothers (hrest.congr hproceed)

/-- What the requests of one lookup amount to, at most `n` of them. -/
structure Attempts (here id : RingId) (ttl : UInt8) (n : Nat) (es : List Exchange) : Prop where
  bounded : es.length ≤ n
  onward : ∀ e ∈ es, e.target = (e.before.hop id).address ∧ RingId.Between here (e.before.hop id).id id ∧
    ttl ≠ 0 ∧ e.query = .owner id (ttl - 1)
  again : ∀ {i j : Nat} {e e' : Exchange}, i < j → es[i]? = some e → es[j]? = some e' →
    (e'.before.hop id).id = (e.before.hop id).id →
    ∃ l restoring, i < l ∧ l < j ∧ es[l]? = some restoring ∧ restoring.Restores (e.before.hop id).id

theorem Attempts.nil (here id : RingId) (ttl : UInt8) (n : Nat) : Attempts here id ttl n [] where
  bounded := Nat.zero_le n
  onward := fun e he => by cases he
  again := fun _ hi => by cases hi

/-- A position that is not offered has to be restored before it is asked. -/
theorem exists_restores {n : Nat} {last : Failure} {j : Nat} {e' : Exchange} (hm : m.view.Sound)
    (h : (lookupFrom id ttl n last).Makes m es) (hx : ¬ m.view.Offers x) (hj : es[j]? = some e')
    (hhop : (e'.before.hop id).id = x) : ∃ l restoring, l < j ∧ es[l]? = some restoring ∧ restoring.Restores x := by
  induction n generalizing m es last j with
  | zero =>
      cases es with
      | nil => cases hj
      | cons e es => exact absurd rfl h.not_done
  | succ n ih =>
      cases es with
      | nil => cases hj
      | cons e es =>
          obtain ⟨⟨hid, _, _⟩, ⟨hbefore, _, _⟩, hafter, hrest⟩ := makes_lookupFrom hm h
          cases j with
          | zero =>
              cases hj
              rw [hbefore] at hhop
              exact absurd (hhop ▸ hm.offers_hop hid) hx
          | succ j =>
              by_cases hback : e.after.Offers x
              · exact ⟨0, e, Nat.succ_pos j, rfl, hbefore ▸ hx, hback⟩
              rcases hrest with rfl | ⟨_, m', last', hm', hnext⟩
              · cases hj
              have hgone : ¬ m'.view.Offers x := fun hoffers => hback (View.offers_of_eraseFinger (hm' ▸ hoffers))
              obtain ⟨l, restoring, hl, hget, hrestores⟩ :=
                ih (hm' ▸ (hafter.sound hm).apply _) hnext hgone hj
              exact ⟨l + 1, restoring, Nat.succ_lt_succ hl, hget, hrestores⟩

theorem Attempts.cons {here : RingId} {n : Nat}
    (hhead : e.target = (e.before.hop id).address ∧ RingId.Between here (e.before.hop id).id id ∧ ttl ≠ 0 ∧
      e.query = .owner id (ttl - 1))
    (hrest : Attempts here id ttl n es)
    (hagain : ∀ {j : Nat} {e' : Exchange}, es[j]? = some e' → (e'.before.hop id).id = (e.before.hop id).id →
      ∃ l restoring, l < j ∧ es[l]? = some restoring ∧ restoring.Restores (e.before.hop id).id) :
    Attempts here id ttl (n + 1) (e :: es) where
  bounded := Nat.succ_le_succ hrest.bounded
  onward := fun e' he' => by
    rcases List.mem_cons.mp he' with rfl | he'
    · exact hhead
    · exact hrest.onward e' he'
  again := fun {i j} _ _ hij hi hj hhop => by
    cases j with
    | zero => exact absurd hij (Nat.not_lt_zero i)
    | succ j =>
        cases i with
        | zero =>
            cases hi
            obtain ⟨l, restoring, hl, hget, hrestores⟩ := hagain hj hhop
            exact ⟨l + 1, restoring, Nat.succ_pos l, Nat.succ_lt_succ hl, hget, hrestores⟩
        | succ i =>
            obtain ⟨l, restoring, hil, hlj, hget, hrestores⟩ := hrest.again (Nat.lt_of_succ_lt_succ hij) hi hj hhop
            exact ⟨l + 1, restoring, Nat.succ_lt_succ hil, Nat.succ_lt_succ hlj, hget, hrestores⟩

theorem attempts_lookupFrom {n : Nat} {last : Failure} (hm : m.view.Sound)
    (h : (lookupFrom id ttl n last).Makes m es) : Attempts m.self.id id ttl n es := by
  induction n generalizing m es last with
  | zero =>
      cases es with
      | nil => exact .nil _ _ _ _
      | cons e es => exact absurd rfl h.not_done
  | succ n ih =>
      cases es with
      | nil => exact .nil _ _ _ _
      | cons e es =>
          obtain ⟨⟨hid, httl, hbetween⟩, ⟨hbefore, htarget, hquery⟩, hafter, hrest⟩ := makes_lookupFrom hm h
          have hhead : e.target = (e.before.hop id).address ∧ RingId.Between m.self.id (e.before.hop id).id id ∧
              ttl ≠ 0 ∧ e.query = .owner id (ttl - 1) := by
            rw [hbefore]
            exact ⟨htarget, hbetween, httl, hquery⟩
          rcases hrest with rfl | ⟨hsuccessor, m', last', hm', hnext⟩
          · exact .cons hhead (.nil _ _ _ _) fun hj => by cases hj
          -- What has failed is neither a finger any more nor the successor, so only others can bring it back.
          have hsound : m'.view.Sound := hm' ▸ (hafter.sound hm).apply _
          have hgone : ¬ m'.view.Offers (e.before.hop id).id := by
            rw [hm', hbefore]
            exact View.not_offers_eraseFinger hsuccessor
          have hself : m'.self = m.self := by
            rw [Member.self, hm', View.apply_self, hafter.self]
            rfl
          exact .cons hhead (hself ▸ ih hsound hnext) (exists_restores hsound hnext hgone)

theorem attempts_lookup (hm : m.view.Sound) (h : (lookup id ttl).Makes m es) :
    Attempts m.self.id id ttl lookupAttempts es := by
  by_cases hjoined : m.phase = .joined
  · exact attempts_lookupFrom hm (h.congr (by rw [lookup, proceed_look, if_pos hjoined]))
  · cases es with
    | nil => exact .nil _ _ _ _
    | cons e es => exact absurd (by rw [lookup, proceed_look, if_neg hjoined]; rfl) (h.not_done (n := m))

end Activity

end ChordOverlay
