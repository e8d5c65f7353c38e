import ChordOverlay.Proofs.Overlay

/-!
# The course of an activity that nothing disturbs

Where no request fails, what a strand does next is settled. So it can be computed, and whatever one course of it
leads to, every course leads to.
-/

namespace ChordOverlay

variable {ι : Type} [DecidableEq ι] {net : Net ι} {d : Duty} {σ σ' : ι → Member}

namespace Strand

/-- The next step of a strand, if there is any that needs no failure. -/
def advance (net : Net ι) (σ : ι → Member) : {d : Duty} → Strand ι d → Option (Event ι × (ι → Member) × Strand ι d)
  | _, .run _ (.done _) => none
  | _, .run host (.ask (.query target q) next) =>
      (net.reach target).map fun k =>
        (.sent q, σ, .wait host target q next (.run k (Activity.answer (net.source host) q.request)))
  | _, .run host rest =>
      some (.quiet, Function.update σ host (rest.proceed (σ host)).2, .run host (rest.proceed (σ host)).1)
  | _, .wait host _ q next (.run _ (.done report)) =>
      some (.quiet, σ, .run host (next (report.elim (.error .closedEarly) q.read)))
  | _, .wait host target q next callee =>
      (advance net σ callee).map fun after => (after.1, after.2.1, .wait host target q next after.2.2)

theorem Step.advance_eq (hnet : ∀ target e, ¬ net.fails target e) {t t' : Strand ι d} {event : Event ι}
    (h : Step net σ t event σ' t') : t.advance net σ = some (event, σ', t') := by
  induction h with
  | @go d σ host rest busy =>
      cases rest with
      | done r => cases busy
      | ask op next =>
          cases op with
          | look => rfl
          | store m => rfl
          | query target q => cases busy
  | @call d σ host k target q next reached =>
      change (net.reach target).map _ = _
      rw [reached]
      rfl
  | refuse fault => exact absurd fault (hnet _ _)
  | reply => rfl
  | close => rfl
  | abandon fault => exact absurd fault (hnet _ _)
  | @serve d σ σ' host target q next callee callee' event inner ih =>
      cases callee with
      | wait =>
          rw [advance, ih, Option.map_some]
          nofun
      | run k rest =>
          cases rest with
          | done report => cases ih
          | ask op next =>
              rw [advance, ih, Option.map_some]
              nofun

/-- What is computed is a step, and one that leaves nobody behind. -/
theorem step_of_advance {t t' : Strand ι d} {event : Event ι} (h : t.advance net σ = some (event, σ', t')) :
    Step net σ t event σ' t' ∧ event.strays = [] := by
  induction t generalizing σ' event with
  | run host rest =>
      cases rest with
      | done r => cases h
      | ask op next =>
          cases op with
          | look =>
              cases h
              exact ⟨.go rfl, rfl⟩
          | store m =>
              cases h
              exact ⟨.go rfl, rfl⟩
          | query target q =>
              obtain ⟨k, hk, heq⟩ := Option.map_eq_some_iff.mp h
              cases heq
              exact ⟨.call hk, rfl⟩
  | wait host target q next callee ih =>
      cases callee with
      | wait =>
          obtain ⟨after, hafter, heq⟩ := Option.map_eq_some_iff.mp h
          cases heq
          exact ⟨.serve (ih hafter).1, (ih hafter).2⟩
      | run k rest =>
          cases rest with
          | done report =>
              cases h
              cases report with
              | none => exact ⟨.close, rfl⟩
              | some report => exact ⟨.reply, rfl⟩
          | ask op next =>
              obtain ⟨after, hafter, heq⟩ := Option.map_eq_some_iff.mp h
              cases heq
              exact ⟨.serve (ih hafter).1, (ih hafter).2⟩

/-- The strand after `n` steps, or fewer if it cannot go on. -/
def drive (net : Net ι) : Nat → (ι → Member) → Strand ι d → (ι → Member) × Strand ι d
  | 0, σ, t => (σ, t)
  | n + 1, σ, t =>
    match t.advance net σ with
    | some (_, σ', t') => drive net n σ' t'
    | none => (σ, t)

end Strand

/-! ## Courses -/

/-- How many requests a step sends. -/
def Event.requests : Event ι → Nat
  | .sent _ => 1
  | _ => 0

/-- A strand goes on for some steps, and `n` requests are sent on the way, by itself or on its behalf. -/
inductive Strand.Course (net : Net ι) {d : Duty} : Nat → (ι → Member) → Strand ι d → (ι → Member) → Strand ι d → Prop
  | refl (σ : ι → Member) (t : Strand ι d) : Course net 0 σ t σ t
  | step {n : Nat} {σ σ' σ'' : ι → Member} {t t' t'' : Strand ι d} {event : Event ι}
      (first : Step net σ t event σ' t') (rest : Course net n σ' t' σ'' t'') :
      Course net (event.requests + n) σ t σ'' t''

namespace Strand

variable {σ'' : ι → Member} {t t' t'' : Strand ι d} {m n : Nat}

theorem Course.trans (h : Course net n σ t σ' t') (h' : Course net m σ' t' σ'' t'') : Course net (n + m) σ t σ'' t'' := by
  induction h with
  | refl => rwa [Nat.zero_add]
  | step first _ ih =>
      rw [Nat.add_assoc]
      exact .step first (ih h')

theorem Course.serve {host : ι} {target : Address} {q : Query} {next : Except Failure q.Answer → Activity d.Result}
    {callee callee' : Strand ι (.serve q)} (h : Course net n σ callee σ' callee') :
    Course net n σ (.wait host target q next callee) σ' (.wait host target q next callee') := by
  induction h with
  | refl => exact .refl _ _
  | step first _ ih => exact .step (.serve first) ih

/-- Without failures, a course that has come to an end is the only one there is: every other is its beginning. -/
theorem Course.extends (hnet : ∀ target e, ¬ net.fails target e) {host : ι} {r : d.Result}
    (h : Course net n σ t σ' (.run host (.done r))) (h' : Course net m σ t σ'' t'') :
    ∃ rest, m + rest = n ∧ Course net rest σ'' t'' σ' (.run host (.done r)) := by
  induction h' generalizing n with
  | refl => exact ⟨n, Nat.zero_add n, h⟩
  | step first _ ih =>
      cases h with
      | refl => cases first.advance_eq hnet
      | step first' rest' =>
          have heq := (first.advance_eq hnet).symm.trans (first'.advance_eq hnet)
          cases heq
          obtain ⟨left, hleft, hcourse⟩ := ih rest'
          exact ⟨left, by omega, hcourse⟩

end Strand

/-! ## A member busy by itself -/

namespace World

variable {may : ι → Operation → Prop} {given : (ι → Member) → Prop}

theorem Run.drive (host : ι) (finish : List d.Result → View → View) (n : Nat) (σ : ι → Member) (t : Strand ι d)
    (hgiven : ∀ i ≤ n, given (t.drive net i σ).1) :
    Run net may given ⟨σ, [⟨host, d, [t], finish⟩]⟩ ⟨(t.drive net n σ).1, [⟨host, d, [(t.drive net n σ).2], finish⟩]⟩ := by
  induction n generalizing σ t with
  | zero => exact .refl
  | succ n ih =>
      cases hadvance : t.advance net σ with
      | none =>
          rw [Strand.drive, hadvance]
          exact .refl
      | some after =>
          obtain ⟨event, σ', t'⟩ := after
          have hdrive : ∀ i, t.drive net (i + 1) σ = t'.drive net i σ' := fun i => by rw [Strand.drive, hadvance]
          have hgiven' : ∀ i ≤ n, given (t'.drive net i σ').1 := fun i hi => by
            rw [← hdrive]
            exact hgiven (i + 1) (Nat.succ_le_succ hi)
          obtain ⟨hadvanced, hstrays⟩ := Strand.step_of_advance hadvance
          have hstep : Step net may ⟨σ, [] ++ ⟨host, d, [] ++ t :: [], finish⟩ :: []⟩
              ⟨σ', [] ++ ⟨host, d, [] ++ t' :: [], finish⟩ :: ([] ++ event.strays)⟩ := .work hadvanced
          rw [hstrays] at hstep
          rw [hdrive]
          exact .head ⟨hstep, hgiven' 0 (Nat.zero_le n)⟩ (ih σ' t' hgiven')

/-- An operation of one member, with nobody else busy, for as long as it goes on. -/
theorem Run.begin (host : ι) (o : Operation) (n : Nat) {a : Activity o.Result} (hmay : may host o)
    (hsolo : o.gathering (σ host) = .solo a)
    (hgiven : ∀ i ≤ n, given ((Strand.run host a : Strand ι (.own o)).drive net i σ).1) :
    Run net may given (idle σ) ⟨((Strand.run host a : Strand ι (.own o)).drive net n σ).1,
      [⟨host, .own o, [((Strand.run host a : Strand ι (.own o)).drive net n σ).2], fun _ view => view⟩]⟩ := by
  have hfront : Front.ofOperation host o (σ host) = ⟨host, .own o, [.run host a], fun _ view => view⟩ := by
    rw [Front.ofOperation, hsolo]
    rfl
  have hstart : Run net may given (idle σ) ⟨σ, [⟨host, .own o, [.run host a], fun _ view => view⟩]⟩ := by
    rw [← hfront]
    exact .single ⟨.start hmay, hgiven 0 (Nat.zero_le n)⟩
  exact Relation.ReflTransGen.trans hstart (Run.drive host _ n σ _ hgiven)

theorem Run.alone (host : ι) (o : Operation) (n : Nat) {a : Activity o.Result} (hmay : may host o)
    (hsolo : o.gathering (σ host) = .solo a) {k : ι} {r : o.Result}
    (hdone : ((Strand.run host a : Strand ι (.own o)).drive net n σ).2 = .run k (.done r))
    (hgiven : ∀ i ≤ n, given ((Strand.run host a : Strand ι (.own o)).drive net i σ).1) :
    Run net may given (idle σ) (idle ((Strand.run host a : Strand ι (.own o)).drive net n σ).1) := by
  have hwork := Run.begin host o n hmay hsolo hgiven
  rw [hdone] at hwork
  refine hwork.tail ⟨?_, hgiven n (Nat.le_refl n)⟩
  generalize ((Strand.run host a : Strand ι (.own o)).drive net n σ).1 = σ'
  have hstay : Function.update σ' host (σ' host) = σ' := Function.update_eq_self _ _
  have hfinish : Step net may
      ⟨σ', [] ++ ⟨host, .own o, [(k, r)].map fun result => .run result.1 (.done result.2), fun _ view => view⟩ :: []⟩
      ⟨Function.update σ' host (σ' host), [] ++ []⟩ := .finish
  rw [hstay] at hfinish
  exact hfinish

end World

/-- A network that carries every request to the member at its address. -/
def Net.flawless {n : Nat} (self : Fin n → Peer) : Net (Fin n) where
  reach target := (List.finRange n).find? fun k => (self k).address = target
  source k := (self k).ip
  fails _ _ := False

end ChordOverlay
