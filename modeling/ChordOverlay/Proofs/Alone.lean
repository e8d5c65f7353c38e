import ChordOverlay.Proofs.Overlay

/-!
# One operation at a time

An operation that begins while nobody else is at work, and how it comes to an end: whatever the network leaves open
on the way, it goes on, and it ends in a state of the kind that is claimed.
-/

namespace ChordOverlay

variable {ι : Type} {net : Net ι} {σ σ' : ι → Member} {d : Duty} {host : ι} {α β : Type}

/-! ## Activities -/

namespace Activity

/-- Whom the request reaches answers it in one stretch, and the request does not fail. -/
def Answered [DecidableEq ι] (net : Net ι) (σ : ι → Member) (host : ι) (target : Address) (q : Query)
    (σ' : ι → Member) (r : Except Failure q.Answer) : Prop :=
  ∃ k report m, net.reach target = some k ∧ (∀ e, ¬ net.fails target e) ∧
    (answer (net.source host) q.request).proceed (σ k) = (.done (some report), m) ∧
    σ' = Function.update σ k m ∧ r = q.read report

/-- Nobody is reached, and all that can happen to the request is that it fails. -/
def Lost (net : Net ι) (target : Address) : Prop := net.reach target = none ∧ ∃ e, net.fails target e

/-- With nobody else at work the activity comes to an end, in a state and with a result that satisfy `post`. -/
def Alone [DecidableEq ι] (net : Net ι) (host : ι) (post : (ι → Member) → α → Prop) : Activity α → (ι → Member) → Prop
  | .done a, σ => post σ a
  | .ask .look next, σ => Alone net host post (next (σ host)) σ
  | .ask (.store m) next, σ => Alone net host post (next ()) (Function.update σ host m)
  | .ask (.query target q) next, σ =>
      (∃ σ' r, Answered net σ host target q σ' r ∧ Alone net host post (next r) σ') ∨
        Lost net target ∧ ∀ e, net.fails target e → Alone net host post (next (.error e)) σ

variable [DecidableEq ι]

theorem Alone.mono {post post' : (ι → Member) → α → Prop} {a : Activity α} (h : a.Alone net host post σ)
    (hpost : ∀ σ x, post σ x → post' σ x) : a.Alone net host post' σ := by
  induction a generalizing σ with
  | done x => exact hpost σ x h
  | ask op next ih =>
      cases op with
      | look => exact ih _ h
      | store m => exact ih _ h
      | query target q =>
          rcases h with ⟨σ', r, hanswered, hnext⟩ | ⟨hlost, hnext⟩
          · exact Or.inl ⟨σ', r, hanswered, ih r hnext⟩
          · exact Or.inr ⟨hlost, fun e he => ih _ (hnext e he)⟩

theorem Alone.bind {post : (ι → Member) → β → Prop} {a : Activity α} {f : α → Activity β}
    (h : a.Alone net host (fun σ x => (f x).Alone net host post σ) σ) : Alone net host post (a.bind f) σ := by
  induction a generalizing σ with
  | done x => exact h
  | ask op next ih =>
      cases op with
      | look => exact ih _ h
      | store m => exact ih _ h
      | query target q =>
          rcases h with ⟨σ', r, hanswered, hnext⟩ | ⟨hlost, hnext⟩
          · exact Or.inl ⟨σ', r, hanswered, ih r hnext⟩
          · exact Or.inr ⟨hlost, fun e he => ih _ (hnext e he)⟩

theorem proceed_of_waits {a : Activity α} {m : Member} (h : a.waits = true) : a.proceed m = (a, m) := by
  cases a with
  | done x => rfl
  | ask op next =>
      cases op with
      | look => cases h
      | store m' => cases h
      | query target q => rfl

theorem alone_look {post : (ι → Member) → β → Prop} {f : Member → Activity β} :
    (look >>= f).Alone net host post σ ↔ (f (σ host)).Alone net host post σ := Iff.rfl

theorem alone_store {post : (ι → Member) → β → Prop} {m : Member} {f : Unit → Activity β} :
    (store m >>= f).Alone net host post σ ↔ (f ()).Alone net host post (Function.update σ host m) := Iff.rfl

theorem alone_query {post : (ι → Member) → β → Prop} {target : Address} {q : Query}
    {f : Except Failure q.Answer → Activity β} : (query target q >>= f).Alone net host post σ ↔
      (∃ σ' r, Answered net σ host target q σ' r ∧ (f r).Alone net host post σ') ∨
        Lost net target ∧ ∀ e, net.fails target e → (f (.error e)).Alone net host post σ := Iff.rfl

end Activity

/-! ## Strands -/

variable [DecidableEq ι]

/-- The strand can go on, and whatever it does, it leaves nothing behind and comes to where `on` holds. -/
structure Strand.Goes (net : Net ι) (σ : ι → Member) (t : Strand ι d) (on : (ι → Member) → Strand ι d → Prop) : Prop where
  goes : ∃ event σ' t', Strand.Step net σ t event σ' t'
  all : ∀ {event σ' t'}, Strand.Step net σ t event σ' t' → event.strays = [] ∧ on σ' t'

namespace Strand

variable {on : (ι → Member) → Strand ι d → Prop} {target : Address} {q : Query}
  {next : Except Failure q.Answer → Activity d.Result} {k : ι}

theorem not_step_done {r : d.Result} {event : Event ι} {t : Strand ι d} :
    ¬ Strand.Step net σ (.run host (.done r)) event σ' t := by
  intro hstep
  cases hstep with
  | go busy => cases busy

theorem goes_busy {a : Activity d.Result} (hbusy : a.waits = false)
    (h : on (Function.update σ host (a.proceed (σ host)).2) (.run host (a.proceed (σ host)).1)) :
    Goes net σ (.run host a) on := by
  refine ⟨⟨_, _, _, .go hbusy⟩, fun hstep => ?_⟩
  cases hstep with
  | go busy => exact ⟨rfl, h⟩
  | call reached => cases hbusy
  | refuse fault => cases hbusy

/-- A question that reaches somebody is worked on there. -/
theorem goes_call (hreach : net.reach target = some k) (hnofail : ∀ e, ¬ net.fails target e)
    (h : on σ (.wait host target q next (.run k (Activity.answer (net.source host) q.request)))) :
    Goes net σ (.run host (.ask (.query target q) next)) on := by
  refine ⟨⟨_, _, _, .call hreach⟩, fun hstep => ?_⟩
  cases hstep with
  | go busy => cases busy
  | refuse fault => exact absurd fault (hnofail _)
  | call reached =>
      obtain rfl := Option.some.inj (hreach.symm.trans reached)
      exact ⟨rfl, h⟩

theorem goes_refuse (hlost : Activity.Lost net target)
    (h : ∀ e, net.fails target e → on σ (.run host (next (.error e)))) :
    Goes net σ (.run host (.ask (.query target q) next)) on := by
  obtain ⟨hreach, e, he⟩ := hlost
  refine ⟨⟨_, _, _, .refuse he⟩, fun hstep => ?_⟩
  cases hstep with
  | go busy => cases busy
  | refuse fault => exact ⟨rfl, h _ fault⟩
  | call reached => cases hreach.symm.trans reached

theorem goes_reply {report : Message} (hnofail : ∀ e, ¬ net.fails target e)
    (h : on σ (.run host (next (q.read report)))) :
    Goes net σ (.wait host target q next (.run k (.done (some report)))) on := by
  refine ⟨⟨_, _, _, .reply⟩, fun hstep => ?_⟩
  cases hstep with
  | reply => exact ⟨rfl, h⟩
  | abandon fault => exact absurd fault (hnofail _)
  | serve inner => exact absurd inner not_step_done

/-- As long as whoever is asked can go on, that is all that happens. -/
theorem goes_serve {callee : Strand ι (.serve q)} (hnofail : ∀ e, ¬ net.fails target e)
    (h : callee.Goes net σ fun σ' callee' => on σ' (.wait host target q next callee')) :
    Goes net σ (.wait host target q next callee) on := by
  obtain ⟨⟨event, σ', callee', hgoes⟩, hall⟩ := h
  refine ⟨⟨_, _, _, .serve hgoes⟩, fun hstep => ?_⟩
  cases hstep with
  | reply => exact absurd hgoes not_step_done
  | close => exact absurd hgoes not_step_done
  | abandon fault => exact absurd fault (hnofail _)
  | serve inner => exact hall inner

end Strand

/-- The strand goes on until its activity has ended, and leaves nothing behind on the way. -/
inductive Strand.Ends (net : Net ι) (host : ι) (post : (ι → Member) → d.Result → Prop) : (ι → Member) → Strand ι d → Prop
  | done {σ : ι → Member} {r : d.Result} (result : post σ r) : Ends net host post σ (.run host (.done r))
  | step {σ : ι → Member} {t : Strand ι d} (goes : ∃ event σ' t', Strand.Step net σ t event σ' t')
      (quiet : ∀ {event σ' t'}, Strand.Step net σ t event σ' t' → event.strays = [])
      (on : ∀ {event σ' t'}, Strand.Step net σ t event σ' t' → Ends net host post σ' t') : Ends net host post σ t

namespace Strand

variable {post : (ι → Member) → d.Result → Prop} {target : Address} {q : Query}
  {next : Except Failure q.Answer → Activity d.Result} {k : ι}

theorem Ends.mono {post' : (ι → Member) → d.Result → Prop} {t : Strand ι d} (h : Ends net host post σ t)
    (hpost : ∀ σ r, post σ r → post' σ r) : Ends net host post' σ t := by
  induction h with
  | done result => exact .done (hpost _ _ result)
  | step goes quiet on ih => exact .step goes quiet fun hstep => ih hstep

theorem Ends.of_goes {t : Strand ι d} (h : t.Goes net σ (Ends net host post)) : Ends net host post σ t :=
  .step h.goes (fun hstep => (h.all hstep).1) fun hstep => (h.all hstep).2

theorem Ends.reply {report : Message} (hnofail : ∀ e, ¬ net.fails target e)
    (h : Ends net host post σ (.run host (next (q.read report)))) :
    Ends net host post σ (.wait host target q next (.run k (.done (some report)))) :=
  .of_goes (goes_reply hnofail h)

/-- Whoever is asked answers at once, or after one stretch. -/
theorem Ends.serve {report : Message} {a : Activity (Option Message)} {m : Member} (hnofail : ∀ e, ¬ net.fails target e)
    (hproceed : a.proceed (σ k) = (.done (some report), m))
    (h : Ends net host post (Function.update σ k m) (.run host (next (q.read report)))) :
    Ends net host post σ (.wait host target q next (.run k a)) := by
  cases hbusy : a.waits with
  | true =>
      rw [Activity.proceed_of_waits hbusy] at hproceed
      cases hproceed
      rw [Function.update_eq_self] at h
      exact h.reply hnofail
  | false =>
      refine .of_goes (goes_serve hnofail (goes_busy hbusy ?_))
      rw [hproceed]
      exact h.reply hnofail

theorem Ends.send (hreach : net.reach target = some k) (hnofail : ∀ e, ¬ net.fails target e)
    (h : Ends net host post σ (.wait host target q next (.run k (Activity.answer (net.source host) q.request)))) :
    Ends net host post σ (.run host (.ask (.query target q) next)) :=
  .of_goes (goes_call hreach hnofail h)

theorem Ends.call {r : Except Failure q.Answer} (hanswered : Activity.Answered net σ host target q σ' r)
    (h : Ends net host post σ' (.run host (next r))) :
    Ends net host post σ (.run host (.ask (.query target q) next)) := by
  obtain ⟨k, report, m, hreach, hnofail, hproceed, rfl, rfl⟩ := hanswered
  exact .send hreach hnofail (h.serve hnofail hproceed)

theorem Ends.of_proceed {a : Activity d.Result}
    (h : Ends net host post (Function.update σ host (a.proceed (σ host)).2) (.run host (a.proceed (σ host)).1)) :
    Ends net host post σ (.run host a) := by
  cases hbusy : a.waits with
  | true => rwa [Activity.proceed_of_waits hbusy, Function.update_eq_self] at h
  | false => exact .of_goes (goes_busy hbusy h)

theorem ends_of_alone {a : Activity d.Result} (h : a.Alone net host post σ) : Ends net host post σ (.run host a) := by
  refine .of_proceed ?_
  induction a generalizing σ with
  | done r =>
      rw [Activity.proceed_done, Function.update_eq_self]
      exact .done h
  | ask op next ih =>
      cases op with
      | look => exact ih _ h
      | store m =>
          have := ih () h
          rwa [Function.update_self, Function.update_idem] at this
      | query target q =>
          rw [Activity.proceed_of_waits rfl, Function.update_eq_self]
          rcases h with ⟨σ', r, hanswered, hnext⟩ | ⟨hlost, hnext⟩
          · exact .call hanswered (.of_proceed (ih r hnext))
          · exact .of_goes (goes_refuse hlost fun e he => .of_proceed (ih _ (hnext e he)))

end Strand

/-! ## Operations one after another -/

/-- With nobody beginning anything more, all work comes to an end, and then `post` holds. -/
inductive World.Ends (net : Net ι) (post : (ι → Member) → Prop) : World ι → Prop
  | rest {σ : ι → Member} (result : post σ) : Ends net post (.idle σ)
  | work {w : World ι} (goes : ∃ w', World.Step net (fun _ _ => False) w w')
      (on : ∀ {w'}, World.Step net (fun _ _ => False) w w' → Ends net post w') : Ends net post w

/-- Each operation begins when the one before it has ended; after the last one `post` holds. -/
def InTurn (net : Net ι) (post : (ι → Member) → Prop) : List (ι × Operation) → (ι → Member) → Prop
  | [], σ => post σ
  | (host, o) :: rest, σ => World.Ends net (InTurn net post rest) ⟨σ, [.ofOperation host o (σ host)]⟩

theorem only_of_singleton {γ : Type} {x y : γ} {before after : List γ} (h : [x] = before ++ y :: after) :
    before = [] ∧ after = [] ∧ x = y := by
  cases before with
  | nil =>
      obtain ⟨rfl, rfl⟩ := List.cons.inj h
      exact ⟨rfl, rfl, rfl⟩
  | cons _ _ => simp at h

/-- A step of a world with one front is one of its jobs going on, or the front coming to its end. -/
theorem World.Step.of_front {jobs : List (Strand ι d)} {finish : List d.Result → View → View} {w : World ι}
    (h : World.Step net (fun _ _ => False) ⟨σ, [⟨host, d, jobs, finish⟩]⟩ w) :
    (∃ done t rest event σ' t', jobs = done ++ t :: rest ∧ Strand.Step net σ t event σ' t' ∧
        w = ⟨σ', ⟨host, d, done ++ t' :: rest, finish⟩ :: event.strays⟩) ∨
      ∃ results : List (ι × d.Result), jobs = results.map (fun r => .run r.1 (.done r.2)) ∧
        w = .idle (Function.update σ host { σ host with view := finish (results.map Prod.snd) (σ host).view }) := by
  generalize hfronts : [(⟨host, d, jobs, finish⟩ : Front ι)] = fronts at h
  cases h with
  | start allowed => exact allowed.elim
  | work step =>
      obtain ⟨rfl, rfl, heq⟩ := only_of_singleton hfronts
      cases heq
      exact Or.inl ⟨_, _, _, _, _, _, rfl, step, rfl⟩
  | finish =>
      obtain ⟨rfl, rfl, heq⟩ := only_of_singleton hfronts
      cases heq
      exact Or.inr ⟨_, rfl, rfl⟩

theorem World.ends_of_strand {o : Operation} {post : (ι → Member) → Prop} {t : Strand ι (.own o)}
    (h : t.Ends net host (fun σ _ => post σ) σ) : World.Ends net post ⟨σ, [⟨host, .own o, [t], fun _ view => view⟩]⟩ := by
  induction h with
  | @done σ r result =>
      have hstay : Function.update σ host (σ host) = σ := Function.update_eq_self host σ
      have hfinish : World.Step net (fun _ _ => False)
          ⟨σ, [] ++ ⟨host, .own o, [(host, r)].map fun result => .run result.1 (.done result.2), fun _ view => view⟩ :: []⟩
          ⟨Function.update σ host (σ host), [] ++ []⟩ := .finish
      refine .work ⟨_, hfinish⟩ fun hstep => ?_
      rcases hstep.of_front with ⟨_, _, _, _, _, _, hjobs, hinner, rfl⟩ | ⟨results, hjobs, rfl⟩
      · obtain ⟨_, _, rfl⟩ := only_of_singleton hjobs
        exact absurd hinner Strand.not_step_done
      · rw [hstay]
        exact .rest result
  | @step σ t goes quiet on ih =>
      obtain ⟨event, σ', t', hstep⟩ := goes
      have hwork : World.Step net (fun _ _ => False) ⟨σ, [] ++ ⟨host, .own o, [] ++ t :: [], fun _ view => view⟩ :: []⟩
          ⟨σ', [] ++ ⟨host, .own o, [] ++ t' :: [], fun _ view => view⟩ :: ([] ++ event.strays)⟩ := .work hstep
      refine .work ⟨_, hwork⟩ fun hstep' => ?_
      rcases hstep'.of_front with ⟨_, _, _, _, σ'', t'', hjobs, hinner, rfl⟩ | ⟨results, hjobs, rfl⟩
      · obtain ⟨rfl, rfl, rfl⟩ := only_of_singleton hjobs
        rw [quiet hinner]
        exact ih hinner
      · have hmem : t ∈ results.map fun r => (.run r.1 (.done r.2) : Strand ι (.own o)) := by
          rw [← hjobs]
          exact List.mem_singleton_self t
        obtain ⟨_, _, rfl⟩ := List.mem_map.mp hmem
        exact absurd hstep Strand.not_step_done

theorem World.ends_of_alone {o : Operation} {a : Activity o.Result} {post : (ι → Member) → Prop}
    (hsolo : o.gathering (σ host) = .solo a) (h : a.Alone net host (fun σ _ => post σ) σ) :
    World.Ends net post ⟨σ, [.ofOperation host o (σ host)]⟩ := by
  have hfront : Front.ofOperation host o (σ host) = ⟨host, .own o, [.run host a], fun _ view => view⟩ := by
    rw [Front.ofOperation, hsolo]
    rfl
  rw [hfront]
  exact World.ends_of_strand (Strand.ends_of_alone h)

theorem World.Ends.mono {post post' : (ι → Member) → Prop} {w : World ι} (h : World.Ends net post w)
    (hpost : ∀ σ, post σ → post' σ) : World.Ends net post' w := by
  induction h with
  | rest result => exact .rest (hpost _ result)
  | work goes on ih => exact .work goes fun hstep => ih hstep

theorem InTurn.mono {post post' : (ι → Member) → Prop} {tasks : List (ι × Operation)} (h : InTurn net post tasks σ)
    (hpost : ∀ σ, post σ → post' σ) : InTurn net post' tasks σ := by
  induction tasks generalizing σ with
  | nil => exact hpost σ h
  | cons task tasks ih => exact World.Ends.mono h fun _ => ih

theorem InTurn.append {post : (ι → Member) → Prop} {tasks tasks' : List (ι × Operation)}
    (h : InTurn net (InTurn net post tasks') tasks σ) : InTurn net post (tasks ++ tasks') σ := by
  induction tasks generalizing σ with
  | nil => exact h
  | cons task tasks ih => exact World.Ends.mono h fun _ => ih

/--
If every task, begun where `inv` holds, keeps `inv`, does its own good and undoes no other, then all the good is done
at the end.
-/
theorem InTurn.all (inv : (ι → Member) → Prop) (good : (ι → Member) → ι × Operation → Prop)
    {post : (ι → Member) → Prop} {tasks : List (ι × Operation)}
    (hstep : ∀ task ∈ tasks, ∀ σ, inv σ → World.Ends net
      (fun σ' => inv σ' ∧ good σ' task ∧ ∀ task', good σ task' → good σ' task')
      ⟨σ, [.ofOperation task.1 task.2 (σ task.1)]⟩)
    (hinv : inv σ)
    (hpost : ∀ σ', inv σ' → (∀ task ∈ tasks, good σ' task) → (∀ task, good σ task → good σ' task) → post σ') :
    InTurn net post tasks σ := by
  induction tasks generalizing σ with
  | nil => exact hpost σ hinv nofun fun _ h => h
  | cons task tasks ih =>
      refine World.Ends.mono (hstep task List.mem_cons_self σ hinv) ?_
      rintro σ₁ ⟨hinv₁, hgood, hkept⟩
      refine ih (fun task' htask' => hstep task' (List.mem_cons_of_mem _ htask')) hinv₁ fun σ' hinv' hgood' hkept' => ?_
      refine hpost σ' hinv' (fun task' htask' => ?_) fun task' h => hkept' task' (hkept task' h)
      rcases List.mem_cons.mp htask' with rfl | htask'
      · exact hkept' _ hgood
      · exact hgood' task' htask'

/-! ## Jobs that change nothing -/

/-- After at most `n` steps the strand has come to `r`, with all members as they were. -/
inductive Strand.Rests (net : Net ι) (σ : ι → Member) (r : d.Result) : Nat → Strand ι d → Prop
  | done {n : Nat} {k : ι} : Rests net σ r n (.run k (.done r))
  | step {n : Nat} {t : Strand ι d} (goes : ∃ event σ' t', Strand.Step net σ t event σ' t')
      (still : ∀ {event σ' t'}, Strand.Step net σ t event σ' t' → σ' = σ ∧ event.strays = [])
      (on : ∀ {event σ' t'}, Strand.Step net σ t event σ' t' → Rests net σ r n t') : Rests net σ r (n + 1) t

namespace Strand

variable {n : Nat} {r : d.Result} {target : Address} {q : Query} {next : Except Failure q.Answer → Activity d.Result}
  {k : ι} {report : Message}

theorem Rests.mono {m : Nat} {t : Strand ι d} (h : Rests net σ r n t) (hle : n ≤ m) : Rests net σ r m t := by
  induction h generalizing m with
  | done => exact .done
  | step goes still on ih =>
      obtain ⟨m, rfl⟩ := Nat.exists_eq_add_of_lt hle
      exact .step goes still fun hstep => ih hstep (Nat.le_add_right _ _)

theorem Rests.of_goes {t : Strand ι d} (h : t.Goes net σ fun σ' t' => σ' = σ ∧ Rests net σ r n t') :
    Rests net σ r (n + 1) t :=
  .step h.goes (fun hstep => ⟨(h.all hstep).2.1, (h.all hstep).1⟩) fun hstep => (h.all hstep).2.2

/-- A question is answered once the activity that works on it has come to its report. -/
theorem Rests.wait {m : Nat} {callee : Strand ι (.serve q)} (hnofail : ∀ e, ¬ net.fails target e)
    (hcallee : Rests net σ (some report) m callee) (h : Rests net σ r n (.run host (next (q.read report)))) :
    Rests net σ r (m + n + 1) (.wait host target q next callee) := by
  induction hcallee with
  | done => exact .of_goes (goes_reply hnofail ⟨rfl, h.mono (Nat.le_add_left _ _)⟩)
  | @step m callee goes still on ih =>
      rw [Nat.add_right_comm m 1 n]
      exact .of_goes (goes_serve hnofail ⟨goes, fun hstep => ⟨(still hstep).2, (still hstep).1, ih hstep⟩⟩)

theorem Rests.call {m : Nat} (hreach : net.reach target = some k) (hnofail : ∀ e, ¬ net.fails target e)
    (hcallee : Rests (d := .serve q) net σ (some report) m (.run k (Activity.answer (net.source host) q.request)))
    (h : Rests net σ r n (.run host (next (q.read report)))) :
    Rests net σ r (m + n + 2) (.run host (.ask (.query target q) next)) :=
  .of_goes (goes_call hreach hnofail ⟨rfl, hcallee.wait hnofail h⟩)

/-- A stretch that leaves its member as it was. -/
theorem Rests.go {a a' : Activity d.Result} (hproceed : a.proceed (σ host) = (a', σ host))
    (h : Rests net σ r n (.run host a')) : Rests net σ r (n + 1) (.run host a) := by
  have hstay : Function.update σ host (σ host) = σ := Function.update_eq_self host σ
  cases hbusy : a.waits with
  | true =>
      rw [Activity.proceed_of_waits hbusy] at hproceed
      cases hproceed
      exact h.mono (Nat.le_succ n)
  | false =>
      refine .of_goes (goes_busy hbusy ?_)
      rw [hproceed]
      exact ⟨hstay, h⟩

theorem Rests.refuse (hlost : Activity.Lost net target)
    (h : ∀ e, Rests net σ r n (.run host (next (.error e)))) :
    Rests net σ r (n + 1) (.run host (.ask (.query target q) next)) :=
  .of_goes (goes_refuse hlost fun e _ => ⟨rfl, h e⟩)

/-- Whoever is asked takes as long as it needs, and changes nobody on the way. -/
theorem Ends.wait_of_rests {post : (ι → Member) → d.Result → Prop} {callee : Strand ι (.serve q)}
    (hnofail : ∀ e, ¬ net.fails target e) (hcallee : Rests net σ (some report) n callee)
    (h : Ends net host post σ (.run host (next (q.read report)))) :
    Ends net host post σ (.wait host target q next callee) := by
  induction hcallee with
  | done => exact h.reply hnofail
  | step goes still on ih =>
      refine .of_goes (goes_serve hnofail ⟨goes, fun hstep => ⟨(still hstep).2, ?_⟩⟩)
      obtain ⟨rfl, -⟩ := still hstep
      exact ih hstep

end Strand

/-- The jobs come to their results, all together after at most `n` steps. -/
inductive Front.Rests (net : Net ι) (σ : ι → Member) : Nat → List (Strand ι d) → List d.Result → Prop
  | nil : Rests net σ 0 [] []
  | cons {m n : Nat} {t : Strand ι d} {ts : List (Strand ι d)} {r : d.Result} {rs : List d.Result}
      (first : t.Rests net σ r m) (others : Rests net σ n ts rs) : Rests net σ (m + n) (t :: ts) (r :: rs)

namespace Front

variable {n : Nat} {ts done rest : List (Strand ι d)} {t t' : Strand ι d} {rs : List d.Result} {event : Event ι}

theorem Rests.step (h : Front.Rests net σ n (done ++ t :: rest) rs) (hstep : Strand.Step net σ t event σ' t') :
    σ' = σ ∧ event.strays = [] ∧ ∃ m < n, Front.Rests net σ m (done ++ t' :: rest) rs := by
  induction done generalizing n rs with
  | nil =>
      cases h with
      | cons first others =>
          cases first with
          | done => exact absurd hstep Strand.not_step_done
          | step goes still on =>
              obtain ⟨hstay, hquiet⟩ := still hstep
              exact ⟨hstay, hquiet, _, by omega, .cons (on hstep) others⟩
  | cons u done ih =>
      cases h with
      | cons first others =>
          obtain ⟨hstay, hquiet, m, hm, hrests⟩ := ih others
          exact ⟨hstay, hquiet, _, by omega, .cons first hrests⟩

/-- Either all jobs have come to their results, or one of them can go on. -/
theorem Rests.progress (h : Front.Rests net σ n ts rs) :
    (∃ results : List (ι × d.Result), ts = results.map fun r => .run r.1 (.done r.2)) ∨
      ∃ done t rest event σ' t', ts = done ++ t :: rest ∧ Strand.Step net σ t event σ' t' := by
  induction h with
  | nil => exact Or.inl ⟨[], rfl⟩
  | @cons m n t ts r rs first others ih =>
      cases first with
      | @done _ k =>
          rcases ih with ⟨results, rfl⟩ | ⟨done, u, rest, event, σ', u', rfl, hstep⟩
          · exact Or.inl ⟨(k, r) :: results, rfl⟩
          · exact Or.inr ⟨_ :: done, u, rest, event, σ', u', rfl, hstep⟩
      | step goes still on =>
          obtain ⟨event, σ', t', hstep⟩ := goes
          exact Or.inr ⟨[], t, ts, event, σ', t', rfl, hstep⟩

theorem Rests.eq_results {results : List (ι × d.Result)}
    (h : Front.Rests net σ n (results.map fun r => .run r.1 (.done r.2)) rs) : results.map Prod.snd = rs := by
  induction results generalizing n rs with
  | nil =>
      cases h
      rfl
  | cons result results ih =>
      cases h with
      | cons first others =>
          cases first with
          | done => rw [List.map_cons, ih others]
          | step goes still on =>
              obtain ⟨_, _, _, hstep⟩ := goes
              exact absurd hstep Strand.not_step_done

end Front

theorem World.ends_of_jobs {post : (ι → Member) → Prop} {n : Nat} {jobs : List (Strand ι d)} {rs : List d.Result}
    {finish : List d.Result → View → View} (h : Front.Rests net σ n jobs rs)
    (hpost : post (Function.update σ host { σ host with view := finish rs (σ host).view })) :
    World.Ends net post ⟨σ, [⟨host, d, jobs, finish⟩]⟩ := by
  induction n using Nat.strong_induction_on generalizing jobs with
  | _ n ih =>
      refine .work ?_ fun hstep => ?_
      · rcases h.progress with ⟨results, rfl⟩ | ⟨done, t, rest, event, σ', t', rfl, hstep⟩
        · exact ⟨_, @World.Step.finish _ _ _ _ σ [] [] host d results finish⟩
        · exact ⟨_, @World.Step.work _ _ _ _ σ σ' [] [] host d done rest t t' finish event hstep⟩
      · rcases hstep.of_front with ⟨done, t, rest, event, σ', t', rfl, hinner, rfl⟩ | ⟨results, rfl, rfl⟩
        · obtain ⟨rfl, hquiet, m, hm, hrests⟩ := h.step hinner
          rw [hquiet]
          exact ih m hm hrests
        · rw [h.eq_results]
          exact .rest hpost

end ChordOverlay
