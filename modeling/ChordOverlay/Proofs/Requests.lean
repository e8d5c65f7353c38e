import ChordOverlay.Proofs.Alone
import ChordOverlay.Proofs.Evolution

/-!
# Who is asked on the way

The requests of an operation in the order in which they are made, those that others make on its behalf included. A
strand whose log is kept comes to an end as before, and what holds there may speak of the whole log.
-/

namespace ChordOverlay

variable {ι : Type} {net : Net ι} {σ σ' : ι → Member} {d : Duty} {host k : ι}

/-- A request, and who makes it. -/
structure Contact (ι : Type) where
  host : ι
  target : Address
  query : Query

/-- The request that the next step of the strand is about, if it is about one. -/
def Strand.contact? : {d : Duty} → Strand ι d → Option (Contact ι)
  | _, .run host (.ask (.query target q) _) => some ⟨host, target, q⟩
  | _, .run _ _ => none
  | _, .wait _ _ _ _ callee => callee.contact?

theorem Strand.contact?_of_busy {a : Activity d.Result} (hbusy : a.waits = false) :
    (Strand.run host a : Strand ι d).contact? = none := by
  cases a with
  | done r => rfl
  | ask op next =>
      cases op with
      | look => rfl
      | store m => rfl
      | query target q => cases hbusy

variable [DecidableEq ι]

/-- The strand goes on until its activity has ended and leaves nothing behind; `log` is what has been asked so far. -/
inductive Strand.Comes (net : Net ι) (host : ι) (post : List (Contact ι) → (ι → Member) → d.Result → Prop) :
    List (Contact ι) → (ι → Member) → Strand ι d → Prop
  | done {log : List (Contact ι)} {σ : ι → Member} {r : d.Result} (result : post log σ r) :
      Comes net host post log σ (.run host (.done r))
  | step {log : List (Contact ι)} {σ : ι → Member} {t : Strand ι d}
      (goes : ∃ event σ' t', Strand.Step net σ t event σ' t')
      (quiet : ∀ {event σ' t'}, Strand.Step net σ t event σ' t' → event.strays = [])
      (on : ∀ {event σ' t'}, Strand.Step net σ t event σ' t' → Comes net host post (log ++ t.contact?.toList) σ' t') :
      Comes net host post log σ t

namespace Strand

variable {post : List (Contact ι) → (ι → Member) → d.Result → Prop} {log : List (Contact ι)} {target : Address} {q : Query}
  {next : Except Failure q.Answer → Activity d.Result}

theorem Comes.mono {post' : List (Contact ι) → (ι → Member) → d.Result → Prop} {t : Strand ι d}
    (h : Comes net host post log σ t) (hpost : ∀ log σ r, post log σ r → post' log σ r) :
    Comes net host post' log σ t := by
  induction h with
  | done result => exact .done (hpost _ _ _ result)
  | step goes quiet on ih => exact .step goes quiet fun hstep => ih hstep

theorem Comes.of_goes {t : Strand ι d} (h : t.Goes net σ (Comes net host post (log ++ t.contact?.toList))) :
    Comes net host post log σ t :=
  .step h.goes (fun hstep => (h.all hstep).1) fun hstep => (h.all hstep).2

theorem Comes.of_proceed {a : Activity d.Result}
    (h : Comes net host post log (Function.update σ host (a.proceed (σ host)).2) (.run host (a.proceed (σ host)).1)) :
    Comes net host post log σ (.run host a) := by
  cases hbusy : a.waits with
  | true => rwa [Activity.proceed_of_waits hbusy, Function.update_eq_self] at h
  | false =>
      refine .of_goes (goes_busy hbusy ?_)
      rwa [contact?_of_busy hbusy, Option.toList_none, List.append_nil]

/-- The callee works on the question to its end, and the asker goes on with what it reports. -/
theorem Comes.wait {callee : Strand ι (.serve q)} (hnofail : ∀ e, ¬ net.fails target e)
    (h : Comes net k (fun log σ r => ∃ report, r = some report ∧
      Comes net host post log σ (.run host (next (q.read report)))) log σ callee) :
    Comes net host post log σ (.wait host target q next callee) := by
  induction h with
  | done result =>
      obtain ⟨report, rfl, hrest⟩ := result
      refine .of_goes (goes_reply hnofail ?_)
      exact (List.append_nil _).symm ▸ hrest
  | step goes quiet on ih => exact .of_goes (goes_serve hnofail ⟨goes, fun hstep => ⟨quiet hstep, ih hstep⟩⟩)

/-- A question that reaches somebody is worked on there. -/
theorem Comes.call (hreach : net.reach target = some k) (hnofail : ∀ e, ¬ net.fails target e)
    (h : Comes (d := .serve q) net k (fun log σ r => ∃ report, r = some report ∧
        Comes net host post log σ (.run host (next (q.read report))))
      (log ++ [⟨host, target, q⟩]) σ (.run k (Activity.answer (net.source host) q.request))) :
    Comes net host post log σ (.run host (.ask (.query target q) next)) :=
  .of_goes (goes_call hreach hnofail (h.wait hnofail))

end Strand

namespace Activity

/-- The strand of the activity comes to its end, once the activity has gone as far as it can without an answer. -/
def Comes (net : Net ι) (host : ι) (post : List (Contact ι) → (ι → Member) → d.Result → Prop) (log : List (Contact ι))
    (a : Activity d.Result) (σ : ι → Member) : Prop :=
  Strand.Comes net host post log (Function.update σ host (a.proceed (σ host)).2) (.run host (a.proceed (σ host)).1)

variable {post : List (Contact ι) → (ι → Member) → d.Result → Prop} {log : List (Contact ι)} {target : Address} {q : Query}

theorem comes_done {r : d.Result} (h : post log σ r) : Comes net host post log (.done r) σ := by
  rw [Comes, proceed_done, Function.update_eq_self]
  exact .done h

theorem comes_look {f : Member → Activity d.Result} :
    Comes net host post log (look >>= f) σ ↔ Comes net host post log (f (σ host)) σ := Iff.rfl

theorem comes_store {m : Member} {f : Unit → Activity d.Result} :
    Comes net host post log (store m >>= f) σ ↔ Comes net host post log (f ()) (Function.update σ host m) := by
  rw [Comes, Comes, proceed_store, Function.update_self, Function.update_idem]

theorem comes_query {f : Except Failure q.Answer → Activity d.Result} :
    Comes net host post log (query target q >>= f) σ ↔
      Strand.Comes net host post log σ (.run host (.ask (.query target q) f)) := by
  have hwaits : (query target q >>= f).proceed (σ host) = (query target q >>= f, σ host) := proceed_of_waits rfl
  rw [Comes, hwaits, Function.update_eq_self]
  rfl

/-- Whom the request reaches comes to a report, and with that the asker goes on. -/
theorem comes_call {f : Except Failure q.Answer → Activity d.Result} (hreach : net.reach target = some k)
    (hnofail : ∀ e, ¬ net.fails target e)
    (h : Comes (d := .serve q) net k
      (fun log σ r => ∃ report, r = some report ∧ Comes net host post log (f (q.read report)) σ)
      (log ++ [⟨host, target, q⟩]) (answer (net.source host) q.request) σ) :
    Comes net host post log (query target q >>= f) σ := by
  refine comes_query.mpr (.call hreach hnofail (.of_proceed (Strand.Comes.mono h ?_)))
  rintro log σ r ⟨report, rfl, hrest⟩
  exact ⟨report, rfl, .of_proceed hrest⟩

theorem comes_answered {f : Except Failure q.Answer → Activity d.Result} {r : Except Failure q.Answer}
    (hanswered : Answered net σ host target q σ' r)
    (h : Comes net host post (log ++ [⟨host, target, q⟩]) (f r) σ') : Comes net host post log (query target q >>= f) σ := by
  obtain ⟨k, report, m, hreach, hnofail, hproceed, rfl, rfl⟩ := hanswered
  refine comes_call hreach hnofail ?_
  rw [Comes, hproceed]
  exact .done ⟨report, rfl, h⟩

theorem comes_refused {f : Except Failure q.Answer → Activity d.Result} (hlost : Lost net target)
    (h : ∀ e, net.fails target e → Comes net host post (log ++ [⟨host, target, q⟩]) (f (.error e)) σ) :
    Comes net host post log (query target q >>= f) σ :=
  comes_query.mpr (.of_goes (Strand.goes_refuse hlost fun e he => .of_proceed (h e he)))

end Activity

/-! ## How many there are -/

namespace Activity

variable {α β : Type} {m : Member} {i j : Nat}

/--
The activity, begun at `m`, comes to its end after at most so many requests, whatever they are answered and however
the member evolves meanwhile, and `post` holds of the member and the result there.
-/
def Costs (post : Member → α → Prop) : Activity α → Nat → Member → Prop
  | .done a, _, m => post m a
  | .ask .look next, i, m => Costs post (next m) i m
  | .ask (.store m) next, i, _ => Costs post (next ()) i m
  | .ask (.query _ _) next, i, m => ∃ j, i = j + 1 ∧ ∀ r m', m.Evolves m' → Costs post (next r) j m'

theorem Costs.mono {post post' : Member → α → Prop} {a : Activity α} (h : a.Costs post i m) (hij : i ≤ j)
    (hpost : ∀ m x, post m x → post' m x) : a.Costs post' j m := by
  induction a generalizing i j m with
  | done x => exact hpost m x h
  | ask op next ih =>
      cases op with
      | look => exact ih m h hij
      | store m' => exact ih () h hij
      | query target q =>
          obtain ⟨i, rfl, hnext⟩ := h
          obtain ⟨j, rfl⟩ := Nat.exists_eq_add_of_lt hij
          exact ⟨i + j, rfl, fun r m' hm => ih r (hnext r m' hm) (Nat.le_add_right i j)⟩

theorem Costs.bind {post : Member → β → Prop} {a : Activity α} {f : α → Activity β}
    (h : a.Costs (fun m x => (f x).Costs post j m) i m) : Costs post (a.bind f) (i + j) m := by
  induction a generalizing i m with
  | done x => exact Costs.mono h (Nat.le_add_left j i) fun _ _ hx => hx
  | ask op next ih =>
      cases op with
      | look => exact ih m h
      | store m' => exact ih () h
      | query target q =>
          obtain ⟨i, rfl, hnext⟩ := h
          exact ⟨i + j, Nat.add_right_comm i 1 j, fun r m' hm => ih r (hnext r m' hm)⟩

theorem costs_look {post : Member → β → Prop} {f : Member → Activity β} :
    (look >>= f).Costs post i m ↔ (f m).Costs post i m := Iff.rfl

theorem costs_query {post : Member → β → Prop} {target : Address} {q : Query} {f : Except Failure q.Answer → Activity β}
    (h : ∀ r m', m.Evolves m' → (f r).Costs post i m') : (query target q >>= f).Costs post (i + 1) m := ⟨i, rfl, h⟩

end Activity

end ChordOverlay
