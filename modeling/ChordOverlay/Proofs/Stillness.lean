import ChordOverlay.Proofs.Overlay

/-!
# Members at work that change nothing

Where every answer only confirms what the asker knows already, members may do what they like side by side, and all
of them stay as they are. Each activity is checked by itself, against what the others may answer.
-/

namespace ChordOverlay

/-- What members that stay as they are may be asked, and what their answers are worth. -/
structure Calm (ι : Type) where
  asked : ι → Query → Prop
  worth : ι → (q : Query) → Except Failure q.Answer → Prop

variable {ι : Type} {C : Calm ι} {net : Net ι} {σ σ' : ι → Member} {d : Duty} {host : ι} {α β : Type}

namespace Activity

/-- The activity stores its member only as it is, and comes to a result that satisfies `post`. -/
def Still (C : Calm ι) (net : Net ι) (σ : ι → Member) (host : ι) (post : α → Prop) : Activity α → Prop
  | .done a => post a
  | .ask .look next => Still C net σ host post (next (σ host))
  | .ask (.store m) next => m = σ host ∧ Still C net σ host post (next ())
  | .ask (.query target q) next =>
      ∃ k, net.reach target = some k ∧ (∀ e, ¬ net.fails target e) ∧ C.asked k q ∧
        ∀ r, C.worth k q r → Still C net σ host post (next r)

theorem Still.mono {post post' : α → Prop} {a : Activity α} (h : a.Still C net σ host post)
    (hpost : ∀ x, post x → post' x) : a.Still C net σ host post' := by
  induction a with
  | done x => exact hpost x h
  | ask op next ih =>
      cases op with
      | look => exact ih _ h
      | store m => exact ⟨h.1, ih _ h.2⟩
      | query target q =>
          obtain ⟨k, hreach, hanswered, hasked, hnext⟩ := h
          exact ⟨k, hreach, hanswered, hasked, fun r hr => ih r (hnext r hr)⟩

theorem Still.bind {post : β → Prop} {a : Activity α} {f : α → Activity β}
    (h : a.Still C net σ host fun x => (f x).Still C net σ host post) : Still C net σ host post (a.bind f) := by
  induction a with
  | done a => exact h
  | ask op next ih =>
      cases op with
      | look => exact ih _ h
      | store m => exact ⟨h.1, ih _ h.2⟩
      | query target q =>
          obtain ⟨k, hreach, hanswered, hasked, hnext⟩ := h
          exact ⟨k, hreach, hanswered, hasked, fun r hr => ih r (hnext r hr)⟩

theorem Still.proceed {post : α → Prop} {a : Activity α} (h : a.Still C net σ host post) :
    (a.proceed (σ host)).2 = σ host ∧ (a.proceed (σ host)).1.Still C net σ host post := by
  induction a with
  | done a => exact ⟨rfl, h⟩
  | ask op next ih =>
      cases op with
      | look => exact ih _ h
      | store m =>
          obtain ⟨rfl, hnext⟩ := h
          exact ih () hnext
      | query target q => exact ⟨rfl, h⟩

theorem still_look {post : β → Prop} {f : Member → Activity β} :
    Still C net σ host post (look >>= f) ↔ Still C net σ host post (f (σ host)) := Iff.rfl

theorem still_store {post : β → Prop} {m : Member} {f : Unit → Activity β} :
    Still C net σ host post (store m >>= f) ↔ m = σ host ∧ Still C net σ host post (f ()) := Iff.rfl

theorem still_query {post : β → Prop} {target : Address} {q : Query} {f : Except Failure q.Answer → Activity β} :
    Still C net σ host post (query target q >>= f) ↔
      ∃ k, net.reach target = some k ∧ (∀ e, ¬ net.fails target e) ∧ C.asked k q ∧
        ∀ r, C.worth k q r → Still C net σ host post (f r) := Iff.rfl

end Activity

/-- What the report of `k` to a question has to be. -/
def Calm.Reports (C : Calm ι) (k : ι) (q : Query) (report : Option Message) : Prop :=
  ∃ m, report = some m ∧ C.worth k q (q.read m)

/-- No member changes by the strand, and its result is of a kind. -/
def Strand.Still (C : Calm ι) (net : Net ι) (σ : ι → Member) : {d : Duty} → Strand ι d → (d.Result → Prop) → Prop
  | _, .run host rest, post => rest.Still C net σ host post
  | _, .wait host target q next callee, post =>
      (∀ e, ¬ net.fails target e) ∧ Still C net σ callee (C.Reports callee.host q) ∧
        ∀ r, C.worth callee.host q r → (next r).Still C net σ host post

/-- The results of the jobs, each with its place among them, leave the view as it is. -/
def Front.Still (C : Calm ι) (net : Net ι) (σ : ι → Member) (f : Front ι) : Prop :=
  ∃ post : Nat → f.duty.Result → Prop, (∀ (i : Nat) t, f.jobs[i]? = some t → t.Still C net σ (post i)) ∧
    ∀ rs : List f.duty.Result, (∀ (i : Nat) r, rs[i]? = some r → post i r) → f.finish rs (σ f.host).view = (σ f.host).view

theorem Front.still_ofOperation {o : Operation} (post : Nat → o.Result → Prop)
    (hjobs : ∀ (i : Nat) a, (o.gathering (σ host)).jobs[i]? = some a → a.Still C net σ host (post i))
    (hfinish : ∀ rs : List o.Result, (∀ (i : Nat) r, rs[i]? = some r → post i r) →
      (o.gathering (σ host)).finish rs (σ host).view = (σ host).view) :
    (Front.ofOperation host o (σ host)).Still C net σ := by
  refine ⟨post, fun i t ht => ?_, hfinish⟩
  change ((o.gathering (σ host)).jobs.map fun a => (Strand.run host a : Strand ι (.own o)))[i]? = some t at ht
  rw [List.getElem?_map] at ht
  obtain ⟨a, ha, rfl⟩ := Option.map_eq_some_iff.mp ht
  exact hjobs i a ha

theorem Front.still_solo {o : Operation} {a : Activity o.Result} (hsolo : o.gathering (σ host) = .solo a)
    (ha : a.Still C net σ host fun _ => True) : (Front.ofOperation host o (σ host)).Still C net σ := by
  refine Front.still_ofOperation (fun _ _ => True) (fun i b hb => ?_) fun rs _ => by rw [hsolo]; rfl
  rw [hsolo] at hb
  obtain rfl := List.mem_singleton.mp (List.mem_of_getElem? hb)
  exact ha

/-- No member has changed, and none will by what is at work. -/
def World.Still (C : Calm ι) (net : Net ι) (σ : ι → Member) (w : World ι) : Prop :=
  w.members = σ ∧ ∀ f ∈ w.fronts, f.Still C net σ

variable [DecidableEq ι]

/-- What calm asks of those who answer, and of the operations that may begin. -/
structure Calm.Kept (C : Calm ι) (net : Net ι) (may : ι → Operation → Prop) (σ : ι → Member) : Prop where
  serve : ∀ {k q}, C.asked k q → ∀ source, (Activity.answer source q.request).Still C net σ k (C.Reports k q)
  start : ∀ {host o}, may host o → (Front.ofOperation host o (σ host)).Still C net σ

variable {may : ι → Operation → Prop}

theorem Strand.Step.still (h : C.Kept net may σ) {t t' : Strand ι d} {event : Event ι} {post : d.Result → Prop}
    (hstep : Strand.Step net σ t event σ' t') (ht : t.Still C net σ post) :
    σ' = σ ∧ t'.Still C net σ post ∧ event.strays = [] ∧ t'.host = t.host := by
  induction hstep with
  | go busy =>
      obtain ⟨hstay, hrest⟩ := Activity.Still.proceed ht
      exact ⟨by rw [hstay, Function.update_eq_self], hrest, rfl, rfl⟩
  | call reached =>
      obtain ⟨k, hreach, hanswered, hasked, hnext⟩ := ht
      obtain rfl := Option.some.inj (reached.symm.trans hreach)
      exact ⟨rfl, ⟨hanswered, h.serve hasked _, hnext⟩, rfl, rfl⟩
  | refuse fault =>
      obtain ⟨_, _, hanswered, _⟩ := ht
      exact absurd fault (hanswered _)
  | reply =>
      obtain ⟨_, ⟨m, hm, hworth⟩, hnext⟩ := ht
      cases hm
      exact ⟨rfl, hnext _ hworth, rfl, rfl⟩
  | close =>
      obtain ⟨_, ⟨m, hm, _⟩, _⟩ := ht
      cases hm
  | abandon fault => exact absurd fault (ht.1 _)
  | serve inner ih =>
      obtain ⟨hanswered, hcallee, hnext⟩ := ht
      obtain ⟨hstay, hcallee', hstrays, hhost⟩ := ih h hcallee
      refine ⟨hstay, ⟨hanswered, ?_, ?_⟩, hstrays, rfl⟩
      · rw [hhost]
        exact hcallee'
      · rw [hhost]
        exact hnext

theorem World.Step.still (h : C.Kept net may σ) {w w' : World ι} (hstep : World.Step net may w w')
    (hw : w.Still C net σ) : w'.Still C net σ := by
  obtain ⟨hmembers, hfronts⟩ := hw
  cases hstep with
  | start allowed =>
      obtain rfl : _ = σ := hmembers
      refine ⟨rfl, fun f hf => ?_⟩
      rcases List.mem_cons.mp hf with rfl | hf
      · exact h.start allowed
      · exact hfronts f hf
  | @work σ₁ σ₂ before after owner duty done rest t t' finish event step =>
      obtain rfl : σ₁ = σ := hmembers
      obtain ⟨post, hjobs, hfinish⟩ := hfronts _ (List.mem_append_right _ List.mem_cons_self)
      obtain ⟨hstay, ht', hstrays, _⟩ := step.still h (hjobs done.length t (by simp))
      refine ⟨hstay, fun f hf => ?_⟩
      rw [hstrays, List.append_nil] at hf
      rcases List.mem_append.mp hf with hf | hf
      · exact hfronts f (List.mem_append_left _ hf)
      rcases List.mem_cons.mp hf with rfl | hf
      · -- Only the strand that has moved has anything new to satisfy.
        refine ⟨post, fun i u hu => ?_, hfinish⟩
        by_cases hi : i = done.length
        · subst hi
          obtain rfl : t' = u := by simpa using hu
          exact ht'
        · have hset : done ++ t' :: rest = (done ++ t :: rest).set done.length t' := by simp
          dsimp only at hu
          rw [hset, List.getElem?_set_ne (Ne.symm hi)] at hu
          exact hjobs i u hu
      · exact hfronts f (List.mem_append_right _ (List.mem_cons_of_mem _ hf))
  | @finish σ₁ before after owner duty results finish =>
      obtain rfl : σ₁ = σ := hmembers
      obtain ⟨post, hjobs, hfinish⟩ := hfronts _ (List.mem_append_right _ List.mem_cons_self)
      have hview : finish (results.map Prod.snd) (σ₁ owner).view = (σ₁ owner).view := by
        refine hfinish _ fun i r hr => ?_
        rw [List.getElem?_map] at hr
        obtain ⟨result, hresult, rfl⟩ := Option.map_eq_some_iff.mp hr
        exact hjobs i (.run result.1 (.done result.2)) (by rw [List.getElem?_map, hresult]; rfl)
      refine ⟨?_, fun f hf => ?_⟩
      · change Function.update σ₁ owner { σ₁ owner with view := finish (results.map Prod.snd) (σ₁ owner).view } = σ₁
        rw [hview]
        exact Function.update_eq_self owner σ₁
      · rcases List.mem_append.mp hf with hf | hf
        · exact hfronts f (List.mem_append_left _ hf)
        · exact hfronts f (List.mem_append_right _ (List.mem_cons_of_mem _ hf))

theorem World.Run.still (h : C.Kept net may σ) {given : (ι → Member) → Prop} {w : World ι}
    (hrun : World.Run net may given (.idle σ) w) : w.Still C net σ := by
  induction hrun with
  | refl => exact ⟨rfl, nofun⟩
  | tail _ hstep ih => exact hstep.1.still h ih

end ChordOverlay
