import ChordOverlay.Proofs.Overlay

/-!
# What members may rely on while they wait

A pact says what holds of all members at any time, how they may move, what each activity may ask of whom, and
what an answer is worth. An activity that keeps to the pact whenever all others do is checked by itself; a run
of all of them together then stays within the pact.
-/

namespace ChordOverlay

/-- What members agree on: what holds at any time, how they may move, and what is asked and
answered. -/
structure Pact (ι : Type) where
  /-- What a run takes for granted of every state. -/
  given : (ι → Member) → Prop
  inv : (ι → Member) → Prop
  moves : (ι → Member) → (ι → Member) → Prop
  asks : (ι → Member) → Duty → ι → Address → Query → Prop
  answers : (ι → Member) → (q : Query) → Except Failure q.Answer → Prop
  yields : (ι → Member) → (o : Operation) → o.Result → Prop

/-- What the result of a duty is worth; no report at all counts as a failed request. -/
def Pact.results {ι : Type} (P : Pact ι) (σ : ι → Member) : (d : Duty) → d.Result → Prop
  | .own o, r => P.yields σ o r
  | .serve q, some report => P.answers σ q (q.read report)
  | .serve q, none => P.answers σ q (.error .closedEarly)

variable {ι : Type} [DecidableEq ι] {α β : Type}

/-! ## Activities -/

/--
The activity, begun in `σ`, stays within the pact up to its end and reaches `post` there, whatever the others do
within the pact while it waits.
-/
def Activity.Keeps (P : Pact ι) (d : Duty) (host : ι) (post : (ι → Member) → α → Prop) :
    Activity α → (ι → Member) → Prop
  | .done a, σ => post σ a
  | .ask .look next, σ => Keeps P d host post (next (σ host)) σ
  | .ask (.store m) next, σ =>
      P.moves σ (Function.update σ host m) ∧ P.inv (Function.update σ host m) ∧
        Keeps P d host post (next ()) (Function.update σ host m)
  | .ask (.query target q) next, σ =>
      (P.given σ → P.asks σ d host target q) ∧
        ∀ σ' r, P.moves σ σ' → P.inv σ' → P.answers σ' q r → Keeps P d host post (next r) σ'

/-- What a pact asks of the network, of the operations that may begin, and of those who answer. -/
structure Pact.Kept (P : Pact ι) (net : Net ι) (may : ι → Operation → Prop) : Prop where
  refl : ∀ σ, P.moves σ σ
  trans : ∀ {σ σ' σ''}, P.moves σ σ' → P.moves σ' σ'' → P.moves σ σ''
  asks_mono : ∀ {σ σ' d host target q}, P.asks σ d host target q → P.moves σ σ' → P.inv σ' →
    P.asks σ' d host target q
  answers_mono : ∀ {σ σ' q r}, P.answers σ q r → P.moves σ σ' → P.inv σ' → P.answers σ' q r
  yields_mono : ∀ {σ σ' o r}, P.yields σ o r → P.moves σ σ' → P.inv σ' → P.yields σ' o r
  fails : ∀ {σ q target e}, net.fails target e → P.answers σ q (.error e)
  serve : ∀ {σ d host target q k}, P.inv σ → P.asks σ d host target q → net.reach target = some k →
    (Activity.answer (net.source host) q.request).Keeps P (.serve q) k (P.results · (.serve q)) σ
  start : ∀ {σ host o}, may host o → P.inv σ → ∀ a ∈ (o.gathering (σ host)).jobs, ∀ σ', P.moves σ σ' → P.inv σ' →
    a.Keeps P (.own o) host (P.yields · o) σ'
  finish : ∀ {σ host o}, may host o → P.inv σ → ∀ σ' rs, P.moves σ σ' → P.inv σ' → (∀ r ∈ rs, P.yields σ' o r) →
    let σ'' := Function.update σ' host { σ' host with view := (o.gathering (σ host)).finish rs (σ' host).view }
    P.moves σ' σ'' ∧ P.inv σ''

variable {P : Pact ι} {net : Net ι} {may : ι → Operation → Prop} {d : Duty} {host : ι} {σ σ' : ι → Member}
  {post : (ι → Member) → β → Prop}

namespace Activity

theorem Keeps.bind {a : Activity α} {f : α → Activity β}
    (h : a.Keeps P d host (fun σ x => Keeps P d host post (f x) σ) σ) : Keeps P d host post (a.bind f) σ := by
  induction a generalizing σ with
  | done a => exact h
  | ask op next ih =>
      cases op with
      | look => exact ih _ h
      | store m => exact ⟨h.1, h.2.1, ih _ h.2.2⟩
      | query target q => exact ⟨h.1, fun σ' r hm hi hr => ih _ (h.2 σ' r hm hi hr)⟩

/-- One stretch of an activity that keeps to the pact: what it does is within the pact, and so is what is left. -/
theorem Keeps.proceed {post : (ι → Member) → α → Prop} (h : P.Kept net may) {a : Activity α}
    (ha : a.Keeps P d host post σ) (hi : P.inv σ) :
    P.moves σ (Function.update σ host (a.proceed (σ host)).2) ∧
      P.inv (Function.update σ host (a.proceed (σ host)).2) ∧
      (a.proceed (σ host)).1.Keeps P d host post (Function.update σ host (a.proceed (σ host)).2) := by
  have hstay : ∀ σ : ι → Member, Function.update σ host (σ host) = σ := fun σ => Function.update_eq_self host σ
  induction a generalizing σ with
  | done a =>
      rw [proceed_done, hstay]
      exact ⟨h.refl σ, hi, ha⟩
  | ask op next ih =>
      cases op with
      | look => exact ih _ ha hi
      | store m =>
          obtain ⟨hm, hi', hnext⟩ := ha
          have := ih () hnext hi'
          rw [Function.update_self, Function.update_idem] at this
          exact ⟨h.trans hm this.1, this.2⟩
      | query target q =>
          change P.moves σ (Function.update σ host (σ host)) ∧ P.inv (Function.update σ host (σ host)) ∧
            Keeps P d host post (.ask (.query target q) next) (Function.update σ host (σ host))
          rw [hstay]
          exact ⟨h.refl σ, hi, ha⟩

end Activity

/-! ## Strands -/

/-- What is left of a strand stays within the pact from any state on that the others may reach. -/
def Strand.Keeps (P : Pact ι) (net : Net ι) : {d : Duty} → Strand ι d → (ι → Member) → Prop
  | d, .run host rest, σ =>
      ∀ σ', P.moves σ σ' → P.inv σ' → rest.Keeps P d host (P.results · d) σ'
  | d, .wait host target q next callee, σ =>
      P.asks σ d host target q ∧ net.reach target = some callee.host ∧ callee.Keeps P net σ ∧
        ∀ σ' r, P.moves σ σ' → P.inv σ' → P.answers σ' q r → (next r).Keeps P d host (P.results · d) σ'

namespace Strand

theorem Keeps.mono (h : P.Kept net may) {t : Strand ι d} (ht : t.Keeps P net σ) (hm : P.moves σ σ') (hi : P.inv σ') :
    t.Keeps P net σ' := by
  induction t with
  | run host rest => exact fun σ'' hm' hi' => ht σ'' (h.trans hm hm') hi'
  | wait host target q next callee ih =>
      obtain ⟨hasks, hreach, hcallee, hnext⟩ := ht
      exact ⟨h.asks_mono hasks hm hi, hreach, ih hcallee,
        fun σ'' r hm' hi' hr => hnext σ'' r (h.trans hm hm') hi' hr⟩

theorem results_mono (h : P.Kept net may) {r : d.Result} (hr : P.results σ d r) (hm : P.moves σ σ')
    (hi : P.inv σ') : P.results σ' d r := by
  cases d with
  | own o => exact h.yields_mono hr hm hi
  | serve q =>
      cases r with
      | none => exact h.answers_mono hr hm hi
      | some report => exact h.answers_mono hr hm hi

theorem Step.host_eq {t t' : Strand ι d} {event : Event ι} (hstep : Step net σ t event σ' t') : t'.host = t.host := by
  cases hstep <;> rfl

/-- Where an activity waits or has ended, it goes on to stay within the pact whatever the others do. -/
theorem keeps_run (h : P.Kept net may) {rest : Activity d.Result} (hwaits : rest.waits = true) (hg : P.given σ)
    (hrest : rest.Keeps P d host (P.results · d) σ) : (Strand.run host rest).Keeps P net σ := by
  intro σ' hm hi
  cases rest with
  | done r => exact results_mono h hrest hm hi
  | ask op next =>
      cases op with
      | look => cases hwaits
      | store m => cases hwaits
      | query target q =>
          exact ⟨fun _ => h.asks_mono (hrest.1 hg) hm hi, fun σ'' r hm' hi' hr => hrest.2 σ'' r (h.trans hm hm') hi' hr⟩

end Strand

/-! ## The whole overlay -/

/-- Every activity of the front stays within the pact, and so does what their results change at the end. -/
def Front.Keeps (P : Pact ι) (net : Net ι) (f : Front ι) (σ : ι → Member) : Prop :=
  (∀ t ∈ f.jobs, t.Keeps P net σ) ∧
    ∀ σ' rs, P.moves σ σ' → P.inv σ' → (∀ r ∈ rs, P.results σ' f.duty r) →
      let σ'' := Function.update σ' f.host { σ' f.host with view := f.finish rs (σ' f.host).view }
      P.moves σ' σ'' ∧ P.inv σ''

/-- What holds by the pact holds now, and all who are at work stay within it. -/
def World.Keeps (P : Pact ι) (net : Net ι) (w : World ι) : Prop :=
  P.inv w.members ∧ ∀ f ∈ w.fronts, f.Keeps P net w.members

theorem Front.Keeps.mono (h : P.Kept net may) {f : Front ι} (hf : f.Keeps P net σ) (hm : P.moves σ σ')
    (hi : P.inv σ') : f.Keeps P net σ' :=
  ⟨fun t ht => (hf.1 t ht).mono h hm hi, fun σ'' rs hm' hi' hrs => hf.2 σ'' rs (h.trans hm hm') hi' hrs⟩

theorem Front.keeps_stray (h : P.Kept net may) {q : Query} {callee : Strand ι (.serve q)}
    (hcallee : callee.Keeps P net σ) : (Front.stray q callee).Keeps P net σ := by
  refine ⟨fun t ht => ?_, fun σ' rs _ hi _ => ?_⟩
  · rw [List.mem_singleton.mp ht]
    exact hcallee
  · have hstay : Function.update σ' callee.host (σ' callee.host) = σ' := Function.update_eq_self _ _
    change P.moves σ' (Function.update σ' callee.host (σ' callee.host)) ∧
      P.inv (Function.update σ' callee.host (σ' callee.host))
    rw [hstay]
    exact ⟨h.refl σ', hi⟩

theorem Front.keeps_ofOperation (h : P.Kept net may) {o : Operation} (hmay : may host o) (hi : P.inv σ) :
    (Front.ofOperation host o (σ host)).Keeps P net σ := by
  refine ⟨fun job hjob => ?_, fun σ' rs hm hi' hrs => h.finish hmay hi σ' rs hm hi' hrs⟩
  obtain ⟨a, ha, rfl⟩ := List.mem_map.mp hjob
  exact fun σ' hm hi' => h.start hmay hi a ha σ' hm hi'

theorem Strand.Step.keeps (h : P.Kept net may) {t t' : Strand ι d} {event : Event ι}
    (hstep : Strand.Step net σ t event σ' t') (hi : P.inv σ) (hg : P.given σ) (hg' : P.given σ')
    (ht : t.Keeps P net σ) :
    P.moves σ σ' ∧ P.inv σ' ∧ t'.Keeps P net σ' ∧ ∀ f ∈ event.strays, f.Keeps P net σ' := by
  have hquiet : ∀ f ∈ (Event.quiet : Event ι).strays, f.Keeps P net σ' := fun f hf => by cases hf
  induction hstep with
  | go busy =>
      obtain ⟨hm, hi', hrest⟩ := Activity.Keeps.proceed h (ht _ (h.refl _) hi) hi
      exact ⟨hm, hi', keeps_run h (Activity.waits_proceed _ _) hg' hrest, hquiet⟩
  | call reached =>
      obtain ⟨hasks, hnext⟩ := ht _ (h.refl _) hi
      refine ⟨h.refl _, hi, ⟨hasks hg, reached, fun σ'' hm hi' => ?_, hnext⟩, hquiet⟩
      exact h.serve hi' (h.asks_mono (hasks hg) hm hi') reached
  | refuse fault =>
      obtain ⟨_, hnext⟩ := ht _ (h.refl _) hi
      exact ⟨h.refl _, hi, fun σ'' hm hi' => hnext σ'' _ hm hi' (h.fails fault), hquiet⟩
  | reply =>
      obtain ⟨_, _, hcallee, hnext⟩ := ht
      exact ⟨h.refl _, hi, fun σ'' hm hi' => hnext σ'' _ hm hi' (hcallee σ'' hm hi'), hquiet⟩
  | close =>
      obtain ⟨_, _, hcallee, hnext⟩ := ht
      exact ⟨h.refl _, hi, fun σ'' hm hi' => hnext σ'' _ hm hi' (hcallee σ'' hm hi'), hquiet⟩
  | abandon fault =>
      obtain ⟨_, _, hcallee, hnext⟩ := ht
      refine ⟨h.refl _, hi, fun σ'' hm hi' => hnext σ'' _ hm hi' (h.fails fault), fun f hf => ?_⟩
      rw [List.mem_singleton.mp hf]
      exact Front.keeps_stray h hcallee
  | serve inner ih =>
      -- To the asker a step of the callee is one of the moves it has to put up with.
      obtain ⟨hasks, hreach, hcallee, hnext⟩ := ht
      obtain ⟨hm, hi', hcallee', hstrays⟩ := ih hi hg hg' hcallee hquiet
      refine ⟨hm, hi', ⟨h.asks_mono hasks hm hi', ?_, hcallee',
        fun σ'' r hm' hi'' hr => hnext σ'' r (h.trans hm hm') hi'' hr⟩, hstrays⟩
      rw [inner.host_eq]
      exact hreach

theorem World.Step.keeps (h : P.Kept net may) {w w' : World ι} (hstep : World.Step net may w w')
    (hw : w.Keeps P net) (hg : P.given w.members) (hg' : P.given w'.members) :
    P.moves w.members w'.members ∧ w'.Keeps P net := by
  obtain ⟨hi, hfronts⟩ := hw
  cases hstep with
  | start allowed =>
      refine ⟨h.refl _, hi, fun f hf => ?_⟩
      rcases List.mem_cons.mp hf with rfl | hf
      · exact Front.keeps_ofOperation h allowed hi
      · exact hfronts f hf
  | @work σ₁ σ₂ before after owner duty done rest t t' finish event step =>
      have hfront := hfronts _ (List.mem_append_right _ List.mem_cons_self)
      obtain ⟨hm, hi', ht', hstrays⟩ :=
        step.keeps h hi hg hg' (hfront.1 t (List.mem_append_right _ List.mem_cons_self))
      refine ⟨hm, hi', fun f hf => ?_⟩
      rcases List.mem_append.mp hf with hf | hf
      · exact (hfronts f (List.mem_append_left _ hf)).mono h hm hi'
      rcases List.mem_cons.mp hf with rfl | hf
      · have hrest := hfront.mono h hm hi'
        refine ⟨fun u hu => ?_, hrest.2⟩
        rcases List.mem_append.mp hu with hu | hu
        · exact hrest.1 u (List.mem_append_left _ hu)
        rcases List.mem_cons.mp hu with heq | hu
        · rw [heq]
          exact ht'
        · exact hrest.1 u (List.mem_append_right _ (List.mem_cons_of_mem _ hu))
      rcases List.mem_append.mp hf with hf | hf
      · exact (hfronts f (List.mem_append_right _ (List.mem_cons_of_mem _ hf))).mono h hm hi'
      · exact hstrays f hf
  | @finish σ₁ before after owner duty results finish =>
      have hfront := hfronts _ (List.mem_append_right _ List.mem_cons_self)
      have hresults : ∀ r ∈ results.map Prod.snd, P.results σ₁ duty r := by
        intro r hr
        obtain ⟨pair, hpair, rfl⟩ := List.mem_map.mp hr
        exact hfront.1 _ (List.mem_map_of_mem hpair) σ₁ (h.refl σ₁) hi
      obtain ⟨hm, hi'⟩ := hfront.2 σ₁ _ (h.refl σ₁) hi hresults
      refine ⟨hm, hi', fun f hf => ?_⟩
      have hmem : f ∈ before ++ ⟨owner, duty, results.map fun r => .run r.1 (.done r.2), finish⟩ :: after := by
        rcases List.mem_append.mp hf with hf | hf
        · exact List.mem_append_left _ hf
        · exact List.mem_append_right _ (List.mem_cons_of_mem _ hf)
      exact (hfronts f hmem).mono h hm hi'

theorem World.Run.keeps (h : P.Kept net may) {w w' : World ι} (hrun : World.Run net may P.given w w')
    (hw : w.Keeps P net) (hg : P.given w.members) :
    P.moves w.members w'.members ∧ w'.Keeps P net ∧ P.given w'.members := by
  induction hrun with
  | refl => exact ⟨h.refl _, hw, hg⟩
  | tail _ hstep ih =>
      obtain ⟨hm, hk, hg'⟩ := ih
      obtain ⟨hm', hk'⟩ := hstep.1.keeps h hk hg' hstep.2
      exact ⟨h.trans hm hm', hk', hstep.2⟩

/-! ## Lookups -/

/-- A hop taken is a hop less, and the count never passes below zero. -/
theorem hops_left {ttl : UInt8} (httl : ttl ≠ 0) : (ttl - 1).toNat + 1 = ttl.toNat := by
  have hpos : ttl.toNat ≠ 0 := fun h => httl (UInt8.toNat_inj.mp h)
  have hone : (1 : UInt8) ≤ ttl := UInt8.le_iff_toNat_le.mpr (Nat.pos_of_ne_zero hpos)
  rw [UInt8.toNat_sub_of_le _ _ hone]
  exact Nat.sub_add_cancel (Nat.pos_of_ne_zero hpos)

namespace Activity

theorem keeps_look {f : Member → Activity β} :
    Keeps P d host post (look >>= f) σ ↔ Keeps P d host post (f (σ host)) σ := Iff.rfl

theorem keeps_store {m : Member} {f : Unit → Activity β} :
    Keeps P d host post (store m >>= f) σ ↔ P.moves σ (Function.update σ host m) ∧
      P.inv (Function.update σ host m) ∧ Keeps P d host post (f ()) (Function.update σ host m) := Iff.rfl

theorem keeps_query {target : Address} {q : Query} {f : Except Failure q.Answer → Activity β} :
    Keeps P d host post (query target q >>= f) σ ↔ (P.given σ → P.asks σ d host target q) ∧
      ∀ σ' r, P.moves σ σ' → P.inv σ' → P.answers σ' q r → Keeps P d host post (f r) σ' := Iff.rfl

end Activity

/-- What makes the lookups of `id` at `host` keep to a pact; `known` is what they rest on from their start on. -/
structure Pact.Finds (P : Pact ι) (d : Duty) (host : ι) (id : RingId) (ttl : UInt8) (known : (ι → Member) → Prop)
    (post : (ι → Member) → Except Failure Peer → Prop) : Prop where
  stable : ∀ {σ σ'}, known σ → P.moves σ σ' → P.inv σ' → known σ'
  found : ∀ {σ p}, P.inv σ → known σ → (σ host).view.findSuccessor id = .found p → post σ (.ok p)
  contact : ∀ {σ p}, P.inv σ → known σ → P.given σ → (σ host).view.findSuccessor id = .contact p (.findSuccessor id) →
    ttl ≠ 0 → P.asks σ d host p.address (.owner id (ttl - 1))
  answer : ∀ {σ p}, P.inv σ → P.answers σ (.owner id (ttl - 1)) (.ok (some p)) → post σ (.ok p)
  failure : ∀ {σ} e, P.inv σ → post σ (.error e)
  drop : ∀ {σ} x, P.inv σ → known σ →
    let σ' := Function.update σ host { σ host with view.fingers := (σ host).view.fingers.erase x }
    P.moves σ σ' ∧ P.inv σ'

namespace Activity

variable {id : RingId} {ttl : UInt8} {known : (ι → Member) → Prop} {post : (ι → Member) → Except Failure Peer → Prop}

theorem keeps_lookupFrom (h : P.Finds d host id ttl known post) (n : Nat) (last : Failure) (hi : P.inv σ)
    (hk : known σ) : (lookupFrom id ttl n last).Keeps P d host post σ := by
  induction n generalizing σ last with
  | zero => exact h.failure last hi
  | succ n ih =>
      rw [lookupFrom, keeps_look]
      cases hdecision : (σ host).view.findSuccessor id with
      | nothing => exact h.failure _ hi
      | found p => exact h.found hi hk hdecision
      | contact next errand =>
          obtain rfl := View.findSuccessor_errand hdecision
          change Keeps P d host post (ite _ _ _) σ
          split
          · exact h.failure _ hi
          · rename_i httl
            refine keeps_query.mpr ⟨fun hg => h.contact hi hk hg hdecision httl, fun σ' r hm hi' hr => ?_⟩
            have hk' := h.stable hk hm hi'
            cases r with
            | ok p =>
                cases p with
                | none => exact h.failure _ hi'
                | some p => exact h.answer hi' hr
            | error e =>
                change Keeps P d host post (ite _ _ _) σ'
                split
                · exact h.failure e hi'
                · obtain ⟨hm'', hi''⟩ := h.drop next.id hi' hk'
                  refine keeps_store.mpr ⟨hm'', hi'', ?_⟩
                  split
                  · exact h.failure e hi''
                  · exact ih e hi'' (h.stable hk' hm'' hi'')

theorem keeps_lookup (h : P.Finds d host id ttl known post) (hi : P.inv σ)
    (hk : (σ host).phase = .joined → known σ) : (lookup id ttl).Keeps P d host post σ := by
  rw [lookup, keeps_look]
  split
  · rename_i hphase
    exact keeps_lookupFrom h _ _ hi (hk hphase)
  · exact h.failure _ hi

/-- Whoever looks an owner up for its user looks it up as for anybody else, or is in no ring. -/
theorem keeps_findSuccessor (hlookup : (lookup id (σ host).settings.maxHops).Keeps P d host post σ)
    (herror : ∀ e, post σ (.error e)) : (findSuccessor id).Keeps P d host post σ := by
  refine keeps_look.mpr ?_
  split
  · exact hlookup
  · exact herror _

end Activity

/-- What a walk counts on: anybody may be asked for the next one, and whoever has been met stays so. -/
structure Pact.Walks (P : Pact ι) (d : Duty) (host : ι) (met : (ι → Member) → Peer → Prop) : Prop where
  refl : ∀ σ, P.moves σ σ
  trans : ∀ {σ σ' σ''}, P.moves σ σ' → P.moves σ' σ'' → P.moves σ σ''
  asks : ∀ {σ target id}, P.asks σ d host target (.owner id 0)
  stays : ∀ {σ σ' p}, met σ p → P.moves σ σ' → met σ' p
  meets : ∀ {σ id p}, P.answers σ (.owner id 0) (.ok (some p)) → met σ p

/-- Behind those it began with, a walk has only peers that it has met. -/
theorem Activity.keeps_walk {met : (ι → Member) → Peer → Prop} {self : RingId} {n : Nat} {current : Peer}
    {walked : List Peer} {post : (ι → Member) → List Peer → Prop} (h : P.Walks d host met) (hi : P.inv σ)
    (hwalked : ∀ q ∈ walked, met σ q)
    (hpost : ∀ σ' qs, P.moves σ σ' → P.inv σ' → (∀ q ∈ qs, met σ' q) → walked <+: qs → post σ' qs) :
    (walk self n current walked).Keeps P d host post σ := by
  induction n generalizing σ current walked with
  | zero => exact hpost σ walked (h.refl σ) hi hwalked (List.prefix_refl _)
  | succ n ih =>
      refine keeps_query.mpr ⟨fun _ => h.asks, fun σ' r hm hi' hr => ?_⟩
      have hwalked' : ∀ q ∈ walked, met σ' q := fun q hq => h.stays (hwalked q hq) hm
      have hstop : post σ' walked := hpost σ' walked hm hi' hwalked' (List.prefix_refl _)
      cases r with
      | error e => exact hstop
      | ok next =>
          cases next with
          | none => exact hstop
          | some next =>
              change Keeps P d host post (ite _ _ _) σ'
              split
              · refine ih hi' (fun q hq => ?_) fun σ'' qs hm' hi'' hqs hmore =>
                  hpost σ'' qs (h.trans hm hm') hi'' hqs ((List.prefix_append ..).trans hmore)
                rcases List.mem_append.mp hq with hq | hq
                · exact hwalked' q hq
                · rw [List.mem_singleton.mp hq]
                  exact h.meets hr
              · exact hstop

end ChordOverlay
