import ChordOverlay.Proofs.Pact

/-!
# Members change by their own operations only

Whatever a member is busy with, whatever it is answered and whoever fails: its view only ever changes by the
operations on views, and its settings not at all.
-/

namespace ChordOverlay

/-- The view has changed by operations on views, and anything else but the settings in any way. -/
structure Member.Evolves (m m' : Member) : Prop where
  view : m.view.Evolves m'.view
  settings : m'.settings = m.settings

namespace Member

variable {m m' m'' : Member}

theorem Evolves.refl (m : Member) : m.Evolves m := ⟨.refl _, rfl⟩

theorem Evolves.trans (h : m.Evolves m') (h' : m'.Evolves m'') : m.Evolves m'' :=
  ⟨h.view.trans h'.view, h'.settings.trans h.settings⟩

theorem Evolves.self (h : m.Evolves m') : m'.self = m.self := h.view.self

theorem Evolves.apply (m : Member) (op : View.Op) : m.Evolves { m with view := m.view.apply op } := ⟨.apply _ op, rfl⟩

theorem Evolves.phase (m : Member) (phase : Phase) (rounds : List Round) : m.Evolves { m with phase, rounds } :=
  ⟨.refl _, rfl⟩

theorem Evolves.transition {source target : Phase} (h : m.transition source target = .ok m') : m.Evolves m' := by
  unfold Member.transition at h
  split at h
  · cases h
    exact .phase m _ _
  · cases h

theorem Evolves.create (h : m.create = .ok m') : m.Evolves m' := by
  unfold Member.create at h
  cases htransition : m.transition .created .joined with
  | error e =>
      rw [htransition] at h
      cases h
  | ok n =>
      rw [htransition] at h
      cases h
      exact (Evolves.transition htransition).trans ((Evolves.apply n .create).trans (.phase _ _ _))

/-- One operation of the view, and nothing else. -/
def Turns (m m' : Member) : Prop := ∃ op : View.Op, m' = { m with view := m.view.apply op }

theorem Turns.evolves (h : m.Turns m') : m.Evolves m' := by
  obtain ⟨op, rfl⟩ := h
  exact .apply m op

theorem Turns.phase (h : m.Turns m') : m'.phase = m.phase ∧ m'.rounds = m.rounds := by
  obtain ⟨op, rfl⟩ := h
  exact ⟨rfl, rfl⟩

end Member

/-- How a member is watched while an activity goes on, and what is kept in mind of what others do meanwhile. -/
structure Watch (κ : Type) where
  member : κ → Member
  store : κ → Member → κ
  /-- What others can have made of the member when a query is answered. -/
  Meanwhile : κ → Type
  answer : (k : κ) → (target : Address) → (q : Query) → Except Failure q.Answer → Meanwhile k → κ

/-- Nothing is kept in mind but the member itself, and others may make anything of it. -/
def Watch.now : Watch Member where
  member m := m
  store _ m := m
  Meanwhile _ := Member
  answer _ _ _ _ m := m

namespace Activity

variable {α β κ : Type} {watch : Watch κ} {R R' : κ → Member → Prop} {k : κ} {m : Member}

/-- Every store of the activity, begun with `k` in mind, is one that `R` allows with what is in mind then. -/
def Within (watch : Watch κ) (R : κ → Member → Prop) : Activity α → κ → Prop
  | .done _, _ => True
  | .ask .look next, k => Within watch R (next (watch.member k)) k
  | .ask (.store m) next, k => R k m ∧ Within watch R (next ()) (watch.store k m)
  | .ask (.query target q) next, k => ∀ r x, Within watch R (next r) (watch.answer k target q r x)

theorem Within.mono {a : Activity α} (h : a.Within watch R k) (hR : ∀ k m, R k m → R' k m) : a.Within watch R' k := by
  induction a generalizing k with
  | done a => trivial
  | ask op next ih =>
      cases op with
      | look => exact ih _ h
      | store m => exact ⟨hR k m h.1, ih () h.2⟩
      | query target q => exact fun r x => ih r (h r x)

theorem Within.bind {a : Activity α} {f : α → Activity β} (ha : a.Within watch R k) (hf : ∀ x k, Within watch R (f x) k) :
    Within watch R (a.bind f) k := by
  induction a generalizing k with
  | done a => exact hf a k
  | ask op next ih =>
      cases op with
      | look => exact ih _ ha
      | store m => exact ⟨ha.1, ih () ha.2⟩
      | query target q => exact fun r x => ih r (ha r x)

/-- Every store of the activity, begun at `m`, is a change of the kind `R` of the member as it is at that time. -/
abbrev Stores (R : Member → Member → Prop) (a : Activity α) (m : Member) : Prop := a.Within .now R m

/-- Every store of the activity, begun at `m`, is a change of the member as it is at that time. -/
abbrev Orderly (a : Activity α) (m : Member) : Prop := a.Stores Member.Evolves m

theorem Stores.orderly {a : Activity α} (h : a.Stores Member.Turns m) : a.Orderly m :=
  h.mono fun _ _ => Member.Turns.evolves

theorem within_look {f : Member → Activity α} :
    Within watch R (look >>= f) k ↔ Within watch R (f (watch.member k)) k := Iff.rfl

theorem stores_look {R : Member → Member → Prop} {f : Member → Activity α} :
    Stores R (look >>= f) m ↔ Stores R (f m) m := within_look

theorem stores_store {R : Member → Member → Prop} {m' : Member} {f : Unit → Activity α} :
    Stores R (store m' >>= f) m ↔ R m m' ∧ Stores R (f ()) m' := Iff.rfl

theorem stores_query {R : Member → Member → Prop} {target : Address} {q : Query}
    {f : Except Failure q.Answer → Activity α} :
    Stores R (query target q >>= f) m ↔ ∀ r m', Stores R (f r) m' := Iff.rfl

theorem stores_updateView (op : View.Op) (m : Member) :
    (updateView fun view => view.apply op).Stores Member.Turns m :=
  ⟨⟨op, rfl⟩, trivial⟩

/-! ## Lookups and answers -/

/-- A lookup stores nothing but the member without a finger that it has just asked in vain. -/
theorem within_lookupFrom {id : RingId} {ttl : UInt8} (hdrop : ∀ (k : κ) (hop : Peer) (e : Failure) (x : watch.Meanwhile k),
      (watch.member k).view.findSuccessor id = .contact hop (.findSuccessor id) →
      let later := watch.answer k hop.address (.owner id (ttl - 1)) (.error e) x
      R later { watch.member later with view := (watch.member later).view.apply (.eraseFinger hop.id) })
    (n : Nat) (last : Failure) (k : κ) : (lookupFrom id ttl n last).Within watch R k := by
  induction n generalizing last k with
  | zero => trivial
  | succ n ih =>
      rw [lookupFrom, within_look]
      cases hdecision : (watch.member k).view.findSuccessor id with
      | nothing => trivial
      | found p => trivial
      | contact next errand =>
          obtain rfl := View.findSuccessor_errand hdecision
          change Within watch R (ite _ _ _) k
          split
          · trivial
          · intro r x
            cases r with
            | ok p => cases p <;> trivial
            | error e =>
                change Within watch R (ite _ _ _) _
                split
                · trivial
                · refine ⟨hdrop k next e x hdecision, ?_⟩
                  split
                  · trivial
                  · exact ih e _

theorem stores_lookupFrom (id : RingId) (ttl : UInt8) (n : Nat) (last : Failure) (m : Member) :
    (lookupFrom id ttl n last).Stores Member.Turns m :=
  within_lookupFrom (fun _ hop _ _ _ => ⟨.eraseFinger hop.id, rfl⟩) n last m

theorem stores_lookup (id : RingId) (ttl : UInt8) (m : Member) : (lookup id ttl).Stores Member.Turns m := by
  rw [lookup, stores_look]
  split
  · exact stores_lookupFrom _ _ _ _ m
  · trivial

theorem stores_findSuccessor (id : RingId) (m : Member) : (findSuccessor id).Stores Member.Turns m := by
  rw [findSuccessor, stores_look]
  split
  · exact stores_lookup _ _ m
  · trivial

theorem stores_answer (source : Ipv4) (message : Message) (m : Member) :
    (answer source message).Stores Member.Turns m := by
  cases message with
  | lookup id ttl => exact (stores_lookup id ttl m).bind fun r _ => by cases r <;> trivial
  | notice id port =>
      refine stores_look.mpr ?_
      split
      · exact ⟨⟨.notify ⟨id, source, port⟩, rfl⟩, trivial⟩
      · trivial
  | _ => trivial

theorem orderly_answer (source : Ipv4) (q : Query) (m : Member) : (answer source q.request).Orderly m :=
  (stores_answer source q.request m).orderly

/-! ## Upkeep -/

theorem stores_walk (self : RingId) (n : Nat) (current : Peer) (walked : List Peer) (m : Member) :
    (walk self n current walked).Stores Member.Turns m := by
  induction n generalizing current walked m with
  | zero => trivial
  | succ n ih =>
      refine stores_query.mpr fun r m' => ?_
      cases r with
      | error e => trivial
      | ok next =>
          cases next with
          | none => trivial
          | some next =>
              change Stores _ (ite _ _ _) m'
              split
              · exact ih _ _ m'
              · trivial

theorem stores_syncSuccessors (m : Member) : syncSuccessors.Stores Member.Turns m := by
  refine stores_look.mpr ?_
  change Stores _ (ite _ _ _) m
  split
  · trivial
  · exact (stores_walk _ _ _ _ m).bind fun walked m' => stores_updateView (.syncSuccessors walked) m'

theorem stores_askPredecessor (n m : Member) : (askPredecessor n).Stores Member.Turns m := by
  change Stores _ (ite _ _ _) m
  split
  · trivial
  · exact fun _ _ => trivial

theorem stores_stabilize (m : Member) : stabilize.Stores Member.Turns m := by
  refine stores_look.mpr ((stores_askPredecessor m m).bind fun r m' => ?_)
  cases r with
  | error e => exact (stores_updateView (.erase m.view.successor) m').bind fun _ _ => trivial
  | ok reported =>
      have hend : ∀ m, Stores Member.Turns
          (syncSuccessors >>= fun _ => pure (Except.ok () : Except Failure Unit)) m :=
        fun m => (stores_syncSuccessors m).bind fun _ _ => trivial
      refine stores_look.mpr ?_
      have hturns : m'.Turns { m' with view := m'.view.apply (.stabilize reported) } := ⟨.stabilize reported, rfl⟩
      cases hstabilize : m'.view.stabilize reported with
      | mk view decision =>
          rw [View.apply, hstabilize] at hturns
          refine stores_store.mpr ⟨hturns, ?_⟩
          cases decision with
          | nothing => exact hend _
          | found p => trivial
          | contact target errand =>
              cases errand with
              | findSuccessor id => trivial
              | notify me => exact stores_query.mpr fun _ m => hend m

theorem stores_ping (target : Address) (m : Member) : (ping target).Stores Member.Turns m :=
  stores_query.mpr fun r _ => by cases r <;> trivial

theorem stores_checkPredecessor (m : Member) : checkPredecessor.Stores Member.Turns m := by
  refine stores_look.mpr ?_
  cases m.view.predecessor with
  | none => trivial
  | some p =>
      change Stores _ (ite _ _ _) m
      split
      · trivial
      · refine (stores_ping p.address m).bind fun alive m' => ?_
        cases alive with
        | true => trivial
        | false => exact stores_updateView (.clearPredecessorIf p) m'

/-! ## Coming and going -/

theorem orderly_create (m : Member) : create.Orderly m := by
  refine stores_look.mpr ?_
  cases hcreate : m.create with
  | error e => trivial
  | ok m' => exact ⟨.create hcreate, trivial⟩

theorem orderly_leave (m : Member) : leave.Orderly m := ⟨.phase m _ _, trivial⟩

theorem stores_joinVia (bootstrap : Address) (m : Member) : (joinVia bootstrap).Stores Member.Turns m := by
  refine stores_look.mpr (stores_query.mpr fun r m' => ?_)
  cases r with
  | error e => trivial
  | ok p =>
      cases p with
      | none => trivial
      | some p =>
          change Stores _ (ite _ _ _) m'
          split
          · trivial
          · refine stores_look.mpr ?_
            have hturns : m'.Turns { m' with view := m'.view.apply (.join p) } := ⟨.join p, rfl⟩
            cases hjoin : m'.view.join p with
            | mk view decision =>
                rw [View.apply, hjoin] at hturns
                refine stores_store.mpr ⟨hturns, ?_⟩
                cases decision with
                | nothing => trivial
                | found p => trivial
                | contact next errand =>
                    cases errand with
                    | findSuccessor id => trivial
                    | notify me => exact stores_query.mpr fun _ _ => trivial

theorem orderly_join (bootstrap : Address) (m : Member) : (join bootstrap).Orderly m := by
  refine stores_look.mpr ?_
  cases htransition : m.transition .created .joining with
  | error e => trivial
  | ok m₁ =>
      refine stores_store.mpr ⟨.transition htransition, (stores_joinVia bootstrap m₁).orderly.bind fun r m₂ => ?_⟩
      cases r with
      | ok successor =>
          refine stores_look.mpr ?_
          cases htransition' : m₂.transition .joining .joined with
          | error e => trivial
          | ok m₃ => exact ⟨(Member.Evolves.transition htransition').trans (.phase m₃ _ _), trivial⟩
      | error e =>
          refine stores_look.mpr ?_
          cases htransition' : m₂.transition .joining .created with
          | error e => trivial
          | ok m₃ => exact ⟨.transition htransition', trivial⟩

end Activity

/-! ## Operations -/

namespace Operation

/-- What neither begins nor ends a membership. -/
def IsUpkeep : Operation → Prop
  | .create | .join _ | .leave => False
  | _ => True

theorem mem_solo {α : Type} {a b : Activity α} (h : b ∈ (Gathering.solo a).jobs) : b = a := List.mem_singleton.mp h

theorem stores_jobs {o : Operation} (ho : o.IsUpkeep) (n m : Member) :
    ∀ a ∈ (o.gathering n).jobs, Activity.Stores Member.Turns a m := by
  intro a ha
  cases o with
  | create => cases ho
  | join bootstrap => cases ho
  | leave => cases ho
  | touch op => exact mem_solo ha ▸ Activity.stores_updateView op m
  | lookup id ttl => exact mem_solo ha ▸ Activity.stores_lookup id ttl m
  | findSuccessor id => exact mem_solo ha ▸ Activity.stores_findSuccessor id m
  | stabilize => exact mem_solo ha ▸ Activity.stores_stabilize m
  | syncSuccessors => exact mem_solo ha ▸ Activity.stores_syncSuccessors m
  | checkPredecessor => exact mem_solo ha ▸ Activity.stores_checkPredecessor m
  | fixFingers =>
      obtain ⟨id, _, rfl⟩ := List.mem_map.mp ha
      exact Activity.stores_lookup _ _ m
  | checkSuccessors =>
      obtain ⟨p, _, rfl⟩ := List.mem_map.mp ha
      exact Activity.stores_ping _ m

theorem orderly_jobs (o : Operation) (n m : Member) : ∀ a ∈ (o.gathering n).jobs, Activity.Orderly a m := by
  intro a ha
  cases o with
  | create => exact mem_solo ha ▸ Activity.orderly_create m
  | join bootstrap => exact mem_solo ha ▸ Activity.orderly_join bootstrap m
  | leave => exact mem_solo ha ▸ Activity.orderly_leave m
  | _ => exact (stores_jobs (by trivial) n m a ha).orderly

theorem evolves_foldl {β : Type} {f : View → β → View} (hf : ∀ (v : View) b, v.Evolves (f v b)) (bs : List β) (v : View) :
    v.Evolves (bs.foldl f v) := by
  induction bs generalizing v with
  | nil => exact .refl v
  | cons b bs ih => exact (hf v b).trans (ih _)

theorem evolves_finish (o : Operation) (n : Member) (rs : List o.Result) (v : View) :
    v.Evolves ((o.gathering n).finish rs v) := by
  cases o with
  | fixFingers =>
      refine evolves_foldl (fun v result => ?_) rs.zipIdx v
      obtain ⟨r, slot⟩ := result
      cases r with
      | error e => exact .refl v
      | ok p => exact .apply v (.setFinger slot (some p))
  | checkSuccessors =>
      refine evolves_foldl (fun v pair => ?_) (n.view.successors.peers.zip rs) v
      obtain ⟨p, alive⟩ := pair
      cases alive with
      | true => exact .refl v
      | false => exact .apply v (.erase p)
  | _ => exact .refl v

end Operation

/-! ## Runs -/

variable {ι : Type} [DecidableEq ι] {σ σ' : ι → Member}

/-- Every member has changed by its own operations only. -/
def Evolves (σ σ' : ι → Member) : Prop := ∀ k, (σ k).Evolves (σ' k)

omit [DecidableEq ι] in
theorem Evolves.refl (σ : ι → Member) : Evolves σ σ := fun k => .refl (σ k)

omit [DecidableEq ι] in
theorem Evolves.trans {σ'' : ι → Member} (h : Evolves σ σ') (h' : Evolves σ' σ'') : Evolves σ σ'' :=
  fun k => (h k).trans (h' k)

theorem Evolves.update {k : ι} {m : Member} (h : (σ k).Evolves m) : Evolves σ (Function.update σ k m) :=
  (Function.forall_update_iff σ fun j m => (σ j).Evolves m).mpr ⟨h, fun j _ => .refl (σ j)⟩

/-- A pact that a duty at `host` cannot break as long as it changes the member by operations only. -/
structure Pact.Lax (P : Pact ι) (d : Duty) (host : ι) : Prop where
  asks : ∀ {σ} target q, P.given σ → P.asks σ d host target q
  store : ∀ {σ m}, P.inv σ → (σ host).Evolves m →
    P.moves σ (Function.update σ host m) ∧ P.inv (Function.update σ host m)

theorem Pact.Lax.keeps {P : Pact ι} {d : Duty} {host : ι} (h : P.Lax d host) {α : Type} {a : Activity α}
    {post : (ι → Member) → α → Prop} (hpost : ∀ σ x, post σ x) (ha : a.Orderly (σ host)) (hi : P.inv σ) :
    a.Keeps P d host post σ := by
  induction a generalizing σ with
  | done x => exact hpost σ x
  | ask op next ih =>
      cases op with
      | look => exact ih _ ha hi
      | store m =>
          obtain ⟨hm, hi'⟩ := h.store hi ha.1
          refine ⟨hm, hi', ih () ?_ hi'⟩
          rw [Function.update_self]
          exact ha.2
      | query target q => exact ⟨h.asks target q, fun σ' r _ hi' _ => ih r (ha r (σ' host)) hi'⟩

end ChordOverlay
