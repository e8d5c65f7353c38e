import ChordOverlay.Proofs.Deadlines

/-!
# What a lookup may still do

An answer is the last thing that a lookup hears, and so is silence; after any other failure it asks again. All it does to
its member is to drop the peer that has failed last.
-/

namespace ChordOverlay

/-! ## Entries of a view -/

namespace Fingers

variable {t : Fingers} {p : Peer} {i : Nat} {id : RingId}

/-- Only the slots that hold the position change, and nobody new comes in. -/
theorem get?_erase (t : Fingers) (id : RingId) (i : Nat) :
    (t.erase id).get? i = t.get? i ∨ ∃ p, t.get? i = some p ∧ p.id = id := by
  by_cases h : ∃ p, t.get? i = some p ∧ p.id = id
  · exact .inr h
  · exact .inl (get?_erase_of_ne fun p hp hid => h ⟨p, hp, hid⟩)

theorem get?_set (t : Fingers) (k : Nat) (r : Option Peer) (i : Nat) :
    (t.set k r).get? i = t.get? i ∨ (t.set k r).get? i = r.filter fun q => q.id ≠ t.owner.id := by
  simp only [get?, set, List.getElem?_set]
  split
  · split
    · exact .inr rfl
    · exact .inl (by simp_all)
  · exact .inl rfl

end Fingers

theorem View.mem_recorded {v : View} {p : Peer} : p ∈ v.recorded ↔
    p ∈ v.successors.peers ∨ (∃ i, v.fingers.get? i = some p) ∨ v.predecessor = some p := by
  simp only [recorded, List.mem_append, List.mem_filterMap, Option.mem_toList, or_assoc, ← Fingers.mem_slots]
  simp

namespace Timed

variable {ι : Type} {land : Terrain ι} {s : Settings} {k : ι} {m : Member} {p : Peer}

/-- The member without the finger at a position. -/
def dropped (m : Member) (id : RingId) : Member := { m with view := m.view.apply (.eraseFinger id) }

theorem Terrain.Fair.refill (h : land.Fair s k m) {v : View} (hv : v.Sound) (hself : v.self = m.view.self)
    (hsuccessors : v.successors = m.view.successors) (hpredecessor : v.predecessor = m.view.predecessor)
    (hentries : ∀ i p, v.fingers.get? i = some p → land.Apart p) : land.Fair s k { m with view := v } where
  settings := h.settings
  place := by
    rw [← h.place, Member.self, Member.self, hself]
  sound := hv
  self := by
    rw [Member.self, hself]
    exact h.self
  entries := fun p hp => by
    rw [View.mem_recorded] at hp
    rcases hp with hp | ⟨i, hp⟩ | hp
    · exact h.entries p (View.mem_recorded.mpr (.inl (hsuccessors ▸ hp)))
    · exact hentries i p hp
    · exact h.entries p (View.mem_recorded.mpr (.inr (.inr (hpredecessor ▸ hp))))

theorem Terrain.Fair.finger (h : land.Fair s k m) {i : Nat} (hp : m.view.fingers.get? i = some p) : land.Apart p :=
  h.entries p (View.mem_recorded.mpr (.inr (.inl ⟨i, hp⟩)))

theorem Terrain.Fair.dropped (h : land.Fair s k m) (id : RingId) : land.Fair s k (dropped m id) :=
  h.refill (h.sound.eraseFinger id) rfl rfl rfl fun i p hp => by
    obtain ⟨j, hj⟩ := Fingers.mem_slots.mp (Fingers.mem_erase (Fingers.mem_slots.mpr ⟨i, hp⟩)).1
    exact h.finger hj

theorem Terrain.Fair.successor (h : land.Fair s k m) : land.Apart m.view.successor := by
  by_cases hnobody : m.view.successors.peers = []
  · rw [h.sound.successor_of_alone (h.sound.isAlone_iff.mpr hnobody)]
    exact h.self
  · exact h.entries _ (View.mem_recorded.mpr (.inl (View.successor_mem hnobody)))

/-! ## What a lookup may still do -/

section Careful

variable {α β : Type} (land : Terrain ι) (s : Settings) (k : ι) (ttl : UInt8)

/--
What a lookup with `ttl` hops left does from here on. As long as it `asks`, it may put its question to a peer: an answer is
the last thing it hears, and so is a silence, while after any other failure it may ask again. It drops the peer to blame for
the last failure, if anybody. And what it ends with meets `post`.
-/
def Careful (post : α → Prop) : Bool → Option Peer → Activity α → Member → Prop
  | _, _, .done a, _ => post a
  | asks, blame, .ask .look next, m => Careful post asks blame (next m) m
  | asks, blame, .ask (.store m') next, m => (∃ p ∈ blame, m' = dropped m p.id) ∧ Careful post asks none (next ()) m'
  | asks, _, .ask (.query target (.owner _ hops)) next, _ => asks = true ∧ ttl ≠ 0 ∧ hops = ttl - 1 ∧
      ∃ p : Peer, target = p.address ∧ land.Apart p ∧ ∀ m, land.Fair s k m →
        (∀ owner : Option Peer, (∀ p ∈ owner, land.Apart p) → Careful post false none (next (.ok owner)) m) ∧
          Careful post false (some p) (next (.error .timedOut)) m ∧
          ∀ e, e ≠ .timedOut → Careful post true (some p) (next (.error e)) m
  | _, _, .ask (.query _ _) _, _ => False

variable {land s k ttl} {post : α → Prop} {asks : Bool} {blame : Option Peer} {m : Member}

theorem Careful.bind {post' : β → Prop} {a : Activity α} {f : α → Activity β} (ha : Careful land s k ttl post asks blame a m)
    (hf : ∀ x, post x → ∃ y, f x = .done y ∧ post' y) : Careful land s k ttl post' asks blame (a.bind f) m := by
  induction a generalizing asks blame m with
  | done x =>
      obtain ⟨y, hy, hpost⟩ := hf x ha
      rw [Program.bind, hy]
      exact hpost
  | ask op next ih =>
      cases op with
      | look => exact ih m ha
      | store m' => exact ⟨ha.1, ih () ha.2⟩
      | query target q =>
          cases q with
          | owner id hops =>
              obtain ⟨hasks, httl, hhops, p, htarget, hp, hnext⟩ := ha
              refine ⟨hasks, httl, hhops, p, htarget, hp, fun m hm => ?_⟩
              obtain ⟨hanswer, hsilence, hfailure⟩ := hnext m hm
              exact ⟨fun owner howner => ih _ (hanswer owner howner), ih _ hsilence, fun e he => ih _ (hfailure e he)⟩
          | _ => cases ha

/-- The next stretch drops the peer to blame, or nobody, and what is left stands before a request or at its end. -/
theorem Careful.proceed {a : Activity α} (ha : Careful land s k ttl post asks blame a m) :
    (((a.proceed m).2 = m ∧ Careful land s k ttl post asks blame (a.proceed m).1 (a.proceed m).2) ∨
      ∃ p ∈ blame, (a.proceed m).2 = dropped m p.id ∧ Careful land s k ttl post asks none (a.proceed m).1 (a.proceed m).2) := by
  induction a generalizing blame m with
  | done x => exact .inl ⟨rfl, ha⟩
  | ask op next ih =>
      cases op with
      | look => exact ih m ha
      | store m' =>
          -- Once a peer has been dropped nobody is to blame, so the rest of the stretch drops nobody else.
          obtain ⟨⟨p, hp, rfl⟩, hnext⟩ := ha
          obtain ⟨hsame, hrest⟩ | ⟨_, hnobody, _⟩ := ih () hnext
          · exact .inr ⟨p, hp, hsame, hrest⟩
          · cases hnobody
      | query target q => exact .inl ⟨rfl, ha⟩

/-- What waits does so whatever becomes of its member. -/
theorem Careful.waiting {a : Activity α} (ha : Careful land s k ttl post asks blame a m) (hwaits : a.waits = true)
    (m' : Member) : Careful land s k ttl post asks blame a m' := by
  cases a with
  | done x => exact ha
  | ask op next =>
      cases op with
      | look => cases hwaits
      | store m => cases hwaits
      | query target q =>
          cases q with
          | owner id hops => exact ha
          | _ => cases ha

/-- A question that a lookup may put, and how it goes on from there. -/
inductive Question (land : Terrain ι) (s : Settings) (k : ι) (ttl : UInt8) (post : α → Prop) :
    Address → (q : Query) → (Except Failure q.Answer → Activity α) → Prop
  | owner {id : RingId} {next : Except Failure (Option Peer) → Activity α} {p : Peer} (left : ttl ≠ 0)
      (entry : land.Apart p)
      (answer : ∀ m, land.Fair s k m → ∀ owner, (∀ p ∈ owner, land.Apart p) →
        Careful land s k ttl post false none (next (.ok owner)) m)
      (silence : ∀ m, land.Fair s k m → Careful land s k ttl post false (some p) (next (.error .timedOut)) m)
      (failure : ∀ m, land.Fair s k m → ∀ e, e ≠ .timedOut → Careful land s k ttl post true (some p) (next (.error e)) m) :
      Question land s k ttl post p.address (.owner id (ttl - 1)) next

theorem Careful.question {target : Address} {q : Query} {next : Except Failure q.Answer → Activity α}
    (h : Careful land s k ttl post asks blame (.ask (.query target q) next) m) :
    asks = true ∧ Question land s k ttl post target q next := by
  cases q with
  | owner id hops =>
      obtain ⟨hasks, httl, rfl, p, rfl, hp, hnext⟩ := h
      exact ⟨hasks, .owner httl hp (fun m hm => (hnext m hm).1) (fun m hm => (hnext m hm).2.1) fun m hm => (hnext m hm).2.2⟩
  | _ => cases h

theorem careful_look {f : Member → Activity α} :
    Careful land s k ttl post asks blame (Activity.look >>= f) m ↔ Careful land s k ttl post asks blame (f m) m := Iff.rfl

theorem careful_query {p : Peer} {id : RingId} {f : Except Failure (Option Peer) → Activity α} (httl : ttl ≠ 0)
    (hp : land.Apart p)
    (hanswer : ∀ m, land.Fair s k m → ∀ owner, (∀ p ∈ owner, land.Apart p) →
      Careful land s k ttl post false none (f (.ok owner)) m)
    (hfailure : ∀ m, land.Fair s k m → ∀ e, Careful land s k ttl post (e ≠ .timedOut) (some p) (f (.error e)) m) :
    Careful land s k ttl post true blame (Activity.query p.address (.owner id (ttl - 1)) >>= f) m :=
  ⟨rfl, httl, rfl, p, rfl, hp, fun m hm => ⟨hanswer m hm, hfailure m hm .timedOut,
    fun e he => by
      have := hfailure m hm e
      rwa [decide_eq_true he] at this⟩⟩

end Careful

/-- What the work on a duty may end with: only tidy entries are named. -/
def Clean (land : Terrain ι) : (d : Duty) → d.Result → Prop
  | .own (.lookup ..), r | .own (.findSuccessor _), r | .own .fixFingers, r => ∀ p, r = .ok p → land.Apart p
  | .serve (.owner ..), r => ∃ owner, r = some (.lookupReport owner) ∧ ∀ p ∈ owner, land.Apart p
  | _, _ => True

section Lookups

variable {id : RingId} {ttl : UInt8} {blame : Option Peer}

theorem careful_lookupFrom (n : Nat) (last : Failure) (hm : land.Fair s k m) :
    Careful land s k ttl (fun r => ∀ p, r = .ok p → land.Apart p) true blame (Activity.lookupFrom id ttl n last) m := by
  induction n generalizing last blame m with
  | zero => rintro _ ⟨⟩
  | succ n ih =>
      rw [Activity.lookupFrom, careful_look]
      cases hdecision : m.view.findSuccessor id with
      | nothing => rintro _ ⟨⟩
      | found p =>
          rintro _ ⟨⟩
          rcases hm.sound.of_found hdecision with ⟨_, rfl⟩ | ⟨_, rfl, _⟩
          · exact hm.self
          · exact hm.successor
      | contact hop errand =>
          obtain rfl := View.findSuccessor_errand hdecision
          change Careful land s k ttl _ _ _ (ite _ _ _) m
          split
          · rintro _ ⟨⟩
          · rename_i httl
            refine careful_query httl (hm.entries hop (hm.sound.contact hdecision).1) (fun m' _ owner howner => ?_)
              fun m' hm' e => ?_
            · cases owner with
              | none => rintro _ ⟨⟩
              | some p =>
                  rintro _ ⟨⟩
                  exact howner p rfl
            · change Careful land s k ttl _ _ _ (ite _ _ _) m'
              split
              · rintro _ ⟨⟩
              · refine ⟨⟨hop, rfl, rfl⟩, ?_⟩
                change Careful land s k ttl _ _ _ (ite _ _ _) _
                -- The hop has been dropped; only a failure that is no silence lets the lookup ask again.
                split
                · rintro _ ⟨⟩
                · rename_i he
                  rw [decide_eq_true he]
                  exact ih e (hm'.dropped hop.id)

theorem careful_lookup (hm : land.Fair s k m) :
    Careful land s k ttl (fun r => ∀ p, r = .ok p → land.Apart p) true blame (Activity.lookup id ttl) m := by
  rw [Activity.lookup, careful_look]
  split
  · exact careful_lookupFrom _ _ hm
  · rintro _ ⟨⟩

theorem careful_answer (source : Ipv4) (hm : land.Fair s k m) :
    Careful land s k ttl (Clean land (.serve (.owner id ttl))) true blame (Activity.answer source (.lookup id ttl)) m :=
  (careful_lookup hm).bind fun r hr => by
    cases r with
    | ok p => exact ⟨_, rfl, some p, rfl, fun q hq => Option.some.inj hq ▸ hr p rfl⟩
    | error e => exact ⟨_, rfl, none, rfl, by rintro _ ⟨⟩⟩

/-- The activities of an operation that looks owners up, with the hops that it grants. -/
theorem careful_jobs {o : Operation} (ho : (Duty.own o).IsLookup) (m : Member) (hm : land.Fair s k m) :
    ∃ ttl, ∀ a ∈ (o.gathering m).jobs, ∀ m', land.Fair s k m' → Careful land s k ttl (Clean land (.own o)) true none a m' := by
  cases o with
  | lookup id ttl =>
      refine ⟨ttl, fun a ha m' hm' => ?_⟩
      rw [List.mem_singleton.mp ha]
      exact careful_lookup hm'
  | findSuccessor id =>
      refine ⟨s.maxHops, fun a ha m' hm' => ?_⟩
      rw [List.mem_singleton.mp ha, Activity.findSuccessor, careful_look, hm'.settings]
      split
      · exact careful_lookup hm'
      · rintro _ ⟨⟩
  | fixFingers =>
      refine ⟨s.maxHops, fun a ha m' hm' => ?_⟩
      obtain ⟨start, _, rfl⟩ := List.mem_map.mp ha
      rw [hm.settings]
      exact careful_lookup hm'
  | _ => cases ho

end Lookups

end Timed

end ChordOverlay
