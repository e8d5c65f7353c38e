import ChordOverlay.Proofs.Attempts
import ChordOverlay.Proofs.HopBound
import Mathlib.Data.List.Chain

/-!
# Lookups run into no loops

Views may be as stale or wrong as operations can make them, and members may come, go and move at any time. As
long as whoever answers at an address has the position recorded with it, a lookup comes closer to its target with
every member that passes it on, and each passes on one hop less than it was granted.
-/

namespace ChordOverlay

namespace View

variable {v : View} {id : RingId} {p : Peer} {errand : Errand}

/-- Nothing but operations of the member has made the view. -/
def Reached (v : View) : Prop := ∃ bound, (View.fresh v.self bound).Evolves v

theorem Evolves.reached {bound : Nat} (h : (View.fresh p bound).Evolves v) : v.Reached := by
  refine ⟨bound, ?_⟩
  rw [h.self]
  exact h

theorem Reached.sound (h : v.Reached) : v.Sound := by
  obtain ⟨bound, hevolves⟩ := h
  exact hevolves.sound (.fresh v.self bound)

/-- Everybody that a view can name. -/
def recorded (v : View) : List Peer :=
  v.successors.peers ++ v.fingers.slots.filterMap (fun slot => slot) ++ v.predecessor.toList

/-- Only a recorded peer is contacted, and one that lies before the target. -/
theorem Sound.contact (hv : v.Sound) (h : v.findSuccessor id = .contact p errand) :
    p ∈ v.recorded ∧ RingId.Between v.self.id p.id id := by
  obtain ⟨hid, rfl, halone, hbetween⟩ := hv.of_contact h
  refine ⟨?_, hbetween⟩
  simp only [recorded, List.mem_append, List.mem_filterMap]
  rcases v.hop_mem id with hfinger | hsuccessor
  · have := (Fingers.closestPreceding?_eq_some (by rw [hv.table_owner]; exact hid) hfinger).1
    exact Or.inl (Or.inr ⟨_, this, rfl⟩)
  · rw [hsuccessor]
    refine Or.inl (Or.inl (successor_mem fun hnobody => ?_))
    rw [hv.isAlone_iff.mpr hnobody] at halone
    cases halone

end View

/-- Whoever answers at a recorded address has the position recorded with it. -/
def Honest {ι : Type} (net : Net ι) (σ : ι → Member) : Prop :=
  ∀ k, ∀ p ∈ (σ k).view.recorded, ∀ j, net.reach p.address = some j → (σ j).self.id = p.id

namespace Duty

/-- What is done to find the owner of a position. -/
def IsLookup : Duty → Prop
  | .own (.lookup ..) | .own (.findSuccessor _) | .own .fixFingers | .serve (.owner ..) => True
  | _ => False

/-- The position that a lookup of this duty at `m` is for, and the hops that it may take. -/
inductive Seeks (m : Member) : Duty → RingId → UInt8 → Prop
  | lookup (id : RingId) (ttl : UInt8) : Seeks m (.own (.lookup id ttl)) id ttl
  | findSuccessor (id : RingId) : Seeks m (.own (.findSuccessor id)) id m.settings.maxHops
  | fixFingers {id : RingId} (start : id ∈ m.view.fingerStarts) : Seeks m (.own .fixFingers) id m.settings.maxHops
  | serve (id : RingId) (ttl : UInt8) : Seeks m (.serve (.owner id ttl)) id ttl

variable {m m' : Member} {d : Duty} {id : RingId} {ttl : UInt8}

theorem Seeks.mono (h : d.Seeks m id ttl) (hm : m.Evolves m') : d.Seeks m' id ttl := by
  cases h with
  | lookup => exact .lookup id ttl
  | findSuccessor =>
      rw [← hm.settings]
      exact .findSuccessor id
  | fixFingers start =>
      rw [← hm.settings]
      refine .fixFingers ?_
      rw [View.fingerStarts, hm.view.self]
      exact start
  | serve => exact .serve id ttl

theorem IsLookup.seeks (h : d.IsLookup) (m : Member) : ∃ id ttl, d.Seeks m id ttl := by
  cases d with
  | own o =>
      cases o with
      | lookup id ttl => exact ⟨id, ttl, .lookup id ttl⟩
      | findSuccessor id => exact ⟨id, _, .findSuccessor id⟩
      | fixFingers => exact ⟨_, _, .fixFingers (List.mem_map_of_mem (List.mem_range.mpr (by decide : 0 < RingId.bits)))⟩
      | _ => cases h
  | serve q =>
      cases q with
      | owner id ttl => exact ⟨id, ttl, .serve id ttl⟩
      | _ => cases h

end Duty

namespace Forwarding

variable {ι : Type} {net : Net ι} {σ σ' : ι → Member} {k : ι} {d : Duty} {id : RingId} {ttl : UInt8}
  {target : Address} {q : Query}

/-! ## One request -/

/-- The request goes closer to `id`, with one hop less than `ttl`. -/
def Onward (net : Net ι) (σ : ι → Member) (host : ι) (id : RingId) (ttl : UInt8) (target : Address) (q : Query) : Prop :=
  ttl ≠ 0 ∧ q = .owner id (ttl - 1) ∧
    ∀ k, net.reach target = some k → RingId.Between (σ host).self.id (σ k).self.id id

theorem Onward.mono (h : Onward net σ k id ttl target q) (hm : Evolves σ σ') : Onward net σ' k id ttl target q := by
  refine ⟨h.1, h.2.1, fun j hj => ?_⟩
  rw [(hm k).self, (hm j).self]
  exact h.2.2 j hj

/-- Whatever members do, a lookup of theirs sends its requests onward. -/
def pact (net : Net ι) : Pact ι where
  given := Honest net
  inv σ := ∀ k, (σ k).view.Sound
  moves := Evolves
  asks σ d host target q := d.IsLookup → ∃ id ttl, d.Seeks (σ host) id ttl ∧ Onward net σ host id ttl target q
  answers _ _ _ := True
  yields _ _ _ := True

theorem results (σ : ι → Member) (d : Duty) (r : d.Result) : (pact net).results σ d r := by
  cases d with
  | own o => trivial
  | serve q => cases r <;> trivial

theorem sound_of_evolves (hi : (pact net).inv σ) (hm : Evolves σ σ') : (pact net).inv σ' :=
  fun k => (hm k).view.sound (hi k)

variable [DecidableEq ι]

theorem store {m : Member} (hi : (pact net).inv σ) (hm : (σ k).Evolves m) :
    (pact net).moves σ (Function.update σ k m) ∧ (pact net).inv (Function.update σ k m) :=
  ⟨.update hm, sound_of_evolves hi (.update hm)⟩

theorem keeps_other (hd : ¬ d.IsLookup) (hi : (pact net).inv σ) {α : Type} {a : Activity α}
    {post : (ι → Member) → α → Prop} (hpost : ∀ σ x, post σ x) (ha : a.Orderly (σ k)) :
    a.Keeps (pact net) d k post σ := by
  have hlax : (pact net).Lax d k := ⟨fun _ _ _ h => absurd h hd, store⟩
  exact hlax.keeps hpost ha hi

theorem keeps_lookup (hi : (pact net).inv σ) (hseeks : d.Seeks (σ k) id ttl)
    {post : (ι → Member) → Except Failure Peer → Prop} (hpost : ∀ σ r, post σ r) :
    (Activity.lookup id ttl).Keeps (pact net) d k post σ := by
  have hfinds : Pact.Finds (pact net) d k id ttl (fun σ => d.Seeks (σ k) id ttl) post := {
    stable := fun hseeks hm _ => hseeks.mono (hm k)
    found := fun _ _ _ => hpost _ _
    contact := fun hi hseeks hg hcontact httl _ => by
      obtain ⟨hrecorded, hbetween⟩ := (hi k).contact hcontact
      refine ⟨id, ttl, hseeks, httl, rfl, fun j hj => ?_⟩
      rw [hg k _ hrecorded j hj]
      exact hbetween
    answer := fun _ _ => hpost _ _
    failure := fun _ _ => hpost _ _
    drop := fun x hi _ => store hi (.apply _ (.eraseFinger x)) }
  exact Activity.keeps_lookup hfinds hi fun _ => hseeks

theorem kept (net : Net ι) : (pact net).Kept net fun _ _ => True where
  refl := Evolves.refl
  trans := Evolves.trans
  asks_mono := fun hasks hm _ hlookup => by
    obtain ⟨id, ttl, hseeks, honward⟩ := hasks hlookup
    exact ⟨id, ttl, hseeks.mono (hm _), honward.mono hm⟩
  answers_mono := fun _ _ _ => trivial
  yields_mono := fun _ _ _ => trivial
  fails := fun _ => trivial
  serve := fun {σ d host target q k} hi _ _ => by
    cases q with
    | owner id ttl =>
        exact Activity.Keeps.bind (keeps_lookup hi (.serve id ttl) fun σ r => by cases r <;> trivial)
    | predecessor asker => exact keeps_other (by exact fun h => h) hi (results · _) (Activity.orderly_answer _ _ _)
    | alive => exact keeps_other (by exact fun h => h) hi (results · _) (Activity.orderly_answer _ _ _)
    | notify id port => exact keeps_other (by exact fun h => h) hi (results · _) (Activity.orderly_answer _ _ _)
  start := fun {σ host o} _ _ a ha σ' hm hi' => by
    have horderly := Operation.orderly_jobs o (σ host) (σ' host) a ha
    cases o with
    | lookup id ttl =>
        rw [List.mem_singleton.mp ha]
        exact keeps_lookup hi' (.lookup id ttl) fun _ _ => trivial
    | findSuccessor id =>
        rw [List.mem_singleton.mp ha]
        exact Activity.keeps_findSuccessor (keeps_lookup hi' (.findSuccessor id) fun _ _ => trivial) fun _ => trivial
    | fixFingers =>
        obtain ⟨id, hid, rfl⟩ := List.mem_map.mp ha
        rw [← (hm host).settings]
        refine keeps_lookup hi' (.fixFingers ?_) fun _ _ => trivial
        rw [View.fingerStarts, (hm host).view.self]
        exact hid
    | _ => exact keeps_other (by exact fun h => h) hi' (fun _ _ => trivial) horderly
  finish := fun {σ host o} _ _ σ' rs _ hi' _ => store hi' ⟨Operation.evolves_finish o _ rs _, rfl⟩

end Forwarding

/-! ## Requests passed on and on -/

namespace Strand

variable {ι : Type} {net : Net ι} {σ : ι → Member} {d d' : Duty} {id : RingId} {ttl : UInt8}

/-- Who is at work, from the one who began on. -/
def hosts : {d : Duty} → Strand ι d → List ι
  | _, .run host _ => [host]
  | _, .wait host _ _ _ callee => host :: hosts callee

/-- The requests without an answer, from the first one on. -/
def requests : {d : Duty} → Strand ι d → List Query
  | _, .run _ _ => []
  | _, .wait _ _ q _ callee => q :: requests callee

/-- The strand itself, or what is done on its behalf. -/
inductive Within : {d d' : Duty} → Strand ι d → Strand ι d' → Prop
  | refl {d : Duty} (t : Strand ι d) : Within t t
  | callee {d d' : Duty} {host : ι} {target : Address} {q : Query} {next : Except Failure q.Answer → Activity d'.Result}
      {t : Strand ι d} {callee : Strand ι (.serve q)} (inner : Within t callee) :
      Within t (.wait host target q next callee : Strand ι d')

/-- A lookup of `id` with `ttl` hops that goes round no loop, and does not go on for longer than it may. -/
structure Straight (σ : ι → Member) (id : RingId) (ttl : UInt8) (t : Strand ι d) : Prop where
  onward : t.hosts.IsChain fun j k => RingId.Between (σ j).self.id (σ k).self.id id
  closer : (t.hosts.map fun k => (σ k).self.id.distance id).Pairwise fun m n => n < m
  distinct : (t.hosts.map fun k => (σ k).self.id).Nodup
  granted : ∀ (i : Nat) (q : Query), t.requests[i]? = some q →
    ∃ left, q = .owner id left ∧ left.toNat + (i + 1) = ttl.toNat
  bounded : t.requests.length ≤ ttl.toNat

theorem hosts_eq_cons (t : Strand ι d) : ∃ rest, t.hosts = t.host :: rest := by
  cases t with
  | run host rest => exact ⟨[], rfl⟩
  | wait host target q next callee => exact ⟨callee.hosts, rfl⟩

theorem Straight.of_onward {t : Strand ι d}
    (honward : t.hosts.IsChain fun j k => RingId.Between (σ j).self.id (σ k).self.id id)
    (hgranted : ∀ (i : Nat) (q : Query), t.requests[i]? = some q →
      ∃ left, q = .owner id left ∧ left.toNat + (i + 1) = ttl.toNat) : t.Straight σ id ttl := by
  have hcloser : (t.hosts.map fun k => (σ k).self.id.distance id).Pairwise fun m n => n < m := by
    have hchain : (t.hosts.map fun k => (σ k).self.id.distance id).IsChain fun m n => n < m :=
      (List.isChain_map _).mpr (honward.imp fun _ _ h => h.distance_lt)
    have : Trans (fun m n : Nat => n < m) (fun m n => n < m) (fun m n => n < m) := ⟨fun h h' => Nat.lt_trans h' h⟩
    exact hchain.pairwise
  refine ⟨honward, hcloser, ?_, hgranted, ?_⟩
  · refine List.pairwise_map.mpr ((List.pairwise_map.mp hcloser).imp fun {j k} hlt heq => ?_)
    rw [heq] at hlt
    exact Nat.lt_irrefl _ hlt
  · cases hlast : t.requests.length with
    | zero => exact Nat.zero_le _
    | succ n =>
        have hn : n < t.requests.length := by omega
        obtain ⟨left, _, hleft⟩ := hgranted n _ (List.getElem?_eq_getElem hn)
        omega

variable [DecidableEq ι]

theorem Keeps.within {P : Pact ι} {t : Strand ι d} {t' : Strand ι d'} (h : t.Within t') (ht : t'.Keeps P net σ) :
    t.Keeps P net σ := by
  induction h with
  | refl => exact ht
  | callee inner ih => exact ih ht.2.2.1

theorem straight {t : Strand ι d} (ht : t.Keeps (Forwarding.pact net) net σ) (hd : d.IsLookup) :
    ∃ id ttl, d.Seeks (σ t.host) id ttl ∧ t.Straight σ id ttl := by
  induction t with
  | run host rest =>
      obtain ⟨id, ttl, hseeks⟩ := hd.seeks (σ host)
      exact ⟨id, ttl, hseeks, .of_onward (List.isChain_singleton _) nofun⟩
  | wait host target q next callee ih =>
      obtain ⟨hasks, hreach, hcallee, _⟩ := ht
      obtain ⟨id, ttl, hseeks, httl, rfl, honward⟩ := hasks hd
      -- The callee seeks what it was asked for, so its own chain goes on with one hop less.
      obtain ⟨id', left, hseeks', hrest⟩ := ih hcallee trivial
      cases hseeks'
      have hleft := hops_left httl
      refine ⟨id, ttl, hseeks, .of_onward ?_ fun i q hi => ?_⟩
      · obtain ⟨rest, hhosts⟩ := callee.hosts_eq_cons
        rw [hosts, hhosts, List.isChain_cons_cons, ← hhosts]
        exact ⟨honward _ hreach, hrest.onward⟩
      · cases i with
        | zero =>
            cases hi
            exact ⟨_, rfl, hleft⟩
        | succ i =>
            obtain ⟨left, hq, hcount⟩ := hrest.granted i q hi
            exact ⟨left, hq, by omega⟩

end Strand

namespace Forwarding

variable {ι : Type} [DecidableEq ι] {net : Net ι} {σ : ι → Member}

/--
In whatever state operations have brought the members, and whatever they do from there on at the same time: a
lookup is passed on closer and closer to its target, at most as often as it may, and over no member twice. And one
member, as long as nothing brings back what its lookup has dropped, asks nobody twice for it.
-/
theorem lookups_run_straight (hreached : ∀ k, (σ k).view.Reached) (hhonest : Honest net σ) {w : World ι}
    (hrun : World.Run net (fun _ _ => True) (Honest net) (.idle σ) w) :
    (∀ f ∈ w.fronts, ∀ t ∈ f.jobs, ∀ {d : Duty} (s : Strand ι d), s.Within t → d.IsLookup →
      ∃ id ttl, d.Seeks (w.members s.host) id ttl ∧ s.Straight w.members id ttl) ∧
      ∀ k id ttl es, (Activity.lookup id ttl).Makes (w.members k) es →
        Activity.Attempts (w.members k).self.id id ttl Activity.lookupAttempts es := by
  have hsound : (pact net).inv σ := fun k => (hreached k).sound
  obtain ⟨_, ⟨hi, hfronts⟩, _⟩ := World.Run.keeps (kept net) hrun ⟨hsound, nofun⟩ hhonest
  refine ⟨fun f hf t ht d s hwithin hd => ?_, fun k id ttl es hmakes => ?_⟩
  · exact Strand.straight (Strand.Keeps.within hwithin ((hfronts f hf).1 t ht)) hd
  · exact Activity.attempts_lookup (hi k) hmakes

/-- The lookup of a position in the ring of four, after `n` steps. -/
def fourLookup (k : Fin 4) (n : Nat) : (Fin 4 → Member) × Strand (Fin 4) (.own (.lookup 1800 Body.defaultHops)) :=
  (Strand.run k (Activity.lookup 1800 Body.defaultHops) :
    Strand (Fin 4) (.own (.lookup 1800 Body.defaultHops))).drive (.flawless Ideal.four) n Ideal.fourMembers

/-- Somebody at a position of choice. -/
def remote (id : RingId) (host : UInt8) : Peer := ⟨id, ⟨10, 1, 0, host⟩, 7000⟩

/-- A member with a successor at 1000 and fingers at 4000 and 5000, of whom nobody can be reached. -/
def remoteView : View :=
  [.create, .join (remote 1000 9), .setFinger 12 (some (remote 5000 5)), .setFinger 11 (some (remote 4000 6))].foldl
    View.apply (View.fresh (remote 0 1) 3)

/-- The finger at 5000 has failed and is dropped. -/
def droppedView : View := remoteView.apply (.eraseFinger 5000)

/-- While 4000 is asked, another operation sets the finger at 5000 again. -/
def restoredView : View := droppedView.apply (.setFinger 12 (some (remote 5000 5)))

/-- The view after the finger is dropped again. -/
def leftView : View := restoredView.apply (.eraseFinger 4000)

/-- A member with this view. -/
def remoteMember (v : View) : Member := ⟨{}, .joined, v, []⟩

/-- The requests of a lookup, with what the member knows before and after each. -/
def remoteExchanges : List Exchange :=
  [⟨remoteView, (remote 5000 5).address, .owner 6000 7, remoteView⟩,
    ⟨droppedView, (remote 4000 6).address, .owner 6000 7, restoredView⟩,
    ⟨leftView, (remote 5000 5).address, .owner 6000 7, leftView⟩]

theorem makes_remoteExchanges : (Activity.lookup 6000 8).Makes (remoteMember remoteView) remoteExchanges := by
  have hrestored : droppedView.Evolves restoredView := .apply droppedView (.setFinger 12 (some (remote 5000 5)))
  refine Activity.Makes.congr (a := Activity.lookupFrom 6000 8 3 (.noSuccessor 6000)) ?_ rfl
  refine Activity.makes_after_failure (n := remoteMember remoteView) (p := remote 5000 5) (f := .closedEarly)
    (by decide) (by decide) (.refl remoteView) (by decide) (by decide) ?_
  refine Activity.makes_after_failure (m := remoteMember droppedView) (n := remoteMember restoredView)
    (p := remote 4000 6) (f := .closedEarly) (by decide) (by decide) hrestored (by decide) (by decide) ?_
  exact Activity.makes_after_failure (m := remoteMember leftView) (n := remoteMember leftView)
    (p := remote 5000 5) (f := .closedEarly) (by decide) (by decide) (.refl leftView) (by decide) (by decide) (.nil _ _)

theorem reached_remoteView : remoteView.Reached := View.Evolves.reached (p := remote 0 1) ⟨_, rfl⟩

/-- A network in which every request fails. -/
def silent : Net Unit := ⟨fun _ => none, fun _ => (remote 0 1).ip, fun _ _ => True⟩

theorem honest_silent (σ : Unit → Member) : Honest silent σ := fun _ _ _ _ h => by cases h

/-- A lookup that is passed on twice, and another one that asks three times and the first member twice. -/
theorem lookups_run_straight_four : Honest (.flawless Ideal.four) Ideal.fourMembers ∧
    (fourLookup 0 4).2.hosts = [0, 2, 3] ∧ (fourLookup 0 4).2.Straight (fourLookup 0 4).1 1800 Body.defaultHops ∧
    (Activity.lookup 6000 8).Makes (remoteMember remoteView) remoteExchanges ∧
    Activity.Attempts 0 6000 8 Activity.lookupAttempts remoteExchanges := by
  have hreached : ∀ k, (Ideal.fourMembers k).view.Reached := by
    intro k
    have hjoined := View.Evolves.apply (View.fresh (Ideal.four k) 3) (.join (Ideal.four (k + 1)))
    exact (hjoined.trans (Operation.evolves_finish .fixFingers default _ _)).reached
  have hhonest : ∀ i ≤ 4, Honest (.flawless Ideal.four) (fourLookup 0 i).1 := by
    unfold Honest
    decide
  have hrun : World.Run (.flawless Ideal.four) (fun _ _ => True) (Honest (.flawless Ideal.four))
      (.idle Ideal.fourMembers) ⟨(fourLookup 0 4).1, [⟨0, _, [(fourLookup 0 4).2], fun _ view => view⟩]⟩ :=
    World.Run.begin 0 (.lookup 1800 Body.defaultHops) 4 trivial rfl hhonest
  obtain ⟨hlookups, _⟩ := lookups_run_straight hreached (hhonest 0 (Nat.zero_le 4)) hrun
  obtain ⟨id, ttl, hseeks, hstraight⟩ :=
    hlookups _ (List.mem_singleton_self _) _ (List.mem_singleton_self _) _ (.refl (fourLookup 0 4).2) trivial
  cases hseeks
  have hidle : World.Run silent (fun _ _ => True) (Honest silent) (.idle fun _ => remoteMember remoteView)
      (.idle fun _ => remoteMember remoteView) := .refl
  obtain ⟨_, hattempts⟩ := lookups_run_straight (fun _ => reached_remoteView) (honest_silent _) hidle
  exact ⟨hhonest 0 (Nat.zero_le 4), rfl, hstraight, makes_remoteExchanges,
    hattempts () 6000 8 remoteExchanges makes_remoteExchanges⟩

/-- Without that condition the members that one lookup asks need not be different. -/
theorem lookup_asks_again : ¬ ∀ (net : Net Unit) (σ : Unit → Member), (∀ k, (σ k).view.Reached) → Honest net σ →
    ∀ k id ttl es, (Activity.lookup id ttl).Makes (σ k) es → (es.map fun e => (e.before.hop id).id).Nodup := by
  intro h
  have hdistinct := h silent (fun _ => remoteMember remoteView) (fun _ => reached_remoteView) (honest_silent _) ()
    6000 8 remoteExchanges makes_remoteExchanges
  exact absurd hdistinct (by decide)

end Forwarding

end ChordOverlay
