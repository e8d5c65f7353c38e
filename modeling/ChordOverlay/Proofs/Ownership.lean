import ChordOverlay.Proofs.Course
import ChordOverlay.Proofs.Pact

/-!
# The owner of a position

On a ring whose successors are true, whoever names an owner at all names the right one: the fingers only decide
who is asked, and a wrong or silent finger costs an attempt but never a wrong answer.
-/

namespace ChordOverlay

variable {ι : Type} {σ σ' : ι → Member} {k : ι} {id : RingId} {p q : Peer}

/-- Of all members `p` is the one at the smallest clockwise distance from `id`. -/
def Owns (σ : ι → Member) (id : RingId) (p : Peer) : Prop :=
  (∃ k, p = (σ k).self) ∧ ∀ j, id.distance p.id ≤ id.distance (σ j).self.id

/-- The member after `k`: no other lies before it, and it is `k` itself only if there is no other. -/
def Next (σ : ι → Member) (k : ι) (p : Peer) : Prop :=
  (∃ j, p = (σ j).self) ∧ (p = (σ k).self → ∀ j, j = k) ∧
    ∀ j, j ≠ k → (σ k).self.id.distance p.id ≤ (σ k).self.id.distance (σ j).self.id

/-- Members of one ring that all know the member after them; of their fingers nothing is said. -/
structure Ring (σ : ι → Member) : Prop where
  joined : ∀ k, (σ k).phase = .joined
  distinct : ∀ j k, (σ j).self.id = (σ k).self.id → j = k
  sound : ∀ k, (σ k).view.Sound
  next : ∀ k, Next σ k (σ k).view.successor

/-- Among fewer members the next one stays the next one, as long as it is there. -/
theorem Next.restrict {ι κ : Type} {σ : ι → Member} {seat : κ → ι} {j k : κ} (hseat : Function.Injective seat)
    (h : Next σ (seat j) (σ (seat k)).self) : Next (fun k => σ (seat k)) j (σ (seat k)).self :=
  ⟨⟨k, rfl⟩, fun heq i => hseat (h.2.1 heq (seat i)), fun i hi => h.2.2 (seat i) fun heq => hi (hseat heq)⟩

/-! ## One owner -/

theorem Owns.unique (hids : ∀ j k, (σ j).self.id = (σ k).self.id → j = k) (hp : Owns σ id p) (hq : Owns σ id q) :
    p = q := by
  obtain ⟨⟨j, rfl⟩, hj⟩ := hp
  obtain ⟨⟨k, rfl⟩, hk⟩ := hq
  rw [hids j k (RingId.distance_inj.mp (Nat.le_antisymm (hj k) (hk j)))]

theorem Owns.eq_self (hids : ∀ j k, (σ j).self.id = (σ k).self.id → j = k) (hp : Owns σ id p)
    (hk : (σ k).self.id = id) : p = (σ k).self :=
  hp.unique hids ⟨⟨k, rfl⟩, fun j => by rw [hk, RingId.distance_self]; exact Nat.zero_le _⟩

/-- Up to the member after `k` every position belongs to that member. -/
theorem Next.owns (hp : Next σ k p) (hid : id ≠ (σ k).self.id)
    (hle : p = (σ k).self ∨ (σ k).self.id.distance id ≤ (σ k).self.id.distance p.id) : Owns σ id p := by
  obtain ⟨hmember, halone, hnearest⟩ := hp
  refine ⟨hmember, fun j => ?_⟩
  rcases hle with heq | hle
  · rw [halone heq j, heq]
  have hway := RingId.distance_add hle
  by_cases hj : j = k
  · -- Back to `k` itself it is all the way round, which is more than up to `p`.
    subst hj
    have hpos : (σ j).self.id.distance (σ j).self.id < (σ j).self.id.distance id := by
      rw [RingId.distance_self]
      exact RingId.distance_pos.mpr (Ne.symm hid)
    have hround := RingId.distance_wrap hpos
    have hlt := RingId.distance_lt (σ j).self.id p.id
    rw [RingId.distance_self] at hround
    omega
  · have hbeyond := RingId.distance_add (Nat.le_trans hle (hnearest j hj))
    have := hnearest j hj
    omega

theorem Ring.found (h : Ring σ) (hfound : (σ k).view.findSuccessor id = .found p) : Owns σ id p := by
  rcases (h.sound k).of_found hfound with ⟨rfl, rfl⟩ | ⟨hne, rfl, hcase⟩
  · exact ⟨⟨k, rfl⟩, fun j => by rw [RingId.distance_self]; exact Nat.zero_le _⟩
  · exact (h.next k).owns hne (hcase.imp_left (h.sound k).successor_of_alone)

/-- Among the members, who is not at the position of `k` is who is not `k`. -/
theorem Ring.others_only (h : Ring σ) (k : ι) (hp : ∃ j, p = (σ j).self) :
    ((some p).filter fun q => q.id ≠ (σ k).self.id) = if p = (σ k).self then none else some p := by
  obtain ⟨j, rfl⟩ := hp
  by_cases hself : (σ j).self = (σ k).self
  · simp [hself]
  · have hid : (σ j).self.id ≠ (σ k).self.id := by
      intro hid
      rw [h.distinct j k hid] at hself
      exact hself rfl
    simp [hself, hid]

/-! ## Lookups side by side -/

namespace Ring

/-- All that changes are fingers. -/
structure Steady (σ σ' : ι → Member) : Prop where
  phase : ∀ k, (σ' k).phase = (σ k).phase
  self : ∀ k, (σ' k).view.self = (σ k).view.self
  successors : ∀ k, (σ' k).view.successors = (σ k).view.successors

theorem Steady.refl (σ : ι → Member) : Steady σ σ := ⟨fun _ => rfl, fun _ => rfl, fun _ => rfl⟩

theorem Steady.trans {σ'' : ι → Member} (h : Steady σ σ') (h' : Steady σ' σ'') : Steady σ σ'' :=
  ⟨fun k => (h'.phase k).trans (h.phase k), fun k => (h'.self k).trans (h.self k),
    fun k => (h'.successors k).trans (h.successors k)⟩

theorem Steady.owns (h : Steady σ σ') (hp : Owns σ id p) : Owns σ' id p := by
  have hself : ∀ k, (σ' k).self = (σ k).self := h.self
  unfold Owns
  simp only [hself]
  exact hp

theorem fingers [DecidableEq ι] (h : Ring σ) (k : ι) {fingers : Fingers} (hsound : fingers.Sound)
    (howner : fingers.owner = (σ k).view.self) :
    Steady σ (Function.update σ k { σ k with view.fingers := fingers }) ∧
      Ring (Function.update σ k { σ k with view.fingers := fingers }) := by
  generalize hσ' : Function.update σ k { σ k with view.fingers := fingers } = σ'
  have hat : ∀ j, σ' j = σ j ∨ j = k ∧ σ' j = { σ k with view.fingers := fingers } := by
    intro j
    rw [← hσ']
    by_cases hjk : j = k
    · subst hjk
      exact Or.inr ⟨rfl, Function.update_self _ _ _⟩
    · exact Or.inl (Function.update_of_ne hjk _ _)
  have hsteady : Steady σ σ' := by
    refine ⟨fun j => ?_, fun j => ?_, fun j => ?_⟩ <;> rcases hat j with heq | ⟨rfl, heq⟩ <;> rw [heq]
  have hself : ∀ j, (σ' j).self = (σ j).self := hsteady.self
  refine ⟨hsteady, fun j => (hsteady.phase j).trans (h.joined j), fun i j => ?_, fun j => ?_, fun j => ?_⟩
  · rw [hself, hself]
    exact h.distinct i j
  · have hv := h.sound j
    rcases hat j with heq | ⟨rfl, heq⟩ <;> rw [heq]
    · exact hv
    · exact ⟨hv.list, hv.list_owner, hsound, howner, hv.before⟩
  · have hsuccessor : (σ' j).view.successor = (σ j).view.successor :=
      congrArg Successors.nearest (hsteady.successors j)
    unfold Next
    rw [hsuccessor]
    simp only [hself]
    exact h.next j

/-- An owner is asked for, and an answer that names one names the right one. -/
def Answers (σ : ι → Member) : (q : Query) → Except Failure q.Answer → Prop
  | .owner id _, .ok (some p) => Owns σ id p
  | _, _ => True

/-- Whoever looks an owner up gets the owner, or a failure. -/
def Yields (σ : ι → Member) : (o : Operation) → o.Result → Prop
  | .lookup id _, .ok p => Owns σ id p
  | .findSuccessor id, .ok p => Owns σ id p
  | _, _ => True

/-- Members only look up owners, and only their fingers change. -/
def pact : Pact ι where
  given _ := True
  inv := Ring
  moves := Steady
  asks _ _ _ _ q := ∃ id ttl, q = .owner id ttl
  answers := Answers
  yields := Yields

/-- Members look up owners, for their users or to repair their fingers. -/
def Seek (_ : ι) : Operation → Prop
  | .lookup .. | .findSuccessor _ | .fixFingers => True
  | _ => False

variable [DecidableEq ι] {d : Duty} {ttl : UInt8} {post : (ι → Member) → Except Failure Peer → Prop}

theorem keeps_lookup (h : Ring σ) (hok : ∀ σ p, Owns σ id p → post σ (.ok p)) (herror : ∀ σ e, post σ (.error e)) :
    (Activity.lookup id ttl).Keeps pact d k post σ := by
  have hfinds : Pact.Finds pact d k id ttl (fun _ => True) post := {
    stable := fun _ _ _ => trivial
    found := fun hi _ hfound => hok _ _ (Ring.found hi hfound)
    contact := fun _ _ _ _ _ => ⟨_, _, rfl⟩
    answer := fun _ hr => hok _ _ hr
    failure := fun e _ => herror _ e
    drop := fun x hi _ => Ring.fingers hi k ((hi.sound k).table.erase x) (hi.sound k).table_owner }
  exact Activity.keeps_lookup hfinds h fun _ => trivial

theorem kept (net : Net ι) : (pact : Pact ι).Kept net Seek where
  refl := .refl
  trans := .trans
  asks_mono := fun hq _ _ => hq
  answers_mono := fun {_ _ q r} hr hm _ => by
    cases q with
    | owner id ttl =>
        cases r with
        | error e => trivial
        | ok a =>
            cases a with
            | none => trivial
            | some p => exact hm.owns hr
    | _ => trivial
  yields_mono := fun {_ _ o r} hr hm _ => by
    cases o with
    | lookup id ttl =>
        cases r with
        | error e => trivial
        | ok p => exact hm.owns hr
    | findSuccessor id =>
        cases r with
        | error e => trivial
        | ok p => exact hm.owns hr
    | _ => trivial
  fails := fun {_ q _ _} _ => by cases q <;> trivial
  serve := by
    rintro σ d host target _ k hi ⟨id, ttl, rfl⟩ _
    exact Activity.Keeps.bind (keeps_lookup hi (fun _ _ hp => hp) fun _ _ => trivial)
  start := by
    intro σ host o hseek _ a ha σ' _ hi
    cases o with
    | lookup id ttl =>
        obtain rfl := List.mem_singleton.mp ha
        exact keeps_lookup hi (fun _ _ hp => hp) fun _ _ => trivial
    | findSuccessor id =>
        obtain rfl := List.mem_singleton.mp ha
        exact Activity.keeps_findSuccessor (keeps_lookup hi (fun _ _ hp => hp) fun _ _ => trivial) fun _ => trivial
    | fixFingers =>
        obtain ⟨id, _, rfl⟩ := List.mem_map.mp ha
        exact keeps_lookup hi (fun _ _ _ => trivial) fun _ _ => trivial
    | _ => exact hseek.elim
  finish := by
    intro σ host o hseek _ σ' rs _ hi _
    cases o with
    | lookup id ttl =>
        have hv := hi.sound host
        exact hi.fingers host hv.table hv.table_owner
    | findSuccessor id =>
        have hv := hi.sound host
        exact hi.fingers host hv.table hv.table_owner
    | fixFingers =>
        obtain ⟨fingers, hsound, howner, heq⟩ := Gathering.fixFingers_finish (σ host) rs (hi.sound host)
        simp only [Operation.gathering, heq]
        exact hi.fingers host hsound howner
    | _ => exact hseek.elim

/-! ## What a lookup returns -/

/--
However lookups interleave, whichever requests fail and whatever fingers are dropped or repaired on the way: a
lookup that returns a peer returns the owner, which is the only one there is.
-/
theorem lookup_returns_owner (net : Net ι) (h : Ring σ) {w : World ι}
    (hrun : World.Run net Seek (fun _ => True) (.idle σ) w) {host : ι} {jobs : List (Strand ι (.own (.lookup id ttl)))}
    {finish : List (Except Failure Peer) → View → View}
    (hfront : ⟨host, .own (.lookup id ttl), jobs, finish⟩ ∈ w.fronts) (hjob : .run k (.done (.ok p)) ∈ jobs) :
    Owns σ id p ∧ (∀ q, Owns σ id q → q = p) ∧ ∀ j, (σ j).self.id = id → p = (σ j).self := by
  obtain ⟨hsteady, hkeeps, _⟩ := World.Run.keeps (P := pact) (kept net) hrun ⟨h, nofun⟩ trivial
  have howns : Owns w.members id p := (hkeeps.2 _ hfront).1 _ hjob w.members (.refl _) hkeeps.1
  have hself : ∀ k, (w.members k).self = (σ k).self := hsteady.self
  unfold Owns at howns
  simp only [hself] at howns
  have howns' : Owns σ id p := howns
  exact ⟨howns', fun q hq => hq.unique h.distinct howns', fun j hj => howns'.eq_self h.distinct hj⟩

/-- Three members, of which the first has a finger at a position where nobody is any more. -/
def trio (k : Fin 3) : Peer := ⟨.ofNat (1000 * (k.val + 1)), ⟨10, 0, 0, UInt8.ofNat k.val⟩, 7000⟩

/-- Somebody who has left the ring. -/
def gone : Peer := ⟨2400, ⟨10, 0, 0, 9⟩, 7000⟩

/-- A member of three, with a finger that has left. -/
def trioView (k : Fin 3) : View := (((View.fresh (trio k) 3).join (trio (k + 1))).1.setFinger 10 (some gone))

/-- A ring of three with stale fingers. -/
def trioMembers (k : Fin 3) : Member := ⟨{}, .joined, trioView k, []⟩

/-- Whoever has left refuses all connections. -/
def trioNet : Net (Fin 3) :=
  { Net.flawless trio with fails := fun target e => target = gone.address ∧ e = .network (.refused target) }

theorem ring_trio : Ring trioMembers where
  joined := by decide
  distinct := by decide
  sound := fun k => ((View.Sound.fresh (trio k) 3).join (trio (k + 1))).setFinger 10 (some gone)
  next := by
    unfold Next
    decide

/-- The first member asks where nobody is, is refused, drops the finger, and asks the second member. -/
theorem lookup_returns_owner_trio : Ring trioMembers ∧ ∃ w : World (Fin 3),
    World.Run trioNet Seek (fun _ => True) (.idle trioMembers) w ∧
      (⟨0, .own (.lookup 2500 32), [.run 0 (.done (.ok (trio 2)))], fun _ view => view⟩ ∈ w.fronts) ∧
      Owns trioMembers 2500 (trio 2) := by
  refine ⟨ring_trio, ?_⟩
  have hstart : World.Run trioNet Seek (fun _ => True) (.idle trioMembers)
      ⟨trioMembers, [⟨0, .own (.lookup 2500 32), [.run 0 (Activity.lookup 2500 32)], fun _ view => view⟩]⟩ :=
    .single ⟨.start trivial, trivial⟩
  have hdrive : ∀ n σ (t : Strand (Fin 3) (.own (.lookup 2500 32))), World.Run trioNet Seek (fun _ => True)
      ⟨σ, [⟨0, _, [t], fun _ view => view⟩]⟩ ⟨(t.drive trioNet n σ).1, [⟨0, _, [(t.drive trioNet n σ).2], _⟩]⟩ :=
    fun n σ t => .drive 0 _ n σ t fun _ _ => trivial
  have hasked := Relation.ReflTransGen.trans hstart (hdrive 1 _ _)
  have hrefused := Relation.ReflTransGen.tail hasked
    ⟨@World.Step.work _ _ _ _ _ _ [] [] _ _ [] [] _ _ _ _ (.refuse ⟨rfl, rfl⟩), trivial⟩
  have hreturned := Relation.ReflTransGen.trans hrefused (hdrive 6 _ _)
  refine ⟨_, hreturned, ?_, ?_⟩
  · exact List.mem_cons_self
  · exact (lookup_returns_owner trioNet ring_trio hreturned List.mem_cons_self List.mem_cons_self).1

end Ring

end ChordOverlay
