import ChordOverlay.Proofs.Alignment
import ChordOverlay.Proofs.HopBound
import ChordOverlay.Proofs.Stillness

/-!
# A true ring stays as it is

Where all lists, predecessors and fingers are true, every answer confirms what the asker knows. So all rounds and
lookups together, however they interleave, change nothing.
-/

namespace ChordOverlay

/-- A ring that is true in every respect, of members that answer each other. -/
structure Settled {ι : Type} [Fintype ι] (net : Net ι) (len : Nat) (σ : ι → Member) : Prop extends Aligned len σ where
  fingers : ∀ k i, i < RingId.bits → ∃ p, Owns σ ((σ k).self.id.fingerStart i) p ∧
    (σ k).view.fingers.get? i = if p = (σ k).self then none else some p
  reached : ∀ k, net.reach (σ k).self.address = some k
  answered : ∀ k e, ¬ net.fails (σ k).self.address e

namespace Settled

variable {ι : Type} {net : Net ι} {len : Nat} {σ : ι → Member} {j k : ι} {id : RingId} {ttl : UInt8} {p : Peer}

/-- Rounds and lookups; nobody comes or goes. -/
def May (_ : ι) : Operation → Prop
  | .stabilize | .syncSuccessors | .fixFingers | .checkPredecessor | .checkSuccessors | .lookup .. | .findSuccessor _ =>
      True
  | _ => False

/-! ## What is asked and answered -/

/-- Only its predecessor notifies a member. -/
def Asked (σ : ι → Member) (k : ι) : Query → Prop
  | .notify id _ => ∃ p, (σ k).view.predecessor = some p ∧ p.id = id ∧ id ≠ (σ k).self.id
  | _ => True

/-- An owner that is named is the right one, and one that is known is named. -/
def Names (σ : ι → Member) (k : ι) (id : RingId) (a : Option Peer) : Prop :=
  (∀ p, a = some p → Owns σ id p) ∧ ∀ p, (σ k).view.findSuccessor id = .found p → a = some p

/-- What an answer in a true ring is. -/
def Worth (σ : ι → Member) (k : ι) : (q : Query) → Except Failure q.Answer → Prop
  | .owner id _, r => ∃ a, r = .ok a ∧ Names σ k id a
  | .predecessor _, r => r = .ok (σ k).view.predecessor
  | .alive, r => r = .ok true
  | .notify .., r => ∃ accepted, r = .ok accepted

/-- What may be asked in a true ring, and what it is answered. -/
def calm (σ : ι → Member) : Calm ι := ⟨Asked σ, Worth σ⟩

variable [Fintype ι]

theorem exists_self (h : Settled net len σ) (hp : p ∈ (σ k).view.successors.peers) : ∃ j, p = (σ j).self := by
  obtain ⟨js, _, heq⟩ := h.list k
  rw [heq] at hp
  obtain ⟨j, _, rfl⟩ := List.mem_map.mp hp
  exact ⟨j, rfl⟩

theorem exists_hop (h : Settled net len σ) (hid : id ≠ (σ k).self.id) : ∃ j, (σ k).view.hop id = (σ j).self := by
  have hv := h.sound k
  rcases (σ k).view.hop_mem id with hfinger | hsuccessor
  · have hmem := (Fingers.closestPreceding?_eq_some (by rw [hv.table_owner]; exact hid) hfinger).1
    obtain ⟨i, hi, hslot⟩ := List.mem_iff_getElem.mp hmem
    obtain ⟨p, ⟨hmember, _⟩, hget⟩ := h.fingers k i (by rw [← hv.table.slots_length]; exact hi)
    rw [Fingers.get?, List.getElem?_eq_getElem hi, hslot] at hget
    change some _ = _ at hget
    split at hget
    · cases hget
    · rw [Option.some.inj hget]
      exact hmember
  · rw [hsuccessor]
    exact (h.next k).1

/-! ## Answers -/

theorem still_lookupFrom (h : Settled net len σ) (n : Nat) (last : Failure) :
    (Activity.lookupFrom id ttl (n + 1) last).Still (calm σ) net σ k fun r =>
      (∀ p, r = .ok p → Owns σ id p) ∧ ∀ p, (σ k).view.findSuccessor id = .found p → r = .ok p := by
  rw [Activity.lookupFrom, Activity.still_look]
  cases hdecision : (σ k).view.findSuccessor id with
  | nothing => refine ⟨fun q hq => ?_, fun q hq => ?_⟩ <;> cases hq
  | found p =>
      refine ⟨fun q hq => ?_, fun q hq => ?_⟩
      · cases hq
        exact h.toRing.found hdecision
      · cases hq
        rfl
  | contact next errand =>
      obtain rfl := View.findSuccessor_errand hdecision
      obtain ⟨hid, rfl, _, _⟩ := (h.sound k).of_contact hdecision
      obtain ⟨j, hj⟩ := h.exists_hop hid
      change Activity.Still _ _ _ _ _ (ite _ _ _)
      split
      · refine ⟨fun q hq => ?_, fun q hq => ?_⟩ <;> cases hq
      · rw [hj]
        -- The answer comes at the first attempt, so no finger is dropped.
        refine Activity.still_query.mpr ⟨j, h.reached j, h.answered j, trivial, ?_⟩
        rintro r ⟨a, rfl, howns, _⟩
        cases a with
        | none => refine ⟨fun q hq => ?_, fun q hq => ?_⟩ <;> cases hq
        | some p =>
            refine ⟨fun q hq => ?_, fun q hq => ?_⟩ <;> cases hq
            exact howns p rfl

theorem still_lookup (h : Settled net len σ) :
    (Activity.lookup id ttl).Still (calm σ) net σ k fun r =>
      (∀ p, r = .ok p → Owns σ id p) ∧ ∀ p, (σ k).view.findSuccessor id = .found p → r = .ok p := by
  rw [Activity.lookup, Activity.still_look, if_pos (h.joined k)]
  exact h.still_lookupFrom 2 _

theorem still_answer (h : Settled net len σ) (source : Ipv4) {q : Query} (hasked : Asked σ k q) :
    (Activity.answer source q.request).Still (calm σ) net σ k ((calm σ).Reports k q) := by
  cases q with
  | owner id ttl =>
      refine Activity.Still.bind (h.still_lookup.mono fun r hr => ?_)
      cases r with
      | ok p => exact ⟨_, rfl, some p, rfl, fun q hq => hr.1 q (by cases hq; rfl), fun q hq => by cases hr.2 q hq; rfl⟩
      | error e => exact ⟨_, rfl, none, rfl, nofun, fun q hq => by cases hr.2 q hq⟩
  | predecessor asker => exact ⟨_, rfl, rfl⟩
  | alive => exact ⟨_, rfl, rfl⟩
  | notify id port =>
      obtain ⟨p, hp, rfl, hne⟩ := hasked
      refine Activity.still_look.mpr ?_
      rw [if_pos (h.joined k)]
      -- The position is that of the predecessor already, so the address that comes with it does not count.
      refine Activity.still_store.mpr ⟨?_, _, rfl, _, rfl⟩
      have hsame : ((σ k).view.notify ⟨p.id, source, port⟩).1 = (σ k).view := View.notify_of_before hp rfl hne
      exact congrArg (fun view => { σ k with view }) hsame

/-! ## Rounds -/

theorem room (h : Settled net len σ) (k : ι) : 0 < len := by
  have := h.setting k
  omega

theorem still_walk (h : Settled net len σ) (self : RingId) (n : Nat) (walked : List Peer) :
    (Activity.walk self n (σ j).self walked).Still (calm σ) net σ k (· = trail net σ self n (σ j).self walked) := by
  induction n generalizing j walked with
  | zero => rfl
  | succ n ih =>
      obtain ⟨i, hi⟩ := (h.next j).1
      refine Activity.still_query.mpr ⟨j, h.reached j, h.answered j, trivial, ?_⟩
      rintro r ⟨a, rfl, _, hknown⟩
      obtain rfl := hknown _ (h.sound j).findSuccessor_behind
      simp only [trail, h.reached, hi]
      split
      · exact ih _
      · rfl

/-- The walk meets just those who are in the list already. -/
theorem syncSuccessors_trail (h : Settled net len σ) (hother : (σ k).view.successor.id ≠ (σ k).self.id) :
    (σ k).view.syncSuccessors (trail net σ (σ k).self.id (len - 1) (σ k).view.successor [(σ k).view.successor]) =
      (σ k).view := by
  obtain ⟨js, hrow, hlength, htrail⟩ := h.exists_walked h.reached (h.room k) hother
  obtain ⟨js', hrow', hlist⟩ := h.list k
  have hcount := h.length k
  rw [hlist, List.length_map] at hcount
  obtain rfl := hrow.unique h.distinct hrow' (hlength.trans hcount.symm)
  have hreplace := hrow.replace h.distinct (h.sound k) (by omega) (by rw [h.bound k]; omega)
  rw [htrail, ← hlist] at *
  have hsame : (σ k).view.successors.replace (σ k).view.successors.peers = (σ k).view.successors :=
    congrArg (fun peers => { (σ k).view.successors with peers }) hreplace
  unfold View.syncSuccessors
  split
  · rfl
  · rw [hsame]

theorem still_syncSuccessors (h : Settled net len σ) :
    Activity.syncSuccessors.Still (calm σ) net σ k fun _ => True := by
  refine Activity.still_look.mpr ?_
  change Activity.Still _ _ _ _ _ (ite _ _ _)
  split
  · trivial
  rename_i hother
  have hsame := h.syncSuccessors_trail hother
  obtain ⟨j, hj⟩ := (h.next k).1
  rw [hj] at hsame ⊢
  refine Activity.Still.bind ((h.still_walk _ _ _).mono fun walked hwalked => ?_)
  rw [h.setting k] at hwalked
  refine Activity.still_look.mpr (Activity.still_store.mpr ⟨?_, trivial⟩)
  rw [hwalked]
  exact congrArg (fun view => { σ k with view }) hsame

theorem before_next (h : Settled net len σ) (hj : Next σ k (σ j).self) :
    (σ j).view.predecessor = some (σ k).self := by
  obtain ⟨i, hi, hnext⟩ := h.before j
  rw [hi, hnext.previous_unique h.distinct hj]

theorem still_askPredecessor (h : Settled net len σ) :
    (Activity.askPredecessor (σ k)).Still (calm σ) net σ k fun r => ∃ p, r = .ok (some p) ∧ p.id = (σ k).self.id := by
  have hnext := h.next k
  obtain ⟨j, hj⟩ := hnext.1
  rw [hj] at hnext
  have hbefore := h.before_next hnext
  unfold Activity.askPredecessor
  simp only [hj]
  split
  · rename_i hid
    obtain rfl := h.distinct _ _ hid
    exact ⟨_, congrArg _ hbefore, rfl⟩
  · refine Activity.still_query.mpr ⟨j, h.reached j, h.answered j, trivial, ?_⟩
    rintro r rfl
    exact ⟨_, congrArg _ hbefore, rfl⟩

theorem still_stabilize (h : Settled net len σ) :
    Activity.stabilize.Still (calm σ) net σ k fun _ => True := by
  refine Activity.still_look.mpr (Activity.Still.bind (h.still_askPredecessor.mono ?_))
  rintro r ⟨p, rfl, hp⟩
  have hend : (Activity.syncSuccessors >>= fun _ => pure (Except.ok () : Except Failure Unit)).Still (calm σ) net σ k
      fun _ => True := Activity.Still.bind (h.still_syncSuccessors.mono fun _ _ => trivial)
  refine Activity.still_look.mpr ?_
  dsimp only
  rw [View.stabilize_of_self hp]
  refine Activity.still_store.mpr ⟨rfl, ?_⟩
  cases halone : (σ k).view.isAlone with
  | true => exact hend
  | false =>
      have hnext := h.next k
      obtain ⟨j, hj⟩ := hnext.1
      rw [hj] at hnext
      have hasked : Asked σ j (.notify (σ k).self.id (σ k).self.port) := by
        refine ⟨_, h.before_next hnext, rfl, fun hid => ?_⟩
        rw [View.isAlone, decide_eq_false_iff_not, hj] at halone
        exact halone hid.symm
      simp only [hj]
      exact Activity.still_query.mpr ⟨j, h.reached j, h.answered j, hasked, fun _ _ => hend⟩

/-! ## Liveness checks -/

theorem still_ping (h : Settled net len σ) (j : ι) :
    (Activity.ping (σ j).self.address).Still (calm σ) net σ k (· = true) := by
  refine Activity.still_query.mpr ⟨j, h.reached j, h.answered j, trivial, ?_⟩
  rintro r rfl
  rfl

theorem still_checkPredecessor (h : Settled net len σ) :
    Activity.checkPredecessor.Still (calm σ) net σ k fun _ => True := by
  obtain ⟨j, hj, _⟩ := h.before k
  refine Activity.still_look.mpr ?_
  rw [hj]
  change Activity.Still _ _ _ _ _ (ite _ _ _)
  split
  · trivial
  · refine Activity.Still.bind ((h.still_ping j).mono ?_)
    rintro alive rfl
    trivial

/-! ## Everybody together -/

theorem setFinger_owner (h : Settled net len σ) {i : Nat} (hi : i < RingId.bits)
    (howns : Owns σ ((σ k).self.id.fingerStart i) p) : (σ k).view.setFinger i (some p) = (σ k).view := by
  obtain ⟨q, hq, hget⟩ := h.fingers k i hi
  obtain rfl := howns.unique h.distinct hq
  have hv := h.sound k
  have hi' : i < (σ k).view.fingers.slots.length := by rwa [hv.table.slots_length]
  have hslot : (σ k).view.fingers.slots[i] = (some p).filter fun q => q.id ≠ (σ k).view.fingers.owner.id := by
    rw [hv.table_owner]
    refine Eq.trans ?_ (h.toRing.others_only k howns.1).symm
    rw [← hget, Fingers.get?, List.getElem?_eq_getElem hi']
    rfl
  have hset : (σ k).view.fingers.set i (some p) = (σ k).view.fingers := by
    rw [Fingers.set, ← hslot, List.set_getElem_self]
  exact congrArg (fun fingers => { (σ k).view with fingers }) hset

theorem still_fixFingers (h : Settled net len σ) : (Front.ofOperation k .fixFingers (σ k)).Still (calm σ) net σ := by
  -- The results come in the order of the slots they are for.
  refine Front.still_ofOperation
    (fun i r => ∀ p, r = .ok p → i < RingId.bits ∧ Owns σ ((σ k).self.id.fingerStart i) p) (fun i a ha => ?_)
    fun rs hrs => ?_
  · rw [Operation.gathering, Gathering.fixFingers, List.getElem?_map] at ha
    obtain ⟨start, hstart, rfl⟩ := Option.map_eq_some_iff.mp ha
    rw [View.fingerStarts, List.getElem?_map] at hstart
    obtain ⟨i', hi', rfl⟩ := Option.map_eq_some_iff.mp hstart
    obtain ⟨hi, heq⟩ := List.getElem?_eq_some_iff.mp hi'
    rw [List.getElem_range] at heq
    subst heq
    rw [List.length_range] at hi
    exact h.still_lookup.mono fun r hr p hp => ⟨hi, hr.1 p hp⟩
  · have hpairs : ∀ pair ∈ rs.zipIdx, ∀ p, pair.1 = .ok p →
        pair.2 < RingId.bits ∧ Owns σ ((σ k).self.id.fingerStart pair.2) p := by
      intro pair hpair
      exact hrs pair.2 pair.1 (List.mem_zipIdx_iff_getElem?.mp hpair)
    simp only [Operation.gathering, Gathering.fixFingers]
    generalize rs.zipIdx = pairs at hpairs ⊢
    induction pairs with
    | nil => rfl
    | cons pair pairs ih =>
        obtain ⟨r, i⟩ := pair
        have hrest := ih fun pair hpair => hpairs pair (List.mem_cons_of_mem _ hpair)
        cases r with
        | error e => exact hrest
        | ok p =>
            obtain ⟨hi, howns⟩ := hpairs (.ok p, i) List.mem_cons_self p rfl
            rw [List.foldl_cons]
            simp only [h.setFinger_owner hi howns]
            exact hrest

theorem still_checkSuccessors (h : Settled net len σ) :
    (Front.ofOperation k .checkSuccessors (σ k)).Still (calm σ) net σ := by
  refine Front.still_ofOperation (fun _ alive => alive = true) (fun i a ha => ?_) fun rs hrs => ?_
  · obtain ⟨p, hp, rfl⟩ := List.mem_map.mp (List.mem_of_getElem? ha)
    obtain ⟨j, rfl⟩ := h.exists_self hp
    exact h.still_ping j
  · refine Gathering.checkSuccessors_finish _ (fun alive halive => ?_) _
    obtain ⟨i, hi⟩ := List.mem_iff_getElem?.mp halive
    exact hrs i alive hi

theorem kept (h : Settled net len σ) : (calm σ).Kept net May σ where
  serve := fun hasked source => h.still_answer source hasked
  start := by
    intro host o hmay
    cases o with
    | lookup id ttl => exact Front.still_solo rfl (h.still_lookup.mono fun _ _ => trivial)
    | findSuccessor id =>
        refine Front.still_solo rfl (Activity.still_look.mpr ?_)
        rw [if_pos (h.joined host)]
        exact h.still_lookup.mono fun _ _ => trivial
    | stabilize => exact Front.still_solo rfl h.still_stabilize
    | syncSuccessors => exact Front.still_solo rfl h.still_syncSuccessors
    | checkPredecessor => exact Front.still_solo rfl h.still_checkPredecessor
    | fixFingers => exact h.still_fixFingers
    | checkSuccessors => exact h.still_checkSuccessors
    | _ => exact hmay.elim

/--
However rounds and lookups interleave, with whatever hops they are granted and wherever notices are seen to come
from: nobody changes.
-/
theorem true_ring_stays [DecidableEq ι] (h : Settled net len σ) {given : (ι → Member) → Prop} {w : World ι}
    (hrun : World.Run net May given (.idle σ) w) : w.members = σ :=
  (hrun.still h.kept).1

/-- Four members with true fingers that have met everybody, and each notified by the one before it. -/
def fourView (k : Fin 4) : View :=
  let v := (Ideal.fourView k).syncSuccessors ((List.finRange 4).map Ideal.four)
  (v.notify v.successors.farthest).1

/-- Four members of a true ring that know each other. -/
def fourMembers (k : Fin 4) : Member := { Ideal.fourMembers k with view := fourView k }

theorem settled_four : Settled (.flawless Ideal.four) 3 fourMembers where
  joined := by decide
  distinct := by decide
  sound := fun k => ((Ideal.ideal_four.sound k).syncSuccessors _).notify _
  next := by
    unfold Next
    decide
  bound := by decide
  setting := by decide
  list := fun k => ⟨[k + 1, k + 2, k + 3], by
    unfold Row Next
    revert k
    decide, by
    revert k
    decide⟩
  length := by decide
  before := fun k => ⟨k + 3, by
    unfold Next
    revert k
    decide⟩
  fingers := fun k i hi => ⟨Ideal.fourOwner ((Ideal.four k).id.fingerStart i), by
    unfold Owns
    revert k i
    decide⟩
  reached := by decide
  answered := fun _ _ => id

/-- A whole round of stabilization, with its notice and its walk. -/
theorem true_ring_stays_four : Settled (.flawless Ideal.four) 3 fourMembers ∧ ∃ w,
    World.Run (.flawless Ideal.four) May (fun _ => True) (.idle fourMembers) w ∧ w.members = fourMembers := by
  have hrun : World.Run (.flawless Ideal.four) May (fun _ => True) (.idle fourMembers) _ :=
    World.Run.alone 0 .stabilize 20 trivial rfl (r := .ok ()) (k := 0) rfl fun _ _ => trivial
  exact ⟨settled_four, _, hrun, settled_four.true_ring_stays hrun⟩

end Settled

end ChordOverlay
