import ChordOverlay.Proofs.Ownership
import Mathlib.Order.WellFounded

/-!
# How far a lookup is passed on

On a ring where every finger is the owner of its start, the highest finger before a position leaves less than half
of the way to the last member before it. So a lookup is passed on at most once for every bit of that way.
-/

namespace ChordOverlay

variable {ι : Type} {σ : ι → Member} {net : Net ι} {j k m : ι} {id : RingId} {i : Nat} {p : Peer}

/-- A ring whose fingers are all true and whose members all answer. -/
structure Ideal (net : Net ι) (σ : ι → Member) : Prop extends Ring σ where
  fingers : ∀ k i, i < RingId.bits → ∃ p, Owns σ ((σ k).self.id.fingerStart i) p ∧
    (σ k).view.fingers.get? i = if p = (σ k).self then none else some p
  reached : ∀ k, net.reach (σ k).self.address = some k
  answered : ∀ target e, ¬ net.fails target e

/-- The members strictly between `k` and `id` end with `m`. -/
def LastBefore (σ : ι → Member) (k : ι) (id : RingId) (m : ι) : Prop :=
  RingId.Between (σ k).self.id (σ m).self.id id ∧
    ∀ j, RingId.Between (σ k).self.id (σ j).self.id id →
      (σ k).self.id.distance (σ j).self.id ≤ (σ k).self.id.distance (σ m).self.id

theorem exists_lastBefore (σ : ι → Member) (k : ι) (id : RingId) :
    (∀ j, ¬ RingId.Between (σ k).self.id (σ j).self.id id) ∨ ∃ m, LastBefore σ k id m := by
  by_cases hsome : ∃ j, RingId.Between (σ k).self.id (σ j).self.id id
  · obtain ⟨m, hm, hmax⟩ := WellFounded.has_min
      (measure fun j => UInt32.size - (σ k).self.id.distance (σ j).self.id).wf
      {j | RingId.Between (σ k).self.id (σ j).self.id id} hsome
    refine Or.inr ⟨m, hm, fun j hj => Nat.le_of_not_lt fun hlt => hmax j hj ?_⟩
    have hj := RingId.distance_lt (σ k).self.id (σ j).self.id
    change UInt32.size - _ < UInt32.size - _
    omega
  · exact Or.inl fun j hj => hsome ⟨j, hj⟩

/-- Seen from a member on the way, the last one before `id` is the same, unless the member is that one. -/
theorem LastBefore.onward (h : LastBefore σ k id m) (hj : RingId.Between (σ k).self.id (σ j).self.id id) :
    (∀ i, ¬ RingId.Between (σ j).self.id (σ i).self.id id) ∨ LastBefore σ j id m ∧
      (σ k).self.id.distance (σ j).self.id + (σ j).self.id.distance (σ m).self.id =
        (σ k).self.id.distance (σ m).self.id := by
  obtain ⟨⟨_, hmid⟩, hlast⟩ := h
  have hway := RingId.distance_add (hlast j hj)
  have hid := RingId.distance_add (Nat.le_of_lt hj.2)
  have hlt := RingId.distance_lt (σ k).self.id id
  have hbound : ∀ i, RingId.Between (σ j).self.id (σ i).self.id id →
      (σ j).self.id.distance (σ i).self.id ≤ (σ j).self.id.distance (σ m).self.id := by
    intro i hi
    have hpos := hi.1
    have hi := hi.2
    have hsum := RingId.distance_add_of_lt (a := (σ k).self.id) (b := (σ j).self.id) (c := (σ i).self.id) (by omega)
    have := hlast i ⟨by omega, by omega⟩
    omega
  by_cases hzero : (σ j).self.id.distance (σ m).self.id = 0
  · refine Or.inl fun i hi => ?_
    have := hbound i hi
    have := hi.1
    omega
  · exact Or.inr ⟨⟨⟨by omega, by omega⟩, hbound⟩, hway⟩

/-! ## Fingers -/

theorem RingId.distance_fingerStart (a : RingId) (hi : i < RingId.bits) : a.distance (a.fingerStart i) = Nat.pow 2 i := by
  refine RingId.distance_advance a ?_
  exact Nat.pow_lt_pow_right (by decide) hi

/-- Another member that owns the start of a slot does not fall short of it. -/
theorem Owns.beyond_start (hids : ∀ j k, (σ j).self.id = (σ k).self.id → j = k) (hi : i < RingId.bits)
    (hp : Owns σ ((σ k).self.id.fingerStart i) p) (hne : p ≠ (σ k).self) :
    Nat.pow 2 i ≤ (σ k).self.id.distance p.id := by
  refine Nat.le_of_not_lt fun hshort => ?_
  -- A finger before the start would lie a full round behind it, which is farther than `k` itself.
  have hstart := RingId.distance_fingerStart (σ k).self.id hi
  have hpos : 0 < Nat.pow 2 i := Nat.two_pow_pos i
  have hround := RingId.distance_wrap (a := (σ k).self.id) (b := (σ k).self.id.fingerStart i) (c := (σ k).self.id)
    (by rw [RingId.distance_self, hstart]; exact hpos)
  have hfinger := RingId.distance_wrap (a := (σ k).self.id) (b := (σ k).self.id.fingerStart i) (c := p.id)
    (by rw [hstart]; exact hshort)
  obtain ⟨⟨j, rfl⟩, hnearest⟩ := hp
  have hle := hnearest k
  rw [RingId.distance_self] at hround
  have hzero : (σ k).self.id.distance (σ j).self.id = 0 := by omega
  rw [hids k j (RingId.distance_eq_zero.mp hzero)] at hne
  exact hne rfl

namespace Ideal

/-- No finger falls short of the start of its slot. -/
theorem le_finger (h : Ideal net σ) (hi : i < RingId.bits) (hp : (σ k).view.fingers.get? i = some p) :
    (∃ j, p = (σ j).self) ∧ Nat.pow 2 i ≤ (σ k).self.id.distance p.id := by
  obtain ⟨q, howns, hget⟩ := h.fingers k i hi
  have hne : q ≠ (σ k).self := by
    rintro rfl
    rw [hget, if_pos rfl] at hp
    cases hp
  rw [hget, if_neg hne] at hp
  cases hp
  exact ⟨howns.1, howns.beyond_start h.distinct hi hne⟩

theorem exists_finger (h : Ideal net σ) (hp : some p ∈ (σ k).view.fingers.slots) : ∃ j, p = (σ j).self := by
  obtain ⟨i, hslot⟩ := List.mem_iff_getElem?.mp hp
  have hi := (List.getElem?_eq_some_iff.mp hslot).1
  rw [(h.sound k).table.slots_length] at hi
  exact (h.le_finger hi (Option.join_eq_some_iff.mpr hslot)).1

/-- The slot for the highest bit of the way to `m` holds a member that is no farther than `m`. -/
theorem finger_of_last (h : Ideal net σ) (hm : LastBefore σ k id m) :
    ∃ j, (σ k).view.fingers.get? (Nat.log2 ((σ k).self.id.distance (σ m).self.id)) = some (σ j).self ∧
      Nat.pow 2 (Nat.log2 ((σ k).self.id.distance (σ m).self.id)) ≤ (σ k).self.id.distance (σ j).self.id ∧
      (σ k).self.id.distance (σ j).self.id ≤ (σ k).self.id.distance (σ m).self.id := by
  have hpos := hm.1.1
  have hlt := RingId.distance_lt (σ k).self.id (σ m).self.id
  generalize hD : (σ k).self.id.distance (σ m).self.id = D at hpos hlt
  have hi : Nat.log2 D < RingId.bits := (Nat.log2_lt (Nat.pos_iff_ne_zero.mp hpos)).mpr hlt
  have hbit : Nat.pow 2 (Nat.log2 D) ≤ D := Nat.log2_self_le (Nat.pos_iff_ne_zero.mp hpos)
  obtain ⟨p, ⟨⟨j, rfl⟩, hnearest⟩, hget⟩ := h.fingers k _ hi
  have hstart := RingId.distance_fingerStart (σ k).self.id hi
  have hway := RingId.distance_add (a := (σ k).self.id) (b := (σ k).self.id.fingerStart (Nat.log2 D)) (c := (σ m).self.id)
    (by rw [hstart, hD]; exact hbit)
  have hle := hnearest m
  have hbeyond : Nat.pow 2 (Nat.log2 D) ≤ (σ k).self.id.distance (σ j).self.id := by
    refine Nat.le_of_not_lt fun hshort => ?_
    have := RingId.distance_wrap (a := (σ k).self.id) (b := (σ k).self.id.fingerStart (Nat.log2 D)) (c := (σ j).self.id)
      (by rw [hstart]; exact hshort)
    omega
  have hway' := RingId.distance_add (a := (σ k).self.id) (b := (σ k).self.id.fingerStart (Nat.log2 D))
    (c := (σ j).self.id) (by rw [hstart]; exact hbeyond)
  refine ⟨j, ?_, hbeyond, by omega⟩
  rw [hget, if_neg]
  intro heq
  have hbitpos : 0 < Nat.pow 2 (Nat.log2 D) := Nat.two_pow_pos _
  rw [heq, RingId.distance_self] at hbeyond
  omega

/-- The next hop lies on the way to the last member, beyond the highest bit of that way. -/
theorem contact (h : Ideal net σ) (hm : LastBefore σ k id m) :
    ∃ j, (σ k).view.findSuccessor id = .contact (σ j).self (.findSuccessor id) ∧
      Nat.pow 2 (Nat.log2 ((σ k).self.id.distance (σ m).self.id)) ≤ (σ k).self.id.distance (σ j).self.id ∧
      (σ k).self.id.distance (σ j).self.id ≤ (σ k).self.id.distance (σ m).self.id := by
  obtain ⟨j, hget, hbit, hle⟩ := h.finger_of_last hm
  refine ⟨j, ?_, hbit, hle⟩
  have hv := h.sound k
  obtain ⟨hmpos, hmid⟩ := hm.1
  have hne : id ≠ (σ k).self.id := by
    rintro rfl
    rw [RingId.distance_self] at hmid
    exact Nat.not_lt_zero _ hmid
  have hmk : m ≠ k := by
    rintro rfl
    rw [RingId.distance_self] at hmpos
    exact Nat.lt_irrefl _ hmpos
  have hbitpos : 0 < Nat.pow 2 (Nat.log2 ((σ k).self.id.distance (σ m).self.id)) := Nat.two_pow_pos _
  have hhop : (σ k).view.hop id = (σ j).self := by
    unfold View.hop
    rw [Fingers.closestPreceding?_of_highest (by rw [hv.table_owner]; exact hne) (Option.join_eq_some_iff.mp hget)]
    · rfl
    · rw [hv.table_owner]
      exact ⟨Nat.lt_of_lt_of_le hbitpos hbit, Nat.lt_of_le_of_lt hle hmid⟩
    · -- A higher slot holds somebody beyond the last member before `id`.
      intro i q hi hslot hq
      rw [hv.table_owner] at hq
      have hslots := (List.getElem?_eq_some_iff.mp hslot).1
      rw [hv.table.slots_length] at hslots
      obtain ⟨⟨n, rfl⟩, hstart⟩ := h.le_finger (p := q) hslots (Option.join_eq_some_iff.mpr hslot)
      have hfar : (σ k).self.id.distance (σ m).self.id < Nat.pow 2 i :=
        (Nat.log2_lt (Nat.pos_iff_ne_zero.mp hmpos)).mp hi
      have := hm.2 n hq
      omega
  rcases hv.findSuccessor_cases id with ⟨heq, _⟩ | ⟨_, _, hcase⟩ | ⟨_, heq, _⟩
  · exact absurd heq hne
  · obtain ⟨_, halone, hnearest⟩ := h.next k
    rcases hcase with ha | hid
    · exact absurd (halone (hv.successor_of_alone ha) m) hmk
    · have := hnearest m hmk
      have hid : (σ k).self.id.distance id ≤ (σ k).self.id.distance (σ k).view.successor.id := hid
      omega
  · rw [heq, hhop]

theorem found (h : Ideal net σ) (hnone : ∀ j, ¬ RingId.Between (σ k).self.id (σ j).self.id id) :
    ∃ p, (σ k).view.findSuccessor id = .found p := by
  rcases (h.sound k).findSuccessor_cases id with ⟨_, heq⟩ | ⟨_, heq, _⟩ | ⟨_, _, _, hbetween, _⟩
  · exact ⟨_, heq⟩
  · exact ⟨_, heq⟩
  · obtain ⟨⟨j, hj⟩, _⟩ := h.next k
    rw [hj] at hbetween
    exact absurd hbetween (hnone j)

end Ideal

/-! ## One stretch of a lookup -/

namespace Activity

variable {α : Type} {ttl : UInt8} {n : Member}

theorem proceed_lookup (f : Except Failure Peer → Activity α) (hjoined : n.phase = .joined) :
    proceed ((lookup id ttl).bind f) n =
      proceed (Program.bind (lookupFrom id ttl lookupAttempts (.noSuccessor id)) f) n := by
  rw [lookup, proceed_look_bind, if_pos hjoined]

theorem proceed_lookup_found (f : Except Failure Peer → Activity α) (hjoined : n.phase = .joined)
    (hfound : n.view.findSuccessor id = .found p) : proceed ((lookup id ttl).bind f) n = proceed (f (.ok p)) n := by
  rw [proceed_lookup f hjoined, lookupAttempts, lookupFrom, proceed_look_bind, hfound]
  rfl

theorem proceed_lookup_exhausted (f : Except Failure Peer → Activity α) (hjoined : n.phase = .joined)
    (hcontact : n.view.findSuccessor id = .contact p (.findSuccessor id)) :
    proceed ((lookup id 0).bind f) n = proceed (f (.error (.outOfHops id))) n := by
  rw [proceed_lookup f hjoined, lookupAttempts, lookupFrom, proceed_look_bind, hcontact]
  rfl

theorem proceed_lookup_contact (f : Except Failure Peer → Activity α) (hjoined : n.phase = .joined) (httl : ttl ≠ 0)
    (hcontact : n.view.findSuccessor id = .contact p (.findSuccessor id)) :
    ∃ next, proceed ((lookup id ttl).bind f) n = (.ask (.query p.address (.owner id (ttl - 1))) next, n) ∧
      (∀ q, next (.ok (some q)) = f (.ok q)) ∧ next (.ok none) = f (.error (.noSuccessor id)) := by
  rw [proceed_lookup f hjoined, lookupAttempts, lookupFrom, proceed_look_bind, hcontact]
  simp only [if_neg httl]
  exact ⟨_, rfl, fun _ => rfl, rfl⟩

end Activity

/-! ## The whole lookup -/

namespace Ideal

variable [DecidableEq ι] {d : Duty} {n : Nat}

theorem step_go {rest rest' : Activity d.Result} (hbusy : rest.waits = false)
    (hproceed : rest.proceed (σ k) = (rest', σ k)) : Strand.Step net σ (.run k rest) .quiet σ (.run k rest') := by
  have hgo : Strand.Step net σ (.run k rest) .quiet _ _ := .go hbusy
  rw [hproceed] at hgo
  have hstay : Function.update σ k (σ k) = σ := Function.update_eq_self _ _
  change Strand.Step net σ (.run k rest) .quiet (Function.update σ k (σ k)) (.run k rest') at hgo
  rwa [hstay] at hgo

/-- The hops a lookup of `id` at `k` may need: none, or one for every bit of the way to the last member before `id`. -/
def Reach (σ : ι → Member) (k : ι) (id : RingId) (n : Nat) : Prop :=
  (∀ j, ¬ RingId.Between (σ k).self.id (σ j).self.id id) ∨
    ∃ m, LastBefore σ k id m ∧ Nat.log2 ((σ k).self.id.distance (σ m).self.id) < n

omit [DecidableEq ι] in
theorem reach_onward (hm : LastBefore σ k id m) (hn : Nat.log2 ((σ k).self.id.distance (σ m).self.id) < n + 1)
    (hbit : Nat.pow 2 (Nat.log2 ((σ k).self.id.distance (σ m).self.id)) ≤ (σ k).self.id.distance (σ j).self.id)
    (hle : (σ k).self.id.distance (σ j).self.id ≤ (σ k).self.id.distance (σ m).self.id) : Reach σ j id n := by
  have hpos := hm.1.1
  have hbitpos : 0 < Nat.pow 2 (Nat.log2 ((σ k).self.id.distance (σ m).self.id)) := Nat.two_pow_pos _
  rcases hm.onward ⟨Nat.lt_of_lt_of_le hbitpos hbit, Nat.lt_of_le_of_lt hle hm.1.2⟩ with hnone | ⟨hlast, hway⟩
  · exact Or.inl hnone
  refine Or.inr ⟨m, hlast, ?_⟩
  have hdouble : (σ k).self.id.distance (σ m).self.id <
      Nat.pow 2 (Nat.log2 ((σ k).self.id.distance (σ m).self.id)) * 2 := Nat.lt_log2_self
  have hshort : (σ j).self.id.distance (σ m).self.id < Nat.pow 2 (Nat.log2 ((σ k).self.id.distance (σ m).self.id)) := by
    omega
  have := (Nat.log2_lt (Nat.pos_iff_ne_zero.mp hlast.1.1)).mpr hshort
  omega

/-- What is reported of a lookup. -/
def report : Except Failure Peer → Option Message
  | .ok p => some (.lookupReport (some p))
  | .error _ => some (.lookupReport none)

omit [DecidableEq ι] in
theorem answer_owner (source : Ipv4) (id : RingId) (ttl : UInt8) :
    Activity.answer source (Query.owner id ttl).request = (Activity.lookup id ttl).bind fun r => .done (report r) := by
  refine congrArg (Activity.lookup id ttl).bind (funext fun r => ?_)
  cases r <;> rfl

/-- Where nobody lies between, the lookup ends at once. -/
theorem course_of_near (h : Ideal net σ) (hnone : ∀ j, ¬ RingId.Between (σ k).self.id (σ j).self.id id) (ttl : UInt8)
    (g : Except Failure Peer → d.Result) : ∃ p, Owns σ id p ∧ Strand.Course net 0 σ
      (.run k ((Activity.lookup id ttl).bind fun r => .done (g r)) : Strand ι d) σ (.run k (.done (g (.ok p)))) := by
  obtain ⟨p, hfound⟩ := h.found hnone
  have hgo : Strand.Step net σ (.run k ((Activity.lookup id ttl).bind fun r => .done (g r)) : Strand ι d) .quiet σ _ :=
    step_go rfl (Activity.proceed_lookup_found _ (h.joined k) hfound)
  exact ⟨p, h.toRing.found hfound, .step hgo (.refl _ _)⟩

/-- A lookup that may still be passed on often enough ends with the owner. -/
theorem course (h : Ideal net σ) (hreach : Reach σ k id n) {ttl : UInt8} (httl : n ≤ ttl.toNat)
    (g : Except Failure Peer → d.Result) :
    ∃ c p, c ≤ n ∧ Owns σ id p ∧ Strand.Course net c σ
      (.run k ((Activity.lookup id ttl).bind fun r => .done (g r)) : Strand ι d) σ (.run k (.done (g (.ok p)))) := by
  induction n generalizing k ttl d with
  | zero =>
      rcases hreach with hnone | ⟨_, _, hlt⟩
      · obtain ⟨p, howns, hcourse⟩ := h.course_of_near hnone ttl g
        exact ⟨0, p, Nat.le_refl 0, howns, hcourse⟩
      · exact absurd hlt (Nat.not_lt_zero _)
  | succ n ih =>
      rcases hreach with hnone | ⟨m, hm, hlt⟩
      · obtain ⟨p, howns, hcourse⟩ := h.course_of_near hnone ttl g
        exact ⟨0, p, Nat.zero_le _, howns, hcourse⟩
      have hpositive : ttl ≠ 0 := by
        rintro rfl
        exact absurd httl (Nat.not_succ_le_zero n)
      have httl' : n ≤ (ttl - 1).toNat := by
        have := hops_left hpositive
        omega
      -- The next member on the way has a bit less to go, and answers with what its own lookup returns.
      obtain ⟨j, hcontact, hbit, hle⟩ := h.contact hm
      obtain ⟨next, hproceed, hnext, _⟩ :=
        Activity.proceed_lookup_contact (fun r => Program.done (g r)) (h.joined k) hpositive hcontact
      obtain ⟨c, p, hc, howns, hcallee⟩ := ih (d := .serve (.owner id (ttl - 1))) (reach_onward hm hlt hbit hle) httl' report
      have hcall : Strand.Step net σ (.run k (.ask (.query (σ j).self.address (.owner id (ttl - 1))) next) : Strand ι d) _ σ _ :=
        .call (h.reached j)
      rw [answer_owner] at hcall
      have hreply : Strand.Step net σ
          (.wait k (σ j).self.address (.owner id (ttl - 1)) next (.run j (.done (report (.ok p))))) .quiet σ _ := .reply
      have hback : next ((Query.owner id (ttl - 1)).read (.lookupReport (some p))) = .done (g (.ok p)) := hnext p
      rw [hback] at hreply
      have hcourse := Strand.Course.step (step_go rfl hproceed)
        (.step hcall (hcallee.serve.trans (.step hreply (.refl _ _))))
      refine ⟨_, p, ?_, howns, hcourse⟩
      simp only [Event.requests]
      omega

/--
On an ideal ring the hops granted by default, one for every bit of a position, always suffice. The lookup returns
the owner after no hop at all if nobody lies between, and otherwise after at most one for every bit of the way to
the last member before the position; and whatever has been done of it so far is the beginning of just that.
-/
theorem lookup_within_hops (h : Ideal net σ) (k : ι) (id : RingId) :
    Body.defaultHops.toNat = RingId.bits ∧ ∃ c owner, Owns σ id owner ∧
      (id = (σ k).self.id ∨ (∀ j, ¬ RingId.Between (σ k).self.id (σ j).self.id id) → c = 0) ∧
      (∀ m, LastBefore σ k id m → c ≤ Nat.log2 ((σ k).self.id.distance (σ m).self.id) + 1) ∧
      Strand.Course net c σ
        (.run k (Activity.lookup id Body.defaultHops) : Strand ι (.own (.lookup id Body.defaultHops))) σ
        (.run k (.done (.ok owner))) ∧
      ∀ c' σ' t', Strand.Course net c' σ
          (.run k (Activity.lookup id Body.defaultHops) : Strand ι (.own (.lookup id Body.defaultHops))) σ' t' →
        ∃ rest, c' + rest = c ∧ Strand.Course net rest σ' t' σ (.run k (.done (.ok owner))) := by
  have hcourse : ∀ n, n ≤ RingId.bits → Reach σ k id n → ∃ c p, c ≤ n ∧ Owns σ id p ∧ Strand.Course net c σ
      (.run k (Activity.lookup id Body.defaultHops) : Strand ι (.own (.lookup id Body.defaultHops))) σ
      (.run k (.done (.ok p))) := by
    intro n hn hreach
    have hhops : n ≤ Body.defaultHops.toNat := hn
    have := h.course (d := .own (.lookup id Body.defaultHops)) hreach hhops fun r => r
    rwa [Program.bind_done] at this
  refine ⟨rfl, ?_⟩
  rcases exists_lastBefore σ k id with hnone | ⟨m, hm⟩
  · obtain ⟨c, p, hc, howns, hend⟩ := hcourse 0 (Nat.zero_le _) (Or.inl hnone)
    refine ⟨c, p, howns, fun _ => Nat.le_zero.mp hc, fun m hm => absurd hm.1 (hnone m), hend, fun c' σ' t' => ?_⟩
    exact hend.extends h.answered
  · have hlog : Nat.log2 ((σ k).self.id.distance (σ m).self.id) < RingId.bits :=
      (Nat.log2_lt (Nat.pos_iff_ne_zero.mp hm.1.1)).mpr (RingId.distance_lt _ _)
    obtain ⟨c, p, hc, howns, hend⟩ := hcourse _ hlog (Or.inr ⟨m, hm, Nat.lt_succ_self _⟩)
    refine ⟨c, p, howns, fun hnone => ?_, fun m' hm' => ?_, hend, fun c' σ' t' => hend.extends h.answered⟩
    · rcases hnone with rfl | hnone
      · have := hm.1.2
        rw [RingId.distance_self] at this
        exact absurd this (Nat.not_lt_zero _)
      · exact absurd hm.1 (hnone m)
    · rw [Nat.le_antisymm (hm.2 m' hm'.1) (hm'.2 m hm.1)]
      exact hc

/-- Four members, each half as far from the next as the one before, with fingers as finger repair leaves them. -/
def four (k : Fin 4) : Peer := ⟨.ofNat ([0, 1000, 1500, 1750].getD k.val 0), ⟨10, 0, 0, UInt8.ofNat k.val⟩, 7000⟩

/-- The owner of a position among the four. -/
def fourOwner (id : RingId) : Peer :=
  [four 1, four 2, four 3].foldl (fun p q => if id.distance q.id < id.distance p.id then q else p) (four 0)

/-- What a member of the ring of four knows, with all fingers set. -/
def fourView (k : Fin 4) : View :=
  (Gathering.fixFingers default).finish ((View.fresh (four k) 3).fingerStarts.map fun start => .ok (fourOwner start))
    ((View.fresh (four k) 3).join (four (k + 1))).1

/-- A ring of four. -/
def fourMembers (k : Fin 4) : Member := ⟨{}, .joined, fourView k, []⟩

theorem ideal_four : Ideal (.flawless four) fourMembers where
  joined := by decide
  distinct := by decide
  sound := fun k => by
    have hv := (View.Sound.fresh (four k) 3).join (four (k + 1))
    obtain ⟨fingers, hsound, howner, heq⟩ := Gathering.fixFingers_finish default
      ((View.fresh (four k) 3).fingerStarts.map fun start => .ok (fourOwner start)) hv
    change (fourView k).Sound
    rw [fourView, heq]
    exact ⟨hv.list, hv.list_owner, hsound, howner, hv.before⟩
  next := by
    unfold Next
    decide
  fingers := fun k i hi => ⟨fourOwner ((four k).id.fingerStart i), by
    unfold Owns
    revert k i
    decide⟩
  reached := by decide
  answered := fun _ _ => id

/-- From the first member the lookup goes over the third and the fourth back to the first. -/
theorem lookup_within_hops_four : Ideal (.flawless four) fourMembers ∧ ∃ c ≤ 11, Strand.Course (.flawless four) c fourMembers
    (.run 0 (Activity.lookup 1800 Body.defaultHops) : Strand (Fin 4) (.own (.lookup 1800 Body.defaultHops))) fourMembers
    (.run 0 (.done (.ok (four 0)))) := by
  obtain ⟨_, c, owner, howner, _, hhops, hcourse, _⟩ := lookup_within_hops ideal_four 0 1800
  have hlast : LastBefore fourMembers 0 1800 3 := by
    unfold LastBefore
    decide
  have hfirst : Owns fourMembers 1800 (four 0) := by
    unfold Owns
    decide
  rw [howner.unique ideal_four.distinct hfirst] at hcourse
  exact ⟨ideal_four, c, hhops 3 hlast, hcourse⟩

end Ideal

end ChordOverlay
