import ChordOverlay.Proofs.FingerTable
import ChordOverlay.Proofs.SuccessorList
import ChordOverlay.View

/-!
# What a member knows of the ring

The operations on a view as data, the form that every sequence of them keeps, and what a view can answer when
it is asked for the owner of a position.
-/

namespace ChordOverlay

namespace View

/-- An operation on a view. -/
inductive Op where
  | create
  | join (p : Peer)
  | notify (candidate : Peer)
  | stabilize (reported : Option Peer)
  | syncSuccessors (walked : List Peer)
  | setFinger (k : Nat) (p : Option Peer)
  | eraseFinger (id : RingId)
  | erase (p : Peer)
  | clearPredecessorIf (p : Peer)

/-- What an operation leaves, apart from its answer. -/
def apply (v : View) : Op → View
  | .create => v.create
  | .join p => (v.join p).1
  | .notify candidate => (v.notify candidate).1
  | .stabilize reported => (v.stabilize reported).1
  | .syncSuccessors walked => v.syncSuccessors walked
  | .setFinger k p => v.setFinger k p
  | .eraseFinger id => { v with fingers := v.fingers.erase id }
  | .erase p => v.erase p
  | .clearPredecessorIf p => (v.clearPredecessorIf p).1

/-- `w` comes from `v` by operations of the member itself. -/
def Evolves (v w : View) : Prop := ∃ ops : List Op, w = ops.foldl apply v

variable {v w : View} {p q candidate : Peer} {id : RingId}

/-! ## What every view keeps to -/

/-- What holds of every view that is reached by operations. -/
structure Sound (v : View) : Prop where
  list : v.successors.Sound
  list_owner : v.successors.owner = v.self
  table : v.fingers.Sound
  table_owner : v.fingers.owner = v.self
  before : ∀ p, v.predecessor = some p → p = v.self ∨ p.id ≠ v.self.id

theorem Sound.fresh (self : Peer) (bound : Nat) : (View.fresh self bound).Sound where
  list := .empty self bound
  list_owner := rfl
  table := .full self
  table_owner := rfl
  before := fun _ h => by cases h

theorem Sound.create (h : v.Sound) : v.create.Sound where
  list := h.list.replace []
  list_owner := h.list_owner
  table := h.table
  table_owner := h.table_owner
  before := fun _ hp => Or.inl (Option.some.inj hp).symm

theorem Sound.join (h : v.Sound) (p : Peer) : (v.join p).1.Sound := by
  unfold View.join
  split
  · exact h
  · exact ⟨h.list.insert p, by simp [h.list_owner], h.table.join p, by simp [h.table_owner], h.before⟩

theorem Sound.notify (h : v.Sound) (candidate : Peer) : (v.notify candidate).1.Sound := by
  unfold View.notify
  split
  · exact h
  · rename_i hid
    split
    · refine ⟨h.list, h.list_owner, h.table, h.table_owner, fun p hp => Or.inr ?_⟩
      cases hp
      exact hid
    · exact h

/-- The view a round of stabilization leaves: a reported peer is taken over, or nothing changes. -/
theorem stabilize_cases (v : View) (reported : Option Peer) :
    (∃ x, reported = some x ∧ v.adopts x = true ∧ (v.stabilize reported).1 =
      { v with successors := (v.successors.insert x).1, fingers := v.fingers.join x }) ∨
      ((∀ x, reported = some x → v.adopts x = false) ∧ (v.stabilize reported).1 = v) := by
  cases reported with
  | none => exact Or.inr ⟨nofun, rfl⟩
  | some x =>
      cases hx : v.adopts x with
      | true => exact Or.inl ⟨x, rfl, hx, by simp [stabilize, Option.filter, hx]⟩
      | false => exact Or.inr ⟨fun y hy => by cases hy; exact hx, by simp [stabilize, Option.filter, hx]⟩

theorem stabilize_predecessor (v : View) (reported : Option Peer) :
    (v.stabilize reported).1.predecessor = v.predecessor := by
  rcases v.stabilize_cases reported with ⟨_, _, _, heq⟩ | ⟨_, heq⟩ <;> rw [heq]

theorem mem_stabilize {reported : Option Peer} (h : p ∈ (v.stabilize reported).1.successors.peers) :
    reported = some p ∨ p ∈ v.successors.peers := by
  rcases v.stabilize_cases reported with ⟨x, rfl, _, heq⟩ | ⟨_, heq⟩ <;> rw [heq] at h
  · exact (Successors.mem_insert h).imp_left fun hp => congrArg some hp.symm
  · exact .inr h

theorem join_decision (hid : p.id ≠ v.self.id) : (v.join p).2 = .contact p (.notify v.self) := by
  rw [join, if_neg hid]

theorem stabilize_decision (v : View) (reported : Option Peer) : (v.stabilize reported).2 =
    if (v.stabilize reported).1.isAlone then .nothing else .contact (v.stabilize reported).1.successor (.notify v.self) :=
  rfl

/-- The view a notice leaves: the candidate becomes the predecessor, or nothing changes. -/
theorem notify_cases (v : View) (candidate : Peer) :
    (candidate.id ≠ v.self.id ∧ v.prefers candidate = true ∧
      (v.notify candidate).1 = { v with predecessor := some candidate }) ∨
      ((candidate.id ≠ v.self.id → v.prefers candidate = false) ∧ (v.notify candidate).1 = v) := by
  unfold notify
  split
  · rename_i hid
    exact Or.inr ⟨fun hne => absurd hid hne, rfl⟩
  · rename_i hid
    split
    · rename_i hprefers
      exact Or.inl ⟨hid, hprefers, rfl⟩
    · rename_i hprefers
      exact Or.inr ⟨fun _ => by simpa using hprefers, rfl⟩

theorem notify_successors (v : View) (candidate : Peer) : (v.notify candidate).1.successors = v.successors := by
  rcases v.notify_cases candidate with ⟨_, _, heq⟩ | ⟨_, heq⟩ <;> rw [heq]

/-- Nobody becomes the predecessor by a notice but the one that it is about. -/
theorem notify_predecessor (h : (v.notify candidate).1.predecessor = some p) : p = candidate ∨ v.predecessor = some p := by
  rcases v.notify_cases candidate with ⟨_, _, heq⟩ | ⟨_, heq⟩ <;> rw [heq] at h
  · exact .inl (Option.some.inj h).symm
  · exact .inr h

theorem prefers_iff : v.prefers candidate = true ↔
    ∀ p, v.predecessor = some p → p.id = v.self.id ∨ p = candidate ∨ RingId.Between p.id candidate.id v.self.id := by
  unfold prefers
  cases v.predecessor with
  | none => exact ⟨fun _ => nofun, fun _ => rfl⟩
  | some p =>
      have hsome : ∀ P : Peer → Prop, (∀ q, some p = some q → P q) ↔ P p :=
        fun P => ⟨fun h => h p rfl, fun h q hq => by cases hq; exact h⟩
      rw [hsome]
      simp only [Bool.or_eq_true, decide_eq_true_eq, or_assoc]
      by_cases hp : p.id = v.self.id
      · simp [hp]
      · rw [RingId.inArc_neither hp]

/-- A notice from the position of the predecessor changes nothing, wherever it is seen to come from. -/
theorem notify_of_before (hp : v.predecessor = some p) (hid : p.id = candidate.id) (hne : candidate.id ≠ v.self.id) :
    (v.notify candidate).1 = v := by
  rcases v.notify_cases candidate with ⟨_, hprefers, heq⟩ | ⟨_, heq⟩
  · rcases prefers_iff.mp hprefers p hp with hself | rfl | hbetween
    · exact absurd (hid.symm.trans hself) hne
    · rw [heq, ← hp]
    · rw [hid] at hbetween
      exact absurd hbetween.1 (by simp)
  · exact heq

/-- A member that is reported to itself has nobody to adopt. -/
theorem stabilize_of_self (hp : p.id = v.self.id) :
    v.stabilize (some p) = (v, if v.isAlone then .nothing else .contact v.successor (.notify v.self)) := by
  have hsame : (v.stabilize (some p)).1 = v := by
    rcases v.stabilize_cases (some p) with ⟨x, hx, hadopts, _⟩ | ⟨_, heq⟩
    · cases hx
      exact absurd hp (by simpa using (Bool.and_eq_true_iff.mp hadopts).1)
    · exact heq
  refine Prod.ext hsame ?_
  rw [stabilize_decision, hsame]

theorem Sound.stabilize (h : v.Sound) (reported : Option Peer) : (v.stabilize reported).1.Sound := by
  rcases v.stabilize_cases reported with ⟨x, _, _, heq⟩ | ⟨_, heq⟩
  · rw [heq]
    exact ⟨h.list.insert x, by simp [h.list_owner], h.table.join x, by simp [h.table_owner], h.before⟩
  · rw [heq]
    exact h

theorem Sound.syncSuccessors (h : v.Sound) (walked : List Peer) : (v.syncSuccessors walked).Sound := by
  unfold View.syncSuccessors
  split
  · exact h
  · exact ⟨h.list.replace walked, h.list_owner, h.table, h.table_owner, h.before⟩

theorem Sound.setFinger (h : v.Sound) (k : Nat) (p : Option Peer) : (v.setFinger k p).Sound :=
  ⟨h.list, h.list_owner, h.table.set k p, h.table_owner, h.before⟩

theorem Sound.eraseFinger (h : v.Sound) (id : RingId) : Sound { v with fingers := v.fingers.erase id } :=
  ⟨h.list, h.list_owner, h.table.erase id, h.table_owner, h.before⟩

theorem Sound.erase (h : v.Sound) (p : Peer) : (v.erase p).Sound := by
  have hlist : (v.erase p).successors.Sound ∧ (v.erase p).successors.owner = v.self := by
    simp only [View.erase]
    split
    · split
      · exact ⟨(h.list.erase p).insert _, by rw [Successors.insert_owner]; exact h.list_owner⟩
      · exact ⟨h.list.erase p, h.list_owner⟩
    · exact ⟨h.list.erase p, h.list_owner⟩
  refine ⟨hlist.1, hlist.2, h.table.erase p.id, h.table_owner, fun q hq => ?_⟩
  exact h.before q (Option.filter_eq_some_iff.mp hq).1

theorem Sound.clearPredecessorIf (h : v.Sound) (p : Peer) : (v.clearPredecessorIf p).1.Sound := by
  unfold View.clearPredecessorIf
  split
  · split
    · exact ⟨h.list, h.list_owner, h.table, h.table_owner, fun _ hq => by cases hq⟩
    · exact h
  · exact h

@[simp] theorem create_self (v : View) : v.create.self = v.self := rfl

@[simp] theorem join_self (v : View) (p : Peer) : (v.join p).1.self = v.self := by
  unfold join
  split <;> rfl

@[simp] theorem notify_self (v : View) (p : Peer) : (v.notify p).1.self = v.self := by
  unfold notify
  split
  · rfl
  · split <;> rfl

@[simp] theorem stabilize_self (v : View) (reported : Option Peer) : (v.stabilize reported).1.self = v.self := by
  rcases v.stabilize_cases reported with ⟨_, _, _, heq⟩ | ⟨_, heq⟩ <;> rw [heq]

@[simp] theorem syncSuccessors_self (v : View) (walked : List Peer) : (v.syncSuccessors walked).self = v.self := by
  unfold syncSuccessors
  split <;> rfl

@[simp] theorem setFinger_self (v : View) (k : Nat) (p : Option Peer) : (v.setFinger k p).self = v.self := rfl

@[simp] theorem erase_self (v : View) (p : Peer) : (v.erase p).self = v.self := rfl

@[simp] theorem clearPredecessorIf_self (v : View) (p : Peer) : (v.clearPredecessorIf p).1.self = v.self := by
  unfold clearPredecessorIf
  split
  · split <;> rfl
  · rfl

theorem Sound.apply (h : v.Sound) (op : Op) : (v.apply op).Sound := by
  cases op with
  | create => exact h.create
  | join p => exact h.join p
  | notify candidate => exact h.notify candidate
  | stabilize reported => exact h.stabilize reported
  | syncSuccessors walked => exact h.syncSuccessors walked
  | setFinger k p => exact h.setFinger k p
  | eraseFinger id => exact h.eraseFinger id
  | erase p => exact h.erase p
  | clearPredecessorIf p => exact h.clearPredecessorIf p

@[simp] theorem apply_self (v : View) (op : Op) : (v.apply op).self = v.self := by
  cases op <;> simp [View.apply]

theorem apply_bound (v : View) (op : Op) : (v.apply op).successors.bound = v.successors.bound := by
  cases op with
  | join p =>
      simp only [apply, join]
      split
      · rfl
      · exact Successors.insert_bound _ _
  | notify candidate => rcases v.notify_cases candidate with ⟨_, _, heq⟩ | ⟨_, heq⟩ <;> simp only [apply, heq]
  | stabilize reported =>
      rcases v.stabilize_cases reported with ⟨x, _, _, heq⟩ | ⟨_, heq⟩ <;> simp only [apply, heq]
      exact Successors.insert_bound _ _
  | syncSuccessors walked =>
      simp only [apply, syncSuccessors]
      split <;> rfl
  | erase p =>
      simp only [apply, erase]
      split
      · split
        · exact Successors.insert_bound _ _
        · rfl
      · rfl
  | clearPredecessorIf p =>
      simp only [apply, clearPredecessorIf]
      split
      · split <;> rfl
      · rfl
  | _ => rfl

theorem Evolves.refl (v : View) : v.Evolves v := ⟨[], rfl⟩

theorem Evolves.trans {u : View} : v.Evolves w → w.Evolves u → v.Evolves u := by
  rintro ⟨ops, rfl⟩ ⟨ops', rfl⟩
  exact ⟨ops ++ ops', by rw [List.foldl_append]⟩

theorem Evolves.apply (v : View) (op : Op) : v.Evolves (v.apply op) := ⟨[op], rfl⟩

theorem Evolves.self (h : v.Evolves w) : w.self = v.self := by
  obtain ⟨ops, rfl⟩ := h
  induction ops generalizing v with
  | nil => rfl
  | cons op ops ih => exact ih.trans (apply_self v op)

theorem Evolves.sound (h : v.Evolves w) (hv : v.Sound) : w.Sound := by
  obtain ⟨ops, rfl⟩ := h
  induction ops generalizing v with
  | nil => exact hv
  | cons op ops ih => exact ih (hv.apply op)

theorem Evolves.bound (h : v.Evolves w) : w.successors.bound = v.successors.bound := by
  obtain ⟨ops, rfl⟩ := h
  induction ops generalizing v with
  | nil => rfl
  | cons op ops ih => exact ih.trans (apply_bound v op)

/-! ## The successor -/

theorem Sound.isAlone_iff (h : v.Sound) : v.isAlone = true ↔ v.successors.peers = [] := by
  rw [isAlone, decide_eq_true_eq, ← h.list_owner]
  exact h.list.nearest_id

theorem Sound.successor_of_alone (h : v.Sound) (ha : v.isAlone = true) : v.successor = v.self := by
  rw [successor, Successors.nearest_nil (h.isAlone_iff.mp ha), h.list_owner]

theorem successor_mem (h : v.successors.peers ≠ []) : v.successor ∈ v.successors.peers :=
  Successors.nearest_mem h

/-- A member that has a successor adopts just those who lie in front of it. -/
theorem adopts_iff_between (hne : v.successor.id ≠ v.self.id) :
    v.adopts p = true ↔ RingId.Between v.self.id p.id v.successor.id := by
  have halone : v.isAlone = false := decide_eq_false hne
  rw [adopts, halone, Bool.false_or, Bool.and_eq_true, RingId.inArc_neither (Ne.symm hne), decide_eq_true_eq]
  exact and_iff_right_of_imp fun h hid => RingId.distance_pos.mp h.1 hid.symm

/-- Whoever is adopted is in the list, and the successor from then on. -/
theorem Sound.successor_adopted (h : v.Sound) (hadopts : v.adopts p = true) :
    p ∈ (v.stabilize (some p)).1.successors.peers ∧ (v.stabilize (some p)).1.successor = p := by
  have hid : p.id ≠ v.successors.owner.id := by
    rw [h.list_owner]
    simpa using (Bool.and_eq_true_iff.mp hadopts).1
  obtain ⟨hsome, hle⟩ := h.list.nearest_insert hid (Or.inl rfl)
  have heq : (v.stabilize (some p)).1.successors = (v.successors.insert p).1 := by
    simp [View.stabilize, Option.filter, hadopts]
  have hmem := Successors.nearest_mem hsome
  rw [successor, heq]
  suffices hnearest : (v.successors.insert p).1.nearest = p from ⟨by rwa [hnearest] at hmem, hnearest⟩
  refine (Successors.mem_insert hmem).elim id fun hold => ?_
  -- Anybody else in the list is farther away.
  have hne : v.successor.id ≠ v.self.id := fun hid =>
    List.ne_nil_of_mem hold (h.isAlone_iff.mp (decide_eq_true hid))
  have hcloser := (adopts_iff_between hne).mp hadopts
  have hnearest := h.list.nearest_le hold
  rw [Successors.reach, Successors.reach, h.list_owner] at hle hnearest
  exact absurd hcloser.2 (Nat.not_lt.mpr (Nat.le_trans hnearest hle))

/-! ## The owner of a position, as far as the view tells -/

/-- The peer a lookup would be passed on to: the highest finger before the position, or the successor. -/
def hop (v : View) (id : RingId) : Peer := (v.fingers.closestPreceding? id).getD v.successor

/-- A position the view may pass a lookup on to: that of a finger or of the successor. -/
def Offers (v : View) (id : RingId) : Prop := v.fingers.contains id = true ∨ v.successor.id = id

theorem hop_mem (v : View) (id : RingId) :
    v.fingers.closestPreceding? id = some (v.hop id) ∨ v.hop id = v.successor := by
  unfold hop
  cases v.fingers.closestPreceding? id with
  | none => exact Or.inr rfl
  | some p => exact Or.inl rfl

/-- The three answers to a lookup: the member itself, its successor, or a peer that lies before the position. -/
theorem Sound.findSuccessor_cases (h : v.Sound) (id : RingId) :
    (id = v.self.id ∧ v.findSuccessor id = .found v.self) ∨
      (id ≠ v.self.id ∧ v.findSuccessor id = .found v.successor ∧
        (v.isAlone = true ∨ v.self.id.distance id ≤ v.self.id.distance v.successor.id)) ∨
      (id ≠ v.self.id ∧ v.findSuccessor id = .contact (v.hop id) (.findSuccessor id) ∧ v.isAlone = false ∧
        RingId.Between v.self.id v.successor.id id ∧ RingId.Between v.self.id (v.hop id).id id) := by
  by_cases hself : id = v.self.id
  · exact Or.inl ⟨hself, by simp [findSuccessor, hself]⟩
  refine Or.inr ?_
  cases halone : v.isAlone with
  | true => exact Or.inl ⟨hself, by simp [findSuccessor, hself, halone], Or.inl rfl⟩
  | false =>
      have hne : v.self.id ≠ v.successor.id := fun e => by
        rw [isAlone, decide_eq_false_iff_not] at halone
        exact halone e.symm
      have hpos : 0 < v.self.id.distance id := RingId.distance_pos.mpr (Ne.symm hself)
      have hspos : 0 < v.self.id.distance v.successor.id := RingId.distance_pos.mpr hne
      cases harc : id.inArc v.self.id v.successor.id .last with
      | true =>
          have := (RingId.inArc_last hne).mp harc
          exact Or.inl ⟨hself, by simp [findSuccessor, hself, harc], Or.inr this.2⟩
      | false =>
          have hbeyond : RingId.Between v.self.id v.successor.id id := by
            refine ⟨hspos, Nat.lt_of_not_le fun hle => ?_⟩
            rw [(RingId.inArc_last hne).mpr ⟨hpos, hle⟩] at harc
            cases harc
          refine Or.inr ⟨hself, by simp [findSuccessor, hself, halone, harc, hop], rfl, hbeyond, ?_⟩
          rcases v.hop_mem id with hf | hs
          · have := (Fingers.closestPreceding?_eq_some (by rw [h.table_owner]; exact hself) hf).2
            rwa [h.table_owner] at this
          · rw [hs]
            exact hbeyond

theorem Sound.of_found (h : v.Sound) (hfound : v.findSuccessor id = .found p) :
    (id = v.self.id ∧ p = v.self) ∨ (id ≠ v.self.id ∧ p = v.successor ∧
      (v.isAlone = true ∨ v.self.id.distance id ≤ v.self.id.distance v.successor.id)) := by
  rcases h.findSuccessor_cases id with ⟨hid, heq⟩ | ⟨hid, heq, hcase⟩ | ⟨_, heq, _⟩ <;> rw [heq] at hfound <;>
    cases hfound
  · exact Or.inl ⟨hid, rfl⟩
  · exact Or.inr ⟨hid, rfl, hcase⟩

/-- Asked for the position right behind it, a member names its successor. -/
theorem Sound.findSuccessor_behind (h : v.Sound) : v.findSuccessor (v.self.id.advance 1) = .found v.successor := by
  have hone : v.self.id.distance (v.self.id.advance 1) = 1 := RingId.distance_advance _ (by decide)
  rcases h.findSuccessor_cases (v.self.id.advance 1) with ⟨hid, _⟩ | ⟨_, heq, _⟩ | ⟨_, _, _, ⟨hpos, hlt⟩, _⟩
  · rw [hid, RingId.distance_self] at hone
    cases hone
  · exact heq
  · omega

theorem Sound.of_contact {errand : Errand} (h : v.Sound) (hcontact : v.findSuccessor id = .contact p errand) :
    id ≠ v.self.id ∧ p = v.hop id ∧ v.isAlone = false ∧ RingId.Between v.self.id p.id id := by
  rcases h.findSuccessor_cases id with ⟨_, heq⟩ | ⟨_, heq, _⟩ | ⟨hid, heq, halone, _, hbetween⟩ <;>
    rw [heq] at hcontact <;> cases hcontact
  exact ⟨hid, rfl, halone, hbetween⟩

theorem findSuccessor_errand {errand : Errand} (h : v.findSuccessor id = .contact p errand) :
    errand = .findSuccessor id := by
  unfold findSuccessor at h
  split at h
  · cases h
  · split at h
    · cases h
    · exact (Decision.contact.inj h).2.symm

theorem Sound.offers_hop (h : v.Sound) (hid : id ≠ v.self.id) : v.Offers (v.hop id).id := by
  rcases v.hop_mem id with hf | hs
  · have := (Fingers.closestPreceding?_eq_some (by rw [h.table_owner]; exact hid) hf).1
    exact Or.inl (Fingers.contains_iff.mpr ⟨_, this, rfl⟩)
  · exact Or.inr (by rw [hs])

/-- Dropping a finger offers nothing new, as it only moves others up. -/
theorem offers_of_eraseFinger {x : RingId} (h : (v.apply (.eraseFinger id)).Offers x) : v.Offers x := by
  rcases h with h | h
  · obtain ⟨p, hp, hid⟩ := Fingers.contains_iff.mp h
    exact Or.inl (Fingers.contains_iff.mpr ⟨p, (Fingers.mem_erase hp).1, hid⟩)
  · exact Or.inr h

theorem not_offers_eraseFinger (h : id ≠ v.successor.id) : ¬ (v.apply (.eraseFinger id)).Offers id := by
  rintro (hoffers | hoffers)
  · obtain ⟨p, hp, hid⟩ := Fingers.contains_iff.mp hoffers
    exact (Fingers.mem_erase hp).2 hid
  · exact h hoffers.symm

end View

end ChordOverlay
