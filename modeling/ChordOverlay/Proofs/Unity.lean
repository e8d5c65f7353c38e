import ChordOverlay.Proofs.Pact

/-!
# A ring without failures stays one

One member creates the ring and all others join it. Whoever has a successor then has it no farther away than the
creator, so every way along the successors ends at the creator, however the activities of all members interleave.
-/

namespace ChordOverlay

/-- The member has taken another one for its successor. -/
def Member.Adopted (m : Member) : Prop := m.view.successors.peers ≠ []

instance (m : Member) : Decidable m.Adopted := inferInstanceAs (Decidable (_ ≠ _))

namespace Unity

variable {ι : Type} {n₀ k : ι} {σ σ' : ι → Member} {m : Member} {id : RingId} {p : Peer}

/-! ## The invariant -/

/-- The creator, and whoever has a successor. -/
def Inside (n₀ : ι) (σ : ι → Member) (k : ι) : Prop := k = n₀ ∨ (σ k).Adopted

/-- A position that somebody inside has. -/
def Listed (n₀ : ι) (σ : ι → Member) (id : RingId) : Prop := ∃ k, Inside n₀ σ k ∧ (σ k).self.id = id

/-- An owner of `id` that may be taken for a successor: it comes no later than the creator. -/
def Meets (n₀ : ι) (σ : ι → Member) (id : RingId) (p : Peer) : Prop :=
  Listed n₀ σ p.id ∧ id.distance p.id ≤ id.distance (σ n₀).self.id

/-- Positions stay, and nobody but the creator is ever without a successor again. -/
structure Grows (n₀ : ι) (σ σ' : ι → Member) : Prop where
  self : ∀ k, (σ' k).self = (σ k).self
  adopted : ∀ k, k ≠ n₀ → (σ k).Adopted → (σ' k).Adopted

/-- What `m` has to satisfy to stand for member `k`. -/
structure Fits (n₀ : ι) (σ : ι → Member) (k : ι) (m : Member) : Prop where
  self : m.self = (σ k).self
  sound : m.view.Sound
  peers : ∀ p ∈ m.view.successors.peers, Listed n₀ σ p.id
  before : ∀ p, m.view.predecessor = some p → Listed n₀ σ p.id
  adopted : k ≠ n₀ → (σ k).Adopted → m.Adopted
  near : k ≠ n₀ → m.Adopted → m.self.id.distance m.view.successor.id ≤ m.self.id.distance (σ n₀).self.id
  joined : k ≠ n₀ → m.phase = .joined → m.Adopted
  bare : k ≠ n₀ → ¬ m.Adopted → m.view.predecessor = none

/-- Every member is in order. -/
def United (n₀ : ι) (σ : ι → Member) : Prop := ∀ k, Fits n₀ σ k (σ k)

theorem Grows.refl (σ : ι → Member) : Grows n₀ σ σ := ⟨fun _ => rfl, fun _ _ h => h⟩

theorem Grows.trans {σ'' : ι → Member} (h : Grows n₀ σ σ') (h' : Grows n₀ σ' σ'') : Grows n₀ σ σ'' :=
  ⟨fun k => (h'.self k).trans (h.self k), fun k hk ha => h'.adopted k hk (h.adopted k hk ha)⟩

theorem Inside.mono (hk : Inside n₀ σ k) (h : Grows n₀ σ σ') : Inside n₀ σ' k := by
  by_cases hk₀ : k = n₀
  · exact Or.inl hk₀
  · exact Or.inr (h.adopted k hk₀ (hk.resolve_left hk₀))

theorem Listed.mono (hid : Listed n₀ σ id) (h : Grows n₀ σ σ') : Listed n₀ σ' id := by
  obtain ⟨k, hk, rfl⟩ := hid
  exact ⟨k, hk.mono h, by rw [h.self k]⟩

theorem Inside.listed (hk : Inside n₀ σ k) : Listed n₀ σ (σ k).self.id := ⟨k, hk, rfl⟩

theorem Meets.mono (hp : Meets n₀ σ id p) (h : Grows n₀ σ σ') : Meets n₀ σ' id p :=
  ⟨hp.1.mono h, by rw [h.self n₀]; exact hp.2⟩

theorem Fits.mono (hm : Fits n₀ σ k m) (h : Grows n₀ σ σ') (ha : k ≠ n₀ → (σ' k).Adopted → m.Adopted) :
    Fits n₀ σ' k m where
  self := hm.self.trans (h.self k).symm
  sound := hm.sound
  peers := fun p hp => (hm.peers p hp).mono h
  before := fun p hp => (hm.before p hp).mono h
  adopted := ha
  near := by
    rw [h.self n₀]
    exact hm.near
  joined := hm.joined
  bare := hm.bare

/-- A member that fits may take its place. -/
theorem United.store [DecidableEq ι] (h : United n₀ σ) (hm : Fits n₀ σ k m) :
    Grows n₀ σ (Function.update σ k m) ∧ United n₀ (Function.update σ k m) := by
  have hgrows : Grows n₀ σ (Function.update σ k m) := by
    refine ⟨fun j => ?_, fun j hj ha => ?_⟩
    · by_cases hjk : j = k
      · rw [hjk, Function.update_self]
        exact hm.self
      · rw [Function.update_of_ne hjk]
    · by_cases hjk : j = k
      · subst hjk
        rw [Function.update_self]
        exact hm.adopted hj ha
      · rw [Function.update_of_ne hjk]
        exact ha
  refine ⟨hgrows, fun j => ?_⟩
  by_cases hjk : j = k
  · subst hjk
    rw [Function.update_self]
    refine hm.mono hgrows fun _ ha => ?_
    rwa [Function.update_self] at ha
  · rw [Function.update_of_ne hjk]
    refine (h j).mono hgrows fun _ ha => ?_
    rwa [Function.update_of_ne hjk] at ha

theorem United.adopted_of_ne (h : United n₀ σ) (hid : (σ k).view.successor.id ≠ (σ k).self.id) : (σ k).Adopted := by
  intro hnil
  refine hid ?_
  rw [View.successor, Successors.nearest_nil hnil, (h k).sound.list_owner]
  rfl

/-! ## What a member may do -/

theorem United.phase (h : United n₀ σ) (k : ι) (phase : Phase) (rounds : List Round)
    (hjoined : k ≠ n₀ → phase = .joined → (σ k).Adopted) : Fits n₀ σ k { σ k with phase, rounds } :=
  { h k with adopted := fun _ ha => ha, joined := hjoined }

/-- Fingers are never taken for anything but a hint. -/
theorem United.fingers (h : United n₀ σ) (k : ι) (fingers : Fingers) (hsound : fingers.Sound)
    (howner : fingers.owner = (σ k).self) : Fits n₀ σ k { σ k with view.fingers := fingers } :=
  { h k with
    sound := ⟨(h k).sound.list, (h k).sound.list_owner, hsound, howner, (h k).sound.before⟩
    adopted := fun _ ha => ha }

theorem United.create (h : United n₀ σ) (phase : Phase) (rounds : List Round) :
    Fits n₀ σ n₀ { σ n₀ with phase, rounds, view := (σ n₀).view.create } where
  self := rfl
  sound := (h n₀).sound.create
  peers := fun p hp => by cases Successors.mem_replace hp
  before := fun p hp => by
    cases hp
    exact Inside.listed (Or.inl rfl)
  adopted := fun hk => absurd rfl hk
  near := fun hk => absurd rfl hk
  joined := fun hk => absurd rfl hk
  bare := fun hk => absurd rfl hk

theorem United.notify (h : United n₀ σ) (hjoined : (σ k).phase = .joined) (hp : Listed n₀ σ p.id) :
    Fits n₀ σ k { σ k with view := ((σ k).view.notify p).1 } := by
  have hsame : ((σ k).view.notify p).1 = (σ k).view ∨
      ((σ k).view.notify p).1 = { (σ k).view with predecessor := some p } := by
    unfold View.notify
    split
    · exact Or.inl rfl
    · split
      · exact Or.inr rfl
      · exact Or.inl rfl
  rcases hsame with heq | heq
  · rw [heq]
    exact h k
  · have hsound := (h k).sound.notify p
    rw [heq] at hsound ⊢
    exact { h k with
      sound := hsound
      before := fun q hq => by
        cases hq
        exact hp
      adopted := fun _ ha => ha
      bare := fun hk hbare => absurd ((h k).joined hk hjoined) hbare }

/-- The view of a member that has taken `p` into its successors and its fingers. -/
def taking (v : View) (p : Peer) : View :=
  { v with successors := (v.successors.insert p).1, fingers := v.fingers.join p }

theorem United.take (h : United n₀ σ) (hid : p.id ≠ (σ k).self.id) (hp : Listed n₀ σ p.id)
    (hnear : k ≠ n₀ → (σ k).Adopted ∨ (σ k).self.id.distance p.id ≤ (σ k).self.id.distance (σ n₀).self.id) :
    Member.Adopted { σ k with view := taking (σ k).view p } ∧ Fits n₀ σ k { σ k with view := taking (σ k).view p } := by
  have hv := (h k).sound
  have hown : p.id ≠ (σ k).view.successors.owner.id := by
    rw [hv.list_owner]
    exact hid
  have hnearest := hv.list.nearest_insert (q := p) hown (Or.inl rfl)
  refine ⟨hnearest.1, ?_⟩
  exact {
    self := rfl
    sound := ⟨hv.list.insert p, by simp [taking, hv.list_owner], hv.table.join p, by simp [taking, hv.table_owner],
      hv.before⟩
    peers := fun q hq => by
      rcases Successors.mem_insert hq with rfl | hq
      · exact hp
      · exact (h k).peers q hq
    before := (h k).before
    adopted := fun _ _ => hnearest.1
    near := fun hk _ => by
      have hreach : ∀ q : Peer, Successors.reach (σ k).view.successors.owner q = (σ k).self.id.distance q.id := by
        intro q
        rw [Successors.reach, hv.list_owner]
        rfl
      rcases hnear hk with ha | hle
      · have := (hv.list.nearest_insert hown (Or.inr (Successors.nearest_mem ha))).2
        rw [hreach, hreach] at this
        exact Nat.le_trans this ((h k).near hk ha)
      · have := hnearest.2
        rw [hreach, hreach] at this
        exact Nat.le_trans this hle
    joined := fun _ _ => hnearest.1
    bare := fun _ hbare => absurd hnearest.1 hbare }

theorem United.stabilize (h : United n₀ σ) {reported : Option Peer} (hlisted : ∀ p, reported = some p → Listed n₀ σ p.id)
    (hnone : k ≠ n₀ → (σ k).Adopted ∨ reported = none) :
    Fits n₀ σ k { σ k with view := ((σ k).view.stabilize reported).1 } := by
  rcases (σ k).view.stabilize_cases reported with ⟨p, rfl, hadopts, heq⟩ | ⟨_, heq⟩
  · have hid : p.id ≠ (σ k).view.self.id := by
      simpa using (Bool.and_eq_true_iff.mp hadopts).1
    rw [heq]
    exact (h.take hid (hlisted p rfl) fun hk => Or.inl ((hnone hk).resolve_right (by simp))).2
  · rw [heq]
    exact h k

theorem United.walk (h : United n₀ σ) {walked : List Peer} (hwalked : ∀ q ∈ walked, Listed n₀ σ q.id)
    (hp : p ∈ walked) (hid : p.id ≠ (σ k).self.id)
    (hnear : k ≠ n₀ → (σ k).self.id.distance p.id ≤ (σ k).self.id.distance (σ n₀).self.id) :
    Fits n₀ σ k { σ k with view := (σ k).view.syncSuccessors walked } := by
  have hv := (h k).sound
  have hsync : (σ k).view.syncSuccessors walked =
      { (σ k).view with successors := (σ k).view.successors.replace walked } := by
    cases walked with
    | nil => cases hp
    | cons q qs => rfl
  have hnearest := hv.list.nearest_replace hp (by rw [hv.list_owner]; exact hid)
  have hsound := hv.syncSuccessors walked
  rw [hsync] at hsound ⊢
  exact {
    self := rfl
    sound := hsound
    peers := fun q hq => hwalked q (Successors.mem_replace hq)
    before := (h k).before
    adopted := fun _ _ => hnearest.1
    near := fun hk _ => by
      have hle := hnearest.2
      rw [Successors.reach, Successors.reach, hv.list_owner] at hle
      exact Nat.le_trans hle (hnear hk)
    joined := fun _ _ => hnearest.1
    bare := fun _ hbare => absurd hnearest.1 hbare }

/-! ## What a member may answer -/

/-- Whoever is inside knows the owner it names to come no later than the creator. -/
theorem United.found (h : United n₀ σ) (hk : Inside n₀ σ k) (hfound : (σ k).view.findSuccessor id = .found p) :
    Meets n₀ σ id p := by
  have hv := (h k).sound
  rcases hv.of_found hfound with ⟨rfl, rfl⟩ | ⟨hne, rfl, hcase⟩
  · exact ⟨hk.listed, by simp⟩
  · cases halone : (σ k).view.isAlone with
    | true =>
        have hk₀ : k = n₀ := hk.resolve_right fun ha => ha (hv.isAlone_iff.mp halone)
        rw [hv.successor_of_alone halone, hk₀]
        exact ⟨⟨n₀, Or.inl rfl, rfl⟩, Nat.le_refl _⟩
    | false =>
        have ha : (σ k).Adopted := fun hnil => by
          rw [hv.isAlone_iff.mpr hnil] at halone
          cases halone
        have hle := hcase.resolve_left (by simp [halone])
        refine ⟨(h k).peers _ (View.successor_mem ha), ?_⟩
        have hway := RingId.distance_add hle
        by_cases hk₀ : k = n₀
        · -- From the creator the way leads over the successor and all round the ring.
          subst hk₀
          have hpos : 0 < (σ k).view.self.id.distance id := RingId.distance_pos.mpr (Ne.symm hne)
          have hround := RingId.distance_wrap (a := (σ k).view.self.id) (c := (σ k).view.self.id) (b := id) (by simpa)
          have hlt := RingId.distance_lt (σ k).view.self.id (σ k).view.successor.id
          rw [RingId.distance_self] at hround
          change _ ≤ id.distance (σ k).view.self.id
          omega
        · have hnear := (h k).near hk₀ ha
          have hbeyond := RingId.distance_add (Nat.le_trans hle hnear)
          change _ + id.distance (σ n₀).self.id = (σ k).self.id.distance (σ n₀).self.id at hbeyond
          change _ = (σ k).self.id.distance _ at hway
          change _ ≤ id.distance (σ n₀).self.id
          have : (σ k).view.self.id = (σ k).self.id := rfl
          rw [this] at hway hbeyond
          omega

/-! ## The pact -/

/-- A notice names somebody inside. -/
def Asks (n₀ : ι) (σ : ι → Member) : Query → Prop
  | .notify id _ => Listed n₀ σ id
  | _ => True

/-- Every request is answered, and whoever an answer names is inside. -/
def Answers (n₀ : ι) (σ : ι → Member) : (q : Query) → Except Failure q.Answer → Prop
  | .owner id _, .ok (some p) => Meets n₀ σ id p
  | .predecessor _, .ok (some p) => Listed n₀ σ p.id
  | .alive, .ok alive => alive = true
  | _, .ok _ => True
  | _, .error _ => False

/-- What a check of the successors finds: everybody is alive. -/
def Yields : (o : Operation) → o.Result → Prop
  | .checkSuccessors, alive => alive = true
  | _, _ => True

/-- Members only come in and move up, and whoever is named is inside. -/
def pact (n₀ : ι) : Pact ι where
  given _ := True
  inv := United n₀
  moves := Grows n₀
  asks σ _ _ _ q := Asks n₀ σ q
  answers := Answers n₀
  yields _ := Yields

/-- One member creates the ring and the others join it; nobody leaves, and views change by these operations only. -/
def May (n₀ k : ι) : Operation → Prop
  | .create => k = n₀
  | .join _ => k ≠ n₀
  | .leave | .touch _ => False
  | _ => True

theorem Answers.mono {q : Query} {r : Except Failure q.Answer} (hr : Answers n₀ σ q r) (h : Grows n₀ σ σ') :
    Answers n₀ σ' q r := by
  cases r with
  | error e => cases q <;> exact hr.elim
  | ok a =>
      cases q with
      | owner id ttl =>
          cases a with
          | none => trivial
          | some p => exact Meets.mono hr h
      | predecessor asker =>
          cases a with
          | none => trivial
          | some p => exact Listed.mono hr h
      | alive => exact hr
      | notify id port => trivial

theorem Answers.alive {r : Except Failure Bool} (h : Answers n₀ σ .alive r) : r = .ok true := by
  cases r with
  | error e => exact h.elim
  | ok alive => exact congrArg Except.ok h

theorem Asks.mono {q : Query} (hq : Asks n₀ σ q) (h : Grows n₀ σ σ') : Asks n₀ σ' q := by
  cases q with
  | notify id port => exact Listed.mono hq h
  | _ => trivial

variable {d : Duty} {ttl : UInt8}

/-- A walk meets only peers that are inside. -/
theorem walks : (pact n₀).Walks d k fun σ q => Listed n₀ σ q.id where
  refl := .refl
  trans := .trans
  asks := trivial
  stays := .mono
  meets := And.left

variable [DecidableEq ι]

theorem finds {post : (ι → Member) → Except Failure Peer → Prop} (hok : ∀ σ p, Meets n₀ σ id p → post σ (.ok p))
    (herror : ∀ σ e, post σ (.error e)) : (pact n₀).Finds d k id ttl (fun σ => Inside n₀ σ k) post where
  stable := fun hk hm _ => hk.mono hm
  found := fun hi hk hfound => hok _ _ (United.found hi hk hfound)
  contact := fun _ _ _ _ _ => trivial
  answer := fun _ hr => hok _ _ hr
  failure := fun e _ => herror _ e
  drop := fun x hi _ => United.store hi
    (United.fingers hi k _ ((hi k).sound.table.erase x) (hi k).sound.table_owner)

theorem keeps_lookup {post : (ι → Member) → Except Failure Peer → Prop} (h : United n₀ σ)
    (hok : ∀ σ p, Meets n₀ σ id p → post σ (.ok p)) (herror : ∀ σ e, post σ (.error e)) :
    (Activity.lookup id ttl).Keeps (pact n₀) d k post σ :=
  Activity.keeps_lookup (finds hok herror) h fun hphase => by
    by_cases hk : k = n₀
    · exact Or.inl hk
    · exact Or.inr ((h k).joined hk hphase)

theorem keeps_answer (h : United n₀ σ) (source : Ipv4) {q : Query} (hq : Asks n₀ σ q) :
    (Activity.answer source q.request).Keeps (pact n₀) (.serve q) k ((pact n₀).results · (.serve q)) σ := by
  cases q with
  | owner id ttl =>
      refine Activity.Keeps.bind (keeps_lookup h (fun σ p hp => ?_) fun σ e => ?_)
      · exact hp
      · trivial
  | predecessor asker =>
      refine Activity.keeps_look.mpr ?_
      change Answers n₀ σ (.predecessor asker) (.ok (σ k).view.predecessor)
      cases hb : (σ k).view.predecessor with
      | none => trivial
      | some p => exact (h k).before p hb
  | alive => exact rfl
  | notify id port =>
      refine Activity.keeps_look.mpr ?_
      split
      · rename_i hjoined
        obtain ⟨hm, hi⟩ := h.store (h.notify hjoined (p := ⟨id, source, port⟩) hq)
        exact ⟨hm, hi, trivial⟩
      · trivial

/-! ## The operations of a member -/

theorem keeps_syncSuccessors {post : (ι → Member) → Unit → Prop} (h : United n₀ σ)
    (hpost : ∀ σ', Grows n₀ σ σ' → United n₀ σ' → post σ' ()) :
    Activity.syncSuccessors.Keeps (pact n₀) d k post σ := by
  refine Activity.keeps_look.mpr ?_
  change Activity.Keeps (pact n₀) d k post (ite _ _ _) σ
  split
  · exact hpost σ (.refl σ) h
  · rename_i hid
    have ha := h.adopted_of_ne hid
    have hmem := View.successor_mem ha
    refine Activity.Keeps.bind (Activity.keeps_walk walks h (fun q hq => ?_) fun σ' qs hm hi hqs hmore => ?_)
    · rw [List.mem_singleton.mp hq]
      exact (h k).peers _ hmem
    · refine Activity.keeps_look.mpr ?_
      have hp : (σ k).view.successor ∈ qs := hmore.subset List.mem_cons_self
      obtain ⟨hm', hi'⟩ := hi.store (hi.walk hqs hp (by rw [hm.self]; exact hid) fun hk => by
        rw [hm.self, hm.self]
        exact (h k).near hk ha)
      exact ⟨hm', hi', hpost _ (hm.trans hm') hi'⟩

/-- What is reported to a member that has no successor yet is that it has no predecessor either. -/
theorem keeps_askPredecessor {post : (ι → Member) → Except Failure (Option Peer) → Prop} (h : United n₀ σ)
    (hpost : ∀ σ' reported, Grows n₀ σ σ' → United n₀ σ' → (∀ p, reported = some p → Listed n₀ σ' p.id) →
      (k ≠ n₀ → (σ' k).Adopted ∨ reported = none) → post σ' (.ok reported)) :
    (Activity.askPredecessor (σ k)).Keeps (pact n₀) d k post σ := by
  change Activity.Keeps (pact n₀) d k post (ite _ _ _) σ
  split
  · rename_i hid
    refine hpost σ _ (.refl σ) h (h k).before fun hk => ?_
    by_cases ha : (σ k).Adopted
    · exact Or.inl ha
    · exact Or.inr ((h k).bare hk ha)
  · rename_i hid
    have ha := h.adopted_of_ne hid
    refine ⟨fun _ => trivial, fun σ' r hm hi hr => ?_⟩
    cases r with
    | error e => exact hr.elim
    | ok reported =>
        refine hpost σ' reported hm hi (fun p hp => ?_) fun hk => Or.inl (hm.adopted k hk ha)
        subst hp
        exact hr

theorem keeps_stabilize {post : (ι → Member) → Except Failure Unit → Prop} (h : United n₀ σ)
    (hpost : ∀ σ' r, post σ' r) : Activity.stabilize.Keeps (pact n₀) d k post σ := by
  refine Activity.keeps_look.mpr ?_
  refine Activity.Keeps.bind (keeps_askPredecessor h fun σ' reported hm hi hlisted hnone => ?_)
  refine Activity.keeps_look.mpr ?_
  have hfits := hi.stabilize hlisted hnone
  have hdecision := (σ' k).view.stabilize_decision reported
  have hend : ∀ σ'', United n₀ σ'' → Activity.Keeps (pact n₀) d k post
      (Activity.syncSuccessors >>= fun _ => pure (.ok ())) σ'' :=
    fun σ'' hi'' => Activity.Keeps.bind (keeps_syncSuccessors hi'' fun _ _ _ => hpost _ _)
  cases hstab : (σ' k).view.stabilize reported with
  | mk view decision =>
      rw [hstab] at hfits hdecision
      obtain ⟨hm', hi'⟩ := hi.store hfits
      refine Activity.keeps_store.mpr ⟨hm', hi', ?_⟩
      cases halone : view.isAlone with
      | true =>
          obtain rfl : decision = .nothing := by simpa [halone] using hdecision
          exact hend _ hi'
      | false =>
          obtain rfl : decision = .contact view.successor (.notify (σ' k).view.self) := by
            simpa [halone] using hdecision
          refine Activity.keeps_query.mpr ⟨fun _ => ?_, fun σ'' _ _ hi'' _ => hend σ'' hi''⟩
          refine ⟨k, Or.inr (hi'.adopted_of_ne ?_), ?_⟩
          · rw [Function.update_self]
            exact of_decide_eq_false halone
          · exact congrArg Peer.id (hm'.self k)

/-! ## Joining -/

theorem transition_eq_ok {m m' : Member} {source target : Phase} (h : m.transition source target = .ok m') :
    m' = { m with phase := target } := by
  unfold Member.transition at h
  split at h
  · exact (Except.ok.inj h).symm
  · cases h

theorem keeps_joinVia {bootstrap : Address} {post : (ι → Member) → Except Failure Peer → Prop} (hk : k ≠ n₀)
    (hok : ∀ σ' p, United n₀ σ' → (σ' k).Adopted → post σ' (.ok p))
    (herror : ∀ σ' e, United n₀ σ' → post σ' (.error e)) :
    (Activity.joinVia bootstrap).Keeps (pact n₀) d k post σ := by
  refine Activity.keeps_look.mpr (Activity.keeps_query.mpr ⟨fun _ => trivial, fun σ' r hm hi hr => ?_⟩)
  cases r with
  | error e => exact hr.elim
  | ok p =>
      cases p with
      | none => exact herror σ' _ hi
      | some p =>
          change Activity.Keeps (pact n₀) d k post (ite _ _ _) σ'
          split
          · exact herror σ' _ hi
          · rename_i hid
            refine Activity.keeps_look.mpr ?_
            rw [← hm.self k] at hid
            have hjoin : (σ' k).view.join p = (taking (σ' k).view p, .contact p (.notify (σ' k).view.self)) := if_neg hid
            rw [hjoin]
            have hmeets : Meets n₀ σ' (σ k).self.id p := hr
            rw [← hm.self k] at hmeets
            obtain ⟨ha, hfits⟩ := hi.take hid hmeets.1 fun _ => Or.inr hmeets.2
            obtain ⟨hm', hi'⟩ := hi.store hfits
            have ha' : (Function.update σ' k { σ' k with view := taking (σ' k).view p } k).Adopted := by
              rw [Function.update_self]
              exact ha
            refine Activity.keeps_store.mpr ⟨hm', hi', Activity.keeps_query.mpr ⟨fun _ => ?_, fun σ'' _ hm'' hi'' _ => ?_⟩⟩
            · exact ⟨k, Or.inr ha', congrArg Peer.id (hm'.self k)⟩
            · exact hok σ'' p hi'' (hm''.adopted k hk ha')

theorem keeps_join {bootstrap : Address} {post : (ι → Member) → Except Failure Peer → Prop} (h : United n₀ σ)
    (hk : k ≠ n₀) (hpost : ∀ σ' r, post σ' r) : (Activity.join bootstrap).Keeps (pact n₀) d k post σ := by
  refine Activity.keeps_look.mpr ?_
  cases htransition : (σ k).transition .created .joining with
  | error e => exact hpost σ _
  | ok m =>
      obtain rfl := transition_eq_ok htransition
      obtain ⟨hm, hi⟩ := h.store (h.phase k .joining (σ k).rounds fun _ hphase => by cases hphase)
      refine Activity.keeps_store.mpr ⟨hm, hi, Activity.Keeps.bind (keeps_joinVia hk (fun σ' p hi' ha => ?_) fun σ' e hi' => ?_)⟩
      · refine Activity.keeps_look.mpr ?_
        cases htransition' : (σ' k).transition .joining .joined with
        | error e => exact hpost σ' _
        | ok m =>
            obtain rfl := transition_eq_ok htransition'
            obtain ⟨hm'', hi''⟩ := hi'.store (hi'.phase k .joined ((σ' k).rounds ++ Round.all) fun _ _ => ha)
            exact ⟨hm'', hi'', hpost _ _⟩
      · refine Activity.keeps_look.mpr ?_
        cases htransition' : (σ' k).transition .joining .created with
        | error e => exact hpost σ' _
        | ok m =>
            obtain rfl := transition_eq_ok htransition'
            obtain ⟨hm'', hi''⟩ := hi'.store (hi'.phase k .created (σ' k).rounds fun _ hphase => by cases hphase)
            exact ⟨hm'', hi'', hpost _ _⟩

theorem keeps_create {post : (ι → Member) → Except Failure Unit → Prop} (h : United n₀ σ) (hpost : ∀ σ' r, post σ' r) :
    Activity.create.Keeps (pact n₀) d n₀ post σ := by
  refine Activity.keeps_look.mpr ?_
  have hcreate : (∃ e, (σ n₀).create = .error e) ∨ (σ n₀).create =
      .ok { σ n₀ with phase := .joined, rounds := (σ n₀).rounds ++ Round.all, view := (σ n₀).view.create } := by
    unfold Member.create
    cases htransition : (σ n₀).transition .created .joined with
    | error e => exact Or.inl ⟨e, rfl⟩
    | ok m =>
        obtain rfl := transition_eq_ok htransition
        exact Or.inr rfl
  rcases hcreate with ⟨e, heq⟩ | heq
  · rw [heq]
    exact hpost σ _
  · rw [heq]
    obtain ⟨hm, hi⟩ := h.store (h.create .joined ((σ n₀).rounds ++ Round.all))
    exact ⟨hm, hi, hpost _ _⟩

/-! ## The rounds of a member -/

omit [DecidableEq ι] in
theorem finish_fits (h : United n₀ σ) {o : Operation} (m : Member) {results : List o.Result}
    (hresults : ∀ r ∈ results, Yields o r) :
    Fits n₀ σ k { σ k with view := (o.gathering m).finish results (σ k).view } := by
  cases o with
  | fixFingers =>
      obtain ⟨fingers, hsound, howner, heq⟩ := Gathering.fixFingers_finish m results (h k).sound
      change Fits n₀ σ k { σ k with view := (Gathering.fixFingers m).finish results (σ k).view }
      rw [heq]
      exact h.fingers k fingers hsound howner
  | checkSuccessors =>
      change Fits n₀ σ k { σ k with view := (Gathering.checkSuccessors m).finish results (σ k).view }
      rw [Gathering.checkSuccessors_finish m hresults]
      exact h k
  | _ => exact h k

/-- What members do in a ring where nobody fails or leaves stays within the pact. -/
structure Tended (P : Pact ι) (n₀ : ι) : Prop where
  alive : ∀ {σ r}, P.answers σ .alive r → r = .ok true
  asks : ∀ {σ d k target}, P.asks σ d k target .alive
  yields : ∀ {σ o r}, Yields o r → P.yields σ o r
  create : ∀ {σ d} {post : (ι → Member) → Except Failure Unit → Prop}, P.inv σ → (∀ σ r, post σ r) →
    Activity.create.Keeps P d n₀ post σ
  join : ∀ {σ d k bootstrap} {post : (ι → Member) → Except Failure Peer → Prop}, P.inv σ → k ≠ n₀ → (∀ σ r, post σ r) →
    (Activity.join bootstrap).Keeps P d k post σ
  lookup : ∀ {σ d k id ttl} {post : (ι → Member) → Except Failure Peer → Prop}, P.inv σ → (∀ σ r, post σ r) →
    (Activity.lookup id ttl).Keeps P d k post σ
  stabilize : ∀ {σ d k} {post : (ι → Member) → Except Failure Unit → Prop}, P.inv σ → (∀ σ r, post σ r) →
    Activity.stabilize.Keeps P d k post σ
  syncSuccessors : ∀ {σ d k} {post : (ι → Member) → Unit → Prop}, P.inv σ → (∀ σ r, post σ r) →
    Activity.syncSuccessors.Keeps P d k post σ

namespace Tended

variable {P : Pact ι}

/-- Everybody answers to be alive. -/
theorem ping (h : Tended P n₀) {target : Address} {post : (ι → Member) → Bool → Prop} (hpost : ∀ σ, post σ true) :
    (Activity.ping target).Keeps P d k post σ := by
  refine Activity.keeps_query.mpr ⟨fun _ => h.asks, fun σ' r _ _ hr => ?_⟩
  obtain rfl := h.alive hr
  exact hpost σ'

theorem checkPredecessor (h : Tended P n₀) {post : (ι → Member) → Unit → Prop} (hpost : ∀ σ r, post σ r) :
    Activity.checkPredecessor.Keeps P d k post σ := by
  refine Activity.keeps_look.mpr ?_
  cases (σ k).view.predecessor with
  | none => exact hpost σ _
  | some p =>
      change Activity.Keeps P d k post (ite _ _ _) σ
      split
      · exact hpost σ _
      · exact Activity.Keeps.bind (h.ping fun σ' => hpost σ' _)

theorem jobs (h : Tended P n₀) {o : Operation} (hmay : May n₀ k o) (hi : P.inv σ) (m : Member) :
    ∀ a ∈ (o.gathering m).jobs, a.Keeps P (.own o) k (P.yields · o) σ := by
  intro a ha
  cases o with
  | create =>
      obtain rfl : k = n₀ := hmay
      obtain rfl := List.mem_singleton.mp ha
      exact h.create hi fun _ _ => h.yields trivial
  | join bootstrap =>
      obtain rfl := List.mem_singleton.mp ha
      exact h.join hi hmay fun _ _ => h.yields trivial
  | leave => exact hmay.elim
  | touch op => exact hmay.elim
  | lookup id ttl =>
      obtain rfl := List.mem_singleton.mp ha
      exact h.lookup hi fun _ _ => h.yields trivial
  | findSuccessor id =>
      obtain rfl := List.mem_singleton.mp ha
      exact Activity.keeps_findSuccessor (h.lookup hi fun _ _ => h.yields trivial) fun _ => h.yields trivial
  | stabilize =>
      obtain rfl := List.mem_singleton.mp ha
      exact h.stabilize hi fun _ _ => h.yields trivial
  | syncSuccessors =>
      obtain rfl := List.mem_singleton.mp ha
      exact h.syncSuccessors hi fun _ _ => h.yields trivial
  | checkPredecessor =>
      obtain rfl := List.mem_singleton.mp ha
      exact h.checkPredecessor fun _ _ => h.yields trivial
  | fixFingers =>
      obtain ⟨id, _, rfl⟩ := List.mem_map.mp ha
      exact h.lookup hi fun _ _ => h.yields trivial
  | checkSuccessors =>
      obtain ⟨p, _, rfl⟩ := List.mem_map.mp ha
      exact h.ping fun _ => h.yields rfl

end Tended

theorem tended (n₀ : ι) : Tended (pact n₀) n₀ where
  alive := Answers.alive
  asks := trivial
  yields := id
  create := keeps_create
  join := keeps_join
  lookup := fun hi hpost => keeps_lookup hi (fun σ _ _ => hpost σ _) fun σ _ => hpost σ _
  stabilize := keeps_stabilize
  syncSuccessors := fun hi hpost => keeps_syncSuccessors hi fun σ _ _ => hpost σ ()

theorem kept {net : Net ι} (hnet : ∀ target e, ¬ net.fails target e) : (pact n₀).Kept net (May n₀) where
  refl := .refl
  trans := .trans
  asks_mono := fun hq hm _ => hq.mono hm
  answers_mono := fun hr hm _ => hr.mono hm
  yields_mono := fun hr _ _ => hr
  fails := fun hfails => absurd hfails (hnet _ _)
  serve := fun hi hq _ => keeps_answer hi _ hq
  start := fun {σ host _} hmay _ a ha _ _ hi => (tended n₀).jobs hmay hi (σ host) a ha
  finish := fun {σ host _} _ _ _ _ _ hi' hrs => hi'.store (finish_fits hi' (σ host) hrs)

end Unity

end ChordOverlay
