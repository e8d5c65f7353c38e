import ChordOverlay.Host.Server

/-!
# Dialogs and their surroundings

A dialog runs in surroundings that meet its requests as they like, knowing all it has done before, and in which others
may change the member with every request. Whatever the surroundings are, the run ends: it gives a value, the member as
it is then, and the acts of the dialog in their order.
-/

namespace ChordOverlay

/-! ## Acts -/

/-- What a dialog does: it changes its member, or has a request met. -/
inductive Act where
  | stored (before after : Member)
  | asked (op : DialogOp) (answer : DialogOps.Answer op)

/-- The request that was met. -/
def Act.op : Act → DialogOp
  | .stored _ m => .store m
  | .asked op _ => op

/-- The request is a store. -/
def DialogOp.IsStore : DialogOp → Prop
  | .store _ => True
  | _ => False

/-- A request of those who call others. -/
def DialogOp.Calls : DialogOp → Prop
  | .clock | .connect _ | .push .. | .take .. | .release _ => True
  | _ => False

/-- A request that is met by the surroundings. -/
def DialogOp.Asks : DialogOp → Prop
  | .look | .store _ => False
  | _ => True

/-- The bytes that an act has written to an end. -/
def Act.wrote (e : End) : Act → Bytes
  | .asked (.push e' bytes _) (.accepted count) => if e' = e then bytes.take count else []
  | _ => []

/-- All bytes that have been written to an end. -/
def written (e : End) (acts : List Act) : Bytes := acts.flatMap (Act.wrote e)

theorem Act.wrote_eq_nil {e : End} {act : Act} (h : ∀ bytes deadline, act.op ≠ .push e bytes deadline) :
    act.wrote e = [] := by
  unfold Act.wrote
  split
  · refine if_neg ?_
    rintro rfl
    exact h _ _ rfl
  · rfl

theorem written_append (e : End) (xs ys : List Act) : written e (xs ++ ys) = written e xs ++ written e ys :=
  List.flatMap_append

theorem written_eq_nil {e : End} {acts : List Act} (h : ∀ act ∈ acts, ∀ bytes deadline, act.op ≠ .push e bytes deadline) :
    written e acts = [] :=
  List.flatMap_eq_nil_iff.mpr fun act hact => Act.wrote_eq_nil (h act hact)

theorem written_of_away {e : End} {acts : List Act} (h : ∀ act ∈ acts, act.op.end? ≠ some e) : written e acts = [] :=
  written_eq_nil fun act hact _ _ hop => h act hact (congrArg DialogOp.end? hop)

/-- How requests are met, and what others make of the member with each of them, by what has been done before. -/
structure Surroundings where
  answer (past : List Act) (op : DialogOp) : DialogOps.Answer op
  drift (past : List Act) (m : Member) : Member
  calls {past : List Act} {target : Address} {e : End} : answer past (.connect target) = Except.ok e → e.side = .caller
  moves {past : List Act} {e : End} {bytes : Bytes} {deadline : Option Nat} {count : Nat} :
    bytes ≠ [] → answer past (.push e bytes deadline) = Pushed.accepted count → 0 < count
  waits {past : List Act} {e : End} {bytes : Bytes} : answer past (.push e bytes none) ≠ Pushed.late

/-- What came of a dialog: its result, the member after it, and what was done. -/
structure Trace (α : Type) where
  value : α
  member : Member
  acts : List Act

namespace Trace

variable {α : Type}

/-- The same, with these acts before. -/
def since (acts : List Act) (t : Trace α) : Trace α := { t with acts := acts ++ t.acts }

@[simp] theorem since_value (acts : List Act) (t : Trace α) : (t.since acts).value = t.value := rfl

@[simp] theorem since_member (acts : List Act) (t : Trace α) : (t.since acts).member = t.member := rfl

@[simp] theorem since_acts (acts : List Act) (t : Trace α) : (t.since acts).acts = acts ++ t.acts := rfl

@[simp] theorem since_nil (t : Trace α) : t.since [] = t := rfl

theorem since_since (xs ys : List Act) (t : Trace α) : (t.since ys).since xs = t.since (xs ++ ys) := by
  simp [since]

end Trace

/-- Nothing is done at an end. -/
def Trace.Away {α : Type} (e : End) (t : Trace α) : Prop := ∀ act ∈ t.acts, act.op.end? ≠ some e

theorem Trace.Away.since {α : Type} {e : End} {acts : List Act} {t : Trace α} (hacts : ∀ act ∈ acts, act.op.end? ≠ some e)
    (h : t.Away e) : (t.since acts).Away e := by
  intro act hact
  rcases List.mem_append.mp hact with hact | hact
  · exact hacts act hact
  · exact h act hact

/-- What comes of one request, in these surroundings. -/
def Surroundings.meet (w : Surroundings) (past : List Act) (m : Member) : (op : DialogOp) → Trace (DialogOps.Answer op)
  | .look => ⟨m, m, []⟩
  | .store m' => ⟨(), m', [.stored m m']⟩
  | op => ⟨w.answer past op, w.drift (past ++ [.asked op (w.answer past op)]) m, [.asked op (w.answer past op)]⟩

/-- Others leave the phase of the member as it is. -/
def Surroundings.KeepsPhase (w : Surroundings) : Prop := ∀ past m, (w.drift past m).phase = m.phase

namespace Dialog

variable {α β : Type} {w : Surroundings} {past : List Act} {m : Member} {e : End}

/-- What comes of a whole dialog, in these surroundings. -/
def run (w : Surroundings) : Dialog α → List Act → Member → Trace α
  | .done a, _, m => ⟨a, m, []⟩
  | .ask op next, past, m =>
    let t := w.meet past m op
    (run w (next t.value) (past ++ t.acts) t.member).since t.acts

theorem run_ask (op : DialogOps.Op) (next : DialogOps.Answer op → Dialog α) : run w (.ask op next) past m =
    (run w (next (w.meet past m op).value) (past ++ (w.meet past m op).acts) (w.meet past m op).member).since
      (w.meet past m op).acts := rfl

@[simp] theorem run_done (a : α) : run w (.done a) past m = ⟨a, m, []⟩ := rfl

@[simp] theorem run_bind (d : Dialog α) (f : α → Dialog β) : run w (d.bind f) past m =
    (run w (f (run w d past m).value) (past ++ (run w d past m).acts) (run w d past m).member).since
      (run w d past m).acts := by
  induction d generalizing past m with
  | done a => simp [Program.bind]
  | ask op next ih => rw [Program.bind, run_ask, ih, run_ask]; simp [Trace.since_since]

/-- What holds of a run that begins with a request, whatever the answer is. -/
theorem meets (op : DialogOps.Op) (hop : DialogOp.Asks op) {f : DialogOps.Answer op → Dialog α} {Q : Trace α → Prop}
    (h : ∀ x m', w.answer past op = x → m' = w.drift (past ++ [.asked op x]) m →
      Q ((run w (f x) (past ++ [.asked op x]) m').since [.asked op x])) : Q (run w (perform op >>= f) past m) := by
  have hask := h (w.answer past op) _ rfl rfl
  cases op with
  | look => cases hop
  | store m' => cases hop
  | _ => exact hask

/-! ## What the text of a dialog tells -/

/-- Every request the dialog can come to make is of a kind. -/
def Only (P : DialogOp → Prop) : Dialog α → Prop
  | .done _ => True
  | .ask op next => P op ∧ ∀ x, Only P (next x)

theorem Only.bind {P : DialogOp → Prop} {d : Dialog α} {f : α → Dialog β} (hd : d.Only P) (hf : ∀ x, (f x).Only P) :
    Only P (d.bind f) := by
  induction d with
  | done a => exact hf a
  | ask op next ih => exact ⟨hd.1, fun x => ih x (hd.2 x)⟩

theorem Only.acts {P : DialogOp → Prop} {d : Dialog α} (h : d.Only P) : ∀ act ∈ (d.run w past m).acts, P act.op := by
  induction d generalizing past m with
  | done a => simp
  | ask op next ih =>
      intro act hact
      rw [run_ask, Trace.since_acts, List.mem_append] at hact
      rcases hact with hact | hact
      · cases op with
        | look => cases hact
        | store m' => exact List.mem_singleton.mp hact ▸ h.1
        | _ => exact List.mem_singleton.mp hact ▸ h.1
      · exact ih _ (h.2 _) act hact

theorem Only.mono {P Q : DialogOp → Prop} {d : Dialog α} (h : d.Only P) (hPQ : ∀ op, P op → Q op) : d.Only Q := by
  induction d with
  | done a => trivial
  | ask op next ih => exact ⟨hPQ op h.1, fun x => ih x (h.2 x)⟩

/-- What holds between a member and what becomes of it by one store, or by others, holds over a whole run. -/
theorem run_member {R : Member → Member → Prop} (hrefl : ∀ m, R m m) (htrans : ∀ {m m' m''}, R m m' → R m' m'' → R m m'')
    (hw : ∀ past m, R m (w.drift past m)) {d : Dialog α}
    (h : ∀ before after, .stored before after ∈ (run w d past m).acts → R before after) : R m (run w d past m).member := by
  induction d generalizing past m with
  | done a => exact hrefl m
  | ask op next ih =>
      refine htrans ?_ (ih _ fun before after hact => h before after (List.mem_append_right _ hact))
      cases op with
      | look => exact hrefl m
      | store m' => exact h m m' (List.mem_append_left _ List.mem_cons_self)
      | _ => exact hw _ m

theorem Only.phase (hw : w.KeepsPhase) {d : Dialog α} (h : d.Only fun op => ¬ op.IsStore) :
    (d.run w past m).member.phase = m.phase :=
  run_member (R := fun m m' => m'.phase = m.phase) (fun _ => rfl) (fun h h' => h'.trans h) hw
    fun _ _ hact => absurd trivial (h.acts _ hact)

/-! ## Writing and reading -/

section Parts

variable {P : DialogOp → Prop} {deadline : Option Nat}

theorem only_sendBytesIn (hP : ∀ bytes, P (.push e bytes deadline)) (n : Nat) (bytes : Bytes) :
    (sendBytesIn e deadline n bytes).Only P := by
  induction n generalizing bytes with
  | zero => trivial
  | succ n ih =>
      rw [sendBytesIn]
      split
      · trivial
      · refine ⟨hP bytes, fun pushed => ?_⟩
        cases (pushed : Pushed) with
        | accepted count => exact ih _
        | broken => trivial
        | late => trivial

theorem only_send (hP : ∀ bytes, P (.push e bytes deadline)) (limit : Nat) (message : Message) :
    (send e limit deadline message).Only P := by
  rw [send]
  split
  · trivial
  · exact only_sendBytesIn hP _ _

theorem only_receiveIn (hP : P (.take e none deadline)) (n : Nat) (s : FrameStream) :
    (receiveIn e deadline n s).Only P := by
  induction n generalizing s with
  | zero => trivial
  | succ n ih =>
      rw [receiveIn]
      split
      · trivial
      · refine ⟨hP, fun taken => ?_⟩
        cases (taken : Taken) with
        | bytes bytes => exact ih _
        | late => trivial
        | ended =>
            dsimp only
            split
            · exact ih _
            · trivial

theorem only_requestOn {limit patience : Nat} (hpush : ∀ bytes, P (.push e bytes (some patience)))
    (htake : P (.take e none (some patience))) (message : Message) : (requestOn e limit patience message).Only P := by
  refine (only_send hpush limit message).bind fun sent => ?_
  cases sent with
  | error f => trivial
  | ok _ =>
      refine (only_receiveIn htake _ _).bind fun received => ?_
      obtain ⟨item, s⟩ := received
      rcases item with _ | _ | _ | _ <;> trivial

end Parts

/-! ## What writing comes to -/

/-- All of the bytes are written, or a part from the front before the connection breaks or time is up. -/
structure Writes (e : End) (deadline : Option Nat) (bytes : Bytes) (t : Trace (Except Failure Unit)) : Prop where
  front : written e t.acts <+: bytes
  whole : t.value = .ok () → written e t.acts = bytes
  broken : t.value ≠ .ok () → deadline = none → ∃ rest, Act.asked (.push e rest none) Pushed.broken ∈ t.acts

theorem writes_sendBytesIn (deadline : Option Nat) {n : Nat} {bytes : Bytes} (hn : bytes.length ≤ n) :
    Writes e deadline bytes (run w (sendBytesIn e deadline n bytes) past m) := by
  -- Every push that is accepted takes a byte at least, so there are as many pushes to make as there are bytes.
  induction n generalizing bytes past m with
  | zero =>
      obtain rfl := List.eq_nil_of_length_eq_zero (Nat.le_zero.mp hn)
      exact ⟨List.prefix_refl _, fun _ => rfl, fun h => absurd rfl h⟩
  | succ n ih =>
      rw [sendBytesIn]
      by_cases hempty : bytes = []
      · subst hempty
        exact ⟨List.prefix_refl _, fun _ => rfl, fun h => absurd rfl h⟩
      · rw [if_neg (by simpa using hempty)]
        refine meets (.push e bytes deadline) trivial fun pushed m' hanswer _ => ?_
        cases (pushed : Pushed) with
        | accepted count =>
            have hrest : (bytes.drop count).length ≤ n := by
              have := w.moves hempty hanswer
              rw [List.length_drop]
              omega
            have hwrote (acts : List Act) :
                written e (Act.asked (.push e bytes deadline) (Pushed.accepted count) :: acts) =
                  bytes.take count ++ written e acts := by
              simp [written, Act.wrote]
            obtain ⟨front, whole, broken⟩ := ih (m := m') hrest
            refine ⟨?_, fun hvalue => ?_, fun hvalue hdeadline => ?_⟩
            · have := List.prefix_append_right_inj (bytes.take count) |>.mpr front
              rw [List.take_append_drop] at this
              exact (hwrote _).symm ▸ this
            · exact (hwrote _).trans ((congrArg _ (whole hvalue)).trans (List.take_append_drop count bytes))
            · obtain ⟨rest, hrest⟩ := broken hvalue hdeadline
              exact ⟨rest, List.mem_cons_of_mem _ hrest⟩
        | broken => exact ⟨List.nil_prefix, nofun, fun _ hdeadline => ⟨bytes, by rw [hdeadline]; exact List.mem_cons_self⟩⟩
        | late =>
            refine ⟨List.nil_prefix, nofun, fun _ hdeadline => ?_⟩
            rw [hdeadline] at hanswer
            exact absurd hanswer w.waits

/-! ## Calling others -/

theorem only_exchange (limit patience : Nat) (target : Address) (message : Message) :
    (exchange limit patience target message).Only DialogOp.Calls := by
  refine ⟨trivial, fun _ => ⟨trivial, fun connected => ?_⟩⟩
  cases (connected : Except NetFault End) with
  | error fault => trivial
  | ok e => exact (only_requestOn (fun _ => trivial) trivial message).bind fun _ => ⟨trivial, fun _ => trivial⟩

theorem only_inquire (s : Settings) (target : Address) (q : Query) : (inquire s target q).Only DialogOp.Calls :=
  (only_exchange _ _ _ _).bind fun r => by cases r <;> trivial

theorem away_exchange (he : e.side = .callee) (limit patience : Nat) (target : Address) (message : Message) :
    (run w (exchange limit patience target message) past m).Away e := by
  refine meets .clock trivial fun (start : Nat) _ _ _ => Trace.Away.since (by simp [Act.op, DialogOp.end?]) ?_
  refine meets (.connect target) trivial fun connected _ hanswer _ => Trace.Away.since (by simp [Act.op, DialogOp.end?]) ?_
  cases (connected : Except NetFault End) with
  | error fault => exact fun _ hact => absurd hact List.not_mem_nil
  | ok e' =>
      -- A call is made on a connection of its own, of which it has the calling side.
      have hne : e' ≠ e := by
        rintro rfl
        simp [w.calls hanswer] at he
      have honly : Only (fun op => op.end? ≠ some e)
          (requestOn e' limit (start + patience) message >>= fun reply => release e' >>= fun _ => pure reply) :=
        (only_requestOn (fun _ => by simpa [DialogOp.end?] using hne) (by simpa [DialogOp.end?] using hne) message).bind
          fun _ => ⟨by simpa [DialogOp.end?] using hne, fun _ => trivial⟩
      exact honly.acts

theorem away_inquire (he : e.side = .callee) (s : Settings) (target : Address) (q : Query) :
    (run w (inquire s target q) past m).Away e := by
  rw [inquire, Program.bind_eq, run_bind]
  refine Trace.Away.since (away_exchange he _ _ _ _) ?_
  split <;> exact fun _ hact => absurd hact List.not_mem_nil

/-! ## Activities -/

theorem only_toDialog (s : Settings) (a : Activity α) :
    (a.toDialog s).Only fun op => op = .look ∨ op.IsStore ∨ op.Calls := by
  induction a with
  | done x => trivial
  | ask op next ih =>
      have hop : (carryOut s op).Only fun op => op = .look ∨ op.IsStore ∨ op.Calls := by
        cases op with
        | look => exact ⟨.inl rfl, fun _ => trivial⟩
        | store m' => exact ⟨.inr (.inl trivial), fun _ => trivial⟩
        | query target q => exact (only_inquire s target q).mono fun _ hop => .inr (.inr hop)
      exact hop.bind ih

theorem away_carryOut (he : e.side = .callee) (s : Settings) (op : MemberOps.Op) :
    (run w (carryOut s op) past m).Away e := by
  cases op with
  | look => exact fun _ hact => absurd hact List.not_mem_nil
  | store m' => exact fun act hact => by rw [List.mem_singleton.mp hact]; nofun
  | query target q => exact away_inquire he s target q

theorem away_toDialog (he : e.side = .callee) (s : Settings) (a : Activity α) : (run w (a.toDialog s) past m).Away e := by
  induction a generalizing past m with
  | done x => exact fun _ hact => absurd hact List.not_mem_nil
  | ask op next ih =>
      change (run w ((carryOut s op).bind fun x => Activity.toDialog s (next x)) past m).Away e
      rw [run_bind]
      exact Trace.Away.since (away_carryOut he s op) (ih _)

end Dialog

end ChordOverlay
