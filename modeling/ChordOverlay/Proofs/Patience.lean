import ChordOverlay.Lab.Machine
import ChordOverlay.Proofs.Pact
import ChordOverlay.Proofs.Surroundings

/-!
# How long lookups wait

Time passes only while a dialog waits, and each wait for a peer ends at its deadline. One attempt of a lookup therefore ends
a margin before the caller of the lookup gives up, and so does the whole lookup, as long as its attempts all begin within
that margin. Attempts that fail late, though not by a time-out, are followed by others that have the full time again.
-/

namespace ChordOverlay

/-! ## A clock -/

/-- The request may have to wait. -/
def DialogOp.Waits : DialogOp → Prop
  | .pause _ | .connect _ | .push .. | .take .. => True
  | _ => False

/--
What time it is after some acts. Only waiting takes time: for a connection at most `reach`, and to write or read no longer
than to the deadline.
-/
structure Surroundings.Clocked (w : Surroundings) (time : List Act → Nat) (reach : Nat) : Prop where
  told (past : List Act) : w.answer past .clock = time past
  onward (past : List Act) (act : Act) : time past ≤ time (past ++ [act])
  instant (past : List Act) {act : Act} (idle : ¬ act.op.Waits) : time (past ++ [act]) = time past
  connects (past : List Act) (target : Address) (answer : Except NetFault End) :
    time (past ++ [.asked (.connect target) answer]) ≤ time past + reach
  due (past : List Act) {act : Act} {deadline : Nat} (limited : act.op.deadline? = some deadline) :
    time (past ++ [act]) ≤ max (time past) deadline

/-- If the request waits, it gives up by the deadline. -/
def DialogOp.EndsBy (deadline : Nat) (op : DialogOp) : Prop :=
  op.Waits → ∃ earlier ≤ deadline, op.deadline? = some earlier

namespace Dialog

variable {α : Type} {w : Surroundings} {time : List Act → Nat} {reach deadline : Nat} {past : List Act} {m : Member} {e : End}

theorem Only.ends_by (hw : w.Clocked time reach) {d : Dialog α} (hd : d.Only (DialogOp.EndsBy deadline))
    (hpast : time past ≤ deadline) : time (past ++ (run w d past m).acts) ≤ deadline := by
  induction d generalizing past m with
  | done a => rwa [run_done, List.append_nil]
  | ask op next ih =>
      obtain ⟨hop, hnext⟩ := hd
      have hact {act : Act} (hact : act.op = op) : time (past ++ [act]) ≤ deadline := by
        by_cases hwaits : op.Waits
        · obtain ⟨earlier, hle, hdeadline⟩ := hop hwaits
          exact Nat.le_trans (hw.due past (hact ▸ hdeadline)) (Nat.max_le.mpr ⟨hpast, hle⟩)
        · rwa [hw.instant past (hact ▸ hwaits)]
      have hmeet : time (past ++ (w.meet past m op).acts) ≤ deadline := by
        cases op with
        | look => exact (List.append_nil past).symm ▸ hpast
        | _ => exact hact rfl
      rw [run_ask, Trace.since_acts, ← List.append_assoc]
      exact ih _ (hnext _) hmeet

/-! ## One attempt -/

/-- What had been done when each attempt began, which it does with a connection of its own. -/
def attempts (past : List Act) : List Act → List (List Act)
  | [] => []
  | .asked (.connect target) answer :: acts => past :: attempts (past ++ [.asked (.connect target) answer]) acts
  | act :: acts => attempts (past ++ [act]) acts

theorem attempts_append (past xs ys : List Act) : attempts past (xs ++ ys) = attempts past xs ++ attempts (past ++ xs) ys := by
  fun_induction attempts past xs with
  | case1 past => rw [List.nil_append, List.append_nil, List.nil_append]
  | case2 past target answer acts ih =>
      rw [List.cons_append, attempts, ih, List.append_assoc, List.singleton_append, List.cons_append]
  | case3 past act acts hother ih =>
      rw [List.cons_append, attempts.eq_3 _ _ _ hother, ih, List.append_assoc, List.singleton_append]

/-- An attempt begins at once, and ends when the patience for it is over at the latest. -/
theorem exchange_waits (hw : w.Clocked time reach) {limit patience : Nat} (hreach : reach ≤ patience) (target : Address)
    (request : Message) : (∃ before ∈ attempts past (run w (exchange limit patience target request) past m).acts,
      time before = time past) ∧
      time (past ++ (run w (exchange limit patience target request) past m).acts) ≤ time past + patience := by
  refine meets (Q := fun t => (∃ before ∈ attempts past t.acts, time before = time past) ∧
    time (past ++ t.acts) ≤ time past + patience) .clock trivial fun start m₁ hstart _ => ?_
  have hclock : time (past ++ [.asked .clock start]) = time past := hw.instant past id
  obtain rfl : start = time past := hstart.symm.trans (hw.told past)
  refine meets (Q := fun t => (∃ before ∈ attempts past (_ ++ t.acts), time before = time past) ∧
    time (past ++ (_ ++ t.acts)) ≤ time past + patience) (.connect target) trivial fun connected m₂ _ _ => ?_
  have hconnect := hw.connects (past ++ [.asked .clock (time past)]) target connected
  refine ⟨⟨_, List.mem_cons_self, hclock⟩, ?_⟩
  rw [Trace.since_acts, ← List.append_assoc, ← List.append_assoc]
  refine Only.ends_by hw ?_ (by omega)
  cases (connected : Except NetFault End) with
  | error fault => trivial
  | ok e =>
      refine (only_requestOn (fun _ _ => ⟨_, Nat.le_refl _, rfl⟩) (fun _ => ⟨_, Nat.le_refl _, rfl⟩) request).bind fun reply => ?_
      exact ⟨fun h => absurd h id, fun _ => trivial⟩

theorem inquire_waits (hw : w.Clocked time reach) (s : Settings) {q : Query} (hreach : reach ≤ q.patience s)
    (target : Address) (past : List Act) (m : Member) :
    (∃ before ∈ attempts past (run w (inquire s target q) past m).acts, time before = time past) ∧
      time (past ++ (run w (inquire s target q) past m).acts) ≤ time past + q.patience s := by
  have hacts : (run w (inquire s target q) past m).acts =
      (run w (exchange s.maxMessageLength (q.patience s) target q.request) past m).acts := by
    rw [inquire, Program.bind_eq, run_bind, Trace.since_acts]
    split <;> exact List.append_nil _
  rw [hacts]
  exact exchange_waits hw hreach target q.request

end Dialog

/-! ## All attempts -/

namespace Activity

variable {α : Type} {P : Query → Prop} {w : Surroundings} {time : List Act → Nat} {reach patience : Nat} {s : Settings}

/-- Whatever the answers are, at most `n` questions are put, all of one kind. -/
def Puts (P : Query → Prop) : Nat → Activity α → Prop
  | _, .done _ => True
  | n, .ask .look next => ∀ m, Puts P n (next m)
  | n, .ask (.store _) next => Puts P n (next ())
  | 0, .ask (.query _ _) _ => False
  | n + 1, .ask (.query _ q) next => P q ∧ ∀ r, Puts P n (next r)

theorem Puts.mono {Q : Query → Prop} {n : Nat} {a : Activity α} (h : a.Puts P n) (hPQ : ∀ q, P q → Q q) : a.Puts Q n := by
  induction a generalizing n with
  | done x => trivial
  | ask op next ih =>
      cases op with
      | look => exact fun m => ih m (h m)
      | store m' => exact ih () h
      | query target q =>
          cases n with
          | zero => cases h
          | succ n => exact ⟨hPQ q h.1, fun r => ih r (h.2 r)⟩

theorem puts_look {n : Nat} {f : Member → Activity α} : Puts P n (look >>= f) ↔ ∀ m, Puts P n (f m) := Iff.rfl

theorem puts_lookupFrom (id : RingId) (ttl : UInt8) (n : Nat) (last : Failure) :
    (lookupFrom id ttl n last).Puts (fun q => ∃ id, q = .owner id (ttl - 1)) n := by
  induction n generalizing last with
  | zero => trivial
  | succ n ih =>
      rw [lookupFrom, puts_look]
      intro m
      cases m.view.findSuccessor id with
      | nothing => trivial
      | found p => trivial
      | contact hop errand =>
          cases errand with
          | notify me => trivial
          | findSuccessor target =>
              change Puts _ _ (ite _ _ _)
              split
              · trivial
              · refine ⟨⟨target, rfl⟩, fun r => ?_⟩
                cases r with
                | ok p => cases p <;> trivial
                | error e =>
                    intro m'
                    change Puts _ _ (ite _ _ _)
                    split
                    · trivial
                    · change Puts _ _ (ite _ _ _)
                      split
                      · trivial
                      · exact ih e

theorem puts_lookup (id : RingId) (ttl : UInt8) :
    (lookup id ttl).Puts (fun q => ∃ id, q = .owner id (ttl - 1)) lookupAttempts := by
  rw [lookup, puts_look]
  intro m
  split
  · exact puts_lookupFrom id ttl _ _
  · trivial

/-- With one patience for all attempts: none of them outlasts it, whenever it has begun. -/
theorem Puts.waits (hw : w.Clocked time reach) (hreach : reach ≤ patience) {n : Nat} {a : Activity α}
    (ha : a.Puts (fun q => q.patience s = patience) n) (past : List Act) (m : Member) :
    time (past ++ (Dialog.run w (a.toDialog s) past m).acts) ≤ time past + n * patience ∧
      ∀ bound, (∀ before ∈ Dialog.attempts past (Dialog.run w (a.toDialog s) past m).acts, time before < bound) →
        time (past ++ (Dialog.run w (a.toDialog s) past m).acts) < bound + patience ∨
          time (past ++ (Dialog.run w (a.toDialog s) past m).acts) = time past := by
  induction a generalizing past m n with
  | done x =>
      change time (past ++ []) ≤ _ ∧ _
      rw [List.append_nil]
      exact ⟨Nat.le_add_right _ _, fun _ _ => .inr (congrArg time (List.append_nil past))⟩
  | ask op next ih =>
      cases op with
      | look =>
          have hrun : (Dialog.run w (Activity.toDialog s (.ask .look next)) past m).acts =
              (Dialog.run w (Activity.toDialog s (next m)) past m).acts := by
            change (Dialog.run w (Activity.toDialog s (next m)) (past ++ []) m).acts = _
            rw [List.append_nil]
          rw [hrun]
          exact ih m (ha m) past m
      | store m' =>
          have hrun : (Dialog.run w (Activity.toDialog s (.ask (.store m') next)) past m).acts =
              .stored m m' :: (Dialog.run w (Activity.toDialog s (next ())) (past ++ [.stored m m']) m').acts := rfl
          have hstore : time (past ++ [.stored m m']) = time past := hw.instant past id
          obtain ⟨hle, hlt⟩ := ih () ha (past ++ [.stored m m']) m'
          rw [hrun, List.append_cons]
          rw [hstore] at hle hlt
          exact ⟨hle, hlt⟩
      | query target q =>
          cases n with
          | zero => cases ha
          | succ n =>
              obtain ⟨hq, hnext⟩ := ha
              have hrun : (Dialog.run w (Activity.toDialog s (.ask (.query target q) next)) past m).acts =
                  (Dialog.run w (Dialog.inquire s target q) past m).acts ++
                    (Dialog.run w (Activity.toDialog s (next (Dialog.run w (Dialog.inquire s target q) past m).value))
                      (past ++ (Dialog.run w (Dialog.inquire s target q) past m).acts)
                      (Dialog.run w (Dialog.inquire s target q) past m).member).acts := by
                change (Dialog.run w ((Dialog.inquire s target q).bind fun r => Activity.toDialog s (next r)) past m).acts = _
                rw [Dialog.run_bind]
                rfl
              -- The attempt begins at once; what follows it takes no time or is covered by the induction.
              obtain ⟨⟨before, hbefore, hbegun⟩, hattempt⟩ := Dialog.inquire_waits hw s (hq.symm ▸ hreach) target past m
              rw [hrun, ← List.append_assoc]
              generalize Dialog.run w (Dialog.inquire s target q) past m = t at hbefore hattempt ⊢
              obtain ⟨hle, hlt⟩ := ih t.value (hnext _) (past ++ t.acts) t.member
              rw [hq] at hattempt
              refine ⟨?_, fun bound hbegins => ?_⟩
              · rw [Nat.succ_mul]
                omega
              · rw [Dialog.attempts_append, List.forall_mem_append] at hbegins
                have hfirst := hbegins.1 before hbefore
                rcases hlt bound hbegins.2 with hlt | heq
                · exact .inl hlt
                · exact .inl (by omega)

end Activity

section Lookup

variable {w : Surroundings} {time : List Act → Nat} {reach : Nat} {s : Settings} {past : List Act} {m : Member} {id : RingId}
  {ttl : UInt8}

/--
However the peers behave that a lookup asks, none of its attempts takes longer than the patience for it; and the lookup is
over before its caller gives up, if all of its attempts begin within one margin.
-/
theorem lookup_waits (hw : w.Clocked time reach) (hreach : reach ≤ s.lookupPatience (ttl - 1)) (hmargin : 0 < s.hopMargin)
    (httl : ttl ≠ 0) :
    let acts := (Dialog.run w ((Activity.lookup id ttl).toDialog s) past m).acts
    time (past ++ acts) ≤ time past + Activity.lookupAttempts * s.lookupPatience (ttl - 1) ∧
      ((∀ before ∈ Dialog.attempts past acts, time before < time past + s.hopMargin) →
        time (past ++ acts) < time past + s.lookupPatience ttl) := by
  have hputs : (Activity.lookup id ttl).Puts (fun q => q.patience s = s.lookupPatience (ttl - 1)) Activity.lookupAttempts :=
    (Activity.puts_lookup id ttl).mono fun q ⟨id, hq⟩ => hq ▸ rfl
  obtain ⟨hle, hlt⟩ := hputs.waits hw hreach past m
  refine ⟨hle, fun hbegins => ?_⟩
  have hpatience : s.lookupPatience ttl = s.lookupPatience (ttl - 1) + s.hopMargin := by
    rw [Settings.lookupPatience, Settings.lookupPatience, ← hops_left httl, Nat.mul_succ, Nat.add_assoc]
  rcases hlt _ hbegins with hlt | heq <;> omega

end Lookup

/-! ## Peers that break off late -/

/-- The time after an act, and the number of the read that comes next; the peer breaks the `k`-th read off after `delay k`. -/
def Act.elapse (delay : Nat → Nat) (hour : Nat × Nat) : Act → Nat × Nat
  | .asked (.take _ _ (some deadline)) _ => (max hour.1 (min (hour.1 + delay hour.2) deadline), hour.2 + 1)
  | _ => hour

/-- The time after all these acts, and the number of the next read. -/
def hourAfter (delay : Nat → Nat) (past : List Act) : Nat × Nat := past.foldl (Act.elapse delay) (0, 0)

theorem hourAfter_concat (delay : Nat → Nat) (past : List Act) (act : Act) :
    hourAfter delay (past ++ [act]) = act.elapse delay (hourAfter delay past) := List.foldl_concat ..

/-- Every peer takes the request in, and breaks the connection off after a while in place of an answer. -/
def Surroundings.sluggish (delay : Nat → Nat) : Surroundings where
  answer past
    | .look => (default : Member)
    | .app => (none : Option App)
    | .clock => (hourAfter delay past).1
    | .connect _ => (.ok ⟨past.length, .caller⟩ : Except NetFault End)
    | .push _ bytes _ => Pushed.accepted bytes.length
    | .take _ _ deadline =>
      if deadline.all ((hourAfter delay past).1 + delay (hourAfter delay past).2 ≤ ·) then Taken.ended else Taken.late
    | .store _ | .note _ | .leave | .pause _ | .finish _ | .release _ => ()
  drift _ m := m
  calls h := by cases h; rfl
  moves hbytes h := by cases h; exact List.length_pos_iff.mpr hbytes
  waits := nofun

theorem Surroundings.sluggish_clocked (delay : Nat → Nat) :
    (Surroundings.sluggish delay).Clocked (fun past => (hourAfter delay past).1) 0 := by
  have hstep (hour : Nat × Nat) (act : Act) : hour.1 ≤ (act.elapse delay hour).1 := by
    unfold Act.elapse
    split
    · exact Nat.le_max_left _ _
    · exact Nat.le_refl _
  refine ⟨fun _ => rfl, fun past act => ?_, fun past act hidle => ?_, fun past target answer => ?_,
    fun past act deadline hlimited => ?_⟩
  · rw [hourAfter_concat]
    exact hstep _ act
  · rw [hourAfter_concat, Act.elapse]
    rintro e limit deadline answer rfl
    exact hidle trivial
  · rw [hourAfter_concat]
    exact Nat.le_refl _
  · rw [hourAfter_concat]
    unfold Act.elapse
    split
    · cases hlimited
      exact Nat.max_le.mpr ⟨Nat.le_max_left _ _, Nat.le_trans (Nat.min_le_right _ _) (Nat.le_max_right _ _)⟩
    · exact Nat.le_max_left _ _

/-- A member of a ring with three fingers before the position looked up, and a margin of a hundredth of its patience. -/
def hasty : Member :=
  { Member.fresh default { patience := 10000, hopMargin := 100, maxMessageLength := 11 } with
    phase := .joined
    view := [1000, 3000, 4000, 5000].foldl (fun v id => (v.join { (default : Peer) with id }).1) (.fresh default 3) }

/-- The second read is broken off after a minute. -/
def silentSecond : Nat → Nat
  | 1 => 60000
  | _ => 0

/-- The first two reads are broken off late, and all others at once. -/
def lateTwice : Nat → Nat
  | 0 => 5000
  | 1 => 6000
  | _ => 0

/-- One finger refuses at once, and the next stays silent for longer than anyone waits. -/
theorem lookup_waits_hasty :
    (Surroundings.sluggish silentSecond).Clocked (fun past => (hourAfter silentSecond past).1) 0 ∧
      0 ≤ hasty.settings.lookupPatience (1 - 1) ∧ 0 < hasty.settings.hopMargin ∧ (1 : UInt8) ≠ 0 ∧
      (hourAfter silentSecond (Dialog.run (.sluggish silentSecond) ((Activity.lookup 6000 1).toDialog hasty.settings) []
        hasty).acts).1 = 10000 ∧ 10000 < hasty.settings.lookupPatience 1 := by
  have hwaits := @lookup_waits _ _ _ hasty.settings [] hasty 6000 1 (Surroundings.sluggish_clocked silentSecond)
    (Nat.zero_le _) (by decide) (by decide)
  have hbegins : ∀ before ∈ Dialog.attempts [] (Dialog.run (.sluggish silentSecond)
      ((Activity.lookup 6000 1).toDialog hasty.settings) [] hasty).acts,
      (hourAfter silentSecond before).1 < (hourAfter silentSecond []).1 + hasty.settings.hopMargin := by decide +kernel
  have hlast : (hourAfter silentSecond (Dialog.run (.sluggish silentSecond)
      ((Activity.lookup 6000 1).toDialog hasty.settings) [] hasty).acts).1 = 10000 := by decide +kernel
  exact ⟨Surroundings.sluggish_clocked silentSecond, Nat.zero_le _, by decide, by decide, hlast,
    Nat.lt_of_le_of_lt (Nat.le_of_eq hlast.symm) (Nat.lt_of_lt_of_eq (hwaits.2 hbegins) (Nat.zero_add _))⟩

/-- Two fingers break off after half of the patience each, and the lookup outlasts who waits for it. -/
theorem lookup_outlasts_caller :
    ¬ ∀ (w : Surroundings) (time : List Act → Nat) (m : Member) (id : RingId) (ttl : UInt8), w.Clocked time 0 →
      0 < m.settings.hopMargin → ttl ≠ 0 →
      time (Dialog.run w ((Activity.lookup id ttl).toDialog m.settings) [] m).acts < time [] + m.settings.lookupPatience ttl :=
  fun h => absurd (h _ _ hasty 6000 1 (Surroundings.sluggish_clocked lateTwice) (by decide) (by decide)) (by decide +kernel)

end ChordOverlay
