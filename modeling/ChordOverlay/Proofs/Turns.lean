import ChordOverlay.Proofs.Elsewhere

/-!
# Dialogs that take turns

A party goes through a dialog while the machine serves connections, and all of them go on in any order. That the dialog
comes to an end of some kind is shown for all orders at once: at any moment somebody can go on, and whoever does, it is
closer to the end then.
-/

namespace ChordOverlay

namespace Machine

variable {m m' : Machine} {party : Option Nat} {ip : Ipv4} {op : DialogOp} {x : DialogOps.Answer op}

/-! ## One request -/

theorem canMeet_threads (m : Machine) (threads : List (Thread Unit)) (op : DialogOp) :
    { m with threads }.canMeet op = m.canMeet op := by cases op <;> rfl

theorem exists_met (h : m.canMeet op = true) (party : Option Nat) (ip : Ipv4) :
    ∃ m' x, m.meet party ip op = (m', some x) := by
  unfold meet
  rw [if_pos h]
  cases op with
  | leave => cases party <;> exact ⟨_, _, rfl⟩
  | _ => exact ⟨_, _, rfl⟩

theorem canMeet_of_met (h : m.meet party ip op = (m', some x)) : m.canMeet op = true := by
  unfold meet at h
  split at h
  · assumption
  · cases h

theorem serveAt_threads (m : Machine) (k : Nat) (inbound : Inbound) :
    ∃ born, ∀ threads, { m with threads }.serveAt k inbound = { m.serveAt k inbound with threads := threads ++ born } := by
  unfold serveAt
  dsimp only
  cases m.parties[k]? with
  | none => exact ⟨[], fun threads => by rw [List.append_nil]⟩
  | some p =>
      dsimp only
      cases p.role with
      | member v app => exact ⟨_, fun threads => rfl⟩
      | script s => exact ⟨_, fun threads => rfl⟩

theorem acceptAt_threads (m : Machine) (addr : Address) :
    ∃ born, ∀ threads, { m with threads }.acceptAt addr = { m.acceptAt addr with threads := threads ++ born } := by
  have hnobody : ∃ born, ∀ threads, ({ m with threads } : Machine) = { m with threads := threads ++ born } :=
    ⟨[], fun threads => by rw [List.append_nil]⟩
  unfold acceptAt
  dsimp only
  cases m.network.listener? addr with
  | none => exact hnobody
  | some l =>
      rcases m.network.accept addr with ⟨network, _ | inbound⟩
      · exact hnobody
      · exact serveAt_threads { m with network } l.owner inbound

theorem push_threads (m : Machine) (e : End) (bytes : Bytes) (threads : List (Thread Unit)) :
    { m with threads }.push e bytes = ({ (m.push e bytes).1 with threads }, (m.push e bytes).2) := by
  unfold push
  dsimp only
  cases m.network.link? e.link with
  | none => rfl
  | some l =>
      dsimp only
      split
      · rfl
      · split <;> rfl

theorem take_threads (m : Machine) (e : End) (limit : Option Nat) (threads : List (Thread Unit)) :
    { m with threads }.take e limit = ({ (m.take e limit).1 with threads }, (m.take e limit).2) := by
  unfold take
  dsimp only
  cases m.network.link? e.link with
  | none => rfl
  | some l =>
      dsimp only
      split <;> rfl

/-- Who is at work plays no part in what a request comes to, and by a request somebody may be set to work. -/
theorem exists_born (h : m.meet party ip op = (m', some x)) :
    ∃ born, ∀ threads, { m with threads }.meet party ip op = ({ m' with threads := threads ++ born }, some x) := by
  have hmeet := canMeet_of_met h
  unfold meet at h ⊢
  rw [if_pos hmeet] at h
  simp only [canMeet_threads, if_pos hmeet]
  cases op with
  | connect target =>
      cases h
      obtain ⟨born, hborn⟩ := acceptAt_threads { m with network := (m.network.connect ip target).1 } target
      exact ⟨born, fun threads => congrArg (·, some _) (hborn threads)⟩
  | push e bytes deadline =>
      cases h
      refine ⟨[], fun threads => ?_⟩
      rw [List.append_nil]
      exact congrArg (fun pushed : Machine × Pushed => (pushed.1, some pushed.2)) (push_threads m e bytes threads)
  | take e limit deadline =>
      cases h
      refine ⟨[], fun threads => ?_⟩
      rw [List.append_nil]
      exact congrArg (fun taken : Machine × Taken => (taken.1, some taken.2)) (take_threads m e limit threads)
  | leave =>
      refine ⟨[], fun threads => (List.append_nil threads).symm ▸ ?_⟩
      cases party <;> cases h <;> rfl
  | store v =>
      refine ⟨[], fun threads => (List.append_nil threads).symm ▸ ?_⟩
      cases party <;> cases h <;> rfl
  | note entry =>
      refine ⟨[], fun threads => (List.append_nil threads).symm ▸ ?_⟩
      cases party <;> cases h <;> rfl
  | _ =>
      cases h
      exact ⟨[], fun threads => (List.append_nil threads).symm ▸ rfl⟩

theorem threads_of_met (h : m.meet party ip op = (m', some x)) (hop : ∀ target, op ≠ .connect target) :
    m'.threads = m.threads := by
  unfold meet at h
  rw [if_pos (canMeet_of_met h)] at h
  cases op with
  | connect target => exact absurd rfl (hop target)
  | push e bytes deadline =>
      cases h
      exact congrArg (fun pushed : Machine × Pushed => pushed.1.threads) (push_threads m e bytes m.threads)
  | take e limit deadline =>
      cases h
      exact congrArg (fun taken : Machine × Taken => taken.1.threads) (take_threads m e limit m.threads)
  | leave => cases party <;> cases h <;> rfl
  | store v => cases party <;> cases h <;> rfl
  | note entry => cases party <;> cases h <;> rfl
  | _ =>
      cases h
      rfl

/-! ## Turns -/

/-- One of those who serve connections goes on. -/
inductive Works (m : Machine) : Machine → Prop
  | intro {k : Nat} {party : Option Nat} {ip : Ipv4} {op : DialogOp} {next : DialogOps.Answer op → Dialog Unit}
      {m' : Machine} {x : DialogOps.Answer op} (thread : m.threads[k]? = some ⟨party, ip, .ask op next⟩)
      (met : m.meet party ip op = (m', some x)) : Works m { m' with threads := m'.threads.set k ⟨party, ip, next x⟩ }

/-- Somebody goes on, or time passes, but not for long. -/
inductive Stirs (dusk : Nat) (m : Machine) : Machine → Prop
  | works {m' : Machine} (works : m.Works m') : Stirs dusk m m'
  | passes {now : Nat} (later : m.now < now) (early : now < dusk) : Stirs dusk m { m with now }

/--
In whatever order the dialog and those who serve connections go on, the dialog ends, and what it ends with satisfies `post`.
All the time, `kept` holds.
-/
inductive Ends {α : Type} (dusk : Nat) (party : Option Nat) (ip : Ipv4) (kept : Machine → Prop)
    (post : Machine → α → Prop) : Machine → Dialog α → Prop
  | done {m : Machine} {a : α} (keeps : kept m) (result : post m a) : Ends dusk party ip kept post m (.done a)
  | ask {m : Machine} {op : DialogOp} {next : DialogOps.Answer op → Dialog α} (keeps : kept m)
      (goes : m.canMeet op = true ∨ ∃ m', m.Works m')
      (on : ∀ {m' x}, m.meet party ip op = (m', some x) → Ends dusk party ip kept post m' (next x))
      (stirs : ∀ {m'}, m.Stirs dusk m' → Ends dusk party ip kept post m' (.ask op next)) :
      Ends dusk party ip kept post m (.ask op next)

/-- In whatever order those who serve connections go on, in the end none of them can, and `post` holds. -/
inductive Settles (dusk : Nat) (post : Machine → Prop) : Machine → Prop
  | rest {m : Machine} (still : ∀ m', ¬ m.Works m') (result : post m) : Settles dusk post m
  | work {m : Machine} (goes : ∃ m', m.Works m') (on : ∀ {m'}, m.Stirs dusk m' → Settles dusk post m') :
      Settles dusk post m

/-! ## Nobody goes on for ever -/

/-- One thread has been carried on. -/
inductive Shrinks : List (Thread Unit) → List (Thread Unit) → Prop
  | intro {ts : List (Thread Unit)} {k : Nat} {party : Option Nat} {ip : Ipv4} {op : DialogOp}
      {next : DialogOps.Answer op → Dialog Unit} (x : DialogOps.Answer op)
      (thread : ts[k]? = some ⟨party, ip, .ask op next⟩) : Shrinks (ts.set k ⟨party, ip, next x⟩) ts

theorem acc_cons {ts : List (Thread Unit)} (h : Acc Shrinks ts) (party : Option Nat) (ip : Ipv4) (d : Dialog Unit) :
    Acc Shrinks (⟨party, ip, d⟩ :: ts) := by
  -- Either the first thread is carried on, or one of the others while the first stays as it is.
  induction d generalizing ts with
  | done a =>
      induction h with
      | intro ts _ ih =>
          refine .intro _ fun ts' hshrinks => ?_
          generalize hcons : (⟨party, ip, .done a⟩ :: ts : List (Thread Unit)) = all at hshrinks
          cases hshrinks with
          | @intro _ k _ _ _ _ x thread =>
              subst hcons
              cases k with
              | zero => cases thread
              | succ k => exact ih _ (.intro x thread)
  | ask op next ihd =>
      induction h with
      | intro ts hts ih =>
          refine .intro _ fun ts' hshrinks => ?_
          generalize hcons : (⟨party, ip, .ask op next⟩ :: ts : List (Thread Unit)) = all at hshrinks
          cases hshrinks with
          | @intro _ k _ _ _ _ x thread =>
              subst hcons
              cases k with
              | zero =>
                  cases thread
                  exact ihd x (.intro ts hts)
              | succ k => exact ih _ (.intro x thread)

theorem shrinks_wf : WellFounded Shrinks := by
  refine ⟨fun ts => ?_⟩
  induction ts with
  | nil =>
      refine .intro _ fun ts' hshrinks => ?_
      generalize hnil : ([] : List (Thread Unit)) = all at hshrinks
      cases hshrinks with
      | intro x thread =>
          subst hnil
          cases thread
  | cons t ts ih => exact acc_cons ih t.party t.ip t.rest

/-- Nobody is about to connect, so nobody else is set to work. -/
def Tame (m : Machine) : Prop := ∀ t ∈ m.threads, ∀ target next, t.rest ≠ .ask (.connect target) next

theorem Works.shrinks (h : m.Works m') (htame : m.Tame) : Shrinks m'.threads m.threads := by
  cases h with
  | intro thread met =>
      have hthreads := threads_of_met met fun target hop => by
        subst hop
        exact htame _ (List.mem_of_getElem? thread) target _ rfl
      change Shrinks (List.set _ _ _) _
      rw [hthreads]
      exact .intro _ thread

theorem stirs_wf (dusk : Nat) : WellFounded fun m' m : Machine => m.Tame ∧ m.Stirs dusk m' := by
  have hwf := InvImage.wf (fun m : Machine => (m.threads, dusk - m.now)) (WellFounded.prod_lex shrinks_wf Nat.lt_wfRel.wf)
  refine Subrelation.wf (fun {m' m} h => ?_) hwf
  obtain ⟨htame, hstirs⟩ := h
  cases hstirs with
  | works works => exact .left _ _ (works.shrinks htame)
  | passes later early =>
      exact .right _ (Nat.sub_lt_sub_left (Nat.lt_trans later early) later)

/-! ## How to show that a dialog ends -/

section Rules

variable {α β : Type} {dusk : Nat} {kept kept' : Machine → Prop} {post post' : Machine → α → Prop} {d : Dialog α}

theorem Ends.mono (h : Ends dusk party ip kept post m d) (hkept : ∀ m, kept m → kept' m)
    (hpost : ∀ m a, kept m → post m a → post' m a) : Ends dusk party ip kept' post' m d := by
  induction h with
  | done keeps result => exact .done (hkept _ keeps) (hpost _ _ keeps result)
  | ask keeps goes _ _ on stirs => exact .ask (hkept _ keeps) goes on stirs

theorem Ends.bind {post : Machine → β → Prop} {f : α → Dialog β}
    (h : Ends dusk party ip kept (fun m a => Ends dusk party ip kept post m (f a)) m d) :
    Ends dusk party ip kept post m (d.bind f) := by
  induction h with
  | done keeps result => exact result
  | ask keeps goes _ _ on stirs => exact .ask keeps goes on stirs

/-- A request is carried out in the end, if it is known what holds until then. -/
theorem Ends.of_stage {stage : Machine → Prop} {next : DialogOps.Answer op → Dialog α} (hkeeps : ∀ {m}, stage m → kept m)
    (htame : ∀ {m}, stage m → m.Tame) (hgoes : ∀ {m}, stage m → m.canMeet op = true ∨ ∃ m', m.Works m')
    (hon : ∀ {m m' x}, stage m → m.meet party ip op = (m', some x) → Ends dusk party ip kept post m' (next x))
    (hstirs : ∀ {m m'}, stage m → m.Stirs dusk m' → stage m' ∨ Ends dusk party ip kept post m' (.ask op next))
    (here : stage m) : Ends dusk party ip kept post m (.ask op next) := by
  induction m using (stirs_wf dusk).induction with
  | _ m later =>
      exact .ask (hkeeps here) (hgoes here) (hon here) fun h => (hstirs here h).elim (later _ ⟨htame here, h⟩) id

/-- Whatever those who serve connections do, it still holds, and none of them is about to connect. -/
structure Steady (dusk : Nat) (stage : Machine → Prop) : Prop where
  tame {m : Machine} (here : stage m) : m.Tame
  works {m m' : Machine} (here : stage m) (works : m.Works m') : stage m'
  passes {m : Machine} {now : Nat} (here : stage m) (later : m.now < now) (early : now < dusk) : stage { m with now }

namespace Steady

variable {stage : Machine → Prop}

theorem stirs (h : Steady dusk stage) (here : stage m) (hstirs : m.Stirs dusk m') : stage m' := by
  cases hstirs with
  | works works => exact h.works here works
  | passes later early => exact h.passes here later early

theorem ends (h : Steady dusk stage) {next : DialogOps.Answer op → Dialog α} (hkeeps : ∀ {m}, stage m → kept m)
    (hgoes : ∀ {m}, stage m → m.canMeet op = true ∨ ∃ m', m.Works m')
    (hon : ∀ {m m' x}, stage m → m.meet party ip op = (m', some x) → Ends dusk party ip kept post m' (next x))
    (here : stage m) : Ends dusk party ip kept post m (.ask op next) :=
  .of_stage hkeeps h.tame hgoes hon (fun here hstirs => .inl (h.stirs here hstirs)) here

theorem settles {post : Machine → Prop} (h : Steady dusk stage) (hrest : ∀ {m}, stage m → (∀ m', ¬ m.Works m') → post m)
    (here : stage m) : m.Settles dusk post := by
  induction m using (stirs_wf dusk).induction with
  | _ m later =>
      by_cases hgoes : ∃ m', m.Works m'
      · exact .work hgoes fun hstirs => later _ ⟨h.tame here, hstirs⟩ (h.stirs here hstirs)
      · rw [not_exists] at hgoes
        exact .rest hgoes (hrest here hgoes)

end Steady

end Rules

/-! ## Waiting for somebody -/

/-- Without the thread `i`. -/
def aside (m : Machine) (i : Nat) : Machine := { m with threads := m.threads.eraseIdx i }

theorem Works.of_aside {i : Nat} (h : (m.aside i).Works m') : ∃ m', m.Works m' := by
  cases h with
  | @intro k _ _ _ _ _ _ thread met =>
      obtain ⟨born, hborn⟩ := exists_born met
      change (m.threads.eraseIdx i)[k]? = _ at thread
      rw [List.getElem?_eraseIdx] at thread
      split at thread
      · exact ⟨_, .intro thread (hborn m.threads)⟩
      · exact ⟨_, .intro thread (hborn m.threads)⟩

theorem getElem?_eraseIdx_of_ne {α : Type} {xs : List α} {i k : Nat} (hk : k ≠ i) :
    (xs.eraseIdx i)[if k < i then k else k - 1]? = xs[k]? := by
  rw [List.getElem?_eraseIdx]
  rcases Nat.lt_or_gt_of_ne hk with hlt | hlt
  · rw [if_pos hlt, if_pos hlt]
  · rw [if_neg (Nat.lt_asymm hlt), if_neg (by omega), Nat.sub_add_cancel (Nat.lt_of_le_of_lt (Nat.zero_le _) hlt)]

theorem aside_set (m : Machine) (i : Nat) (t : Thread Unit) :
    ({ m with threads := m.threads.set i t } : Machine).aside i = m.aside i :=
  congrArg (fun threads => { m with threads }) List.eraseIdx_set_eq

theorem aside_set_of_ne {i k : Nat} (hk : k ≠ i) (t : Thread Unit) :
    ({ m with threads := m.threads.set k t } : Machine).aside i =
      { m.aside i with threads := (m.aside i).threads.set (if k < i then k else k - 1) t } := by
  refine congrArg (fun threads => { m with threads }) ?_
  rcases Nat.lt_or_gt_of_ne hk with hlt | hlt
  · rw [if_pos hlt]
    exact List.eraseIdx_set_gt hlt
  · rw [if_neg (Nat.lt_asymm hlt)]
    exact List.eraseIdx_set_lt hlt

/-- Whoever goes on is the thread `i`, or one of the others. -/
theorem Works.cases_aside {i : Nat} {host : Option Nat} {ip : Ipv4} {d : Dialog Unit} (h : m.Works m')
    (thread : m.threads[i]? = some ⟨host, ip, d⟩) :
    (∃ op next x, d = .ask op next ∧ (m.aside i).meet host ip op = (m'.aside i, some x) ∧
      m'.threads[i]? = some ⟨host, ip, next x⟩) ∨
        (m.aside i).Works (m'.aside i) ∧ m'.threads[i]? = some ⟨host, ip, d⟩ := by
  have hi : i < m.threads.length := (List.getElem?_eq_some_iff.mp thread).1
  cases h with
  | @intro k _ _ _ next m' x hthread met =>
      obtain ⟨born, hborn⟩ := exists_born met
      have hthreads : m'.threads = m.threads ++ born :=
        congrArg threads (Prod.mk.inj (met.symm.trans (hborn m.threads))).1
      have hleft : m'.threads.eraseIdx i = m.threads.eraseIdx i ++ born := by
        rw [hthreads, List.eraseIdx_append_of_lt_length hi]
      have hmet := hborn (m.threads.eraseIdx i)
      rw [← hleft] at hmet
      by_cases hk : k = i
      · subst hk
        cases thread.symm.trans hthread
        refine .inl ⟨_, next, x, rfl, ?_, ?_⟩
        · rw [aside_set]
          exact hmet
        · change (m'.threads.set k _)[k]? = _
          rw [hthreads, List.getElem?_set_self (by rw [List.length_append]; omega)]
      · refine .inr ⟨?_, ?_⟩
        · rw [aside_set_of_ne hk]
          exact .intro ((getElem?_eraseIdx_of_ne hk).trans hthread) hmet
        · change (m'.threads.set k _)[i]? = _
          rw [hthreads, List.getElem?_set_ne hk, List.getElem?_append_left hi]
          exact thread

/-- Whoever waits for the thread `i` waits for it to be done. -/
theorem Ends.wait {α γ : Type} {dusk i : Nat} {kept kept' : Machine → Prop} {post : Machine → α → Prop}
    {post' : Machine → γ → Prop} {next : DialogOps.Answer op → Dialog α} {d : Dialog γ} {f : γ → Dialog Unit}
    {host : Option Nat} {ip' : Ipv4} (h : Ends dusk host ip' kept' post' (m.aside i) d)
    (thread : m.threads[i]? = some ⟨host, ip', d.bind f⟩)
    (blocks : ∀ m, kept' (m.aside i) → kept m ∧ m.canMeet op = false)
    (after : ∀ m v, post' (m.aside i) v → m.threads[i]? = some ⟨host, ip', f v⟩ →
      Ends dusk party ip kept post m (.ask op next)) : Ends dusk party ip kept post m (.ask op next) := by
  generalize haside : m.aside i = side at h
  induction h generalizing m with
  | done keeps result => exact after m _ (haside ▸ result) thread
  | @ask side op' next' keeps goes _ _ on stirs =>
      subst haside
      obtain ⟨hkept, hblocked⟩ := blocks m keeps
      refine .ask hkept (.inr ?goes) (fun met => ?on) fun hstirs => ?stirs
      case goes =>
        rcases goes with hmeet | ⟨_, hworks⟩
        · obtain ⟨_, x, met⟩ := exists_met ((canMeet_threads m _ op').symm.trans hmeet) host ip'
          exact ⟨_, .intro thread met⟩
        · exact hworks.of_aside
      case on =>
        rw [canMeet_of_met met] at hblocked
        cases hblocked
      case stirs =>
        cases hstirs with
        | passes later early => exact stirs (.passes later early) thread rfl
        | works works =>
            rcases works.cases_aside thread with ⟨_, next, x, hask, met, hthread⟩ | ⟨hworks, hthread⟩
            · cases hask
              exact on met hthread rfl
            · exact stirs (.works hworks) hthread rfl

end Machine

end ChordOverlay
