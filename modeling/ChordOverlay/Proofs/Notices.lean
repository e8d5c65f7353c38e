import ChordOverlay.Proofs.Neighbourhood
import ChordOverlay.Proofs.SuccessorChoice
import Mathlib.Data.List.Induction

/-!
# Who is left as the predecessor

A member compares whoever claims to come right before it with its present predecessor only. Still the closest of all
who ever claimed it is left in the end, in whatever order they came.
-/

namespace ChordOverlay

variable {home : RingId} {p q : Peer} {ps xs ys : List Peer}

/-- From `p` it is no farther to `home` than from any of `ps`, among whom it is the first at its position. -/
structure Nearest (home : RingId) (ps : List Peer) (p : Peer) : Prop where
  first : firstAt p.id ps = some p
  least : ∀ q ∈ ps, p.id.distance home ≤ q.id.distance home

theorem Nearest.mem (h : Nearest home ps p) : p ∈ ps := (firstAt_eq_some h.first).1

theorem Nearest.unique (hp : Nearest home ps p) (hq : Nearest home ps q) : p = q := by
  have hid : p.id = q.id := RingId.distance_right_inj.mp (Nat.le_antisymm (hp.least q hq.mem) (hq.least p hp.mem))
  have hfirst := hp.first
  rw [hid, hq.first] at hfirst
  exact (Option.some.inj hfirst).symm

theorem nearest_singleton (home : RingId) (p : Peer) : Nearest home [p] p := by
  constructor
  · simp [firstAt]
  · simp

/-- Only who is first at each position matters. -/
theorem Nearest.congr (h : Nearest home xs p) (hfirst : ∀ i, firstAt i ys = firstAt i xs) : Nearest home ys p where
  first := (hfirst _).trans h.first
  least := forall_id_congr (Q := fun i => p.id.distance home ≤ i.distance home) hfirst h.least

/-- A newcomer that is no closer changes nothing, not even from the very position. -/
theorem Nearest.keep (h : Nearest home ps p) (hle : p.id.distance home ≤ q.id.distance home) :
    Nearest home (ps ++ [q]) p where
  first := firstAt_stays h.first [q]
  least := List.forall_mem_append.mpr ⟨h.least, List.forall_mem_singleton.mpr hle⟩

theorem Nearest.replace (h : Nearest home ps p) (hlt : q.id.distance home < p.id.distance home) :
    Nearest home (ps ++ [q]) q where
  first := firstAt_newcomer fun x hx hid => by
    have hle := h.least x hx
    rw [hid] at hle
    exact Nat.not_lt.mpr hle hlt
  least := List.forall_mem_append.mpr
    ⟨fun x hx => Nat.le_trans (Nat.le_of_lt hlt) (h.least x hx), List.forall_mem_singleton.mpr (Nat.le_refl _)⟩

namespace View

variable {v : View} {c : Peer} {cs : List Peer}

/-- What is left when each of `cs` in turn has claimed to come right before. -/
def notifyAll (v : View) (cs : List Peer) : View := cs.foldl (fun v c => (v.notify c).1) v

/-- All who may be the predecessor then, in the order in which they came. -/
def rivals (v : View) (cs : List Peer) : List Peer := (v.predecessor.toList ++ cs).filter fun p => p.id ≠ v.self.id

theorem notifyAll_concat (v : View) (cs : List Peer) (c : Peer) :
    v.notifyAll (cs ++ [c]) = ((v.notifyAll cs).notify c).1 := by
  rw [notifyAll, List.foldl_concat]
  rfl

theorem rivals_concat (hid : c.id ≠ v.self.id) (cs : List Peer) : v.rivals (cs ++ [c]) = v.rivals cs ++ [c] := by
  simp [rivals, hid]

theorem rivals_concat_self (hid : c.id = v.self.id) (cs : List Peer) : v.rivals (cs ++ [c]) = v.rivals cs := by
  simp [rivals, hid]

theorem notify_self_id (hid : c.id = v.self.id) : v.notify c = (v, false) := by
  rw [notify, if_pos hid]

theorem notify_nobody (hid : c.id ≠ v.self.id) (hbefore : ∀ p, v.predecessor = some p → p.id = v.self.id) :
    v.notify c = ({ v with predecessor := some c }, true) := by
  have hprefers : v.prefers c = true := prefers_iff.mpr fun p hp => Or.inl (hbefore p hp)
  rw [notify, if_neg hid, if_pos hprefers]

/-- A predecessor makes way just for those who are closer. -/
theorem notify_closer (hp : v.predecessor = some p) (hother : p.id ≠ v.self.id) (hid : c.id ≠ v.self.id) :
    (v.notify c).1 = if c.id.distance v.self.id < p.id.distance v.self.id then { v with predecessor := some c } else v := by
  rcases v.notify_cases c with ⟨_, hprefers, heq⟩ | ⟨hkept, heq⟩ <;> rw [heq]
  · rcases prefers_iff.mp hprefers p hp with hself | rfl | hbetween
    · exact absurd hself hother
    · rw [if_neg (Nat.lt_irrefl _), ← hp]
    · rw [if_pos ((RingId.between_iff_closer hid).mp hbetween)]
  · rw [if_neg]
    intro hlt
    have hprefers : v.prefers c = true := by
      rw [prefers_iff, hp]
      rintro _ ⟨⟩
      exact Or.inr (Or.inr ((RingId.between_iff_closer hid).mpr hlt))
    rw [hkept hid] at hprefers
    cases hprefers

/-- The answer to a claim says whether it holds from then on. -/
theorem notify_accepted_iff : (v.notify c).2 = true ↔ c.id ≠ v.self.id ∧ (v.notify c).1.predecessor = some c := by
  by_cases hid : c.id = v.self.id
  · simp [notify_self_id hid, hid]
  unfold notify
  rw [if_neg hid]
  split
  · simp [hid]
  · rename_i hkept
    have hnot : v.predecessor ≠ some c := by
      intro hp
      apply hkept
      rw [prefers_iff, hp]
      rintro _ ⟨⟩
      exact Or.inr (Or.inl rfl)
    simp [hnot]

/-- After any claims, the nearest of all rivals is the predecessor; nothing else changes. -/
theorem notifyAll_cases (v : View) (cs : List Peer) :
    (v.rivals cs = [] ∧ v.notifyAll cs = v) ∨
      ∃ p, v.notifyAll cs = { v with predecessor := some p } ∧ Nearest v.self.id (v.rivals cs) p := by
  induction cs using List.reverseRecOn with
  | nil =>
      cases hp : v.predecessor with
      | none => exact Or.inl ⟨by simp [rivals, hp], rfl⟩
      | some p =>
          by_cases hid : p.id = v.self.id
          · exact Or.inl ⟨by simp [rivals, hp, hid], rfl⟩
          · have hrivals : v.rivals [] = [p] := by simp [rivals, hp, hid]
            refine Or.inr ⟨p, ?_, hrivals ▸ nearest_singleton _ p⟩
            rw [← hp]
            rfl
  | append_singleton cs c ih =>
      rw [notifyAll_concat]
      by_cases hid : c.id = v.self.id
      · rw [rivals_concat_self hid, notify_self_id]
        · exact ih
        · rcases ih with ⟨_, heq⟩ | ⟨p, heq, _⟩ <;> rw [heq, hid]
      · rw [rivals_concat hid]
        rcases ih with ⟨hnone, heq⟩ | ⟨p, heq, hnearest⟩ <;> rw [heq]
        · refine Or.inr ⟨c, ?_, ?_⟩
          · rw [notify_nobody hid]
            intro p hp
            simp only [rivals, hp, Option.toList_some, List.filter_eq_nil_iff] at hnone
            simpa using hnone p (by simp)
          · rw [hnone]
            exact nearest_singleton _ c
        · have hother : p.id ≠ v.self.id := by simpa [rivals] using (List.mem_filter.mp hnearest.mem).2
          rw [notify_closer (v := { v with predecessor := some p }) rfl hother hid]
          split
          · rename_i hlt
            exact Or.inr ⟨c, rfl, hnearest.replace hlt⟩
          · rename_i hge
            exact Or.inr ⟨p, rfl, hnearest.keep (Nat.le_of_not_lt hge)⟩

theorem notifyAll_congr {ds : List Peer} (hfirst : ∀ i, firstAt i (v.rivals ds) = firstAt i (v.rivals cs)) :
    v.notifyAll ds = v.notifyAll cs := by
  rcases v.notifyAll_cases ds with ⟨hnone, heq⟩ | ⟨p, heq, hp⟩ <;>
    rcases v.notifyAll_cases cs with ⟨hnone', heq'⟩ | ⟨q, heq', hq⟩ <;> rw [heq, heq']
  · have hmem := (hq.congr hfirst).mem
    rw [hnone] at hmem
    cases hmem
  · have hmem := (hp.congr fun i => (hfirst i).symm).mem
    rw [hnone'] at hmem
    cases hmem
  · rw [hp.unique (hq.congr hfirst)]

/--
Whatever claims are made to a member: the nearest of all rivals is its predecessor in the end, and where there is none
nothing changes. A claim is answered with yes exactly if it holds from then on. Where positions tell the claimants
apart, their order and their repetitions do not matter.
-/
theorem nearest_claimant_is_left (v : View) (cs : List Peer) :
    ((v.rivals cs = [] ∧ v.notifyAll cs = v) ∨
      ∃ p, v.notifyAll cs = { v with predecessor := some p } ∧ ∀ q, Nearest v.self.id (v.rivals cs) q ↔ q = p) ∧
    (∀ before c after, cs = before ++ c :: after → (((v.notifyAll before).notify c).2 = true ↔
      c.id ≠ v.self.id ∧ (v.notifyAll (before ++ [c])).predecessor = some c)) ∧
    ∀ ds, (∀ p, p ∈ ds ↔ p ∈ cs) → (∀ p ∈ cs, ∀ q ∈ cs, p.id = q.id → p = q) → v.notifyAll ds = v.notifyAll cs := by
  refine ⟨?_, ?_, ?_⟩
  · rcases v.notifyAll_cases cs with hnone | ⟨p, heq, hp⟩
    · exact Or.inl hnone
    · refine Or.inr ⟨p, heq, fun q => ⟨fun hq => hq.unique hp, ?_⟩⟩
      rintro rfl
      exact hp
  · rintro before c after rfl
    have hself : (v.notifyAll before).self = v.self := by
      rcases v.notifyAll_cases before with ⟨_, heq⟩ | ⟨_, heq, _⟩ <;> rw [heq]
    rw [notifyAll_concat, notify_accepted_iff, hself]
  · intro ds hmem hapart
    apply notifyAll_congr
    intro i
    rw [rivals, rivals, List.filter_append, List.filter_append, firstAt_append, firstAt_append]
    congr 1
    apply firstAt_congr
    · simp [hmem]
    · intro p hp q hq
      exact hapart p (List.mem_filter.mp hp).1 q (List.mem_filter.mp hq).1

/-- A ring of one, right behind zero. -/
def hermit : View := (View.fresh ⟨5, ⟨10, 0, 0, 1⟩, 7000⟩ 3).create

/-- One of them claims the position of the member itself. -/
def callers : List Peer :=
  [⟨100, ⟨10, 0, 0, 2⟩, 7000⟩, ⟨0xFFFFFFFF, ⟨10, 0, 0, 3⟩, 7000⟩, ⟨5, ⟨10, 0, 0, 4⟩, 7000⟩,
    ⟨0xFFFFFFF0, ⟨10, 0, 0, 5⟩, 7000⟩]

/-- The second to come is as close as it gets, across zero. -/
theorem nearest_claimant_is_left_hermit : (∀ p, p ∈ callers.reverse ++ callers ↔ p ∈ callers) ∧
    (∀ p ∈ callers, ∀ q ∈ callers, p.id = q.id → p = q) ∧
    (hermit.notifyAll (callers.reverse ++ callers)).predecessor = some ⟨0xFFFFFFFF, ⟨10, 0, 0, 3⟩, 7000⟩ ∧
    callers = callers.take 1 ++ ⟨0xFFFFFFFF, ⟨10, 0, 0, 3⟩, 7000⟩ :: callers.drop 2 ∧
    ((hermit.notifyAll (callers.take 1)).notify ⟨0xFFFFFFFF, ⟨10, 0, 0, 3⟩, 7000⟩).2 = true := by
  have hmem : ∀ p, p ∈ callers.reverse ++ callers ↔ p ∈ callers := by simp
  have hapart : ∀ p ∈ callers, ∀ q ∈ callers, p.id = q.id → p = q := by decide
  obtain ⟨_, hanswer, horder⟩ := hermit.nearest_claimant_is_left callers
  refine ⟨hmem, hapart, ?_, rfl, ?_⟩
  · rw [horder _ hmem hapart]
    decide
  · rw [hanswer (callers.take 1) _ (callers.drop 2) rfl]
    decide

-- Of two at one position, the first to come stays.
example : (hermit.notifyAll [⟨7, ⟨10, 0, 0, 2⟩, 7000⟩, ⟨7, ⟨10, 0, 0, 3⟩, 7000⟩]).predecessor =
    some ⟨7, ⟨10, 0, 0, 2⟩, 7000⟩ := by decide

end View

end ChordOverlay
