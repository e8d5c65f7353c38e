import ChordOverlay.Proofs.Gap
import Mathlib.Data.List.Chain

/-!
# Rings whose lists are true

Every member knows the members after it in their order, up to a length that is the same for all, and the one before
it. A row of members that is not longer than the ring comes back to nobody.
-/

namespace ChordOverlay

variable {ι : Type} {σ : ι → Member} {i j k : ι} {js js' : List ι} {len : Nat}

/-- The members after `k`, one after another. -/
def Row (σ : ι → Member) (k : ι) (js : List ι) : Prop := (k :: js).IsChain fun i j => Next σ i (σ j).self

/-- The peers are the members that follow on `k`, one after the other. -/
def Following (σ : ι → Member) (k : ι) (ps : List Peer) : Prop :=
  ∃ js : List ι, Row σ k js ∧ ps = js.map fun j => (σ j).self

/-- Lists of `len` entries, or of as many as there are others; a ring of one precedes itself. -/
structure Aligned [Fintype ι] (len : Nat) (σ : ι → Member) : Prop extends Ring σ where
  bound : ∀ k, (σ k).view.successors.bound = len
  setting : ∀ k, max 1 (σ k).settings.successorListLength = len
  list : ∀ k, Following σ k (σ k).view.successors.peers
  length : ∀ k, (σ k).view.successors.peers.length = min len (Fintype.card ι - 1)
  before : ∀ k, ∃ j, (σ k).view.predecessor = some (σ j).self ∧ Next σ j (σ k).self

theorem Row.unique [Fintype ι] (hids : Distinct σ) (h : Row σ k js) (h' : Row σ k js') (hlen : js.length = js'.length) :
    js = js' := by
  induction js generalizing k js' with
  | nil => exact (List.length_eq_zero_iff.mp hlen.symm).symm
  | cons j js ih =>
      cases js' with
      | nil => cases hlen
      | cons j' js' =>
          obtain ⟨hj, hrow⟩ := List.isChain_cons_cons.mp h
          obtain ⟨hj', hrow'⟩ := List.isChain_cons_cons.mp h'
          obtain rfl := hj.unique hids hj'
          rw [ih hrow hrow' (Nat.succ.inj hlen)]

section Counting

variable [Fintype ι]

theorem Row.gap_getElem (hids : Distinct σ) (h : Row σ k js) (hlen : js.length ≤ Fintype.card ι - 1) {n : Nat}
    (hn : n < js.length) : gap σ k js[n] = n ∧ js[n] ≠ k := by
  have hne : ∀ x, gap σ k x < js.length → x ≠ k := by
    rintro x hx rfl
    rw [gap_self hids] at hx
    omega
  -- One place more before every next entry, unless `k` itself has been reached, which has all the others before it.
  have hgap : gap σ k js[n] = n := by
    induction n with
    | zero => exact (gap_eq_zero hids).mpr (List.IsChain.getElem h 0 (Nat.succ_lt_succ hn))
    | succ n ih =>
        have hn' : n < js.length := Nat.lt_of_succ_lt hn
        have hnext : Next σ js[n] (σ js[n + 1]).self := List.IsChain.getElem h (n + 1) (Nat.succ_lt_succ hn)
        rw [gap_next hids (hne _ (by rw [ih hn']; exact hn')) hnext, ih hn']
  exact ⟨hgap, hne _ (by rw [hgap]; exact hn)⟩

theorem Row.mem_iff (hids : Distinct σ) (h : Row σ k js) (hlen : js.length ≤ Fintype.card ι - 1) :
    j ∈ js ↔ j ≠ k ∧ gap σ k j < js.length := by
  constructor
  · intro hj
    obtain ⟨n, hn, rfl⟩ := List.mem_iff_getElem.mp hj
    obtain ⟨hgap, hne⟩ := h.gap_getElem hids hlen hn
    exact ⟨hne, by rw [hgap]; exact hn⟩
  · rintro ⟨hj, hgap⟩
    obtain ⟨hgap', hne⟩ := h.gap_getElem hids hlen hgap
    rw [← gap_inj hids hne hj hgap']
    exact List.getElem_mem hgap

theorem Row.ordered (hids : Distinct σ) (h : Row σ k js) (hlen : js.length ≤ Fintype.card ι - 1) :
    (js.map fun j => (σ j).self).Pairwise fun p q =>
      Successors.reach (σ k).self p < Successors.reach (σ k).self q := by
  refine List.pairwise_map.mpr (List.pairwise_iff_getElem.mpr fun m n hm hn hmn => ?_)
  obtain ⟨hgap, _⟩ := h.gap_getElem hids hlen hm
  obtain ⟨hgap', hne⟩ := h.gap_getElem hids hlen hn
  exact distance_lt_of_gap_lt hids hne (by omega)

theorem Row.replace (hids : Distinct σ) (hv : (σ k).view.Sound) (h : Row σ k js) (hlen : js.length ≤ Fintype.card ι - 1)
    (hfits : js.length ≤ (σ k).view.successors.bound) :
    ((σ k).view.successors.replace (js.map fun j => (σ j).self)).peers = js.map fun j => (σ j).self := by
  have hordered := h.ordered hids hlen
  refine Successors.closest_of_ordered ?_ ?_ (by rwa [List.length_map])
  · rw [hv.list_owner]
    exact hordered
  · intro p hp
    obtain ⟨j, hj, rfl⟩ := List.mem_map.mp hp
    rw [hv.list_owner]
    exact fun hid => ((h.mem_iff hids hlen).mp hj).1 (hids _ _ hid)

/-- The member after the last of a row is a new one, or the row has met everybody and is back at `k`. -/
theorem Row.step (hids : Distinct σ) (h : Row σ k (js ++ [i])) (hlen : (js ++ [i]).length ≤ Fintype.card ι - 1)
    (hnext : Next σ i (σ j).self) :
    (j = k → (js ++ [i]).length = Fintype.card ι - 1) ∧
      (j ≠ k → Row σ k (js ++ [i] ++ [j]) ∧ (js ++ [i] ++ [j]).length ≤ Fintype.card ι - 1 ∧ j ∉ js ++ [i]) := by
  obtain ⟨hi, hik⟩ : gap σ k i = js.length ∧ i ≠ k := by
    have := h.gap_getElem hids hlen (n := js.length) (by simp)
    simpa using this
  have hj := gap_next hids hik hnext
  rw [hi] at hj
  constructor
  · rintro rfl
    rw [gap_self hids] at hj
    simp [hj]
  · intro hne
    have hlt := gap_lt hids hne
    refine ⟨List.isChain_append.mpr ⟨h, .singleton _, ?_⟩, by simp; omega, fun hmem => ?_⟩
    · intro x hx y hy
      rw [← List.cons_append, List.getLast?_concat] at hx
      obtain rfl := Option.some.inj hx
      obtain rfl : j = y := by simpa using hy
      exact hnext
    · have := ((h.mem_iff hids hlen).mp hmem).2
      simp at this
      omega

/-! ## Walks -/

/-- The peers met on a walk when nobody moves: each member names its successor. -/
def trail (net : Net ι) (σ : ι → Member) (self : RingId) : Nat → Peer → List Peer → List Peer
  | 0, _, walked => walked
  | n + 1, current, walked =>
    match net.reach current.address with
    | none => walked
    | some k =>
      let next := (σ k).view.successor
      if next.id ≠ self ∧ ¬ walked.any (fun p => p.id = next.id) then trail net σ self n next (walked ++ [next])
      else walked

variable {net : Net ι}

omit [Fintype ι] in
theorem mem_trail {self : RingId} {n : Nat} {current p : Peer} {walked : List Peer} (h : p ∈ walked) :
    p ∈ trail net σ self n current walked := by
  induction n generalizing current walked with
  | zero => exact h
  | succ n ih =>
      simp only [trail]
      split
      · exact h
      · split
        · exact ih (List.mem_append_left _ h)
        · exact h

omit [Fintype ι] in
theorem forall_trail {P : Peer → Prop} (hsuccessor : ∀ k, P (σ k).view.successor) {self : RingId} {n : Nat}
    {current : Peer} {walked : List Peer} (hwalked : ∀ p ∈ walked, P p) :
    ∀ p ∈ trail net σ self n current walked, P p := by
  induction n generalizing current walked with
  | zero => exact hwalked
  | succ n ih =>
      simp only [trail]
      split
      · exact hwalked
      · rename_i k _
        split
        · refine ih fun p hp => ?_
          rcases List.mem_append.mp hp with hp | hp
          · exact hwalked p hp
          · rw [List.mem_singleton.mp hp]
            exact hsuccessor k
        · exact hwalked

omit [Fintype ι] in
theorem length_trail (net : Net ι) (σ : ι → Member) (self : RingId) (n : Nat) (current : Peer) (walked : List Peer) :
    (trail net σ self n current walked).length ≤ n + walked.length := by
  induction n generalizing current walked with
  | zero => exact Nat.le_add_left _ _
  | succ n ih =>
      simp only [trail]
      split
      · omega
      · split
        · refine Nat.le_trans (ih _ _) ?_
          rw [List.length_append, List.length_singleton]
          omega
        · omega

omit [Fintype ι] in
theorem pairwise_trail {self : RingId} {n : Nat} {current : Peer} {walked : List Peer}
    (h : walked.Pairwise fun p q => p.id ≠ q.id) :
    (trail net σ self n current walked).Pairwise fun p q => p.id ≠ q.id := by
  induction n generalizing current walked with
  | zero => exact h
  | succ n ih =>
      simp only [trail]
      split
      · exact h
      · split
        · rename_i hnew
          refine ih (List.pairwise_append.mpr ⟨h, List.pairwise_singleton _ _, fun p hp q hq => ?_⟩)
          rw [List.mem_singleton.mp hq]
          exact fun hid => hnew.2 (List.any_eq_true.mpr ⟨p, hp, by simpa using hid⟩)
        · exact h

/-- A walk goes on until it has the peers asked for or is back at `k`. -/
theorem Ring.exists_trail (h : Ring σ) (hreach : ∀ k, net.reach (σ k).self.address = some k) (n : Nat)
    (hrow : Row σ k (js ++ [i])) (hlen : (js ++ [i]).length ≤ Fintype.card ι - 1) :
    ∃ js', Row σ k js' ∧ js'.length = min (n + (js ++ [i]).length) (Fintype.card ι - 1) ∧
      trail net σ (σ k).self.id n (σ i).self ((js ++ [i]).map fun j => (σ j).self) = js'.map fun j => (σ j).self := by
  -- What has been walked is a row all along, so the walk stops early only where the row has met everybody.
  induction n generalizing js i with
  | zero => exact ⟨js ++ [i], hrow, by omega, rfl⟩
  | succ n ih =>
      have hnext := h.next i
      obtain ⟨j, hj⟩ := hnext.1
      rw [hj] at hnext
      obtain ⟨hback, hon⟩ := hrow.step h.distinct hlen hnext
      simp only [trail, hreach, hj]
      by_cases hjk : j = k
      · subst hjk
        rw [if_neg fun hne => hne.1 rfl]
        have := hback rfl
        exact ⟨js ++ [i], hrow, by omega, rfl⟩
      · obtain ⟨hrow', hlen', hnew⟩ := hon hjk
        have hid : (σ j).self.id ≠ (σ k).self.id := fun hid => hjk (h.distinct _ _ hid)
        have hany : ¬ ((js ++ [i]).map fun j => (σ j).self).any (fun p => p.id = (σ j).self.id) := by
          simp only [List.any_map, List.any_eq_true, Function.comp_apply, decide_eq_true_eq]
          rintro ⟨x, hx, hid⟩
          obtain rfl := h.distinct _ _ hid
          exact hnew hx
        rw [if_pos ⟨hid, hany⟩]
        obtain ⟨js', hjs', hlength, htrail⟩ := ih hrow' hlen'
        refine ⟨js', hjs', ?_, ?_⟩
        · have hmore : (js ++ [i] ++ [j]).length = (js ++ [i]).length + 1 := List.length_append
          rw [hlength, hmore]
          omega
        · have hmore : (js ++ [i] ++ [j]).map (fun j => (σ j).self) =
              (js ++ [i]).map (fun j => (σ j).self) ++ [(σ j).self] := List.map_append
          rw [← htrail, hmore]

theorem Ring.has_others (h : Ring σ) (hother : (σ k).view.successor.id ≠ (σ k).self.id) : 1 ≤ Fintype.card ι - 1 := by
  obtain ⟨j, hj⟩ := (h.next k).1
  have hjk : j ≠ k := by
    rintro rfl
    exact hother (congrArg Peer.id hj)
  have := gap_lt h.distinct hjk
  omega

theorem Ring.exists_walked (h : Ring σ) (hreach : ∀ k, net.reach (σ k).self.address = some k) (hroom : 0 < len)
    (hother : (σ k).view.successor.id ≠ (σ k).self.id) :
    ∃ js, Row σ k js ∧ js.length = min len (Fintype.card ι - 1) ∧
      trail net σ (σ k).self.id (len - 1) (σ k).view.successor [(σ k).view.successor] = js.map fun j => (σ j).self := by
  have hnext := h.next k
  have hcard := h.has_others hother
  obtain ⟨j, hj⟩ := hnext.1
  rw [hj] at hnext ⊢
  have hrow : Row σ k ([] ++ [j]) := List.isChain_cons_cons.mpr ⟨hnext, .singleton _⟩
  obtain ⟨js, hjs, hlength, htrail⟩ := h.exists_trail hreach (len - 1) hrow hcard
  refine ⟨js, hjs, ?_, htrail⟩
  rw [hlength, List.nil_append, List.length_singleton, Nat.sub_add_cancel hroom]

/-- The list that a walk leaves names the members after `k`, as many as it has room for or as there are. -/
theorem Ring.exists_synced (h : Ring σ) (hreach : ∀ k, net.reach (σ k).self.address = some k)
    (hroom : (σ k).view.successors.bound = max 1 (σ k).settings.successorListLength)
    (hother : (σ k).view.successor.id ≠ (σ k).self.id) :
    ∃ js, Row σ k js ∧ js.length = min (max 1 (σ k).settings.successorListLength) (Fintype.card ι - 1) ∧
      trail net σ (σ k).self.id (max 1 (σ k).settings.successorListLength - 1) (σ k).view.successor
        [(σ k).view.successor] = js.map (fun j => (σ j).self) ∧
      (σ k).view.syncSuccessors (js.map fun j => (σ j).self) =
        { (σ k).view with successors.peers := js.map fun j => (σ j).self } := by
  obtain ⟨js, hrow, hlength, htrail⟩ := h.exists_walked hreach (Nat.le_max_left 1 _) hother
  refine ⟨js, hrow, hlength, htrail, ?_⟩
  have hcard := h.has_others hother
  have hsome : (js.map fun j => (σ j).self).isEmpty = false := by
    cases js with
    | nil =>
        rw [List.length_nil] at hlength
        omega
    | cons j js => rfl
  have hreplace := hrow.replace h.distinct (h.sound k) (by omega) (by rw [hroom]; omega)
  have hlist : (σ k).view.successors.replace (js.map fun j => (σ j).self) =
      { (σ k).view.successors with peers := js.map fun j => (σ j).self } :=
    congrArg (fun ps => { (σ k).view.successors with peers := ps }) hreplace
  rw [View.syncSuccessors, hsome, hlist]
  rfl

end Counting

end ChordOverlay
