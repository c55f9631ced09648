import Libcircle.Lib.Wave

/-!
# A wave does not get stuck

While some node has not completed a round, a node that has not completed it either
can make a move (`Inv.exists_move`).  An answer in flight can be taken.  Without
one all nodes are in the same round, and a report in flight can be received.
Without either, a lowest node that has not reported has heard from all its
children.

`progress` numbers the positions of a node: to report, reported, heard, and the
same in the next round.  Every move is a step of one node, and none goes back, so
a bound on the rounds bounds the moves (`remaining_lt`).
-/

namespace Wave

variable {V M : Type*} {T : ParentTree V} {w w' : Wave V M} {p c x y : V} {m : M}

/-! ## Moves -/

/-- A move `x` can make. -/
inductive CanMove (T : ParentTree V) (w : Wave V M) (x : V) : Prop where
  /-- The report of a child is in flight. -/
  | recv (c : V) (hc : c ∈ T.children x) (hup : w.up x = false) (hm : w.net c x ≠ [])
  /-- All children have been heard. -/
  | report (hup : w.up x = false) (hall : ∀ c ∈ T.children x, w.counted x c = true)
  /-- The answer is in flight. -/
  | answer (p : V) (hp : x ∈ T.children p) (hm : w.net p x ≠ [])

/-- While some node is to complete a round, the answer is in flight to such a node, or all children
of one that has not reported have. -/
theorem Inv.exists_waiting (h : Inv T w) (hwf : WellFounded fun c p => c ∈ T.children p) {k : ℕ}
    (hx : ∃ x, T.IsNode x ∧ w.done x < k) :
    ∃ x, T.IsNode x ∧ w.done x < k ∧ ((∃ p, x ∈ T.children p ∧ w.net p x ≠ []) ∨
      (w.up x = false ∧ ∀ c ∈ T.children x, w.counted x c = true ∨ w.net c x ≠ [])) := by
  obtain ⟨x, hx, hk⟩ := hx
  have hxd := h.done_cases x hx
  by_cases hans : ∃ p c, c ∈ T.children p ∧ w.net p c ≠ []
  · obtain ⟨p, c, hc, hm⟩ := hans
    have hcn := T.node_of_mem hc
    have hpn := T.node_parent c p hcn (T.parent_of_mem hc)
    obtain ⟨_, _, hd, _⟩ := h.answered_of_answer hc hm
    refine ⟨c, hcn, ?_, .inl ⟨p, hc, hm⟩⟩
    rcases h.done_cases p hpn with hp | ⟨hp, _⟩ <;> rcases hxd with hx | ⟨hx, _⟩ <;> omega
  · -- no answer is in flight, so no node is behind the root
    have hnone : ∀ p c, c ∈ T.children p → w.net p c = [] := fun p c hc =>
      of_not_not fun hm => hans ⟨p, c, hc, hm⟩
    have hdone : ∀ x, T.IsNode x → w.done x = w.done T.root := by
      refine T.induct rfl fun p c _ hc ih => ?_
      cases h.edge p c hc with
      | quiet hd _ _ _ => exact hd.trans ih
      | sent _ hd _ _ _ => exact hd.trans ih
      | heard hd _ _ _ => exact hd.trans ih
      | answered m _ _ _ hd => exact absurd (hd.symm.trans (hnone p c hc)) (by simp)
    -- a lowest node that has not reported
    obtain ⟨y, ⟨hy, hup⟩, hmin⟩ := hwf.has_min {y | T.IsNode y ∧ w.up y = false}
      ⟨T.root, T.root_node, h.root_up⟩
    refine ⟨y, hy, by rwa [hdone y hy, ← hdone x hx], .inr ⟨hup, fun c hc => ?_⟩⟩
    cases h.edge y c hc with
    | quiet _ hupc _ _ => exact absurd hc (hmin c ⟨T.node_of_mem hc, hupc⟩)
    | sent m _ _ hu _ => exact .inr (by simp [hu])
    | heard hd hupc hu _ => exact .inl (counted_iff.mpr ⟨hupc, hd, hu⟩)
    | answered m _ _ _ hd => exact absurd (hd.symm.trans (hnone y c hc)) (by simp)

/-- While some node is to complete a round, such a node can move. -/
theorem Inv.exists_move (h : Inv T w) (hwf : WellFounded fun c p => c ∈ T.children p) {k : ℕ}
    (hx : ∃ x, T.IsNode x ∧ w.done x < k) :
    ∃ x, T.IsNode x ∧ w.done x < k ∧ CanMove T w x := by
  obtain ⟨x, hx, hk, ⟨p, hp, hm⟩ | ⟨hup, hall⟩⟩ := h.exists_waiting hwf hx
  · exact ⟨x, hx, hk, .answer p hp hm⟩
  · refine ⟨x, hx, hk, ?_⟩
    by_cases hm : ∃ c ∈ T.children x, w.net c x ≠ []
    · obtain ⟨c, hc, hm⟩ := hm
      exact .recv c hc hup hm
    · exact .report hup fun c hc => (hall c hc).resolve_right fun hm' => hm ⟨c, hc, hm'⟩

/-! ## Progress -/

/-- The report of `x` is in flight. -/
def reporting (T : ParentTree V) (w : Wave V M) (x : V) : Bool :=
  match T.parent x with
  | some p => !(w.net x p).isEmpty
  | none => false

/-- The position of `x`: three positions a round. -/
def progress (T : ParentTree V) (w : Wave V M) (x : V) : ℕ :=
  3 * w.done x + if w.up x then if w.reporting T x then 1 else 2 else 0

theorem progress_le : w.progress T x ≤ 3 * w.done x + 2 := by
  unfold progress
  split
  · split <;> omega
  · omega

theorem progress_of_not_up (hup : w.up x = false) : w.progress T x = 3 * w.done x := by
  simp [progress, hup]

/-- A node that has completed `k` rounds at most, and waits in none after them. -/
theorem progress_le_of_up {k : ℕ} (hdone : w.done x ≤ k)
    (hup : w.up x = true → w.done x < k) : w.progress T x ≤ 3 * k := by
  have hle : w.progress T x ≤ 3 * w.done x + 2 := progress_le
  cases h : w.up x with
  | false =>
      rw [progress_of_not_up h]
      omega
  | true =>
      have hlt := hup h
      omega

theorem reporting_of_mem (hc : c ∈ T.children p) :
    w.reporting T c = !(w.net c p).isEmpty := by
  rw [reporting, T.parent_of_mem hc]

theorem progress_congr (hdone : w'.done x = w.done x) (hup : w'.up x = w.up x)
    (hnet : ∀ p, T.parent x = some p → w'.net x p = w.net x p) :
    w'.progress T x = w.progress T x := by
  have hrep : w'.reporting T x = w.reporting T x := by
    unfold reporting
    cases hp : T.parent x with
    | none => rfl
    | some p => simp only [hnet p hp]
  rw [progress, progress, hdone, hup, hrep]

/-- One node is further on, and none is back. -/
def Advances (T : ParentTree V) (w w' : Wave V M) (x : V) : Prop :=
  w.progress T x < w'.progress T x ∧ ∀ y, y ≠ x → w'.progress T y = w.progress T y

section Moves

variable [DecidableEq V]

theorem Inv.advances_recv (h : Inv T w) (hc : c ∈ T.children p) (hm : w.net c p ≠ []) :
    Advances T w (w.recv p c) c := by
  obtain ⟨m, hu, _, hup, _⟩ := h.sent_of_report hc hm
  constructor
  · have hup' : (w.recv p c).up c = true := hup
    have hnew : (w.recv p c).net c p = [] := by simp [Wave.recv, hu]
    simp [progress, reporting_of_mem hc, hup, hup', hu, hnew,
      show (w.recv p c).done c = w.done c from rfl]
  · exact fun y hy => progress_congr rfl rfl fun q _ => Chan.pop_ne _ fun h => hy h.1

theorem advances_send (hc : c ∈ T.children p) (hup : w.up c = false) (m : M) :
    Advances T w (w.send c p m) c := by
  constructor
  · have hup' : (w.send c p m).up c = true := Function.update_self ..
    have hnew : (w.send c p m).net c p = w.net c p ++ [m] := Chan.push_self ..
    simp [progress, reporting_of_mem hc, hup, hup', hnew,
      show (w.send c p m).done c = w.done c from rfl]
  · exact fun y hy => progress_congr rfl (Function.update_of_ne hy _ _) fun q _ =>
      Chan.push_ne _ _ fun h => hy h.1

theorem advances_release {cs : List V} (m : M) : Advances T w (w.release x cs m) x := by
  constructor
  · have hle : w.progress T x ≤ 3 * w.done x + 2 := progress_le
    have hup : (w.release x cs m).up x = false := Function.update_self ..
    have hdone : (w.release x cs m).done x = w.done x + 1 := Function.update_self ..
    rw [progress_of_not_up hup, hdone]
    omega
  · exact fun y hy => progress_congr (Function.update_of_ne hy _ _) (Function.update_of_ne hy _ _)
      fun q _ => Chan.bcast_ne _ _ fun h => hy h.1

theorem advances_answer (hc : x ∈ T.children p) {cs : List V} (m : M) :
    Advances T w (w.answer p x cs m) x := by
  have hrel : Advances T { w with net := w.net.pop p x } (w.answer p x cs m) x := advances_release m
  obtain ⟨hlt, hne⟩ := hrel
  have hpop : ∀ y, progress T { w with net := w.net.pop p x } y = w.progress T y := by
    refine fun y => progress_congr rfl rfl fun q hq => Chan.pop_ne _ ?_
    -- the answer goes down
    rintro ⟨rfl, rfl⟩
    have hp := T.node_parent q y (T.node_of_mem hc) (T.parent_of_mem hc)
    exact T.not_mem_children_symm hc ((T.mem_children q y).mpr ⟨hp, hq⟩)
  rw [hpop] at hlt
  exact ⟨hlt, fun y hy => (hne y hy).trans (hpop y)⟩

end Moves

/-! ## The moves that remain -/

/-- The positions that the nodes of `N` have left when there are `D` rounds. -/
def remaining (T : ParentTree V) (w : Wave V M) (N : Finset V) (D : ℕ) : ℕ :=
  ∑ x ∈ N, (3 * D - w.progress T x)

theorem remaining_lt {N : Finset V} {D D' : ℕ} (hx : x ∈ N) (hadv : Advances T w w' x)
    (hbound : w'.progress T x ≤ 3 * D') (hD : D' ≤ D) :
    w'.remaining T N D' < w.remaining T N D := by
  obtain ⟨hlt, hne⟩ := hadv
  refine Finset.sum_lt_sum (fun y _ => ?_) ⟨x, hx, by omega⟩
  by_cases hy : y = x
  · rw [hy]
    omega
  · rw [hne y hy]
    omega

end Wave
