import Libcircle.Lib.Wave

/-!
# Waves whose tree changes from round to round

Round `k` of a wave runs on the tree `T k`.  The trees have the same nodes, and
may have different edges.  `Wave.Turn T w k` says that the wave is in round `k`:
every node has either completed round `k`, or is still to complete it and has
completed all rounds before.  When all nodes have completed round `k`, nothing is
in flight and the wave is in round `k + 1` as well (`Turn.advance`).  So a node
that makes a move in the round after its own may do so on the tree of that round
(`Turn.of_done_le`).
-/

namespace Wave

variable {V M : Type*} {T : ℕ → ParentTree V} {w : Wave V M} {k : ℕ} {p c x a : V} {m : M}

/-- The wave is in round `k`. -/
structure Turn (T : ℕ → ParentTree V) (w : Wave V M) (k : ℕ) : Prop where
  inv : w.Inv (T k)
  done_cases : ∀ x, (T k).IsNode x → w.done x + 1 = k ∨ (w.done x = k ∧ w.up x = false)

namespace Turn

/-- The first round has not started. -/
theorem initial (hdone : ∀ x, w.done x = 0) (hup : ∀ x, w.up x = false)
    (hreplies : ∀ x, w.replies x = 0) (hnet : ∀ a b, w.net a b = []) : w.Turn T 0 where
  inv := inv_initial (fun x y => (hdone x).trans (hdone y).symm) hup hreplies hnet
  done_cases x _ := .inr ⟨hdone x, hup x⟩

/-- A node that has reported is still in the round. -/
theorem done_of_up (h : w.Turn T k) (hx : (T k).IsNode x) (hup : w.up x = true) :
    w.done x + 1 = k := by
  rcases h.done_cases x hx with hd | ⟨_, hup'⟩
  · exact hd
  · exact absurd (hup'.symm.trans hup) (by decide)

/-- No node is more than one round ahead of another. -/
theorem done_le (h : w.Turn T k) (hx : (T k).IsNode x) (ha : (T k).IsNode a) :
    w.done x ≤ w.done a + 1 := by
  rcases h.done_cases x hx with hd | ⟨hd, _⟩ <;>
  rcases h.done_cases a ha with hd' | ⟨hd', _⟩ <;> omega

/-- A node that is behind another waits for the answer. -/
theorem up_of_done_lt (h : w.Turn T k) (hx : (T k).IsNode x) (ha : (T k).IsNode a)
    (hlt : w.done a < w.done x) : w.up a = true := by
  rcases h.inv.done_cases a ha with hd | ⟨_, hup⟩
  · rcases h.inv.done_cases x hx with hd' | ⟨hd', _⟩ <;> omega
  · exact hup

/-- When all nodes have completed the round, the next one may start. -/
theorem advance (h : w.Turn T k) (hnode : ∀ x, (T (k + 1)).IsNode x → (T k).IsNode x)
    (hall : ∀ x, (T k).IsNode x → w.done x = k) : w.Turn T (k + 1) := by
  have hup : ∀ x, (T k).IsNode x → w.up x = false := by
    intro x hx
    rcases h.done_cases x hx with hd | ⟨_, hup⟩
    · have := hall x hx
      omega
    · exact hup
  exact ⟨h.inv.retree hnode hup, fun x hx => .inl (by rw [hall x (hnode x hx)])⟩

/-- A node that no other node is behind is in its next round. -/
theorem of_done_le (h : w.Turn T k) (hnode : ∀ k k' x, (T k).IsNode x → (T k').IsNode x)
    (hx : (T k).IsNode x) (hall : ∀ a, (T k).IsNode a → w.done x ≤ w.done a) :
    w.Turn T (w.done x + 1) := by
  rcases h.done_cases x hx with hd | ⟨hd, _⟩
  · rwa [hd]
  · rw [hd]
    refine h.advance (hnode _ _) fun a ha => ?_
    have hle := hall a ha
    rcases h.done_cases a ha with hd' | ⟨hd', _⟩ <;> omega

/-! ## The moves -/

variable [DecidableEq V]

theorem recv (h : w.Turn T k) (hc : c ∈ (T k).children p) (hm : w.net c p ≠ []) :
    (w.recv p c).Turn T k :=
  ⟨h.inv.recv hc hm, h.done_cases⟩

theorem send (h : w.Turn T k) (hc : c ∈ (T k).children p) (hup : w.up c = false)
    (hall : ∀ x ∈ (T k).children c, w.counted c x = true) (hdone : w.done c + 1 = k) (m : M) :
    (w.send c p m).Turn T k := by
  refine ⟨h.inv.send hc hup hall m, fun x hx => ?_⟩
  by_cases hxc : x = c
  · subst hxc
    exact .inl hdone
  · rw [show (w.send c p m).up x = w.up x from Function.update_of_ne hxc _ _]
    exact h.done_cases x hx

/-- A node that completes the round. -/
theorem done_cases_release {cs : List V}
    (h : ∀ a, (T k).IsNode a → w.done a + 1 = k ∨ (w.done a = k ∧ w.up a = false))
    (hdone : w.done x + 1 = k) :
    ∀ a, (T k).IsNode a → (w.release x cs m).done a + 1 = k ∨
      ((w.release x cs m).done a = k ∧ (w.release x cs m).up a = false) := by
  intro a ha
  by_cases hax : a = x
  · subst hax
    right
    rw [← hdone]
    exact ⟨Function.update_self .., Function.update_self ..⟩
  · rw [show (w.release x cs m).done a = w.done a from Function.update_of_ne hax _ _,
      show (w.release x cs m).up a = w.up a from Function.update_of_ne hax _ _]
    exact h a ha

theorem release_root (h : w.Turn T k) (hx : x = (T k).root)
    (hall : ∀ c ∈ (T k).children x, w.counted x c = true) (hdone : w.done x + 1 = k) (m : M) :
    (w.release x ((T k).children x) m).Turn T k := by
  subst hx
  exact ⟨h.inv.release_root hall m, done_cases_release h.done_cases hdone⟩

theorem answer (h : w.Turn T k) (hc : x ∈ (T k).children p) (hm : w.net p x ≠ []) (m : M) :
    (w.answer p x ((T k).children x) m).Turn T k := by
  obtain ⟨_, _, _, hup, _⟩ := h.inv.answered_of_answer hc hm
  have hdone := h.done_of_up ((T k).node_of_mem hc) hup
  exact ⟨h.inv.answer hc hm m,
    done_cases_release (w := { w with net := w.net.pop p x }) h.done_cases hdone⟩

end Turn

end Wave
