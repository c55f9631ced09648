import Mathlib.Logic.Function.Basic
import Mathlib.Data.Prod.Lex
import Mathlib.Order.Basic

/-!
# A probe that goes round a ring

The nodes `0 .. n - 1` form a ring.  Active nodes send messages, and a message
that arrives makes its receiver active.  A probe visits the nodes in turn, and
comes back to node `0` clean or dirty.  A node that sends to a lower node turns
black until the probe leaves it, and a black node makes the probe dirty.  Node `0`
starts each round with a clean probe.

If no node passes the probe on while a message to it is in flight, unless the probe
is dirty or will still meet a black node, then, when the probe comes back clean,
all nodes are passive and nothing is in flight (`Inv.quiet`).

While no node turns black, the probe comes back dirty at most twice
(`Swept.lt_of_dirty`).  If the nodes that can still turn black are bounded, every move
of the probe lowers its effort, until it comes back clean.
-/

namespace Libcircle

/-- The state of a probe and of the nodes it visits. -/
structure Probe where
  /-- The number of nodes the probe has left in this round. -/
  pos : ℕ
  /-- The probe has met a black node. -/
  dirty : Bool
  /-- The node has sent to a lower node since the probe left it. -/
  black : ℕ → Bool
  /-- The node may send. -/
  active : ℕ → Prop
  /-- A message from the first node to the second is in flight. -/
  pending : ℕ → ℕ → Prop

namespace Probe

variable {n i j : ℕ} {p p' : Probe}

/-- Node `i` is passive, and nothing is in flight to it. -/
def Quiet (p : Probe) (i : ℕ) : Prop := ¬p.active i ∧ ∀ j, ¬p.pending j i

/-- The probe will meet a black node. -/
def Ahead (n : ℕ) (p : Probe) : Prop := ∃ i, p.pos ≤ i ∧ i < n ∧ p.black i = true

/-- The invariant of the probe: it is dirty, or it will meet a black node, or all nodes it left
are quiet. -/
def Inv (n : ℕ) (p : Probe) : Prop :=
  p.dirty = true ∨ p.Ahead n ∨ ∀ i, i < p.pos → p.Quiet i

theorem Ahead.mono (h : p.Ahead n) (hpos : p'.pos = p.pos)
    (hblack : ∀ i, p.black i = true → p'.black i = true) : p'.Ahead n := by
  obtain ⟨i, hle, hlt, hb⟩ := h
  exact ⟨i, hpos ▸ hle, hlt, hblack i hb⟩

/-- When the probe comes back clean, all nodes are quiet. -/
theorem Inv.quiet (h : p.Inv n) (hpos : p.pos = n) (hclean : p.dirty = false) :
    ∀ i, i < n → p.Quiet i := by
  rcases h with hdirty | ⟨i, hle, hlt, _⟩ | hq
  · exact absurd (hclean.symm.trans hdirty) (by decide)
  · omega
  · exact hpos ▸ hq

/-- Nodes that the probe has not left, or to which a message is in flight, may become active.
Messages may be received, and nodes may turn black. -/
theorem Inv.wake (h : p.Inv n) (hpos : p'.pos = p.pos) (hdirty : p'.dirty = p.dirty)
    (hblack : ∀ i, p.black i = true → p'.black i = true)
    (hactive : ∀ i, p'.active i → p.active i ∨ p.pos ≤ i ∨ ∃ j, p.pending j i)
    (hpending : ∀ i j, p'.pending i j → p.pending i j) : p'.Inv n := by
  rcases h with hd | ha | hq
  · exact .inl (hdirty.trans hd)
  · exact .inr (.inl (ha.mono hpos hblack))
  · refine .inr (.inr fun i hi => ⟨fun hai => ?_, fun j hj => ?_⟩)
    · rw [hpos] at hi
      rcases hactive i hai with hai | hle | ⟨j, hj⟩
      · exact (hq i hi).1 hai
      · exact absurd hi (Nat.not_lt.mpr hle)
      · exact (hq i hi).2 j hj
    · exact (hq i (hpos ▸ hi)).2 j (hpending j i hj)

/-- Nodes may come to rest. -/
theorem Inv.rest (h : p.Inv n) (hpos : p'.pos = p.pos) (hdirty : p'.dirty = p.dirty)
    (hblack : ∀ i, p.black i = true → p'.black i = true)
    (hactive : ∀ i, p'.active i → p.active i)
    (hpending : ∀ i j, p'.pending i j → p.pending i j) : p'.Inv n :=
  h.wake hpos hdirty hblack (fun i hi => .inl (hactive i hi)) hpending

/-- An active node sends to `j`, and turns black if `j` is lower. -/
theorem Inv.post (h : p.Inv n) (hi : i < n) (ha : p.active i) (hpos : p'.pos = p.pos)
    (hdirty : p'.dirty = p.dirty) (hblack : ∀ x, p.black x = true → p'.black x = true)
    (hlow : j < i → p'.black i = true) (hactive : ∀ x, p'.active x → p.active x)
    (hpending : ∀ x y, p'.pending x y → p.pending x y ∨ (x = i ∧ y = j)) : p'.Inv n := by
  rcases h with hd | ha' | hq
  · exact .inl (hdirty.trans hd)
  · exact .inr (.inl (ha'.mono hpos hblack))
  · -- the sender is active, so the probe has not left it
    have hle : p.pos ≤ i := by
      by_contra hlt
      exact (hq i (Nat.lt_of_not_le hlt)).1 ha
    by_cases hj : j < p.pos
    · exact .inr (.inl ⟨i, hpos ▸ hle, hi, hlow (Nat.lt_of_lt_of_le hj hle)⟩)
    · refine .inr (.inr fun y hy => ?_)
      rw [hpos] at hy
      refine ⟨fun hay => (hq y hy).1 (hactive y hay), fun x hx => ?_⟩
      rcases hpending x y hx with hx | ⟨_, rfl⟩
      · exact (hq y hy).2 x hx
      · exact hj hy

/-- A node the dirty probe has reached turns white. -/
theorem Inv.absorb (hdirty : p'.dirty = true) : p'.Inv n := .inl hdirty

/-- The probe leaves a passive node, which turns white.  Node `0` sends a clean probe. -/
theorem Inv.leave (h : p.Inv n) (hpassive : ¬p.active p.pos) (hpos : p'.pos = p.pos + 1)
    (hdirty : p'.dirty = if p.pos = 0 then false else p.dirty || p.black p.pos)
    (hblack : ∀ x, x ≠ p.pos → p.black x = true → p'.black x = true)
    (hactive : ∀ x, p'.active x → p.active x)
    (hpending : ∀ x y, p'.pending x y → p.pending x y)
    (hmet : p'.dirty = true ∨ p'.Ahead n ∨ ∀ x, ¬p.pending x p.pos) : p'.Inv n := by
  rcases hmet with hd | ha | hnone
  · exact .inl hd
  · exact .inr (.inl ha)
  have hquiet : p'.Quiet p.pos :=
    ⟨fun ha => hpassive (hactive _ ha), fun x hx => hnone x (hpending x _ hx)⟩
  by_cases h0 : p.pos = 0
  · refine .inr (.inr fun x hx => ?_)
    have hx0 : x = p.pos := by omega
    exact hx0 ▸ hquiet
  · rw [if_neg h0] at hdirty
    rcases h with hd | ⟨x, hle, hlt, hb⟩ | hq
    · exact .inl (by rw [hdirty, hd, Bool.true_or])
    · by_cases hx : x = p.pos
      · exact .inl (by rw [hdirty, ← hx, hb, Bool.or_true])
      · exact .inr (.inl ⟨x, by omega, hlt, hblack x hx hb⟩)
    · refine .inr (.inr fun x hx => ?_)
      by_cases hxp : x = p.pos
      · exact hxp ▸ hquiet
      · obtain ⟨h₁, h₂⟩ := hq x (by omega)
        exact ⟨fun ha => h₁ (hactive x ha), fun y hy => h₂ y (hpending y x hy)⟩

/-- A round starts. -/
theorem Inv.restart (hpos : p'.pos = 0) : p'.Inv n :=
  .inr (.inr fun i hi => absurd (hpos ▸ hi) (Nat.not_lt_zero i))

/-! ## Rounds in which no node turns black -/

/-- The probe has come back `k` times, and no node has turned black since.  After the first time
the nodes it left are white.  After the second time all are, and the probe is clean. -/
def Swept (n : ℕ) (p : Probe) : ℕ → Prop
  | 0 => True
  | 1 => ∀ i, 0 < i → i < p.pos → p.black i = false
  | _ => (∀ i, 0 < i → i < n → p.black i = false) ∧ (0 < p.pos → p.dirty = false)

variable {k : ℕ}

/-- Nodes may turn white. -/
theorem Swept.whiten (h : p.Swept n k) (hpos : p'.pos = p.pos) (hdirty : p'.dirty = p.dirty)
    (hblack : ∀ i, p.black i = false → p'.black i = false) : p'.Swept n k := by
  match k, h with
  | 0, _ => trivial
  | 1, h => exact fun i hi hlt => hblack i (h i hi (hpos ▸ hlt))
  | k + 2, ⟨hwhite, hclean⟩ =>
      exact ⟨fun i hi hlt => hblack i (hwhite i hi hlt),
        fun h0 => hdirty.trans (hclean (hpos ▸ h0))⟩

/-- The probe is passed on by a node, or stays there. -/
theorem Swept.leave (h : p.Swept n k) (hlt : p.pos < n) (hpos : p'.pos ≤ p.pos + 1)
    (hdirty : p'.dirty = if p.pos = 0 then false else p.dirty || p.black p.pos)
    (hself : p'.black p.pos = false) (hblack : ∀ i, p.black i = false → p'.black i = false) :
    p'.Swept n k := by
  match k, h with
  | 0, _ => trivial
  | 1, h =>
      intro i hi hle
      rcases Nat.lt_or_eq_of_le (Nat.le_of_lt_succ (Nat.lt_of_lt_of_le hle hpos)) with hle | rfl
      · exact hblack i (h i hi hle)
      · exact hself
  | k + 2, ⟨hwhite, hclean⟩ =>
      refine ⟨fun i hi hin => hblack i (hwhite i hi hin), fun _ => ?_⟩
      by_cases h0 : p.pos = 0
      · rw [hdirty, if_pos h0]
      · have hp := Nat.pos_of_ne_zero h0
        rw [hdirty, if_neg h0, hclean hp, hwhite _ hp hlt]
        rfl

/-- A round starts. -/
theorem Swept.restart (h : p.Swept n k) (hback : p.pos = n) (hpos : p'.pos = 0)
    (hblack : ∀ i, p.black i = false → p'.black i = false) : p'.Swept n (k + 1) := by
  have hnot : ¬0 < p'.pos := Nat.not_lt.mpr (Nat.le_of_eq hpos)
  match k, h with
  | 0, _ => exact fun i _ hlt => absurd (hpos ▸ hlt) (Nat.not_lt_zero i)
  | 1, h => exact ⟨fun i hi hlt => hblack i (h i hi (hback ▸ hlt)), fun h0 => absurd h0 hnot⟩
  | k + 2, ⟨hwhite, _⟩ =>
      exact ⟨fun i hi hlt => hblack i (hwhite i hi hlt), fun h0 => absurd h0 hnot⟩

/-- A probe that comes back dirty has come back at most once before. -/
theorem Swept.lt_of_dirty (h : p.Swept n k) (hpos : 0 < p.pos) (hdirty : p.dirty = true) :
    k < 2 := by
  match k, h with
  | 0, _ | 1, _ => decide
  | k + 2, ⟨_, hclean⟩ => exact absurd ((hclean hpos).symm.trans hdirty) (by decide)

/-! ## The end of the rounds -/

variable {debt debt' : ℕ}

/-- The trouble left, if `debt` bounds the black nodes and those that may turn black, and the way
left in this round; `sent` says that the probe is in flight. -/
def effort (n debt : ℕ) (sent : Bool) (p : Probe) : ℕ ×ₗ ℕ :=
  toLex (2 * debt + (p.dirty && decide (0 < p.pos)).toNat, 2 * (n - p.pos) + sent.toNat)

theorem effort_lt_of_le {sent sent' : Bool}
    (hle : 2 * debt' + (p'.dirty && decide (0 < p'.pos)).toNat ≤
      2 * debt + (p.dirty && decide (0 < p.pos)).toNat)
    (hlt : 2 * (n - p'.pos) + sent'.toNat < 2 * (n - p.pos) + sent.toNat) :
    effort n debt' sent' p' < effort n debt sent p := by
  rw [effort, effort, Prod.Lex.toLex_lt_toLex]
  rcases Nat.lt_or_eq_of_le hle with hlt' | heq
  · exact .inl hlt'
  · exact .inr ⟨heq, hlt⟩

theorem effort_mono (hpos : p'.pos = p.pos) (hdirty : p'.dirty = p.dirty) (hdebt : debt' ≤ debt)
    {sent : Bool} : effort n debt' sent p' ≤ effort n debt sent p := by
  rw [effort, effort, Prod.Lex.toLex_le_toLex, hpos, hdirty]
  rcases Nat.lt_or_eq_of_le hdebt with hlt | rfl
  · exact .inl (Nat.add_lt_add_right (Nat.mul_lt_mul_of_pos_left hlt Nat.two_pos) _)
  · exact .inr ⟨rfl, Nat.le_refl _⟩

/-- A node passes the probe on, and turns white. -/
theorem effort_leave (hlt : p.pos < n) (hpos : p'.pos = p.pos + 1)
    (hdirty : p'.dirty = if p.pos = 0 then false else p.dirty || p.black p.pos)
    (hdebt : debt' + (p.black p.pos).toNat ≤ debt) :
    effort n debt' true p' < effort n debt false p := by
  refine effort_lt_of_le ?_ ?_
  · by_cases h0 : p.pos = 0
    · simp [hdirty, h0]
      omega
    · have hp := Nat.pos_of_ne_zero h0
      have hp' : 0 < p'.pos := hpos ▸ Nat.succ_pos _
      simp only [hdirty, if_neg h0, hp, hp', decide_true, Bool.and_true]
      cases p.dirty <;> cases hb : p.black p.pos <;> simp [hb] at hdebt ⊢ <;> omega
  · simp only [hpos, Bool.toNat_true, Bool.toNat_false]
    omega

/-- The probe arrives at the next node. -/
theorem effort_arrive (hpos : p'.pos = p.pos) (hdirty : p'.dirty = p.dirty) (hdebt : debt' ≤ debt) :
    effort n debt' false p' < effort n debt true p := by
  refine effort_lt_of_le ?_ ?_
  · rw [hdirty, hpos]
    exact Nat.add_le_add_right (Nat.mul_le_mul_left 2 hdebt) _
  · rw [hpos]
    exact Nat.lt_succ_self _

/-- The probe comes back dirty. -/
theorem effort_restart (hback : 0 < p.pos) (hdirty : p.dirty = true) (hpos : p'.pos = 0)
    (hdebt : debt' ≤ debt) : effort n debt' false p' < effort n debt true p := by
  refine Prod.Lex.toLex_lt_toLex.mpr (.inl ?_)
  simp only [hdirty, hpos, hback, Nat.lt_irrefl, decide_true, decide_false, Bool.and_true,
    Bool.and_false, Bool.toNat_true, Bool.toNat_false]
  omega

end Probe

end Libcircle
