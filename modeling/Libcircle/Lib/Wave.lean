import Mathlib.Data.List.Count
import Mathlib.Data.List.Nodup
import Libcircle.Lib.Channel

/-!
# Waves on a rooted tree

A *wave* is the pattern in which every node of a rooted tree hears from all its
children, reports to its parent, and waits until the answer of the root comes
back down, round after round.  A tree barrier, a tree allreduce and a blocking
up-and-down sweep are all waves; they differ in what the messages carry.  Both
directions share one channel per ordered pair of nodes.

Each node has the number of rounds it completed (`done`), whether it has
reported in the current round (`up`), and the number of reports it received in
the current round (`replies`).  There are four moves.

* `recv`: a node receives the report of a child.
* `send`: a node that heard from all its children reports to its parent.
* `release`: the root, having heard from all its children, or a node that has
  received the answer, sends it to its children and starts the next round.
* `answer`: a node receives the answer of its parent and releases.

`Inv` relates the two ends of every edge, and the four moves preserve it.  Its
consequences carry the uses of a wave: the root releases only when every node
has reported (`Inv.all_up`), no node is ahead of the root or more than one
round behind it (`Inv.done_cases`), and a receipt from any source, while
reports are missing, is the report of a child (`Inv.child_of_pending`).

`Marked` follows one absorbing value, such as `false` in a conjunction, from
the node that holds it to the result at the root.
-/

/-! ## Rooted trees -/

/-- A rooted tree, given by parents and by lists of children. -/
structure ParentTree (V : Type*) where
  /-- The nodes. -/
  IsNode : V → Prop
  /-- The parent, or none at the root. -/
  parent : V → Option V
  /-- The children. -/
  children : V → List V
  /-- The root. -/
  root : V
  /-- The distance to the root, or any other measure that grows downwards. -/
  depth : V → ℕ
  root_node : IsNode root
  parent_root : parent root = none
  eq_root : ∀ x, IsNode x → parent x = none → x = root
  mem_children : ∀ p c, c ∈ children p ↔ IsNode c ∧ parent c = some p
  children_nodup : ∀ p, (children p).Nodup
  node_parent : ∀ c p, IsNode c → parent c = some p → IsNode p
  depth_lt : ∀ c p, IsNode c → parent c = some p → depth p < depth c

namespace ParentTree

variable {V : Type*} (T : ParentTree V) {p c x : V}

theorem node_of_mem (h : c ∈ T.children p) : T.IsNode c := ((T.mem_children p c).mp h).1

theorem parent_of_mem (h : c ∈ T.children p) : T.parent c = some p := ((T.mem_children p c).mp h).2

theorem depth_of_mem (h : c ∈ T.children p) : T.depth p < T.depth c :=
  T.depth_lt c p (T.node_of_mem h) (T.parent_of_mem h)

/-- No two nodes are each other's children. -/
theorem not_mem_children_symm (h : c ∈ T.children p) : p ∉ T.children c := fun h' =>
  absurd (T.depth_of_mem h) (Nat.lt_asymm (T.depth_of_mem h'))

theorem ne_of_mem (h : c ∈ T.children p) : p ≠ c := by
  rintro rfl
  exact absurd (T.depth_of_mem h) (Nat.lt_irrefl _)

/-- The number of parents of a node. -/
def parents (x : V) : ℕ := (T.parent x).toList.length

theorem parents_of_mem (h : c ∈ T.children p) : T.parents c = 1 := by
  rw [parents, T.parent_of_mem h]
  rfl

theorem parents_le_one (x : V) : T.parents x ≤ 1 := by
  rw [parents]
  cases T.parent x <;> simp

/-- A node has one parent. -/
theorem parent_unique {q : V} (h : c ∈ T.children p) (h' : c ∈ T.children q) : p = q :=
  Option.some.inj ((T.parent_of_mem h).symm.trans (T.parent_of_mem h'))

/-- What holds at the root and passes from a node to its children holds at every node. -/
theorem induct {P : V → Prop} (hroot : P T.root)
    (hstep : ∀ p c, T.IsNode p → c ∈ T.children p → P p → P c) : ∀ x, T.IsNode x → P x := by
  have key : ∀ n x, T.IsNode x → T.depth x = n → P x := by
    intro n
    induction n using Nat.strong_induction_on with
    | _ n ih =>
      intro x hx hd
      cases hp : T.parent x with
      | none => exact T.eq_root x hx hp ▸ hroot
      | some p =>
          have hpn := T.node_parent x p hx hp
          have hlt := T.depth_lt x p hx hp
          exact hstep p x hpn ((T.mem_children p x).mpr ⟨hx, hp⟩) (ih _ (hd ▸ hlt) p hpn rfl)
  intro x hx
  exact key _ x hx rfl

/-- Where every node of a set is related to a neighbour in the set, two neighbours are related
both ways. -/
theorem exists_mutual {R : V → V → Prop} {S : Set V}
    (hwf : WellFounded fun c p => c ∈ T.children p) (hne : S.Nonempty)
    (hS : ∀ x ∈ S, ∃ y ∈ S, R x y)
    (hedge : ∀ x y, R x y → y ∈ T.children x ∨ x ∈ T.children y) :
    ∃ p c, c ∈ T.children p ∧ R p c ∧ R c p := by
  by_cases hdown : ∃ p, p ∈ S ∧ ∃ c ∈ S, R p c ∧ c ∈ T.children p
  · -- a lowest node that is related to one of its children
    obtain ⟨p, ⟨_, c, hc, hpc, hcp⟩, hmin⟩ := hwf.has_min _ hdown
    obtain ⟨q, hq, hcq⟩ := hS c hc
    rcases hedge c q hcq with h | h
    · exact absurd hcp (hmin c ⟨hc, q, hq, hcq, h⟩)
    · obtain rfl := T.parent_unique h hcp
      exact ⟨q, c, hcp, hpc, hcq⟩
  · -- every node is related to its parent
    obtain ⟨x, hx, hmin⟩ := (measure T.depth).wf.has_min S hne
    obtain ⟨y, hy, hxy⟩ := hS x hx
    rcases hedge x y hxy with h | h
    · exact absurd ⟨x, hx, y, hy, hxy, h⟩ hdown
    · exact absurd (T.depth_of_mem h) (hmin y hy)

/-- Every node but the root is the child of one node. -/
theorem sum_children {A : Type*} [AddCommMonoid A] [DecidableEq V] {N : Finset V}
    (hN : ∀ x, x ∈ N ↔ T.IsNode x) (f : V → A) :
    ∑ x ∈ N, ((T.children x).map f).sum = ∑ c ∈ N.erase T.root, f c := by
  -- every node but the root is the child of its parent alone
  have hparent : ∀ c ∈ N.erase T.root, T.parent c = some ((T.parent c).getD T.root) := by
    intro c hc
    obtain ⟨hne, hc⟩ := Finset.mem_erase.mp hc
    cases hp : T.parent c with
    | none => exact absurd (T.eq_root c ((hN c).mp hc) hp) hne
    | some p => rfl
  have hmaps : ∀ c ∈ N.erase T.root, (T.parent c).getD T.root ∈ N := fun c hc =>
    (hN _).mpr (T.node_parent c _ ((hN c).mp (Finset.mem_of_mem_erase hc)) (hparent c hc))
  have hchild : ∀ x, ((T.children x).map f).sum =
      ∑ c ∈ N.erase T.root with (T.parent c).getD T.root = x, f c := by
    intro x
    rw [← List.sum_toFinset f (T.children_nodup x)]
    refine Finset.sum_congr (Finset.ext fun c => ?_) fun _ _ => rfl
    rw [List.mem_toFinset, T.mem_children, Finset.mem_filter]
    constructor
    · rintro ⟨hc, hp⟩
      refine ⟨Finset.mem_erase.mpr ⟨?_, (hN c).mpr hc⟩, by rw [hp, Option.getD_some]⟩
      rintro rfl
      rw [T.parent_root] at hp
      cases hp
    · rintro ⟨hc, hp⟩
      refine ⟨(hN c).mp (Finset.mem_of_mem_erase hc), ?_⟩
      rw [← hp]
      exact hparent c hc
  rw [← Finset.sum_fiberwise_of_maps_to hmaps f]
  exact Finset.sum_congr rfl fun x _ => hchild x

/-- If every node adds its own part to what its children pass up, the root has the sum of the
parts of the nodes in `N`. -/
theorem sum_own {A : Type*} [AddCancelCommMonoid A] [DecidableEq V] {N : Finset V}
    (hN : ∀ x, x ∈ N ↔ T.IsNode x) {f own : V → A}
    (h : ∀ x, T.IsNode x → f x = own x + ((T.children x).map f).sum) :
    f T.root = ∑ x ∈ N, own x := by
  have hroot : T.root ∈ N := (hN _).mpr T.root_node
  have hsum : ∑ x ∈ N, f x = ∑ x ∈ N, own x + ∑ c ∈ N.erase T.root, f c := by
    rw [← T.sum_children hN f, ← Finset.sum_add_distrib]
    exact Finset.sum_congr rfl fun x hx => h x ((hN x).mp hx)
  rw [← Finset.add_sum_erase N f hroot] at hsum
  exact add_right_cancel hsum

/-- All nodes but the root are children. -/
theorem sum_length_children [DecidableEq V] {N : Finset V} (hN : ∀ x, x ∈ N ↔ T.IsNode x) :
    ∑ x ∈ N, (T.children x).length = N.card - 1 := by
  have hsum := T.sum_children hN fun _ => 1
  simp only [List.map_const', List.sum_replicate_nat, Nat.mul_one] at hsum
  rw [hsum, ← Finset.card_eq_sum_ones, Finset.card_erase_of_mem ((hN _).mpr T.root_node)]

/-- The way up from any node ends at the root. -/
theorem reaches_root (h : T.IsNode x) :
    Relation.ReflTransGen (fun c p => T.parent c = some p) x T.root := by
  refine T.induct (P := fun x => Relation.ReflTransGen _ x T.root) .refl ?_ x h
  exact fun p c _ hc ih => .head (T.parent_of_mem hc) ih

end ParentTree

/-! ## The state of a wave and its moves -/

/-- The state of a wave. -/
structure Wave (V M : Type*) where
  /-- The number of rounds a node completed. -/
  done : V → ℕ
  /-- Whether a node has reported in the current round. -/
  up : V → Bool
  /-- The number of reports a node received in the current round. -/
  replies : V → ℕ
  /-- Reports and answers in flight. -/
  net : Chan V M

namespace Wave

variable {V M : Type*} {T : ParentTree V} {w : Wave V M} {p c x a b : V} {m : M}

theorem ext {w' : Wave V M} (hdone : w.done = w'.done) (hup : w.up = w'.up)
    (hreplies : w.replies = w'.replies) (hnet : w.net = w'.net) : w = w' := by
  cases w
  cases w'
  cases hdone
  cases hup
  cases hreplies
  cases hnet
  rfl

section Defs

variable [DecidableEq V]

/-- `p` receives the report of `c`. -/
def recv (w : Wave V M) (p c : V) : Wave V M :=
  { w with replies := Function.update w.replies p (w.replies p + 1), net := w.net.pop c p }

/-- `c` reports `m` to its parent `p`. -/
def send (w : Wave V M) (c p : V) (m : M) : Wave V M :=
  { w with up := Function.update w.up c true, net := w.net.push c p m }

/-- `x` sends `m` to the nodes of `cs` and starts the next round. -/
def release (w : Wave V M) (x : V) (cs : List V) (m : M) : Wave V M where
  done := Function.update w.done x (w.done x + 1)
  up := Function.update w.up x false
  replies := Function.update w.replies x 0
  net := w.net.bcast x cs m

/-- `x` receives the answer of `p` and releases. -/
def answer (w : Wave V M) (p x : V) (cs : List V) (m : M) : Wave V M :=
  release { w with net := w.net.pop p x } x cs m

end Defs

/-! ## The invariant -/

/-- The report of `c` has reached `p` in the current round of `p`. -/
def counted (w : Wave V M) (p c : V) : Bool :=
  w.up c && decide (w.done c = w.done p) && (w.net c p).isEmpty

/-- The phases of the edge from `p` down to `c`. -/
inductive Phase (w : Wave V M) (p c : V) : Prop where
  /-- `c` has not reported. -/
  | quiet (hdone : w.done c = w.done p) (hup : w.up c = false) (hu : w.net c p = [])
      (hd : w.net p c = [])
  /-- The report of `c` is in flight. -/
  | sent (m : M) (hdone : w.done c = w.done p) (hup : w.up c = true) (hu : w.net c p = [m])
      (hd : w.net p c = [])
  /-- The report of `c` has arrived. -/
  | heard (hdone : w.done c = w.done p) (hup : w.up c = true) (hu : w.net c p = [])
      (hd : w.net p c = [])
  /-- The answer of `p` is in flight. -/
  | answered (m : M) (hdone : w.done p = w.done c + 1) (hup : w.up c = true) (hu : w.net c p = [])
      (hd : w.net p c = [m])

theorem counted_iff :
    w.counted p c = true ↔ w.up c = true ∧ w.done c = w.done p ∧ w.net c p = [] := by
  simp [counted, and_assoc]

/-- The invariant of a wave on the tree `T`. -/
structure Inv (T : ParentTree V) (w : Wave V M) : Prop where
  /-- The two ends of every edge agree. -/
  edge : ∀ p c, c ∈ T.children p → Phase w p c
  /-- A node reports only after all its children. -/
  counted_of_up : ∀ p, w.up p = true → ∀ c ∈ T.children p, w.counted p c = true
  /-- The number of reports received is the number of children that reported. -/
  replies_eq : ∀ p, w.replies p = (T.children p).countP (w.counted p)
  /-- Messages travel along the edges of the tree only. -/
  off_tree : ∀ a b, b ∉ T.children a → a ∉ T.children b → w.net a b = []
  /-- The root never waits for an answer. -/
  root_up : w.up T.root = false

theorem Inv.replies_le (h : Inv T w) (p : V) : w.replies p ≤ (T.children p).length := by
  rw [h.replies_eq p]
  exact List.countP_le_length

/-- A wave in which nothing has happened. -/
theorem inv_initial (hdone : ∀ x y, w.done x = w.done y) (hup : ∀ x, w.up x = false)
    (hreplies : ∀ x, w.replies x = 0) (hnet : ∀ a b, w.net a b = []) : Inv T w where
  edge p c _ := .quiet (hdone c p) (hup c) (hnet c p) (hnet p c)
  counted_of_up p h := by rw [hup p] at h; cases h
  replies_eq p := by
    rw [hreplies p, eq_comm, List.countP_eq_zero]
    intro c _ h
    have := (counted_iff.mp h).1
    rw [hup c] at this
    cases this
  off_tree a b _ _ := hnet a b
  root_up := hup _

/-! ## Reading the invariant -/

section Facts

theorem Phase.counted_false_of_up_false (h : w.up c = false) : w.counted p c = false := by
  simp [counted, h]

theorem Phase.congr {w' : Wave V M} (h : Phase w p c) (hdc : w'.done c = w.done c)
    (hdp : w'.done p = w.done p) (hup : w'.up c = w.up c) (hu : w'.net c p = w.net c p)
    (hd : w'.net p c = w.net p c) : Phase w' p c := by
  cases h with
  | quiet h₁ h₂ h₃ h₄ =>
      exact .quiet (by rw [hdc, hdp, h₁]) (by rw [hup, h₂]) (by rw [hu, h₃]) (by rw [hd, h₄])
  | sent m h₁ h₂ h₃ h₄ =>
      exact .sent m (by rw [hdc, hdp, h₁]) (by rw [hup, h₂]) (by rw [hu, h₃]) (by rw [hd, h₄])
  | heard h₁ h₂ h₃ h₄ =>
      exact .heard (by rw [hdc, hdp, h₁]) (by rw [hup, h₂]) (by rw [hu, h₃]) (by rw [hd, h₄])
  | answered m h₁ h₂ h₃ h₄ =>
      exact .answered m (by rw [hdc, hdp, h₁]) (by rw [hup, h₂]) (by rw [hu, h₃])
        (by rw [hd, h₄])

theorem counted_congr {w' : Wave V M} (hdc : w'.done c = w.done c) (hdp : w'.done p = w.done p)
    (hup : w'.up c = w.up c) (hu : w'.net c p = w.net c p) :
    w'.counted p c = w.counted p c := by
  simp only [counted, hdc, hdp, hup, hu]

variable (h : Inv T w)
include h

/-- A report in flight is the only message on its edge. -/
theorem Inv.sent_of_report (hc : c ∈ T.children p) (hm : w.net c p ≠ []) :
    ∃ m, w.net c p = [m] ∧ w.done c = w.done p ∧ w.up c = true ∧ w.net p c = [] := by
  cases h.edge p c hc with
  | quiet _ _ hu _ => exact absurd hu hm
  | sent m h₁ h₂ hu hd => exact ⟨m, hu, h₁, h₂, hd⟩
  | heard _ _ hu _ => exact absurd hu hm
  | answered _ _ _ hu _ => exact absurd hu hm

/-- An answer in flight is the only message on its edge, and its receiver waits for it. -/
theorem Inv.answered_of_answer (hc : c ∈ T.children p) (hm : w.net p c ≠ []) :
    ∃ m, w.net p c = [m] ∧ w.done p = w.done c + 1 ∧ w.up c = true ∧ w.net c p = [] := by
  cases h.edge p c hc with
  | quiet _ _ _ hd => exact absurd hd hm
  | sent _ _ _ _ hd => exact absurd hd hm
  | heard _ _ _ hd => exact absurd hd hm
  | answered m h₁ h₂ hu hd => exact ⟨m, hd, h₁, h₂, hu⟩

/-- Nothing is in flight on the edge of a node that has not reported. -/
theorem Inv.quiet_of_not_up (hc : c ∈ T.children p) (hup : w.up c = false) :
    w.done c = w.done p ∧ w.net c p = [] ∧ w.net p c = [] := by
  cases h.edge p c hc with
  | quiet h₁ _ hu hd => exact ⟨h₁, hu, hd⟩
  | sent _ _ h₂ _ _ => rw [hup] at h₂; cases h₂
  | heard _ h₂ _ _ => rw [hup] at h₂; cases h₂
  | answered _ _ h₂ _ _ => rw [hup] at h₂; cases h₂

/-- Nothing is in flight on the edge of a node whose report was heard. -/
theorem Inv.quiet_of_counted (hc : c ∈ T.children p) (hcnt : w.counted p c = true) :
    w.up c = true ∧ w.done c = w.done p ∧ w.net c p = [] ∧ w.net p c = [] := by
  obtain ⟨h₁, h₂, h₃⟩ := counted_iff.mp hcnt
  refine ⟨h₁, h₂, h₃, ?_⟩
  by_contra hd
  obtain ⟨_, _, hdone, _⟩ := h.answered_of_answer hc hd
  omega

/-- A node that misses the report of a child has not reported. -/
theorem Inv.up_false_of_report (hc : c ∈ T.children p) (hm : w.net c p ≠ []) :
    w.up p = false := by
  rw [Bool.eq_false_iff]
  intro hup
  exact hm (counted_iff.mp (h.counted_of_up p hup c hc)).2.2

theorem Inv.counted_of_replies (hr : w.replies p = (T.children p).length) :
    ∀ c ∈ T.children p, w.counted p c = true := by
  rw [h.replies_eq p, List.countP_eq_length] at hr
  exact hr

/-- A node that has not heard a report has not counted all. -/
theorem Inv.replies_lt (hc : c ∈ T.children p) (hm : w.net c p ≠ []) :
    w.replies p < (T.children p).length := by
  refine Nat.lt_of_le_of_ne ?_ fun heq => ?_
  · rw [h.replies_eq p]
    exact List.countP_le_length
  · exact hm (counted_iff.mp (h.counted_of_replies heq c hc)).2.2

theorem Inv.replies_of_counted (hall : ∀ c ∈ T.children p, w.counted p c = true) :
    w.replies p = (T.children p).length := by
  rw [h.replies_eq p, List.countP_eq_length]
  exact hall

theorem Inv.replies_of_up (hup : w.up p = true) : w.replies p = (T.children p).length :=
  h.replies_of_counted (h.counted_of_up p hup)

/-- Once a node has heard from all its children, only its parent sends to it. -/
theorem Inv.net_eq_nil_of_counted (hall : ∀ x ∈ T.children c, w.counted c x = true)
    (ha : c ∉ T.children a) : w.net a c = [] := by
  by_cases hc : a ∈ T.children c
  · exact (h.quiet_of_counted hc (hall a hc)).2.2.1
  · exact h.off_tree a c ha hc

/-- While reports are missing, a message in flight to a node is the report of a child. -/
theorem Inv.child_of_pending (hr : w.replies p < (T.children p).length)
    (hm : w.net a p ≠ []) : a ∈ T.children p := by
  by_contra ha
  by_cases hp : p ∈ T.children a
  · obtain ⟨_, _, _, hup, _⟩ := h.answered_of_answer hp hm
    rw [h.replies_of_up hup] at hr
    exact Nat.lt_irrefl _ hr
  · exact hm (h.off_tree a p hp ha)

/-- No node is ahead of the root, and one that is behind by a round waits for the answer. -/
theorem Inv.done_cases : ∀ x, T.IsNode x →
    w.done x = w.done T.root ∨ (w.done x + 1 = w.done T.root ∧ w.up x = true) := by
  refine T.induct (.inl rfl) fun p c hp hc ih => ?_
  rcases ih with hd | ⟨hd, hup⟩
  · cases h.edge p c hc with
    | quiet h₁ _ _ _ => exact .inl (h₁.trans hd)
    | sent _ h₁ _ _ _ => exact .inl (h₁.trans hd)
    | heard h₁ _ _ _ => exact .inl (h₁.trans hd)
    | answered _ h₁ h₂ _ _ => exact .inr ⟨by omega, h₂⟩
  · obtain ⟨h₁, h₂, _⟩ := counted_iff.mp (h.counted_of_up p hup c hc)
    exact .inr ⟨by omega, h₁⟩

theorem Inv.done_eq_of_not_up (hx : T.IsNode x) (hup : w.up x = false) :
    w.done x = w.done T.root := by
  rcases h.done_cases x hx with hd | ⟨_, hu⟩
  · exact hd
  · rw [hup] at hu; cases hu

/-- A node has reported at least as often as its parent. -/
theorem Inv.reports_le (hc : c ∈ T.children p) :
    w.done p + (w.up p).toNat ≤ w.done c + (w.up c).toNat := by
  have hle : (w.up p).toNat ≤ 1 := Bool.toNat_le _
  have hcounted : w.up p = true → w.up c = true ∧ w.done c = w.done p := fun hup =>
    have hcnt := counted_iff.mp (h.counted_of_up p hup c hc)
    ⟨hcnt.1, hcnt.2.1⟩
  cases h.edge p c hc with
  | quiet hd hup _ _ =>
      have hp : w.up p = false := by
        rw [Bool.eq_false_iff]
        intro hup'
        exact absurd (hup.symm.trans (hcounted hup').1) (by decide)
      simp [hd, hp, hup]
  | sent _ hd hup _ _ | heard hd hup _ _ =>
      simp only [hup, hd, Bool.toNat_true]
      omega
  | answered _ hd hup _ _ =>
      have hp : w.up p = false := by
        rw [Bool.eq_false_iff]
        intro hup'
        have := (hcounted hup').2
        omega
      simp [hd, hp, hup]

/-- While the root has completed no round, no node has and no answer is in flight. -/
theorem Inv.none_done (hroot : w.done T.root = 0) :
    (∀ x, T.IsNode x → w.done x = 0) ∧ ∀ p c, c ∈ T.children p → w.net p c = [] := by
  have hdone : ∀ x, T.IsNode x → w.done x = 0 := by
    intro x hx
    rcases h.done_cases x hx with hd | ⟨hd, _⟩ <;> omega
  refine ⟨hdone, fun p c hc => ?_⟩
  by_contra hne
  obtain ⟨_, _, hd, _⟩ := h.answered_of_answer hc hne
  have := hdone p (T.node_parent c p (T.node_of_mem hc) (T.parent_of_mem hc))
  omega

/-- When the root has heard from all its children, every other node has reported in
the current round and nothing is in flight on its edge. -/
theorem Inv.all_up (hroot : ∀ c ∈ T.children T.root, w.counted T.root c = true) :
    ∀ x, T.IsNode x → x ≠ T.root → w.up x = true ∧ w.done x = w.done T.root := by
  have key : ∀ x, T.IsNode x → x = T.root ∨ (w.up x = true ∧ w.done x = w.done T.root) := by
    refine T.induct (.inl rfl) fun p c _ hc ih => .inr ?_
    rcases ih with rfl | ⟨hup, hd⟩
    · obtain ⟨h₁, h₂, _⟩ := counted_iff.mp (hroot c hc)
      exact ⟨h₁, h₂⟩
    · obtain ⟨h₁, h₂, _⟩ := counted_iff.mp (h.counted_of_up p hup c hc)
      exact ⟨h₁, h₂.trans hd⟩
  intro x hx hne
  exact (key x hx).resolve_left hne

/-- When no node has reported, nothing is in flight. -/
theorem Inv.net_eq_nil (hup : ∀ x, T.IsNode x → w.up x = false) (a b : V) : w.net a b = [] := by
  by_cases hb : b ∈ T.children a
  · exact (h.quiet_of_not_up hb (hup b (T.node_of_mem hb))).2.2
  · by_cases ha : a ∈ T.children b
    · exact (h.quiet_of_not_up ha (hup a (T.node_of_mem ha))).2.1
    · exact h.off_tree a b hb ha

/-- While no node waits for an answer, the wave may go on on another tree. -/
theorem Inv.retree {T' : ParentTree V} (hnode : ∀ x, T'.IsNode x → T.IsNode x)
    (hup : ∀ x, T.IsNode x → w.up x = false) : Inv T' w := by
  have hnet := h.net_eq_nil hup
  have hdone : ∀ x, T.IsNode x → w.done x = w.done T.root := fun x hx =>
    (h.done_cases x hx).resolve_right fun hd => absurd ((hup x hx).symm.trans hd.2) (by decide)
  have hzero : ∀ T₀ : ParentTree V, (∀ x, T₀.IsNode x → w.up x = false) → ∀ p,
      (T₀.children p).countP (w.counted p) = 0 := by
    intro T₀ hup₀ p
    rw [List.countP_eq_zero]
    intro c hc hcnt
    have hc' := (counted_iff.mp hcnt).1
    exact absurd ((hup₀ c (T₀.node_of_mem hc)).symm.trans hc') (by decide)
  refine ⟨fun p c hc => ?_, fun p hp c hc => ?_, fun p => ?_, fun a b _ _ => hnet a b, ?_⟩
  · have hcn := hnode c (T'.node_of_mem hc)
    have hpn := hnode p (T'.node_parent c p (T'.node_of_mem hc) (T'.parent_of_mem hc))
    exact .quiet ((hdone c hcn).trans (hdone p hpn).symm) (hup c hcn) (hnet c p) (hnet p c)
  · have hpn := hnode p (T'.node_parent c p (T'.node_of_mem hc) (T'.parent_of_mem hc))
    exact absurd ((hup p hpn).symm.trans hp) (by decide)
  · rw [h.replies_eq p, hzero T hup, hzero T' fun x hx => hup x (hnode x hx)]
  · exact hup _ (hnode _ T'.root_node)

end Facts

/-! ## The moves preserve the invariant -/

/-- A count over a list without duplicates grows with the one element that joins. -/
theorem countP_eq_add_one {f g : V → Bool} : ∀ {l : List V}, l.Nodup → c ∈ l →
    f c = false → g c = true → (∀ x ∈ l, x ≠ c → g x = f x) →
    l.countP g = l.countP f + 1
  | [], _, hc, _, _, _ => absurd hc (by simp)
  | x :: l, hl, hc, hf, hg, ho => by
      obtain ⟨hx, hl'⟩ := List.nodup_cons.mp hl
      by_cases hxc : x = c
      · subst hxc
        have hrest : l.countP g = l.countP f :=
          List.countP_congr fun y hy => by
            rw [ho y (List.mem_cons_of_mem _ hy) fun he => hx (he ▸ hy)]
        simp [hf, hg, hrest]
      · have hc' : c ∈ l := (List.mem_cons.mp hc).resolve_left fun he => hxc he.symm
        have ih := countP_eq_add_one hl' hc' hf hg fun y hy => ho y (List.mem_cons_of_mem _ hy)
        simp only [List.countP_cons, ih, ho x (List.mem_cons_self ..) hxc]
        omega

section Moves

variable [DecidableEq V]

/-! ### The reports heard after a move -/

section Counted

variable {p' c' : V} {cs : List V}

theorem counted_recv_ne (hne : ¬(c' = c ∧ p' = p)) :
    (w.recv p c).counted p' c' = w.counted p' c' :=
  counted_congr rfl rfl rfl (Chan.pop_ne _ hne)

theorem counted_recv_self (hup : w.up c = true) (hdone : w.done c = w.done p)
    (hu : w.net c p = [m]) : (w.recv p c).counted p c = true :=
  counted_iff.mpr ⟨hup, hdone, by simp [Wave.recv, hu]⟩

/-- A report in flight has not been heard. -/
theorem counted_send (hc : c ∈ T.children p) (hup : w.up c = false) (hc' : c' ∈ T.children p') :
    (w.send c p m).counted p' c' = w.counted p' c' := by
  by_cases hcc : c' = c
  · subst hcc
    obtain rfl := T.parent_unique hc hc'
    simp [counted, Wave.send, hup]
  · exact counted_congr rfl rfl (Function.update_of_ne hcc _ _)
      (Chan.push_ne _ _ fun he => hcc he.1)

theorem counted_release_ne (habove : x ∈ T.children p → w.done p = w.done x + 1)
    (hc : c ∈ T.children p) (hp : p ≠ x) :
    (w.release x (T.children x) m).counted p c = w.counted p c := by
  by_cases hcx : c = x
  · subst hcx
    have hd := habove hc
    rw [Phase.counted_false_of_up_false (Function.update_self ..), eq_comm, Bool.eq_false_iff]
    intro hcount
    have := (counted_iff.mp hcount).2.1
    omega
  · exact counted_congr (Function.update_of_ne hcx _ _) (Function.update_of_ne hp _ _)
      (Function.update_of_ne hcx _ _) (Chan.bcast_ne _ _ fun he => hcx he.1)

theorem counted_release_self (hc : c ∈ T.children x) (hd : w.done c = w.done x) :
    (w.release x cs m).counted x c = false := by
  rw [Bool.eq_false_iff]
  intro hcount
  have hdone := (counted_iff.mp hcount).2.1
  rw [show (w.release x cs m).done x = w.done x + 1 from Function.update_self ..,
    show (w.release x cs m).done c = w.done c from
      Function.update_of_ne (T.ne_of_mem hc).symm _ _] at hdone
  omega

/-- The answer that arrives is not a report. -/
theorem counted_pop (hx : x ∈ T.children p) (hc : c' ∈ T.children p') :
    counted { w with net := w.net.pop p x } p' c' = w.counted p' c' := by
  refine counted_congr rfl rfl rfl (Chan.pop_ne _ ?_)
  rintro ⟨rfl, rfl⟩
  exact T.not_mem_children_symm hx hc

end Counted

/-! ### The moves -/

variable (h : Inv T w)
include h

theorem Inv.recv (hc : c ∈ T.children p) (hm : w.net c p ≠ []) : Inv T (w.recv p c) := by
  obtain ⟨m, hu, hdone, hup, hd⟩ := h.sent_of_report hc hm
  have hnet : ∀ a b, ¬(a = c ∧ b = p) → (w.recv p c).net a b = w.net a b :=
    fun a b hab => Chan.pop_ne _ hab
  have hnew : (w.recv p c).net c p = [] := by simp [Wave.recv, hu]
  constructor
  · intro p' c' hc'
    by_cases hcc : c' = c ∧ p' = p
    · obtain ⟨rfl, rfl⟩ := hcc
      refine .heard hdone hup hnew ?_
      rw [hnet p' c' fun he => T.ne_of_mem hc he.1, hd]
    · refine (h.edge p' c' hc').congr rfl rfl rfl (hnet c' p' hcc) (hnet p' c' ?_)
      rintro ⟨rfl, rfl⟩
      exact T.not_mem_children_symm hc hc'
  · intro p' hup' c' hc'
    by_cases hcc : c' = c ∧ p' = p
    · obtain ⟨rfl, rfl⟩ := hcc
      exact counted_recv_self hup hdone hu
    · rw [counted_recv_ne hcc]
      exact h.counted_of_up p' hup' c' hc'
  · intro p'
    by_cases hp : p' = p
    · subst hp
      have hlt : (T.children p').countP ((w.recv p' c).counted p')
          = (T.children p').countP (w.counted p') + 1 := by
        refine countP_eq_add_one (T.children_nodup p') hc ?_ (counted_recv_self hup hdone hu)
          fun x _ hx => counted_recv_ne fun he => hx he.1
        simp [counted, hu]
      rw [hlt, ← h.replies_eq p']
      exact Function.update_self ..
    · have : (w.recv p c).replies p' = w.replies p' := Function.update_of_ne hp _ _
      rw [this, h.replies_eq p']
      exact List.countP_congr fun c' _ => by rw [counted_recv_ne fun he => hp he.2]
  · intro a b hb ha
    by_cases hab : a = c ∧ b = p
    · obtain ⟨rfl, rfl⟩ := hab
      exact absurd hc ha
    · rw [hnet a b hab]
      exact h.off_tree a b hb ha
  · exact h.root_up

theorem Inv.send (hc : c ∈ T.children p) (hup : w.up c = false)
    (hall : ∀ x ∈ T.children c, w.counted c x = true) (m : M) : Inv T (w.send c p m) := by
  obtain ⟨hdone, hu, hd⟩ := h.quiet_of_not_up hc hup
  have hnet : ∀ a b, ¬(a = c ∧ b = p) → (w.send c p m).net a b = w.net a b :=
    fun a b hab => Chan.push_ne _ _ hab
  have hnew : (w.send c p m).net c p = [m] := by simp [Wave.send, hu]
  have hupc : (w.send c p m).up c = true := Function.update_self ..
  have hupne : ∀ x, x ≠ c → (w.send c p m).up x = w.up x := fun x hx => Function.update_of_ne hx _ _
  constructor
  · intro p' c' hc'
    by_cases hcc : c' = c
    · subst hcc
      obtain rfl := T.parent_unique hc hc'
      refine .sent m hdone hupc hnew ?_
      rw [hnet p c' fun he => T.ne_of_mem hc he.1, hd]
    · refine (h.edge p' c' hc').congr rfl rfl (hupne c' hcc) (hnet c' p' fun he => hcc he.1)
        (hnet p' c' ?_)
      rintro ⟨rfl, rfl⟩
      exact T.not_mem_children_symm hc hc'
  · intro p' hup' c' hc'
    rw [counted_send hc hup hc']
    by_cases hp : p' = c
    · subst hp
      exact hall c' hc'
    · exact h.counted_of_up p' ((hupne p' hp).symm.trans hup') c' hc'
  · intro p'
    rw [show (w.send c p m).replies p' = w.replies p' from rfl, h.replies_eq p']
    exact List.countP_congr fun c' hc' => by rw [counted_send hc hup hc']
  · intro a b hb ha
    rw [hnet a b, h.off_tree a b hb ha]
    rintro ⟨rfl, rfl⟩
    exact ha hc
  · have hne : T.root ≠ c := by
      rintro rfl
      have := T.parent_of_mem hc
      rw [T.parent_root] at this
      cases this
    rw [hupne T.root hne]
    exact h.root_up

omit h in
/-- The edges a release touches, from the state `w` in which the answer has arrived. -/
theorem Inv.of_release (hedge : ∀ p c, c ∈ T.children p → c ≠ x → p ≠ x → Phase w p c)
    (hbelow : ∀ c ∈ T.children x, w.counted x c = true ∧ w.net x c = [])
    (habove : ∀ p, x ∈ T.children p →
      w.done p = w.done x + 1 ∧ w.net x p = [] ∧ w.net p x = [])
    (hcnt : ∀ p, w.up p = true → p ≠ x → ∀ c ∈ T.children p, w.counted p c = true)
    (hrep : ∀ p, p ≠ x → w.replies p = (T.children p).countP (w.counted p))
    (hoff : ∀ a b, b ∉ T.children a → a ∉ T.children b → w.net a b = [])
    (hroot : x ≠ T.root → w.up T.root = false) (m : M) :
    Inv T (w.release x (T.children x) m) := by
  have hdne : ∀ y, y ≠ x → (w.release x (T.children x) m).done y = w.done y :=
    fun y hy => Function.update_of_ne hy _ _
  have hdx : (w.release x (T.children x) m).done x = w.done x + 1 := Function.update_self ..
  have hune : ∀ y, y ≠ x → (w.release x (T.children x) m).up y = w.up y :=
    fun y hy => Function.update_of_ne hy _ _
  have hux : (w.release x (T.children x) m).up x = false := Function.update_self ..
  have hnet : ∀ a b, ¬(a = x ∧ b ∈ T.children x) →
      (w.release x (T.children x) m).net a b = w.net a b := fun a b => Chan.bcast_ne _ _
  constructor
  · intro p c hc
    by_cases hp : p = x
    · subst hp
      obtain ⟨hcount, hd⟩ := hbelow c hc
      obtain ⟨h₁, h₂, h₃⟩ := counted_iff.mp hcount
      have hne : c ≠ p := (T.ne_of_mem hc).symm
      refine .answered m ?_ ?_ ?_ ?_
      · rw [hdx, hdne c hne, h₂]
      · rw [hune c hne, h₁]
      · rw [hnet c p fun he => hne he.1, h₃]
      · have : (w.release p (T.children p) m).net p c = w.net p c ++ [m] := Chan.bcast_mem _ _ hc
        rw [this, hd, List.nil_append]
    · by_cases hcx : c = x
      · subst hcx
        obtain ⟨hd, h₁, h₂⟩ := habove p hc
        refine .quiet ?_ hux ?_ ?_
        · rw [hdx, hdne p hp, hd]
        · rw [hnet c p fun he => T.not_mem_children_symm hc he.2, h₁]
        · rw [hnet p c fun he => hp he.1, h₂]
      · exact (hedge p c hc hcx hp).congr (hdne c hcx) (hdne p hp) (hune c hcx)
          (hnet c p fun he => hcx he.1) (hnet p c fun he => hp he.1)
  · intro p hup c hc
    by_cases hp : p = x
    · subst hp
      rw [hux] at hup
      cases hup
    · rw [counted_release_ne (fun hx => (habove p hx).1) hc hp]
      exact hcnt p ((hune p hp).symm.trans hup) hp c hc
  · intro p
    by_cases hp : p = x
    · subst hp
      have hz : (w.release p (T.children p) m).replies p = 0 := Function.update_self ..
      rw [hz, eq_comm, List.countP_eq_zero]
      intro c hc hcount
      have hd := (counted_iff.mp (hbelow c hc).1).2.1
      rw [counted_release_self hc hd] at hcount
      cases hcount
    · have : (w.release x (T.children x) m).replies p = w.replies p := Function.update_of_ne hp _ _
      rw [this, hrep p hp]
      exact List.countP_congr fun c hc => by
        rw [counted_release_ne (fun hx => (habove p hx).1) hc hp]
  · intro a b hb ha
    rw [hnet a b fun he => hb (he.1 ▸ he.2), hoff a b hb ha]
  · by_cases hx : x = T.root
    · rw [← hx, hux]
    · rw [hune T.root (Ne.symm hx)]
      exact hroot hx

/-- The root releases once it has heard from all its children. -/
theorem Inv.release_root (hall : ∀ c ∈ T.children T.root, w.counted T.root c = true) (m : M) :
    Inv T (w.release T.root (T.children T.root) m) := by
  refine Inv.of_release (fun p c hc _ _ => h.edge p c hc) ?_ ?_ (fun p hp _ => h.counted_of_up p hp)
    (fun p _ => h.replies_eq p) h.off_tree (fun hne => absurd rfl hne) m
  · exact fun c hc => ⟨hall c hc, (h.quiet_of_counted hc (hall c hc)).2.2.2⟩
  · intro p hp
    have := T.parent_of_mem hp
    rw [T.parent_root] at this
    cases this

/-- A node that receives the answer releases. -/
theorem Inv.answer (hc : x ∈ T.children p) (hm : w.net p x ≠ []) (m : M) :
    Inv T (w.answer p x (T.children x) m) := by
  obtain ⟨m', hd, hdone, hup, hu⟩ := h.answered_of_answer hc hm
  have hnet : ∀ a b, ¬(a = p ∧ b = x) → w.net.pop p x a b = w.net a b :=
    fun a b => Chan.pop_ne _
  have hxp : x ≠ p := (T.ne_of_mem hc).symm
  rw [Wave.answer]
  refine Inv.of_release (w := { w with net := w.net.pop p x }) ?_ ?_ ?_ ?_ ?_ ?_
    (fun _ => h.root_up) m
  · intro q c hq hcx hqx
    refine (h.edge q c hq).congr rfl rfl rfl (hnet c q fun he => hqx he.2)
      (hnet q c fun he => hcx he.2)
  · intro c hcx
    have hcount := h.counted_of_up x hup c hcx
    refine ⟨(counted_pop hc hcx).trans hcount, ?_⟩
    rw [show Wave.net { w with net := w.net.pop p x } x c = w.net x c from
      hnet x c fun he => hxp he.1]
    exact (h.quiet_of_counted hcx hcount).2.2.2
  · intro q hq
    obtain rfl := T.parent_unique hc hq
    refine ⟨hdone, ?_, ?_⟩
    · exact (hnet x p fun he => hxp he.1).trans hu
    · simp [hd]
  · intro q hq _ c hqc
    rw [counted_pop hc hqc]
    exact h.counted_of_up q hq c hqc
  · intro q _
    rw [show Wave.replies { w with net := w.net.pop p x } q = w.replies q from rfl, h.replies_eq q]
    exact List.countP_congr fun c hq => by rw [counted_pop hc hq]
  · intro a b hb ha
    by_cases hab : a = p ∧ b = x
    · obtain ⟨rfl, rfl⟩ := hab
      exact absurd hc hb
    · exact (hnet a b hab).trans (h.off_tree a b hb ha)

end Moves

/-! ## An absorbing value on its way to the root -/

/-- `x` has reported in the round the root is in. -/
def Contributed (T : ParentTree V) (w : Wave V M) (x : V) : Prop :=
  w.up x = true ∧ w.done x = w.done T.root

/-- An absorbing value is on its way to the root: a node that has not reported in the
round of the root holds it (`acc`), or a report in flight carries it (`bad`). -/
def Marked (T : ParentTree V) (w : Wave V M) (acc : V → Prop) (bad : M → Prop) : Prop :=
  (∃ x, T.IsNode x ∧ ¬Contributed T w x ∧ acc x) ∨
    ∃ p c m, c ∈ T.children p ∧ m ∈ w.net c p ∧ bad m

section Mark

variable {acc acc' : V → Prop} {bad : M → Prop}

theorem Marked.mono (h : Marked T w acc bad) (hacc : ∀ x, T.IsNode x → acc x → acc' x) :
    Marked T w acc' bad := by
  rcases h with ⟨x, hx, hn, ha⟩ | hr
  · exact .inl ⟨x, hx, hn, hacc x hx ha⟩
  · exact .inr hr

/-- At the root's release the mark is at the root itself. -/
theorem Marked.root_of_release (h : Inv T w) (hm : Marked T w acc bad)
    (hall : ∀ c ∈ T.children T.root, w.counted T.root c = true) : acc T.root := by
  rcases hm with ⟨x, hx, hn, ha⟩ | ⟨p, c, m, hc, hmem, _⟩
  · by_cases hxr : x = T.root
    · exact hxr ▸ ha
    · exact absurd (h.all_up hall x hx hxr) hn
  · have hp : w.up p = false := h.up_false_of_report hc (List.ne_nil_of_mem hmem)
    by_cases hpr : p = T.root
    · subst hpr
      have hnil := (h.quiet_of_counted hc (hall c hc)).2.2.1
      rw [hnil] at hmem
      cases hmem
    · have hpn := T.node_parent c p (T.node_of_mem hc) (T.parent_of_mem hc)
      have := (h.all_up hall p hpn hpr).1
      rw [hp] at this
      cases this

variable [DecidableEq V]

/-- After the root's release no node has reported in the new round. -/
theorem not_contributed_release (h : Inv T w) (hx : T.IsNode x) (m : M) :
    ¬Contributed T (w.release T.root (T.children T.root) m) x := by
  rintro ⟨hup, hd⟩
  by_cases hxr : x = T.root
  · subst hxr
    rw [show (w.release T.root (T.children T.root) m).up T.root = false from
      Function.update_self ..] at hup
    cases hup
  · rw [show (w.release T.root (T.children T.root) m).done x = w.done x from
      Function.update_of_ne hxr _ _,
      show (w.release T.root (T.children T.root) m).done T.root = w.done T.root + 1 from
      Function.update_self ..] at hd
    rcases h.done_cases x hx with h' | ⟨h', _⟩ <;> omega

theorem Marked.recv (h : Inv T w) (hc : c ∈ T.children p) (hu : w.net c p = [m])
    (hm : Marked T w acc bad) (hacc : ∀ x, acc x → acc' x) (hbad : bad m → acc' p) :
    Marked T (w.recv p c) acc' bad := by
  rcases hm with ⟨x, hx, hn, ha⟩ | ⟨p', c', m', hc', hmem, hb⟩
  · exact .inl ⟨x, hx, hn, hacc x ha⟩
  · by_cases hcc : c' = c ∧ p' = p
    · obtain ⟨rfl, rfl⟩ := hcc
      rw [hu, List.mem_singleton] at hmem
      subst hmem
      have hup := h.up_false_of_report hc (by rw [hu]; simp)
      refine .inl ⟨p', T.node_parent c' p' (T.node_of_mem hc) (T.parent_of_mem hc), ?_, hbad hb⟩
      rintro ⟨hup', _⟩
      rw [show (w.recv p' c').up p' = w.up p' from rfl, hup] at hup'
      cases hup'
    · refine .inr ⟨p', c', m', hc', ?_, hb⟩
      rwa [show (w.recv p c).net c' p' = w.net c' p' from Chan.pop_ne _ hcc]

theorem Marked.send (hc : c ∈ T.children p) (hm : Marked T w acc bad)
    (hacc : ∀ x, x ≠ c → acc x → acc' x) (hbad : acc c → bad m) :
    Marked T (w.send c p m) acc' bad := by
  rcases hm with ⟨x, hx, hn, ha⟩ | ⟨p', c', m', hc', hmem, hb⟩
  · by_cases hxc : x = c
    · subst hxc
      exact .inr ⟨p, x, m, hc, (Chan.mem_push w.net m).mpr (.inr ⟨rfl, rfl, rfl⟩), hbad ha⟩
    · refine .inl ⟨x, hx, ?_, hacc x hxc ha⟩
      rintro ⟨hup, hd⟩
      exact hn ⟨(Function.update_of_ne hxc _ _ : (w.send c p m).up x = w.up x).symm.trans hup, hd⟩
  · exact .inr ⟨p', c', m', hc', (Chan.mem_push w.net m).mpr (.inl hmem), hb⟩

omit [DecidableEq V] in
theorem root_ne_of_mem (hc : x ∈ T.children p) : T.root ≠ x := by
  rintro rfl
  have := T.parent_of_mem hc
  rw [T.parent_root] at this
  cases this

/-- A node that receives the answer of a round starts to report anew. -/
theorem contributed_of_answer (hc : x ∈ T.children p)
    (h : Contributed T (w.answer p x (T.children x) m) a) : Contributed T w a := by
  obtain ⟨hup, hd⟩ := h
  have hroot : (w.answer p x (T.children x) m).done T.root = w.done T.root :=
    Function.update_of_ne (root_ne_of_mem hc) _ _
  by_cases hax : a = x
  · subst hax
    rw [show (w.answer p a (T.children a) m).up a = false from Function.update_self ..] at hup
    cases hup
  · rw [hroot, show (w.answer p x (T.children x) m).done a = w.done a from
      Function.update_of_ne hax _ _] at hd
    exact ⟨by rwa [show (w.answer p x (T.children x) m).up a = w.up a from
      Function.update_of_ne hax _ _] at hup, hd⟩

theorem Marked.answer (hc : x ∈ T.children p) (hm : Marked T w acc bad) :
    Marked T (w.answer p x (T.children x) m) acc bad := by
  rcases hm with ⟨y, hy, hn, ha⟩ | ⟨p', c', m', hc', hmem, hb⟩
  · exact .inl ⟨y, hy, fun h => hn (contributed_of_answer hc h), ha⟩
  · refine .inr ⟨p', c', m', hc', ?_, hb⟩
    refine (Chan.mem_bcast _ _).mpr (.inl ?_)
    by_cases hcc : c' = p ∧ p' = x
    · obtain ⟨rfl, rfl⟩ := hcc
      exact absurd hc' (T.not_mem_children_symm hc)
    · change m' ∈ w.net.pop p x c' p'
      rwa [Chan.pop_ne w.net hcc]

end Mark

end Wave
