import Libcircle.Lib.Wave
import Mathlib.Tactic.Linarith

/-!
# The communication tree

`treeInit` is `CIRCLE_tree_init` in exact integers: the parent and the children
of one rank in the tree of width `k` over the ranks `0 .. ranks - 1`.  Each rank
computes its parent by a truncating division and its children as a clipped
interval.  `mem_childRanks` says the two formulas describe one tree, and
`rankTree` packages it for the waves of `Libcircle.Lib.Wave`.
-/

namespace Libcircle

/-- A rank of the communicator. -/
abbrev Rank := Nat

/-- `CIRCLE_tree_state_st`: the place of one rank in the tree. -/
structure TreeState where
  /-- `parent_rank`, with `none` for `MPI_PROC_NULL`. -/
  parentRank : Option Rank
  /-- The first `children` entries of `child_ranks`. -/
  childRanks : List Rank
deriving DecidableEq, Repr

/-- The field `children`. -/
def TreeState.children (t : TreeState) : Nat := t.childRanks.length

/-- `CIRCLE_tree_init`, in exact integers.  The source computes with `int`, and makes this tree
where `rank * k + k` fits in one (`treeInitFields_eq`). -/
def treeInit (rank ranks k : Nat) : TreeState :=
  let left := rank * k + 1
  let right := rank * k + k
  -- adjust right child in case there is no full set of `k`
  let right := if ranks ≤ right then ranks - 1 else right
  { parentRank := if 0 < rank then some ((rank - 1) / k) else none
    childRanks :=
      if left < ranks then (List.range (right - left + 1)).map (left + ·) else [] }

/-- A message of the parent is in flight. -/
def TreeState.parentSent {M : Type*} (t : TreeState) (net : Chan Rank M) (r : Rank) : Bool :=
  match t.parentRank with
  | some p => !(net p r).isEmpty
  | none => false

theorem TreeState.parentSent_iff {M : Type*} {t : TreeState} {net : Chan Rank M} {r : Rank} :
    t.parentSent net r = true ↔ ∃ p, t.parentRank = some p ∧ net p r ≠ [] := by
  unfold parentSent
  cases t.parentRank <;> simp

variable {rank ranks k p c : Nat}

@[simp] theorem treeInit_zero_parentRank : (treeInit 0 ranks k).parentRank = none := rfl

theorem treeInit_parentRank (h : 0 < rank) :
    (treeInit rank ranks k).parentRank = some ((rank - 1) / k) := if_pos h

theorem treeInit_parentRank_eq_some (h : (treeInit c ranks k).parentRank = some p) :
    0 < c ∧ p = (c - 1) / k := by
  by_cases hc : 0 < c
  · rw [treeInit_parentRank hc] at h
    exact ⟨hc, (Option.some.inj h).symm⟩
  · simp [treeInit, hc] at h

theorem treeInit_parentRank_eq_none :
    (treeInit rank ranks k).parentRank = none ↔ rank = 0 := by
  by_cases hr : 0 < rank
  · rw [treeInit_parentRank hr]
    simp
    omega
  · simp [treeInit, hr]
    omega

/-- The interval of children, as bounds. -/
theorem mem_childRanks_iff_bounds (hk : 0 < k) :
    c ∈ (treeInit p ranks k).childRanks ↔ p * k + 1 ≤ c ∧ c ≤ p * k + k ∧ c < ranks := by
  simp only [treeInit]
  by_cases hl : p * k + 1 < ranks
  · rw [if_pos hl, List.mem_map]
    by_cases hr : ranks ≤ p * k + k
    · rw [if_pos hr]
      constructor
      · rintro ⟨i, hi, rfl⟩
        rw [List.mem_range] at hi
        omega
      · intro h
        exact ⟨c - (p * k + 1), List.mem_range.mpr (by omega), by omega⟩
    · rw [if_neg hr]
      constructor
      · rintro ⟨i, hi, rfl⟩
        rw [List.mem_range] at hi
        omega
      · intro h
        exact ⟨c - (p * k + 1), List.mem_range.mpr (by omega), by omega⟩
  · rw [if_neg hl]
    simp only [List.not_mem_nil, false_iff]
    omega

/-- A positive rank is in the interval of the children of `p` exactly when `p` is its parent. -/
theorem div_eq_iff_bounds (hk : 0 < k) (hc : 0 < c) :
    (c - 1) / k = p ↔ p * k + 1 ≤ c ∧ c ≤ p * k + k := by
  rw [Nat.div_eq_iff hk]
  constructor
  · rintro ⟨h₁, h₂⟩
    omega
  · rintro ⟨h₁, h₂⟩
    omega

/-- The child lists and the parents describe one tree. -/
theorem mem_childRanks (hk : 0 < k) :
    c ∈ (treeInit p ranks k).childRanks ↔
      c < ranks ∧ (treeInit c ranks k).parentRank = some p := by
  rw [mem_childRanks_iff_bounds hk]
  constructor
  · rintro ⟨h₁, h₂, h₃⟩
    have hc : 0 < c := by omega
    rw [treeInit_parentRank hc]
    exact ⟨h₃, congrArg some ((div_eq_iff_bounds hk hc).mpr ⟨h₁, h₂⟩)⟩
  · rintro ⟨h₁, h₂⟩
    obtain ⟨hc, hp⟩ := treeInit_parentRank_eq_some h₂
    obtain ⟨h₃, h₄⟩ := (div_eq_iff_bounds hk hc).mp hp.symm
    exact ⟨h₃, h₄, h₁⟩

theorem childRanks_nodup : (treeInit p ranks k).childRanks.Nodup := by
  simp only [treeInit]
  by_cases hl : p * k + 1 < ranks
  · rw [if_pos hl]
    exact List.nodup_range.map fun a b h => by simpa using h
  · rw [if_neg hl]
    exact List.nodup_nil

theorem parent_lt (h : (treeInit c ranks k).parentRank = some p) : p < c := by
  obtain ⟨hc, rfl⟩ := treeInit_parentRank_eq_some h
  have := Nat.div_le_self (c - 1) k
  omega

/-- The tree of width `k` over the ranks below `ranks`. -/
def rankTree (ranks k : Nat) (hr : 0 < ranks) (hk : 0 < k) : ParentTree Rank where
  IsNode r := r < ranks
  parent r := (treeInit r ranks k).parentRank
  children r := (treeInit r ranks k).childRanks
  root := 0
  depth r := r
  root_node := hr
  parent_root := rfl
  eq_root _ _ h := treeInit_parentRank_eq_none.mp h
  mem_children _ _ := mem_childRanks hk
  children_nodup _ := childRanks_nodup
  node_parent _ _ h hp := Nat.lt_trans (parent_lt hp) h
  depth_lt _ _ _ hp := parent_lt hp

theorem children_le (hk : 0 < k) : (treeInit p ranks k).children ≤ k := by
  simp only [TreeState.children, treeInit]
  split
  · rw [List.length_map, List.length_range]
    split <;> omega
  · exact Nat.zero_le _

/-- The child lists that the ranks compute, each from its own rank, and the parents that they
compute are those of one tree. -/
theorem tree_consistent {n : Nat} (hn : 0 < n) (hk : 0 < k) :
    (∀ p c, p < n → c < n →
        (c ∈ (treeInit p n k).childRanks ↔ (treeInit c n k).parentRank = some p) ∧
        (c ∈ (treeInit p n k).childRanks → (treeInit p n k).childRanks.count c = 1)) ∧
      (∀ r, r < n → ((treeInit r n k).parentRank = none ↔ r = 0)) ∧
      (∀ r p, r < n → (treeInit r n k).parentRank = some p → p < r) ∧
      (∀ r, r < n →
        Relation.ReflTransGen (fun c p => (treeInit c n k).parentRank = some p) r 0) ∧
      (∀ p, p < n → (treeInit p n k).children ≤ k ∧ ∀ c ∈ (treeInit p n k).childRanks, c < n) ∧
      ∑ p ∈ Finset.range n, (treeInit p n k).children = n - 1 := by
  refine ⟨fun p c _ hc => ⟨?_, List.count_eq_one_of_mem childRanks_nodup⟩,
    fun r _ => treeInit_parentRank_eq_none, fun r p _ => parent_lt,
    fun r hr => (rankTree n k hn hk).reaches_root hr,
    fun p _ => ⟨children_le hk, fun c hc => ((mem_childRanks hk).mp hc).1⟩, ?_⟩
  · rw [mem_childRanks hk, and_iff_right hc]
  · have hsum := (rankTree n k hn hk).sum_length_children fun r => Finset.mem_range
    rw [Finset.card_range] at hsum
    exact hsum

/-- Seven ranks in a binary tree. -/
theorem tree_consistent_seven :
    ∑ p ∈ Finset.range 7, (treeInit p 7 2).children = 6 :=
  (tree_consistent (by decide) (by decide)).2.2.2.2.2

/-- Every rank is above finitely many. -/
theorem rankTree_wf (hr : 0 < ranks) (hk : 0 < k) :
    WellFounded fun c p => c ∈ (rankTree ranks k hr hk).children p := by
  refine Subrelation.wf (fun {c p} hc => ?_) (measure fun r => ranks - r).wf
  have hlt : p < c := (rankTree ranks k hr hk).depth_of_mem hc
  have hnode : c < ranks := (rankTree ranks k hr hk).node_of_mem hc
  exact Nat.sub_lt_sub_left (Nat.lt_trans hlt hnode) hlt

/-- The child lists of seven ranks in a binary tree. -/
example : (List.range 7).map (fun r => (treeInit r 7 2).childRanks)
    = [[1, 2], [3, 4], [5, 6], [], [], [], []] := by decide

end Libcircle
