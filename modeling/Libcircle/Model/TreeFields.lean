import Libcircle.Model.Queue
import Libcircle.Model.Tree

/-!
# The communication tree, in `int`

`CIRCLE_tree_init` with the arithmetic and the array of the source.  A value that
does not fit an `int` and an access outside `child_ranks` have no result.
-/

namespace Libcircle

/-- `x` as an `int`. -/
def int32 (x : Int) : Option Int :=
  if -(int32Max : Int) - 1 ≤ x ∧ x ≤ int32Max then some x else none

/-- The fields of `CIRCLE_tree_state_st`, with `none` for `MPI_PROC_NULL`. -/
structure TreeFields where
  /-- `rank`. -/
  rank : Int
  /-- `ranks`. -/
  ranks : Int
  /-- `parent_rank`. -/
  parentRank : Option Int
  /-- `children`. -/
  children : Int
  /-- `child_ranks`. -/
  childRanks : Block (Option Int)

/-- The loops of `CIRCLE_tree_init`: write `value i` at the `n` indices from `i` on. -/
def fillRanks (value : Nat → Option (Option Int)) :
    Nat → Nat → Block (Option Int) → Option (Block (Option Int))
  | 0, _, b => some b
  | n + 1, i, b => do
      let b ← b.write i [← value i]
      fillRanks value n (i + 1) b

/-- `parent_rank` in `CIRCLE_tree_init`. -/
def parentRank (rank k : Int) : Option (Option Int) :=
  if 0 < rank then if k = 0 then none else some (some ((rank - 1).tdiv k)) else some none

/-- `left` in `CIRCLE_tree_init`. -/
def leftChild (rank k : Int) : Option Int := do int32 ((← int32 (rank * k)) + 1)

/-- `right` in `CIRCLE_tree_init`, before it is adjusted. -/
def rightChild (rank k : Int) : Option Int := do int32 ((← int32 (rank * k)) + k)

/-- `CIRCLE_tree_init`, with what the fresh block holds. -/
def treeInitFields (rank ranks k : Int) (fresh : Nat → Option Int) : Option TreeFields := do
  let maxChildren := k.toNat
  let childRanks ← fillRanks (fun _ => some none) maxChildren 0 ⟨maxChildren, fresh⟩
  let parent ← parentRank rank k
  let left ← leftChild rank k
  let right ← rightChild rank k
  if left < ranks then
    -- adjust right child in case there is no full set of `k`
    let right := if ranks ≤ right then ranks - 1 else right
    let children ← int32 ((← int32 (right - left)) + 1)
    let childRanks ← fillRanks (fun i => (int32 (left + i)).map some) children.toNat 0 childRanks
    return ⟨rank, ranks, parent, children, childRanks⟩
  else return ⟨rank, ranks, parent, 0, childRanks⟩

/-! ## The loops and the bounds -/

theorem int32_natCast {n : Nat} (h : n ≤ int32Max) : int32 n = some (n : Int) := by
  have hneg : -(int32Max : Int) - 1 ≤ 0 := by decide
  exact if_pos ⟨hneg.trans (Int.natCast_nonneg n), Int.ofNat_le.mpr h⟩

theorem int32_le {x y : Int} (h : int32 x = some y) : y = x ∧ x ≤ int32Max := by
  unfold int32 at h
  split at h
  next hx => exact ⟨(Option.some.inj h).symm, hx.2⟩
  next => cases h

/-- A loop that stays inside the block. -/
theorem fillRanks_eq {f : Nat → Option (Option Int)} {v : Nat → Option Int} {n i : Nat}
    {b : Block (Option Int)} (hv : ∀ j, i ≤ j → j < i + n → f j = some (v j))
    (hsize : i + n ≤ b.size) :
    ∃ b', fillRanks f n i b = some b' ∧ b'.size = b.size ∧
      ∀ j, b'.cell j = if i ≤ j ∧ j < i + n then v j else b.cell j := by
  induction n generalizing i b with
  | zero => exact ⟨b, rfl, rfl, fun j => (if_neg (by omega)).symm⟩
  | succ n ih =>
      have hval := hv i (Nat.le_refl i) (by omega)
      have hwrite : i + [v i].length ≤ b.size := by
        change i + 1 ≤ b.size
        omega
      obtain ⟨b', hb', hsize', hcell⟩ :=
        ih (i := i + 1) (b := { b with cell := overwrite b.cell i [v i] })
          (fun j hj hlt => hv j (by omega) (by omega)) (by change i + 1 + n ≤ b.size; omega)
      refine ⟨b', ?_, hsize', fun j => ?_⟩
      · simp only [fillRanks, hval, Option.bind_eq_bind, Option.bind_some,
          Block.write_of_le hwrite]
        exact hb'
      · rw [hcell]
        change (if i + 1 ≤ j ∧ j < i + 1 + n then v j else overwrite b.cell i [v i] j) = _
        rw [overwrite_singleton]
        rcases Nat.lt_trichotomy j i with hj | rfl | hj
        · rw [if_neg (by omega), if_neg (by omega), Function.update_of_ne (by omega)]
        · rw [if_neg (by omega), if_pos (by omega), Function.update_self]
        · rw [Function.update_of_ne (by omega)]
          congr 1
          exact propext ⟨fun h => ⟨by omega, by omega⟩, fun h => ⟨by omega, by omega⟩⟩

section Bounds

variable {rank ranks k : Nat}

theorem rightChild_le {right : Int} (h : rightChild rank k = some right) :
    rank * k + k ≤ int32Max := by
  simp only [rightChild, Option.bind_eq_bind, Option.bind_eq_some_iff] at h
  obtain ⟨x, hx, hright⟩ := h
  obtain ⟨rfl, _⟩ := int32_le hx
  obtain ⟨_, hle⟩ := int32_le hright
  exact_mod_cast hle

theorem int32_mul (h : rank * k ≤ int32Max) :
    int32 ((rank : Int) * k) = some ((rank * k : Nat) : Int) := by
  rw [← Nat.cast_mul, int32_natCast h]

theorem rightChild_eq (h : rank * k + k ≤ int32Max) :
    rightChild rank k = some ((rank * k + k : Nat) : Int) := by
  have hadd : int32 (((rank * k : Nat) : Int) + k) = some ((rank * k + k : Nat) : Int) := by
    rw [← Nat.cast_add, int32_natCast h]
  unfold rightChild
  rw [int32_mul ((Nat.le_add_right _ _).trans h), Option.bind_eq_bind, Option.bind_some, hadd]

theorem leftChild_eq (hk : 0 < k) (h : rank * k + k ≤ int32Max) :
    leftChild rank k = some ((rank * k + 1 : Nat) : Int) := by
  have hle : rank * k + 1 ≤ int32Max := (Nat.add_le_add_left hk _).trans h
  have hadd : int32 (((rank * k : Nat) : Int) + 1) = some ((rank * k + 1 : Nat) : Int) := by
    rw [← Nat.cast_succ, int32_natCast hle]
  unfold leftChild
  rw [int32_mul ((Nat.le_add_right _ _).trans h), Option.bind_eq_bind, Option.bind_some, hadd]

theorem parentRank_eq (ranks : Nat) (hk : 0 < k) :
    parentRank rank k = some ((treeInit rank ranks k).parentRank.map Nat.cast) := by
  unfold parentRank
  rcases Nat.eq_zero_or_pos rank with rfl | hpos
  · rfl
  · have hk' : (k : Int) ≠ 0 := by omega
    have hsub : (rank : Int) - 1 = ((rank - 1 : Nat) : Int) := by omega
    rw [treeInit_parentRank hpos, if_pos (by omega), if_neg hk', Option.map_some, hsub,
      ← Int.ofNat_tdiv]

end Bounds

/-! ## What the function computes -/

section Result

variable {rank ranks k : Nat} {fresh : Nat → Option Int}

/-- The part of `CIRCLE_tree_init` after the test for children. -/
theorem fillChildren (hk : 0 < k) (hn : ranks ≤ int32Max) {b : Block (Option Int)}
    (hb : b.size = k) (hleft : rank * k + 1 < ranks) :
    ∃ n b', n ≤ k ∧ n = (treeInit rank ranks k).children ∧
      int32 ((if (ranks : Int) ≤ (rank * k + k : Nat) then (ranks : Int) - 1
        else (rank * k + k : Nat)) - (rank * k + 1 : Nat)) = some ((n - 1 : Nat) : Int) ∧
      int32 (((n - 1 : Nat) : Int) + 1) = some (n : Int) ∧
      fillRanks (fun i => (int32 (((rank * k + 1 : Nat) : Int) + i)).map some) n 0 b = some b' ∧
      ∀ i, i < n →
        b'.cell i = some ((rank * k + 1 + i : Nat) : Int) ∧ rank * k + 1 + i < ranks := by
  have hchildren : (treeInit rank ranks k).children =
      (if ranks ≤ rank * k + k then ranks - 1 else rank * k + k) - (rank * k + 1) + 1 := by
    simp only [TreeState.children, treeInit]
    rw [if_pos hleft, List.length_map, List.length_range]
  obtain ⟨n, hn'⟩ : ∃ n, n = (treeInit rank ranks k).children := ⟨_, rfl⟩
  have hnk : n ≤ k := hn' ▸ children_le hk
  have hpos : 0 < n := by omega
  have hlast : rank * k + n < ranks := by
    rw [hn', hchildren]
    split <;> omega
  obtain ⟨b', hb', _, hcell⟩ := fillRanks_eq (i := 0) (n := n) (b := b)
    (f := fun i => (int32 (((rank * k + 1 : Nat) : Int) + i)).map some)
    (v := fun i => some ((rank * k + 1 + i : Nat) : Int)) (fun i _ hi => by
      have hle : rank * k + 1 + i ≤ int32Max := by omega
      rw [← Nat.cast_add, int32_natCast hle, Option.map_some]) (by omega)
  refine ⟨n, b', hnk, hn', ?_, ?_, hb', fun i hi => ?_⟩
  · have hdiff : (if (ranks : Int) ≤ (rank * k + k : Nat) then (ranks : Int) - 1
        else (rank * k + k : Nat)) - (rank * k + 1 : Nat) = ((n - 1 : Nat) : Int) := by
      rw [hn', hchildren]
      split <;> split <;> omega
    rw [hdiff]
    exact int32_natCast (by omega)
  · rw [← Nat.cast_succ, Nat.succ_eq_add_one, Nat.sub_add_cancel hpos]
    exact int32_natCast (by omega)
  · rw [hcell, if_pos ⟨Nat.zero_le _, by omega⟩]
    exact ⟨rfl, by omega⟩

/-- Where no value overflows, the fields are those of the tree in exact integers. -/
theorem treeInitFields_eq (hk : 0 < k) (hn : ranks ≤ int32Max) (h : rank * k + k ≤ int32Max) :
    ∃ t, treeInitFields rank ranks k fresh = some t ∧
      t.parentRank = (treeInit rank ranks k).parentRank.map Nat.cast ∧
      t.children = (treeInit rank ranks k).children ∧ t.children ≤ k ∧
      ∀ i : Nat, i < t.children →
        t.childRanks.cell i = some ((rank * k + 1 + i : Nat) : Int) ∧ rank * k + 1 + i < ranks := by
  obtain ⟨b, hb, hsize, _⟩ := fillRanks_eq (i := 0) (n := k) (b := ⟨k, fresh⟩)
    (f := fun _ => some none) (v := fun _ => none) (fun _ _ _ => rfl) (by simp)
  have hb : fillRanks (fun _ => some none) (k : Int).toNat 0 ⟨(k : Int).toNat, fresh⟩ = some b := hb
  by_cases hleft : rank * k + 1 < ranks
  · obtain ⟨n, b', hnk, hn', hsub, hadd, hb', hcell⟩ := fillChildren hk hn hsize hleft
    refine ⟨⟨rank, ranks, _, (n : Int), b'⟩, ?_, rfl, congrArg Nat.cast hn',
      Int.ofNat_le.mpr hnk, fun i hi => hcell i (Int.ofNat_lt.mp hi)⟩
    simp only [treeInitFields, Option.bind_eq_bind, Option.bind_eq_some_iff]
    refine ⟨b, hb, _, parentRank_eq ranks hk, _, leftChild_eq hk h, _, rightChild_eq h, ?_⟩
    rw [if_pos (by omega)]
    simp only [Option.bind_eq_some_iff]
    exact ⟨_, hsub, _, hadd, b', hb', rfl⟩
  · have hzero : (treeInit rank ranks k).children = 0 := by
      simp only [TreeState.children, treeInit]
      rw [if_neg hleft, List.length_nil]
    refine ⟨⟨rank, ranks, _, 0, b⟩, ?_, rfl, by rw [hzero]; rfl, Int.natCast_nonneg k,
      fun i hi => absurd (Int.ofNat_lt.mp hi) (Nat.not_lt_zero i)⟩
    simp only [treeInitFields, Option.bind_eq_bind, Option.bind_eq_some_iff]
    refine ⟨b, hb, _, parentRank_eq ranks hk, _, leftChild_eq hk h, _, rightChild_eq h, ?_⟩
    rw [if_neg (by omega)]
    rfl

/-- The tree fields of `rank` are built without overflow, inside the array, and name ranks. -/
def TreeInitFits (rank ranks k : Int) (fresh : Nat → Option Int) : Prop :=
  ∃ t, treeInitFields rank ranks k fresh = some t ∧ 0 ≤ t.children ∧ t.children ≤ k ∧
    ∀ i : Nat, i < t.children → ∃ c, t.childRanks.cell i = some c ∧ 0 ≤ c ∧ c < ranks

theorem le_of_treeInitFields {t : TreeFields}
    (h : treeInitFields rank ranks k fresh = some t) : rank * k + k ≤ int32Max := by
  simp only [treeInitFields, Option.bind_eq_bind, Option.bind_eq_some_iff] at h
  obtain ⟨_, _, _, _, _, _, right, hright, _⟩ := h
  exact rightChild_le hright

/-- `CIRCLE_tree_init` stays in the range of `int` exactly if `rank * k + k` does. -/
theorem tree_init_fits_iff (hk : 0 < k) (_ : k ≤ int32Max) (_ : rank < ranks)
    (hn : ranks ≤ int32Max) : TreeInitFits rank ranks k fresh ↔ rank * k + k ≤ int32Max := by
  constructor
  · rintro ⟨t, ht, _⟩
    exact le_of_treeInitFields ht
  · intro h
    obtain ⟨t, ht, _, hchildren, hle, hcell⟩ := treeInitFields_eq hk hn h
    refine ⟨t, ht, by omega, hle, fun i hi => ?_⟩
    obtain ⟨hc, hlt⟩ := hcell i hi
    exact ⟨_, hc, by omega, by omega⟩

theorem tree_init_fits_iff_default :
    TreeInitFits (1 : Nat) (100 : Nat) (64 : Nat) fun _ => none :=
  (tree_init_fits_iff (by decide) (by decide) (by decide) (by decide)).mpr (by decide)

/-- A flat tree over 65536 ranks: the `int` overflows on the upper half of the ranks. -/
theorem tree_init_fits_fails :
    ¬TreeInitFits (32767 : Nat) (65536 : Nat) (65536 : Nat) fun _ => none := by
  rintro ⟨t, ht, _⟩
  exact absurd (le_of_treeInitFields ht) (by decide)

end Result

end Libcircle
