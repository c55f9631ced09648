import Libcircle.Lib.Runs
import Mathlib.Algebra.Order.Group.Multiset

/-!
# A pool of items

A pool holds a multiset of items.  Items are put into it and taken out, to be
processed or to be saved.  A history is a list of such moves, and a path of
`Pool.Step` is a history in which nothing is taken out that is not there.
-/

namespace Pool

variable {α : Type*}

/-- What is done to the pool. -/
inductive Move (α : Type*) where
  | put (x : α)
  | take (x : α)
  | save (x : α)
deriving DecidableEq, Repr

namespace Move

/-- The item that is put into the pool. -/
def put? : Move α → Option α
  | .put x => some x
  | _ => none

/-- The item that is taken. -/
def taken? : Move α → Option α
  | .take x => some x
  | _ => none

/-- The item that is saved. -/
def saved? : Move α → Option α
  | .save x => some x
  | _ => none

end Move

/-- One move. -/
inductive Step : Multiset α → Move α → Multiset α → Prop where
  | put (m : Multiset α) (x : α) : Step m (.put x) (x ::ₘ m)
  | take (m : Multiset α) (x : α) : Step (x ::ₘ m) (.take x) m
  | save (m : Multiset α) (x : α) : Step (x ::ₘ m) (.save x) m

theorem path_put (m : Multiset α) (x : α) : LabelledPath Step m [.put x] (x ::ₘ m) :=
  .cons (.put m x) (.nil _)

theorem path_take (m : Multiset α) (x : α) : LabelledPath Step (x ::ₘ m) [.take x] m :=
  .cons (.take m x) (.nil _)

/-- The items of a list are saved. -/
theorem path_save (m : Multiset α) (l : List α) :
    LabelledPath Step (m + (l : Multiset α)) (l.map .save) m := by
  induction l with
  | nil =>
      rw [Multiset.coe_nil, add_zero]
      exact .nil m
  | cons x l ih =>
      rw [← Multiset.cons_coe, Multiset.add_cons]
      exact .cons (.save _ x) ih

end Pool
