import Libcircle.Model.Tree

/-!
# The cleanup barrier

`CIRCLE_barrier_start` and the three parts of `CIRCLE_barrier_test`: the receipt
of one arrival, the report to the parent, and the release from the parent.
-/

namespace Libcircle

/-- The fields of a rank for the barrier. -/
structure Barrier where
  /-- `barrier_started`. -/
  barrierStarted : Bool := false
  /-- `barrier_up`. -/
  barrierUp : Bool := false
  /-- `barrier_replies`. -/
  barrierReplies : Nat := 0
  /-- The number of barriers completed, a history variable. -/
  completed : Nat := 0
deriving DecidableEq, Repr

/-- The barrier state of all ranks and the tag `CIRCLE_TAG_BARRIER`. -/
structure BarrierNet where
  /-- The state of a rank. -/
  st : Rank → Barrier
  /-- `CIRCLE_TAG_BARRIER`. -/
  net : Chan Rank Unit

namespace BarrierNet

variable (x : BarrierNet) (t : TreeState) (r : Rank)

/-- Replace the state of `r`. -/
def set (y : Barrier) : BarrierNet := { x with st := Function.update x.st r y }

/-- The barrier fields in `CIRCLE_init_local_state`. -/
def init : BarrierNet :=
  x.set r { x.st r with barrierStarted := false, barrierUp := false, barrierReplies := 0 }

/-- `CIRCLE_barrier_start`. -/
def barrierStart : BarrierNet := x.set r { x.st r with barrierStarted := true }

/-- An arrival from `src`. -/
def recvArrival (src : Rank) : BarrierNet where
  st := Function.update x.st r { x.st r with barrierReplies := (x.st r).barrierReplies + 1 }
  net := x.net.pop src r

/-- The barrier completes on `r`: release the children, reset. -/
def complete : BarrierNet where
  st := Function.update x.st r
    { barrierStarted := false, barrierUp := false, barrierReplies := 0,
      completed := (x.st r).completed + 1 }
  net := x.net.bcast r t.childRanks ()

/-- All children have arrived and `r` has not reported. -/
def Ready : Prop := (x.st r).barrierUp = false ∧ (x.st r).barrierReplies = t.children

instance : Decidable (x.Ready t r) := inferInstanceAs (Decidable (_ ∧ _))

/-- `r` reports to its parent `p`. -/
def sendUp (p : Rank) : BarrierNet where
  st := Function.update x.st r { x.st r with barrierUp := true }
  net := x.net.push r p ()

/-- The report to the parent, and whether the barrier is complete, as it is on the root. -/
def report : BarrierNet × Bool :=
  if x.Ready t r then
    match t.parentRank with
    | some p => (x.sendUp r p, false)
    | none => (x.complete t r, true)
  else (x, false)

/-- The release from the parent `p` arrives. -/
def recvRelease (p : Rank) : BarrierNet := { x with net := x.net.pop p r }.complete t r

/-- The release of the parent, if the probe finds it, and whether the barrier is complete. -/
def await (hit : Bool) : BarrierNet × Bool :=
  match t.parentRank, hit with
  | some p, true => (x.recvRelease t r p, true)
  | _, _ => (x, false)

/-- What the report can do. -/
theorem report_cases :
    (¬x.Ready t r ∧ x.report t r = (x, false)) ∨
      (∃ p, x.Ready t r ∧ t.parentRank = some p ∧ x.report t r = (x.sendUp r p, false)) ∨
      (x.Ready t r ∧ t.parentRank = none ∧ x.report t r = (x.complete t r, true)) := by
  by_cases h : x.Ready t r
  · cases hp : t.parentRank with
    | some p => exact .inr (.inl ⟨p, h, rfl, by simp [report, h, hp]⟩)
    | none => exact .inr (.inr ⟨h, rfl, by simp [report, h, hp]⟩)
  · exact .inl ⟨h, by simp [report, h]⟩

/-- What the wait for the release can do. -/
theorem await_cases (hit : Bool) :
    x.await t r hit = (x, false) ∨
      ∃ p, t.parentRank = some p ∧ hit = true ∧
        x.await t r hit = (x.recvRelease t r p, true) := by
  cases hp : t.parentRank with
  | none => exact .inl (by simp [await, hp])
  | some p =>
      cases hit with
      | false => exact .inl (by simp [await, hp])
      | true => exact .inr ⟨p, rfl, rfl, by simp [await, hp]⟩

end BarrierNet

end Libcircle
