import Libcircle.Model.Tree

/-!
# Abort

`CIRCLE_abort_start` and `CIRCLE_abort_check` spread the abort flag along the
tree, and `CIRCLE_abort_reduce` agrees on it at the end of an invocation.  The
flag `CIRCLE_ABORT_FLAG` itself is a field of the whole system.
-/

namespace Libcircle

/-! ## The abort broadcast -/

/-- The fields of a rank for the abort broadcast. -/
structure Abort where
  /-- `abort_state`. -/
  abortState : Bool := false
  /-- `abort_outstanding`. -/
  abortOutstanding : Bool := false
deriving DecidableEq, Repr

/-- The abort broadcast of all ranks, with the tags `CIRCLE_TAG_ABORT_REQUEST` and
`CIRCLE_TAG_ABORT_REPLY`. -/
structure AbortNet where
  /-- The state of a rank. -/
  st : Rank → Abort
  /-- `CIRCLE_TAG_ABORT_REQUEST`. -/
  requests : Chan Rank Unit
  /-- `CIRCLE_TAG_ABORT_REPLY`. -/
  replies : Chan Rank Unit

/-- The ranks `CIRCLE_abort_start` sends to: the parent, then the children. -/
def TreeState.neighbours (t : TreeState) : List Rank := t.parentRank.toList ++ t.childRanks

namespace AbortNet

variable (x : AbortNet) (t : TreeState) (cleanup : Bool) (r : Rank)

/-- Replace the state of `r`. -/
def set (y : Abort) : AbortNet := { x with st := Function.update x.st r y }

/-- The abort fields in `CIRCLE_init_local_state`. -/
def init : AbortNet := x.set r {}

/-- `CIRCLE_abort_start`, the abort flag apart. -/
def abortStart : AbortNet :=
  if (x.st r).abortState then x
  else if cleanup then x.set r { x.st r with abortState := true }
  else
    { x with
      st := Function.update x.st r
        { abortState := true
          abortOutstanding := (x.st r).abortOutstanding || !t.neighbours.isEmpty }
      requests := x.requests.bcast r t.neighbours () }

/-- `CIRCLE_abort_check` receives the request of `src` and replies to it. -/
def recvRequest (src : Rank) : AbortNet :=
  { x with
    requests := x.requests.pop src r
    replies := x.replies.push r src () }

/-- `MPI_Testall` finds the request and the reply of every neighbour complete. -/
def repliesDone : AbortNet :=
  { x with
    st := Function.update x.st r { x.st r with abortOutstanding := false }
    replies := x.replies.gather t.neighbours r }

end AbortNet

/-! ## The abort reduction -/

/-- The local variables of `CIRCLE_abort_reduce` on a rank. -/
structure AbortReduce where
  /-- `flag`. -/
  flag : Bool := false
  /-- `i`, in the first loop. -/
  index : Nat := 0
  /-- The partial result is sent and the result awaited. -/
  waiting : Bool := false
  /-- The number of abort reductions completed, a history variable. -/
  completed : Nat := 0
deriving DecidableEq, Repr

/-- The abort reduction of all ranks and the tag `CIRCLE_TAG_ABORT_REDUCE`. -/
structure AbortReduceNet where
  /-- The local variables of a rank. -/
  st : Rank → AbortReduce
  /-- `CIRCLE_TAG_ABORT_REDUCE`. -/
  net : Chan Rank Bool

namespace AbortReduceNet

variable (x : AbortReduceNet) (t : TreeState) (r : Rank)

/-- Enter `CIRCLE_abort_reduce` with the abort flag `flag`. -/
def enter (flag : Bool) : AbortReduceNet :=
  { x with st := Function.update x.st r { x.st r with flag := flag } }

/-- The flag of the next child, `child`, arrives. -/
def recvFlag (child : Rank) (flag : Bool) : AbortReduceNet where
  st := Function.update x.st r
    { x.st r with flag := (x.st r).flag || flag, index := (x.st r).index + 1 }
  net := x.net.pop child r

/-- `r` sends its partial result to its parent `p`. -/
def sendUp (p : Rank) : AbortReduceNet where
  st := Function.update x.st r { x.st r with waiting := true }
  net := x.net.push r p (x.st r).flag

/-- `r` has the result `flag`: forward it and return. -/
def complete (flag : Bool) : AbortReduceNet where
  st := Function.update x.st r
    { flag := flag, index := 0, waiting := false, completed := (x.st r).completed + 1 }
  net := x.net.bcast r t.childRanks flag

/-- The result `flag` of the parent `p` arrives. -/
def recvResult (p : Rank) (flag : Bool) : AbortReduceNet :=
  { x with net := x.net.pop p r }.complete t r flag

/-- The report: the partial result goes to the parent, or is the result on the root. -/
def report : AbortReduceNet × Option Bool :=
  match t.parentRank with
  | some p => (x.sendUp r p, none)
  | none => (x.complete t r (x.st r).flag, some (x.st r).flag)

/-- The result of the parent. -/
def await : AbortReduceNet × Option Bool :=
  match t.parentRank with
  | some p =>
      let flag := (x.net p r).headD false
      (x.recvResult t r p flag, some flag)
  | none => (x, none)

/-- What the report can do. -/
theorem report_cases :
    (∃ p, t.parentRank = some p ∧ x.report t r = (x.sendUp r p, none)) ∨
      (t.parentRank = none ∧
        x.report t r = (x.complete t r (x.st r).flag, some (x.st r).flag)) := by
  cases hp : t.parentRank with
  | some p => exact .inl ⟨p, rfl, by simp [report, hp]⟩
  | none => exact .inr ⟨rfl, by simp [report, hp]⟩

theorem await_eq {p : Rank} (hp : t.parentRank = some p) :
    x.await t r =
      (x.recvResult t r p ((x.net p r).headD false), some ((x.net p r).headD false)) := by
  simp [await, hp]

end AbortReduceNet

end Libcircle
