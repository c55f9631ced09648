import Libcircle.Model.Tree

/-!
# The termination allreduce

`CIRCLE_check_for_term_allreduce` in three parts: the loop that receives the
flags of the children, the report to the parent, and the result from the
parent.  The root has no parent, so its report completes the round at once.
-/

namespace Libcircle

/-- The fields of a rank for the termination allreduce. -/
structure Term where
  /-- `term_flag`. -/
  termFlag : Bool := true
  /-- `term_up`. -/
  termUp : Bool := false
  /-- `term_replies`. -/
  termReplies : Nat := 0
  /-- The number of rounds completed, a history variable. -/
  rounds : Nat := 0
deriving DecidableEq, Repr

/-- The allreduce state of all ranks and the tag `CIRCLE_TAG_TERM`. -/
structure TermNet where
  /-- The state of a rank. -/
  st : Rank → Term
  /-- `CIRCLE_TAG_TERM`. -/
  net : Chan Rank Bool

namespace TermNet

variable (x : TermNet) (t : TreeState) (r : Rank)

/-- Replace the state of `r`. -/
def set (y : Term) : TermNet := { x with st := Function.update x.st r y }

/-- The allreduce fields in `CIRCLE_init_local_state`. -/
def init : TermNet :=
  x.set r { x.st r with termFlag := true, termUp := false, termReplies := 0 }

/-- `CIRCLE_workreceipt_check` forces a fresh allreduce. -/
def clearFlag : TermNet := x.set r { x.st r with termFlag := false }

/-- The flag of the child `src` arrives. -/
def recvFlag (src : Rank) (flag : Bool) : TermNet where
  st := Function.update x.st r
    { x.st r with
      termFlag := (x.st r).termFlag && flag
      termReplies := (x.st r).termReplies + 1 }
  net := x.net.pop src r

/-- The round ends on `r` with the result `flag`: send it to the children, reset. -/
def complete (flag : Bool) : TermNet where
  st := Function.update x.st r
    { x.st r with termUp := false, termReplies := 0, rounds := (x.st r).rounds + 1 }
  net := x.net.bcast r t.childRanks flag

/-- All children have reported and `r` has not. -/
def Ready : Prop := (x.st r).termUp = false ∧ (x.st r).termReplies = t.children

instance : Decidable (x.Ready t r) := inferInstanceAs (Decidable (_ ∧ _))

/-- `r` sends its flag to its parent `p`. -/
def sendUp (p : Rank) : TermNet where
  st := Function.update x.st r { x.st r with termFlag := true, termUp := true }
  net := x.net.push r p (x.st r).termFlag

/-- The root captures its flag as the result of the round. -/
def completeRoot : TermNet :=
  (x.set r { x.st r with termFlag := true }).complete t r (x.st r).termFlag

/-- The report to the parent, with the result of the round on the root. -/
def report : TermNet × Option Bool :=
  if x.Ready t r then
    match t.parentRank with
    | some p => (x.sendUp r p, none)
    | none => (x.completeRoot t r, some (x.st r).termFlag)
  else (x, none)

/-- The result `flag` of the parent `p` arrives. -/
def recvResult (p : Rank) (flag : Bool) : TermNet :=
  { x with net := x.net.pop p r }.complete t r flag

/-- The result of the parent, if the probe finds it. -/
def await (hit : Bool) : TermNet × Option Bool :=
  match t.parentRank, hit with
  | some p, true =>
      let flag := (x.net p r).headD true
      (x.recvResult t r p flag, some flag)
  | _, _ => (x, none)

/-- What the report can do. -/
theorem report_cases :
    (¬x.Ready t r ∧ x.report t r = (x, none)) ∨
      (∃ p, x.Ready t r ∧ t.parentRank = some p ∧ x.report t r = (x.sendUp r p, none)) ∨
      (x.Ready t r ∧ t.parentRank = none ∧
        x.report t r = (x.completeRoot t r, some (x.st r).termFlag)) := by
  by_cases h : x.Ready t r
  · cases hp : t.parentRank with
    | some p => exact .inr (.inl ⟨p, h, rfl, by simp [report, h, hp]⟩)
    | none => exact .inr (.inr ⟨h, rfl, by simp [report, h, hp]⟩)
  · exact .inl ⟨h, by simp [report, h]⟩

/-- What the wait for the result can do. -/
theorem await_cases (hit : Bool) :
    x.await t r hit = (x, none) ∨
      ∃ p, t.parentRank = some p ∧ hit = true ∧
        x.await t r hit =
          (x.recvResult t r p ((x.net p r).headD true), some ((x.net p r).headD true)) := by
  cases hp : t.parentRank with
  | none => exact .inl (by simp [await, hp])
  | some p =>
      cases hit with
      | false => exact .inl (by simp [await, hp])
      | true => exact .inr ⟨p, rfl, rfl, by simp [await, hp]⟩

end TermNet

end Libcircle
