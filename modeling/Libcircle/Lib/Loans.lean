import Mathlib.Algebra.BigOperators.Group.List.Basic
import Mathlib.Algebra.Order.Group.Multiset
import Mathlib.Tactic.Abel
import Libcircle.Lib.Runs

/-!
# Buffers lent to operations that complete later

An operation is posted with a buffer, or without one, and completes at some later
time.  Until it is reported complete its buffer is lent: nobody may free it.
After that the buffer is owed to the allocator until it is freed.

A path of `Loans.Step` never frees a buffer whose operation is pending, and frees
no buffer twice.  If it ends with nothing owed it has lost none (`freed_add_lent`).
-/

/-- What can be seen of operations and buffers. -/
inductive LoanEvent (ρ β : Type*) where
  /-- An operation is posted with a buffer, or without one. -/
  | post (req : ρ) (buf : Option β)
  /-- An operation is tested, and may be complete. -/
  | test (req : ρ) (flag : Bool)
  /-- An operation is waited for, and complete. -/
  | wait (req : ρ)
  /-- A buffer is freed. -/
  | free (buf : β)

/-- The operation that an event posts, with its buffer. -/
def LoanEvent.post? {ρ β : Type*} : LoanEvent ρ β → Option (ρ × Option β)
  | .post r b => some (r, b)
  | _ => none

/-- The operations that are pending with their buffers, and the buffers of operations that are
complete. -/
structure Loans (ρ β : Type*) where
  pending : Multiset (ρ × Option β)
  owed : Multiset β

namespace Loans

variable {ρ β : Type*}

/-- The buffers among pointers that may be null. -/
def bufs (l : List (ρ × Option β)) : List β := l.filterMap Prod.snd

inductive Step : Loans ρ β → LoanEvent ρ β → Loans ρ β → Prop where
  | post (r : ρ) (b : Option β) (p : Multiset (ρ × Option β)) (o : Multiset β) :
      Step ⟨p, o⟩ (.post r b) ⟨(r, b) ::ₘ p, o⟩
  | pending {r : ρ} {b : Option β} {p : Multiset (ρ × Option β)} {o : Multiset β} :
      (r, b) ∈ p → Step ⟨p, o⟩ (.test r false) ⟨p, o⟩
  | complete (r : ρ) (b : Option β) (p : Multiset (ρ × Option β)) (o : Multiset β) :
      Step ⟨(r, b) ::ₘ p, o⟩ (.test r true) ⟨p, b.toList + o⟩
  | wait (r : ρ) (b : Option β) (p : Multiset (ρ × Option β)) (o : Multiset β) :
      Step ⟨(r, b) ::ₘ p, o⟩ (.wait r) ⟨p, b.toList + o⟩
  | free (b : β) (p : Multiset (ρ × Option β)) (o : Multiset β) :
      Step ⟨p, b ::ₘ o⟩ (.free b) ⟨p, o⟩

variable {p : Multiset (ρ × Option β)} {o : Multiset β} {live : List (ρ × Option β)}
  {s t : Loans ρ β} {log : List (LoanEvent ρ β)}

/-- Buffers that are owed are freed. -/
theorem path_free (l : List β) : LabelledPath Step ⟨p, l + o⟩ (l.map .free) ⟨p, o⟩ := by
  induction l with
  | nil =>
      rw [Multiset.coe_nil, zero_add]
      exact .nil _
  | cons b l ih =>
      rw [← Multiset.cons_coe, Multiset.cons_add]
      exact .cons (.free b p _) ih

/-- An operation that is found complete has its buffer freed. -/
theorem path_reap (r : ρ) (b : Option β) :
    LabelledPath Step ⟨(r, b) ::ₘ p, o⟩ (.test r true :: b.toList.map .free) ⟨p, o⟩ :=
  .cons (.complete r b p o) (path_free b.toList)

/-- All pending operations are waited for. -/
theorem path_wait :
    LabelledPath Step ⟨live, o⟩ (live.map fun e => .wait e.1) ⟨0, bufs live + o⟩ := by
  induction live generalizing o with
  | nil =>
      rw [bufs, List.filterMap_nil, Multiset.coe_nil, Multiset.coe_nil, zero_add]
      exact .nil _
  | cons e live ih =>
      obtain ⟨r, b⟩ := e
      have hbufs : (bufs ((r, b) :: live) : Multiset β) + o = bufs live + (b.toList + o) := by
        cases b with
        | none => simp [bufs]
        | some b => simp [bufs, ← Multiset.cons_coe]
      rw [hbufs, ← Multiset.cons_coe]
      exact .cons (.wait r b live o) ih

/-! ## No buffer is lost -/

/-- The buffers that are lent or owed. -/
def lent (s : Loans ρ β) : Multiset β := s.pending.filterMap Prod.snd + s.owed

theorem lent_coe (live : List (ρ × Option β)) :
    lent (⟨live, 0⟩ : Loans ρ β) = ↑(bufs live) := by
  rw [lent, add_zero, Multiset.filterMap_coe, bufs]

/-- The buffers of an event that posts an operation. -/
def posted : LoanEvent ρ β → Multiset β
  | .post _ b => b.toList
  | _ => 0

/-- The buffers that an event frees. -/
def freed : LoanEvent ρ β → Multiset β
  | .free b => {b}
  | _ => 0

theorem Step.freed_add_lent {e : LoanEvent ρ β} (h : Step s e t) :
    freed e + t.lent = posted e + s.lent := by
  cases h with
  | post r b p o => cases b <;> simp [freed, posted, lent]
  | pending => simp [freed, posted, lent]
  | complete r b p o => cases b <;> simp [freed, posted, lent]
  | wait r b p o => cases b <;> simp [freed, posted, lent]
  | free b p o => simp [freed, posted, lent]

/-- Every buffer that is posted is lent, or owed, or has been freed once. -/
theorem freed_add_lent (h : LabelledPath Step s log t) :
    (log.map freed).sum + t.lent = (log.map posted).sum + s.lent := by
  induction h with
  | nil => rfl
  | @cons s t u e es he _ ih =>
      rw [List.map_cons, List.sum_cons, List.map_cons, List.sum_cons, add_assoc, ih,
        add_left_comm, he.freed_add_lent, add_left_comm, add_assoc]

/-- The buffers posted are those of the operations posted. -/
theorem sum_posted (log : List (LoanEvent ρ β)) :
    (log.map posted).sum = ↑(bufs (log.filterMap LoanEvent.post?)) := by
  induction log with
  | nil => rfl
  | cons e log ih =>
      rw [List.map_cons, List.sum_cons, ih]
      cases e with
      | post r b =>
          cases b with
          | none => exact zero_add _
          | some b => rfl
      | test | wait | free => exact zero_add _

end Loans
