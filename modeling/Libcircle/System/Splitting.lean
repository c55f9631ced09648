import Libcircle.System.Control

/-!
# Splitting a queue among requestors

`CIRCLE_send_work_to_many` plans a size for each requestor and sends blocks of the
queue, the last block first.  The sizes planned leave an item for the sender, and
the size back-off only lowers them, so the blocks and what the sender keeps are
the queue.
-/

namespace Libcircle

variable {α : Type*} {w : WorkNet α} {r : Rank} {abortFlag : Bool} {inv : Nat}

/-- The reply that carries a block, if it has any items. -/
def answer (abortFlag : Bool) (inv : Nat) : List α → Reply α
  | [] => if abortFlag then .abort else .noWork
  | x :: l => .items inv (x :: l)

/-- `w'` is `w` after the requestors have been sent the blocks. -/
structure Splits (abortFlag : Bool) (inv : Nat) (r : Rank) (requestors : List Rank)
    (blocks : List (List α)) (w w' : WorkNet α) : Prop where
  /-- The blocks are cut off the end of the queue one after the other. -/
  queue : w.queue r = w'.queue r ++ blocks.reverse.flatten
  keeps : w'.queue r ≠ []
  /-- Each requestor is answered once. -/
  length : blocks.length = requestors.length
  replies : ∀ dest, w'.replies r dest = w.replies r dest ++
    ((requestors.zip blocks).filter fun e => e.1 == dest).map fun e => answer abortFlag inv e.2
  outstanding : w'.workOutstanding r =
    w.workOutstanding r + (blocks.filter fun block => !block.isEmpty).length
  /-- The other ranks are not affected. -/
  others : ∀ q, q ≠ r → w'.queue q = w.queue q ∧ w'.workOutstanding q = w.workOutstanding q ∧
    ∀ dest, w'.replies q dest = w.replies q dest

theorem sendWork_replies {dest count : Nat} (hcount : count < (w.queue r).length) :
    (w.sendWork abortFlag inv r dest count).replies = w.replies.push r dest
      (answer abortFlag inv ((w.queue r).drop ((w.queue r).length - count))) := by
  unfold WorkNet.sendWork
  split
  next hzero =>
    rw [hzero, Nat.sub_zero, List.drop_length]
    rfl
  next hpos =>
    cases hdrop : (w.queue r).drop ((w.queue r).length - count) with
    | nil =>
        rw [List.drop_eq_nil_iff] at hdrop
        omega
    | cons x l =>
        simp only [hdrop]
        rfl

/-- One transfer, and then the others. -/
theorem Splits.cons {requestors : List Rank} {blocks : List (List α)} {w' : WorkNet α}
    {dest count : Nat} (hcount : count < (w.queue r).length)
    (h : Splits abortFlag inv r requestors blocks (w.sendWork abortFlag inv r dest count) w') :
    Splits abortFlag inv r (dest :: requestors)
      ((w.queue r).drop ((w.queue r).length - count) :: blocks) w w' where
  queue := by
    have hqueue := h.queue
    rw [WorkNet.sendWork_queue, Function.update_self] at hqueue
    rw [List.reverse_cons, List.flatten_append, List.flatten_singleton, ← List.append_assoc,
      ← hqueue, List.take_append_drop]
  keeps := h.keeps
  length := by rw [List.length_cons, List.length_cons, h.length]
  replies := by
    intro d
    rw [h.replies, sendWork_replies hcount, List.zip_cons_cons]
    by_cases hd : dest = d
    · rw [hd, Chan.push_self, List.filter_cons_of_pos (by simp), List.map_cons,
        List.append_assoc, List.singleton_append]
    · rw [Chan.push_ne _ _ (fun hdr => hd hdr.2.symm), List.filter_cons_of_neg (by simpa using hd)]
  outstanding := by
    rw [h.outstanding, WorkNet.sendWork_workOutstanding, Function.update_self, Nat.add_assoc]
    congr 1
    cases hdrop : (w.queue r).drop ((w.queue r).length - count) with
    | nil =>
        rw [List.drop_eq_nil_iff] at hdrop
        rw [if_pos (by omega), Nat.zero_add]
        rfl
    | cons x l =>
        have hlen := congrArg List.length hdrop
        rw [List.length_drop, List.length_cons] at hlen
        rw [if_neg (by omega), Nat.add_comm]
        rfl
  others := by
    intro q hq
    obtain ⟨hqueue, hout, hreplies⟩ := h.others q hq
    rw [WorkNet.sendWork_queue, Function.update_of_ne hq] at hqueue
    rw [WorkNet.sendWork_workOutstanding, Function.update_of_ne hq] at hout
    refine ⟨hqueue, hout, fun d => (hreplies d).trans ?_⟩
    rw [sendWork_replies hcount, Chan.push_ne _ _ fun hqr => hq hqr.1]

/-- Any counts that leave an item for the sender split the queue. -/
theorem splits_sendWorkToMany {requestors : List Rank} {counts : List Nat}
    (hlen : counts.length = requestors.length) (hsum : counts.sum < (w.queue r).length) :
    ∃ blocks, blocks.map List.length = counts ∧
      Splits abortFlag inv r requestors blocks w
        (w.sendWorkToMany abortFlag inv r requestors counts) := by
  induction requestors generalizing counts w with
  | nil =>
      obtain rfl := List.length_eq_zero_iff.mp hlen
      have hkeeps : w.queue r ≠ [] := List.ne_nil_of_length_pos hsum
      exact ⟨[], rfl, (List.append_nil _).symm, hkeeps, rfl, fun _ => (List.append_nil _).symm, rfl,
        fun _ _ => ⟨rfl, rfl, fun _ => rfl⟩⟩
  | cons dest requestors ih =>
      cases counts with
      | nil => cases hlen
      | cons count counts =>
          rw [List.sum_cons] at hsum
          have hcount : count < (w.queue r).length := by omega
          have hrest : counts.sum <
              ((w.sendWork abortFlag inv r dest count).queue r).length := by
            rw [WorkNet.sendWork_queue, Function.update_self, List.length_take]
            omega
          obtain ⟨blocks, hblocks, h⟩ := ih (Nat.succ.inj hlen) hrest
          refine ⟨_, ?_, h.cons hcount⟩
          rw [List.map_cons, hblocks, List.length_drop, Nat.sub_sub_self hcount.le]

/-! ## The sizes -/

/-- The size back-off lowers the counts. -/
theorem sum_backOff_le {sizes counts : List Nat}
    (h : List.Forall₂ (fun size count => BackOff [size] count) sizes counts) :
    counts.sum ≤ sizes.sum := by
  induction h with
  | nil => exact Nat.le_refl _
  | cons hback _ ih =>
      rw [List.sum_cons, List.sum_cons]
      rcases hback with ⟨h₀, h₁⟩ | ⟨_, hle⟩ <;> omega

/-- The number of items that a random split sends. -/
def randomAmount (rand count : Nat) : Nat :=
  if rand % count + 1 = count then count - 1 else rand % count + 1

/-- The sizes add up to `amount`, and differ by at most one. -/
def EvenSplit (sizes : List Nat) (amount : Nat) : Prop :=
  sizes.sum = amount ∧ ∀ a ∈ sizes, ∀ b ∈ sizes, a ≤ b + 1

theorem even_spreadCounts {ranks : Nat} (hr : 0 < ranks) (count : Nat) :
    EvenSplit (spreadCounts ranks count) count :=
  ⟨spreadCounts_sum hr, fun _ ha _ hb => spreadCounts_le ha hb⟩

/-- What is planned for `rcount` requestors and a queue of `count` items: all items are split
evenly, or a random number of them evenly among the requestors. -/
def Planned (splitEqual : Bool) (rand count rcount : Nat) : Prop :=
  if splitEqual then EvenSplit (splitSizes splitEqual rand count rcount) count
  else ∃ sizes, splitSizes splitEqual rand count rcount =
    (count - randomAmount rand count) :: sizes ∧ EvenSplit sizes (randomAmount rand count)

theorem planned {rcount : Nat} (hr : 0 < rcount) (splitEqual : Bool) (rand count : Nat) :
    Planned splitEqual rand count rcount := by
  cases splitEqual with
  | true => exact even_spreadCounts (Nat.succ_pos _) count
  | false =>
      refine ⟨spreadCounts rcount (randomAmount rand count), ?_, even_spreadCounts hr _⟩
      rw [splitSizes, if_neg Bool.false_ne_true]
      by_cases hall : rand % count + 1 = count
      · simp only [randomAmount, hall, if_true]
      · simp only [randomAmount, hall, if_false]

/-- `CIRCLE_send_work_to_many` splits the queue into a block for each requestor and what the sender
keeps, whatever the random number is and however the size back-off lowers the counts. -/
theorem send_work_to_many_splits (splitEqual : Bool) (rand : Nat) {requestors : List Rank}
    {counts : List Nat} (hr : requestors ≠ []) (hq : w.queue r ≠ [])
    (hcounts : List.Forall₂ (fun size count => BackOff [size] count)
      (splitSizes splitEqual rand (w.queue r).length requestors.length).tail counts) :
    Planned splitEqual rand (w.queue r).length requestors.length ∧
      ∃ blocks, blocks.map List.length = counts ∧
        Splits abortFlag inv r requestors blocks w
          (w.sendWorkToMany abortFlag inv r requestors counts) := by
  have hpos : 0 < requestors.length := List.length_pos_iff.mpr hr
  have hlen : counts.length = requestors.length := by
    rw [← hcounts.length_eq, List.length_tail, splitSizes_length hpos, Nat.add_sub_cancel]
  have hsum : counts.sum < (w.queue r).length :=
    (sum_backOff_le hcounts).trans_lt (splitSizes_tail_sum_lt hpos (List.length_pos_iff.mpr hq))
  exact ⟨planned hpos splitEqual rand _, splits_sendWorkToMany hlen hsum⟩

/-- The queues of a rank with five items that three ranks ask for work. -/
def fiveItems : WorkNet Nat where
  queue q := if q = 0 then [1, 2, 3, 4, 5] else []
  requestors q := if q = 0 then [3, 1, 2] else []
  sizes _ := []
  request _ := {}
  workOutstanding _ := 0
  sends _ := []
  requests := .empty
  replies := .empty
  receipts := .empty

theorem send_work_to_many_splits_five :
    Planned true 0 (fiveItems.queue 0).length [3, 1, 2].length ∧
      ∃ blocks, blocks.map List.length = [1, 1, 1] ∧
        Splits false 0 0 [3, 1, 2] blocks fiveItems
          (fiveItems.sendWorkToMany false 0 0 [3, 1, 2] [1, 1, 1]) :=
  send_work_to_many_splits true 0 (by decide) (by decide) (by decide)

/-! ## The calls of a run -/

/-- The lists of the requestors still to be served play no part in a transfer. -/
theorem sendWorkToMany_with (requestors : List Rank) (counts : List Nat) (w : WorkNet α)
    (rs : Rank → List Rank) (sizes : Rank → List Nat) :
    ({ w with requestors := rs, sizes := sizes } : WorkNet α).sendWorkToMany abortFlag inv r
        requestors counts =
      { w.sendWorkToMany abortFlag inv r requestors counts with
        requestors := rs, sizes := sizes } := by
  induction requestors generalizing counts w with
  | nil => rfl
  | cons dest requestors ih =>
      cases counts with
      | nil => rfl
      | cons count counts =>
          have hsend : ({ w with requestors := rs, sizes := sizes } : WorkNet α).sendWork abortFlag
              inv r dest count =
                { w.sendWork abortFlag inv r dest count with
                  requestors := rs, sizes := sizes } := by
            unfold WorkNet.sendWork
            split <;> rfl
          rw [WorkNet.sendWorkToMany, hsend, ih]
          rfl

/-- The events of a rank that serves its requestors are the calls of
`CIRCLE_send_work_to_many`. -/
theorem follow_sendWork (job : Job) (counts : List Nat) (s : Sys α)
    (h : counts.length = (s.work.requestors r).length) :
    (job.step.follow s (counts.map fun count => .sendWork r count)).work =
      { s.work.sendWorkToMany (s.abortFlag r) (s.inv r) r (s.work.requestors r) counts with
        requestors := Function.update s.work.requestors r []
        sizes := Function.update s.work.sizes r ((s.work.sizes r).drop counts.length) } := by
  induction counts generalizing s with
  | nil =>
      have hnil : s.work.requestors r = [] := List.length_eq_zero_iff.mp h.symm
      have hwork : (job.step.follow s []).work = s.work := rfl
      rw [List.map_nil, hwork, hnil, List.length_nil, List.drop_zero, ← hnil,
        Function.update_eq_self, Function.update_eq_self, hnil]
      rfl
  | cons count counts ih =>
      cases hrs : s.work.requestors r with
      | nil =>
          rw [hrs] at h
          cases h
      | cons dest requestors =>
          have hnext : (s.next job (.sendWork r count)).work =
              (s.work.sendWork (s.abortFlag r) (s.inv r) r dest count).nextRequestor r := by
            simp only [Sys.next, hrs, List.headD_cons]
          have htail : (s.next job (.sendWork r count)).work.requestors r = requestors := by
            rw [hnext]
            simp [WorkNet.nextRequestor, hrs]
          rw [hrs] at h
          have hlen : counts.length =
              ((s.next job (.sendWork r count)).work.requestors r).length := by
            rw [htail]
            exact Nat.succ.inj h
          have hfollow := ih (s.next job (.sendWork r count)) hlen
          rw [htail, hnext] at hfollow
          refine hfollow.trans ?_
          rw [WorkNet.nextRequestor, sendWorkToMany_with]
          simp [WorkNet.sendWorkToMany, Sys.next]

end Libcircle
