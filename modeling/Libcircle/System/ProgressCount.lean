import Libcircle.System.FinalCount
import Libcircle.System.Reductions

/-!
# The counts of background reductions

The counts a background reduction adds up are taken on different ranks at
different times.  Each is taken after the root has started the reduction and
before it completes it, and a count does not go down.  So the sum that rank `0`
prints lies between the number of objects processed at the start and at the end
(`progress_bounds`).
-/

namespace Libcircle

variable {α : Type*} {job : Job} {s t : Sys α} {e : Event α} {r : Rank} {es fs : List (Event α)}
  {x : Reductions} {f : Reductions.Step} {k₀ : Nat} {floor objects objects' : Rank → Nat}

/-! ## The counts of the reductions started since -/

namespace Reductions

/-- The counts passed on in reductions after number `k₀` lie between `floor` and `objects`. -/
structure Bounded (k₀ : Nat) (floor objects : Rank → Nat) (x : Reductions) : Prop where
  floor_le : ∀ r, floor r ≤ objects r
  share : ∀ k, k₀ < k → ∀ r y, (x.records k r).share = some y →
    floor r ≤ y.count ∧ y.count ≤ objects r
  started : k₀ ≤ x.started
  outstanding : (x.reduce.st 0).outstanding = true → k₀ < x.started

theorem Bounded.mono (h : x.Bounded k₀ floor objects) (hle : ∀ r, objects r ≤ objects' r) :
    x.Bounded k₀ floor objects' where
  floor_le r := (h.floor_le r).trans (hle r)
  share k hk r y hy := (h.share k hk r y hy).imp_right fun hc => hc.trans (hle r)
  started := h.started
  outstanding := h.outstanding

/-- While no reduction is outstanding on the root, no rank has passed on a count in a later one. -/
theorem Inv.bounded (h : x.Inv job) (hidle : (x.reduce.st 0).outstanding = false) :
    x.Bounded x.started objects objects where
  floor_le _ := Nat.le_refl _
  share k hk r y hy := by
    rw [h.fresh k hk] at hy
    cases hy
  started := Nat.le_refl _
  outstanding hout := absurd (hidle.symm.trans hout) (by decide)

end Reductions

/-- Only a step that completes a part of a reduction passes on a count. -/
theorem Record.share_refuse (P : Record) (r a : Rank) : (P.refuse r a).share = (P a).share := by
  by_cases ha : a = r
  · subst ha
    simp [Record.refuse]
  · simp [Record.refuse, Function.update_of_ne ha]

theorem Record.share_join (P : Record) (r a : Rank) (cs : List Rank) :
    (P.join r cs a).share = (P a).share := by
  by_cases ha : a = r
  · subst ha
    simp only [Record.join, if_true]
    split <;> rfl
  · simp only [Record.join, if_neg ha]
    split <;> rfl

theorem Record.share_hear (P : Record) (r c a : Rank) (k : Nat) :
    (P.hear r c k a).share = (P a).share := by
  by_cases ha : a = r
  · subst ha
    simp [Record.hear]
  · simp [Record.hear, Function.update_of_ne ha]

theorem Record.share_give (P : Record) (r a : Rank) (up : Nat) {y z : Share}
    (h : (P.give r up y a).share = some z) : (a = r ∧ z = y) ∨ (P a).share = some z := by
  by_cases ha : a = r
  · subst ha
    simp only [Record.give, Function.update_self, Option.some.injEq] at h
    exact .inl ⟨rfl, h.symm⟩
  · rw [Record.give, Function.update_of_ne ha] at h
    exact .inr h

namespace Reductions

/-- A record that is kept keeps the counts. -/
theorem share_update {k n : Nat} {P : Record} {a : Rank}
    (hP : ∀ a, (P a).share = (x.records k a).share) :
    (Function.update x.records k P n a).share = (x.records n a).share := by
  by_cases hn : n = k
  · subst hn
    rw [Function.update_self]
    exact hP a
  · rw [Function.update_of_ne hn]

theorem share_next {n : Nat} {a : Rank} {z : Share}
    (h : ((x.next job f).records n a).share = some z) :
    (x.records n a).share = some z ∨ ∃ calls, f = .done a z.count calls := by
  cases f with
  | cleanup r | resume r => exact .inl h
  | begin r due hit calls =>
      left
      simp only [next] at h
      split at h
      · split at h
        · split at h
          · exact (share_update fun a => Record.share_refuse ..).symm.trans h
          · exact h
        · exact (share_update fun a => Record.share_join ..).symm.trans h
      · exact h
  | reply r hit calls =>
      left
      simp only [next] at h
      split at h
      · exact (share_update fun a => Record.share_hear ..).symm.trans h
      · exact h
  | done r count calls =>
      simp only [next] at h
      split at h
      · by_cases hn : n = x.number r
        · subst hn
          simp only [log, Function.update_self] at h
          rcases Record.share_give _ _ _ _ h with ⟨rfl, rfl⟩ | h
          · exact .inr ⟨calls, rfl⟩
          · exact .inl h
        · simp only [log, Function.update_of_ne hn] at h
          exact .inl h
      · exact .inl h

end Reductions

/-! ## The reduction of the root -/

theorem ReduceNet.recvReply_outstanding (y : ReduceNet) (c a : Rank) :
    ((y.recvReply r c).st a).outstanding = (y.st a).outstanding := by
  unfold recvReply
  by_cases ha : a = r
  · subst ha
    split <;> simp
  · split <;> simp [Function.update_of_ne ha]

theorem ReduceNet.outstanding_of_finish (y : ReduceNet) (t : TreeState) (count : Nat) {a : Rank}
    (h : ((y.finish t r count).st a).outstanding = true) : (y.st a).outstanding = true := by
  unfold finish at h
  split at h
  · by_cases ha : a = r
    · subst ha
      simp [set] at h
    · cases hp : t.parentRank with
      | none => simpa [set, hp, Function.update_of_ne ha] using h
      | some p => simpa [set, hp, sendResult, Function.update_of_ne ha] using h
  · exact h

namespace Reductions

theorem started_le_next : x.started ≤ (x.next job f).started := by
  cases f with
  | cleanup r | resume r => exact Nat.le_refl _
  | begin r due hit calls =>
      simp only [next]
      split
      · split
        · split <;> exact Nat.le_refl _
        · exact Nat.le_max_left ..
      · exact Nat.le_refl _
  | reply r hit calls =>
      simp only [next]
      split <;> exact Nat.le_refl _
  | done r count calls =>
      simp only [next]
      split <;> exact Nat.le_refl _

/-- The root takes part in a new reduction only. -/
theorem outstanding_next (hout : ((x.next job f).reduce.st 0).outstanding = true) :
    (x.reduce.st 0).outstanding = true ∨ x.started < (x.next job f).started := by
  cases f with
  | cleanup r | resume r => exact .inl hout
  | begin r due hit calls =>
      obtain ⟨hreduce, _, _⟩ := next_begin_reduce job x r due hit calls
      rw [hreduce] at hout
      by_cases hr : r = 0
      · subst hr
        have hparent : (job.tree 1 0).parentRank = none := rfl
        cases hstarts : ReduceNet.Starts (job.tree 1 0) (x.cleanup 0) due hit with
        | false =>
            left
            simpa [ReduceNet.callback, ReduceNet.begin, hstarts] using hout
        | true =>
            cases hcleanup : x.cleanup 0 with
            | true =>
                left
                simpa [ReduceNet.callback, ReduceNet.begin, hcleanup, hparent] using hout
            | false =>
                right
                rw [hcleanup] at hstarts
                simp [next, hcleanup, hstarts, upcoming, hparent]
      · left
        rw [ReduceNet.callback, (ReduceNet.begin_ne (Ne.symm hr) ..).1] at hout
        exact hout
  | reply r hit calls =>
      left
      rw [(next_reply_reduce job x r hit calls).1] at hout
      cases hit with
      | true => exact (ReduceNet.recvReply_outstanding ..).symm.trans hout
      | false => exact hout
  | done r count calls =>
      left
      rw [(next_done_reduce job x r count calls).1] at hout
      exact ReduceNet.outstanding_of_finish _ _ _ hout

theorem Bounded.next (h : x.Bounded k₀ floor objects)
    (hcount : ∀ r count calls, f = .done r count calls → count = objects r) :
    (x.next job f).Bounded k₀ floor objects where
  floor_le := h.floor_le
  share n hn a z hz := by
    rcases share_next hz with hz | ⟨calls, hf⟩
    · exact h.share n hn a z hz
    · rw [hcount _ _ _ hf]
      exact ⟨h.floor_le a, Nat.le_refl _⟩
  started := h.started.trans started_le_next
  outstanding hout := by
    rcases outstanding_next hout with hout | hlt
    · exact (h.outstanding hout).trans_le started_le_next
    · exact h.started.trans_lt hlt

end Reductions

/-! ## Runs -/

theorem objects_le_next (hf : FirstOnly s e) (hU : s.Unbegun job) (r : Rank) :
    s.objects r ≤ (s.next job e).objects r := by
  by_cases hr : r = e.rank
  · subst hr
    exact Nat.le.intro (objects_next_self hf hU).symm
  · exact (objects_next_of_ne hr).ge

/-- A rank passes on the number of objects it has processed. -/
theorem count_of_reduction (hf : f ∈ e.reduction job s) :
    ∀ r count calls, f = .done r count calls → count = s.objects r := by
  rintro r count calls rfl
  cases e with
  | reduceDone r' calls' =>
      cases hf
      rfl
  | reduceResume | reduceBegin | reduceReply => cases hf
  | _ =>
      simp only [Event.reduction] at hf
      split at hf <;> cases hf

/-- The counts stay within their bounds until the first rank completes the barrier. -/
theorem bounded_of_run (hrun : job.once.Run s es t) (hO : s.Once job) (hU : s.Unbegun job)
    (hnot : ∀ r, ¬t.Past r) (hI : x.Inv job) (hF : x.Follows s)
    (hB : x.Bounded k₀ floor s.objects) :
    ∃ y : Reductions, y.Inv job ∧ y.Follows t ∧ y.Bounded k₀ floor t.objects := by
  induction hrun generalizing x with
  | nil => exact ⟨x, hI, hF, hB⟩
  | @cons s t e es he hrun ih =>
      obtain ⟨he, hf⟩ := he
      have hO' := once_next he hf hO
      have hnot' : ∀ r, ¬(s.next job e).Past r := fun r hp => hnot r (past_of_run hrun hO' hp)
      obtain ⟨y, hfs, hF'⟩ := follows_next he hO
        (fun hst => hnot' _ (past_next he hf hO (.inl hst))) (fun hst => hnot' _ (.inl hst)) hF
      have hI' : y.Inv job := hfs.invariant (fun _ _ h he => Reductions.inv_next h he) hI
      have hB' : y.Bounded k₀ floor s.objects :=
        (hfs.restrict_of_forall fun _ hf =>
          count_of_reduction (Option.mem_toList.mp hf)).restrict_invariant
          (fun _ _ h _ hcount => h.next hcount) hB
      exact ih hO' (unbegun_next he hf hO hU) hnot hI' hF' (hB'.mono (objects_le_next hf hU))

/-- The root completes a background reduction with a valid result, which it prints. -/
structure Sys.Reports (job : Job) (s : Sys α) : Prop where
  pc : s.pc 0 = .reduceReplies (s.tree job 0).children
  valid : (s.reduce.st 0).valid = true
  replies : (s.reduce.st 0).replies = (s.tree job 0).children

/-- No rank has completed the barrier then. -/
theorem not_past_of_reports (h : t.Reports job) (hW : t.Waves job) (hU : t.Unbegun job) :
    ∀ r, ¬t.Past r := by
  intro r hp
  have hat := (hW.once.coherent.ok 0).position
  rw [h.pc] at hat
  have hrested := rested_of_past hW (hU.lt_of_past hW.once hp) hp 0
  exact absurd (hrested.reduce.symm.trans hat.2.2.2.1) (by decide)

/-- The count it prints. -/
def Sys.reported (job : Job) (s : Sys α) (calls : List ReduceCall) : Nat :=
  ((s.next job (.reduceDone 0 calls)).reduce.st 0).total

/-- What the root records of this reduction. -/
theorem share_of_reports (h : t.Reports job) (hO : t.Once job) (calls : List ReduceCall)
    (hF : x.Follows t) :
    ((x.next job (.done 0 (t.objects 0) calls)).records (x.number 0) 0).share =
      some ⟨true, t.reported job calls, t.objects 0⟩ := by
  have htree := hO.tree_eq ((hO.coherent.ok 0).stage_ne (by simp [h.pc]))
  have hall : (x.reduce.st 0).replies = (job.tree 1 0).children := by
    rw [hF.reduce, ← htree]
    exact h.replies
  have htotal : t.reported job calls =
      ((x.reduce.finish (job.tree 1 0) 0 (t.objects 0)).st 0).total := by
    rw [hF.reduce, ← htree]
    rfl
  simp only [Reductions.next, hall, if_true, Reductions.log, Function.update_self, Record.give,
    htotal]
  rw [hF.reduce, h.valid]
  rfl

/-- The sum lies between those of the bounds of the counts. -/
theorem reported_bounds (h : t.Reports job) (hO : t.Once job) (calls : List ReduceCall)
    (hI : x.Inv job) (hF : x.Follows t) (hB : x.Bounded k₀ floor t.objects) :
    ∑ r ∈ Finset.range job.size, floor r ≤ t.reported job calls ∧
      t.reported job calls ≤ t.processed job := by
  have htree := hO.tree_eq ((hO.coherent.ok 0).stage_ne (by simp [h.pc]))
  have hindex : x.index 0 = some (job.tree 1 0).children := by
    rw [hF.index, h.pc, htree]
    rfl
  have hout := (hI.index 0 _ hindex).2.1
  have hlt : k₀ < x.number 0 := by
    rw [hI.number 0 job.size_pos hout]
    exact hB.outstanding hout
  have hshare := share_of_reports h hO calls hF
  have hI' : (x.next job (.done 0 (t.objects 0) calls)).Inv job := Reductions.inv_next hI hindex
  have hB' : (x.next job (.done 0 (t.objects 0) calls)).Bounded k₀ floor t.objects :=
    hB.next fun _ _ _ hf => by
      cases hf
      rfl
  generalize x.next job (.done 0 (t.objects 0) calls) = y at hshare hI' hB'
  have hR := hI'.recorded_all (x.number 0)
  have hvalid : (y.records (x.number 0) job.rootedTree.root).valid = true := by
    change (y.records (x.number 0) 0).valid = true
    simp [Part.valid, hshare]
  have htotal : t.reported job calls =
      ∑ r ∈ Finset.range job.size, (y.records (x.number 0) r).count := by
    rw [← hR.total_root hvalid fun r => Finset.mem_range]
    change _ = (y.records (x.number 0) 0).total
    simp [Part.total, hshare]
  have hcount : ∀ r, r < job.size → floor r ≤ (y.records (x.number 0) r).count ∧
      (y.records (x.number 0) r).count ≤ t.objects r := by
    intro r hr
    have htook := hR.took_part (hR.valid_of_root hvalid r hr) hr
    obtain ⟨z, hz⟩ := Option.ne_none_iff_exists'.mp htook.share
    have hbound := hB'.share (x.number 0) hlt r z hz
    simpa [Part.count, hz] using hbound
  rw [htotal]
  exact ⟨Finset.sum_le_sum fun r hr => (hcount r (Finset.mem_range.mp hr)).1,
    Finset.sum_le_sum fun r hr => (hcount r (Finset.mem_range.mp hr)).2⟩

/-! ## The count that is printed -/

/-- Every background reduction that the root starts after `es` and completes with a valid result
reports a number of calls of the process callback between those made at the start and at the
end, in a run in which no rank makes more than `INT32_MAX` of them. -/
theorem progress_bounds {queue : Rank → List α} {abortFlag : Rank → Bool}
    {input : Rank → ReduceInput} {enqueued : List α} (calls : List ReduceCall)
    (hrun : job.once.Run (Sys.start queue abortFlag input enqueued) es s)
    (hidle : (s.reduce.st 0).outstanding = false) (hrun' : job.once.Run s fs t)
    (hint : ∀ r, (es ++ fs).countP (Event.processesOn r) ≤ int32Max) (h : t.Reports job) :
    (∀ r, t.objects r ≤ int32Max) ∧ es.countP Event.processes ≤ t.reported job calls ∧
      t.reported job calls ≤ (es ++ fs).countP Event.processes := by
  have hW := waves_of_run hrun (waves_start ..)
  have hU := unbegun_of_run hrun (once_start ..) (unbegun_start ..)
  have hW' := waves_of_run hrun' hW
  have hU' := unbegun_of_run hrun' hW.once hU
  have hnot := not_past_of_reports h hW' hU'
  obtain ⟨es', x, hx, hF⟩ :=
    reductions_of_run hrun fun r hp => hnot r (past_of_run hrun' hW.once hp)
  have hI := Reductions.inv_of_run hx
  have hB : x.Bounded x.started s.objects s.objects := hI.bounded (hF.reduce ▸ hidle)
  obtain ⟨y, hI', hF', hB'⟩ := bounded_of_run hrun' hW.once hU hnot hI hF hB
  obtain ⟨hlower, hupper⟩ := reported_bounds h hW'.once calls hI' hF' hB'
  have hcalls := processed_of_run hrun (once_start ..) (unbegun_start ..)
  have hcalls' := processed_of_run (hrun.append hrun') (once_start ..) (unbegun_start ..)
  have hnone : (Sys.start queue abortFlag input enqueued).processed job = 0 := by
    simp [Sys.processed, Sys.start]
  rw [hnone, Nat.zero_add] at hcalls hcalls'
  exact ⟨objects_le_of_run (hrun.append hrun') hint, hcalls ▸ hlower, hcalls' ▸ hupper⟩

/-- A pass through the main loop with the part `reduce` of a reduction, and one item processed. -/
def passReduce (r : Rank) (reduce : List (Event Nat)) : List (Event Nat) :=
  (passMain r).dropLast ++ reduce ++ [.requestSkip r, .process r [.dequeue]]

/-- Rank `0` processes one item before the reduction. -/
def beforeReport : List (Event Nat) :=
  [.begin 0 (some 1) [.enqueue 1, .enqueue 2, .enqueue 3],
    .begin 1 (some 0) [.enqueue 4, .enqueue 5]]
    ++ passReduce 0 [.reduceBegin 0 false false []]

/-- Rank `1` passes on its count after one item, and rank `0` is to add its own after two. -/
def duringReport : List (Event Nat) :=
  passReduce 0 [.reduceBegin 0 true false []] ++ passReduce 1 [.reduceBegin 1 true true []] ++
    passReduce 1 [.reduceResume 1, .reduceDone 1 []] ++
    ((passMain 0).dropLast ++ [.reduceResume 0, .reduceReply 0 true []])

theorem progress_bounds_duringReport :
    let s := countPair.once.follow .fresh beforeReport
    let t := countPair.once.follow s duringReport
    beforeReport.countP Event.processes ≤ t.reported countPair [] ∧
      t.reported countPair [] ≤ (beforeReport ++ duringReport).countP Event.processes ∧
      t.reported countPair [] = 3 ∧ beforeReport.countP Event.processes = 1 ∧
      (beforeReport ++ duringReport).countP Event.processes = 4 :=
  have hrun : countPair.once.Run .fresh beforeReport (countPair.once.follow .fresh beforeReport) :=
    .of_admits (by decide +kernel)
  have hrun' : countPair.once.Run (countPair.once.follow .fresh beforeReport) duringReport
      (countPair.once.follow (countPair.once.follow .fresh beforeReport) duringReport) :=
    .of_admits (by decide +kernel)
  have hint : ∀ r, (beforeReport ++ duringReport).countP (Event.processesOn r) ≤ int32Max :=
    fun r => List.countP_le_length.trans (by decide +kernel)
  have h := progress_bounds [] hrun (by decide +kernel) hrun' hint
    ⟨by decide +kernel, by decide +kernel, by decide +kernel⟩
  ⟨h.2.1, h.2.2, by decide +kernel, by decide +kernel, by decide +kernel⟩

end Libcircle
