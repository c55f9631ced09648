import Libcircle.System.AbortReduction
import Libcircle.System.Bytes
import Libcircle.System.Outcome

/-!
# Abort, checkpoint and restart

When a rank has called `CIRCLE_abort` and all ranks have returned from `CIRCLE_begin`,
the items that were not dequeued are in the checkpoint files (`finished_stock`).  Each
rank that reads its file with `CIRCLE_read_restarts` has the items of one queue again
(`checkpoint_restores`).  An invocation that starts with these queues and is not
aborted processes what the first one has left (`restart_completes`).
-/

namespace Libcircle

variable {α : Type*} {job : Job} {r : Rank}

/-! ## The end of an aborted invocation -/

section Finished

variable {s t : Sys α}

/-- All ranks have returned from their call of `CIRCLE_begin`. -/
def Sys.Finished (job : Job) (s : Sys α) : Prop :=
  ∀ r, r < job.size → s.stage r = .outside ∧ s.inv r = 1

theorem Sys.Finished.returned (h : s.Finished job) (hcoh : s.Coherent job) (hr : r < job.size) :
    s.Returned r :=
  .inr ⟨of_not_not fun hpc => (hcoh.ok r).stage_ne hpc (h r hr).1, (h r hr).2⟩

/-- When all ranks have finished an aborted invocation, each item enqueued is dequeued or in a
checkpoint. -/
theorem finished_stock {queue : Rank → List α} {abortFlag : Rank → Bool}
    {input : Rank → ReduceInput} {enqueued : List α} {es : List (Event α)} {a : Rank}
    (hstart : (enqueued : Multiset α) = ∑ r ∈ Finset.range job.size, (queue r : Multiset α))
    (hrun : job.once.Run (Sys.start queue abortFlag input enqueued) es t)
    (hdone : t.Finished job) (ha : a < job.size) (habort : t.abortFlag a = true) :
    (t.enqueued : Multiset α) = t.dequeued + t.checkpointed := by
  have hO : t.Once job := (waves_of_run hrun (waves_start ..)).once
  have hret := fun r (hr : r < job.size) => hdone.returned hO.coherent hr
  have hcompleted : ∀ r, r < job.size → (t.abortReduce.st r).completed ≠ 0 := fun r hr =>
    ne_of_eq_of_ne (returned_done hO (hret r hr)) Nat.one_ne_zero
  have hqueue : ∀ r, r < job.size → t.work.queue r = [] := fun r hr =>
    emptied_of_run hrun.of_restrict r (hdone r hr).1 (Nat.zero_lt_one.trans_eq (hdone r hr).2.symm)
      ((abortFlag_agrees hrun hr ha (hcompleted r hr) (hcompleted a ha)).trans habort)
  have hreplies := replies_nil_of_not_requested hO.coherent fun r hr =>
    not_requested_of_returned hO (hret r hr)
  have hflight : t.work.inFlight job.size = 0 :=
    WorkNet.inFlight_eq_zero fun r d k l hm => by simp [hreplies] at hm
  have hcons := conserved_of_run hrun.of_restrict (coherent_start ..) (conserved_start hstart)
  rw [Sys.Conserved, WorkNet.held_eq_zero hqueue, hflight] at hcons
  simpa using hcons

end Finished

/-! ## What the files restore -/

section Files

variable {s t : Sys Item} {m m₀ : Store} {env : GrowEnv} {files : Files}

/-- The system with bytes during one invocation. -/
def Job.bytesOnce (job : Job) (env : GrowEnv) : EventSystem (Sys Item × Store) (Event Item) :=
  (job.bytes env).restrict fun x e => FirstOnly x.1 e

instance (job : Job) (env : GrowEnv) (x : Sys Item × Store) (e : Event Item) :
    Decidable ((job.bytesOnce env).Enabled x e) :=
  inferInstanceAs (Decidable ((job.bytes env).Enabled x e ∧ FirstOnly x.1 e))

theorem once_of_bytesOnce {es : List (Event Item)}
    (hrun : (job.bytesOnce env).Run (s, m₀) es (t, m)) : job.once.Run s es t := by
  have henabled : ∀ x e, (job.bytesOnce env).Enabled x e → job.once.Enabled x.1 e :=
    fun _ _ h => ⟨h.1.1, h.2⟩
  exact hrun.map Prod.fst henabled fun _ _ => rfl

/-- A checkpoint restores the item. -/
def Plain (x : Item) : Prop := newline ∉ x.chars ∧ x.length ≤ maxStringLen - 2

instance (x : Item) : Decidable (Plain x) := inferInstanceAs (Decidable (_ ∧ _))

/-- Where there was no file, the one checkpoint of a rank is read. -/
theorem reads_saved {files' : Files} {r : Rank} {ls : List (List Item)} {q : Queue}
    {renv : ReadEnv} (hnone : files (filename r) = none)
    (hfile : files' (filename r) = Queue.checkpointed r ls files (filename r))
    (hlen : ls.length ≤ 1) (hroom : ∀ l ∈ ls, l.length ≤ maxItems)
    (hplain : ∀ x ∈ ls.flatten, Plain x) (hq : q.Holds []) (henv : renv.Ok) :
    q.Reads renv files' r ls.flatten.reverse := by
  match ls with
  | [] => exact (hq.reads_none (hfile.trans hnone)).mpr rfl
  | [[]] => exact (hq.reads_none (hfile.trans hnone)).mpr rfl
  | [x :: l] =>
      rw [List.flatten_singleton] at hplain ⊢
      rw [hq.reads_some henv (hfile.trans (checkpointed_cons ..)),
        textItems_checkpoint (fun y hy => (hplain y hy).1) fun y hy => (hplain y hy).2]
      exact ⟨rfl, (hroom _ (List.mem_singleton_self _)).trans (Nat.sub_le ..)⟩
  | _ :: _ :: _ => exact absurd hlen (by simp)

/-- Where there were no files, each rank reads the items of its checkpoint. -/
theorem Store.Refines.restored (h : m.Refines job files t) (hinv : ∀ r, t.inv r ≤ 1)
    (hfiles : ∀ r : Rank, r < job.size → files (filename r) = none)
    (hplain : ∀ x ∈ t.checkpointed, Plain x) :
    ∃ l : Rank → List Item,
      (t.checkpointed : Multiset Item) = ∑ r ∈ Finset.range job.size, (l r : Multiset Item) ∧
      ∀ r : Rank, r < job.size → ∀ (q : Queue) (renv : ReadEnv), q.Holds [] → renv.Ok →
        q.Reads renv m.files r (l r).reverse := by
  obtain ⟨ls, hls⟩ := h.saves
  refine ⟨fun r => (ls r).flatten, hls.total, fun r hr => ?_⟩
  have hlen : (ls r).length ≤ 1 := (hls.length_le r).trans (hinv r)
  intro q renv hq henv
  refine reads_saved (hfiles r hr) (hls.file r) hlen (hls.room r) (fun x hx => hplain x ?_) hq henv
  have hle : ((ls r).flatten : Multiset Item) ≤ t.checkpointed :=
    hls.total ▸ Finset.single_le_sum (f := fun r => ((ls r).flatten : Multiset Item))
      (fun _ _ => Multiset.zero_le _) (Finset.mem_range.mpr hr)
  exact Multiset.mem_coe.mp (Multiset.mem_of_le hle (Multiset.mem_coe.mpr hx))

/-! ## Restarts -/

section Restart

variable {queue : Rank → List Item} {abortFlag : Rank → Bool} {input : Rank → ReduceInput}
  {enqueued : List Item} {es : List (Event Item)} {a : Rank}
  (henv : env.strings = true ∧ env.base = true)
  (hstart : (enqueued : Multiset Item) = ∑ r ∈ Finset.range job.size, (queue r : Multiset Item))
  (hqueue : ∀ r, (m₀.queue r).Stores (queue r)) (hreplies : m₀.replies = .empty)
  (hdequeued : m₀.dequeued = [])
  (hfiles : ∀ r : Rank, r < job.size → m₀.files (filename r) = none)
  (hrun : (job.bytesOnce env).Run (Sys.start queue abortFlag input enqueued, m₀) es (t, m))
  (hdone : t.Finished job) (ha : a < job.size) (habort : t.abortFlag a = true)
  (hplain : ∀ x ∈ t.enqueued, Plain x)
include henv hstart hqueue hreplies hdequeued hfiles hrun hdone ha habort hplain

theorem restored_of_run :
    ∃ l : Rank → List Item,
      (t.checkpointed : Multiset Item) = ∑ r ∈ Finset.range job.size, (l r : Multiset Item) ∧
      (t.enqueued : Multiset Item) = m.dequeued + t.checkpointed ∧
      ∀ r : Rank, r < job.size → ∀ (q : Queue) (renv : ReadEnv), q.Holds [] → renv.Ok →
        q.Reads renv m.files r (l r).reverse := by
  have honce := once_of_bytesOnce hrun
  have hO : t.Once job := (waves_of_run honce (waves_start ..)).once
  have hrefines := (refines_of_run henv hrun.of_restrict (coherent_start ..)
    (refines_start hqueue hreplies hdequeued)).2
  have hstock := finished_stock hstart honce hdone ha habort
  have hmem : ∀ x ∈ t.checkpointed, Plain x := fun x hx => hplain x <| by
    rw [← Multiset.mem_coe, hstock]
    exact Multiset.mem_add.mpr (.inr hx)
  obtain ⟨l, htotal, hread⟩ := hrefines.restored hO.inv_le hfiles hmem
  exact ⟨l, htotal, by rw [hstock, hrefines.dequeued], hread⟩

/-- Abort and checkpoint lose no work.  In one invocation that starts with no message in flight
and no file of a rank, some rank has its flag set and all ranks have returned.  Then the strings
enqueued are those dequeued and those that the ranks read back from their files, each into any
empty queue.  No string has a newline or fills the buffer of `fgets`. -/
theorem checkpoint_restores :
    ∃ l : Rank → List Item,
      (t.enqueued : Multiset Item) =
        m.dequeued + ∑ r ∈ Finset.range job.size, (l r : Multiset Item) ∧
      ∀ r : Rank, r < job.size → ∀ (q : Queue) (renv : ReadEnv), q.Holds [] → renv.Ok →
        q.Reads renv m.files r (l r).reverse := by
  obtain ⟨l, htotal, hstock, hread⟩ := restored_of_run henv hstart hqueue hreplies hdequeued
    hfiles hrun hdone ha habort hplain
  exact ⟨l, by rw [hstock, htotal], hread⟩

/-- A restart completes the work.  After such an invocation the ranks read their files, and make
another invocation, with tree termination and no abort.  From the moment one rank has left the
main loop there, the strings dequeued in both invocations are those enqueued in both, where the
strings read back do not count as enqueued again. -/
theorem restart_completes {job' : Job} {env' : GrowEnv} {m₁ m₂ : Store} {u : Sys Item}
    {queue' : Rank → List Item} {input' : Rank → ReduceInput} {enqueued' : List Item}
    {fs : List (Event Item)} {x : Rank} (hsize : job'.size = job.size)
    (ht : (job'.opts 1).termTree = true) (henv' : env'.strings = true ∧ env'.base = true)
    (hread : ∀ r : Rank, r < job.size → ∃ (q : Queue) (renv : ReadEnv) (b : Bool),
      q.Holds [] ∧ renv.Ok ∧ q.read renv m.files r = some (b, m₁.queue r))
    (hqueue' : ∀ r, (m₁.queue r).Stores (queue' r)) (hreplies' : m₁.replies = .empty)
    (hdequeued' : m₁.dequeued = [])
    (hstart' : (enqueued' : Multiset Item) =
      ∑ r ∈ Finset.range job'.size, (queue' r : Multiset Item))
    (hrun' : (job'.bytesOnce env').Run
      (Sys.start queue' (fun _ => false) input' enqueued', m₁) fs (u, m₂))
    (hcalls : ∀ e ∈ fs, e.aborts = false) (hleft : u.Left x) :
    (m.dequeued + m₂.dequeued + enqueued' : Multiset Item) = t.enqueued + u.enqueued := by
  obtain ⟨l, htotal, hstock, hreads⟩ := restored_of_run henv hstart hqueue hreplies hdequeued
    hfiles hrun hdone ha habort hplain
  -- each rank has in its queue what its file restores
  have hl : ∀ r, r < job.size → queue' r = l r := fun r hr => by
    obtain ⟨q, renv, b, hq, hrenv, hres⟩ := hread r hr
    obtain ⟨b', q', hres', hq'⟩ := hreads r hr q renv hq hrenv
    obtain ⟨_, rfl⟩ := Prod.mk.inj (Option.some.inj (hres.symm.trans hres'))
    exact List.reverse_inj.mp ((hqueue' r).1.unique hq')
  have hrest : (enqueued' : Multiset Item) = t.checkpointed := by
    rw [hstart', htotal, hsize]
    exact Finset.sum_congr rfl fun r hr => by rw [hl r (Finset.mem_range.mp hr)]
  have hbytes := (refines_of_run henv' hrun'.of_restrict (coherent_start ..)
    (refines_start hqueue' hreplies' hdequeued')).2
  have hprocessed := (processed_of_left ht hstart' (once_of_bytesOnce hrun') hcalls hleft).1
  rw [hrest, hstock, hbytes.dequeued, ← hprocessed]
  abel

end Restart

end Files

/-! ## Two ranks -/

/-- Rank `0` enqueues the words and hands one to rank `1`.  It dequeues one of the rest and calls
`CIRCLE_abort`. -/
def abortWords : List (Event Item) :=
  List.flatten
    [handoverOf words, [.workreceiptDone 0, .worksendDone 0], passAbort 0 none false,
      [.requestSkip 0, .process 0 [.dequeue, .abort]], abortFinish, [.finish 1]]

theorem abortWords_run :
    (treePair.bytesOnce {}).Run (.fresh, blankStore) abortWords
      ((treePair.bytesOnce {}).follow (.fresh, blankStore) abortWords) :=
  .of_admits (by decide +kernel)

theorem abortWords_finished :
    ((treePair.bytesOnce {}).follow (.fresh, blankStore) abortWords).1.Finished treePair := by
  change ∀ r < 2, _
  decide +kernel

theorem checkpoint_restores_abortWords :
    let x := (treePair.bytesOnce {}).follow (.fresh, blankStore) abortWords
    x.2.dequeued = [CStr.ofBuffer [99, 99, 99]] ∧ ∃ l : Rank → List Item,
      (x.1.enqueued : Multiset Item) =
        x.2.dequeued + ∑ r ∈ Finset.range 2, (l r : Multiset Item) ∧
      ∀ r : Rank, r < 2 → (blankQueue 0 1).Reads {} x.2.files r (l r).reverse :=
  have ⟨l, hl, hreads⟩ := checkpoint_restores (a := 0) ⟨rfl, rfl⟩ rfl (fun _ => blank_stores) rfl
    rfl (fun _ _ => rfl) abortWords_run abortWords_finished (by decide) (by decide +kernel)
    (by decide +kernel)
  ⟨by decide +kernel, l, hl, fun r hr =>
    hreads r hr _ {} blank_stores.1 ⟨rfl, fun _ => ⟨rfl, rfl⟩, rfl⟩⟩

/-- The two ranks have read their files. -/
def restarted (files : Files) : Store :=
  { blankStore with
    queue := fun r =>
      if r < 2 then
        (((blankQueue 0 1).read { grow := fun _ => .ok } files r).map Prod.snd).getD
          (blankQueue 0 1)
      else blankQueue 0 1
    files := files }

/-- What the ranks have read. -/
def readBack : Rank → List Item
  | 0 => [CStr.ofBuffer [98, 98], CStr.ofBuffer [97]]
  | 1 => [CStr.ofBuffer [100]]
  | _ => []

theorem restarted_queue {files : Files} {r : Rank} {l : List Item} (hr : r < 2)
    (hfile : files (filename r) = some (checkpoint l)) (hplain : ∀ x ∈ l, Plain x)
    (hroom : l.length ≤ maxItems) :
    (blankQueue 0 1).read {} files r = some (true, (restarted files).queue r) ∧
      ((restarted files).queue r).Stores l := by
  have htext : textItems (checkpoint l) = l :=
    textItems_checkpoint (fun x hx => (hplain x hx).1) fun x hx => (hplain x hx).2
  have henv : ({ grow := fun _ => .ok } : ReadEnv).Ok := ⟨rfl, fun _ => ⟨rfl, rfl⟩, rfl⟩
  obtain ⟨q, hread, hq⟩ := blank_stores.1.read henv hfile
    (by rw [htext]; exact hroom.trans (Nat.sub_le ..))
  have hqueue : (restarted files).queue r = q := by
    simp only [restarted, if_pos hr, hread, Option.map_some, Option.getD_some]
  rw [htext, List.reverse_nil, List.append_nil] at hq
  rw [hqueue]
  exact ⟨hread, hq, hroom⟩

/-- Both ranks dequeue what they have read back, and rank `0` leaves the main loop. -/
def resumeWords : List (Event Item) :=
  List.flatten
    [[.begin 0 (some 1) [], .begin 1 (some 0) []], passMain 0,
      [.requestSkip 0, .process 0 [.dequeue, .dequeue]], passMain 1,
      [.requestSkip 1, .process 1 [.dequeue]], passMain 1, [.requestSend 1 true (some 0)],
      passTerm 1 false, passMain 0,
      [.requestSend 0 true (some 1), .checkForTerm 0, .termReply 0 1, .termRepliesDone 0,
        .termUp 0]]

theorem restart_completes_resumeWords :
    let x := (treePair.bytesOnce {}).follow (.fresh, blankStore) abortWords
    let y := (treePair.bytesOnce {}).follow
      (.start readBack (fun _ => false) (fun _ => {}) (readBack 0 ++ readBack 1),
        restarted x.2.files) resumeWords
    x.1.enqueued.length = 4 ∧ y.1.enqueued = readBack 0 ++ readBack 1 ∧
      (x.2.dequeued + y.2.dequeued + (readBack 0 ++ readBack 1 : List Item) : Multiset Item) =
        x.1.enqueued + y.1.enqueued := by
  intro x y
  have hfile : ∀ r : Rank, r < 2 →
      x.2.files (filename r) = some (checkpoint (readBack r)) := by decide +kernel
  have hplain' : ∀ r < 2, ∀ z ∈ readBack r, Plain z := by decide +kernel
  have hroom : ∀ r < 2, (readBack r).length ≤ maxItems := by decide
  have hqueues : ∀ r : Rank, r < 2 →
      (blankQueue 0 1).read {} x.2.files r = some (true, (restarted x.2.files).queue r) ∧
        ((restarted x.2.files).queue r).Stores (readBack r) := fun r hr =>
    restarted_queue hr (hfile r hr) (hplain' r hr) (hroom r hr)
  have hread : ∀ r : Rank, r < treePair.size → ∃ (q : Queue) (renv : ReadEnv) (b : Bool),
      q.Holds [] ∧ renv.Ok ∧
        q.read renv x.2.files r = some (b, (restarted x.2.files).queue r) := fun r hr =>
    ⟨_, {}, _, blank_stores.1, ⟨rfl, fun _ => ⟨rfl, rfl⟩, rfl⟩, (hqueues r hr).1⟩
  have hstores : ∀ r, ((restarted x.2.files).queue r).Stores (readBack r) := fun r => by
    by_cases hr : r < 2
    · exact (hqueues r hr).2
    · obtain ⟨k, rfl⟩ := Nat.exists_eq_add_of_le (Nat.le_of_not_lt hr)
      rw [show readBack (2 + k) = [] by rw [Nat.add_comm]; rfl,
        show (restarted x.2.files).queue (2 + k) = blankQueue 0 1 from if_neg hr]
      exact blank_stores
  have hrun : (treePair.bytesOnce {}).Run
      (.start readBack (fun _ => false) (fun _ => {}) (readBack 0 ++ readBack 1),
        restarted x.2.files) resumeWords y := .of_admits (by decide +kernel)
  have hleft : y.1.Left 0 := ⟨by decide +kernel, by decide +kernel⟩
  have habort : x.1.abortFlag 0 = true := by decide +kernel
  have hplain : ∀ z ∈ x.1.enqueued, Plain z := by decide +kernel
  have hrun₁ : (treePair.bytesOnce {}).Run (.fresh, blankStore) abortWords x := abortWords_run
  have hdone : x.1.Finished treePair := abortWords_finished
  have hlen : x.1.enqueued.length = 4 := by decide +kernel
  have henqueued : y.1.enqueued = readBack 0 ++ readBack 1 := by decide +kernel
  clear_value y x
  exact ⟨hlen, henqueued, restart_completes (a := 0) ⟨rfl, rfl⟩ rfl (fun _ => blank_stores) rfl rfl
    (fun _ _ => rfl) hrun₁ hdone (by decide) habort hplain rfl rfl ⟨rfl, rfl⟩ hread hstores rfl
    rfl (by simp [Finset.sum_range_succ, treePair, Job.uniform]) hrun (by decide +kernel) hleft⟩

end Libcircle
