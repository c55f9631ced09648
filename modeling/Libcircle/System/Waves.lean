import Libcircle.System.Receipts

/-!
# The collective operations of one invocation are waves

The termination allreduce, the cleanup barrier and the abort reduction use the
tree of the invocation.  Each is read as a `Wave` on that tree, and every event
is one of its moves or leaves it alone.  So the invariant of waves holds for all
three along every run of one invocation.

`Job.once` is the system in which every rank calls `CIRCLE_begin` at most once,
starting with nothing in flight.
-/

namespace Libcircle

variable {α : Type*} {job : Job} {s t : Sys α} {e : Event α} {r p x : Rank}

/-! ## One invocation -/

/-- A rank starts its first invocation only. -/
def FirstOnly (s : Sys α) : Event α → Prop
  | .begin r _ _ => s.inv r = 0
  | _ => True

instance (s : Sys α) : ∀ e, Decidable (FirstOnly s e)
  | .begin .. => inferInstanceAs (Decidable (_ = _))
  | .workreq .. | .workreqDone .. | .sendWork .. | .sendNoWork .. | .workreceipt ..
  | .workreceiptDone .. | .worksend .. | .worksendDone .. | .abortStart .. | .abortRequest ..
  | .abortReplies .. | .reduceSkip .. | .reduceResume .. | .reduceBegin .. | .reduceReply ..
  | .reduceDone .. | .requestSkip .. | .requestReply .. | .requestSend .. | .requestNone ..
  | .process .. | .checkForTerm .. | .termReply .. | .termRepliesDone .. | .termUp ..
  | .termDown .. | .token .. | .barrierStart .. | .barrierReply .. | .barrierUp ..
  | .barrierDown .. | .tokenDrain .. | .worksendWait .. | .reduceSync .. | .reduceSyncReply ..
  | .reduceSyncDone .. | .abortReduceReply .. | .abortReduceUp .. | .abortReduceDown ..
  | .finish .. => .isTrue trivial

/-- The system during one invocation. -/
def Job.once (job : Job) : EventSystem (Sys α) (Event α) := job.step.restrict FirstOnly

instance (s : Sys α) (e : Event α) : Decidable (job.once.Enabled s e) :=
  inferInstanceAs (Decidable (s.Enabled job e ∧ FirstOnly s e))

/-- A coherent state in the first invocation. -/
structure Sys.Once (job : Job) (s : Sys α) : Prop where
  coherent : s.Coherent job
  inv_le : ∀ r, s.inv r ≤ 1

theorem once_start (queue : Rank → List α) (abortFlag : Rank → Bool)
    (input : Rank → ReduceInput) (enqueued : List α) :
    (Sys.start queue abortFlag input enqueued).Once job :=
  ⟨coherent_start .., fun _ => Nat.zero_le _⟩

theorem once_next (he : s.Enabled job e) (hf : FirstOnly s e) (h : s.Once job) :
    (s.next job e).Once job := by
  refine ⟨coherent_next he h.coherent, fun a => ?_⟩
  cases e with
  | begin r next ops =>
      by_cases ha : a = r
      · subst ha
        simp [Sys.next, show s.inv a = 0 from hf]
      · simpa [Sys.next, Function.update_of_ne ha] using h.inv_le a
  | _ => exact h.inv_le a

namespace Sys.Once

theorem inv_eq (h : s.Once job) (hst : s.stage r ≠ .outside) : s.inv r = 1 := by
  have hpos : 0 < s.inv r := (h.coherent.ok r).tidy.inv_pos hst
  have := h.inv_le r
  omega

/-- The ranks in the main loop are in the first invocation. -/
theorem main_eq (h : s.Once job) (r : Rank) (hst : s.stage r = .main) : s.inv r = 1 :=
  h.inv_eq (by simp [hst])

theorem tree_eq (h : s.Once job) (hst : s.stage r ≠ .outside) :
    s.tree job r = job.tree 1 r := by
  rw [Sys.tree, h.inv_eq hst]

end Sys.Once

/-- The tree of invocation `k`. -/
def Job.trees (job : Job) (k : Nat) : ParentTree Rank :=
  rankTree job.size (job.opts k).treeWidth job.size_pos (job.opts k).treeWidth_pos

theorem Job.mem_trees_children {k : Nat} (hr : r < job.size)
    (hp : (job.tree k r).parentRank = some p) : r ∈ (job.trees k).children p :=
  ((job.trees k).mem_children p r).mpr ⟨hr, hp⟩

theorem Job.eq_trees_root {k : Nat} (hr : r < job.size) (hp : (job.tree k r).parentRank = none) :
    r = (job.trees k).root :=
  (job.trees k).eq_root r hr hp

/-- The tree of the first invocation. -/
def Job.rootedTree (job : Job) : ParentTree Rank :=
  rankTree job.size (job.opts 1).treeWidth job.size_pos (job.opts 1).treeWidth_pos

/-! ## The termination allreduce -/

theorem update_proj {V X Y : Type*} [DecidableEq V] (f : X → Y) (g : V → X) (v : V) (y : X) :
    (fun a => f (Function.update g v y a)) = Function.update (fun a => f (g a)) v (f y) :=
  Function.comp_update f g v y

/-- An update that does not change a field of the state. -/
theorem update_proj_same {V X Y : Type*} [DecidableEq V] (f : X → Y) (g : V → X) (v : V) {y : X}
    (h : f y = f (g v)) : (fun a => f (Function.update g v y a)) = fun a => f (g a) := by
  rw [update_proj, h]
  exact Function.update_eq_self v fun a => f (g a)

namespace TermNet

/-- The allreduce as a wave. -/
def wave (y : TermNet) : Wave Rank Bool where
  done r := (y.st r).rounds
  up r := (y.st r).termUp
  replies r := (y.st r).termReplies
  net := y.net

variable (y : TermNet) (t : TreeState)

theorem wave_clearFlag : (y.clearFlag r).wave = y.wave := by
  simp only [wave, clearFlag, set]
  congr 1 <;> exact update_proj_same _ _ _ rfl

theorem wave_init (h : (y.st r).termUp = false ∧ (y.st r).termReplies = 0) :
    (y.init r).wave = y.wave := by
  simp only [wave, init, set]
  congr 1
  · exact update_proj_same _ _ _ rfl
  · exact update_proj_same Term.termUp _ _ h.1.symm
  · exact update_proj_same Term.termReplies _ _ h.2.symm

theorem wave_recvFlag (src : Rank) (flag : Bool) :
    (y.recvFlag r src flag).wave = y.wave.recv r src := by
  simp only [wave, recvFlag, Wave.recv]
  congr 1
  · exact update_proj_same _ _ _ rfl
  · exact update_proj_same _ _ _ rfl
  · exact update_proj _ _ _ _

theorem wave_sendUp (p : Rank) :
    (y.sendUp r p).wave = y.wave.send r p (y.st r).termFlag := by
  simp only [wave, sendUp, Wave.send]
  congr 1
  · exact update_proj_same _ _ _ rfl
  · exact update_proj _ _ _ _
  · exact update_proj_same _ _ _ rfl

theorem wave_complete (flag : Bool) :
    (y.complete t r flag).wave = y.wave.release r t.childRanks flag := by
  simp only [wave, complete, Wave.release]
  congr 1 <;> exact update_proj _ _ _ _

theorem wave_completeRoot :
    (y.completeRoot t r).wave = y.wave.release r t.childRanks (y.st r).termFlag := by
  rw [completeRoot, wave_complete]
  congr 1
  simp only [wave, set]
  congr 1 <;> exact update_proj_same _ _ _ rfl

theorem wave_recvResult (p : Rank) (flag : Bool) :
    (y.recvResult t r p flag).wave = y.wave.answer p r t.childRanks flag := by
  rw [recvResult, wave_complete]
  rfl

end TermNet

/-- A position other than `idle` is inside an invocation. -/
theorem Sys.Ok.stage_ne (h : s.Ok job r) (hpc : s.pc r ≠ .idle) : s.stage r ≠ .outside := by
  have hat := h.position
  intro hst
  have hl : (s.loc r).stage = .outside := hst
  cases hp : s.pc r with
  | idle => exact hpc hp
  | _ =>
      rw [hp] at hat
      simp [Loc.At, Loc.Looping, hl] at hat

theorem Job.mem_children (hr : r < job.size) (hp : (job.tree 1 r).parentRank = some p) :
    r ∈ job.rootedTree.children p :=
  (job.rootedTree.mem_children p r).mpr ⟨hr, hp⟩

theorem Job.eq_root (hr : r < job.size) (hp : (job.tree 1 r).parentRank = none) :
    r = job.rootedTree.root :=
  job.rootedTree.eq_root r hr hp

theorem Job.rootedTree_wf (job : Job) : WellFounded fun c p => c ∈ job.rootedTree.children p :=
  rankTree_wf job.size_pos (job.opts 1).treeWidth_pos

theorem termWave_start (queue : Rank → List α) (abortFlag : Rank → Bool)
    (input : Rank → ReduceInput) (enqueued : List α) :
    (Sys.start queue abortFlag input enqueued).term.wave.Inv job.rootedTree :=
  Wave.inv_initial (fun _ _ => rfl) (fun _ => rfl) (fun _ => rfl) fun _ _ => rfl

/-- Every event is a move of the termination wave, or leaves it alone, where the ranks in the
main loop are all in invocation `k`. -/
theorem termWave_next {k : Nat} (he : s.Enabled job e) (hcoh : s.Coherent job)
    (hk : ∀ r, s.stage r = .main → s.inv r = k) (h : s.term.wave.Inv (job.trees k)) :
    (s.next job e).term.wave.Inv (job.trees k) := by
  have hlt := (hcoh.ok _).rank_lt he
  have hat := (hcoh.ok e.rank).position
  have htree : ∀ r, s.stage r = .main → s.tree job r = job.tree k r := fun r hst => by
    rw [Sys.tree, hk r hst]
  cases e with
  | begin r next ops =>
      have hst := ((hcoh.ok r).requested_of_idle he.1).1
      have hreset := (hcoh.ok r).tidy.term_reset (.inl (by simp [Sys.loc, hst]))
      exact (TermNet.wave_init s.term hreset).symm ▸ h
  | workreceipt r src => exact (TermNet.wave_clearFlag s.term).symm ▸ h
  | termReply r src =>
      obtain ⟨hpc, hpend, hm⟩ := he
      rw [show s.pc (Event.termReply (α := α) r src).rank = _ from hpc] at hat
      rw [htree r hat.1] at hpend
      simp only [Sys.next, TermNet.wave_recvFlag]
      exact h.recv (h.child_of_pending hpend hm) hm
  | termUp r =>
      rw [show s.pc (Event.termUp (α := α) r).rank = _ from he] at hat
      simp only [Sys.next, htree r hat.1]
      obtain ⟨_, hy⟩ | ⟨p, hready, hp, hy⟩ | ⟨hready, hp, hy⟩ :=
        s.term.report_cases (job.tree k r) r
      · rwa [hy]
      · rw [hy, TermNet.wave_sendUp]
        exact h.send (job.mem_trees_children hlt hp) hready.1 (h.counted_of_replies hready.2) _
      · rw [hy, TermNet.wave_completeRoot]
        obtain rfl := job.eq_trees_root hlt hp
        exact h.release_root (h.counted_of_replies hready.2) _
  | termDown r hit =>
      obtain ⟨hpc, hhit⟩ := he
      rw [show s.pc (Event.termDown (α := α) r hit).rank = _ from hpc] at hat
      rw [htree r hat.1] at hhit
      simp only [Sys.next, htree r hat.1]
      obtain hy | ⟨p, hp, rfl, hy⟩ := s.term.await_cases (job.tree k r) r hit
      · rwa [hy]
      · obtain ⟨p', hp', hm⟩ := TreeState.parentSent_iff.mp (hhit rfl).2
        obtain rfl : p = p' := Option.some.inj (hp.symm.trans hp')
        rw [hy, TermNet.wave_recvResult]
        exact h.answer (job.mem_trees_children hlt hp) hm _
  | _ => exact h

/-! ## The cleanup barrier -/

namespace BarrierNet

/-- The barrier as a wave. -/
def wave (y : BarrierNet) : Wave Rank Unit where
  done r := (y.st r).completed
  up r := (y.st r).barrierUp
  replies r := (y.st r).barrierReplies
  net := y.net

variable (y : BarrierNet) (t : TreeState)

theorem wave_init (h : (y.st r).barrierUp = false ∧ (y.st r).barrierReplies = 0) :
    (y.init r).wave = y.wave := by
  simp only [wave, init, set]
  congr 1
  · exact update_proj_same _ _ _ rfl
  · exact update_proj_same Barrier.barrierUp _ _ h.1.symm
  · exact update_proj_same Barrier.barrierReplies _ _ h.2.symm

theorem wave_barrierStart : (y.barrierStart r).wave = y.wave := by
  simp only [wave, barrierStart, set]
  congr 1 <;> exact update_proj_same _ _ _ rfl

theorem wave_recvArrival (src : Rank) : (y.recvArrival r src).wave = y.wave.recv r src := by
  simp only [wave, recvArrival, Wave.recv]
  congr 1
  · exact update_proj_same _ _ _ rfl
  · exact update_proj_same _ _ _ rfl
  · exact update_proj _ _ _ _

theorem wave_sendUp (p : Rank) : (y.sendUp r p).wave = y.wave.send r p () := by
  simp only [wave, sendUp, Wave.send]
  congr 1
  · exact update_proj_same _ _ _ rfl
  · exact update_proj _ _ _ _
  · exact update_proj_same _ _ _ rfl

theorem wave_complete : (y.complete t r).wave = y.wave.release r t.childRanks () := by
  simp only [wave, complete, Wave.release]
  congr 1 <;> exact update_proj _ _ _ _

theorem wave_recvRelease (p : Rank) :
    (y.recvRelease t r p).wave = y.wave.answer p r t.childRanks () := by
  rw [recvRelease, wave_complete]
  rfl

end BarrierNet

theorem barrierWave_start (queue : Rank → List α) (abortFlag : Rank → Bool)
    (input : Rank → ReduceInput) (enqueued : List α) :
    (Sys.start queue abortFlag input enqueued).barrier.wave.Inv job.rootedTree :=
  Wave.inv_initial (fun _ _ => rfl) (fun _ => rfl) (fun _ => rfl) fun _ _ => rfl

/-- Every event is a move of the barrier wave, or leaves it alone. -/
theorem barrierWave_next (he : s.Enabled job e) (hO : s.Once job)
    (h : s.barrier.wave.Inv job.rootedTree) :
    (s.next job e).barrier.wave.Inv job.rootedTree := by
  have hlt := (hO.coherent.ok _).rank_lt he
  cases e with
  | begin r next ops =>
      have hst := ((hO.coherent.ok r).requested_of_idle he.1).1
      have hnot := (hO.coherent.ok r).tidy.barrier_reset (by simp [Sys.loc, hst])
      have hreset := (hO.coherent.ok r).tidy.barrier_started hnot
      exact (BarrierNet.wave_init s.barrier hreset).symm ▸ h
  | barrierStart r =>
      simp only [Sys.next]
      split
      · exact (BarrierNet.wave_barrierStart s.barrier).symm ▸ h
      · exact h
  | barrierReply r src =>
      obtain ⟨hpc, hsrc⟩ := he
      cases src with
      | none => exact h
      | some q =>
          obtain ⟨hpend, hm⟩ := hsrc q (by simp)
          have htree := hO.tree_eq ((hO.coherent.ok r).stage_ne (by simp [hpc]))
          rw [htree] at hpend
          simp only [Sys.next, BarrierNet.wave_recvArrival]
          exact h.recv (h.child_of_pending hpend hm) hm
  | barrierUp r =>
      have hpc : s.pc r = .barrierUp := he
      have htree := hO.tree_eq ((hO.coherent.ok r).stage_ne (by simp [hpc]))
      simp only [Sys.next, htree]
      obtain ⟨_, hy⟩ | ⟨p, hready, hp, hy⟩ | ⟨hready, hp, hy⟩ :=
        s.barrier.report_cases (job.tree 1 r) r
      · rwa [hy]
      · rw [hy, BarrierNet.wave_sendUp]
        exact h.send (job.mem_children hlt hp) hready.1 (h.counted_of_replies hready.2) _
      · rw [hy, BarrierNet.wave_complete]
        obtain rfl := job.eq_root hlt hp
        exact h.release_root (h.counted_of_replies hready.2) _
  | barrierDown r hit =>
      obtain ⟨hpc, hhit⟩ := he
      have htree := hO.tree_eq ((hO.coherent.ok r).stage_ne (by simp [hpc]))
      rw [htree] at hhit
      simp only [Sys.next, htree]
      obtain hy | ⟨p, hp, rfl, hy⟩ := s.barrier.await_cases (job.tree 1 r) r hit
      · rwa [hy]
      · obtain ⟨p', hp', hm⟩ := TreeState.parentSent_iff.mp (hhit rfl).2
        obtain rfl : p = p' := Option.some.inj (hp.symm.trans hp')
        rw [hy, BarrierNet.wave_recvRelease]
        exact h.answer (job.mem_children hlt hp) hm _
  | _ => exact h

/-! ## The abort reduction -/

namespace AbortReduceNet

/-- The abort reduction as a wave. -/
def wave (y : AbortReduceNet) : Wave Rank Bool where
  done r := (y.st r).completed
  up r := (y.st r).waiting
  replies r := (y.st r).index
  net := y.net

variable (y : AbortReduceNet) (t : TreeState)

theorem wave_enter (flag : Bool) : (y.enter r flag).wave = y.wave := by
  simp only [wave, enter]
  congr 1 <;> exact update_proj_same _ _ _ rfl

theorem wave_recvFlag (child : Rank) (flag : Bool) :
    (y.recvFlag r child flag).wave = y.wave.recv r child := by
  simp only [wave, recvFlag, Wave.recv]
  congr 1
  · exact update_proj_same _ _ _ rfl
  · exact update_proj_same _ _ _ rfl
  · exact update_proj _ _ _ _

theorem wave_sendUp (p : Rank) :
    (y.sendUp r p).wave = y.wave.send r p (y.st r).flag := by
  simp only [wave, sendUp, Wave.send]
  congr 1
  · exact update_proj_same _ _ _ rfl
  · exact update_proj _ _ _ _
  · exact update_proj_same _ _ _ rfl

theorem wave_complete (flag : Bool) :
    (y.complete t r flag).wave = y.wave.release r t.childRanks flag := by
  simp only [wave, complete, Wave.release]
  congr 1 <;> exact update_proj _ _ _ _

theorem wave_recvResult (p : Rank) (flag : Bool) :
    (y.recvResult t r p flag).wave = y.wave.answer p r t.childRanks flag := by
  rw [recvResult, wave_complete]
  rfl

end AbortReduceNet

theorem abortWave_start (queue : Rank → List α) (abortFlag : Rank → Bool)
    (input : Rank → ReduceInput) (enqueued : List α) :
    (Sys.start queue abortFlag input enqueued).abortReduce.wave.Inv job.rootedTree :=
  Wave.inv_initial (fun _ _ => rfl) (fun _ => rfl) (fun _ => rfl) fun _ _ => rfl

theorem TreeState.child_getElem? {t : TreeState} {i : Nat} (h : i < t.children) :
    t.childRanks[i]? = some (t.child i) := by
  rw [TreeState.child, List.getD_eq_getElem?_getD, List.getElem?_eq_getElem h]
  rfl

theorem TreeState.child_mem {t : TreeState} {i : Nat} (h : i < t.children) :
    t.child i ∈ t.childRanks :=
  List.mem_of_getElem? (TreeState.child_getElem? h)

/-- Every event is a move of the abort wave, or leaves it alone. -/
theorem abortWave_next (he : s.Enabled job e) (hO : s.Once job)
    (h : s.abortReduce.wave.Inv job.rootedTree) :
    (s.next job e).abortReduce.wave.Inv job.rootedTree := by
  have hlt := (hO.coherent.ok _).rank_lt he
  cases e with
  | worksendWait r => exact (AbortReduceNet.wave_enter s.abortReduce _).symm ▸ h
  | reduceSyncDone r calls => exact (AbortReduceNet.wave_enter s.abortReduce _).symm ▸ h
  | abortReduceReply r =>
      obtain ⟨hpc, hindex, hm⟩ := he
      have htree := hO.tree_eq ((hO.coherent.ok r).stage_ne (by simp [hpc]))
      rw [htree] at hindex hm
      simp only [Sys.next, AbortReduceNet.wave_recvFlag, htree]
      exact h.recv (TreeState.child_mem hindex) hm
  | abortReduceUp r =>
      obtain ⟨hpc, hindex⟩ := he
      have hok := hO.coherent.ok r
      have htree := hO.tree_eq (hok.stage_ne (by simp [hpc]))
      have hat := hok.position
      rw [hpc] at hat
      rw [htree] at hindex
      simp only [Sys.next, htree]
      obtain ⟨p, hp, hy⟩ | ⟨hp, hy⟩ := s.abortReduce.report_cases (job.tree 1 r) r
      · rw [hy, AbortReduceNet.wave_sendUp]
        exact h.send (job.mem_children hlt hp) hat.2.2.1 (h.counted_of_replies hindex) _
      · rw [hy, AbortReduceNet.wave_complete]
        obtain rfl := job.eq_root hlt hp
        exact h.release_root (h.counted_of_replies hindex) _
  | abortReduceDown r =>
      obtain ⟨hpc, hsent⟩ := he
      have htree := hO.tree_eq ((hO.coherent.ok r).stage_ne (by simp [hpc]))
      rw [htree] at hsent
      obtain ⟨p, hp, hm⟩ := TreeState.parentSent_iff.mp hsent
      simp only [Sys.next, htree, AbortReduceNet.await_eq _ _ _ hp,
        AbortReduceNet.wave_recvResult]
      exact h.answer (job.mem_children hlt hp) hm _
  | _ => exact h

/-! ## Runs -/

/-- The three waves of one invocation. -/
structure Sys.Waves (job : Job) (s : Sys α) : Prop where
  once : s.Once job
  term : s.term.wave.Inv job.rootedTree
  barrier : s.barrier.wave.Inv job.rootedTree
  abort : s.abortReduce.wave.Inv job.rootedTree

theorem waves_start (queue : Rank → List α) (abortFlag : Rank → Bool)
    (input : Rank → ReduceInput) (enqueued : List α) :
    (Sys.start queue abortFlag input enqueued).Waves job :=
  ⟨once_start .., termWave_start .., barrierWave_start .., abortWave_start ..⟩

theorem waves_next (he : s.Enabled job e) (hf : FirstOnly s e) (h : s.Waves job) :
    (s.next job e).Waves job :=
  ⟨once_next he hf h.once, termWave_next he h.once.coherent h.once.main_eq h.term,
    barrierWave_next he h.once h.barrier, abortWave_next he h.once h.abort⟩

theorem waves_of_run {es : List (Event α)} (hrun : job.once.Run s es t) (h : s.Waves job) :
    t.Waves job :=
  EventSystem.Run.restrict_invariant (fun _ _ hI hE hC => waves_next hE hC hI) hrun h

/-! ## An abort on two ranks -/

/-- Two ranks with tree termination. -/
def treePair : Job := .uniform 2 ⟨true, false, false, false, 64, treeWidth_init_pos⟩ Nat.two_pos

/-- From `CIRCLE_abort_check` to `CIRCLE_request_work`, where `r` receives the abort request of
`src`, and the replies to its own requests or not. -/
def passAbort {α : Type*} (r : Rank) (src : Option Rank) (done : Bool) : List (Event α) :=
  [.abortStart r, .abortRequest r src, .abortReplies r done, .reduceSkip r]

/-- Rank `r`, which has no children, takes part in the termination allreduce. -/
def passTerm {α : Type*} (r : Rank) (hit : Bool) : List (Event α) :=
  [.checkForTerm r, .termRepliesDone r, .termUp r, .termDown r hit]

/-- Rank `0` hands an item to rank `1` and calls `CIRCLE_abort` in its first process callback, while
that item is on its way and another is in its queue. -/
def abortEarly : List (Event Nat) :=
  List.flatten
    [handover, [.workreceiptDone 0, .worksendDone 0], passAbort 0 none false,
      [.requestSkip 0, .process 0 [.abort]]]

/-- The abort spreads and the item arrives.  The first round of the allreduce fails, and the second
is about to succeed. -/
def abortRound {α : Type*} : List (Event α) :=
  List.flatten
    [passMain 0, [.requestSkip 0, .checkForTerm 0, .termRepliesDone 0], passTerm 1 false,
      [.workreqDone 1 0, .workreceiptDone 1, .worksendDone 1], passAbort 1 (some 0) false,
      [.requestReply 1 true], passTerm 1 false,
      [.workreqDone 0 0, .workreceipt 0 1, .workreceiptDone 0, .worksend 0 0, .worksend 0 0,
        .worksendDone 0],
      passAbort 0 (some 1) true,
      [.requestSkip 0, .checkForTerm 0, .termReply 0 1, .termRepliesDone 0, .termUp 0],
      [.workreqDone 1 0, .workreceiptDone 1, .worksend 1 0, .worksendDone 1],
      passAbort 1 none true, [.requestSkip 1], passTerm 1 true,
      passMain 1, [.requestSkip 1], passTerm 1 false,
      passMain 0, [.requestSkip 0, .checkForTerm 0, .termReply 0 1, .termRepliesDone 0]]

end Libcircle
