import Libcircle.Lib.Ledger
import Libcircle.System.Waves

/-!
# The termination allreduce and the barrier, round after round

`allreduce` is the termination allreduce on its own: its steps are the parts of
`CIRCLE_check_for_term_allreduce`, the receipts that clear `term_flag`, and the
start of an invocation, in any order on any ranks.  A call of the function is
some replies, and then, unless transfers are outstanding, a report and a wait.
`barrier` is the cleanup barrier on its own, in the same way.

A ledger keeps what every rank contributed to every round.  The system of the
work loop takes only steps of the two (`allreduce_of_run`, `barrier_of_run`).
-/

namespace Libcircle

variable {size width : Nat} {r : Rank}

/-! ## The allreduce -/

/-- The allreduce and its ledger, a history variable. -/
structure Allreduce where
  /-- The state and the messages in flight. -/
  term : TermNet
  /-- What every rank contributed, sent up and got. -/
  ledger : Ledger Rank

namespace Allreduce

/-- Nothing has happened. -/
def start : Allreduce := ⟨{ st := fun _ => {}, net := .empty }, .empty⟩

/-- A step of a rank. -/
inductive Step where
  /-- `CIRCLE_init_local_state`. -/
  | init (r : Rank)
  /-- A work receipt clears `term_flag`. -/
  | clear (r : Rank)
  /-- A message of `src` is found by the probe of any source. -/
  | reply (r src : Rank)
  /-- The report to the parent. -/
  | report (r : Rank)
  /-- The result of the parent is found, or not. -/
  | await (r : Rank) (hit : Bool)

/-- The steps a state enables. -/
def Enabled (size width : Nat) (x : Allreduce) : Step → Prop
  | .init r => r < size ∧ (x.term.st r).termUp = false ∧ (x.term.st r).termReplies = 0
  | .clear r => r < size
  | .reply r src =>
      r < size ∧ (x.term.st r).termReplies < (treeInit r size width).children ∧
        x.term.net src r ≠ []
  | .report r => r < size
  | .await r hit =>
      r < size ∧ (hit = true → (x.term.st r).termUp = true ∧
        (treeInit r size width).parentSent x.term.net r = true)

instance (x : Allreduce) : ∀ e, Decidable (x.Enabled size width e)
  | .init _ | .reply .. => inferInstanceAs (Decidable (_ ∧ _ ∧ _))
  | .clear _ | .report _ => inferInstanceAs (Decidable (_ < _))
  | .await .. => inferInstanceAs (Decidable (_ ∧ _))

/-- The ledger when `r` gets the result `y`, if it does. -/
def finish (L : Ledger Rank) (r : Rank) : Option Bool → Ledger Rank
  | none => L
  | some b => L.finish r b

/-- The state after a step. -/
def next (size width : Nat) (x : Allreduce) : Step → Allreduce
  | .init r => ⟨x.term.init r, x.ledger.setOwn r true⟩
  | .clear r => ⟨x.term.clearFlag r, x.ledger.setOwn r false⟩
  | .reply r src =>
      ⟨x.term.recvFlag r src ((x.term.net src r).headD true), x.ledger.hear r src⟩
  | .report r =>
      let y := x.term.report (treeInit r size width) r
      if x.term.Ready (treeInit r size width) r then
        ⟨y.1, finish (x.ledger.report r (x.term.st r).termFlag) r y.2⟩
      else x
  | .await r hit =>
      let y := x.term.await (treeInit r size width) r hit
      ⟨y.1, finish x.ledger r y.2⟩

end Allreduce

/-- The allreduce of `size` ranks in a tree of width `width`. -/
def allreduce (size width : Nat) : EventSystem Allreduce Allreduce.Step where
  Enabled := Allreduce.Enabled size width
  next := Allreduce.next size width

instance (x : Allreduce) (e : Allreduce.Step) :
    Decidable ((allreduce size width).Enabled x e) :=
  inferInstanceAs (Decidable (x.Enabled size width e))

namespace TermNet

/-- `term_flag` of every rank. -/
def flags (y : TermNet) (r : Rank) : Bool := (y.st r).termFlag

variable (y : TermNet) (t : TreeState)

theorem flags_init : (y.init r).flags = Function.update y.flags r true :=
  update_proj Term.termFlag _ _ _

theorem flags_clearFlag : (y.clearFlag r).flags = Function.update y.flags r false :=
  update_proj Term.termFlag _ _ _

theorem flags_recvFlag (src : Rank) (flag : Bool) :
    (y.recvFlag r src flag).flags = Function.update y.flags r (y.flags r && flag) :=
  update_proj Term.termFlag _ _ _

theorem flags_sendUp (p : Rank) : (y.sendUp r p).flags = Function.update y.flags r true :=
  update_proj Term.termFlag _ _ _

theorem flags_complete (flag : Bool) : (y.complete t r flag).flags = y.flags :=
  update_proj_same Term.termFlag _ _ rfl

theorem flags_completeRoot : (y.completeRoot t r).flags = Function.update y.flags r true := by
  rw [completeRoot, flags_complete]
  exact update_proj Term.termFlag _ _ _

theorem flags_recvResult (p : Rank) (flag : Bool) : (y.recvResult t r p flag).flags = y.flags := by
  rw [recvResult, flags_complete]
  rfl

end TermNet

/-- The ledger of the allreduce is right. -/
def Allreduce.Recorded (x : Allreduce) (T : ParentTree Rank) : Prop :=
  x.ledger.Inv T x.term.wave x.term.flags

theorem recorded_next {x : Allreduce} {e : Allreduce.Step} (hs : 0 < size) (hw : 0 < width)
    (h : x.Recorded (rankTree size width hs hw)) (he : x.Enabled size width e) :
    (x.next size width e).Recorded (rankTree size width hs hw) := by
  cases e with
  | init r =>
      obtain ⟨_, hup, hreplies⟩ := he
      have hnew := Ledger.Inv.restart h (x := r) hup hreplies
      simp only [Allreduce.Recorded, Allreduce.next, TermNet.flags_init,
        TermNet.wave_init _ ⟨hup, hreplies⟩]
      exact hnew
  | clear r =>
      have hnew := Ledger.Inv.clear h r
      simp only [Allreduce.Recorded, Allreduce.next, TermNet.flags_clearFlag,
        TermNet.wave_clearFlag]
      exact hnew
  | reply r src =>
      obtain ⟨_, hpend, hm⟩ := he
      have hc := h.wave.child_of_pending hpend hm
      obtain ⟨b, hb, _⟩ := h.wave.sent_of_report hc hm
      have hnew := Ledger.Inv.hear h hc hb
      have hhead : (x.term.net src r).headD true = b := by
        rw [show x.term.net src r = [b] from hb]
        rfl
      simp only [Allreduce.Recorded, Allreduce.next, TermNet.flags_recvFlag,
        TermNet.wave_recvFlag, hhead]
      exact hnew
  | report r =>
      have hr : r < size := he
      simp only [Allreduce.next]
      obtain ⟨hready, _⟩ | ⟨p, hready, hp, hy⟩ | ⟨hready, hp, hy⟩ :=
        x.term.report_cases (treeInit r size width) r
      · rwa [if_neg hready]
      · have hc : r ∈ (rankTree size width hs hw).children p :=
          ((rankTree size width hs hw).mem_children p r).mpr ⟨hr, hp⟩
        have hnew := Ledger.Inv.send h hc hready.1 (h.wave.counted_of_replies hready.2)
        rw [if_pos hready, hy]
        simp only [Allreduce.Recorded, Allreduce.finish, TermNet.flags_sendUp,
          TermNet.wave_sendUp]
        exact hnew
      · obtain rfl : r = (rankTree size width hs hw).root :=
          (rankTree size width hs hw).eq_root r hr hp
        have hnew := Ledger.Inv.release_root h (h.wave.counted_of_replies hready.2)
        rw [if_pos hready, hy]
        simp only [Allreduce.Recorded, Allreduce.finish, TermNet.flags_completeRoot,
          TermNet.wave_completeRoot]
        exact hnew
  | await r hit =>
      obtain ⟨hr, hhit⟩ := he
      simp only [Allreduce.next]
      obtain hy | ⟨p, hp, rfl, hy⟩ := x.term.await_cases (treeInit r size width) r hit
      · rwa [hy]
      · have hc : r ∈ (rankTree size width hs hw).children p :=
          ((rankTree size width hs hw).mem_children p r).mpr ⟨hr, hp⟩
        obtain ⟨p', hp', hm⟩ := TreeState.parentSent_iff.mp (hhit rfl).2
        obtain rfl : p = p' := Option.some.inj (hp.symm.trans hp')
        obtain ⟨b, hb, _⟩ := h.wave.answered_of_answer hc hm
        have hnew := Ledger.Inv.get h hc hb
        have hhead : (x.term.net p r).headD true = b := by
          rw [show x.term.net p r = [b] from hb]
          rfl
        rw [hy]
        simp only [Allreduce.Recorded, Allreduce.finish, TermNet.flags_recvResult,
          TermNet.wave_recvResult, hhead]
        exact hnew

theorem recorded_of_run {x : Allreduce} {es : List Allreduce.Step} (hs : 0 < size)
    (hw : 0 < width) (hrun : (allreduce size width).Run .start es x) :
    x.Recorded (rankTree size width hs hw) := by
  refine hrun.invariant (I := fun x => x.Recorded (rankTree size width hs hw))
    (fun _ _ h he => recorded_next hs hw h he) ?_
  exact Ledger.inv_empty
    (Wave.inv_initial (fun _ _ => rfl) (fun _ => rfl) (fun _ => rfl) fun _ _ => rfl)
    (fun _ => rfl) (fun _ => rfl) (fun _ _ => rfl) fun _ => rfl

/-- The allreduce keeps its rounds apart and agrees.  Every rank sends one flag up in each round,
a message found while replies are missing is the flag of a child not heard yet, sent in the
same round, and every rank that completes a round gets the conjunction of what the ranks
themselves contributed to it. -/
theorem allreduce_agrees {x : Allreduce} {es : List Allreduce.Step} (hs : 0 < size)
    (hw : 0 < width) (hrun : (allreduce size width).Run .start es x) :
    (∀ r, r < size →
        (x.ledger.sent r).length = (x.term.st r).rounds + (x.term.st r).termUp.toNat) ∧
      (∀ r src, (x.term.st r).termReplies < (treeInit r size width).children →
        x.term.net src r ≠ [] →
          src ∈ (treeInit r size width).childRanks ∧ src ∉ x.ledger.heard r ∧
            (x.term.st src).rounds = (x.term.st r).rounds ∧
            ∃ b, x.term.net src r = [b] ∧
              (x.ledger.sent src)[(x.term.st r).rounds]? = some b) ∧
      ∀ n, (∀ r, r < size → n < (x.term.st r).rounds → ∃ b,
        (∀ y, y < size → n < (x.term.st y).rounds → (x.ledger.answers y)[n]? = some b) ∧
          (b = true ↔ ∀ y, y < size → (x.ledger.contributed y)[n]? = some true)) := by
  have h := recorded_of_run hs hw hrun
  refine ⟨fun r hr => h.sent_length r hr, fun r src hpend hm => h.fresh_report hpend hm,
    fun n r hr hn => ?_⟩
  have hwf := rankTree_wf hs hw
  obtain ⟨b, _, hroot, hiff⟩ := h.answer_iff hwf hr hn
  refine ⟨b, fun y hy hny => ?_, hiff⟩
  obtain ⟨b', hb', hroot', _⟩ := h.answer_iff hwf hy hny
  rw [hb', ← hroot', hroot]

/-- Two ranks go through one round, in which a receipt clears the flag of rank `1`. -/
def clearedRound : List Allreduce.Step :=
  [.clear 1, .report 1, .reply 0 1, .report 0, .await 1 true]

theorem allreduce_agrees_clearedRound :
    let x := (allreduce 2 64).follow .start clearedRound
    (∀ y, y < 2 → (x.ledger.answers y)[0]? = some false) ∧
      ∃ y, y < 2 ∧ (x.ledger.contributed y)[0]? = some false :=
  have hrun : (allreduce 2 64).Run .start clearedRound
      ((allreduce 2 64).follow .start clearedRound) :=
    .of_admits (by decide +kernel)
  have h := (allreduce_agrees (by decide) (by decide) hrun).2.2 0 0 (by decide) (by decide +kernel)
  ⟨by
    obtain ⟨b, hsame, hiff⟩ := h
    have hb : b = false := by
      rw [Bool.eq_false_iff, Ne, hiff]
      decide +kernel
    intro y hy
    have hdone : ∀ y, y < 2 →
        0 < (((allreduce 2 64).follow .start clearedRound).term.st y).rounds := by
      decide +kernel
    exact hb ▸ hsame y hy (hdone y hy),
    by decide +kernel⟩

/-- The work loop takes only steps of the allreduce. -/
theorem allreduce_of_run {α : Type*} {job : Job} {s : Sys α} {queue : Rank → List α}
    {abortFlag : Rank → Bool} {input : Rank → ReduceInput} {enqueued : List α}
    {es : List (Event α)} (hrun : job.once.Run (Sys.start queue abortFlag input enqueued) es s) :
    ∃ fs x, (allreduce job.size (job.opts 1).treeWidth).Run .start fs x ∧ x.term = s.term := by
  suffices hsim : ∃ fs x, (allreduce job.size (job.opts 1).treeWidth).Run .start fs x ∧
      s.Once job ∧ x.term = s.term by
    obtain ⟨fs, x, hx, _, hR⟩ := hsim
    exact ⟨fs, x, hx, hR⟩
  refine hrun.simulate (R := fun s (x : Allreduce) => s.Once job ∧ x.term = s.term)
    (x := Allreduce.start) ?_ ⟨once_start .., rfl⟩
  rintro s ⟨y, L⟩ e ⟨hO, rfl⟩ ⟨he, hf⟩
  have hO' := once_next he hf hO
  have hlt := (hO.coherent.ok _).rank_lt he
  cases e with
  | begin r next ops =>
      have hst := ((hO.coherent.ok r).requested_of_idle he.1).1
      have hreset := (hO.coherent.ok r).tidy.term_reset (.inl (by simp [Sys.loc, hst]))
      exact ⟨[.init r], _, .single ⟨hlt, hreset⟩, hO', rfl⟩
  | workreceipt r src => exact ⟨[.clear r], _, .single hlt, hO', rfl⟩
  | termReply r src =>
      obtain ⟨hpc, hpend, hm⟩ := he
      have htree := hO.tree_eq ((hO.coherent.ok r).stage_ne (by simp [hpc]))
      rw [htree] at hpend
      exact ⟨[.reply r src], _, .single ⟨hlt, hpend, hm⟩, hO', rfl⟩
  | termUp r =>
      have hpc : s.pc r = .termUp := he
      have htree := hO.tree_eq ((hO.coherent.ok r).stage_ne (by simp [hpc]))
      refine ⟨[.report r], _, .single hlt, hO', ?_⟩
      change _ = (s.term.report (s.tree job r) r).1
      rw [htree]
      by_cases hready : s.term.Ready (job.tree 1 r) r
      · exact congrArg Allreduce.term (if_pos hready)
      · refine (congrArg Allreduce.term (if_neg hready)).trans ?_
        simp [TermNet.report, hready]
  | termDown r hit =>
      obtain ⟨hpc, hhit⟩ := he
      have htree := hO.tree_eq ((hO.coherent.ok r).stage_ne (by simp [hpc]))
      rw [htree] at hhit
      refine ⟨[.await r hit], _, .single ⟨hlt, hhit⟩, hO', ?_⟩
      change _ = (s.term.await (s.tree job r) r hit).1
      rw [htree]
      rfl
  | _ => exact ⟨[], _, .nil _, hO', rfl⟩

/-! ## The barrier -/

/-- The barrier and the calls of its start, a history variable. -/
structure BarrierRun where
  /-- The state and the messages in flight. -/
  barrier : BarrierNet
  /-- The calls of `CIRCLE_barrier_start` of a rank after its `n`-th completion. -/
  calls : Rank → Nat → Nat

namespace BarrierRun

/-- Nothing has happened. -/
def start : BarrierRun := ⟨{ st := fun _ => {}, net := .empty }, fun _ _ => 0⟩

/-- A step of a rank: `CIRCLE_barrier_start`, or a part of `CIRCLE_barrier_test`. -/
inductive Step where
  /-- `CIRCLE_barrier_start`. -/
  | start (r : Rank)
  /-- A message of `src` is found by the probe of any source. -/
  | arrival (r src : Rank)
  /-- The report to the parent. -/
  | report (r : Rank)
  /-- The release of the parent is found, or not. -/
  | await (r : Rank) (hit : Bool)

/-- The rank that takes a step. -/
def Step.rank : Step → Rank
  | .start r | .arrival r _ | .report r | .await r _ => r

/-- The steps a state enables. -/
def Enabled (size width : Nat) (x : BarrierRun) : Step → Prop
  | .start r => r < size
  | .arrival r src =>
      r < size ∧ (x.barrier.st r).barrierStarted = true ∧
        (x.barrier.st r).barrierReplies < (treeInit r size width).children ∧
        x.barrier.net src r ≠ []
  | .report r => r < size ∧ (x.barrier.st r).barrierStarted = true
  | .await r hit =>
      r < size ∧ (x.barrier.st r).barrierStarted = true ∧
        (hit = true → (x.barrier.st r).barrierUp = true ∧
          (treeInit r size width).parentSent x.barrier.net r = true)

instance (x : BarrierRun) : ∀ e, Decidable (x.Enabled size width e)
  | .start _ => inferInstanceAs (Decidable (_ < _))
  | .arrival .. => inferInstanceAs (Decidable (_ ∧ _ ∧ _ ∧ _))
  | .report _ => inferInstanceAs (Decidable (_ ∧ _))
  | .await .. => inferInstanceAs (Decidable (_ ∧ _ ∧ _))

/-- The state after a step. -/
def next (size width : Nat) (x : BarrierRun) : Step → BarrierRun
  | .start r =>
      let n := (x.barrier.st r).completed
      ⟨x.barrier.barrierStart r,
        Function.update x.calls r (Function.update (x.calls r) n (x.calls r n + 1))⟩
  | .arrival r src => { x with barrier := x.barrier.recvArrival r src }
  | .report r => { x with barrier := (x.barrier.report (treeInit r size width) r).1 }
  | .await r hit => { x with barrier := (x.barrier.await (treeInit r size width) r hit).1 }

/-- The step is the end of a call of `CIRCLE_barrier_test` that returns `1`. -/
def returns (size width : Nat) (x : BarrierRun) : Step → Bool
  | .report r => (x.barrier.report (treeInit r size width) r).2
  | .await r hit => (x.barrier.await (treeInit r size width) r hit).2
  | _ => false

end BarrierRun

/-- The barrier of `size` ranks in a tree of width `width`. -/
def barrier (size width : Nat) : EventSystem BarrierRun BarrierRun.Step where
  Enabled := BarrierRun.Enabled size width
  next := BarrierRun.next size width

instance (x : BarrierRun) (e : BarrierRun.Step) : Decidable ((barrier size width).Enabled x e) :=
  inferInstanceAs (Decidable (x.Enabled size width e))

namespace BarrierRun

/-- A rank takes part in a barrier only after a call of its start. -/
structure Counted (x : BarrierRun) (r : Rank) : Prop where
  started : (x.barrier.st r).barrierStarted = false →
    (x.barrier.st r).barrierUp = false ∧ (x.barrier.st r).barrierReplies = 0
  called : (x.barrier.st r).barrierStarted = true → 0 < x.calls r (x.barrier.st r).completed
  past : ∀ n, n < (x.barrier.st r).completed → 0 < x.calls r n

variable {x y : BarrierRun}

theorem Counted.congr (h : x.Counted r) (hst : y.barrier.st r = x.barrier.st r)
    (hcalls : y.calls r = x.calls r) : y.Counted r := by
  refine ⟨?_, ?_, ?_⟩
  · rw [hst]
    exact h.started
  · rw [hst, hcalls]
    exact h.called
  · rw [hst, hcalls]
    exact h.past

/-- A started rank goes on. -/
theorem Counted.go (h : x.Counted r) (hs : (x.barrier.st r).barrierStarted = true)
    (hs' : (y.barrier.st r).barrierStarted = true)
    (hdone : (y.barrier.st r).completed = (x.barrier.st r).completed)
    (hcalls : y.calls r = x.calls r) : y.Counted r := by
  refine ⟨fun hn => absurd (hs'.symm.trans hn) (by decide), fun _ => ?_, ?_⟩
  · rw [hdone, hcalls]
    exact h.called hs
  · rw [hdone, hcalls]
    exact h.past

/-- The barrier completes on a started rank. -/
theorem Counted.complete (h : x.Counted r) (hs : (x.barrier.st r).barrierStarted = true)
    (hst : y.barrier.st r = { completed := (x.barrier.st r).completed + 1 })
    (hcalls : y.calls r = x.calls r) : y.Counted r := by
  refine ⟨fun _ => by simp [hst], fun hs' => by simp [hst] at hs', fun n hn => ?_⟩
  rw [hst] at hn
  rw [hcalls]
  rcases Nat.lt_succ_iff_lt_or_eq.mp hn with hlt | rfl
  · exact h.past n hlt
  · exact h.called hs

end BarrierRun

/-- The barrier is a wave whose ranks take part after a call of its start. -/
structure BarrierRun.Ordered (T : ParentTree Rank) (x : BarrierRun) : Prop where
  wave : x.barrier.wave.Inv T
  counted : ∀ r, x.Counted r

theorem ordered_next {x : BarrierRun} {e : BarrierRun.Step} (hs : 0 < size) (hw : 0 < width)
    (h : x.Ordered (rankTree size width hs hw)) (he : x.Enabled size width e) :
    (x.next size width e).Ordered (rankTree size width hs hw) := by
  cases e with
  | start r =>
      refine ⟨(BarrierNet.wave_barrierStart x.barrier).symm ▸ h.wave, fun a => ?_⟩
      by_cases ha : a = r
      · subst ha
        refine ⟨fun hn => ?_, fun _ => ?_, fun n hn => ?_⟩
        · simp [BarrierRun.next, BarrierNet.barrierStart, BarrierNet.set] at hn
        · simp [BarrierRun.next, BarrierNet.barrierStart, BarrierNet.set]
        · have hn' : n < (x.barrier.st a).completed := by
            simpa [BarrierRun.next, BarrierNet.barrierStart, BarrierNet.set] using hn
          simpa [BarrierRun.next, Function.update_of_ne (Nat.ne_of_lt hn')] using
            (h.counted a).past n hn'
      · exact (h.counted a).congr (Function.update_of_ne ha _ _) (Function.update_of_ne ha _ _)
  | arrival r src =>
      obtain ⟨_, hstarted, hpend, hm⟩ := he
      refine ⟨?_, fun a => ?_⟩
      · simp only [BarrierRun.next, BarrierNet.wave_recvArrival]
        exact h.wave.recv (h.wave.child_of_pending hpend hm) hm
      · by_cases ha : a = r
        · subst ha
          exact (h.counted a).go hstarted (by simpa [BarrierRun.next, BarrierNet.recvArrival])
            (by simp [BarrierRun.next, BarrierNet.recvArrival]) rfl
        · exact (h.counted a).congr (Function.update_of_ne ha _ _) rfl
  | report r =>
      obtain ⟨hr, hstarted⟩ := he
      simp only [BarrierRun.next]
      obtain ⟨_, hy⟩ | ⟨p, hready, hp, hy⟩ | ⟨hready, hp, hy⟩ :=
        x.barrier.report_cases (treeInit r size width) r
      · rwa [hy]
      · have hc : r ∈ (rankTree size width hs hw).children p :=
          ((rankTree size width hs hw).mem_children p r).mpr ⟨hr, hp⟩
        rw [hy]
        refine ⟨?_, fun a => ?_⟩
        · simp only [BarrierNet.wave_sendUp]
          exact h.wave.send hc hready.1 (h.wave.counted_of_replies hready.2) _
        · by_cases ha : a = r
          · subst ha
            exact (h.counted a).go hstarted (by simpa [BarrierNet.sendUp])
              (by simp [BarrierNet.sendUp]) rfl
          · exact (h.counted a).congr (Function.update_of_ne ha _ _) rfl
      · obtain rfl : r = (rankTree size width hs hw).root :=
          (rankTree size width hs hw).eq_root r hr hp
        rw [hy]
        refine ⟨?_, fun a => ?_⟩
        · simp only [BarrierNet.wave_complete]
          exact h.wave.release_root (h.wave.counted_of_replies hready.2) _
        · by_cases ha : a = (rankTree size width hs hw).root
          · subst ha
            refine (h.counted _).complete hstarted ?_ rfl
            simp [BarrierNet.complete]
          · exact (h.counted a).congr (Function.update_of_ne ha _ _) rfl
  | await r hit =>
      obtain ⟨hr, hstarted, hhit⟩ := he
      simp only [BarrierRun.next]
      obtain hy | ⟨p, hp, rfl, hy⟩ := x.barrier.await_cases (treeInit r size width) r hit
      · rwa [hy]
      · have hc : r ∈ (rankTree size width hs hw).children p :=
          ((rankTree size width hs hw).mem_children p r).mpr ⟨hr, hp⟩
        obtain ⟨p', hp', hm⟩ := TreeState.parentSent_iff.mp (hhit rfl).2
        obtain rfl : p = p' := Option.some.inj (hp.symm.trans hp')
        rw [hy]
        refine ⟨?_, fun a => ?_⟩
        · simp only [BarrierNet.wave_recvRelease]
          exact h.wave.answer hc hm _
        · by_cases ha : a = r
          · subst ha
            exact (h.counted a).complete hstarted (Function.update_self ..) rfl
          · exact (h.counted a).congr (Function.update_of_ne ha _ _) rfl

theorem ordered_of_run {x : BarrierRun} {es : List BarrierRun.Step} (hs : 0 < size)
    (hw : 0 < width) (hrun : (barrier size width).Run .start es x) :
    x.Ordered (rankTree size width hs hw) := by
  refine hrun.invariant (I := fun x => x.Ordered (rankTree size width hs hw))
    (fun _ _ h he => ordered_next hs hw h he) ⟨?_, fun _ => ⟨fun _ => ⟨rfl, rfl⟩, ?_, ?_⟩⟩
  · exact Wave.inv_initial (fun _ _ => rfl) (fun _ => rfl) (fun _ => rfl) fun _ _ => rfl
  · exact fun h => by simp [BarrierRun.start] at h
  · exact fun n hn => absurd hn (Nat.not_lt_zero n)

/-- What a call that returns `1` leaves. -/
theorem reset_of_returns {x : BarrierRun} {e : BarrierRun.Step}
    (hret : x.returns size width e = true) :
    (x.next size width e).barrier.st e.rank =
      { completed := (x.barrier.st e.rank).completed + 1 } := by
  cases e with
  | report r =>
      simp only [BarrierRun.returns, BarrierRun.next] at hret ⊢
      obtain ⟨_, hy⟩ | ⟨p, _, _, hy⟩ | ⟨_, _, hy⟩ :=
        x.barrier.report_cases (treeInit r size width) r
      · simp [hy] at hret
      · simp [hy] at hret
      · rw [hy]
        exact Function.update_self ..
  | await r hit =>
      simp only [BarrierRun.returns, BarrierRun.next] at hret ⊢
      obtain hy | ⟨p, _, rfl, hy⟩ := x.barrier.await_cases (treeInit r size width) r hit
      · simp [hy] at hret
      · rw [hy]
        exact Function.update_self ..
  | start r | arrival r src => cases hret

/-- The barrier is a barrier, repeatedly.  A rank completes it for the `n + 1`-th time only after
every rank has called `CIRCLE_barrier_start` after its `n`-th completion.  A message found while
replies are missing is the arrival of a child at the same barrier.  A completion resets the rank. -/
theorem barrier_separates {x : BarrierRun} {es : List BarrierRun.Step} (hs : 0 < size)
    (hw : 0 < width) (hrun : (barrier size width).Run .start es x) :
    (∀ r n, r < size → n < (x.barrier.st r).completed → ∀ y, y < size → 0 < x.calls y n) ∧
      (∀ r src, (x.barrier.st r).barrierReplies < (treeInit r size width).children →
        x.barrier.net src r ≠ [] →
          src ∈ (treeInit r size width).childRanks ∧ (x.barrier.st src).barrierUp = true ∧
            (x.barrier.st src).completed = (x.barrier.st r).completed ∧
            x.barrier.net src r = [()]) ∧
      ∀ e, x.returns size width e = true →
        (x.next size width e).barrier.st e.rank =
          { completed := (x.barrier.st e.rank).completed + 1 } := by
  have h := ordered_of_run hs hw hrun
  refine ⟨fun r n hr hn y hy => ?_, fun r src hpend hm => ?_, fun e => reset_of_returns⟩
  · have hroot : n < (x.barrier.st (rankTree size width hs hw).root).completed := by
      rcases h.wave.done_cases r hr with hd | ⟨hd, _⟩ <;>
      · simp only [BarrierNet.wave] at hd
        omega
    by_cases hlt : n < (x.barrier.st y).completed
    · exact (h.counted y).past n hlt
    · -- `y` is still in this barrier, and has reported
      rcases h.wave.done_cases y hy with hd | ⟨hd, hup⟩
      · exact absurd (Nat.lt_of_lt_of_eq hroot hd.symm) hlt
      · simp only [BarrierNet.wave] at hd hup
        have hstarted : (x.barrier.st y).barrierStarted = true := by
          by_contra hn
          have := ((h.counted y).started (by simpa using hn)).1
          exact absurd (this.symm.trans hup) (by decide)
        have hcalled := (h.counted y).called hstarted
        rwa [show (x.barrier.st y).completed = n by omega] at hcalled
  · have hc := h.wave.child_of_pending hpend hm
    obtain ⟨_, hb, hdone, hup, _⟩ := h.wave.sent_of_report hc hm
    exact ⟨hc, hup, hdone, hb⟩

/-- Two ranks complete a barrier, and rank `1` is in the next one. -/
def twoBarriers : List BarrierRun.Step :=
  [.start 1, .start 1, .report 1, .start 0, .arrival 0 1, .report 0, .await 1 true, .start 1,
    .report 1]

theorem barrier_separates_twoBarriers :
    let x := (barrier 2 64).follow .start twoBarriers
    (x.barrier.st 1).completed = 1 ∧ 0 < x.calls 0 0 :=
  have hrun : (barrier 2 64).Run .start twoBarriers
      ((barrier 2 64).follow .start twoBarriers) :=
    .of_admits (by decide +kernel)
  ⟨by decide +kernel,
    (barrier_separates (by decide) (by decide) hrun).1 1 0 (by decide) (by decide +kernel) 0
      (by decide)⟩

/-- A rank outside a barrier is in its initial state. -/
theorem BarrierNet.init_eq {y : BarrierNet} (hs : (y.st r).barrierStarted = false)
    (hu : (y.st r).barrierUp = false) (hr : (y.st r).barrierReplies = 0) : y.init r = y := by
  have hst : ({ y.st r with
      barrierStarted := false, barrierUp := false, barrierReplies := 0 } : Barrier) = y.st r := by
    rw [← hs]
    cases h : y.st r with
    | mk started up replies completed =>
        rw [h] at hs hu hr
        cases hs
        cases hu
        cases hr
        rfl
  simp only [init, set, hst, Function.update_eq_self]

/-- The work loop takes only steps of the barrier. -/
theorem barrier_of_run {α : Type*} {job : Job} {s : Sys α} {queue : Rank → List α}
    {abortFlag : Rank → Bool} {input : Rank → ReduceInput} {enqueued : List α}
    {es : List (Event α)} (hrun : job.once.Run (Sys.start queue abortFlag input enqueued) es s) :
    ∃ fs x, (barrier job.size (job.opts 1).treeWidth).Run .start fs x ∧
      x.barrier = s.barrier := by
  suffices hsim : ∃ fs x, (barrier job.size (job.opts 1).treeWidth).Run .start fs x ∧
      s.Once job ∧ x.barrier = s.barrier by
    obtain ⟨fs, x, hx, _, hR⟩ := hsim
    exact ⟨fs, x, hx, hR⟩
  refine hrun.simulate (R := fun s (x : BarrierRun) => s.Once job ∧ x.barrier = s.barrier)
    (x := BarrierRun.start) ?_ ⟨once_start .., rfl⟩
  rintro s ⟨y, calls⟩ e ⟨hO, rfl⟩ ⟨he, hf⟩
  have hO' := once_next he hf hO
  have hlt := (hO.coherent.ok _).rank_lt he
  have hat := (hO.coherent.ok e.rank).position
  cases e with
  | begin r next ops =>
      have hst := ((hO.coherent.ok r).requested_of_idle he.1).1
      have hnot := (hO.coherent.ok r).tidy.barrier_reset (by simp [Sys.loc, hst])
      obtain ⟨hup, hreplies⟩ := (hO.coherent.ok r).tidy.barrier_started hnot
      exact ⟨[], _, .nil _, hO', (BarrierNet.init_eq hnot hup hreplies).symm⟩
  | barrierStart r =>
      by_cases hset : s.Settled r
      · exact ⟨[.start r], _, .single hlt, hO', (if_pos hset).symm⟩
      · exact ⟨[], _, .nil _, hO', (if_neg hset).symm⟩
  | barrierReply r src =>
      obtain ⟨hpc, hsrc⟩ := he
      have htree := hO.tree_eq ((hO.coherent.ok r).stage_ne (by simp [hpc]))
      rw [show s.pc (Event.barrierReply (α := α) r src).rank = _ from hpc] at hat
      cases src with
      | none => exact ⟨[], _, .nil _, hO', rfl⟩
      | some q =>
          obtain ⟨hpend, hm⟩ := hsrc q (by simp)
          rw [htree] at hpend
          exact ⟨[.arrival r q], _, .single ⟨hlt, hat.2.2, hpend, hm⟩, hO', rfl⟩
  | barrierUp r =>
      have hpc : s.pc r = .barrierUp := he
      have htree := hO.tree_eq ((hO.coherent.ok r).stage_ne (by simp [hpc]))
      rw [show s.pc (Event.barrierUp (α := α) r).rank = _ from hpc] at hat
      refine ⟨[.report r], _, .single ⟨hlt, hat.2.2⟩, hO', ?_⟩
      change _ = (s.barrier.report (s.tree job r) r).1
      rw [htree]
      rfl
  | barrierDown r hit =>
      obtain ⟨hpc, hhit⟩ := he
      have htree := hO.tree_eq ((hO.coherent.ok r).stage_ne (by simp [hpc]))
      rw [htree] at hhit
      rw [show s.pc (Event.barrierDown (α := α) r hit).rank = _ from hpc] at hat
      refine ⟨[.await r hit], _, .single ⟨hlt, hat.2.2, hhit⟩, hO', ?_⟩
      change _ = (s.barrier.await (s.tree job r) r hit).1
      rw [htree]
      rfl
  | _ => exact ⟨[], _, .nil _, hO', rfl⟩

end Libcircle
