import Libcircle.System.Outcome
import Libcircle.System.Reports

/-!
# The number of objects processed

`local_objects_processed` counts the calls of the process callback on a rank, and
rank 0 prints the sum that `CIRCLE_reduce_sync` makes of them.  Up to the data of
the callbacks the final reduction is a wave that folds this sum (`Sys.tally`), with
the messages the work loop really sends.  So, with either kind of termination and
with or without aborts, the count is that of the calls (`final_count`), and if
nothing is aborted and every call takes one item it is that of the items
(`final_count_items`).  `local_objects_processed` is an `int32_t`, so this is for
runs with no more than `INT32_MAX` calls on any rank.
-/

namespace Libcircle

variable {α : Type*} {job : Job} {s t : Sys α} {e : Event α} {r x c : Rank} {es : List (Event α)}
  {sent : Rank → Nat}

/-! ## The calls of the process callback -/

/-- The process callback is called. -/
def Event.processes : Event α → Bool
  | .process .. => true
  | _ => false

/-- The process callback is called on `r`. -/
def Event.processesOn (r : Rank) (e : Event α) : Bool := e.processes && e.rank = r

/-- The objects processed on all ranks. -/
def Sys.processed (job : Job) (s : Sys α) : Nat := ∑ r ∈ Finset.range job.size, s.objects r

/-- The ranks that have not called `CIRCLE_begin`. -/
structure Sys.Unbegun (job : Job) (s : Sys α) : Prop where
  objects : ∀ r, s.inv r = 0 → s.objects r = 0
  outside : ∀ r, job.size ≤ r → s.inv r = 0

theorem unbegun_start (queue : Rank → List α) (abortFlag : Rank → Bool)
    (input : Rank → ReduceInput) (enqueued : List α) :
    (Sys.start queue abortFlag input enqueued).Unbegun job := ⟨fun _ _ => rfl, fun _ _ => rfl⟩

theorem objects_next_self (hf : FirstOnly s e) (hU : s.Unbegun job) :
    (s.next job e).objects e.rank = s.objects e.rank + e.processes.toNat := by
  cases e with
  | begin r next ops => exact (Function.update_self ..).trans (hU.objects r hf).symm
  | process r ops => exact Function.update_self ..
  | _ => rfl

theorem objects_next_of_ne (hx : x ≠ e.rank) : (s.next job e).objects x = s.objects x :=
  congrArg Loc.objects (loc_next_of_ne hx)

theorem unbegun_next (he : s.Enabled job e) (hf : FirstOnly s e) (hO : s.Once job)
    (hU : s.Unbegun job) : (s.next job e).Unbegun job := by
  refine ⟨fun x hx => ?_, fun x hx => ?_⟩
  · have hinv : s.inv x = 0 := Nat.eq_zero_of_le_zero ((inv_le_next x).trans_eq hx)
    by_cases hxe : x = e.rank
    · subst hxe
      cases e with
      | process r ops =>
          have hone := hO.inv_eq ((hO.coherent.ok r).stage_ne (by simp [he.1]))
          exact absurd (hone.symm.trans hinv) Nat.one_ne_zero
      | _ => exact (objects_next_self hf hU).trans (hU.objects _ hinv)
    · exact (objects_next_of_ne hxe).trans (hU.objects x hinv)
  · have hlt := (hO.coherent.ok _).rank_lt he
    have hloc : (s.next job e).loc x = s.loc x := loc_next_of_ne (Nat.ne_of_gt (hlt.trans_le hx))
    exact (congrArg Loc.inv hloc).trans (hU.outside x hx)

theorem unbegun_of_run (hrun : job.once.Run s es t) (hO : s.Once job) (hU : s.Unbegun job) :
    t.Unbegun job :=
  (hrun.restrict_invariant (I := fun s => s.Once job ∧ s.Unbegun job)
    (fun _ _ h he hf => ⟨once_next he hf h.1, unbegun_next he hf h.1 h.2⟩) ⟨hO, hU⟩).2

/-- The counter of a rank is the number of calls on this rank. -/
theorem objects_of_run_eq (hrun : job.once.Run s es t) (hO : s.Once job) (hU : s.Unbegun job)
    (r : Rank) : t.objects r = s.objects r + es.countP (Event.processesOn r) := by
  induction hrun with
  | nil => rfl
  | @cons s t e es he _ ih =>
      obtain ⟨he, hf⟩ := he
      have hstep : (s.next job e).objects r = s.objects r + (e.processesOn r).toNat := by
        by_cases hr : r = e.rank
        · subst hr
          simpa [Event.processesOn] using objects_next_self hf hU
        · simpa [Event.processesOn, Ne.symm hr] using objects_next_of_ne hr
      rw [ih (once_next he hf hO) (unbegun_next he hf hO hU)]
      refine (congrArg (· + _) hstep).trans ?_
      cases h : e.processesOn r <;> simp [h]
      omega

/-- It stays in its range as long as the number of calls does. -/
theorem objects_le_of_run {queue : Rank → List α} {abortFlag : Rank → Bool}
    {input : Rank → ReduceInput} {enqueued : List α}
    (hrun : job.once.Run (Sys.start queue abortFlag input enqueued) es s)
    (hint : ∀ r, es.countP (Event.processesOn r) ≤ int32Max) (r : Rank) :
    s.objects r ≤ int32Max := by
  rw [objects_of_run_eq hrun (once_start ..) (unbegun_start ..) r]
  exact (Nat.zero_add _).le.trans (hint r)

theorem processed_next (he : s.Enabled job e) (hf : FirstOnly s e) (hO : s.Once job)
    (hU : s.Unbegun job) : (s.next job e).processed job = s.processed job + e.processes.toNat := by
  have hlt := (hO.coherent.ok _).rank_lt he
  have hsum := sum_add_eq_of_ne (Finset.mem_range.mpr hlt) s.objects (s.next job e).objects
    fun x hx => objects_next_of_ne hx
  rw [objects_next_self hf hU] at hsum
  unfold Sys.processed
  omega

/-- The objects processed are the calls of the process callback. -/
theorem processed_of_run (hrun : job.once.Run s es t) (hO : s.Once job) (hU : s.Unbegun job) :
    t.processed job = s.processed job + es.countP Event.processes := by
  induction hrun with
  | nil => simp
  | @cons s t e es he _ ih =>
      obtain ⟨he, hf⟩ := he
      rw [ih (once_next he hf hO) (unbegun_next he hf hO hU)]
      refine (congrArg (· + _) (processed_next he hf hO hU)).trans ?_
      cases h : e.processes <;> simp [h]
      omega

/-! ## The final reduction as a wave of counts -/

/-- The count of a header. -/
def ReduceMsg.count? : ReduceMsg → Option Nat
  | .header _ _ count _ => some count
  | _ => none

/-- The partial sum of a rank, which is its own count until it enters the reduction. -/
def Loc.held (l : Loc α) : Nat :=
  if l.barrier.completed = 0 ∨ l.pc = .worksendWait ∨ l.pc = .reduceSync then l.objects
  else l.reduce.total

/-- The final reduction as a wave of counts. -/
def Sys.tally (job : Job) (s : Sys α) : Wave Rank Nat where
  done _ := 0
  up r := decide ((s.loc r).point = none) && (job.tree 1 r).parentRank.isSome
  replies r := (s.loc r).point.getD (job.tree 1 r).children
  net a b := (s.reduce.net a b).filterMap ReduceMsg.count?

/-- The counts are added up over the tree, and `sent` are the partial sums reported. -/
def Sys.Tallied (job : Job) (s : Sys α) (sent : Rank → Nat) : Prop :=
  (s.tally job).Folds job.rootedTree s.objects (fun _ _ => (· + ·)) id (fun r => (s.loc r).held)
    sent

theorem held_of_not_past (hO : s.Once job) (hp : ¬s.Past r) : (s.loc r).held = s.objects r :=
  if_pos (.inl (Nat.eq_zero_of_not_pos fun hpos => hp ((past_iff hO).mpr hpos)))

theorem held_of_waiting (h : s.pc r = .worksendWait ∨ s.pc r = .reduceSync) :
    (s.loc r).held = s.objects r := if_pos (.inr h)

theorem held_of_past (hO : s.Once job) (hp : s.Past r) (h₁ : s.pc r ≠ .worksendWait)
    (h₂ : s.pc r ≠ .reduceSync) : (s.loc r).held = (s.reduce.st r).total := by
  refine if_neg ?_
  rintro (hzero | hpc | hpc)
  · exact absurd hzero (Nat.ne_of_gt ((past_iff hO).mp hp))
  · exact h₁ hpc
  · exact h₂ hpc

/-- Nothing but the tree of counts changes the sums. -/
theorem Sys.Tallied.congr (h : s.Tallied job sent) (hnet : t.reduce.net = s.reduce.net)
    (hpoint : ∀ x, (t.loc x).point = (s.loc x).point) (hobjects : t.objects = s.objects)
    (hheld : ∀ x, (t.loc x).held = (s.loc x).held) : t.Tallied job sent := by
  have htally : t.tally job = s.tally job := by simp only [Sys.tally, hpoint, hnet]
  rw [Sys.Tallied, htally, hobjects, funext hheld]
  exact h

theorem Sys.Unbegun.lt_of_past (hU : s.Unbegun job) (hO : s.Once job) (hp : s.Past x) :
    x < job.size := by
  by_contra hx
  have hinv := hU.outside x (Nat.le_of_not_lt hx)
  rcases hp with hst | ⟨_, hpos⟩
  · cases (hO.inv_eq (r := x) (by simp [hst])).symm.trans hinv
  · exact absurd hinv (Nat.ne_of_gt hpos)

/-- When the first rank completes the barrier, no message of a reduction is in flight. -/
theorem reduce_net_first (he : s.Enabled job e) (hf : FirstOnly s e) (hW : s.Waves job)
    (hP : s.ReducePhase job) (hnone : ∀ x, x < job.size → ¬s.Past x) (hx : x < job.size)
    (hp : (s.next job e).Past x) (a b : Rank) : (s.next job e).reduce.net a b = [] := by
  have hB := background_next he hW.once hnone (hP.resolve_right fun h => by
    obtain ⟨⟨y, hy, hpy⟩, _⟩ := h
    exact hnone y hy hpy).2
  have hQ := hB.quiet fun r => (rested_of_past (waves_next he hf hW) hx hp r).reduce
  refine List.eq_nil_iff_forall_not_mem.mpr fun m hm => ?_
  cases (hB.isBackground hm).symm.trans (hQ.background a b m hm)

/-- No count is, either. -/
theorem tallied_first (he : s.Enabled job e) (hf : FirstOnly s e) (hW : s.Waves job)
    (hP : s.ReducePhase job) (hU : s.Unbegun job) (hnone : ∀ x, x < job.size → ¬s.Past x)
    (hx : x < job.size) (hp : (s.next job e).Past x) : (s.next job e).Tallied job sent := by
  have hO := hW.once
  have hO' := once_next he hf hO
  have hU' := unbegun_next he hf hO hU
  have hnet := reduce_net_first he hf hW hP hnone hx hp
  have hpc : ∀ y, (s.next job e).Past y → (s.next job e).pc y = .worksendWait := fun y hy =>
    pc_first he hf hO hnone (hU'.lt_of_past hO' hy) hy
  have hpoint : ∀ y, ((s.next job e).loc y).point = some 0 := by
    intro y
    by_cases hy : (s.next job e).Past y
    · rw [point_of_past hO' hy, hpc y hy]
      rfl
    · exact point_of_not_past hO' hy
  have hheld : ∀ y, ((s.next job e).loc y).held = (s.next job e).objects y := by
    intro y
    by_cases hy : (s.next job e).Past y
    · exact held_of_waiting (.inl (hpc y hy))
    · exact held_of_not_past hO' hy
  have hfolds : ((s.next job e).tally job).Folds job.rootedTree (s.next job e).objects
      (fun _ _ => (· + ·)) id (s.next job e).objects sent := by
    refine Wave.folds_initial (fun _ => rfl) (fun y => ?_) (fun y => ?_) fun a b => ?_
    · simp [Sys.tally, hpoint y]
    · simp [Sys.tally, hpoint y]
    · simp [Sys.tally, hnet a b]
  rw [Sys.Tallied, funext hheld]
  exact hfolds

/-! ## Steps after the barrier -/

/-- A rank past the barrier that can take a step has not returned from `CIRCLE_begin`. -/
theorem stage_of_past (he : s.Enabled job e) (hf : FirstOnly s e) (hO : s.Once job)
    (hp : s.Past e.rank) : s.stage e.rank = .after := by
  refine hp.resolve_right ?_
  rintro ⟨hst, hinv⟩
  have hpc : s.pc e.rank = .idle := by
    by_contra hpc
    exact (hO.coherent.ok _).stage_ne hpc hst
  obtain ⟨next, ops, hbegin⟩ := event_of_idle he hpc
  rw [hbegin] at hf
  exact absurd (show s.inv e.rank = 0 from hf) (Nat.ne_of_gt hinv)

/-- Once a rank has completed the barrier, nothing more is processed. -/
theorem objects_of_past (he : s.Enabled job e) (hf : FirstOnly s e) (hW : s.Waves job)
    (hx : x < job.size) (hp : s.Past x) : (s.next job e).objects = s.objects := by
  have hO := hW.once
  have hlt := (hO.coherent.ok _).rank_lt he
  cases e with
  | begin r next ops =>
      have hidle := (hO.coherent.ok r).requested_of_idle he.1
      rcases past_or_started hW hx hp hlt with hp' | hb
      · cases hidle.1.symm.trans (stage_of_past he hf hO hp')
      · have hreset := (hO.coherent.ok r).tidy.barrier_reset (by simp [Sys.loc, hidle.1])
        exact absurd (hreset.symm.trans hb) (by decide)
  | process r ops =>
      have hat := (hO.coherent.ok r).position
      rw [show s.pc r = .work from he.1] at hat
      exact absurd hat.1 (rested_of_past hW hx hp r).stage_ne
  | _ => rfl

theorem objects_of_run (hrun : job.once.Run s es t) (hW : s.Waves job) (hx : x < job.size)
    (hp : s.Past x) : t.objects = s.objects :=
  (hrun.restrict_invariant (I := fun t => t.Waves job ∧ t.Past x ∧ t.objects = s.objects)
    (fun _ _ h he hf => ⟨waves_next he hf h.1, past_next he hf h.1.once h.2.1,
      (objects_of_past he hf h.1 hx h.2.1).trans h.2.2⟩) ⟨hW, hp, rfl⟩).2.2

theorem ne_of_aborting {p : Pc} (h : p.aborting = true) : p ≠ .worksendWait ∧ p ≠ .reduceSync := by
  cases p with
  | abortReduce | abortReduceDown | returned => exact ⟨Pc.noConfusion, Pc.noConfusion⟩
  | _ => cases h

/-- The steps of the final reduction apart, no event changes a partial sum. -/
theorem held_next (he : s.Enabled job e) (hf : FirstOnly s e) (hO : s.Once job)
    (hen : (job.opts 1).reduceEnabled = true) (hsync : ¬e.Syncs)
    (hobjects : (s.next job e).objects = s.objects) (x : Rank) :
    ((s.next job e).loc x).held = (s.loc x).held := by
  by_cases hx : x = e.rank
  · subst hx
    have hO' := once_next he hf hO
    by_cases hp : s.Past e.rank
    · have hp' := past_next he hf hO hp
      have hst := stage_of_past he hf hO hp
      obtain ⟨hpc, hnext⟩ | ⟨hpc, hreduce, hnext⟩ := closing_next he hO hsync hst
      · rw [if_pos hen] at hnext
        rw [held_of_waiting (.inl hpc), held_of_waiting (.inr hnext), hobjects]
      · have hnext' : (s.next job e).pc e.rank ≠ .worksendWait ∧
            (s.next job e).pc e.rank ≠ .reduceSync := by
          rcases hnext with hnext | hnext
          · simp [hnext]
          · exact ne_of_aborting hnext
        obtain ⟨h₁, h₂⟩ := ne_of_aborting hpc
        rw [held_of_past hO hp h₁ h₂, held_of_past hO' hp' hnext'.1 hnext'.2, hreduce]
    · rw [held_of_not_past hO hp]
      by_cases hp' : (s.next job e).Past e.rank
      · rw [held_of_waiting (.inl (pc_of_past_next he hf hO hp hp')), hobjects]
      · rw [held_of_not_past hO' hp', hobjects]
  · have hloc : (s.next job e).loc x = s.loc x := loc_next_of_ne hx
    rw [hloc]

theorem Sys.Tallied.reduceSync {calls : List ReduceCall} (h : s.Tallied job sent)
    (he : s.Enabled job (.reduceSync r calls)) (hO : s.Once job) :
    (s.next job (.reduceSync r calls)).Tallied job sent := by
  have hpc : s.pc r = .reduceSync := he
  have hother : ∀ x, x ≠ r → (s.next job (.reduceSync r calls)).loc x = s.loc x :=
    fun x hx => loc_next_of_ne (e := .reduceSync r calls) hx
  have hdone : (s.barrier.st r).completed ≠ 0 :=
    Nat.ne_of_gt ((past_iff hO).mp (.inl (stage_of_closing hO (by rw [hpc]; rfl))))
  refine h.congr rfl (fun x => ?_) rfl fun x => ?_
  · by_cases hx : x = r
    · subst hx
      simp [Loc.point, Sys.loc, Sys.next, hpc, Pc.collected]
    · rw [hother x hx]
  · by_cases hx : x = r
    · subst hx
      rw [held_of_waiting (.inr hpc)]
      simp [Loc.held, Sys.loc, Sys.next, hdone, ReduceNet.syncBegin, ReduceNet.callback,
        ReduceNet.set]
    · rw [hother x hx]

/-- What receiving a report does to the counts. -/
theorem ReduceNet.recvSync_count (y : ReduceNet) (h : SyncReady (y.net c r) = true) :
    ∃ count, (y.net c r).filterMap ReduceMsg.count? =
        count :: ((y.recvSync r c).net c r).filterMap ReduceMsg.count? ∧
      ((y.recvSync r c).st r).total = (y.st r).total + count := by
  unfold SyncReady at h
  split at h
  next origin valid count bytes ms hms =>
    refine ⟨count, ?_, ?_⟩
    · by_cases hb : bytes = 0
      · simp [recvSync, hms, hb, ReduceMsg.count?]
      · simp only [hb, decide_false, Bool.false_or] at h
        split at h
        next => simp [recvSync, hms, hb, ReduceMsg.count?, List.filterMap_cons]
        next => cases h
    · simp [recvSync, hms]
  next => cases h

theorem Sys.Tallied.reduceSyncReply {calls : List ReduceCall} (h : s.Tallied job sent)
    (he : s.Enabled job (.reduceSyncReply r calls)) (hO : s.Once job) :
    (s.next job (.reduceSyncReply r calls)).Tallied job sent := by
  obtain ⟨hpc, hindex, hready⟩ := he
  generalize hi : (s.pc r).index = i at hpc hindex
  have hst : s.stage r = .after := stage_of_closing hO (by rw [hpc]; rfl)
  have htree := hO.tree_eq (r := r) (by simp [hst])
  have hpast : s.Past r := .inl hst
  have hdone : (s.barrier.st r).completed ≠ 0 := Nat.ne_of_gt ((past_iff hO).mp hpast)
  rw [htree] at hindex
  have hget : (job.rootedTree.children r)[i]? = some (s.child job r) := by
    rw [Sys.child, htree, hi]
    exact TreeState.child_getElem? hindex
  have hpoint : (s.loc r).point = some i := by
    rw [point_of_past hO hpast, hpc]
    rfl
  have hheld : (s.loc r).held = (s.reduce.st r).total :=
    held_of_past hO hpast (by simp [hpc]) (by simp [hpc])
  obtain ⟨count, hnet, htotal⟩ := s.reduce.recvSync_count hready
  have hnew : ((s.next job (.reduceSyncReply r calls)).loc r).point = some (i + 1) := by
    simp [Loc.point, Sys.loc, Sys.next, hi, Pc.collected, hdone]
  have hother : ∀ x, x ≠ r → (s.next job (.reduceSyncReply r calls)).loc x = s.loc x :=
    fun x hx => loc_next_of_ne (e := .reduceSyncReply r calls) hx
  -- the report is the only message in flight from the child
  have htell : (s.tally job).net (s.child job r) r = count :: _ := hnet
  obtain ⟨m, hm, _⟩ :=
    h.wave.sent_of_report (List.mem_of_getElem? hget) (htell ▸ List.cons_ne_nil _ _)
  obtain ⟨rfl, hnil⟩ := List.cons.inj (htell.symm.trans hm)
  have htally : (s.next job (.reduceSyncReply r calls)).tally job =
      (s.tally job).recv r (s.child job r) := by
    simp only [Sys.tally, Wave.recv]
    congr 1
    · funext x
      by_cases hx : x = r
      · subst hx
        simp [hpoint, hnew]
      · rw [hother x hx]
    · funext x
      by_cases hx : x = r
      · subst hx
        simp [hpoint, hnew]
      · rw [hother x hx, Function.update_of_ne hx]
    · funext a b
      by_cases hab : a = s.child job r ∧ b = r
      · obtain ⟨rfl, rfl⟩ := hab
        rw [Chan.pop_self, hnet]
        rfl
      · rw [Chan.pop_ne _ hab]
        exact congrArg _ (s.reduce.recvSync_net_ne hab)
  have hacc : (fun x => ((s.next job (.reduceSyncReply r calls)).loc x).held) =
      Function.update (fun x => (s.loc x).held) r ((s.loc r).held + count) := by
    funext x
    by_cases hx : x = r
    · subst hx
      rw [Function.update_self, hheld, ← htotal]
      simp [Loc.held, Sys.loc, Sys.next, hdone, ReduceNet.callback]
    · rw [hother x hx, Function.update_of_ne hx]
  rw [Sys.Tallied, htally, hacc]
  exact Wave.Folds.recv h (by simpa [Sys.tally, hpoint] using hget) hm

/-- What a rank reports. -/
theorem ReduceNet.syncFinish_count (y : ReduceNet) {p : Rank} {t : TreeState}
    (hp : t.parentRank = some p) (a b : Rank) :
    ((y.syncFinish t r).net a b).filterMap ReduceMsg.count? =
      if a = r ∧ b = p then (y.net a b).filterMap ReduceMsg.count? ++ [(y.st r).total]
      else (y.net a b).filterMap ReduceMsg.count? := by
  simp only [syncFinish, hp, sendResult]
  by_cases hab : a = r ∧ b = p
  · obtain ⟨rfl, rfl⟩ := hab
    split <;> simp [ReduceMsg.count?]
  · rw [if_neg hab]
    split
    · rw [Chan.push_ne _ _ hab, Chan.push_ne _ _ hab]
    · rw [Chan.push_ne _ _ hab]

theorem Sys.Tallied.reduceSyncDone {calls : List ReduceCall} (h : s.Tallied job sent)
    (he : s.Enabled job (.reduceSyncDone r calls)) (hO : s.Once job) :
    ∃ sent', (s.next job (.reduceSyncDone r calls)).Tallied job sent' := by
  have hlt : r < job.size := (hO.coherent.ok r).rank_lt (e := .reduceSyncDone r calls) he
  have hpc := he.1
  have hst : s.stage r = .after := stage_of_closing hO (by rw [hpc]; rfl)
  have htree := hO.tree_eq (r := r) (by simp [hst])
  have hpast : s.Past r := .inl hst
  have hdone : (s.barrier.st r).completed ≠ 0 := Nat.ne_of_gt ((past_iff hO).mp hpast)
  have hpoint : (s.loc r).point = some (job.tree 1 r).children := by
    rw [point_of_past hO hpast, hpc, htree]
    rfl
  have hnew : ((s.next job (.reduceSyncDone r calls)).loc r).point = none := by
    simp [Loc.point, Sys.loc, Sys.next, Pc.collected, hdone]
  have hother : ∀ x, x ≠ r → (s.next job (.reduceSyncDone r calls)).loc x = s.loc x :=
    fun x hx => loc_next_of_ne (e := .reduceSyncDone r calls) hx
  have hheld : ∀ x, ((s.next job (.reduceSyncDone r calls)).loc x).held = (s.loc x).held := by
    intro x
    by_cases hx : x = r
    · subst hx
      rw [held_of_past hO hpast (by simp [hpc]) (by simp [hpc])]
      simp [Loc.held, Sys.loc, Sys.next, hdone, ReduceNet.callback]
    · rw [hother x hx]
  have hreplies : ((s.next job (.reduceSyncDone r calls)).tally job).replies =
      (s.tally job).replies := by
    funext x
    by_cases hx : x = r
    · subst hx
      simp [Sys.tally, hpoint, hnew]
    · simp only [Sys.tally, hother x hx]
  have hnet : (s.next job (.reduceSyncDone r calls)).reduce.net =
      (s.reduce.syncFinish (job.tree 1 r) r).net := by
    rw [← htree]
    rfl
  suffices hfolds : ∃ sent', ((s.next job (.reduceSyncDone r calls)).tally job).Folds
      job.rootedTree s.objects (fun _ _ => (· + ·)) id (fun x => (s.loc x).held) sent' by
    obtain ⟨sent', hfolds⟩ := hfolds
    refine ⟨sent', ?_⟩
    rw [Sys.Tallied, funext hheld]
    exact hfolds
  cases hp : (job.tree 1 r).parentRank with
  | none =>
      -- the root sends nothing
      have htally : (s.next job (.reduceSyncDone r calls)).tally job = s.tally job := by
        refine Wave.ext rfl (funext fun x => ?_) hreplies (funext fun a => funext fun b => ?_)
        · by_cases hx : x = r
          · subst hx
            simp [Sys.tally, hp]
          · simp only [Sys.tally, hother x hx]
        · simp only [Sys.tally, hnet, ReduceNet.syncFinish, hp]
      exact ⟨sent, htally ▸ h⟩
  | some p =>
      have hc := job.mem_children hlt hp
      have htally : (s.next job (.reduceSyncDone r calls)).tally job =
          (s.tally job).send r p (s.reduce.st r).total := by
        refine Wave.ext rfl (funext fun x => ?_) hreplies (funext fun a => funext fun b => ?_)
        · by_cases hx : x = r
          · subst hx
            simp [Sys.tally, Wave.send, hnew, hp]
          · simp only [Sys.tally, Wave.send, hother x hx, Function.update_of_ne hx]
        · rw [show ((s.next job (.reduceSyncDone r calls)).tally job).net a b = _ from
            congrArg (fun net => (net a b).filterMap ReduceMsg.count?) hnet,
            s.reduce.syncFinish_count hp]
          by_cases hab : a = r ∧ b = p
          · obtain ⟨rfl, rfl⟩ := hab
            simp [Sys.tally, Wave.send]
          · rw [if_neg hab]
            exact (Chan.push_ne (s.tally job).net _ hab).symm
      have hnot : ¬(s.tally job).Reported r := by
        simp [Wave.Reported, Sys.tally, hpoint]
      have hall := h.wave.counted_of_replies (p := r) (by
        simp only [Sys.tally, hpoint, Option.getD_some]
        rfl)
      rw [htally]
      exact ⟨_, Wave.Folds.send h hc hnot hall
        (held_of_past hO hpast (by simp [hpc]) (by simp [hpc])).symm⟩

/-! ## Runs -/

/-- Once a rank has completed the barrier, the counts are added up. -/
def Sys.CountPhase (job : Job) (s : Sys α) : Prop :=
  (∃ x, x < job.size ∧ s.Past x) → ∃ sent, s.Tallied job sent

theorem countPhase_next (he : s.Enabled job e) (hf : FirstOnly s e) (hW : s.Waves job)
    (hP : s.ReducePhase job) (hU : s.Unbegun job) (hen : (job.opts 1).reduceEnabled = true)
    (h : s.CountPhase job) : (s.next job e).CountPhase job := by
  rintro ⟨x, hx, hp⟩
  have hO := hW.once
  by_cases hex : ∃ y, y < job.size ∧ s.Past y
  · obtain ⟨sent, hT⟩ := h hex
    obtain ⟨y, hy, hpy⟩ := hex
    have hquiet := (hP.resolve_left fun hn => hn.1 y hy hpy).2
    by_cases hsync : e.Syncs
    · cases e with
      | reduceSync r calls => exact ⟨sent, hT.reduceSync he hO⟩
      | reduceSyncReply r calls => exact ⟨sent, hT.reduceSyncReply he hO⟩
      | reduceSyncDone r calls => exact hT.reduceSyncDone he hO
      | _ => exact hsync.elim
    · have hobjects := objects_of_past he hf hW hy hpy
      exact ⟨sent, hT.congr (reduce_net_next he hO (rested_of_past hW hy hpy) hquiet hsync)
        (point_next he hf hO hen hsync) hobjects (held_next he hf hO hen hsync hobjects)⟩
  · exact ⟨fun _ => 0, tallied_first he hf hW hP hU (fun y hy hpy => hex ⟨y, hy, hpy⟩) hx hp⟩

/-- One invocation with reductions, and its counts. -/
structure Sys.Counting (job : Job) (s : Sys α) : Prop where
  waves : s.Waves job
  reduce : s.ReducePhase job
  unbegun : s.Unbegun job
  counts : s.CountPhase job

theorem counting_start (queue : Rank → List α) (abortFlag : Rank → Bool)
    (input : Rank → ReduceInput) (enqueued : List α) :
    (Sys.start queue abortFlag input enqueued).Counting job where
  waves := waves_start ..
  reduce := reducePhase_start ..
  unbegun := unbegun_start ..
  counts := by
    rintro ⟨x, _, hp⟩
    simp [Sys.Past, Sys.start] at hp

theorem counting_of_run (hen : (job.opts 1).reduceEnabled = true) (hrun : job.once.Run s es t)
    (h : s.Counting job) : t.Counting job :=
  hrun.restrict_invariant (fun _ _ h he hf =>
    ⟨waves_next he hf h.waves, reducePhase_next he hf h.waves h.reduce,
      unbegun_next he hf h.waves.once h.unbegun,
      countPhase_next he hf h.waves h.reduce h.unbegun hen h.counts⟩) h

/-- Rank `0` has returned from `CIRCLE_reduce_sync`. -/
def Sys.Counted (s : Sys α) : Prop := s.Past 0 ∧ (s.pc 0).collected = none

/-- The sum on rank `0` is that over all ranks. -/
theorem total_of_counted (hO : s.Once job) (hT : s.Tallied job sent) (h : s.Counted) :
    (s.reduce.st 0).total = s.processed job := by
  obtain ⟨hp, hthrough⟩ := h
  have hroot : job.rootedTree.root = 0 := rfl
  have hnot : ¬(s.tally job).Reported job.rootedTree.root := by
    have hparent : (job.tree 1 0).parentRank = none := rfl
    simp [Wave.Reported, Sys.tally, hroot, hparent]
  have hreplies : (s.tally job).replies job.rootedTree.root =
      (job.rootedTree.children job.rootedTree.root).length := by
    simp only [Sys.tally, hroot, point_of_past hO hp, hthrough, Option.getD_none]
    rfl
  have hacc := hT.acc_eq_fold job.rootedTree_wf hnot hreplies
  have hheld : (s.loc 0).held = (s.reduce.st 0).total := by
    refine held_of_past hO hp ?_ ?_ <;>
    · intro hpc
      rw [hpc] at hthrough
      cases hthrough
  rw [← hheld]
  refine hacc.trans ?_
  exact job.rootedTree.fold_add job.rootedTree_wf fun x => Finset.mem_range

theorem total_of_run (hen : (job.opts 1).reduceEnabled = true) {queue : Rank → List α}
    {abortFlag : Rank → Bool} {input : Rank → ReduceInput} {enqueued : List α}
    (hrun : job.once.Run (Sys.start queue abortFlag input enqueued) es s) (hcounted : s.Counted) :
    (s.reduce.st 0).total = es.countP Event.processes := by
  have hC := counting_of_run hen hrun (counting_start ..)
  obtain ⟨sent, hT⟩ := hC.counts ⟨0, job.size_pos, hcounted.1⟩
  have hprocessed := processed_of_run hrun (once_start ..) (unbegun_start ..)
  rw [total_of_counted hC.waves.once hT hcounted, hprocessed]
  simp [Sys.processed, Sys.start]

/-! ## One item for each call -/

def WorkOp.dequeues : WorkOp α → Bool
  | .dequeue => true
  | _ => false

/-- The process callback takes one item, and the create callback takes none. -/
def Event.takesOne : Event α → Bool
  | .begin _ _ ops => ops.countP WorkOp.dequeues = 0
  | .process _ ops => ops.countP WorkOp.dequeues = 1
  | _ => true

namespace CallbackState

variable {k : CallbackState α} {ops : List (WorkOp α)}

theorem run_cons (op : WorkOp α) : k.run (op :: ops) = (k.call op).run ops := rfl

theorem dequeued_of_none (h : ops.countP WorkOp.dequeues = 0) :
    (k.run ops).dequeued = k.dequeued := by
  induction ops generalizing k with
  | nil => rfl
  | cons op ops ih =>
      cases op with
      | enqueue x | abort =>
          rw [List.countP_cons_of_neg Bool.false_ne_true] at h
          exact (run_cons _ ▸ ih h)
      | dequeue =>
          rw [List.countP_cons_of_pos rfl] at h
          cases h

theorem dequeued_of_one (hq : k.queue ≠ []) (h : ops.countP WorkOp.dequeues = 1) :
    (k.run ops).dequeued.length = k.dequeued.length + 1 := by
  induction ops generalizing k with
  | nil => cases h
  | cons op ops ih =>
      rw [run_cons]
      cases op with
      | enqueue x =>
          rw [List.countP_cons_of_neg Bool.false_ne_true] at h
          exact ih (by simp [call]) h
      | abort =>
          rw [List.countP_cons_of_neg Bool.false_ne_true] at h
          exact ih hq h
      | dequeue =>
          rw [List.countP_cons_of_pos rfl] at h
          rw [dequeued_of_none (Nat.succ.inj h)]
          simp [call, List.getLast?_eq_getLast_of_ne_nil hq]

end CallbackState

theorem dequeued_next (he : s.Enabled job e) (htakes : e.takesOne = true) :
    (s.next job e).dequeued.length = s.dequeued.length + e.processes.toNat := by
  cases e with
  | begin r next ops =>
      exact congrArg List.length (CallbackState.dequeued_of_none (of_decide_eq_true htakes))
  | process r ops => exact CallbackState.dequeued_of_one he.2.1 (of_decide_eq_true htakes)
  | _ => rfl

/-- The items dequeued are the calls of the process callback. -/
theorem dequeued_of_run (hrun : job.once.Run s es t) (htakes : ∀ e ∈ es, e.takesOne = true) :
    t.dequeued.length = s.dequeued.length + es.countP Event.processes := by
  induction hrun with
  | nil => simp
  | @cons s t e es he _ ih =>
      obtain ⟨htake, htakes⟩ := List.forall_mem_cons.mp htakes
      rw [ih htakes]
      refine (congrArg (· + _) (dequeued_next he.1 htake)).trans ?_
      cases h : e.processes <;> simp [h]
      omega

/-! ## The count that is printed -/

/-- In every invocation with reductions, with either kind of termination and any aborts, in which no
rank calls the process callback more than `INT32_MAX` times, the counters of the ranks are in the
range of `int32_t`, the count that rank `0` prints after the final reduction is the number of calls
on all ranks so far, and there are no more of them. -/
theorem final_count (hen : (job.opts 1).reduceEnabled = true) {queue : Rank → List α}
    {abortFlag : Rank → Bool} {input : Rank → ReduceInput} {enqueued : List α}
    {fs : List (Event α)}
    (hrun : job.once.Run (Sys.start queue abortFlag input enqueued) es s)
    (hint : ∀ r, es.countP (Event.processesOn r) ≤ int32Max) (hcounted : s.Counted)
    (hrun' : job.once.Run s fs t) :
    (∀ r, s.objects r ≤ int32Max) ∧ (s.reduce.st 0).total = es.countP Event.processes ∧
      fs.countP Event.processes = 0 := by
  refine ⟨objects_le_of_run hrun hint, total_of_run hen hrun hcounted, ?_⟩
  have hC := counting_of_run hen hrun (counting_start ..)
  have hsame := objects_of_run hrun' hC.waves job.size_pos hcounted.1
  have hprocessed := processed_of_run hrun' hC.waves.once hC.unbegun
  rw [Sys.processed, Sys.processed, hsame] at hprocessed
  omega

/-- Two ranks with tree termination and reductions that both create items. -/
def countPair : Job := .uniform 2 ⟨true, false, true, true, 64, treeWidth_init_pos⟩ Nat.two_pos

/-- A pass through the main loop with reductions, up to `CIRCLE_request_work`. -/
def passCount (r : Rank) : List (Event Nat) :=
  (passMain r).dropLast ++ [.reduceBegin r false false []]

/-- Rank `r` turns the requestor `src` away, on such a pass. -/
def passRefuse (r src : Rank) : List (Event Nat) :=
  [.workreq r src, .workreqDone r 0, .sendNoWork r, .workreceiptDone r, .worksend r 0] ++
    (passCount r).drop 2

/-- A pass through the cleanup loop with reductions. -/
def passDrain (r : Rank) (request : Event Nat) : List (Event Nat) :=
  [.workreqDone r 0, .worksendDone r, .reduceBegin r false false [], request, .abortStart r,
    .abortRequest r none, .abortReplies r false, .barrierStart r]

/-- The ranks process three items and go through the final reduction. -/
def countRun : List (Event Nat) :=
  List.flatten
    [[.begin 0 (some 1) [.enqueue 1, .enqueue 2], .begin 1 (some 0) [.enqueue 3]],
      passCount 0, [.requestSkip 0, .process 0 [.dequeue]],
      passCount 0, [.requestSkip 0, .process 0 [.dequeue]],
      passCount 1, [.requestSkip 1, .process 1 [.dequeue]],
      passCount 1, [.requestSend 1 false (some 0), .checkForTerm 1, .termRepliesDone 1, .termUp 1,
        .termDown 1 false],
      passRefuse 0 1, [.requestSend 0 false (some 1), .checkForTerm 0, .termReply 0 1,
        .termRepliesDone 0, .termUp 0],
      passRefuse 1 0, [.requestReply 1 true, .checkForTerm 1, .termRepliesDone 1, .termUp 1,
        .termDown 1 true],
      .barrierStart 0 :: passDrain 0 (.requestReply 0 true),
      [.barrierReply 0 none, .barrierUp 0, .barrierDown 0 false],
      [.barrierStart 1, .barrierReply 1 none, .barrierUp 1, .barrierDown 1 false],
      passDrain 0 (.requestNone 0 true), [.barrierReply 0 (some 1), .barrierUp 0],
      passDrain 1 (.requestNone 1 true), [.barrierReply 1 none, .barrierUp 1, .barrierDown 1 true],
      [.worksendWait 0, .worksendWait 1, .reduceSync 0 [], .reduceSync 1 [], .reduceSyncDone 1 [],
        .reduceSyncReply 0 [], .reduceSyncDone 0 []]]

theorem final_count_countRun :
    let s := countPair.once.follow .fresh countRun
    (s.reduce.st 0).total = countRun.countP Event.processes ∧ countRun.countP Event.processes = 3 :=
  have hrun : countPair.once.Run .fresh countRun (countPair.once.follow .fresh countRun) :=
    .of_admits (by decide +kernel)
  have hcounted : (countPair.once.follow Sys.fresh countRun).Counted :=
    ⟨.inl (by decide +kernel), by decide +kernel⟩
  have hint : ∀ r, countRun.countP (Event.processesOn r) ≤ int32Max := fun r =>
    List.countP_le_length.trans (by decide +kernel)
  ⟨(final_count rfl hrun hint hcounted (.nil _)).2.1, by decide +kernel⟩

/-- In an invocation with tree termination and reductions in which no callback calls
`CIRCLE_abort`, every call of the process callback takes one item, and no rank makes more than
`INT32_MAX` of them, the counters of the ranks are in the range of `int32_t`, and the count that
rank `0` prints after the final reduction is the number of items enqueued. -/
theorem final_count_items (ht : (job.opts 1).termTree = true)
    (hen : (job.opts 1).reduceEnabled = true) {queue : Rank → List α} {input : Rank → ReduceInput}
    {enqueued : List α}
    (hstart : (enqueued : Multiset α) = ∑ r ∈ Finset.range job.size, (queue r : Multiset α))
    (hrun : job.once.Run (Sys.start queue (fun _ => false) input enqueued) es s)
    (hcalls : ∀ e ∈ es, e.aborts = false) (htakes : ∀ e ∈ es, e.takesOne = true)
    (hint : ∀ r, es.countP (Event.processesOn r) ≤ int32Max) (hcounted : s.Counted) :
    (∀ r, s.objects r ≤ int32Max) ∧ (s.reduce.st 0).total = s.enqueued.length := by
  have hO : s.Once job := (counting_of_run hen hrun (counting_start ..)).waves.once
  have hleft : s.Left 0 := by
    rcases hcounted.1 with hst | ⟨hst, hinv⟩
    · exact ⟨by simp [hst], by simp [hO.inv_eq, hst]⟩
    · exact ⟨by simp [hst], hinv⟩
  have hall := congrArg Multiset.card (processed_of_left ht hstart hrun hcalls hleft).1
  rw [Multiset.coe_card, Multiset.coe_card, dequeued_of_run hrun htakes] at hall
  refine ⟨objects_le_of_run hrun hint, ?_⟩
  rw [total_of_run hen hrun hcounted, ← hall]
  simp [Sys.start]

theorem final_count_items_countRun :
    let s := countPair.once.follow .fresh countRun
    (s.reduce.st 0).total = s.enqueued.length ∧ s.enqueued = [1, 2, 3] :=
  have hrun : countPair.once.Run .fresh countRun (countPair.once.follow .fresh countRun) :=
    .of_admits (by decide +kernel)
  have hcounted : (countPair.once.follow Sys.fresh countRun).Counted :=
    ⟨.inl (by decide +kernel), by decide +kernel⟩
  have hint : ∀ r, countRun.countP (Event.processesOn r) ≤ int32Max := fun r =>
    List.countP_le_length.trans (by decide +kernel)
  ⟨(final_count_items rfl rfl rfl hrun (by decide +kernel) (by decide +kernel) hint hcounted).2,
    by decide +kernel⟩

end Libcircle
