import Libcircle.System.AbortAgreement
import Libcircle.System.Invocations

/-!
# An abort outlives its invocation

`CIRCLE_ABORT_FLAG` is set by `CIRCLE_abort`, by an abort request, by a poisoned
work reply and by the result of the abort reduction.  Nothing resets it between
two calls of `CIRCLE_begin`, while `CIRCLE_init_local_state` resets `abort_state`.

`Job.logged` is the system with the log of the invocations in which some rank
called `CIRCLE_abort`.  Every trace of an abort is younger than an entry of the log
(`Sys.Traced`), and every entry reaches all ranks by the abort reduction of its
invocation and stays with them (`Sys.Pursued`).  So a rank ends an invocation
aborted exactly if that invocation or an earlier one is in the log
(`abortFlag_iff_logged`).
-/

namespace Libcircle

variable {α : Type*} {job : Job} {s t : Sys α} {e : Event α} {r x : Rank} {l l' : List Nat}

/-! ## The log -/

/-- The library call is one of `CIRCLE_abort`. -/
def WorkOp.aborts : WorkOp α → Bool
  | .abort => true
  | _ => false

/-- Some callback of the event calls `CIRCLE_abort`. -/
def Event.aborts : Event α → Bool
  | .begin _ _ ops | .process _ ops => ops.any WorkOp.aborts
  | .reduceBegin _ _ _ calls | .reduceReply _ _ calls | .reduceDone _ calls
  | .reduceSync _ calls | .reduceSyncReply _ calls | .reduceSyncDone _ calls => callsAbort calls
  | _ => false

/-- The log after an event. -/
def Job.log (job : Job) (s : Sys α) (l : List Nat) (e : Event α) : List Nat :=
  if e.aborts then l ++ [(s.next job e).inv e.rank] else l

/-- The system with the log of the invocations in which a rank called `CIRCLE_abort`. -/
def Job.logged (job : Job) : EventSystem (Sys α × List Nat) (Event α) where
  Enabled y e := y.1.Enabled job e
  next y e := (y.1.next job e, job.log y.1 y.2 e)

instance (y : Sys α × List Nat) (e : Event α) : Decidable (job.logged.Enabled y e) :=
  inferInstanceAs (Decidable (y.1.Enabled job e))

/-- The log does not restrict the runs. -/
theorem Job.step_of_logged {y z : Sys α × List Nat} {es : List (Event α)}
    (h : job.logged.Run y es z) : job.step.Run y.1 es z.1 :=
  h.map Prod.fst (fun _ _ he => he) fun _ _ => rfl

theorem Job.mem_log {j : Nat} :
    j ∈ job.log s l e ↔ j ∈ l ∨ (e.aborts = true ∧ j = (s.next job e).inv e.rank) := by
  rw [Job.log]
  cases e.aborts <;> simp

/-- `CIRCLE_abort` was called in invocation `k` or before. -/
def Logged (l : List Nat) (k : Nat) : Prop := ∃ j ∈ l, j ≤ k

theorem Logged.mono {k k' : Nat} (h : Logged l k) (hk : k ≤ k') : Logged l k' := by
  obtain ⟨j, hj, hle⟩ := h
  exact ⟨j, hj, hle.trans hk⟩

theorem Logged.log {k : Nat} (h : Logged l k) : Logged (job.log s l e) k := by
  obtain ⟨j, hj, hle⟩ := h
  exact ⟨j, Job.mem_log.mpr (.inl hj), hle⟩

theorem logged_of_aborts (h : e.aborts = true) :
    Logged (job.log s l e) ((s.next job e).inv e.rank) :=
  ⟨_, Job.mem_log.mpr (.inr ⟨h, rfl⟩), Nat.le_refl _⟩

/-- A callback sets the flag exactly if it calls `CIRCLE_abort`. -/
theorem CallbackState.abortFlag_run_eq (ops : List (WorkOp α)) (c : CallbackState α) :
    (c.run ops).abortFlag = (c.abortFlag || ops.any WorkOp.aborts) := by
  induction ops generalizing c with
  | nil => simp [CallbackState.run]
  | cons op ops ih =>
      refine (ih (c.call op)).trans ?_
      cases op <;> simp [CallbackState.call, WorkOp.aborts]

/-! ## Counts only grow -/

theorem reductions_le_next (x : Rank) : s.reductions x ≤ (s.next job e).reductions x := by
  by_cases hx : x = e.rank
  · subst hx
    cases e with
    | worksendWait r | reduceSyncDone r calls | abortReduceReply r =>
        simp [Sys.next, Sys.reductions, Event.rank, AbortReduceNet.enter, AbortReduceNet.recvFlag]
    | abortReduceUp r =>
        obtain ⟨p, _, hy⟩ | ⟨_, hy⟩ := s.abortReduce.report_cases (s.tree job r) r <;>
        simp [Sys.next, Sys.reductions, Event.rank, hy, AbortReduceNet.sendUp,
          AbortReduceNet.complete]
    | abortReduceDown r =>
        cases hp : (s.tree job r).parentRank with
        | none => simp [Sys.next, Sys.reductions, Event.rank, AbortReduceNet.await, hp]
        | some p =>
            simp [Sys.next, Sys.reductions, Event.rank, AbortReduceNet.await, hp,
              AbortReduceNet.recvResult, AbortReduceNet.complete]
    | _ => exact Nat.le_refl _
  · have hloc : (s.next job e).loc x = s.loc x := loc_next_of_ne hx
    exact (congrArg (fun l => l.abortReduce.completed) hloc).ge

/-! ## Every trace has a cause -/

/-- Every trace of an abort is younger than an entry of the log. -/
structure Sys.Traced (job : Job) (s : Sys α) (l : List Nat) : Prop where
  flag : ∀ r, s.abortFlag r = true → Logged l (s.inv r)
  request : ∀ a b, s.abort.requests a b ≠ [] → a < job.size ∧ Logged l (s.inv a)
  reply : ∀ a b, .abort ∈ s.work.replies a b → Logged l (s.inv a)
  /-- The partial results of the abort reduction. -/
  result : ∀ r, (s.abortReduce.st r).flag = true → Logged l (s.inv r)
  /-- The messages of the abort reduction. -/
  message : ∀ a b, true ∈ s.abortReduce.net a b → Logged l (s.reductions b + 1)

theorem traced_start (queue : Rank → List α) (input : Rank → ReduceInput) (enqueued : List α) :
    (Sys.start queue (fun _ => false) input enqueued).Traced job [] := by
  constructor <;> simp [Sys.start]

/-- A flag is set by a call of `CIRCLE_abort`, by a message, or it was set before. -/
theorem flag_next_cases (hflag : (s.next job e).abortFlag e.rank = true) :
    s.abortFlag e.rank = true ∨ e.aborts = true ∨
      (∃ q, e = .abortRequest e.rank (some q)) ∨
      (∃ sent, e = .requestReply e.rank sent ∧ (s.reply e.rank).aborts = true) ∨
      (e = .abortReduceUp e.rank ∧ (s.abortReduce.st e.rank).flag = true) ∨
      (e = .abortReduceDown e.rank ∧
        ∃ p, (s.tree job e.rank).parentRank = some p ∧
          (s.abortReduce.net p e.rank).headD false = true) := by
  cases e with
  | begin r next ops | process r ops =>
      have h : (s.callback r ops).abortFlag = true := by
        simpa [Sys.next, Event.rank] using hflag
      rw [Sys.callback, CallbackState.abortFlag_run_eq, Bool.or_eq_true] at h
      exact h.elim .inl fun h => .inr (.inl h)
  | reduceBegin r due hit calls | reduceReply r hit calls | reduceDone r calls
  | reduceSync r calls | reduceSyncReply r calls | reduceSyncDone r calls =>
      have h : s.abortFlag r = true ∨ callsAbort calls = true := by
        simpa [Sys.next, Event.rank] using hflag
      exact h.elim .inl fun h => .inr (.inl h)
  | abortRequest r src =>
      cases src with
      | none => exact .inl (by simpa [Sys.next, Event.rank] using hflag)
      | some q => exact .inr (.inr (.inl ⟨q, rfl⟩))
  | requestReply r sent =>
      have h : s.abortFlag r = true ∨ (s.reply r).aborts = true := by
        simpa [Sys.next, Event.rank] using hflag
      exact h.elim .inl fun h => .inr (.inr (.inr (.inl ⟨sent, rfl, h⟩)))
  | abortReduceUp r =>
      obtain ⟨p, _, hy⟩ | ⟨_, hy⟩ := s.abortReduce.report_cases (s.tree job r) r
      · exact .inl (by simpa [Sys.next, Event.rank, hy] using hflag)
      · refine .inr (.inr (.inr (.inr (.inl ⟨rfl, ?_⟩))))
        simpa [Sys.next, Event.rank, hy] using hflag
  | abortReduceDown r =>
      cases hp : (s.tree job r).parentRank with
      | none => exact .inl (by simpa [Sys.next, Event.rank, AbortReduceNet.await, hp] using hflag)
      | some p =>
          have hy := AbortReduceNet.await_eq s.abortReduce (s.tree job r) r hp
          refine .inr (.inr (.inr (.inr (.inr ⟨rfl, p, hp, ?_⟩))))
          simpa [Sys.next, Event.rank, hy] using hflag
  | _ => exact .inl hflag

/-- A rank that reports has completed as many reductions as its neighbours in the tree. -/
theorem reductions_eq_of_parent {p : Rank} {k : Nat}
    (hk : s.abortReduce.wave.Turn job.trees k) (hc : r ∈ (job.trees k).children p)
    (hup : (s.abortReduce.st r).waiting = false) : s.reductions p = s.reductions r :=
  (hk.inv.quiet_of_not_up hc hup).1.symm

theorem reductions_eq_of_counted {c : Rank} {k : Nat} (hc : c ∈ (job.trees k).children r)
    (hall : ∀ a ∈ (job.trees k).children r, s.abortReduce.wave.counted r a = true) :
    s.reductions c = s.reductions r :=
  (Wave.counted_iff.mp (hall c hc)).2.1

/-- `CIRCLE_abort_start` on `r` sends requests of `r` only. -/
theorem requests_abortStart {y : AbortNet} {t : TreeState} {cleanup : Bool} {a b : Rank}
    (hm : (y.abortStart t cleanup r).requests a b ≠ []) : y.requests a b ≠ [] ∨ a = r := by
  unfold AbortNet.abortStart at hm
  split at hm
  · exact .inl hm
  · split at hm
    · exact .inl hm
    · by_cases ha : a = r
      · exact .inr ha
      · have hb : y.requests.bcast r t.neighbours () a b = y.requests a b :=
          Chan.bcast_ne _ _ fun h => ha h.1
        exact .inl fun hnil => hm (hb.trans hnil)

section Poison

variable {w : WorkNet α} {f : Bool} {k count : Nat} {a b dest : Rank}

theorem abort_of_sendNoWork (hm : .abort ∈ ((w.sendNoWork f r dest).nextRequestor r).replies a b) :
    .abort ∈ w.replies a b ∨ (a = r ∧ f = true) := by
  refine ((Chan.mem_push _ _).mp hm).imp id fun ⟨ha, _, hp⟩ => ⟨ha, ?_⟩
  cases f with
  | true => rfl
  | false => cases hp

theorem abort_of_sendWork
    (hm : .abort ∈ ((w.sendWork f k r dest count).nextRequestor r).replies a b) :
    .abort ∈ w.replies a b ∨ (a = r ∧ f = true) := by
  by_cases hc : count = 0
  · rw [hc, WorkNet.sendWork_zero] at hm
    exact abort_of_sendNoWork hm
  · simp only [WorkNet.sendWork, hc, if_false] at hm
    refine ((Chan.mem_push _ _).mp hm).imp_right ?_
    rintro ⟨_, _, hp⟩
    cases hp

end Poison

namespace Sys.Traced

variable (h : s.Traced job l)
include h

/-- A rank learns of an abort from a rank that is in the same invocation or behind. -/
theorem flag_rank (he : s.Enabled job e) (hT : s.Turns job)
    (hflag : (s.next job e).abortFlag e.rank = true) :
    Logged (job.log s l e) ((s.next job e).inv e.rank) := by
  have hlt := (hT.coherent.ok _).rank_lt he
  have hat := (hT.coherent.ok e.rank).position
  have hle : s.inv e.rank ≤ (s.next job e).inv e.rank := inv_le_next _
  obtain hold | hcall | ⟨q, hq⟩ | ⟨sent, hq, hab⟩ | ⟨_, hres⟩ | ⟨hq, p, hp, hm⟩ :=
    flag_next_cases hflag
  · exact ((h.flag _ hold).mono hle).log
  · exact logged_of_aborts hcall
  · rw [hq] at he
    have hpc : s.pc e.rank = .abortRequest := he.1
    rw [hpc] at hat
    obtain ⟨hqlt, hlog⟩ := h.request q e.rank (he.2 q (by simp))
    exact (hlog.mono ((hT.inv_le_of_looping hlt hqlt hat.1).trans hle)).log
  · rw [hq] at he
    have hpc : s.pc e.rank = .request := he.1
    have hne := he.2.2.2
    rw [hpc] at hat
    have haw := hT.coherent.matched.awaits_of_reply hne
    have hd := (hT.coherent.matched.awaits_lt _ _ haw).2.1
    have hmem : .abort ∈ s.work.replies (s.work.request e.rank).workRequestedRank e.rank := by
      obtain ⟨m, ms, hms⟩ := List.exists_cons_of_ne_nil hne
      rw [Sys.reply, hms, List.headD_cons] at hab
      rw [hms]
      cases m with
      | abort => exact List.mem_cons_self ..
      | noWork | items => cases hab
    exact ((h.reply _ _ hmem).mono ((hT.inv_le_of_looping hlt hd hat.1).trans hle)).log
  · exact ((h.result _ hres).mono hle).log
  · rw [hq] at he
    have hpc : s.pc e.rank = .abortReduceDown := he.1
    rw [hpc] at hat
    have hred : s.reductions e.rank + 1 = s.inv e.rank := hat.2.2.2.1
    have hmem : true ∈ s.abortReduce.net p e.rank := by
      cases hms : s.abortReduce.net p e.rank with
      | nil => simp [hms] at hm
      | cons m ms =>
          rw [hms, List.headD_cons] at hm
          exact hm ▸ List.mem_cons_self ..
    exact ((h.message _ _ hmem).mono (hred.le.trans hle)).log

theorem flag_next (he : s.Enabled job e) (hT : s.Turns job) (x : Rank)
    (hflag : (s.next job e).abortFlag x = true) :
    Logged (job.log s l e) ((s.next job e).inv x) := by
  by_cases hx : x = e.rank
  · subst hx
    exact h.flag_rank he hT hflag
  · have hloc : (s.next job e).loc x = s.loc x := loc_next_of_ne hx
    have hflag' : (s.next job e).abortFlag x = s.abortFlag x := congrArg Loc.abortFlag hloc
    exact ((h.flag x (hflag'.symm.trans hflag)).mono (inv_le_next x)).log

/-- Requests are sent by a rank that has its flag set. -/
theorem request_next (he : s.Enabled job e) (hT : s.Turns job) (a b : Rank)
    (hm : (s.next job e).abort.requests a b ≠ []) :
    a < job.size ∧ Logged (job.log s l e) ((s.next job e).inv a) := by
  have hlt := (hT.coherent.ok _).rank_lt he
  have hold : s.abort.requests a b ≠ [] →
      a < job.size ∧ Logged (job.log s l e) ((s.next job e).inv a) :=
    fun hm => ⟨(h.request a b hm).1, ((h.request a b hm).2.mono (inv_le_next a)).log⟩
  have hnew := h.flag_rank he hT
  cases e with
  | abortStart r =>
      simp only [Sys.next] at hm
      split at hm
      next hf =>
        rcases requests_abortStart hm with hm | rfl
        · exact hold hm
        · exact ⟨hlt, hnew hf⟩
      next => exact hold hm
  | abortRequest r src =>
      cases src with
      | none => exact hold hm
      | some q =>
          rcases requests_abortStart hm with hm | rfl
          · exact hold fun hnil => hm (by simp [AbortNet.recvRequest, Chan.pop, hnil])
          · exact ⟨hlt, hnew (by simp [Sys.next, Event.rank])⟩
  | abortReplies r done =>
      refine hold ?_
      simp only [Sys.next] at hm
      split at hm <;> exact hm
  | _ => exact hold hm

/-- Only a rank that has its flag set poisons a reply. -/
theorem reply_next (he : s.Enabled job e) (hT : s.Turns job) (a b : Rank)
    (hm : .abort ∈ (s.next job e).work.replies a b) :
    Logged (job.log s l e) ((s.next job e).inv a) := by
  have hold : .abort ∈ s.work.replies a b → Logged (job.log s l e) ((s.next job e).inv a) :=
    fun hm => ((h.reply a b hm).mono (inv_le_next a)).log
  have hnew := h.flag_rank he hT
  cases e with
  | sendWork r count =>
      rcases abort_of_sendWork hm with hm | ⟨rfl, hf⟩
      · exact hold hm
      · exact hnew hf
  | sendNoWork r =>
      rcases abort_of_sendNoWork hm with hm | ⟨rfl, hf⟩
      · exact hold hm
      · exact hnew hf
  | requestReply r sent =>
      have hm : .abort ∈ s.work.replies.pop (s.work.request r).workRequestedRank r a b := by
        simpa [Sys.next, WorkNet.requestDone, WorkNet.requestTest] using hm
      exact hold (Chan.mem_of_mem_pop _ hm)
  | workreqDone r rand | finish r =>
      refine hold ?_
      simp only [Sys.next] at hm
      split at hm <;> exact hm
  | _ => exact hold hm

/-- The partial result of a rank has the flag of the rank or one it received. -/
theorem result_next (he : s.Enabled job e) (hT : s.Turns job) (x : Rank)
    (hres : ((s.next job e).abortReduce.st x).flag = true) :
    Logged (job.log s l e) ((s.next job e).inv x) := by
  have hold : (s.abortReduce.st x).flag = true →
      Logged (job.log s l e) ((s.next job e).inv x) :=
    fun hres => ((h.result x hres).mono (inv_le_next x)).log
  by_cases hx : x = e.rank
  · subst hx
    have hlt := (hT.coherent.ok _).rank_lt he
    have hat := (hT.coherent.ok e.rank).position
    have hnew := h.flag_rank he hT
    cases e with
    | worksendWait r | reduceSyncDone r calls =>
        refine hnew ?_
        simpa [Sys.next, Event.rank, AbortReduceNet.enter] using hres
    | abortReduceReply r =>
        obtain ⟨hpc, hindex, hm⟩ := he
        rw [show s.pc (Event.abortReduceReply (α := α) r).rank = _ from hpc] at hat
        have hred : s.reductions r + 1 = s.inv r := hat.2.2.2.1
        have hflag : (s.abortReduce.st r).flag = true ∨
            (s.abortReduce.net ((s.tree job r).child (s.abortReduce.st r).index) r).headD false
              = true := by
          simpa [Sys.next, Event.rank, AbortReduceNet.recvFlag] using hres
        rcases hflag with hflag | hflag
        · exact hold hflag
        · obtain ⟨m, ms, hms⟩ := List.exists_cons_of_ne_nil hm
          rw [hms, List.headD_cons] at hflag
          have hlog := h.message _ r (by rw [hms, hflag]; exact List.mem_cons_self ..)
          exact (hlog.mono hred.le).log
    | abortReduceUp r =>
        obtain ⟨p, _, hy⟩ | ⟨_, hy⟩ := s.abortReduce.report_cases (s.tree job r) r
        · exact hold (by simpa [Sys.next, Event.rank, hy, AbortReduceNet.sendUp] using hres)
        · exact hold (by simpa [Sys.next, Event.rank, hy, AbortReduceNet.complete] using hres)
    | abortReduceDown r =>
        obtain ⟨p, hp, _⟩ := TreeState.parentSent_iff.mp he.2
        have hy := AbortReduceNet.await_eq s.abortReduce (s.tree job r) r hp
        have hflag : (s.abortReduce.net p r).headD false = true := by
          simpa [Sys.next, Event.rank, hy, AbortReduceNet.recvResult, AbortReduceNet.complete]
            using hres
        exact hnew (by simpa [Sys.next, Event.rank, hy] using hflag)
    | _ => exact hold hres
  · have hloc : (s.next job e).loc x = s.loc x := loc_next_of_ne hx
    have hst : (s.next job e).abortReduce.st x = s.abortReduce.st x :=
      congrArg Loc.abortReduce hloc
    exact hold (by rwa [hst] at hres)

/-- A message of the abort reduction is about the round of its receiver. -/
theorem message_next (he : s.Enabled job e) (hT : s.Turns job) (a b : Rank)
    (hm : true ∈ (s.next job e).abortReduce.net a b) :
    Logged (job.log s l e) ((s.next job e).reductions b + 1) := by
  have hlt := (hT.coherent.ok _).rank_lt he
  have hat := (hT.coherent.ok e.rank).position
  have hold : true ∈ s.abortReduce.net a b →
      Logged (job.log s l e) ((s.next job e).reductions b + 1) :=
    fun hm => ((h.message a b hm).mono (Nat.succ_le_succ (reductions_le_next b))).log
  -- a message of `r` to a rank in the same round
  have hnew : ∀ {r : Rank}, s.reductions r + 1 = s.inv r → s.reductions b = s.reductions r →
      Logged l (s.inv r) → Logged (job.log s l e) ((s.next job e).reductions b + 1) := by
    intro r hred heq hlog
    rw [← hred, ← heq] at hlog
    exact (hlog.mono (Nat.succ_le_succ (reductions_le_next b))).log
  cases e with
  | abortReduceReply r => exact hold (Chan.mem_of_mem_pop _ hm)
  | abortReduceUp r =>
      obtain ⟨hpc, hindex⟩ := he
      rw [show s.pc (Event.abortReduceUp (α := α) r).rank = _ from hpc] at hat
      have hred : s.reductions r + 1 = s.inv r := hat.2.2.2.1
      have hk := hT.abort_turn hlt hat.1 hred
      obtain ⟨p, hp, hy⟩ | ⟨hp, hy⟩ := s.abortReduce.report_cases (s.tree job r) r
      · simp only [Sys.next, hy] at hm
        rcases (Chan.mem_push _ _).mp hm with hm | ⟨_, rfl, hflag⟩
        · exact hold hm
        · exact hnew hred (reductions_eq_of_parent hk (job.mem_trees_children hlt hp) hat.2.2.1)
            (h.result r hflag.symm)
      · simp only [Sys.next, hy] at hm
        rcases (Chan.mem_bcast _ _).mp hm with hm | ⟨_, hc, hflag⟩
        · exact hold hm
        · exact hnew hred (reductions_eq_of_counted hc (hk.inv.counted_of_replies hindex))
            (h.result r hflag.symm)
  | abortReduceDown r =>
      obtain ⟨hpc, hsent⟩ := he
      rw [show s.pc (Event.abortReduceDown (α := α) r).rank = _ from hpc] at hat
      have hred : s.reductions r + 1 = s.inv r := hat.2.2.2.1
      have hk := hT.abort_turn hlt hat.1 hred
      obtain ⟨p, hp, hne⟩ := TreeState.parentSent_iff.mp hsent
      simp only [Sys.next, AbortReduceNet.await_eq _ _ _ hp] at hm
      rcases (Chan.mem_bcast _ _).mp hm with hm | ⟨_, hc, hflag⟩
      · exact hold (Chan.mem_of_mem_pop _ hm)
      · obtain ⟨m, ms, hms⟩ := List.exists_cons_of_ne_nil hne
        rw [hms, List.headD_cons] at hflag
        have hlog := h.message p r (by rw [hms, ← hflag]; exact List.mem_cons_self ..)
        exact hnew hred (reductions_eq_of_counted hc (hk.inv.counted_of_up r hat.2.2.1))
          (hlog.mono hred.le)
  | _ => exact hold hm

end Sys.Traced

theorem traced_next (he : s.Enabled job e) (hT : s.Turns job) (h : s.Traced job l) :
    (s.next job e).Traced job (job.log s l e) :=
  ⟨h.flag_next he hT, h.request_next he hT, h.reply_next he hT, h.result_next he hT,
    h.message_next he hT⟩

/-! ## Every call reaches all ranks -/

/-- The abort of invocation `j` is on its way to the root, from a rank that has not reported
or along the tree of the invocation. -/
structure Sys.Underway (job : Job) (s : Sys α) (j : Nat) : Prop where
  root_done : s.reductions 0 + 1 = j
  marked :
    (∃ x, x < job.size ∧ (s.abortReduce.st x).waiting = false ∧ s.Raised x) ∨
      (s.abortReduce.wave.Turn job.trees j ∧
        s.abortReduce.wave.Marked (job.trees j) s.Raised (· = true))

/-- The abort of invocation `j` has reached every rank that completed the reduction of this
invocation, and every result on its way to another rank is set. -/
structure Sys.Kept (job : Job) (s : Sys α) (j : Nat) : Prop where
  root_done : j ≤ s.reductions 0
  flag : ∀ x, x < job.size → j ≤ s.reductions x → s.abortFlag x = true
  answers : ∀ p x, (s.abortReduce.st x).waiting = true → j ≤ s.reductions x + 1 →
    false ∉ s.abortReduce.net p x

/-- The abort of invocation `j` reaches every rank in this invocation. -/
def Sys.Pursued (job : Job) (s : Sys α) (j : Nat) : Prop := s.Underway job j ∨ s.Kept job j

/-- A rank that calls `CIRCLE_abort` has not reported. -/
theorem aborts_next (he : s.Enabled job e) (hT : s.Turns job) (hcall : e.aborts = true) :
    (s.next job e).abortFlag e.rank = true ∧
      ((s.next job e).abortReduce.st e.rank).waiting = false ∧
      (s.next job e).reductions e.rank + 1 = (s.next job e).inv e.rank := by
  have hok := (coherent_next he hT.coherent).ok e.rank
  have hat : ∀ p, (s.next job e).pc e.rank = p →
      ((s.next job e).loc e.rank).At job e.rank p := fun _ hp => hp ▸ hok.position
  cases e with
  | begin r next ops | process r ops =>
      have hcall : ops.any WorkOp.aborts = true := hcall
      obtain ⟨_, hred, hw⟩ := hok.counted_of_looping (hat .workreq (Function.update_self ..))
      refine ⟨?_, hw, hred⟩
      simp [Sys.next, Event.rank, Sys.callback, CallbackState.abortFlag_run_eq, hcall]
  | reduceBegin r due hit calls | reduceDone r calls =>
      have hcall : callsAbort calls = true := hcall
      obtain ⟨_, hred, hw⟩ := hok.counted_of_looping (hat .request (Function.update_self ..)).1
      exact ⟨by simp [Sys.next, Event.rank, hcall], hw, hred⟩
  | reduceReply r hit calls =>
      have hcall : callsAbort calls = true := hcall
      have hpos := hat (.reduceReplies ((s.pc r).index + 1)) (Function.update_self ..)
      obtain ⟨_, hred, hw⟩ := hok.counted_of_looping hpos.1
      exact ⟨by simp [Sys.next, Event.rank, hcall], hw, hred⟩
  | reduceSync r calls =>
      have hcall : callsAbort calls = true := hcall
      have hpos := hat (.reduceSyncReplies 0) (Function.update_self ..)
      exact ⟨by simp [Sys.next, Event.rank, hcall], hpos.2.2.1.1, hpos.2.2.2.1⟩
  | reduceSyncReply r calls =>
      have hcall : callsAbort calls = true := hcall
      have hpos := hat (.reduceSyncReplies ((s.pc r).index + 1)) (Function.update_self ..)
      exact ⟨by simp [Sys.next, Event.rank, hcall], hpos.2.2.1.1, hpos.2.2.2.1⟩
  | reduceSyncDone r calls =>
      have hcall : callsAbort calls = true := hcall
      have hpos := hat .abortReduce (Function.update_self ..)
      exact ⟨by simp [Sys.next, Event.rank, hcall], hpos.2.2.1, hpos.2.2.2.1⟩
  | _ => cases hcall

/-- A rank that does not wait has completed as many reductions as the root. -/
theorem Sys.Turns.reductions_eq (h : s.Turns job) (hx : x < job.size)
    (hw : (s.abortReduce.st x).waiting = false) : s.reductions x = s.reductions 0 := by
  obtain ⟨k, hk⟩ := h.abort
  exact hk.inv.done_eq_of_not_up hx hw

theorem Sys.Turns.reductions_le_root (h : s.Turns job) (hx : x < job.size) :
    s.reductions x ≤ s.reductions 0 := by
  obtain ⟨k, hk⟩ := h.abort
  rcases hk.inv.done_cases x hx with hd | ⟨hd, _⟩
  · exact Nat.le_of_eq hd
  · exact Nat.le_of_succ_le (Nat.le_of_eq hd)

/-- A call of `CIRCLE_abort` sets the abort of the invocation on its way. -/
theorem underway_of_aborts (he : s.Enabled job e) (hT : s.Turns job) (hcall : e.aborts = true) :
    (s.next job e).Underway job ((s.next job e).inv e.rank) := by
  have hlt := (hT.coherent.ok _).rank_lt he
  obtain ⟨hflag, hw, hred⟩ := aborts_next he hT hcall
  have hroot := (turns_next he hT).reductions_eq hlt hw
  exact ⟨by rw [← hroot, hred], .inl ⟨_, hlt, hw, .inl hflag⟩⟩

namespace Sys

variable {j : Nat}

theorem Underway.of_wave (h : s.Underway job j) (hwave : t.abortReduce.wave = s.abortReduce.wave)
    (hraised : ∀ x, s.Raised x → t.Raised x) : t.Underway job j where
  root_done := by
    rw [← h.root_done]
    exact congrArg (fun w => w.done 0 + 1) hwave
  marked := by
    rw [hwave]
    refine h.marked.imp ?_ fun ⟨hk, hm⟩ => ⟨hk, hm.mono fun x _ => hraised x⟩
    rintro ⟨x, hx, hw, hr⟩
    exact ⟨x, hx, (congrArg (fun w => w.up x) hwave).trans hw, hraised x hr⟩

theorem Kept.of_wave (h : s.Kept job j) (hwave : t.abortReduce.wave = s.abortReduce.wave)
    (hflag : ∀ x, s.abortFlag x = true → t.abortFlag x = true) : t.Kept job j := by
  have hred : ∀ x, t.reductions x = s.reductions x :=
    fun x => congrArg (fun w => w.done x) hwave
  have hup : ∀ x, (t.abortReduce.st x).waiting = (s.abortReduce.st x).waiting :=
    fun x => congrArg (fun w => w.up x) hwave
  constructor
  · rw [hred]
    exact h.root_done
  · intro x hx hj
    rw [hred] at hj
    exact hflag x (h.flag x hx hj)
  · intro p x hw hj
    rw [hup] at hw
    rw [hred] at hj
    rw [show t.abortReduce.net = s.abortReduce.net from congrArg Wave.net hwave]
    exact h.answers p x hw hj

/-- Once a rank that has not reported takes part in the reduction, the abort is on the tree
of its invocation. -/
theorem Underway.on_tree (h : s.Underway job j) (hT : s.Turns job) (hr : r < job.size)
    (hst : s.stage r = .after) (hw : (s.abortReduce.st r).waiting = false)
    (hred : s.reductions r + 1 = s.inv r) :
    s.inv r = j ∧ s.abortReduce.wave.Turn job.trees j ∧
      s.abortReduce.wave.Marked (job.trees j) s.Raised (· = true) := by
  have hj : s.inv r = j := by
    rw [← hred, hT.reductions_eq hr hw]
    exact h.root_done
  have hk := hT.abort_turn hr hst hred
  rw [hj] at hk
  refine ⟨hj, hk, ?_⟩
  rcases h.marked with ⟨x, hx, hwx, hraised⟩ | ⟨_, hm⟩
  · exact .inl ⟨x, hx, fun hc => absurd (hwx.symm.trans hc.1) (by decide), hraised⟩
  · exact hm

/-- A rank reports: it passes the abort on, or is the root and has the result. -/
theorem Underway.report (h : s.Underway job j) (he : s.Enabled job (.abortReduceUp r))
    (hT : s.Turns job) : (s.next job (.abortReduceUp r)).Pursued job j := by
  have hlt : r < job.size := (hT.coherent.ok r).rank_lt (e := .abortReduceUp r) he
  obtain ⟨hpc, hindex⟩ := he
  have hat := (hT.coherent.ok r).position
  rw [hpc] at hat
  obtain ⟨hj, hk, hm⟩ := h.on_tree hT hlt hat.1 hat.2.2.1 hat.2.2.2.1
  have htree : s.tree job r = job.tree j r := congrArg (fun k => job.tree k r) hj
  rw [htree] at hindex
  have hflag : s.Raised r → (s.abortReduce.st r).flag = true := by
    rintro (ha | ⟨_, hf⟩)
    · exact hat.2.2.2.2 ha
    · exact hf
  obtain ⟨p, hp, hy⟩ | ⟨hp, hy⟩ := s.abortReduce.report_cases (job.tree j r) r
  · left
    have hc := job.mem_trees_children hlt hp
    have hwave := AbortReduceNet.wave_sendUp (r := r) s.abortReduce p
    have hwave' : (s.next job (.abortReduceUp r)).abortReduce.wave
        = s.abortReduce.wave.send r p (s.abortReduce.st r).flag := by
      simp only [Sys.next, htree, hy, hwave]
    have hdone : (s.next job (.abortReduceUp r)).reductions 0 = s.reductions 0 :=
      congrArg (fun w => w.done 0) hwave'
    have hraised : ∀ x, x ≠ r → s.Raised x → (s.next job (.abortReduceUp r)).Raised x :=
      fun x hx => (raised_frame (e := .abortReduceUp r) hx).mpr
    refine ⟨hdone ▸ h.root_done, .inr ?_⟩
    rw [hwave']
    have hred : s.reductions r + 1 = s.inv r := hat.2.2.2.1
    exact ⟨hk.send hc hat.2.2.1 (hk.inv.counted_of_replies hindex) (hred.trans hj) _,
      hm.send hc hraised hflag⟩
  · right
    obtain rfl : r = 0 := job.eq_trees_root hlt hp
    have hall := hk.inv.counted_of_replies hindex
    have hresult := hflag (hm.root_of_release hk.inv hall)
    -- no rank has the result of an earlier round outstanding
    have hdone : ∀ x, x < job.size → s.reductions x + 1 = j := by
      intro x hx
      have hle := hT.reductions_le_root hx
      have hroot := h.root_done
      rcases hk.done_cases x hx with hd | ⟨hd, _⟩
      · exact hd
      · have hd : s.reductions x = j := hd
        omega
    have hnone : ∀ p c, c ∈ (job.trees j).children p → s.abortReduce.net p c = [] := by
      intro p c hc
      by_contra hne
      obtain ⟨_, _, hd, _⟩ := hk.inv.answered_of_answer hc hne
      have hd : s.reductions p = s.reductions c + 1 := hd
      have hpn := (job.trees j).node_parent c p ((job.trees j).node_of_mem hc)
        ((job.trees j).parent_of_mem hc)
      have h₁ := hdone p hpn
      have h₂ := hdone c ((job.trees j).node_of_mem hc)
      omega
    constructor
    · have hroot := h.root_done
      simp only [Sys.next, Sys.reductions, htree, hy, AbortReduceNet.complete,
        Function.update_self]
      exact Nat.le_of_eq hroot.symm
    · intro x hx hle
      by_cases hxr : x = 0
      · simp [Sys.next, htree, hy, hxr, hresult]
      · have hold : (s.next job (.abortReduceUp 0)).reductions x = s.reductions x := by
          simp [Sys.next, Sys.reductions, htree, hy, AbortReduceNet.complete,
            Function.update_of_ne hxr]
        have hlt := hdone x hx
        omega
    · intro p c hw _ hmem
      simp only [Sys.next, htree, hy] at hmem
      rcases (Chan.mem_bcast _ _).mp hmem with hmem | ⟨_, _, hfalse⟩
      · have hc0 : c ≠ 0 := by
          rintro rfl
          simp [Sys.next, htree, hy, AbortReduceNet.complete] at hw
        have hw : (s.abortReduce.st c).waiting = true := by
          simpa [Sys.next, htree, hy, AbortReduceNet.complete, Function.update_of_ne hc0] using hw
        have hnil : s.abortReduce.net p c = [] := by
          by_cases hc : c ∈ (job.trees j).children p
          · exact hnone p c hc
          · exact hk.inv.net_eq_nil_of_counted (hk.inv.counted_of_up c hw) hc
        rw [hnil] at hmem
        cases hmem
      · exact absurd (hfalse.trans hresult) (by decide)

theorem Underway.next (h : s.Underway job j) (he : s.Enabled job e) (hT : s.Turns job) :
    (s.next job e).Pursued job j := by
  have hlt := (hT.coherent.ok _).rank_lt he
  have hat := (hT.coherent.ok e.rank).position
  cases e with
  | worksendWait r | reduceSyncDone r calls =>
      exact .inl (h.of_wave (AbortReduceNet.wave_enter s.abortReduce _)
        fun x => raised_next he (by simp) (by simp) (by simp))
  | abortReduceReply r =>
      left
      obtain ⟨hpc, hindex, hm⟩ := id he
      rw [show s.pc (Event.abortReduceReply (α := α) r).rank = _ from hpc] at hat
      obtain ⟨hj, hk, hmarked⟩ := h.on_tree hT hlt hat.1 hat.2.2.1 hat.2.2.2.1
      have htree : s.tree job r = job.tree j r := congrArg (fun k => job.tree k r) hj
      rw [htree] at hindex hm
      have hc : (job.tree j r).child (s.abortReduce.st r).index ∈ (job.trees j).children r :=
        TreeState.child_mem hindex
      obtain ⟨m, hnet, _⟩ := hk.inv.sent_of_report hc hm
      have hnet : s.abortReduce.net ((job.tree j r).child (s.abortReduce.st r).index) r = [m] :=
        hnet
      have hwave := AbortReduceNet.wave_recvFlag (r := r) s.abortReduce
        ((job.tree j r).child (s.abortReduce.st r).index) m
      have hwave' : (s.next job (.abortReduceReply r)).abortReduce.wave
          = s.abortReduce.wave.recv r ((job.tree j r).child (s.abortReduce.st r).index) := by
        simp only [Sys.next, htree, hnet, List.headD_cons, hwave]
      have hdone : (s.next job (.abortReduceReply r)).reductions 0 = s.reductions 0 :=
        congrArg (fun w => w.done 0) hwave'
      refine ⟨hdone ▸ h.root_done, .inr ?_⟩
      rw [hwave']
      refine ⟨hk.recv hc hm, hmarked.recv hk.inv hc hnet ?_ ?_⟩
      · intro x hx
        by_cases hxr : x = r
        · subst hxr
          refine hx.imp_right ?_
          rintro ⟨_, hflag⟩
          exact ⟨hpc, by simp [Sys.next, AbortReduceNet.recvFlag, hflag]⟩
        · exact (raised_frame (e := .abortReduceReply r) hxr).mpr hx
      · rintro rfl
        exact .inr ⟨hpc, by simp [Sys.next, htree, hnet, AbortReduceNet.recvFlag]⟩
  | abortReduceUp r => exact h.report he hT
  | abortReduceDown r =>
      left
      obtain ⟨hpc, hsent⟩ := id he
      rw [show s.pc (Event.abortReduceDown (α := α) r).rank = _ from hpc] at hat
      have hred : s.reductions r + 1 = s.inv r := hat.2.2.2.1
      have hk := hT.abort_turn hlt hat.1 hred
      obtain ⟨p, hp, hm⟩ := TreeState.parentSent_iff.mp hsent
      have hc := job.mem_trees_children hlt hp
      obtain ⟨_, _, hd, hup, _⟩ := hk.inv.answered_of_answer hc hm
      have hd : s.reductions p = s.reductions r + 1 := hd
      have hpn := (job.trees (s.inv r)).node_parent r p ((job.trees (s.inv r)).node_of_mem hc)
        ((job.trees (s.inv r)).parent_of_mem hc)
      have hpr := hT.reductions_le_root hpn
      have hroot := h.root_done
      -- the answer is one of the round before
      have hr0 : (0 : Rank) ≠ r := Wave.root_ne_of_mem hc
      have hloc : (s.next job (.abortReduceDown r)).loc 0 = s.loc 0 := loc_next_of_ne hr0
      have hdone : (s.next job (.abortReduceDown r)).reductions 0 = s.reductions 0 :=
        congrArg (fun l => l.abortReduce.completed) hloc
      refine ⟨hdone ▸ h.root_done, .inl ?_⟩
      rcases h.marked with ⟨x, hx, hw, hraised⟩ | ⟨hk', _⟩
      · have hxr : x ≠ r := by
          rintro rfl
          exact absurd (hw.symm.trans hup) (by decide)
        have hlocx : (s.next job (.abortReduceDown r)).loc x = s.loc x := loc_next_of_ne hxr
        have hwx : ((s.next job (.abortReduceDown r)).abortReduce.st x).waiting
            = (s.abortReduce.st x).waiting := congrArg (fun l => l.abortReduce.waiting) hlocx
        exact ⟨x, hx, hwx.trans hw, (raised_frame (e := .abortReduceDown r) hxr).mpr hraised⟩
      · exfalso
        rcases hk'.done_cases r hlt with hd' | ⟨hd', _⟩
        · have hd' : s.reductions r + 1 = j := hd'
          omega
        · have hd' : s.reductions r = j := hd'
          omega
  | _ =>
      exact .inl (h.of_wave rfl fun x => raised_next he (by simp) (by simp) (by simp))

/-- A rank that holds the abort of invocation `j` reports it. -/
theorem Kept.report (h : s.Kept job j) (he : s.Enabled job (.abortReduceUp r))
    (hT : s.Turns job) : (s.next job (.abortReduceUp r)).Kept job j := by
  have hlt : r < job.size := (hT.coherent.ok r).rank_lt (e := .abortReduceUp r) he
  obtain ⟨hpc, hindex⟩ := he
  have hat := (hT.coherent.ok r).position
  rw [hpc] at hat
  have hk := hT.abort_turn hlt hat.1 hat.2.2.2.1
  have hall := hk.inv.counted_of_replies hindex
  obtain ⟨p, hp, hy⟩ | ⟨hp, hy⟩ := s.abortReduce.report_cases (s.tree job r) r
  · have hc := job.mem_trees_children hlt hp
    have hdone : ∀ x, (s.next job (.abortReduceUp r)).reductions x = s.reductions x := by
      intro x
      by_cases hxr : x = r
      · subst hxr
        simp [Sys.next, Sys.reductions, hy, AbortReduceNet.sendUp]
      · simp [Sys.next, Sys.reductions, hy, AbortReduceNet.sendUp, Function.update_of_ne hxr]
    constructor
    · rw [hdone]
      exact h.root_done
    · intro x hx hle
      rw [hdone] at hle
      have hflag := h.flag x hx hle
      by_cases hxr : x = r
      · subst hxr
        simpa [Sys.next, hy] using hflag
      · simpa [Sys.next, hy, Function.update_of_ne hxr] using hflag
    · intro q x hw hle hmem
      rw [hdone] at hle
      by_cases hxr : x = r
      · -- a rank that reports has nothing in flight to it
        subst hxr
        simp only [Sys.next, hy, AbortReduceNet.sendUp] at hmem
        rw [Chan.push_ne _ _ fun he => (job.trees (s.inv x)).ne_of_mem hc he.2.symm] at hmem
        have hnil : s.abortReduce.net q x = [] := by
          by_cases hqc : x ∈ (job.trees (s.inv x)).children q
          · exact (hk.inv.quiet_of_not_up hqc hat.2.2.1).2.2
          · exact hk.inv.net_eq_nil_of_counted hall hqc
        rw [hnil] at hmem
        cases hmem
      · have hw : (s.abortReduce.st x).waiting = true := by
          simpa [Sys.next, hy, AbortReduceNet.sendUp, Function.update_of_ne hxr] using hw
        have hxp : x ≠ p := by
          rintro rfl
          have hup := (Wave.counted_iff.mp (hk.inv.counted_of_up x hw r hc)).1
          exact absurd (hat.2.2.1.symm.trans hup) (by decide)
        simp only [Sys.next, hy, AbortReduceNet.sendUp] at hmem
        rw [Chan.push_ne _ _ fun he => hxp he.2] at hmem
        exact h.answers q x hw hle hmem
  · obtain rfl : r = 0 := job.eq_trees_root hlt hp
    have hresult := hat.2.2.2.2 (h.flag 0 hlt h.root_done)
    have hresult : (s.abortReduce.st 0).flag = true := hresult
    have hdone : ∀ x, x ≠ 0 → (s.next job (.abortReduceUp 0)).reductions x = s.reductions x := by
      intro x hxr
      simp [Sys.next, Sys.reductions, hy, AbortReduceNet.complete, Function.update_of_ne hxr]
    constructor
    · exact h.root_done.trans (reductions_le_next 0)
    · intro x hx hle
      by_cases hxr : x = 0
      · simp [Sys.next, hy, hxr, hresult]
      · rw [hdone x hxr] at hle
        simpa [Sys.next, hy, Function.update_of_ne hxr] using h.flag x hx hle
    · intro q x hw hle hmem
      have hxr : x ≠ 0 := by
        rintro rfl
        simp [Sys.next, hy, AbortReduceNet.complete] at hw
      rw [hdone x hxr] at hle
      have hw : (s.abortReduce.st x).waiting = true := by
        simpa [Sys.next, hy, AbortReduceNet.complete, Function.update_of_ne hxr] using hw
      simp only [Sys.next, hy] at hmem
      rcases (Chan.mem_bcast _ _).mp hmem with hmem | ⟨_, _, hfalse⟩
      · exact h.answers q x hw hle hmem
      · exact absurd (hfalse.trans hresult) (by decide)

/-- A rank that receives the result of a later reduction than the one of invocation `j`, or of
this one, keeps its flag or gets it. -/
theorem Kept.result (h : s.Kept job j) (he : s.Enabled job (.abortReduceDown r))
    (hT : s.Turns job) : (s.next job (.abortReduceDown r)).Kept job j := by
  have hlt : r < job.size := (hT.coherent.ok r).rank_lt (e := .abortReduceDown r) he
  obtain ⟨hpc, hsent⟩ := he
  have hat := (hT.coherent.ok r).position
  rw [hpc] at hat
  have hk := hT.abort_turn hlt hat.1 hat.2.2.2.1
  obtain ⟨p, hp, hm⟩ := TreeState.parentSent_iff.mp hsent
  have hc := job.mem_trees_children hlt hp
  obtain ⟨m, hnet, _⟩ := hk.inv.answered_of_answer hc hm
  have hnet : s.abortReduce.net p r = [m] := hnet
  have hy := AbortReduceNet.await_eq s.abortReduce (s.tree job r) r hp
  rw [hnet, List.headD_cons] at hy
  have hset : j ≤ s.reductions r + 1 → m = true := by
    intro hle
    cases m with
    | true => rfl
    | false =>
        exact absurd (by rw [hnet]; exact List.mem_cons_self ..) (h.answers p r hat.2.2.1 hle)
  have hdone : ∀ x, x ≠ r → (s.next job (.abortReduceDown r)).reductions x = s.reductions x := by
    intro x hxr
    simp [Sys.next, Sys.reductions, hy, AbortReduceNet.recvResult, AbortReduceNet.complete,
      Function.update_of_ne hxr]
  have hself : (s.next job (.abortReduceDown r)).reductions r = s.reductions r + 1 := by
    simp [Sys.next, Sys.reductions, hy, AbortReduceNet.recvResult, AbortReduceNet.complete]
  constructor
  · exact h.root_done.trans (reductions_le_next 0)
  · intro x hx hle
    by_cases hxr : x = r
    · subst hxr
      rw [hself] at hle
      simp [Sys.next, hy, hset hle]
    · rw [hdone x hxr] at hle
      simpa [Sys.next, hy, Function.update_of_ne hxr] using h.flag x hx hle
  · intro q x hw hle hmem
    have hxr : x ≠ r := by
      rintro rfl
      simp [Sys.next, hy, AbortReduceNet.recvResult, AbortReduceNet.complete] at hw
    rw [hdone x hxr] at hle
    have hw : (s.abortReduce.st x).waiting = true := by
      simpa [Sys.next, hy, AbortReduceNet.recvResult, AbortReduceNet.complete,
        Function.update_of_ne hxr] using hw
    simp only [Sys.next, hy] at hmem
    rcases (Chan.mem_bcast _ _).mp hmem with hmem | ⟨_, hcx, hfalse⟩
    · exact h.answers q x hw hle (Chan.mem_of_mem_pop _ hmem)
    · have heq := reductions_eq_of_counted hcx (hk.inv.counted_of_up r hat.2.2.1)
      rw [heq] at hle
      exact absurd (hfalse.trans (hset hle)) (by decide)

theorem Kept.next (h : s.Kept job j) (he : s.Enabled job e) (hT : s.Turns job) :
    (s.next job e).Kept job j := by
  cases e with
  | worksendWait r | reduceSyncDone r calls =>
      exact h.of_wave (AbortReduceNet.wave_enter s.abortReduce _)
        fun x => abortFlag_next (by simp) (by simp)
  | abortReduceReply r =>
      have hw : ∀ x, ((s.next job (.abortReduceReply r)).abortReduce.st x).waiting
          = (s.abortReduce.st x).waiting := by
        intro x
        by_cases hxr : x = r
        · subst hxr
          simp [Sys.next, AbortReduceNet.recvFlag]
        · simp [Sys.next, AbortReduceNet.recvFlag, Function.update_of_ne hxr]
      have hdone : ∀ x, (s.next job (.abortReduceReply r)).reductions x = s.reductions x := by
        intro x
        by_cases hxr : x = r
        · subst hxr
          simp [Sys.next, Sys.reductions, AbortReduceNet.recvFlag]
        · simp [Sys.next, Sys.reductions, AbortReduceNet.recvFlag, Function.update_of_ne hxr]
      constructor
      · exact h.root_done.trans (reductions_le_next 0)
      · intro x hx hle
        rw [hdone] at hle
        exact h.flag x hx hle
      · intro q x hup hle hmem
        rw [hw] at hup
        rw [hdone] at hle
        exact h.answers q x hup hle (Chan.mem_of_mem_pop _ hmem)
  | abortReduceUp r => exact h.report he hT
  | abortReduceDown r => exact h.result he hT
  | _ => exact h.of_wave rfl fun x => abortFlag_next (by simp) (by simp)

end Sys

/-! ## Runs -/

/-- The log is what the traces of aborts in the state come from. -/
structure Sys.Records (job : Job) (y : Sys α × List Nat) : Prop where
  turns : y.1.Turns job
  traced : y.1.Traced job y.2
  pursued : ∀ j ∈ y.2, y.1.Pursued job j

theorem records_start (queue : Rank → List α) (input : Rank → ReduceInput) (enqueued : List α) :
    Sys.Records job (Sys.start queue (fun _ => false) input enqueued, []) :=
  ⟨turns_start .., traced_start .., by simp⟩

theorem records_next {y : Sys α × List Nat} (he : y.1.Enabled job e) (h : Sys.Records job y) :
    Sys.Records job (job.logged.next y e) := by
  refine ⟨turns_next he h.turns, traced_next he h.turns h.traced, fun j hj => ?_⟩
  rcases Job.mem_log.mp hj with hj | ⟨hcall, rfl⟩
  · exact (h.pursued j hj).elim (fun hu => hu.next he h.turns) fun hk => .inr (hk.next he h.turns)
  · exact .inl (underway_of_aborts he h.turns hcall)

/-- A rank that has returned from `CIRCLE_work_loop` has its flag set exactly if its invocation
or an earlier one is in the log. -/
theorem Sys.Records.flag_iff (h : Sys.Records job (s, l)) (hpc : s.pc r = .returned) :
    s.abortFlag r = true ↔ Logged l (s.inv r) := by
  refine ⟨h.traced.flag r, fun ⟨j, hj, hle⟩ => ?_⟩
  have hok := h.turns.coherent.ok r
  have hlt : r < job.size := hok.rank_lt (e := .finish r) hpc
  have hat := hok.position
  rw [hpc] at hat
  have hred : s.reductions r = s.inv r := hat.2.2.2
  have hroot : s.reductions r ≤ s.reductions 0 := h.turns.reductions_le_root hlt
  rcases h.pursued j hj with hu | hk
  · have hdone : s.reductions 0 + 1 = j := hu.root_done
    omega
  · exact hk.flag r hlt (hred ▸ hle)

/-- What is logged after the root completed the reduction of invocation `k` is later. -/
theorem logged_of_run {y z : Sys α × List Nat} {es : List (Event α)} {k : Nat}
    (hrun : job.logged.Run y es z) (h : Sys.Records job y) (hk : k ≤ y.1.reductions 0) :
    ∀ j ∈ z.2, j ≤ k → j ∈ y.2 := by
  refine (hrun.invariant (I := fun z => Sys.Records job z ∧ k ≤ z.1.reductions 0 ∧
    ∀ j ∈ z.2, j ≤ k → j ∈ y.2) (fun z e ⟨hR, hle, hold⟩ hE => ?_) ⟨h, hk, fun _ hj _ => hj⟩).2.2
  refine ⟨records_next hE hR, hle.trans (reductions_le_next 0), fun j hj hjk => ?_⟩
  rcases Job.mem_log.mp hj with hj | ⟨hcall, rfl⟩
  · exact hold j hj hjk
  · have hroot := (underway_of_aborts hE hR.turns hcall).root_done
    have hmono : z.1.reductions 0 ≤ (z.1.next job e).reductions 0 := reductions_le_next 0
    omega

theorem log_mono_of_run {y z : Sys α × List Nat} {es : List (Event α)}
    (hrun : job.logged.Run y es z) : ∀ j ∈ y.2, j ∈ z.2 :=
  hrun.invariant (I := fun z => ∀ j ∈ y.2, j ∈ z.2)
    (fun _ _ hI _ j hj => Job.mem_log.mpr (.inl (hI j hj))) fun _ hj => hj

/-- When a rank returns from its `k`-th invocation, its abort flag is set exactly if some rank
called `CIRCLE_abort` in this invocation or in an earlier one, whatever is called later. -/
theorem abortFlag_iff_logged (h : Sys.Records job (s, l)) (hpc : s.pc r = .returned)
    {fs : List (Event α)} (hrun : job.logged.Run (s, l) fs (t, l')) :
    s.abortFlag r = true ↔ Logged l' (s.inv r) := by
  rw [h.flag_iff hpc]
  have hok := h.turns.coherent.ok r
  have hat := hok.position
  rw [hpc] at hat
  have hred : s.reductions r = s.inv r := hat.2.2.2
  have hroot := h.turns.reductions_le_root (hok.rank_lt (e := .finish r) hpc)
  constructor
  · rintro ⟨j, hj, hle⟩
    exact ⟨j, log_mono_of_run hrun j hj, hle⟩
  · rintro ⟨j, hj, hle⟩
    exact ⟨j, logged_of_run hrun h (hred ▸ hroot) j hj hle, hle⟩

end Libcircle
