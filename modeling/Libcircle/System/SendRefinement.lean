import Libcircle.Model.Outbox
import Libcircle.System.AbortAgreement

/-!
# The arrays of sends refine the lists

In every run with arrays (`Job.arrays`) the arrays of a rank hold the sends of the
list in `WorkNet.sends`, in some order (`Sys.Agrees`): a check takes from the list what it
finds complete.  Each buffer is freed after its send is complete, and once
(`Outbox.Holds`).  After `CIRCLE_worksend_wait` none is left, so
`CIRCLE_finalize_local_state` loses none.
-/

namespace Libcircle

/-! ## The system with arrays -/

/-- An event of the system with arrays, in which `CIRCLE_worksend_check` is one event. -/
inductive ArrayEvent (α : Type*) where
  | event (e : Event α)
  /-- `flag i` is what `MPI_Test` says of the request in slot `i`. -/
  | worksendCheck (r : Rank) (flag : Nat → Bool)

variable {α : Type*}

/-- The event of the system that it is, or ends with. -/
def ArrayEvent.last : ArrayEvent α → Event α
  | .event e => e
  | .worksendCheck r _ => .worksendDone r

/-- The sends are as in `f`. -/
def Sys.withSends (s : Sys α) (f : Rank → List SendReq) : Sys α :=
  { s with work := { s.work with sends := f } }

/-- The event is a part of `CIRCLE_worksend_check`. -/
def Event.checksSends : Event α → Bool
  | .worksend _ _ | .worksendDone _ => true
  | _ => false

/-- The system with the arrays of all ranks. -/
abbrev ArraySys (α : Type*) := Sys α × (Rank → Outbox)

/-- What the functions of the ranks see: the sends are those in the arrays. -/
def ArraySys.sys (x : ArraySys α) : Sys α := x.1.withSends fun r => (x.2 r).sends

/-- What an event makes of the arrays of the rank that takes it. -/
def ArraySys.effect (x : ArraySys α) : ArrayEvent α → Option Outbox
  | .event e => (x.2 e.rank).next x.sys e
  | .worksendCheck r flag => (x.2 r).worksendCheck flag

/-- The system with the arrays of all ranks. -/
def Job.arrays (job : Job) : EventSystem (ArraySys α) (ArrayEvent α) where
  Enabled x
    | .event e => e.checksSends = false ∧ x.sys.Enabled job e
    | .worksendCheck r _ => x.sys.Enabled job (.worksendDone r)
  next x a :=
    (x.sys.next job a.last,
      Function.update x.2 a.last.rank ((x.effect a).getD (x.2 a.last.rank)))

instance (job : Job) (x : ArraySys α) : ∀ e, Decidable (job.arrays.Enabled x e)
  | .event _ => inferInstanceAs (Decidable (_ ∧ _))
  | .worksendCheck r _ => inferInstanceAs (Decidable (x.sys.Enabled job (.worksendDone r)))

/-- There is room in the arrays for the sends that the event posts. -/
def ArraySys.Room (x : ArraySys α) : ArrayEvent α → Prop
  | .event e => (x.2 e.rank).sends.length + (x.sys.posts e).length ≤ maxSends
  | .worksendCheck _ _ => True

instance (x : ArraySys α) : ∀ e, Decidable (x.Room e)
  | .event _ => inferInstanceAs (Decidable (_ ≤ _))
  | .worksendCheck _ _ => .isTrue trivial

variable {job : Job} {s t : Sys α} {e : Event α} {r : Rank}

/-! ## The system without its sends -/

theorem enabled_withSends {f : Rank → List SendReq} (hc : e.checksSends = false) :
    (s.withSends f).Enabled job e ↔ s.Enabled job e := by
  cases e with
  | worksend r i | worksendDone r => cases hc
  | _ => exact Iff.rfl

theorem posts_withSends (f : Rank → List SendReq) : (s.withSends f).posts e = s.posts e := by
  cases e <;> rfl

/-- The event forgets the sends of its rank. -/
def Event.clearsSends : Event α → Bool
  | .begin .. | .worksendWait _ => true
  | _ => false

theorem sends_next (hc : e.checksSends = false) :
    (s.next job e).work.sends = Function.update s.work.sends e.rank
      (if e.clearsSends then [] else s.work.sends e.rank ++ s.posts e) := by
  cases e with
  | worksend r i | worksendDone r => cases hc
  | sendWork r count =>
      by_cases h : count = 0
      · simp [Sys.next, Event.rank, Event.clearsSends, Sys.posts, h, WorkNet.sendWork_zero,
          WorkNet.sendNoWork, WorkNet.nextRequestor]
      · simp [Sys.next, Event.rank, Event.clearsSends, Sys.posts, h, WorkNet.sendWork,
          WorkNet.nextRequestor, List.replicate_succ]
  | requestReply r sent =>
      have hsends : (s.next job (.requestReply r sent)).work.sends =
          (s.work.workReceive r (s.work.request r).workRequestedRank (s.reply r)).sends := by
        simp only [Sys.next, WorkNet.requestDone, WorkNet.requestTest]
        cases s.reply r <;> rfl
      rw [hsends]
      simp only [Event.rank, Event.clearsSends, Sys.posts]
      cases s.reply r <;> simp [WorkNet.workReceive, Reply.transfers]
  | begin r next ops =>
      simp [Sys.next, Event.rank, Event.clearsSends, WorkNet.setQueue, WorkNet.init]
  | sendNoWork r =>
      simp [Sys.next, Event.rank, Event.clearsSends, Sys.posts, WorkNet.sendNoWork,
        WorkNet.nextRequestor]
  | worksendWait r => simp [Sys.next, Event.rank, Event.clearsSends, WorkNet.worksendWait]
  | workreqDone r rand =>
      by_cases h : s.work.requestors r = [] ∨ s.Refuses job r <;>
        simp [Sys.next, Event.rank, Event.clearsSends, Sys.posts, h, WorkNet.planSizes]
  | finish r =>
      cases h : s.abortFlag r <;>
        simp [Sys.next, Event.rank, Event.clearsSends, Sys.posts, h, WorkNet.setQueue]
  | _ => simp [Sys.next, Event.rank, Event.clearsSends, Sys.posts, WorkNet.workreqRecv,
      WorkNet.workreceiptRecv, WorkNet.requestSend, WorkNet.requestTest, WorkNet.setQueue]

/-- The other fields do not depend on which sends are left, but on how many. -/
theorem next_withSends {f : Rank → List SendReq} (hc : e.checksSends = false)
    (hlen : ∀ r, (f r).length = (s.work.sends r).length) :
    (s.withSends f).next job e =
      (s.next job e).withSends ((s.withSends f).next job e).work.sends := by
  cases e with
  | worksend r i | worksendDone r => cases hc
  | workreqDone r rand =>
      have href : (s.withSends f).Refuses job r ↔ s.Refuses job r := by
        simp only [Sys.Refuses, Sys.withSends, hlen]
      have hreq : (s.withSends f).work.requestors = s.work.requestors := rfl
      simp only [Sys.next, href, hreq]
      by_cases h : s.work.requestors r = [] ∨ s.Refuses job r
      · simp only [if_pos h]
        rfl
      · simp only [if_neg h]
        rfl
  | barrierStart r =>
      have hset : (s.withSends f).Settled r ↔ s.Settled r := by
        simp only [Sys.Settled, Sys.withSends, ← List.length_eq_zero_iff, hlen]
      simp only [Sys.next, hset]
      rfl
  | sendWork r count =>
      by_cases h : count = 0
      · simp only [Sys.next, Sys.withSends, WorkNet.sendWork, if_pos h]
        rfl
      · simp only [Sys.next, Sys.withSends, WorkNet.sendWork, if_neg h]
        rfl
  | requestReply r sent =>
      have hreply : (s.withSends f).reply r = s.reply r := rfl
      simp only [Sys.next, hreply]
      cases s.reply r <;> rfl
  | finish r =>
      cases h : s.abortFlag r <;> simp [Sys.next, Sys.withSends, h, WorkNet.setQueue]
  | _ => rfl

/-! ## The arrays of a rank -/

theorem SendTable.Tracks.requests_eq {ρ β : Type} {t : SendTable ρ β}
    {live : List (ρ × Option β)} (h : t.Tracks live) : t.requests = live.map Prod.fst := by
  rcases h with ⟨hreqs, _, _, _, rfl⟩ | ⟨reqs, bufs, h⟩
  · rw [SendTable.requests, hreqs]
    rfl
  · rw [SendTable.requests, h.reqs_eq, Option.bind_some, h.count_eq, h.slices.1, Option.getD_some,
      List.filterMap_map]
    exact congrFun List.filterMap_eq_map live

/-- The arrays have the sends of `live`, each with the buffer that is allocated for it, and the
buffers of the others have been freed. -/
structure Outbox.Holds (o : Outbox) (live : List (SendHandle × Option Nat)) : Prop where
  tracks : o.table.Tracks live
  path : LabelledPath Loans.Step (⟨0, 0⟩ : Loans SendHandle Nat) o.log ⟨live, 0⟩
  numbers : (o.log.filterMap LoanEvent.post?).map (fun p => p.1.number) = List.range o.posted
  buffers : ∀ p ∈ o.log.filterMap LoanEvent.post?, ∀ b ∈ p.2, b = p.1.number

/-- The arrays hold some sends. -/
def Outbox.Sound (o : Outbox) : Prop := ∃ live, o.Holds live

namespace Outbox

variable {o : Outbox} {live : List (SendHandle × Option Nat)}

theorem Holds.sends_eq (h : o.Holds live) : o.sends = live.map fun p => p.1.send := by
  rw [Outbox.sends, h.tracks.requests_eq, List.map_map]
  rfl

/-- Where each buffer has the number of its send, the buffers are among these numbers. -/
theorem bufs_sublist {l : List (SendHandle × Option Nat)}
    (hl : ∀ p ∈ l, ∀ b ∈ p.2, b = p.1.number) :
    (Loans.bufs l).Sublist (l.map fun p => p.1.number) := by
  induction l with
  | nil => exact .slnil
  | cons p l ih =>
      obtain ⟨hp, hrest⟩ := List.forall_mem_cons.mp hl
      obtain ⟨x, _ | b⟩ := p
      · exact (ih hrest).cons _
      · have hb : b = x.number := hp b rfl
        subst hb
        exact (ih hrest).cons_cons _

/-- No buffer is freed twice. -/
theorem Holds.nodup_freed (h : o.Holds live) : (o.log.map Loans.freed).sum.Nodup := by
  have hsum := Loans.freed_add_lent h.path
  rw [Loans.sum_posted, show Loans.lent (⟨0, 0⟩ : Loans SendHandle Nat) = 0 from rfl,
    add_zero] at hsum
  refine Multiset.nodup_of_le (Multiset.le_iff_exists_add.mpr ⟨_, hsum.symm⟩) ?_
  refine Multiset.coe_nodup.mpr ((bufs_sublist h.buffers).nodup ?_)
  rw [h.numbers]
  exact List.nodup_range

/-- Every buffer is still lent, or has been freed. -/
theorem Holds.freed_add_bufs (h : o.Holds live) :
    (o.log.map Loans.freed).sum + ↑(Loans.bufs live) = (o.log.map Loans.posted).sum := by
  rw [← Loans.lent_coe, Loans.freed_add_lent h.path]
  exact add_zero _

theorem Holds.sound (h : o.Holds live) : o.Sound := ⟨live, h⟩

theorem holds_start : start.Holds [] :=
  ⟨SendTable.tracks_init none, .nil _, rfl, by simp [start]⟩

/-- The send `x` has just been posted, and is tracked. -/
theorem Holds.post (h : o.Holds live) {x : SendHandle × Option Nat} {t : SendTable SendHandle Nat}
    (hnumber : x.1.number = o.posted) (hbuf : ∀ b ∈ x.2, b = x.1.number)
    (ht : t.Tracks (live ++ [x])) :
    Holds ⟨t, o.posted + 1, o.log ++ [.post x.1 x.2]⟩ (live ++ [x]) where
  tracks := ht
  path := by
    have hlast : (↑(live ++ [x]) : Multiset (SendHandle × Option Nat)) = x ::ₘ ↑live :=
      Multiset.coe_eq_coe.mpr (List.perm_append_singleton ..)
    rw [hlast]
    exact h.path.append (.cons (.post x.1 x.2 _ _) (.nil _))
  numbers := by
    rw [List.filterMap_append, List.map_append, h.numbers, List.range_succ, ← hnumber]
    rfl
  buffers := by
    rw [List.filterMap_append]
    intro p hp
    rcases List.mem_append.mp hp with hp | hp
    · exact h.buffers p hp
    · obtain rfl := List.mem_singleton.mp hp
      exact hbuf

theorem Sound.isend (h : o.Sound) (hroom : o.sends.length < maxSends) (send : SendReq)
    (owned : Bool) :
    ∃ o', o.isend send owned = some o' ∧ o'.Sound ∧ o'.sends = o.sends ++ [send] := by
  obtain ⟨live, h⟩ := h
  rw [h.sends_eq, List.length_map] at hroom
  obtain ⟨t, ht, h'⟩ := h.tracks.worksendTrack hroom ⟨o.posted, send⟩
    (if owned then some o.posted else none)
  have hholds := h.post rfl (fun b hb => by cases owned <;> simp_all) h'
  refine ⟨_, ?_, hholds.sound, ?_⟩
  · rw [Outbox.isend, ht, Option.map_some]
  · rw [hholds.sends_eq, h.sends_eq, List.map_append]
    rfl

/-- A function on the arrays that posts no send. -/
theorem Holds.after (h : o.Holds live) {live' : List (SendHandle × Option Nat)}
    {t : SendTable SendHandle Nat} {log : List (LoanEvent SendHandle Nat)} (ht : t.Tracks live')
    (hpath : LabelledPath Loans.Step (⟨live, 0⟩ : Loans SendHandle Nat) log ⟨live', 0⟩)
    (hpost : log.filterMap LoanEvent.post? = []) : (o.after (t, log)).Holds live' where
  tracks := ht
  path := h.path.append hpath
  numbers := by
    rw [Outbox.after, List.filterMap_append, hpost, List.append_nil]
    exact h.numbers
  buffers := by
    rw [Outbox.after, List.filterMap_append, hpost, List.append_nil]
    exact h.buffers

/-- A check takes some of the sends. -/
theorem Sound.worksendCheck (h : o.Sound) (flag : Nat → Bool) :
    ∃ o', o.worksendCheck flag = some o' ∧ o'.Sound ∧ o'.sends.Subperm o.sends := by
  obtain ⟨live, h⟩ := h
  obtain ⟨t, live', ht, hperm, h'⟩ := h.tracks.worksendCheck flag
  have hpath := SendTable.path_reapLog flag live 0
  rw [add_zero, add_zero, ← Multiset.coe_eq_coe.mpr hperm] at hpath
  have hholds := h.after h' hpath (SendTable.post_reapLog live)
  refine ⟨_, by rw [Outbox.worksendCheck, ht, Option.map_some], hholds.sound, ?_⟩
  rw [hholds.sends_eq, h.sends_eq]
  exact (hperm.map _).subperm.trans ((SendTable.kept_sublist flag live).map _).subperm

theorem Sound.worksendWait (h : o.Sound) :
    ∃ o', o.worksendWait = some o' ∧ o'.Sound ∧ o'.sends = [] := by
  obtain ⟨live, h⟩ := h
  obtain ⟨t, ht, h'⟩ := h.tracks.worksendWait
  have hholds := h.after h' SendTable.path_waitLog (SendTable.post_waitLog live)
  exact ⟨_, by rw [Outbox.worksendWait, ht, Option.map_some], hholds.sound, hholds.sends_eq⟩

/-- Arrays without sends are forgotten. -/
theorem Holds.reset (h : o.Holds []) {t : SendTable SendHandle Nat} (ht : t.Tracks []) :
    Holds { o with table := t } [] :=
  ⟨ht, h.path, h.numbers, h.buffers⟩

theorem Sound.holds_nil (h : o.Sound) (hnil : o.sends = []) : o.Holds [] := by
  obtain ⟨live, h⟩ := h
  rw [h.sends_eq, List.map_eq_nil_iff] at hnil
  exact hnil ▸ h

/-- What an event does to the arrays of its rank. -/
theorem Sound.next (h : o.Sound) {s : Sys α} {e : Event α}
    (hroom : o.sends.length + (s.posts e).length ≤ maxSends)
    (hnil : ∀ r next ops, e = .begin r next ops ∨ e = .finish r → o.sends = []) :
    ∃ o', o.next s e = some o' ∧ o'.Sound ∧
      o'.sends = if e.clearsSends then [] else o.sends ++ s.posts e := by
  cases e with
  | begin r next ops =>
      have hreset := (h.holds_nil (hnil r next ops (.inl rfl))).reset (SendTable.tracks_init none)
      exact ⟨_, rfl, hreset.sound, hreset.sends_eq⟩
  | finish r =>
      have hempty : o.sends = [] := hnil r none [] (.inr rfl)
      have hreset := (h.holds_nil hempty).reset (t := o.table.worksendFree)
        (.inl ⟨rfl, rfl, rfl, rfl, rfl⟩)
      refine ⟨_, rfl, hreset.sound, hreset.sends_eq.trans ?_⟩
      rw [hempty]
      rfl
  | worksendWait r => exact h.worksendWait
  | sendNoWork r => exact h.isend hroom _ true
  | sendWork r count =>
      by_cases hcount : count = 0
      · subst hcount
        exact h.isend hroom _ true
      · simp only [Sys.posts, if_neg hcount, List.length_replicate] at hroom
        obtain ⟨o₁, hfirst, h₁, hsends₁⟩ :=
          h.isend (by omega) ⟨(s.work.requestors r).headD 0, .workReply⟩ true
        obtain ⟨o₂, hsecond, h₂, hsends₂⟩ :=
          h₁.isend (by rw [hsends₁, List.length_append, List.length_singleton]; omega)
            ⟨(s.work.requestors r).headD 0, .workReply⟩ true
        refine ⟨o₂, ?_, h₂, ?_⟩
        · simp only [Outbox.next, Outbox.sendWork, if_neg hcount, hfirst, hsecond,
            Option.bind_eq_bind, Option.bind_some]
        · rw [hsends₂, hsends₁, List.append_assoc]
          simp only [Event.clearsSends, Sys.posts, if_neg hcount]
          rfl
  | requestReply r sent =>
      simp only [Outbox.next, Sys.posts, Event.clearsSends] at hroom ⊢
      cases hreply : s.reply r with
      | items inv l =>
          rw [hreply] at hroom
          exact h.isend hroom _ false
      | noWork | abort => exact ⟨o, rfl, h, (List.append_nil _).symm⟩
  | _ => exact ⟨o, rfl, h, (List.append_nil _).symm⟩

end Outbox

/-! ## After the wait -/

/-- `CIRCLE_worksend_wait` of the invocation is done, or there is no invocation. -/
def Pc.Waited : Pc → Prop
  | .idle | .reduceSync | .reduceSyncReplies _ | .abortReduce | .abortReduceDown
  | .returned => True
  | _ => False

section Positions

variable {stage : Stage} {wait : Pc}

theorem not_waited_afterWorkreq : ¬(afterWorkreq stage).Waited := by cases stage <;> exact id

theorem not_waited_afterWorksend : ¬(afterWorksend stage).Waited := by cases stage <;> exact id

theorem not_waited_afterRequest : ¬(afterRequest stage).Waited := by cases stage <;> exact id

theorem not_waited_afterAbort {termTree : Bool} : ¬(afterAbort termTree stage).Waited := by
  cases termTree <;> cases stage <;> exact id

theorem not_waited_afterTerm (h : ¬wait.Waited) {flag : Option Bool} :
    ¬(afterTerm wait flag).Waited := by
  rcases flag with _ | _ | _
  · exact h
  · exact id
  · exact id

theorem not_waited_afterBarrier (h : ¬wait.Waited) {complete : Bool} :
    ¬(afterBarrier wait complete).Waited := by
  cases complete
  · exact h
  · exact id

theorem not_waited_afterRequestor (h : ¬wait.Waited) : ¬(s.afterRequestor r wait).Waited := by
  rw [Sys.afterRequestor]
  split
  · exact not_waited_afterWorkreq
  · exact h

end Positions

/-- After the wait no send is posted. -/
theorem waited_next (he : s.Enabled job e) (hw : ((s.next job e).pc e.rank).Waited) :
    e.clearsSends = true ∨ (s.pc e.rank).Waited ∧ s.posts e = [] := by
  cases e with
  | begin r next ops | worksendWait r => exact .inl rfl
  | reduceSync r calls | finish r => exact .inr ⟨(congrArg Pc.Waited he).mpr trivial, rfl⟩
  | reduceSyncReply r calls | reduceSyncDone r calls | abortReduceReply r | abortReduceUp r
  | abortReduceDown r => exact .inr ⟨(congrArg Pc.Waited he.1).mpr trivial, rfl⟩
  | workreq r src | workreceipt r src | worksend r i | termReply r src =>
      exact ((congrArg Pc.Waited he.1).mp hw).elim
  | sendWork r count | sendNoWork r =>
      simp only [Sys.next, Event.rank, Function.update_self] at hw
      exact absurd hw (not_waited_afterRequestor id)
  | worksendDone r =>
      simp only [Sys.next, Event.rank, Function.update_self] at hw
      exact absurd hw not_waited_afterWorksend
  | abortReplies r done =>
      simp only [Sys.next, Event.rank, Function.update_self] at hw
      exact absurd hw not_waited_afterAbort
  | requestReply r sent | requestSend r sent next | requestNone r sent =>
      simp only [Sys.next, Event.rank, Function.update_self] at hw
      exact absurd hw not_waited_afterRequest
  | termUp r | termDown r hit =>
      simp only [Sys.next, Event.rank, Function.update_self] at hw
      exact absurd hw (not_waited_afterTerm id)
  | barrierUp r | barrierDown r hit =>
      simp only [Sys.next, Event.rank, Function.update_self] at hw
      exact absurd hw (not_waited_afterBarrier id)
  | workreqDone r rand =>
      simp only [Sys.next, Event.rank, Function.update_self] at hw
      split at hw
      · exact absurd hw not_waited_afterWorkreq
      · split at hw <;> exact hw.elim
  | token r hit =>
      simp only [Sys.next, Event.rank, Function.update_self] at hw
      generalize s.token.checkForTerm job.size (s.abortFlag r) r _ = y at hw
      split at hw <;> exact hw.elim
  | checkForTerm r | termRepliesDone r | barrierStart r =>
      simp only [Sys.next, Event.rank, Function.update_self] at hw
      split at hw <;> exact hw.elim
  | _ =>
      simp only [Sys.next, Event.rank, Function.update_self] at hw
      exact hw.elim

/-! ## The simulation -/

/-- The list model agrees with the arrays but for the order of the sends. -/
structure Sys.Agrees (t : Sys α) (x : ArraySys α) : Prop where
  eq : t = x.1.withSends t.work.sends
  perm : ∀ r, (t.work.sends r).Perm (x.2 r).sends

/-- The arrays hold sends, and none after the wait. -/
structure ArraySys.Sound (x : ArraySys α) : Prop where
  sound : ∀ r, (x.2 r).Sound
  waited : ∀ r, (x.1.pc r).Waited → (x.2 r).sends = []

variable {x : ArraySys α} {a : ArrayEvent α}

theorem Sys.Agrees.enabled_iff (h : t.Agrees x) (hc : e.checksSends = false) :
    t.Enabled job e ↔ x.sys.Enabled job e := by
  rw [h.eq, enabled_withSends hc, ArraySys.sys, enabled_withSends hc]

/-- The sends that a function on the arrays may leave. -/
def ArraySys.Leaves (x : ArraySys α) : ArrayEvent α → List SendReq → Prop
  | .event e, l => l = if e.clearsSends then [] else (x.2 e.rank).sends ++ x.sys.posts e
  | .worksendCheck r _, l => l.Subperm (x.2 r).sends

/-- Every function on the arrays has a result. -/
theorem ArraySys.Sound.effect (h : x.Sound) (he : job.arrays.Enabled x a) (hroom : x.Room a) :
    ∃ o, x.effect a = some o ∧ o.Sound ∧ x.Leaves a o.sends := by
  cases a with
  | event e =>
      refine (h.sound e.rank).next hroom fun r next ops hor => ?_
      refine h.waited e.rank ?_
      rcases hor with rfl | rfl
      · exact (congrArg Pc.Waited he.2.1).mpr trivial
      · exact (congrArg Pc.Waited he.2).mpr trivial
  | worksendCheck r flag => exact (h.sound r).worksendCheck flag

theorem enabled_last (he : job.arrays.Enabled x a) : x.sys.Enabled job a.last := by
  cases a with
  | event e => exact he.2
  | worksendCheck r flag => exact he

/-- After the wait nothing is left. -/
theorem ArraySys.Leaves.eq_nil {l : List SendReq} (hl : x.Leaves a l) (h : x.Sound)
    (hold : a.last.clearsSends = true ∨
      (x.1.pc a.last.rank).Waited ∧ x.sys.posts a.last = []) : l = [] := by
  cases a with
  | event e =>
      have hl : l = if e.clearsSends then [] else (x.2 e.rank).sends ++ x.sys.posts e := hl
      rcases hold with hclear | ⟨hw, hnone⟩
      · exact hl.trans (if_pos hclear)
      · have hnone : x.sys.posts e = [] := hnone
        rw [hl, h.waited e.rank hw, hnone, List.append_nil, ite_self]
  | worksendCheck r flag =>
      rcases hold with hclear | ⟨hw, _⟩
      · cases hclear
      · have hl : l.Subperm (x.2 r).sends := hl
        rw [h.waited r hw] at hl
        exact List.subperm_nil.mp hl

theorem arrays_next {o : Outbox} (heffect : x.effect a = some o) :
    job.arrays.next x a = (x.sys.next job a.last, Function.update x.2 a.last.rank o) := by
  change (_, Function.update x.2 a.last.rank ((x.effect a).getD (x.2 a.last.rank))) = _
  rw [heffect, Option.getD_some]

theorem ArraySys.Sound.next (h : x.Sound) (he : job.arrays.Enabled x a) (hroom : x.Room a) :
    ArraySys.Sound (job.arrays.next x a) := by
  obtain ⟨o, heffect, ho, hsends⟩ := h.effect he hroom
  rw [arrays_next heffect]
  constructor
  · exact (Function.forall_update_iff _ fun _ => Outbox.Sound).mpr ⟨ho, fun r _ => h.sound r⟩
  · intro r hw
    change (Function.update x.2 a.last.rank o r).sends = []
    by_cases hr : r = a.last.rank
    · subst hr
      rw [Function.update_self]
      exact hsends.eq_nil h (waited_next (s := x.sys) (enabled_last he) hw)
    · have hpc : (x.sys.next job a.last).pc r = x.1.pc r :=
        congrArg Loc.pc (loc_next_of_ne (s := x.sys) hr)
      rw [Function.update_of_ne hr]
      exact h.waited r (hpc ▸ hw)

/-- The list model tests the sends one after the other, and takes those that are not among
`l`. -/
theorem run_worksends {l : List SendReq} (hpc : s.pc r = .worksend)
    (hl : l.Subperm (s.work.sends r)) :
    ∃ fs l', l'.Perm l ∧
      job.step.Run s fs (s.withSends (Function.update s.work.sends r l')) := by
  obtain ⟨n, hn⟩ := Nat.exists_eq_add_of_le hl.length_le
  induction n generalizing s with
  | zero =>
      refine ⟨[], s.work.sends r, (hl.perm_of_length_le hn.le).symm, ?_⟩
      rw [Function.update_eq_self]
      exact .nil s
  | succ n ih =>
      obtain ⟨y, hy⟩ := hl.exists_of_length_lt (by omega)
      obtain ⟨i, hi, rfl⟩ := List.getElem_of_mem (hy.subset (List.mem_cons_self ..))
      have hrest : l.Subperm ((s.work.sends r).eraseIdx i) :=
        (List.subperm_cons _).mp (hy.trans (List.getElem_cons_eraseIdx_perm hi).symm.subperm)
      have hnext : (s.next job (.worksend r i)).work.sends =
          Function.update s.work.sends r ((s.work.sends r).eraseIdx i) := rfl
      obtain ⟨fs, l', hperm, hrun⟩ := ih (s := s.next job (.worksend r i)) hpc
        (by rwa [hnext, Function.update_self])
        (by rw [hnext, Function.update_self, List.length_eraseIdx_of_lt hi, hn]; omega)
      refine ⟨.worksend r i :: fs, l', hperm, .cons ⟨hpc, hi⟩ ?_⟩
      rw [hnext, Function.update_idem] at hrun
      exact hrun

/-- The lists agree with the arrays after a change of both at one rank. -/
theorem Sys.Agrees.perm_update (h : t.Agrees x) {l : List SendReq} {o : Outbox}
    (hl : List.Perm l o.sends) (r d : Rank) :
    (Function.update t.work.sends r l d).Perm (Function.update x.2 r o d).sends := by
  by_cases hd : d = r
  · subst hd
    rwa [Function.update_self, Function.update_self]
  · rw [Function.update_of_ne hd, Function.update_of_ne hd]
    exact h.perm d

theorem Sys.Agrees.next (h : t.Agrees x) (hx : x.Sound) (he : job.arrays.Enabled x a)
    (hroom : x.Room a) :
    ∃ fs u, job.step.Run t fs u ∧ u.Agrees (job.arrays.next x a) := by
  obtain ⟨o, heffect, _, hsends⟩ := hx.effect he hroom
  rw [arrays_next heffect]
  have ht : x.sys.withSends t.work.sends = t := h.eq.symm
  have hlen : ∀ r, (t.work.sends r).length = (x.sys.work.sends r).length := fun r =>
    (h.perm r).length_eq
  cases a with
  | event e =>
      have hsends : o.sends = if e.clearsSends then [] else (x.2 e.rank).sends ++ x.sys.posts e :=
        hsends
      refine ⟨[e], t.next job e, .single ((h.enabled_iff he.1).mpr he.2), ?_, ?_⟩
      · have hnext : (x.sys.withSends t.work.sends).next job e = _ := next_withSends he.1 hlen
        rwa [ht] at hnext
      · have hposts : t.posts e = x.sys.posts e := by rw [← ht, posts_withSends]
        rw [sends_next he.1, hposts]
        refine h.perm_update ?_ e.rank
        rw [hsends]
        split
        · exact .refl _
        · exact (h.perm e.rank).append_right _
  | worksendCheck r flag =>
      have hsends : o.sends.Subperm (x.2 r).sends := hsends
      have hpc : t.pc r = .worksend := by
        rw [← ht]
        exact he
      obtain ⟨fs, l', hperm, hrun⟩ : ∃ fs l', List.Perm l' o.sends ∧
          job.step.Run t fs (t.withSends (Function.update t.work.sends r l')) :=
        run_worksends hpc (hsends.trans (h.perm r).symm.subperm)
      have hdone : job.step.Enabled
          (t.withSends (Function.update t.work.sends r l')) (.worksendDone r) := hpc
      have hrun' := hrun.snoc hdone
      refine ⟨fs ++ [.worksendDone r], _, hrun', ?_, h.perm_update hperm r⟩
      obtain ⟨f, rfl⟩ : ∃ f, t = x.1.withSends f := ⟨_, h.eq⟩
      rfl

theorem sound_start (s : Sys α) : ArraySys.Sound (s, fun _ => Outbox.start) :=
  ⟨fun _ => Outbox.holds_start.sound, fun _ _ => rfl⟩

/-- The arrays refine the lists of sends, in every run of any number of invocations in which no
rank posts a send while `maxSends` are outstanding.  The list model has a run to a state that
differs in the order of the sends only; every function on the arrays has a result; no buffer is
freed before its send is complete, or twice, and after `CIRCLE_worksend_wait` all have been
freed. -/
theorem arrays_refine_sends {queue : Rank → List α} {abortFlag : Rank → Bool}
    {input : Rank → ReduceInput} {enqueued : List α} {as : List (ArrayEvent α)}
    (hrun : (job.arrays.restrict ArraySys.Room).Run
      (Sys.start queue abortFlag input enqueued, fun _ => Outbox.start) as x) :
    (∃ es t, job.step.Run (Sys.start queue abortFlag input enqueued) es t ∧ t.Agrees x) ∧
      (∀ a, job.arrays.Enabled x a → x.Room a → ∃ o, x.effect a = some o) ∧
      ∀ r, ∃ live, (x.2 r).Holds live ∧ ((x.2 r).log.map Loans.freed).sum.Nodup ∧
        ((x.2 r).log.map Loans.freed).sum + ↑(Loans.bufs live) =
          ((x.2 r).log.map Loans.posted).sum ∧
        ((x.1.pc r).Waited → live = []) := by
  have hstep : ∀ (x : ArraySys α) (t : Sys α) (a : ArrayEvent α), x.Sound ∧ t.Agrees x →
      (job.arrays.restrict ArraySys.Room).Enabled x a →
        ∃ fs u, job.step.Run t fs u ∧
          (ArraySys.Sound (job.arrays.next x a) ∧ u.Agrees (job.arrays.next x a)) :=
    fun x t a ⟨hx, ht⟩ ⟨he, hroom⟩ => by
      obtain ⟨fs, u, hu, hagrees⟩ := ht.next hx he hroom
      exact ⟨fs, u, hu, hx.next he hroom, hagrees⟩
  have hstart : Sys.Agrees (Sys.start queue abortFlag input enqueued)
      (Sys.start queue abortFlag input enqueued, fun _ => Outbox.start) :=
    ⟨rfl, fun _ => .refl _⟩
  obtain ⟨es, t, hrun', hx, ht⟩ := hrun.simulate hstep ⟨sound_start _, hstart⟩
  refine ⟨⟨es, t, hrun', ht⟩, fun a he hroom => ?_, fun r => ?_⟩
  · obtain ⟨o, heffect, _⟩ := hx.effect he hroom
    exact ⟨o, heffect⟩
  · obtain ⟨live, h⟩ := hx.sound r
    refine ⟨live, h, h.nodup_freed, h.freed_add_bufs, fun hw => ?_⟩
    rw [← List.map_eq_nil_iff (f := fun p => p.1.send), ← h.sends_eq]
    exact hx.waited r hw

/-- The schedule `es` with arrays, where `flag` is what `MPI_Test` says in every check. -/
def arrayed (flag : Nat → Bool) (es : List (Event Nat)) : List (ArrayEvent Nat) :=
  es.filterMap fun
    | .worksend _ _ => none
    | .worksendDone r => some (.worksendCheck r flag)
    | e => some (.event e)

/-- Each check finds the send in slot `0` complete, and the last send is moved there.  Both ranks
are through the wait at the end. -/
theorem arrays_refine_sends_abortFinish :
    let x : ArraySys Nat := treePair.arrays.follow (Sys.fresh, fun _ => Outbox.start)
      (arrayed (fun i => decide (i = 0)) (abortEarly ++ abortFinish))
    ((x.2 0).posted = 2 ∧ (x.2 1).posted = 1) ∧ ∀ r, r < 2 →
      ((x.2 r).log.map Loans.freed).sum = ((x.2 r).log.map Loans.posted).sum := by
  intro x
  have hrun : (treePair.arrays.restrict ArraySys.Room).Run (Sys.fresh, fun _ => Outbox.start)
      (arrayed (fun i => decide (i = 0)) (abortEarly ++ abortFinish)) x :=
    .of_admits (by decide +kernel)
  have hpc : ∀ r, r < 2 → x.1.pc r = .idle ∨ x.1.pc r = .returned := by decide +kernel
  refine ⟨by decide +kernel, fun r hr => ?_⟩
  obtain ⟨live, _, _, hfreed, hwaited⟩ := (arrays_refine_sends hrun).2.2 r
  have hlive : live = [] := by
    refine hwaited ?_
    rcases hpc r hr with hpc | hpc <;>
    · rw [hpc]
      trivial
  simpa [hlive, Loans.bufs] using hfreed

end Libcircle
