import Libcircle.System.AbortAgreement
import Libcircle.System.BackgroundReduce
import Libcircle.System.TreeSoundness

/-!
# The cleanup loop drains the network

When a rank completes the cleanup barrier, every rank has started it
(`past_or_started`), so no rank has a request, a reduction or an abort broadcast
outstanding.  For each kind of message there is a rank that would have to have
something outstanding while such a message is in flight, so there is none.
-/

namespace Libcircle

variable {α : Type*} {job : Job} {s t u : Sys α} {e : Event α} {r x q : Rank}

/-! ## The abort broadcast -/

namespace AbortNet

/-- Every rank with a broadcast outstanding has, for each of its neighbours, a request or
the reply in flight, and there are no others. -/
structure Paired (nb : Rank → List Rank) (y : AbortNet) : Prop where
  state_of_outstanding : ∀ r, (y.st r).abortOutstanding = true → (y.st r).abortState = true
  one : ∀ r q, (y.st r).abortOutstanding = true → q ∈ nb r →
    (y.requests r q).length + (y.replies q r).length = 1
  none : ∀ r q, (y.st r).abortOutstanding = false ∨ q ∉ nb r →
    y.requests r q = [] ∧ y.replies q r = []

namespace Paired

variable {nb : Rank → List Rank} {y y' : AbortNet} {t : TreeState}

theorem congr (h : y.Paired nb) (hr : y'.requests = y.requests) (hp : y'.replies = y.replies)
    (hout : ∀ x, (y'.st x).abortOutstanding = (y.st x).abortOutstanding)
    (hst : ∀ x, (y.st x).abortOutstanding = true → (y'.st x).abortState = (y.st x).abortState) :
    y'.Paired nb where
  state_of_outstanding x hx := by
    rw [hout x] at hx
    rw [hst x hx, h.state_of_outstanding x hx]
  one x q hx := by
    rw [hout x] at hx
    rw [hr, hp]
    exact h.one x q hx
  none x q := by
    rw [hr, hp, hout x]
    exact h.none x q

/-- The state of a rank without a broadcast is set. -/
theorem setState (h : y.Paired nb) (hout : (y.st r).abortOutstanding = false) {z : Abort}
    (hz : z.abortOutstanding = false) : (y.set r z).Paired nb := by
  refine h.congr rfl rfl (fun x => ?_) (fun x hx => ?_)
  · by_cases hxr : x = r
    · subst hxr
      simp [set, hz, hout]
    · simp [set, Function.update_of_ne hxr]
  · have hxr : x ≠ r := by
      rintro rfl
      exact absurd (hout.symm.trans hx) (by decide)
    simp [set, Function.update_of_ne hxr]

theorem abortStart (h : y.Paired nb) (ht : t.neighbours = nb r) (cleanup : Bool) :
    (y.abortStart t cleanup r).Paired nb := by
  cases hst : (y.st r).abortState with
  | true => simpa [AbortNet.abortStart, hst] using h
  | false =>
      have hout : (y.st r).abortOutstanding = false := by
        rw [Bool.eq_false_iff]
        intro hout
        exact absurd (hst.symm.trans (h.state_of_outstanding r hout)) (by decide)
      cases cleanup with
      | true =>
          simpa [AbortNet.abortStart, hst] using
            h.setState (z := { y.st r with abortState := true }) hout hout
      | false =>
          simp only [AbortNet.abortStart, hst, Bool.false_eq_true, if_false, hout, Bool.false_or,
            ht]
          constructor <;> dsimp only
          · intro x hx
            by_cases hxr : x = r
            · subst hxr
              simp
            · rw [Function.update_of_ne hxr] at hx ⊢
              exact h.state_of_outstanding x hx
          · intro x q hx hq
            by_cases hxr : x = r
            · subst hxr
              obtain ⟨h₁, h₂⟩ := h.none x q (.inl hout)
              rw [Chan.bcast_mem _ _ hq, h₁, h₂]
              rfl
            · rw [Function.update_of_ne hxr] at hx
              rw [Chan.bcast_ne _ _ fun h => hxr h.1]
              exact h.one x q hx hq
          · intro x q hx
            by_cases hxr : x = r
            · subst hxr
              have hq : q ∉ nb x := by
                rcases hx with hx | hx
                · intro hq
                  rw [Function.update_self] at hx
                  simp only [Bool.not_eq_false', List.isEmpty_iff] at hx
                  rw [hx] at hq
                  cases hq
                · exact hx
              rw [Chan.bcast_ne _ _ fun h => hq h.2]
              exact h.none x q (.inl hout)
            · rw [Function.update_of_ne hxr] at hx
              rw [Chan.bcast_ne _ _ fun h => hxr h.1]
              exact h.none x q hx

theorem recvRequest (h : y.Paired nb) (hm : y.requests q r ≠ []) :
    (y.recvRequest r q).Paired nb where
  state_of_outstanding := h.state_of_outstanding
  one a b ha hb := by
    have hone := h.one a b ha hb
    by_cases hab : a = q ∧ b = r
    · obtain ⟨rfl, rfl⟩ := hab
      have := List.length_pos_of_ne_nil hm
      simp only [AbortNet.recvRequest, Chan.pop_self, Chan.push_self, List.length_tail,
        List.length_append, List.length_singleton]
      omega
    · simp only [AbortNet.recvRequest]
      rwa [Chan.pop_ne _ hab, Chan.push_ne _ _ fun h => hab ⟨h.2, h.1⟩]
  none a b hab := by
    obtain ⟨h₁, h₂⟩ := h.none a b hab
    have hne : ¬(a = q ∧ b = r) := by
      rintro ⟨rfl, rfl⟩
      exact hm h₁
    simp only [AbortNet.recvRequest]
    rw [Chan.pop_ne _ hne, Chan.push_ne _ _ fun h => hne ⟨h.2, h.1⟩]
    exact ⟨h₁, h₂⟩

theorem repliesDone (h : y.Paired nb) (ht : t.neighbours = nb r)
    (hout : (y.st r).abortOutstanding = true) (hm : ∀ q ∈ nb r, y.replies q r ≠ []) :
    (y.repliesDone t r).Paired nb where
  state_of_outstanding a ha := by
    by_cases har : a = r
    · subst har
      simp [AbortNet.repliesDone] at ha
    · simp only [AbortNet.repliesDone, Function.update_of_ne har] at ha ⊢
      exact h.state_of_outstanding a ha
  one a b ha hb := by
    have har : a ≠ r := by
      rintro rfl
      simp [AbortNet.repliesDone] at ha
    simp only [AbortNet.repliesDone, Function.update_of_ne har] at ha ⊢
    rw [Chan.gather_ne _ fun h => har h.2]
    exact h.one a b ha hb
  none a b hab := by
    by_cases har : a = r
    · subst har
      simp only [AbortNet.repliesDone, ht]
      by_cases hb : b ∈ nb a
      · have hone := h.one a b hout hb
        have hpos := List.length_pos_of_ne_nil (hm b hb)
        rw [Chan.gather_mem _ hb]
        constructor
        · exact List.length_eq_zero_iff.mp (by omega)
        · exact List.length_eq_zero_iff.mp (by rw [List.length_tail]; omega)
      · rw [Chan.gather_ne _ fun h => hb h.1]
        exact h.none a b (.inr hb)
    · simp only [AbortNet.repliesDone, Function.update_of_ne har] at hab ⊢
      rw [Chan.gather_ne _ fun h => har h.2]
      exact h.none a b hab

end Paired

end AbortNet

/-- The neighbours of a rank in the tree of the invocation. -/
def Job.neighbours (job : Job) (r : Rank) : List Rank := (job.tree 1 r).neighbours

theorem paired_start (queue : Rank → List α) (abortFlag : Rank → Bool)
    (input : Rank → ReduceInput) (enqueued : List α) :
    (Sys.start queue abortFlag input enqueued).abort.Paired job.neighbours where
  state_of_outstanding _ h := by cases h
  one _ _ h := by cases h
  none _ _ _ := ⟨rfl, rfl⟩

theorem paired_next (he : s.Enabled job e) (hO : s.Once job)
    (h : s.abort.Paired job.neighbours) : (s.next job e).abort.Paired job.neighbours := by
  have hok := hO.coherent.ok
  cases e with
  | begin r next ops =>
      have hst := ((hok r).requested_of_idle he.1).1
      have hout : (s.abort.st r).abortOutstanding = false :=
        ((hok r).tidy.settled (.inr (.inr hst))).2.2
      exact h.setState hout rfl
  | abortStart r =>
      have htree := hO.tree_eq ((hok r).stage_ne (by simp [show s.pc r = _ from he]))
      simp only [Sys.next, htree]
      split
      · exact h.abortStart rfl _
      · exact h
  | abortRequest r src =>
      obtain ⟨hpc, hm⟩ := he
      have htree := hO.tree_eq ((hok r).stage_ne (by simp [hpc]))
      cases src with
      | none => exact h
      | some q =>
          simp only [Sys.next, htree]
          exact (h.recvRequest (hm q (by simp))).abortStart rfl _
  | abortReplies r done =>
      obtain ⟨hpc, hdone⟩ := he
      have htree := hO.tree_eq ((hok r).stage_ne (by simp [hpc]))
      cases done with
      | false => exact h
      | true =>
          obtain ⟨hout, hm⟩ := hdone rfl
          rw [htree] at hm
          simp only [Sys.next, htree, if_true]
          exact h.repliesDone rfl hout hm
  | abortReduceUp r | abortReduceDown r =>
      have hat := (hok r).position
      rw [he.1] at hat
      have hout := ((hok r).tidy.settled (.inr (.inl hat.1))).2.2
      exact h.setState hout hout
  | _ => exact h

/-! ## After the barrier -/

theorem past_iff (hO : s.Once job) : s.Past x ↔ 0 < (s.barrier.st x).completed := by
  have hc := (hO.coherent.ok x).tidy.counted
  have hle := hO.inv_le x
  unfold Sys.Past
  cases hst : s.stage x with
  | after =>
      rw [show (s.loc x).stage = _ from hst] at hc
      have hc : (s.barrier.st x).completed = s.inv x ∧ 0 < s.inv x := hc
      simp [hc.1, hc.2]
  | outside =>
      rw [show (s.loc x).stage = _ from hst] at hc
      have hc : (s.barrier.st x).completed = s.inv x := hc.1
      simp [hc]
  | main | cleanup =>
      rw [show (s.loc x).stage = _ from hst] at hc
      have hc : (s.barrier.st x).completed + 1 = s.inv x := hc.1
      simp
      omega

/-- When one rank has completed the barrier, every other one has, or has started it. -/
theorem past_or_started (hW : s.Waves job) (hx : x < job.size) (hp : s.Past x)
    (hr : r < job.size) : s.Past r ∨ (s.barrier.st r).barrierStarted = true := by
  have hdone : 0 < s.barrier.wave.done x := (past_iff hW.once).mp hp
  have hroot : 0 < s.barrier.wave.done job.rootedTree.root := by
    rcases hW.barrier.done_cases x hx with hd | ⟨hd, _⟩ <;> omega
  rcases hW.barrier.done_cases r hr with hd | ⟨_, hup⟩
  · refine .inl ((past_iff hW.once).mpr ?_)
    rw [← hd] at hroot
    exact hroot
  · right
    by_contra hf
    have hup' := ((hW.once.coherent.ok r).tidy.barrier_started (Bool.eq_false_iff.mpr hf)).1
    exact absurd (hup'.symm.trans hup) (by decide)

/-- When one rank has completed the barrier, every rank has left the main loop. -/
theorem left_of_past (hW : s.Waves job) (hx : x < job.size) (hp : s.Past x) (hr : r < job.size) :
    s.stage r ≠ .main ∧ 0 < s.inv r := by
  have hO := hW.once
  rcases past_or_started hW hx hp hr with (hst | ⟨hst, hinv⟩) | hstarted
  · exact ⟨by simp [hst], by simp [hO.inv_eq, hst]⟩
  · exact ⟨by simp [hst], hinv⟩
  · have hst : s.stage r = .cleanup := of_not_not fun hne =>
      absurd (((hO.coherent.ok r).tidy.barrier_reset hne).symm.trans hstarted) (by decide)
    exact ⟨by simp [hst], by simp [hO.inv_eq, hst]⟩

/-- A rank stays past the barrier. -/
theorem past_next (he : s.Enabled job e) (hf : FirstOnly s e) (hO : s.Once job) (h : s.Past x) :
    (s.next job e).Past x := by
  have hpos := (past_iff hO).mp h
  refine (past_iff (once_next he hf hO)).mpr ?_
  cases e with
  | begin r next ops =>
      by_cases hx : x = r
      · subst hx
        simpa [Sys.next, BarrierNet.init, BarrierNet.set] using hpos
      · simpa [Sys.next, BarrierNet.init, BarrierNet.set, Function.update_of_ne hx] using hpos
  | barrierStart r =>
      simp only [Sys.next]
      split
      · by_cases hx : x = r
        · subst hx
          simpa [BarrierNet.barrierStart, BarrierNet.set] using hpos
        · simpa [BarrierNet.barrierStart, BarrierNet.set, Function.update_of_ne hx] using hpos
      · exact hpos
  | barrierReply r src =>
      cases src with
      | none => exact hpos
      | some q =>
          by_cases hx : x = r
          · subst hx
            simpa [Sys.next, BarrierNet.recvArrival] using hpos
          · simpa [Sys.next, BarrierNet.recvArrival, Function.update_of_ne hx] using hpos
  | barrierUp r =>
      simp only [Sys.next]
      obtain ⟨_, hy⟩ | ⟨p, _, _, hy⟩ | ⟨_, _, hy⟩ := s.barrier.report_cases (s.tree job r) r <;>
      rw [hy]
      · exact hpos
      · by_cases hx : x = r
        · subst hx
          simpa [BarrierNet.sendUp] using hpos
        · simpa [BarrierNet.sendUp, Function.update_of_ne hx] using hpos
      · by_cases hx : x = r
        · subst hx
          simp [BarrierNet.complete]
        · simpa [BarrierNet.complete, Function.update_of_ne hx] using hpos
  | barrierDown r hit =>
      simp only [Sys.next]
      obtain hy | ⟨p, _, _, hy⟩ := s.barrier.await_cases (s.tree job r) r hit <;> rw [hy]
      · exact hpos
      · by_cases hx : x = r
        · subst hx
          simp [BarrierNet.recvRelease, BarrierNet.complete]
        · simpa [BarrierNet.recvRelease, BarrierNet.complete, Function.update_of_ne hx] using hpos
  | _ => exact hpos

/-- A rank with nothing outstanding, out of the main loop. -/
structure Sys.Rested (s : Sys α) (r : Rank) : Prop where
  workRequested : (s.work.request r).workRequested = false
  reduce : (s.reduce.st r).outstanding = false
  abort : (s.abort.st r).abortOutstanding = false
  stage_ne : s.stage r ≠ .main

/-- When one rank has completed the barrier, no rank has anything outstanding. -/
theorem rested_of_past (hW : s.Waves job) (hx : x < job.size) (hp : s.Past x) (r : Rank) :
    s.Rested r := by
  have hok := hW.once.coherent.ok r
  have hsettled : (s.barrier.st r).barrierStarted = true ∨ s.stage r = .after ∨
      s.stage r = .outside := by
    by_cases hr : r < job.size
    · rcases past_or_started hW hx hp hr with (hst | ⟨hst, _⟩) | hst
      · exact .inr (.inl hst)
      · exact .inr (.inr hst)
      · exact .inl hst
    · have hpc : s.pc r = .idle := by
        by_contra hpc
        exact hr (hok.lt_size hpc)
      exact .inr (.inr (hok.requested_of_idle hpc).1)
  obtain ⟨h₁, h₂, h₃⟩ := hok.tidy.settled hsettled
  refine ⟨h₁, h₂, h₃, fun hst => ?_⟩
  rcases hsettled with hb | ha | ho
  · have hf := hok.tidy.barrier_reset (show (s.loc r).stage ≠ .cleanup by simp [Sys.loc, hst])
    exact absurd (hf.symm.trans hb) (by decide)
  · cases hst.symm.trans ha
  · cases hst.symm.trans ho

/-! ## Background reductions after the barrier -/

/-- No message of a background reduction is in flight, and none of any reduction goes down. -/
structure ReduceNet.Quiet (T : ParentTree Rank) (y : ReduceNet) : Prop where
  down : ∀ p c, c ∈ T.children p → y.net p c = []
  background : ∀ a b m, m ∈ y.net a b → m.isBackground = false

theorem ReduceNet.Background.quiet {T : ParentTree Rank} {y : ReduceNet} (h : y.Background T)
    (hidle : ∀ r, (y.st r).outstanding = false) : y.Quiet T := by
  have hedge : ∀ p c, c ∈ T.children p → y.net p c = [] ∧ y.net c p = [] := fun p c hc =>
    (heard_iff.mp ((h.edge p c hc).heard_of_idle (hidle p))).2
  refine ⟨fun p c hc => (hedge p c hc).1, fun a b m hm => ?_⟩
  have hnil : y.net a b = [] := by
    by_cases hb : b ∈ T.children a
    · exact (hedge a b hb).1
    · by_cases ha : a ∈ T.children b
      · exact (hedge b a ha).2
      · exact h.off_tree a b hb ha
  rw [hnil] at hm
  cases hm

theorem ReduceNet.mem_recvSync {y : ReduceNet} {c a b : Rank} {m : ReduceMsg}
    (hm : m ∈ (y.recvSync r c).net a b) : m ∈ y.net a b := by
  unfold recvSync at hm
  split at hm
  · dsimp only at hm
    split at hm
    · exact Chan.mem_of_mem_pop _ hm
    · exact Chan.mem_of_mem_pop _ (Chan.mem_of_mem_pop _ hm)
  · exact hm

theorem ReduceNet.mem_syncFinish {y : ReduceNet} {t : TreeState} {a b : Rank} {m : ReduceMsg}
    (hm : m ∈ (y.syncFinish t r).net a b) :
    m ∈ y.net a b ∨ (a = r ∧ t.parentRank = some b ∧ m.isBackground = false) := by
  unfold syncFinish at hm
  cases hp : t.parentRank with
  | none =>
      rw [hp] at hm
      exact .inl hm
  | some p =>
      simp only [hp, sendResult] at hm
      split at hm
      · rcases (Chan.mem_push _ _).mp hm with hm | ⟨ha, hb, hm⟩
        · rcases (Chan.mem_push _ _).mp hm with hm | ⟨ha, hb, hm⟩
          · exact .inl hm
          · exact .inr ⟨ha, by rw [hb], by rw [hm]; rfl⟩
        · exact .inr ⟨ha, by rw [hb], by rw [hm]; rfl⟩
      · rcases (Chan.mem_push _ _).mp hm with hm | ⟨ha, hb, hm⟩
        · exact .inl hm
        · exact .inr ⟨ha, by rw [hb], by rw [hm]; rfl⟩

/-- In the cleanup loop no reduction is started, and a rank without a start message
answers none. -/
theorem ReduceNet.Quiet.begin_eq {y : ReduceNet} (h : y.Quiet job.rootedTree) (hr : r < job.size)
    (due hit : Bool) (hhit : hit = true → (job.tree 1 r).parentSent y.net r = true) :
    y.begin (job.tree 1 r) r true due hit = y := by
  unfold begin
  split
  next hstarts =>
    cases hp : (job.tree 1 r).parentRank with
    | none => rfl
    | some p =>
        simp only [Starts, hp, Option.isNone_some, Bool.false_or, Bool.and_eq_true] at hstarts
        obtain ⟨q, hq, hm⟩ := TreeState.parentSent_iff.mp (hhit hstarts.2)
        exact absurd (h.down q r (job.mem_children hr hq)) hm
  next => rfl

/-- The steps of the final reduction. -/
def Event.Syncs : Event α → Prop
  | .reduceSync .. | .reduceSyncReply .. | .reduceSyncDone .. => True
  | _ => False

/-- After the barrier, nothing else changes the messages of the reduction. -/
theorem reduce_net_next (he : s.Enabled job e) (hO : s.Once job) (hrest : ∀ r, s.Rested r)
    (h : s.reduce.Quiet job.rootedTree) (hsync : ¬e.Syncs) :
    (s.next job e).reduce.net = s.reduce.net := by
  have hlt := (hO.coherent.ok _).rank_lt he
  have hat := (hO.coherent.ok e.rank).position
  cases e with
  | reduceSync | reduceSyncReply | reduceSyncDone => exact absurd trivial hsync
  | reduceBegin r due hit calls =>
      obtain ⟨hpc, _, _, hhit, _⟩ := he
      have htree := hO.tree_eq ((hO.coherent.ok r).stage_ne (by simp [hpc]))
      rw [show s.pc (Event.reduceBegin (α := α) r due hit calls).rank = _ from hpc] at hat
      have hst : s.stage r = .cleanup := hat.1.resolve_left (hrest r).stage_ne
      have hr : r < job.size := hlt
      have hbegin := h.begin_eq hr due hit fun hh => htree ▸ (hhit hh).2
      simp only [Sys.next, htree, hst, decide_true, hbegin]
      rfl
  | reduceReply r hit calls =>
      rw [show s.pc (Event.reduceReply (α := α) r hit calls).rank = _ from he.1] at hat
      exact absurd ((hrest r).reduce.symm.trans hat.2.2.2.1) (by decide)
  | reduceDone r calls =>
      rw [show s.pc (Event.reduceDone (α := α) r calls).rank = _ from he.1] at hat
      exact absurd ((hrest r).reduce.symm.trans hat.2.2.2.1) (by decide)
  | _ => rfl

theorem quiet_next (he : s.Enabled job e) (hO : s.Once job) (hrest : ∀ r, s.Rested r)
    (h : s.reduce.Quiet job.rootedTree) : (s.next job e).reduce.Quiet job.rootedTree := by
  have hlt := (hO.coherent.ok _).rank_lt he
  have hat := (hO.coherent.ok e.rank).position
  have hother : ¬e.Syncs → (s.next job e).reduce.Quiet job.rootedTree := by
    intro hsync
    have hnet := reduce_net_next he hO hrest h hsync
    exact ⟨fun p c hc => hnet ▸ h.down p c hc, fun a b => hnet ▸ h.background a b⟩
  cases e with
  | reduceSync r calls => exact ⟨h.down, h.background⟩
  | reduceSyncReply r calls =>
      constructor
      · intro p c hc
        refine List.eq_nil_iff_forall_not_mem.mpr fun m hm => ?_
        have hm' := ReduceNet.mem_recvSync (y := s.reduce) hm
        rw [h.down p c hc] at hm'
        cases hm'
      · exact fun a b m hm => h.background a b m (ReduceNet.mem_recvSync hm)
  | reduceSyncDone r calls =>
      have hst : s.stage r ≠ .outside := by
        rw [show s.pc (Event.reduceSyncDone (α := α) r calls).rank = _ from he.1] at hat
        simp [show s.stage r = .after from hat.1]
      have htree := hO.tree_eq hst
      simp only [Sys.next, htree]
      constructor
      · intro p c hc
        refine List.eq_nil_iff_forall_not_mem.mpr fun m hm => ?_
        rcases ReduceNet.mem_syncFinish (y := s.reduce) hm with hm | ⟨rfl, hp, _⟩
        · rw [h.down p c hc] at hm
          cases hm
        · exact job.rootedTree.not_mem_children_symm hc (job.mem_children hlt hp)
      · intro a b m hm
        rcases ReduceNet.mem_syncFinish (y := s.reduce) hm with hm | ⟨_, _, hm⟩
        · exact h.background a b m hm
        · exact hm
  | _ => exact hother id

/-- The background reductions, before and after the first completion of the barrier. -/
def Sys.ReducePhase (job : Job) (s : Sys α) : Prop :=
  ((∀ x, x < job.size → ¬s.Past x) ∧ s.reduce.Background job.rootedTree) ∨
    ((∃ x, x < job.size ∧ s.Past x) ∧ s.reduce.Quiet job.rootedTree)

theorem reducePhase_start (queue : Rank → List α) (abortFlag : Rank → Bool)
    (input : Rank → ReduceInput) (enqueued : List α) :
    (Sys.start queue abortFlag input enqueued).ReducePhase job :=
  .inl ⟨fun _ _ => by simp [Sys.Past, Sys.start], background_start ..⟩

theorem reducePhase_next (he : s.Enabled job e) (hf : FirstOnly s e) (hW : s.Waves job)
    (h : s.ReducePhase job) : (s.next job e).ReducePhase job := by
  have hO := hW.once
  rcases h with ⟨hnone, hb⟩ | ⟨⟨x, hx, hp⟩, hq⟩
  · have hb' := background_next he hO hnone hb
    by_cases hpast : ∃ x, x < job.size ∧ (s.next job e).Past x
    · obtain ⟨x, hx, hp⟩ := hpast
      exact .inr ⟨⟨x, hx, hp⟩,
        hb'.quiet fun r => (rested_of_past (waves_next he hf hW) hx hp r).reduce⟩
    · exact .inl ⟨fun x hx hp => hpast ⟨x, hx, hp⟩, hb'⟩
  · exact .inr ⟨⟨x, hx, past_next he hf hO hp⟩,
      quiet_next he hO (fun r => rested_of_past hW hx hp r) hq⟩

/-! ## Runs -/

/-- One invocation with tree termination, before and after the first completion of the
barrier. -/
structure Sys.Draining (job : Job) (s : Sys α) : Prop where
  term : s.TreeTerm job
  abort : s.abort.Paired job.neighbours
  reduce : s.ReducePhase job

theorem draining_start (queue : Rank → List α) (abortFlag : Rank → Bool)
    (input : Rank → ReduceInput) (enqueued : List α) :
    (Sys.start queue abortFlag input enqueued).Draining job :=
  ⟨treeTerm_start .., paired_start .., reducePhase_start ..⟩

theorem draining_next (ht : (job.opts 1).termTree = true) (he : s.Enabled job e)
    (hf : FirstOnly s e) (h : s.Draining job) : (s.next job e).Draining job := by
  obtain ⟨hT, habort, hreduce⟩ := h
  exact ⟨treeTerm_next ht he hf hT, paired_next he hT.waves.once habort,
    reducePhase_next he hf hT.waves hreduce⟩

theorem draining_of_run (ht : (job.opts 1).termTree = true) {es : List (Event α)}
    (hrun : job.once.Run s es t) (h : s.Draining job) : t.Draining job :=
  hrun.restrict_invariant (fun _ _ hI hE hC => draining_next ht hE hC hI) h

theorem past_of_run {es : List (Event α)} (hrun : job.once.Run s es t) (hO : s.Once job)
    (h : s.Past x) : t.Past x :=
  (hrun.restrict_invariant (I := fun s => s.Once job ∧ s.Past x)
    (fun _ _ ⟨hO, h⟩ hE hF => ⟨once_next hE hF hO, past_next hE hF hO h⟩) ⟨hO, h⟩).2

/-- Nothing is in flight but releases of the barrier and messages of the final collectives. -/
structure Sys.Drained (s : Sys α) : Prop where
  requests : ∀ a b, s.work.requests a b = []
  replies : ∀ a b, s.work.replies a b = []
  receipts : ∀ a b, s.work.receipts a b = []
  term : ∀ a b, s.term.net a b = []
  reduce : ∀ a b m, m ∈ s.reduce.net a b → m.isBackground = false
  abortRequests : ∀ a b, s.abort.requests a b = []
  abortReplies : ∀ a b, s.abort.replies a b = []

/-- Once a rank has completed the barrier, the network is drained. -/
theorem drained_of_past (h : s.Draining job) (hx : x < job.size) (hp : s.Past x) : s.Drained := by
  obtain ⟨⟨hW, hA, hphase⟩, habort, hreduce⟩ := h
  have hrest := rested_of_past hW hx hp
  have hmatch := hW.once.coherent.matched
  have hsettled : s.termView.Settled job 1 := hphase.resolve_left fun hS => by
    have hpos : 0 < s.inv x := hp.elim (fun hst =>
      (hW.once.coherent.ok x).tidy.inv_pos (by simp [Sys.loc, hst])) And.right
    have hmain : s.stage x = .main := hS.main_of_pos hpos
    rcases hp with hst | ⟨hst, _⟩ <;> cases hst.symm.trans hmain
  have hquiet := (hreduce.resolve_left fun hn => hn.1 x hx hp).2
  have hnone := fun a b => habort.none a b (.inl (hrest a).abort)
  have htraces := fun a b => hmatch.traces_eq_zero (hrest a).workRequested b
  refine ⟨fun a b => ?_, fun a b => ?_, fun a b => ?_, ?_, hquiet.background,
    fun a b => (hnone a b).1, fun a b => (hnone b a).2⟩
  · have := htraces a b
    unfold WorkNet.traces at this
    exact List.length_eq_zero_iff.mp (by omega)
  · have := htraces b a
    unfold WorkNet.traces at this
    exact List.length_eq_zero_iff.mp (by omega)
  · exact (hA.none_in_flight hmatch hsettled b a).2
  · exact hW.term.net_eq_nil fun r _ =>
      ((hW.once.coherent.ok r).tidy.term_reset (.inl (hrest r).stage_ne)).1

/-! ## The barrier -/

/-- `CIRCLE_barrier_test` returns `1` in an event. -/
def Sys.barrierAnswer (job : Job) (s : Sys α) : Event α → Bool
  | .barrierUp r => (s.barrier.report (s.tree job r) r).2
  | .barrierDown r hit => (s.barrier.await (s.tree job r) r hit).2
  | _ => false

theorem past_of_barrierAnswer (hans : s.barrierAnswer job e = true) :
    (s.next job e).Past e.rank := by
  left
  cases e with
  | barrierUp r =>
      have hans : (s.barrier.report (s.tree job r) r).2 = true := hans
      simp [Sys.next, Event.rank, hans]
  | barrierDown r hit =>
      have hans : (s.barrier.await (s.tree job r) r hit).2 = true := hans
      simp [Sys.next, Event.rank, hans]
  | _ => cases hans

/-- The cleanup loop drains everything with tree termination: in one invocation that starts
with no message in flight, from the moment `CIRCLE_barrier_test` returns `1` on some rank, no
request, reply, receipt, termination message, background reduction message, abort request or
abort reply is in flight.  So whatever `CIRCLE_worksend_wait` waits for has been received. -/
theorem cleanup_drains (ht : (job.opts 1).termTree = true)
    {queue : Rank → List α} {abortFlag : Rank → Bool} {input : Rank → ReduceInput}
    {enqueued : List α} {es fs : List (Event α)}
    (hrun : job.once.Run (Sys.start queue abortFlag input enqueued) es s)
    (he : s.Enabled job e) (hans : s.barrierAnswer job e = true)
    (hlater : job.once.Run (s.next job e) fs u) :
    (s.next job e).Drained ∧ u.Drained := by
  have hD := draining_of_run ht hrun (draining_start ..)
  have hlt := (hD.term.waves.once.coherent.ok _).rank_lt he
  have hf : FirstOnly s e := by
    cases e with
    | begin r next ops => cases hans
    | _ => trivial
  have hD' := draining_next ht he hf hD
  have hp := past_of_barrierAnswer hans
  exact ⟨drained_of_past hD' hlt hp, drained_of_past (draining_of_run ht hlater hD') hlt
    (past_of_run hlater hD'.term.waves.once hp)⟩

theorem cleanup_drains_abortSettle :
    (Sys.next treePair (treePair.once.follow .fresh (abortEarly ++ abortSettle))
      (.barrierUp 0)).Drained :=
  have hrun : treePair.once.Run .fresh (abortEarly ++ abortSettle)
      (treePair.once.follow .fresh (abortEarly ++ abortSettle)) :=
    .of_admits (by decide +kernel)
  (cleanup_drains (e := .barrierUp 0) (by decide) hrun (by decide +kernel) (by decide +kernel)
    (.nil _)).1

end Libcircle
