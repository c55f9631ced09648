import Libcircle.System.Crossing
import Libcircle.System.FinalReduction

/-!
# The final reduction finds what it waits for

`Loc.point` says how far a rank is in the final reduction.  A rank that is through
has its report in flight until its parent receives it, and a rank that is not has
sent none (`Sys.Reporting`).  So a lowest rank that is not through can go on.
-/

namespace Libcircle

variable {α : Type*} {job : Job} {s t : Sys α} {e : Event α} {r x p c : Rank}

/-! ## Points -/

/-- The number of reports that a rank at a position after the barrier has received, or none if it
has passed its own on. -/
def Pc.collected : Pc → Option Nat
  | .worksendWait | .reduceSync => some 0
  | .reduceSyncReplies i => some i
  | _ => none

/-- The same of a rank at any position. -/
def Loc.point (l : Loc α) : Option Nat :=
  if l.barrier.completed = 0 then some 0 else l.pc.collected

theorem collected_of_aborting {p : Pc} (h : p.aborting = true) : p.collected = none := by
  cases p with
  | abortReduce | abortReduceDown | returned => rfl
  | _ => cases h

theorem point_of_past (hO : s.Once job) (hp : s.Past x) : (s.loc x).point = (s.pc x).collected :=
  if_neg (Nat.ne_of_gt ((past_iff hO).mp hp))

theorem point_of_not_past (hO : s.Once job) (hp : ¬s.Past x) : (s.loc x).point = some 0 :=
  if_pos (Nat.eq_zero_of_not_pos fun hpos => hp ((past_iff hO).mpr hpos))

/-- Only the barrier test counts a barrier. -/
theorem completed_next (s : Sys α) (e : Event α) :
    ((s.next job e).barrier.st e.rank).completed = (s.barrier.st e.rank).completed ∨
      (s.next job e).stage e.rank = .after := by
  cases e with
  | begin r next ops => exact .inl (by simp [Sys.next, Event.rank, BarrierNet.init, BarrierNet.set])
  | barrierStart r =>
      left
      simp only [Sys.next, Event.rank]
      split
      · simp [BarrierNet.barrierStart, BarrierNet.set]
      · rfl
  | barrierReply r src =>
      left
      cases src with
      | none => rfl
      | some q => simp [Sys.next, Event.rank, BarrierNet.recvArrival]
  | barrierUp r =>
      obtain ⟨_, hy⟩ | ⟨p, _, _, hy⟩ | ⟨_, _, hy⟩ := s.barrier.report_cases (s.tree job r) r
      · exact .inl (by simp [Sys.next, Event.rank, hy])
      · exact .inl (by simp [Sys.next, Event.rank, hy, BarrierNet.sendUp])
      · exact .inr (by simp [Sys.next, Event.rank, hy])
  | barrierDown r hit =>
      obtain hy | ⟨p, _, _, hy⟩ := s.barrier.await_cases (s.tree job r) r hit
      · exact .inl (by simp [Sys.next, Event.rank, hy])
      · exact .inr (by simp [Sys.next, Event.rank, hy])
  | _ => exact .inl rfl

/-- A step out of the barrier leads to the wait for the sends. -/
theorem pc_of_past_next (he : s.Enabled job e) (hf : FirstOnly s e) (hO : s.Once job)
    (hnot : ¬s.Past e.rank) (hp : (s.next job e).Past e.rank) :
    (s.next job e).pc e.rank = .worksendWait := by
  have hO' := once_next he hf hO
  rcases @completed_next _ job s e with hsame | hst
  · have hpos := (past_iff hO').mp hp
    rw [hsame] at hpos
    exact absurd ((past_iff hO).mpr hpos) hnot
  · exact (stage_after_next he hO (fun hst' => hnot (.inl hst')) hst).2

/-- The steps of the final reduction apart, no event changes the point of a rank. -/
theorem point_next (he : s.Enabled job e) (hf : FirstOnly s e) (hO : s.Once job)
    (hen : (job.opts 1).reduceEnabled = true) (hsync : ¬e.Syncs) (x : Rank) :
    ((s.next job e).loc x).point = (s.loc x).point := by
  by_cases hx : x = e.rank
  · subst hx
    have hO' := once_next he hf hO
    by_cases hp : s.Past e.rank
    · rw [point_of_past hO hp, point_of_past hO' (past_next he hf hO hp)]
      rcases hp with hst | ⟨hst, hinv⟩
      · obtain ⟨hpc, hnext⟩ | ⟨hpc, _, hnext⟩ := closing_next he hO hsync hst
        · rw [hpc, hnext, if_pos hen]
          rfl
        · rw [collected_of_aborting hpc]
          rcases hnext with hnext | hnext
          · rw [hnext]
            rfl
          · exact collected_of_aborting hnext
      · have hpc : s.pc e.rank = .idle := by
          by_contra hpc
          exact (hO.coherent.ok _).stage_ne hpc hst
        obtain ⟨next, ops, hbegin⟩ := event_of_idle he hpc
        rw [hbegin] at hf
        exact absurd (show s.inv e.rank = 0 from hf) (Nat.ne_of_gt hinv)
    · rw [point_of_not_past hO hp]
      by_cases hp' : (s.next job e).Past e.rank
      · rw [point_of_past hO' hp', pc_of_past_next he hf hO hp hp']
        rfl
      · exact point_of_not_past hO' hp'
  · have hloc : (s.next job e).loc x = s.loc x := loc_next_of_ne hx
    rw [hloc]

/-! ## Reports in flight -/

/-- What is in flight of the final reduction. -/
structure Sys.Reporting (job : Job) (s : Sys α) : Prop where
  /-- A rank that is not through has sent no report. -/
  unsent : ∀ p c, c ∈ job.rootedTree.children p → (s.loc c).point ≠ none → s.reduce.net c p = []
  /-- The report of a rank that is through is there for its parent. -/
  ready : ∀ p c j k, (job.rootedTree.children p)[j]? = some c → (s.loc c).point = none →
    (s.loc p).point = some k → k ≤ j → ReduceNet.SyncReady (s.reduce.net c p) = true
  /-- A header announces its data. -/
  valid : ∀ r i, s.pc r = .reduceSyncReplies i → (s.reduce.st r).valid = true

namespace Sys.Reporting

/-- No channel to a parent and no point changes. -/
theorem congr (h : s.Reporting job) (hnet : t.reduce.net = s.reduce.net)
    (hpoint : ∀ x, (t.loc x).point = (s.loc x).point)
    (hvalid : ∀ r i, t.pc r = .reduceSyncReplies i → (t.reduce.st r).valid = true) :
    t.Reporting job where
  unsent p c hc hp := by
    rw [hpoint] at hp
    rw [hnet]
    exact h.unsent p c hc hp
  ready p c j k hj hc hp := by
    rw [hpoint] at hc hp
    rw [hnet]
    exact h.ready p c j k hj hc hp
  valid := hvalid

end Sys.Reporting

/-- A rank comes to the loop of the final reduction by a step of it. -/
theorem syncs_of_replies {i : Nat} (he : s.Enabled job e) (hf : FirstOnly s e) (hO : s.Once job)
    (hpc : (s.next job e).pc e.rank = .reduceSyncReplies i) : e.Syncs := by
  by_contra hsync
  have hst' := stage_of_closing (once_next he hf hO) (r := e.rank) (by rw [hpc]; rfl)
  by_cases hst : s.stage e.rank = .after
  · obtain ⟨_, hnext⟩ | ⟨_, _, hnext⟩ := closing_next he hO hsync hst
    · rw [hpc] at hnext
      split at hnext <;> cases hnext
    · rw [hpc] at hnext
      rcases hnext with hnext | hnext <;> cases hnext
  · cases hpc.symm.trans (stage_after_next he hO hst hst').2

namespace Sys.Reporting

/-- The ranks that do not step keep their validity. -/
theorem valid_next (h : s.Reporting job) {i : Nat} (hx : x ≠ e.rank)
    (hpc : (s.next job e).pc x = .reduceSyncReplies i) :
    ((s.next job e).reduce.st x).valid = true := by
  have hloc : (s.next job e).loc x = s.loc x := loc_next_of_ne hx
  have hpc' : s.pc x = .reduceSyncReplies i := (congrArg Loc.pc hloc).symm.trans hpc
  exact (congrArg (fun l => l.reduce.valid) hloc).trans (h.valid x i hpc')

/-- The steps of the final reduction apart. -/
theorem other (h : s.Reporting job) (he : s.Enabled job e) (hf : FirstOnly s e)
    (hO : s.Once job) (hen : (job.opts 1).reduceEnabled = true) (hsync : ¬e.Syncs)
    (hnet : (s.next job e).reduce.net = s.reduce.net) : (s.next job e).Reporting job := by
  refine h.congr hnet (point_next he hf hO hen hsync) fun r i hpc => ?_
  by_cases hr : r = e.rank
  · subst hr
    exact absurd (syncs_of_replies he hf hO hpc) hsync
  · exact h.valid_next hr hpc

/-- A rank enters the final reduction. -/
theorem reduceSync {calls : List ReduceCall} (h : s.Reporting job)
    (he : s.Enabled job (.reduceSync r calls)) :
    (s.next job (.reduceSync r calls)).Reporting job := by
  have hpc : s.pc r = .reduceSync := he
  refine h.congr rfl (fun x => ?_) fun x i hx => ?_
  · by_cases hx : x = r
    · subst hx
      simp [Loc.point, Sys.loc, Sys.next, hpc, Pc.collected]
    · rw [loc_next_of_ne (e := .reduceSync r calls) hx]
  · by_cases hxr : x = r
    · subst hxr
      simp [Sys.next, ReduceNet.callback, ReduceNet.syncBegin, ReduceNet.set]
    · exact h.valid_next (e := .reduceSync r calls) hxr hx

end Sys.Reporting

/-- The other channels stay as they are. -/
theorem ReduceNet.recvSync_net_ne (y : ReduceNet) {a b : Rank} (h : ¬(a = c ∧ b = r)) :
    (y.recvSync r c).net a b = y.net a b := by
  unfold recvSync
  split
  · dsimp only
    split
    · exact Chan.pop_ne _ h
    · rw [Chan.pop_ne _ h, Chan.pop_ne _ h]
  · rfl

theorem ReduceNet.recvSync_valid (y : ReduceNet) :
    ((y.recvSync r c).st r).valid = (y.st r).valid := by
  unfold recvSync
  split <;> simp

namespace Sys.Reporting

/-- A rank receives the next report. -/
theorem reduceSyncReply {calls : List ReduceCall} (h : s.Reporting job)
    (he : s.Enabled job (.reduceSyncReply r calls)) (hO : s.Once job) :
    (s.next job (.reduceSyncReply r calls)).Reporting job := by
  obtain ⟨hpc, hindex, _⟩ := he
  generalize hi : (s.pc r).index = i at hpc hindex
  have hst : s.stage r = .after := stage_of_closing hO (by rw [hpc]; rfl)
  have htree := hO.tree_eq (r := r) (by simp [hst])
  have hpast : s.Past r := .inl hst
  have hdone : (s.barrier.st r).completed ≠ 0 := Nat.ne_of_gt ((past_iff hO).mp hpast)
  rw [htree] at hindex
  have hchild : (job.rootedTree.children r)[i]? = some (s.child job r) := by
    rw [Sys.child, htree, hi]
    exact TreeState.child_getElem? hindex
  have hold : (s.loc r).point = some i := by
    rw [point_of_past hO hpast, hpc]
    rfl
  have hnew : ((s.next job (.reduceSyncReply r calls)).loc r).point = some (i + 1) := by
    simp [Loc.point, Sys.loc, Sys.next, hi, Pc.collected, hdone]
  have hother : ∀ x, x ≠ r → ((s.next job (.reduceSyncReply r calls)).loc x) = s.loc x :=
    fun x hx => loc_next_of_ne (e := .reduceSyncReply r calls) hx
  have hnone : ∀ x, ((s.next job (.reduceSyncReply r calls)).loc x).point = none ↔
      (s.loc x).point = none := by
    intro x
    by_cases hx : x = r
    · subst hx
      rw [hnew, hold]
      simp
    · rw [hother x hx]
  have hnet : ∀ a b, ¬(a = s.child job r ∧ b = r) →
      (s.next job (.reduceSyncReply r calls)).reduce.net a b = s.reduce.net a b :=
    fun a b hab => s.reduce.recvSync_net_ne hab
  constructor
  · intro p c hc hp
    have hnil := h.unsent p c hc fun hp' => hp ((hnone c).mpr hp')
    refine List.eq_nil_iff_forall_not_mem.mpr fun m hm => ?_
    have hm' := ReduceNet.mem_recvSync (y := s.reduce) hm
    rw [hnil] at hm'
    cases hm'
  · intro p c j k hj hc hp hkj
    rw [hnone] at hc
    by_cases hpr : p = r
    · subst hpr
      obtain rfl : i + 1 = k := Option.some.inj (hnew.symm.trans hp)
      rw [hnet]
      · exact h.ready p c j i hj hc hold (by omega)
      · rintro ⟨rfl, _⟩
        -- a child has one index
        have hlt := (List.getElem?_eq_some_iff.mp hj).1
        have hij : j = i :=
          (List.getElem?_inj hlt (job.rootedTree.children_nodup p)).mp (hj.trans hchild.symm)
        omega
    · rw [hother p hpr] at hp
      rw [hnet _ _ fun hab => hpr hab.2]
      exact h.ready p c j k hj hc hp hkj
  · intro x k hx
    by_cases hxr : x = r
    · subst hxr
      exact (s.reduce.recvSync_valid).trans (h.valid x i hpc)
    · exact h.valid_next (e := .reduceSyncReply r calls) hxr hx

end Sys.Reporting

/-- The report of a rank whose partial result is valid. -/
theorem ReduceNet.syncReady_syncFinish (y : ReduceNet) (hp : (job.tree 1 r).parentRank = some p)
    (hvalid : (y.st r).valid = true) (hnil : y.net r p = []) :
    SyncReady ((y.syncFinish (job.tree 1 r) r).net r p) = true := by
  by_cases hb : 0 < (y.input r).size
  · simp [syncFinish, hp, sendResult, hvalid, hb, hnil, SyncReady]
  · have hzero : (y.input r).size = 0 := Nat.eq_zero_of_not_pos hb
    simp [syncFinish, hp, sendResult, hzero, hnil, SyncReady]

theorem ReduceNet.syncFinish_net_ne (y : ReduceNet) (t : TreeState) {a b : Rank} (h : a ≠ r) :
    (y.syncFinish t r).net a b = y.net a b := by
  unfold syncFinish
  split
  · simp only [sendResult]
    split <;> simp [Chan.push_of_ne h]
  · rfl

namespace Sys.Reporting

/-- A rank passes its result on. -/
theorem reduceSyncDone {calls : List ReduceCall} (h : s.Reporting job)
    (he : s.Enabled job (.reduceSyncDone r calls)) (hO : s.Once job) :
    (s.next job (.reduceSyncDone r calls)).Reporting job := by
  have hlt := (hO.coherent.ok _).rank_lt he
  have hpc := he.1
  have hst : s.stage r = .after := stage_of_closing hO (by rw [hpc]; rfl)
  have htree := hO.tree_eq (r := r) (by simp [hst])
  have hpast : s.Past r := .inl hst
  have hdone : (s.barrier.st r).completed ≠ 0 := Nat.ne_of_gt ((past_iff hO).mp hpast)
  have hold : (s.loc r).point ≠ none := by
    rw [point_of_past hO hpast, hpc]
    exact Option.some_ne_none _
  have hnew : ((s.next job (.reduceSyncDone r calls)).loc r).point = none := by
    simp [Loc.point, Sys.loc, Sys.next, Pc.collected, hdone]
  have hother : ∀ x, x ≠ r → ((s.next job (.reduceSyncDone r calls)).loc x) = s.loc x :=
    fun x hx => loc_next_of_ne (e := .reduceSyncDone r calls) hx
  have hnet : ∀ a b, a ≠ r →
      (s.next job (.reduceSyncDone r calls)).reduce.net a b = s.reduce.net a b :=
    fun a b ha => s.reduce.syncFinish_net_ne _ ha
  constructor
  · intro p c hc hp
    have hcr : c ≠ r := by
      rintro rfl
      exact hp hnew
    rw [hother c hcr] at hp
    rw [hnet c p hcr]
    exact h.unsent p c hc hp
  · intro p c j k hj hc hp hkj
    have hpr : p ≠ r := by
      rintro rfl
      cases hnew.symm.trans hp
    rw [hother p hpr] at hp
    by_cases hcr : c = r
    · subst hcr
      have hmem := List.mem_of_getElem? hj
      have hready := s.reduce.syncReady_syncFinish (job.rootedTree.parent_of_mem hmem)
        (h.valid c _ hpc) (h.unsent p c hmem hold)
      simp only [Sys.next, htree]
      exact hready
    · rw [hother c hcr] at hc
      rw [hnet c p hcr]
      exact h.ready p c j k hj hc hp hkj
  · intro x i hx
    have hxr : x ≠ r := by
      rintro rfl
      cases (Function.update_self ..).symm.trans hx
    exact h.valid_next (e := .reduceSyncDone r calls) hxr hx

end Sys.Reporting

/-- The reports of the final reduction, once a rank has completed the barrier. -/
def Sys.ReportPhase (job : Job) (s : Sys α) : Prop :=
  (∃ x, x < job.size ∧ s.Past x) → s.Reporting job

theorem reportPhase_start (queue : Rank → List α) (abortFlag : Rank → Bool)
    (input : Rank → ReduceInput) (enqueued : List α) :
    (Sys.start queue abortFlag input enqueued).ReportPhase job := by
  rintro ⟨x, _, hp⟩
  simp [Sys.Past, Sys.start] at hp

/-- When the first rank completes the barrier, it waits for its sends. -/
theorem pc_first (he : s.Enabled job e) (hf : FirstOnly s e) (hO : s.Once job)
    (hnone : ∀ x, x < job.size → ¬s.Past x) (hx : x < job.size) (hp : (s.next job e).Past x) :
    (s.next job e).pc x = .worksendWait := by
  by_cases hxe : x = e.rank
  · subst hxe
    exact pc_of_past_next he hf hO (hnone _ hx) hp
  · have hloc : (s.next job e).loc x = s.loc x := loc_next_of_ne hxe
    have hp' : s.Past x := by
      have hst : (s.next job e).stage x = s.stage x := congrArg Loc.stage hloc
      have hinv : (s.next job e).inv x = s.inv x := congrArg Loc.inv hloc
      rwa [Sys.Past, hst, hinv] at hp
    exact absurd hp' (hnone x hx)

/-- No rank has collected a report then. -/
theorem point_first (he : s.Enabled job e) (hf : FirstOnly s e) (hO : s.Once job)
    (hnone : ∀ x, x < job.size → ¬s.Past x) (hx : x < job.size) :
    ((s.next job e).loc x).point = some 0 := by
  have hO' := once_next he hf hO
  by_cases hp : (s.next job e).Past x
  · rw [point_of_past hO' hp, pc_first he hf hO hnone hx hp]
    rfl
  · exact point_of_not_past hO' hp

/-- When the first rank completes the barrier, no message of a reduction is in flight. -/
theorem reporting_first (he : s.Enabled job e) (hf : FirstOnly s e) (hW : s.Waves job)
    (hP : s.ReducePhase job) (hnone : ∀ x, x < job.size → ¬s.Past x) (hx : x < job.size)
    (hp : (s.next job e).Past x) : (s.next job e).Reporting job := by
  have hO := hW.once
  have hW' := waves_next he hf hW
  have hO' := hW'.once
  have hB := background_next he hO hnone
    (hP.resolve_right fun h => by
      obtain ⟨⟨y, hy, hpy⟩, _⟩ := h
      exact hnone y hy hpy).2
  have hidle : ∀ r, ((s.next job e).reduce.st r).outstanding = false := fun r =>
    (rested_of_past hW' hx hp r).reduce
  constructor
  · exact fun p c hc _ => (ReduceNet.heard_iff.mp ((hB.edge p c hc).heard_of_idle (hidle p))).2.2
  · intro p c j k hj hc _ _
    have hc' := job.rootedTree.node_of_mem (List.mem_of_getElem? hj)
    cases hc.symm.trans (point_first he hf hO hnone hc')
  · intro r i hr
    have hst := stage_of_closing hO' (r := r) (by rw [hr]; rfl)
    have hr' : r < job.size := (hO'.coherent.ok r).lt_size (by simp [hr])
    cases hr.symm.trans (pc_first he hf hO hnone hr' (.inl hst))

theorem reportPhase_next (he : s.Enabled job e) (hf : FirstOnly s e) (hW : s.Waves job)
    (hP : s.ReducePhase job) (hen : (job.opts 1).reduceEnabled = true) (h : s.ReportPhase job) :
    (s.next job e).ReportPhase job := by
  rintro ⟨x, hx, hp⟩
  have hO := hW.once
  by_cases hex : ∃ y, y < job.size ∧ s.Past y
  · have hR := h hex
    obtain ⟨y, hy, hpy⟩ := hex
    by_cases hsync : e.Syncs
    · cases e with
      | reduceSync r calls => exact hR.reduceSync he
      | reduceSyncReply r calls => exact hR.reduceSyncReply he hO
      | reduceSyncDone r calls => exact hR.reduceSyncDone he hO
      | _ => exact hsync.elim
    · have hquiet := (hP.resolve_left fun hn => hn.1 y hy hpy).2
      have hnet := reduce_net_next he hO (rested_of_past hW hy hpy) hquiet hsync
      exact hR.other he hf hO hen hsync hnet
  · exact reporting_first he hf hW hP (fun y hy hpy => hex ⟨y, hy, hpy⟩) hx hp

end Libcircle
