import Libcircle.System.Drain
import Libcircle.System.SyncReduction

/-!
# The final reduction of the work loop

A run of the work loop, seen through the variables and the messages of
`CIRCLE_reduce_sync`, is a run of `syncReduction` (`syncReduction_of_run`).  No
message of a background reduction is in flight when a rank is past the barrier,
so what a rank finds on the tag is what its children have sent for the final
reduction.  The callbacks are those of a run that stores its results
(`Event.Stores`).
-/

namespace Libcircle

variable {α : Type*} {job : Job} {s : Sys α} {e : Event α} {size width : Nat} {r a b : Rank}
  {op : ReduceOp} {x y : SyncNet} {sent : Rank → Int × List UInt8}

/-! ## Messages -/

/-- A message of the final reduction, as the source has it. -/
def ReduceMsg.final? : ReduceMsg → Option ReducePacket
  | .header .sync valid count bytes => some (.header valid count bytes)
  | .data .sync buf => some (.data buf)
  | _ => none

theorem ReduceMsg.final?_of_background {m : ReduceMsg} (h : m.isBackground = true) :
    m.final? = none := by
  cases m with
  | start => rfl
  | header origin valid count bytes =>
      cases origin with
      | check => rfl
      | sync => simp [ReduceMsg.isBackground] at h
  | data origin buf =>
      cases origin with
      | check => rfl
      | sync => simp [ReduceMsg.isBackground] at h

theorem ReduceMsg.final?_eq_header {m : ReduceMsg} {valid : Bool} {count bytes : Int}
    (h : m.final? = some (.header valid count bytes)) :
    ∃ n k : Nat, count = n ∧ bytes = k ∧ m = .header .sync valid n k := by
  cases m with
  | start => cases h
  | header origin v n k =>
      cases origin with
      | check => cases h
      | sync =>
          cases h
          exact ⟨n, k, rfl, rfl, rfl⟩
  | data origin buf => cases origin <;> cases h

theorem ReduceMsg.final?_eq_data {m : ReduceMsg} {buf : List UInt8}
    (h : m.final? = some (.data buf)) : m = .data .sync buf := by
  cases m with
  | start => cases h
  | header origin v n k => cases origin <;> cases h
  | data origin buf =>
      cases origin with
      | check => cases h
      | sync =>
          cases h
          rfl

theorem ReduceMsg.final?_isSome {m : ReduceMsg} (h : m.isBackground = false) :
    ∃ p, m.final? = some p := by
  cases m with
  | start => cases h
  | header origin valid count bytes =>
      cases origin with
      | check => cases h
      | sync => exact ⟨_, rfl⟩
  | data origin buf =>
      cases origin with
      | check => cases h
      | sync => exact ⟨_, rfl⟩

/-- A channel without background messages holds what the source has there. -/
theorem filterMap_final_eq_cons {ms : List ReduceMsg} {m : ReducePacket}
    {packets : List ReducePacket}
    (hsync : ∀ m ∈ ms, m.isBackground = false)
    (h : ms.filterMap ReduceMsg.final? = m :: packets) :
    ∃ m' ms', ms = m' :: ms' ∧ m'.final? = some m ∧ ms'.filterMap ReduceMsg.final? = packets ∧
      ∀ m ∈ ms', m.isBackground = false := by
  cases ms with
  | nil => cases h
  | cons m' ms' =>
      obtain ⟨p, hp⟩ := ReduceMsg.final?_isSome (hsync m' List.mem_cons_self)
      rw [List.filterMap_cons_some hp] at h
      cases h
      exact ⟨m', ms', rfl, hp, rfl, fun m hm => hsync m (List.mem_cons_of_mem _ hm)⟩

theorem eq_of_packets {ms : List ReduceMsg} {v : Int × List UInt8}
    (hsync : ∀ m ∈ ms, m.isBackground = false)
    (h : ms.filterMap ReduceMsg.final? = packets v) :
    ∃ count : Nat, v.1 = count ∧
      ms = [.header .sync true count v.2.length, .data .sync v.2] := by
  obtain ⟨m, ms, rfl, hm, h₁, hsync₁⟩ := filterMap_final_eq_cons hsync h
  obtain ⟨m', ms, rfl, hm', h₂, hsync₂⟩ := filterMap_final_eq_cons hsync₁ h₁
  obtain ⟨count, bytes, hcount, hbytes, rfl⟩ := ReduceMsg.final?_eq_header hm
  cases ms with
  | nil =>
      refine ⟨count, hcount, ?_⟩
      rw [ReduceMsg.final?_eq_data hm', Int.ofNat.inj hbytes]
  | cons m ms =>
      obtain ⟨p, hp⟩ := ReduceMsg.final?_isSome (hsync₂ m List.mem_cons_self)
      rw [List.filterMap_cons_some hp] at h₂
      cases h₂

theorem ReduceNet.Background.final_eq_nil {T : ParentTree Rank} {y : ReduceNet}
    (h : y.Background T) (a b : Rank) : (y.net a b).filterMap ReduceMsg.final? = [] :=
  List.filterMap_eq_nil_iff.mpr fun _ hm => ReduceMsg.final?_of_background (h.isBackground hm)

theorem ReduceNet.recvSync_data (y : ReduceNet) {c : Rank} {origin : ReduceOrigin} {valid : Bool}
    {count bytes : Nat} {ms : List ReduceMsg}
    (h : y.net c r = .header origin valid count bytes :: ms) (hbytes : bytes ≠ 0) :
    y.recvSync r c =
      { y with
        st := Function.update y.st r { y.st r with total := (y.st r).total + count }
        net := (y.net.pop c r).pop c r } := by
  simp only [recvSync, h, if_neg hbytes]

@[simp] theorem ReduceNet.syncFinish_total (y : ReduceNet) (t : TreeState) (a : Rank) :
    ((y.syncFinish t r).st a).total = (y.st a).total := by
  unfold syncFinish
  split
  next =>
    by_cases ha : a = r
    · subst ha
      simp [sendResult]
    · simp [sendResult, Function.update_of_ne ha]
  next => rfl

/-! ## Positions after the barrier -/

/-- The positions in `CIRCLE_abort_reduce` and after it. -/
def Pc.aborting : Pc → Bool
  | .abortReduce | .abortReduceDown | .returned => true
  | _ => false

/-- The positions after the barrier. -/
def Pc.closing : Pc → Bool
  | .worksendWait | .reduceSync | .reduceSyncReplies _ | .abortReduce | .abortReduceDown
  | .returned => true
  | _ => false

theorem closing_of_aborting {p : Pc} (h : p.aborting = true) : p.closing = true := by
  cases p with
  | abortReduce | abortReduceDown | returned => rfl
  | _ => cases h

theorem stage_of_closing (hO : s.Once job) (h : (s.pc r).closing = true) : s.stage r = .after := by
  have hat := (hO.coherent.ok r).position
  cases hpc : s.pc r with
  | worksendWait | reduceSync | reduceSyncReplies i | abortReduce | abortReduceDown | returned =>
      rw [hpc] at hat
      exact hat.1
  | _ =>
      rw [hpc] at h
      cases h

theorem closing_of_stage (hO : s.Once job) (h : s.stage r = .after) : (s.pc r).closing = true := by
  have hat := (hO.coherent.ok r).position
  have hnot : ¬(s.loc r).Looping := by
    rintro (hst | hst) <;> cases h.symm.trans hst
  cases hpc : s.pc r with
  | worksendWait | reduceSync | reduceSyncReplies i | abortReduce | abortReduceDown
  | returned => rfl
  | workreq =>
      rw [hpc] at hat
      exact absurd hat hnot
  | idle =>
      rw [hpc] at hat
      cases h.symm.trans hat.1
  | sendWork | workreceipt | work | termReplies | termUp | termDown | token | barrierStart
  | barrierReply | barrierUp | barrierDown | tokenDrain =>
      rw [hpc] at hat
      cases h.symm.trans hat.1
  | sendNoWork | worksend | abortStart | abortRequest | abortReplies | reduce | request
  | reduceReplies i =>
      rw [hpc] at hat
      exact absurd hat.1 hnot

theorem after_of_stageAfterTerm {st : Stage} {b : Option Bool}
    (h : stageAfterTerm st b = .after) : st = .after := by
  match b, h with
  | some true, h => cases h
  | some false, h => exact h
  | none, h => exact h

theorem after_of_ite {c : Prop} [Decidable c] {st : Stage}
    (h : (if c then Stage.cleanup else st) = .after) : st = .after := by
  split at h
  · cases h
  · exact h

/-- A rank completes the barrier from the cleanup loop. -/
theorem stage_after_next (he : s.Enabled job e) (hO : s.Once job)
    (hnot : s.stage e.rank ≠ .after) (h : (s.next job e).stage e.rank = .after) :
    s.stage e.rank = .cleanup ∧ (s.next job e).pc e.rank = .worksendWait := by
  have hat := (hO.coherent.ok e.rank).position
  cases e with
  | barrierUp r =>
      rw [show s.pc (Event.barrierUp (α := α) r).rank = _ from he] at hat
      refine ⟨hat.1, ?_⟩
      simp only [Sys.next, Event.rank, Function.update_self] at h ⊢
      split at h
      next hy => simp [hy, afterBarrier]
      next => exact absurd h hnot
  | barrierDown r hit =>
      rw [show s.pc (Event.barrierDown (α := α) r hit).rank = _ from he.1] at hat
      refine ⟨hat.1, ?_⟩
      simp only [Sys.next, Event.rank, Function.update_self] at h ⊢
      split at h
      next hy => simp [hy, afterBarrier]
      next => exact absurd h hnot
  | termUp r | termDown r hit =>
      exact absurd (after_of_stageAfterTerm ((Function.update_self ..).symm.trans h)) hnot
  | token r hit => exact absurd (after_of_ite ((Function.update_self ..).symm.trans h)) hnot
  | begin r next ops => simp [Sys.next, Event.rank] at h
  | finish r => simp [Sys.next, Event.rank] at h
  | _ => exact absurd h hnot

/-- After the barrier, a rank waits for its sends or takes part in the abort reduction. -/
theorem closing_next (he : s.Enabled job e) (hO : s.Once job) (hsync : ¬e.Syncs)
    (hst : s.stage e.rank = .after) :
    (s.pc e.rank = .worksendWait ∧ (s.next job e).pc e.rank =
        if (job.opts 1).reduceEnabled then .reduceSync else .abortReduce) ∨
      ((s.pc e.rank).aborting = true ∧ (s.next job e).reduce = s.reduce ∧
        ((s.next job e).pc e.rank = .idle ∨ ((s.next job e).pc e.rank).aborting = true)) := by
  have hclosing := closing_of_stage hO hst
  have hinv := hO.inv_eq (r := e.rank) (by rw [hst]; decide)
  cases e with
  | reduceSync | reduceSyncReply | reduceSyncDone => exact absurd trivial hsync
  | worksendWait r =>
      refine .inl ⟨he, ?_⟩
      rw [← show s.inv r = 1 from hinv]
      exact Function.update_self ..
  | abortReduceReply r =>
      have hpc : (s.pc r).aborting = true := congrArg Pc.aborting he.1
      exact .inr ⟨hpc, rfl, .inr hpc⟩
  | abortReduceUp r =>
      refine .inr ⟨congrArg Pc.aborting he.1, rfl, .inr ?_⟩
      simp only [Sys.next, Event.rank, Function.update_self]
      split <;> rfl
  | abortReduceDown r =>
      refine .inr ⟨congrArg Pc.aborting he.1, rfl, .inr ?_⟩
      simp only [Sys.next, Event.rank, Function.update_self]
      rfl
  | finish r =>
      exact .inr ⟨congrArg Pc.aborting he, rfl, .inl (Function.update_self ..)⟩
  | workreqDone r rand | sendNoWork r | workreceiptDone r | worksendDone r | abortStart r
  | termRepliesDone r | termUp r | barrierStart r | barrierUp r =>
      cases (congrArg Pc.closing (show s.pc r = _ from he)).symm.trans hclosing
  | _ => cases (congrArg Pc.closing he.1).symm.trans hclosing

/-! ## Steps of a rank -/

/-- The two messages of a child are received one after the other. -/
theorem SyncNet.run_child {calls : List ReduceCall} {count : Int} {buf : List UInt8}
    (hr : r < size) (hpoint : (x.st r).point = .header)
    (hindex : (x.st r).index < (treeInit r size width).children) (hbuf : Sized buf)
    (hnet : x.net (x.child size width r) r = [.header true count buf.length, .data buf])
    (hcalls : storedBuf calls =
      some (op.op r (x.child size width r) (x.st r).input.bytes buf)) :
    ∃ y, (syncReduction op size width).Run x [.header r [], .data r calls] y ∧
      y.net = (x.net.pop (x.child size width r) r).pop (x.child size width r) r ∧
      y.st r = { x.st r with
        total := (x.st r).total + count, input := (x.st r).input.run calls
        index := (x.st r).index + 1 } ∧ ∀ a, a ≠ r → y.st a = x.st a := by
  have hsize := sizeOf64_natCast hbuf.2
  have hpos : 0 < sizeOf64 buf.length := by
    rw [hsize]
    exact hbuf.1
  have hE : (syncReduction op size width).Enabled x (.header r []) := by
    refine ⟨hr, hpoint, hindex, ?_⟩
    rw [hnet]
    exact ⟨fun _ => rfl, fun hzero => absurd hzero (Nat.ne_of_gt hpos)⟩
  have hy : (syncReduction op size width).next x (.header r []) =
      (x.recv r (x.child size width r)).set r
        { x.st r with point := .data count buf.length, total := (x.st r).total + count } := by
    simp only [syncReduction, SyncNet.next, hnet, if_pos hpos]
  have hst : ((syncReduction op size width).next x (.header r [])).st r =
      { x.st r with point := .data count buf.length, total := (x.st r).total + count } :=
    (congrArg (fun y => SyncNet.st y r) hy).trans (Function.update_self ..)
  have hnet' : ((syncReduction op size width).next x (.header r [])).net =
      x.net.pop (x.child size width r) r := congrArg SyncNet.net hy
  have hchild : ((syncReduction op size width).next x (.header r [])).child size width r =
      x.child size width r := by
    rw [SyncNet.child, hst]
    rfl
  have hE' : (syncReduction op size width).Enabled
      ((syncReduction op size width).next x (.header r [])) (.data r calls) := by
    refine ⟨hr, ?_⟩
    rw [hchild, hst, hnet', Chan.pop_self, hnet]
    refine ⟨Int.le_of_eq (intOf_natCast hbuf.2).symm, ?_⟩
    rw [hst]
    exact hcalls
  refine ⟨_, .cons hE (.single hE'), ?_, ?_, fun a ha => ?_⟩
  · refine Eq.trans (b := Chan.pop _ (SyncNet.child _ size width r) r) rfl ?_
    rw [hchild, hnet']
  · refine (Function.update_self ..).trans ?_
    rw [hst, ← hpoint]
  · refine (Function.update_of_ne ha _ _).trans ?_
    exact (congrArg (fun y => SyncNet.st y a) hy).trans (Function.update_of_ne ha _ _)

theorem SyncNet.run_send {p : Rank} (m : ReducePacket) (ms : List ReducePacket) (hr : r < size)
    (hp : (treeInit r size width).parentRank = some p) (hpoint : (x.st r).point = .send (m :: ms)) :
    ∃ y, (syncReduction op size width).Run x [.send r] y ∧ y.net = x.net.push r p m ∧
      y.st r = { x.st r with point := if ms = [] then .returned else .send ms } ∧
        ∀ a, a ≠ r → y.st a = x.st a := by
  have hE : (syncReduction op size width).Enabled x (.send r) := ⟨hr, by rw [hpoint]; rfl⟩
  have hy : (syncReduction op size width).next x (.send r) =
      { x with net := x.net.push r p m }.set r
        { x.st r with point := if ms = [] then .returned else .send ms } := by
    simp only [syncReduction, SyncNet.next, hpoint, hp]
  refine ⟨_, .single hE, congrArg SyncNet.net hy, ?_, fun a ha => ?_⟩
  · rw [hy]
    exact Function.update_self ..
  · rw [hy]
    exact Function.update_of_ne ha _ _

/-- The two messages to the parent are sent one after the other. -/
theorem SyncNet.run_report (x : SyncNet) (op : ReduceOp) {p : Rank} {buf : List UInt8}
    (hr : r < size)
    (hpoint : (x.st r).point = .header)
    (hindex : (treeInit r size width).children ≤ (x.st r).index)
    (hp : (treeInit r size width).parentRank = some p)
    (hsend : (x.st r).input.sendPartial true (x.st r).total =
      some [.header true (x.st r).total buf.length, .data buf]) :
    ∃ y, (syncReduction op size width).Run x [.report r [], .send r, .send r] y ∧
      y.net = (x.net.push r p (.header true (x.st r).total buf.length)).push r p (.data buf) ∧
      (y.st r).point = .returned ∧ (y.st r).total = (x.st r).total ∧
        ∀ a, a ≠ r → y.st a = x.st a := by
  have hE : (syncReduction op size width).Enabled x (.report r []) :=
    ⟨hr, hpoint, hindex, .inr ⟨rfl, by rw [hsend]; rfl⟩⟩
  have hy : (syncReduction op size width).next x (.report r []) = x.set r { x.st r with
      point := .send [.header true (x.st r).total buf.length, .data buf]
      bytes := intOf (x.st r).input.size } := by
    simp only [syncReduction, SyncNet.next, hp, hsend, Option.getD_some]
  have hst : ((syncReduction op size width).next x (.report r [])).st r = { x.st r with
      point := .send [.header true (x.st r).total buf.length, .data buf]
      bytes := intOf (x.st r).input.size } := by
    rw [hy]
    exact Function.update_self ..
  obtain ⟨y, hrun, hynet, hyst, hyne⟩ := SyncNet.run_send (.header true (x.st r).total buf.length)
    [.data buf] hr hp (x := (syncReduction op size width).next x (.report r [])) (by rw [hst])
  obtain ⟨z, hrun', hznet, hzst, hzne⟩ := SyncNet.run_send (.data buf) [] hr hp
    (congrArg Sync.point hyst)
  refine ⟨z, .cons hE (hrun.append hrun'), ?_, congrArg Sync.point hzst, ?_, fun a ha => ?_⟩
  · rw [hznet, hynet, hy]
    rfl
  · rw [hzst, hyst, hst]
  · rw [hzne a ha, hyne a ha, hy]
    exact Function.update_of_ne ha _ _

/-! ## The two systems -/

/-- The data that follow a header. -/
def syncData : List ReduceMsg → List UInt8
  | _ :: .data _ buf :: _ => buf
  | _ => []

/-- The callbacks of the final reduction store their results. -/
def Event.Stores (op : ReduceOp) (job : Job) (s : Sys α) : Event α → Prop
  | .reduceSync _ calls => Sized ((storedBuf calls).getD [])
  | .reduceSyncReply r calls =>
      storedBuf calls = some (op.op r (s.child job r) (s.reduce.input r).bytes
        (syncData (s.reduce.net (s.child job r) r)))
  | _ => True

/-- A rank of the work loop and its variables in the final reduction. -/
structure Loc.Syncs (job : Job) (l : Loc α) (y : Sync) : Prop where
  outside : l.barrier.completed = 0 ∨ l.pc = .worksendWait ∨ l.pc = .reduceSync →
    y.point = .outside
  header : ∀ i, l.pc = .reduceSyncReplies i →
    y.point = .header ∧ y.index = i ∧ y.total = l.reduce.total ∧ y.input = l.input ∧
      l.reduce.valid = true
  returned : (job.opts 1).reduceEnabled = true → l.pc.aborting = true →
    y.point = .returned ∧ y.total = l.reduce.total
  /-- A rank has sent all its messages. -/
  unsent : y.point = .outside ∨ y.point = .header ∨ y.point = .returned

/-- The two systems are at the same point of the final reduction. -/
structure SyncNet.Follows (job : Job) (x : SyncNet) (s : Sys α) : Prop where
  net : ∀ a b, x.net a b = (s.reduce.net a b).filterMap ReduceMsg.final?
  loc : ∀ r, (s.loc r).Syncs job (x.st r)

/-- The other events keep the variables of a rank. -/
theorem Loc.Syncs.other (h : (s.loc e.rank).Syncs job (x.st e.rank)) (he : s.Enabled job e)
    (hf : FirstOnly s e) (hO : s.Once job) (hsync : ¬e.Syncs) :
    ((s.next job e).loc e.rank).Syncs job (x.st e.rank) := by
  have hO' := once_next he hf hO
  have hdone : ((s.next job e).barrier.st e.rank).completed = 0 →
      (s.barrier.st e.rank).completed = 0 := by
    intro hzero
    by_contra hne
    have hpast := (past_iff hO').mp
      (past_next he hf hO ((past_iff hO).mpr (Nat.pos_of_ne_zero hne)))
    exact absurd hzero (Nat.ne_of_gt hpast)
  by_cases hst : s.stage e.rank = .after
  · obtain ⟨hpc, hnext⟩ | ⟨hpc, hreduce, hnext⟩ := closing_next he hO hsync hst
    · refine ⟨fun _ => h.outside (.inr (.inl hpc)), fun i hi => ?_, fun henabled habort => ?_,
        h.unsent⟩
      · have hi := hnext.symm.trans hi
        split at hi <;> cases hi
      · rw [henabled] at hnext
        cases (congrArg Pc.aborting hnext).symm.trans habort
    · have hnot : ∀ p : Pc, (s.next job e).pc e.rank = p → p = .idle ∨ p.aborting = true :=
        fun p hp => hp ▸ hnext
      refine ⟨fun hor => ?_, fun i hi => ?_, fun henabled _ => ?_, h.unsent⟩
      · rcases hor with hzero | hor | hor
        · exact h.outside (.inl (hdone hzero))
        · rcases hnot _ hor with hp | hp <;> cases hp
        · rcases hnot _ hor with hp | hp <;> cases hp
      · rcases hnot _ hi with hp | hp <;> cases hp
      · rw [show ((s.next job e).loc e.rank).reduce = (s.loc e.rank).reduce from
          congrArg (fun z => ReduceNet.st z e.rank) hreduce]
        exact h.returned henabled hpc
  · have hafter : ∀ p : Pc, (s.next job e).pc e.rank = p → p.closing = true →
        s.stage e.rank = .cleanup ∧ (s.next job e).pc e.rank = .worksendWait :=
      fun p hpc hp => stage_after_next he hO hst (stage_of_closing hO' (by rw [hpc, hp]))
    have hcleanup : s.stage e.rank = .cleanup → (s.barrier.st e.rank).completed = 0 := by
      intro hst
      have hcount := (hO.coherent.ok e.rank).tidy.counted
      rw [show (s.loc e.rank).stage = _ from hst] at hcount
      have hcount : (s.barrier.st e.rank).completed + 1 = s.inv e.rank := hcount.1
      have hle := hO.inv_le e.rank
      omega
    refine ⟨fun hor => h.outside (.inl ?_), fun i hi => ?_, fun _ habort => ?_, h.unsent⟩
    · rcases hor with hzero | hpc | hpc
      · exact hdone hzero
      · exact hcleanup (hafter _ hpc rfl).1
      · exact hcleanup (hafter _ hpc rfl).1
    · cases hi.symm.trans (hafter _ hi rfl).2
    · have hpc := (hafter _ rfl (closing_of_aborting habort)).2
      cases (congrArg Pc.aborting hpc).symm.trans habort

theorem SyncNet.Follows.update {t : Sys α} (h : x.Follows job s)
    (hnet : ∀ a b, y.net a b = (t.reduce.net a b).filterMap ReduceMsg.final?)
    (hloc : ∀ a, a ≠ r → t.loc a = s.loc a) (hst : ∀ a, a ≠ r → y.st a = x.st a)
    (hr : (t.loc r).Syncs job (y.st r)) : y.Follows job t := by
  refine ⟨hnet, fun a => ?_⟩
  by_cases ha : a = r
  · exact ha ▸ hr
  · rw [hloc a ha, hst a ha]
    exact h.loc a

theorem SyncNet.follows_other (he : s.Enabled job e) (hf : FirstOnly s e) (hW : s.Waves job)
    (hP : s.ReducePhase job) (h : x.Follows job s) (hsync : ¬e.Syncs) :
    x.Follows job (s.next job e) := by
  refine h.update (r := e.rank) (fun a b => ?_) (fun a ha => loc_next_of_ne ha) (fun _ _ => rfl)
    ((h.loc e.rank).other he hf hW.once hsync)
  rw [h.net]
  rcases hP with ⟨hpast, hb⟩ | ⟨⟨q, hq, hp⟩, hquiet⟩
  · rw [hb.final_eq_nil, (background_next he hW.once hpast hb).final_eq_nil]
  · rw [reduce_net_next he hW.once (rested_of_past hW hq hp) hquiet hsync]

theorem SyncNet.follows_enter {calls : List ReduceCall} (he : s.Enabled job (.reduceSync r calls))
    (hO : s.Once job) (hstores : Event.Stores op job s (.reduceSync r calls))
    (h : x.Follows job s) :
    ∃ fs y, (syncReduction op job.size (job.opts 1).treeWidth).Run x fs y ∧
      y.Follows job (s.next job (.reduceSync r calls)) := by
  have hlt : r < job.size := (hO.coherent.ok r).rank_lt (e := .reduceSync r calls) he
  have hpc : s.pc r = .reduceSync := he
  have hpoint := (h.loc r).outside (.inr (.inr hpc))
  have hE : (syncReduction op job.size (job.opts 1).treeWidth).Enabled x
      (.enter r { x.st r with input := s.reduce.input r } (s.objects r) calls) :=
    ⟨hlt, hpoint, hstores⟩
  have hpc' : (s.next job (.reduceSync r calls)).pc r = .reduceSyncReplies 0 :=
    Function.update_self ..
  have hdone : (s.barrier.st r).completed ≠ 0 :=
    Nat.ne_of_gt ((past_iff hO).mp (.inl (stage_of_closing hO (by rw [hpc]; rfl))))
  refine ⟨_, _, .single hE, h.update (r := r) h.net (fun a ha => loc_next_of_ne ha)
    (fun a ha => Function.update_of_ne ha _ _)
    ⟨fun hor => ?_, fun i hi => ?_, fun _ habort => ?_, ?_⟩⟩
  · rcases hor with hzero | hor | hor
    · exact absurd hzero hdone
    · cases hpc'.symm.trans hor
    · cases hpc'.symm.trans hor
  · cases hpc'.symm.trans hi
    simp [syncReduction, SyncNet.next, SyncNet.set, Sys.loc, Sys.next, ReduceNet.callback,
      ReduceNet.syncBegin, ReduceNet.set]
  · cases (congrArg Pc.aborting hpc').symm.trans habort
  · simp [syncReduction, SyncNet.next, SyncNet.set]

/-- The messages from the child that a rank is at. -/
theorem SyncNet.Follows.packets (h : x.Follows job s)
    (hI : x.Inv job.rootedTree op job.size (job.opts 1).treeWidth sent)
    (hQ : s.reduce.Quiet job.rootedTree) {i : Nat} (hpc : s.pc r = .reduceSyncReplies i)
    {c : Rank} (hready : ReduceNet.SyncReady (s.reduce.net c r) = true) :
    ∃ (count : Nat) (buf : List UInt8), Sized buf ∧
      x.net c r = [.header true (count : Int) buf.length, .data buf] ∧
      s.reduce.net c r = [.header .sync true count buf.length, .data .sync buf] := by
  obtain ⟨hpoint, _⟩ := (h.loc r).header i hpc
  have hreport : x.report job.size (job.opts 1).treeWidth c r = x.net c r := by
    have hgot : (x.st r).got (treeInit r job.size (job.opts 1).treeWidth) c = [] := by
      simp [Sync.got, hpoint]
    have hunsent : (x.st c).unsent (treeInit c job.size (job.opts 1).treeWidth) r = [] := by
      rcases (h.loc c).unsent with hc | hc | hc <;> simp [Sync.unsent, hc]
    rw [SyncNet.report, hgot, hunsent, List.nil_append, List.append_nil]
  rcases hI.shape c r with hnil | ⟨v, hv, hpackets⟩
  · rw [hreport, h.net] at hnil
    have hne : s.reduce.net c r = [] := by
      refine List.eq_nil_iff_forall_not_mem.mpr fun m hm => ?_
      obtain ⟨p, hp⟩ := ReduceMsg.final?_isSome (hQ.background c r m hm)
      rw [List.filterMap_eq_nil_iff.mp hnil m hm] at hp
      cases hp
    rw [hne] at hready
    cases hready
  · rw [hreport] at hpackets
    obtain ⟨count, hcount, hnet⟩ :=
      eq_of_packets (hQ.background c r) ((h.net c r).symm.trans hpackets)
    refine ⟨count, v.2, hv, ?_, hnet⟩
    rw [hpackets, Libcircle.packets, hcount]

theorem SyncNet.follows_reply {calls : List ReduceCall}
    (he : s.Enabled job (.reduceSyncReply r calls)) (hO : s.Once job)
    (hQ : s.reduce.Quiet job.rootedTree)
    (hstores : Event.Stores op job s (.reduceSyncReply r calls))
    (hI : x.Inv job.rootedTree op job.size (job.opts 1).treeWidth sent) (h : x.Follows job s) :
    ∃ fs y, (syncReduction op job.size (job.opts 1).treeWidth).Run x fs y ∧
      y.Follows job (s.next job (.reduceSyncReply r calls)) := by
  have hlt : r < job.size := (hO.coherent.ok r).rank_lt (e := .reduceSyncReply r calls) he
  obtain ⟨hpc, hindex, hready⟩ := id he
  have hst := stage_of_closing (r := r) hO (by rw [hpc]; rfl)
  have htree := hO.tree_eq (r := r) (by rw [hst]; decide)
  obtain ⟨hpoint, hi, htotal, hinput, hvalid⟩ := (h.loc r).header _ hpc
  have hchild : x.child job.size (job.opts 1).treeWidth r = s.child job r := by
    rw [Sys.child, htree, SyncNet.child, hi]
    rfl
  obtain ⟨count, buf, hbuf, hx, hs⟩ := h.packets hI hQ hpc hready
  have hcalls : storedBuf calls = some (op.op r (s.child job r) (s.reduce.input r).bytes
      (syncData (s.reduce.net (s.child job r) r))) := hstores
  rw [htree, ← hi] at hindex
  rw [hs, ← hchild, ← show (x.st r).input = s.reduce.input r from hinput] at hcalls
  obtain ⟨y, hrun, hnet, hy, hne⟩ := x.run_child hlt hpoint hindex hbuf (hchild ▸ hx) hcalls
  have hpc' : (s.next job (.reduceSyncReply r calls)).pc r =
      .reduceSyncReplies ((s.pc r).index + 1) := Function.update_self ..
  have hdone : (s.barrier.st r).completed ≠ 0 :=
    Nat.ne_of_gt ((past_iff hO).mp (.inl hst))
  have hrecv := s.reduce.recvSync_data (r := r) (c := s.child job r) hs
    (Nat.ne_of_gt hbuf.1)
  have hst' : (s.next job (.reduceSyncReply r calls)).reduce.st r =
      { s.reduce.st r with total := (s.reduce.st r).total + count } :=
    (congrArg (fun z => ReduceNet.st z r) hrecv).trans (Function.update_self ..)
  refine ⟨_, y, hrun, h.update (r := r) (fun a b => ?_) (fun a ha => loc_next_of_ne ha) hne
    ⟨fun hor => ?_, fun i hi' => ?_, fun _ habort => ?_, ?_⟩⟩
  · have hnext : (s.next job (.reduceSyncReply r calls)).reduce.net =
        (s.reduce.net.pop (s.child job r) r).pop (s.child job r) r := congrArg ReduceNet.net hrecv
    rw [hnet, hnext, hchild]
    by_cases hab : a = s.child job r ∧ b = r
    · obtain ⟨rfl, rfl⟩ := hab
      simp [hx, hs]
    · simp only [Chan.pop_ne _ hab, h.net]
  · rcases hor with hzero | hor | hor
    · exact absurd hzero hdone
    · cases hpc'.symm.trans hor
    · cases hpc'.symm.trans hor
  · cases hpc'.symm.trans hi'
    rw [hy]
    refine ⟨hpoint, congrArg (· + 1) hi, ?_, ?_, ?_⟩
    · refine Eq.trans ?_ (congrArg (fun z : Reduce => (z.total : Int)) hst').symm
      rw [Nat.cast_add]
      exact congrArg (· + (count : Int)) htotal
    · have hcalls : (s.reduce.input r).run
          (Event.reduceCalls r (.reduceSyncReply (α := α) r calls)) =
          (s.next job (.reduceSyncReply r calls)).reduce.input r := (input_next s _).symm
      rw [show Event.reduceCalls r (.reduceSyncReply (α := α) r calls) = calls from if_pos rfl]
        at hcalls
      exact (congrArg (ReduceInput.run · calls) hinput).trans hcalls
    · exact (congrArg Reduce.valid hst').trans hvalid
  · cases (congrArg Pc.aborting hpc').symm.trans habort
  · rw [hy]
    exact .inr (.inl hpoint)

theorem SyncNet.follows_done {calls : List ReduceCall}
    (he : s.Enabled job (.reduceSyncDone r calls)) (hO : s.Once job)
    (hI : x.Inv job.rootedTree op job.size (job.opts 1).treeWidth sent) (h : x.Follows job s) :
    ∃ fs y, (syncReduction op job.size (job.opts 1).treeWidth).Run x fs y ∧
      y.Follows job (s.next job (.reduceSyncDone r calls)) := by
  have hlt : r < job.size := (hO.coherent.ok r).rank_lt (e := .reduceSyncDone r calls) he
  obtain ⟨hpc, hcalls⟩ := id he
  have hst := stage_of_closing (r := r) hO (by rw [hpc]; rfl)
  have htree := hO.tree_eq (r := r) (by rw [hst]; decide)
  obtain ⟨hpoint, hi, htotal, hinput, hvalid⟩ := (h.loc r).header _ hpc
  obtain ⟨_, buf, hbuf, hdata⟩ := (hI.ok r).input (.inl hpoint)
  have hpc' : (s.next job (.reduceSyncDone r calls)).pc r = .abortReduce :=
    Function.update_self ..
  have hdone : (s.barrier.st r).completed ≠ 0 :=
    Nat.ne_of_gt ((past_iff hO).mp (.inl hst))
  have htotal' : ((s.next job (.reduceSyncDone r calls)).reduce.st r).total =
      (s.reduce.st r).total := ReduceNet.syncFinish_total ..
  have hover : ∀ z : Sync, z.point = .returned → z.total = (x.st r).total →
      ((s.next job (.reduceSyncDone r calls)).loc r).Syncs job z := by
    intro z hz hztotal
    refine ⟨fun hor => ?_, fun i hi => ?_, fun _ _ => ⟨hz, ?_⟩, .inr (.inr hz)⟩
    · rcases hor with hzero | hor | hor
      · exact absurd hzero hdone
      · cases hpc'.symm.trans hor
      · cases hpc'.symm.trans hor
    · cases hpc'.symm.trans hi
    · rw [hztotal, htotal]
      exact congrArg Nat.cast htotal'.symm
  have hindex : (treeInit r job.size (job.opts 1).treeWidth).children ≤ (x.st r).index := by
    rw [hi, htree]
    exact Nat.le_refl _
  cases hp : (treeInit r job.size (job.opts 1).treeWidth).parentRank with
  | none =>
      have hE : (syncReduction op job.size (job.opts 1).treeWidth).Enabled x (.report r calls) :=
        ⟨hlt, hpoint, hindex, .inl hp⟩
      have hy : (syncReduction op job.size (job.opts 1).treeWidth).next x (.report r calls) =
          x.set r { x.st r with
            point := .returned
            input := (x.st r).input.run calls
            result := some (x.st r).input } := by
        simp only [syncReduction, SyncNet.next, hp]
      refine ⟨_, _, .single hE, h.update (r := r) (fun a b => ?_) (fun a ha => loc_next_of_ne ha)
        (fun a ha => ?_) (hover _ ?_ ?_)⟩
      · rw [hy, show (s.next job (.reduceSyncDone r calls)).reduce.net =
          (s.reduce.syncFinish (s.tree job r) r).net from rfl, htree, ReduceNet.syncFinish,
          show (job.tree 1 r).parentRank = none from hp]
        exact h.net a b
      · rw [hy]
        exact Function.update_of_ne ha _ _
      · rw [hy]
        simp [SyncNet.set]
      · rw [hy]
        simp [SyncNet.set]
  | some p =>
      have hr : r ≠ 0 := by
        rintro rfl
        cases hp
      have hinput' : s.reduce.input r = ⟨some buf, buf.length⟩ := hinput.symm.trans hdata
      have hsend : (x.st r).input.sendPartial true (x.st r).total =
          some [.header true (x.st r).total buf.length, .data buf] := by
        rw [hdata]
        exact sendPartial_stored hbuf _
      obtain ⟨y, hrun, hnet, hreturned, hytotal, hne⟩ := x.run_report op hlt hpoint hindex hp hsend
      refine ⟨_, y, hrun, h.update (r := r) (fun a b => ?_) (fun a ha => loc_next_of_ne ha) hne
        (hover _ hreturned hytotal)⟩
      have hfinish : (s.next job (.reduceSyncDone r calls)).reduce.net =
          (s.reduce.net.push r p (.header .sync true (s.reduce.st r).total buf.length)).push r p
            (.data .sync buf) := by
        have hpos : 0 < buf.length := hbuf.1
        rw [show (s.next job (.reduceSyncDone r calls)).reduce.net =
          (s.reduce.syncFinish (s.tree job r) r).net from rfl, htree, ReduceNet.syncFinish,
          show (job.tree 1 r).parentRank = some p from hp]
        simp only [ReduceNet.sendResult, hinput', show (s.reduce.st r).valid = true from hvalid,
          hpos, and_self, if_true, Option.getD_some]
      rw [hnet, hfinish]
      by_cases hab : a = r ∧ b = p
      · obtain ⟨rfl, rfl⟩ := hab
        rw [Chan.push_self, Chan.push_self, Chan.push_self, Chan.push_self, h.net, htotal]
        simp [ReduceMsg.final?, Sys.loc]
      · rw [Chan.push_ne _ _ hab, Chan.push_ne _ _ hab, Chan.push_ne _ _ hab, Chan.push_ne _ _ hab,
          h.net]

theorem SyncNet.follows_next (he : s.Enabled job e) (hf : FirstOnly s e) (hW : s.Waves job)
    (hP : s.ReducePhase job) (hstores : Event.Stores op job s e)
    (hI : x.Inv job.rootedTree op job.size (job.opts 1).treeWidth sent) (h : x.Follows job s) :
    ∃ fs y, (syncReduction op job.size (job.opts 1).treeWidth).Run x fs y ∧
      y.Follows job (s.next job e) := by
  have hO := hW.once
  cases e with
  | reduceSync r calls => exact SyncNet.follows_enter he hO hstores h
  | reduceSyncReply r calls =>
      have hlt : r < job.size := (hO.coherent.ok r).rank_lt (e := .reduceSyncReply r calls) he
      have hst := stage_of_closing (r := r) hO (by rw [he.1]; rfl)
      rcases hP with ⟨hpast, _⟩ | ⟨_, hQ⟩
      · exact absurd (.inl hst) (hpast r hlt)
      · exact SyncNet.follows_reply he hO hQ hstores hI h
  | reduceSyncDone r calls => exact SyncNet.follows_done he hO hI h
  | _ => exact ⟨[], x, .nil x, SyncNet.follows_other he hf hW hP h id⟩

/-- The work loop takes only steps of the reduction, if the callbacks store their results. -/
theorem syncReduction_of_run {queue : Rank → List α} {abortFlag : Rank → Bool}
    {input : Rank → ReduceInput} {enqueued : List α} {es : List (Event α)}
    (hrun : (job.once.restrict (Event.Stores op job)).Run
      (Sys.start queue abortFlag input enqueued) es s) :
    ∃ fs x, (syncReduction op job.size (job.opts 1).treeWidth).Run .start fs x ∧
      (∀ a b, x.net a b = (s.reduce.net a b).filterMap ReduceMsg.final?) ∧
        ((job.opts 1).reduceEnabled = true → ∀ r, s.pc r = .returned →
          (x.st r).point = .returned ∧ (x.st r).total = (s.reduce.st r).total) := by
  have hstart : SyncNet.start.Follows job (Sys.start queue abortFlag input enqueued) := by
    refine ⟨fun _ _ => rfl, fun r => ⟨fun _ => rfl, fun i hi => ?_, fun _ habort => ?_, .inl rfl⟩⟩
    · cases hi
    · cases habort
  obtain ⟨fs, x, hx, _, _, _, hR⟩ := hrun.simulate
    (R := fun s (x : SyncNet) => s.Waves job ∧ s.ReducePhase job ∧
      (∃ sent, x.Inv job.rootedTree op job.size (job.opts 1).treeWidth sent) ∧ x.Follows job s)
    (fun s x e ⟨hW, hP, ⟨sent, hI⟩, hR⟩ ⟨⟨he, hf⟩, hstores⟩ => by
      obtain ⟨fs, y, hy, hR'⟩ := SyncNet.follows_next he hf hW hP hstores hI hR
      refine ⟨fs, y, hy, waves_next he hf hW, reducePhase_next he hf hW hP, ?_, hR'⟩
      exact hy.invariant
        (I := fun x => ∃ sent, x.Inv job.rootedTree op job.size (job.opts 1).treeWidth sent)
        (fun _ _ ⟨_, hI⟩ hE => SyncNet.inv_next hI hE) ⟨sent, hI⟩)
    ⟨waves_start .., reducePhase_start .., ⟨_, SyncNet.inv_start⟩, hstart⟩
  refine ⟨fs, x, hx, hR.net, fun henabled r hpc => ?_⟩
  exact (hR.loc r).returned henabled (congrArg Pc.aborting hpc)

end Libcircle
