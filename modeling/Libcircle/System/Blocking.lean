import Libcircle.System.Drain
import Libcircle.System.TokenRing

/-!
# Sends that block

In `Job.step` a message is in flight as soon as its sender takes the step.  Here
`MPI_Send` may block until the message is received.  A rank that sends with
`MPI_Send` takes no further step before its sends have returned, one after the
other (`Blocking.out`), and a message is received only when the sends before it
have returned.  A send returns at any time, since MPI may buffer it.

`Sys.sends` lists the `MPI_Send` calls of the main and the cleanup loop, in the
order of the source.  `MPI_Isend` and `MPI_Issend` do not block.

All these sends go along the edges of the tree, so a cycle of blocked senders is
a parent and a child that send to each other (`ParentTree.exists_mutual`).  A
message down and a message up of one protocol are never in flight on one edge at
a time, and the barrier is over or not yet begun while the others are at work.
What is left is the termination allreduce against the background reduction.
-/

namespace Libcircle

/-- The tags of the messages that are sent with `MPI_Send` in the two loops. -/
inductive BlockTag where
  /-- `CIRCLE_TAG_TERM`. -/
  | term
  /-- `CIRCLE_TAG_REDUCE`. -/
  | reduce
  /-- `CIRCLE_TAG_BARRIER`. -/
  | barrier
  /-- `CIRCLE_TAG_ABORT_REPLY`. -/
  | abortReply
deriving DecidableEq, Repr

section

variable {α : Type*} (job : Job) (s : Sys α)

/-- The `MPI_Send` calls of an event: the tags and the destinations. -/
def Sys.sends : Event α → List (BlockTag × Rank)
  | .abortRequest _ (some q) => [(.abortReply, q)]
  | .reduceBegin r due hit _ =>
      let t := s.tree job r
      if ReduceNet.Starts t (s.stage r = .cleanup) due hit then
        if s.stage r = .cleanup then t.parentRank.toList.map (.reduce, ·)
        else t.childRanks.map (.reduce, ·)
      else []
  | .reduceDone r _ =>
      let t := s.tree job r
      if (s.reduce.st r).replies = t.children then
        match t.parentRank with
        | some p =>
            -- the header, and the data if there are any
            if 0 < (s.reduce.input r).size ∧ (s.reduce.st r).valid = true then
              [(.reduce, p), (.reduce, p)]
            else [(.reduce, p)]
        | none => []
      else []
  | .termUp r =>
      let t := s.tree job r
      if s.term.Ready t r then
        match t.parentRank with
        | some p => [(.term, p)]
        | none => t.childRanks.map (.term, ·)
      else []
  | .termDown r hit => if hit then (s.tree job r).childRanks.map (.term, ·) else []
  | .barrierUp r =>
      let t := s.tree job r
      if s.barrier.Ready t r then
        match t.parentRank with
        | some p => [(.barrier, p)]
        | none => t.childRanks.map (.barrier, ·)
      else []
  | .barrierDown r hit => if hit then (s.tree job r).childRanks.map (.barrier, ·) else []
  | _ => []

/-- The messages of these tags that an event receives: the tags and the sources. -/
def Sys.receives : Event α → List (BlockTag × Rank)
  | .abortReplies r done => if done then (s.tree job r).neighbours.map (.abortReply, ·) else []
  | .reduceBegin r _ hit _ =>
      if hit then (s.tree job r).parentRank.toList.map (.reduce, ·) else []
  | .reduceReply r hit _ => if hit then [(.reduce, s.child job r)] else []
  | .termReply _ src => [(.term, src)]
  | .termDown r hit => if hit then (s.tree job r).parentRank.toList.map (.term, ·) else []
  | .barrierReply _ src => src.toList.map (.barrier, ·)
  | .barrierDown r hit => if hit then (s.tree job r).parentRank.toList.map (.barrier, ·) else []
  | _ => []

/-- A message that `a` sent to `b` with the tag is in flight. -/
def Sys.InFlight (a b : Rank) : BlockTag → Prop
  | .term => s.term.net a b ≠ []
  | .reduce => ∃ m ∈ s.reduce.net a b, m.isBackground = true
  | .barrier => s.barrier.net a b ≠ []
  | .abortReply => s.abort.replies a b ≠ []

/-- `b` has posted a receive for a message of `a` with the tag.  The other receives are
posted after a probe has found the message. -/
def Sys.Posted (a b : Rank) : BlockTag → Prop
  | .abortReply => (s.abort.st b).abortOutstanding = true ∧ a ∈ (s.tree job b).neighbours
  | _ => False

instance (a b : Rank) : ∀ tag, Decidable (s.InFlight a b tag)
  | .term | .barrier | .abortReply => inferInstanceAs (Decidable (_ ≠ _))
  | .reduce => inferInstanceAs (Decidable (∃ m ∈ s.reduce.net a b, _))

instance (a b : Rank) : ∀ tag, Decidable (s.Posted job a b tag)
  | .abortReply => inferInstanceAs (Decidable (_ ∧ _))
  | .term | .reduce | .barrier => .isFalse id

end

/-- The system with the sends that have not returned. -/
structure Blocking (α : Type*) where
  /-- The state of the system. -/
  sys : Sys α
  /-- The `MPI_Send` calls of a rank that have not returned, with the one under way first. -/
  out : Rank → List (BlockTag × Rank)

namespace Blocking

variable {α : Type*}

/-- A step of the system with blocking sends. -/
inductive Step (α : Type*) where
  /-- An event of the system. -/
  | event (e : Event α)
  /-- The send under way on `r` returns. -/
  | sent (r : Rank)

variable (job : Job) (x : Blocking α)

/-- The message from `a` to `b` has been posted.  There is at most one message, or one header
with its data, in flight between two ranks under one of the tags. -/
def Available (a b : Rank) (tag : BlockTag) : Prop := (tag, b) ∉ (x.out a).tail

instance (a b : Rank) (tag : BlockTag) : Decidable (x.Available a b tag) :=
  inferInstanceAs (Decidable (¬_))

/-- `r` is blocked in an `MPI_Send` to `q`, which has no matching receive posted. -/
def Blocked (r q : Rank) : Prop :=
  ∃ tag ∈ (x.out r).head?, tag.2 = q ∧ x.sys.InFlight r q tag.1 ∧ ¬x.sys.Posted job r q tag.1

instance (r q : Rank) : Decidable (x.Blocked job r q) :=
  inferInstanceAs (Decidable (∃ tag ∈ (x.out r).head?, _))

/-- The steps a state enables. -/
def Enabled : Step α → Prop
  | .event e =>
      x.sys.Enabled job e ∧ x.out e.rank = [] ∧
        ∀ m ∈ x.sys.receives job e, x.Available m.2 e.rank m.1
  | .sent r => x.out r ≠ []

instance : ∀ e, Decidable (x.Enabled job e)
  | .event _ => inferInstanceAs (Decidable (_ ∧ _ ∧ _))
  | .sent _ => inferInstanceAs (Decidable (_ ≠ _))

/-- The state after a step. -/
def next : Step α → Blocking α
  | .event e =>
      { sys := x.sys.next job e
        out := Function.update x.out e.rank (x.sys.sends job e) }
  | .sent r => { x with out := Function.update x.out r (x.out r).tail }

end Blocking

/-- The system with blocking sends. -/
def Job.blocking {α : Type*} (job : Job) : EventSystem (Blocking α) (Blocking.Step α) where
  Enabled := Blocking.Enabled job
  next := Blocking.next job

/-! ## What a rank is sending -/

section

variable {α : Type*} {job : Job} {s : Sys α} {e : Event α} {x : Blocking α} {r q p c : Rank}

/-- `r` may be sending to `q` with the tag. -/
def Sys.Fits (job : Job) (s : Sys α) (r q : Rank) : BlockTag → Prop
  | .term =>
      (job.opts 1).termTree = true ∧ (q ∈ job.rootedTree.children r ∨
        (r ∈ job.rootedTree.children q ∧ s.stage r = .main))
  | .reduce =>
      (job.opts 1).reduceEnabled = true ∧ (r ∈ job.rootedTree.children q ∨
        (q ∈ job.rootedTree.children r ∧ s.stage r = .main))
  | .barrier => q ∈ job.rootedTree.children r ∨ r ∈ job.rootedTree.children q
  | .abortReply => True

theorem Sys.Fits.congr {s' : Sys α} (hst : s'.stage r = s.stage r) {tag : BlockTag}
    (h : s.Fits job r q tag) : s'.Fits job r q tag := by
  cases tag with
  | term =>
      simp only [Fits, hst]
      exact h
  | reduce =>
      simp only [Fits, hst]
      exact h
  | barrier | abortReply => exact h

theorem mem_map_tag {tag tag' : BlockTag} {l : List Rank} (h : (tag', q) ∈ l.map (tag, ·)) :
    tag' = tag ∧ q ∈ l := by
  obtain ⟨a, ha, heq⟩ := List.mem_map.mp h
  cases heq
  exact ⟨rfl, ha⟩

/-- What an event sends fits the state it leads to. -/
theorem fits_of_sends (he : s.Enabled job e) (hO : s.Once job) {tag : BlockTag}
    (hm : (tag, q) ∈ s.sends job e) : (s.next job e).Fits job e.rank q tag := by
  have hlt := (hO.coherent.ok _).rank_lt he
  have hat := (hO.coherent.ok e.rank).position
  cases e with
  | abortRequest r src =>
      cases src with
      | none => cases hm
      | some a =>
          obtain ⟨rfl, rfl⟩ := Prod.mk.inj (List.mem_singleton.mp hm)
          trivial
  | reduceBegin r due hit calls =>
      obtain ⟨hpc, hen, _⟩ := he
      have hne := (hO.coherent.ok r).stage_ne (by simp [hpc])
      rw [Sys.opts, hO.inv_eq hne] at hen
      rw [show s.pc (Event.reduceBegin (α := α) r due hit calls).rank = _ from hpc] at hat
      simp only [Sys.sends, hO.tree_eq hne] at hm
      split at hm
      · split at hm
        · obtain ⟨rfl, hp⟩ := mem_map_tag hm
          exact ⟨hen, .inl (job.mem_children hlt (Option.mem_toList.mp hp))⟩
        · rename_i hst
          obtain ⟨rfl, hc⟩ := mem_map_tag hm
          exact ⟨hen, .inr ⟨hc, hat.1.resolve_right hst⟩⟩
      · cases hm
  | reduceDone r calls =>
      obtain ⟨hpc, _⟩ := he
      have hne := (hO.coherent.ok r).stage_ne (by simp [hpc])
      rw [show s.pc (Event.reduceDone (α := α) r calls).rank = _ from hpc] at hat
      have hen : (job.opts (s.inv r)).reduceEnabled = true := hat.2.2.1
      rw [hO.inv_eq hne] at hen
      simp only [Sys.sends, hO.tree_eq hne] at hm
      split at hm
      · cases hp : (job.tree 1 r).parentRank with
        | none =>
            rw [hp] at hm
            cases hm
        | some p =>
            have hmem : (tag, q) = (.reduce, p) := by
              rw [hp] at hm
              dsimp only at hm
              split at hm
              · simpa using hm
              · exact List.mem_singleton.mp hm
            obtain ⟨rfl, rfl⟩ := Prod.mk.inj hmem
            exact ⟨hen, .inl (job.mem_children hlt hp)⟩
      · cases hm
  | termUp r =>
      have hpc : s.pc r = .termUp := he
      have hne := (hO.coherent.ok r).stage_ne (by simp [hpc])
      rw [show s.pc (Event.termUp (α := α) r).rank = _ from hpc] at hat
      have hen : (job.opts (s.inv r)).termTree = true := hat.2.2.1
      rw [hO.inv_eq hne] at hen
      simp only [Sys.sends, hO.tree_eq hne] at hm
      split at hm
      · rename_i hready
        cases hp : (job.tree 1 r).parentRank with
        | none =>
            rw [hp] at hm
            obtain ⟨rfl, hc⟩ := mem_map_tag hm
            exact ⟨hen, .inl hc⟩
        | some p =>
            rw [hp] at hm
            obtain ⟨rfl, rfl⟩ := Prod.mk.inj (List.mem_singleton.mp hm)
            refine ⟨hen, .inr ⟨job.mem_children hlt hp, ?_⟩⟩
            have hreport : (s.term.report (s.tree job r) r).2 = none := by
              simp only [hO.tree_eq hne, TermNet.report, hready, if_true, hp]
            change Function.update s.stage r (stageAfterTerm (s.stage r) _) r = _
            rw [Function.update_self, hreport]
            exact hat.1
      · cases hm
  | termDown r hit =>
      obtain ⟨hpc, _⟩ := he
      have hne := (hO.coherent.ok r).stage_ne (by simp [hpc])
      rw [show s.pc (Event.termDown (α := α) r hit).rank = _ from hpc] at hat
      have hen : (job.opts (s.inv r)).termTree = true := hat.2.2.1
      rw [hO.inv_eq hne] at hen
      simp only [Sys.sends, hO.tree_eq hne] at hm
      split at hm
      · obtain ⟨rfl, hc⟩ := mem_map_tag hm
        exact ⟨hen, .inl hc⟩
      · cases hm
  | barrierUp r =>
      have hpc : s.pc r = .barrierUp := he
      have hne := (hO.coherent.ok r).stage_ne (by simp [hpc])
      simp only [Sys.sends, hO.tree_eq hne] at hm
      split at hm
      · cases hp : (job.tree 1 r).parentRank with
        | none =>
            rw [hp] at hm
            obtain ⟨rfl, hc⟩ := mem_map_tag hm
            exact .inl hc
        | some p =>
            rw [hp] at hm
            obtain ⟨rfl, rfl⟩ := Prod.mk.inj (List.mem_singleton.mp hm)
            exact .inr (job.mem_children hlt hp)
      · cases hm
  | barrierDown r hit =>
      obtain ⟨hpc, _⟩ := he
      have hne := (hO.coherent.ok r).stage_ne (by simp [hpc])
      simp only [Sys.sends, hO.tree_eq hne] at hm
      split at hm
      · obtain ⟨rfl, hc⟩ := mem_map_tag hm
        exact .inl hc
      · cases hm
  | _ => cases hm

/-! ## The invariant -/

namespace Blocking

/-- A rank starts its first invocation only. -/
def FirstOnly (x : Blocking α) : Step α → Prop
  | .event e => Libcircle.FirstOnly x.sys e
  | .sent _ => True

instance (x : Blocking α) : ∀ e, Decidable (x.FirstOnly e)
  | .event e => inferInstanceAs (Decidable (Libcircle.FirstOnly x.sys e))
  | .sent _ => .isTrue trivial

/-- No rank is sending. -/
def start (s : Sys α) : Blocking α := ⟨s, fun _ => []⟩

/-- What holds while ranks may be blocked. -/
structure Inv (job : Job) (x : Blocking α) : Prop where
  waves : x.sys.Waves job
  reduce : x.sys.ReducePhase job
  abort : x.sys.abort.Paired job.neighbours
  ring : (job.opts 1).termTree = false → x.sys.Ring job
  out : ∀ r q tag, (tag, q) ∈ x.out r → x.sys.Fits job r q tag

theorem inv_start (queue : Rank → List α) (abortFlag : Rank → Bool)
    (input : Rank → ReduceInput) (enqueued : List α) :
    (start (Sys.start queue abortFlag input enqueued)).Inv job :=
  ⟨waves_start .., reducePhase_start .., paired_start .., fun _ => ring_start .., fun _ _ _ h => by
    cases h⟩

theorem inv_next {e : Step α} (he : x.Enabled job e) (hf : x.FirstOnly e) (h : x.Inv job) :
    (x.next job e).Inv job := by
  cases e with
  | event e =>
      have hO := h.waves.once
      refine ⟨waves_next he.1 hf h.waves, reducePhase_next he.1 hf h.waves h.reduce,
        paired_next he.1 hO h.abort, fun ht => ring_next ht he.1 hf hO (h.ring ht),
        fun r q tag hm => ?_⟩
      change (tag, q) ∈ Function.update x.out e.rank (x.sys.sends job e) r at hm
      by_cases hr : r = e.rank
      · rw [hr, Function.update_self] at hm
        rw [hr]
        exact fits_of_sends he.1 hO hm
      · rw [Function.update_of_ne hr] at hm
        exact (h.out r q tag hm).congr (congrArg Loc.stage (loc_next_of_ne hr))
  | sent a =>
      refine ⟨h.waves, h.reduce, h.abort, h.ring, fun r q tag hm => h.out r q tag ?_⟩
      change (tag, q) ∈ Function.update x.out a (x.out a).tail r at hm
      by_cases hr : r = a
      · rw [hr, Function.update_self] at hm
        rw [hr]
        exact List.mem_of_mem_tail hm
      · rwa [Function.update_of_ne hr] at hm

/-! ## Two blocked neighbours -/

/-- A rank blocked in a send, with the tag. -/
theorem Inv.of_blocked (h : x.Inv job) (hb : x.Blocked job r q) :
    ∃ tag, x.sys.Fits job r q tag ∧ x.sys.InFlight r q tag ∧ tag ≠ .abortReply := by
  obtain ⟨⟨tag, d⟩, hm, hd, hflight, hposted⟩ := hb
  obtain rfl : d = q := hd
  refine ⟨tag, h.out _ _ _ (List.mem_of_mem_head? hm), hflight, ?_⟩
  rintro rfl
  -- the reply of an abort request has a receive posted
  refine hposted ?_
  have hout : (x.sys.abort.st d).abortOutstanding = true := by
    by_contra hf
    exact hflight (h.abort.none _ _ (.inl (Bool.eq_false_iff.mpr hf))).2
  refine ⟨hout, ?_⟩
  have hne : x.sys.stage d ≠ .outside := fun hst =>
    absurd (((h.waves.once.coherent.ok d).tidy.settled (.inr (.inr hst))).2.2.symm.trans hout)
      (by decide)
  by_contra hf
  rw [h.waves.once.tree_eq hne] at hf
  exact hflight (h.abort.none _ _ (.inr hf)).2

/-- The edge a rank is blocked on. -/
theorem Inv.edge_of_blocked (h : x.Inv job) (hb : x.Blocked job r q) :
    q ∈ job.rootedTree.children r ∨ r ∈ job.rootedTree.children q := by
  obtain ⟨tag, hfits, _, hne⟩ := h.of_blocked hb
  cases tag with
  | term => exact hfits.2.imp_right And.left
  | reduce => exact hfits.2.symm.imp_left And.left
  | barrier => exact hfits
  | abortReply => exact absurd rfl hne

/-- A rank whose arrival is in flight is in the cleanup loop. -/
theorem Inv.stage_of_arrival (h : x.Inv job) (hc : c ∈ job.rootedTree.children p)
    (hm : x.sys.InFlight c p .barrier) : x.sys.stage c = .cleanup := by
  obtain ⟨_, _, _, hup, _⟩ := h.waves.barrier.sent_of_report hc hm
  have hok := h.waves.once.coherent.ok c
  by_contra hst
  have hstarted := hok.tidy.barrier_reset hst
  exact absurd ((hok.tidy.barrier_started hstarted).1.symm.trans hup) (by decide)

/-- A rank whose release is in flight has completed the barrier. -/
theorem Inv.past_of_release (h : x.Inv job) (hc : c ∈ job.rootedTree.children p)
    (hm : x.sys.InFlight p c .barrier) : p < job.size ∧ x.sys.Past p := by
  obtain ⟨_, _, hdone, _⟩ := h.waves.barrier.answered_of_answer hc hm
  refine ⟨job.rootedTree.node_parent c p (job.rootedTree.node_of_mem hc)
    (job.rootedTree.parent_of_mem hc), (past_iff h.waves.once).mpr ?_⟩
  have hpos : x.sys.barrier.wave.done p = (x.sys.barrier.st p).completed := rfl
  omega

/-- With ring termination, a rank leaves the main loop after those below it. -/
theorem Inv.stage_of_ring (h : x.Inv job) (ht : (job.opts 1).termTree = false)
    (hc : x.sys.stage c = .cleanup) (hlt : p < c) : x.sys.stage p ≠ .main := by
  have hR := h.ring ht
  have hinv : x.sys.inv c = 1 := h.waves.once.inv_eq (by simp [hc])
  have hterm := (hR.stage c).mpr ⟨by simp [hc], by omega⟩
  obtain ⟨_, _, ha⟩ := hR.token
  rcases ha with ⟨ha, _⟩ | ⟨a, _, hp, _⟩
  · exact absurd hterm (ha.not_terminated c)
  · obtain ⟨hcolour, hle⟩ := (hp.terminated c).mp hterm
    exact ((hR.stage p).mp ((hp.terminated p).mpr
      ⟨hcolour, Nat.le_of_lt (Nat.lt_of_lt_of_le hlt hle)⟩)).1

/-- The two ends of an edge are not blocked in sends to each other, unless the termination
allreduce and the background reduction meet. -/
theorem Inv.not_mutual (h : x.Inv job)
    (hopts : (job.opts 1).termTree = false ∨ (job.opts 1).reduceEnabled = false)
    (hc : c ∈ job.rootedTree.children p) (hdown : x.Blocked job p c) :
    ¬x.Blocked job c p := by
  intro hup
  obtain ⟨down, hfd, hmd, hnd⟩ := h.of_blocked hdown
  obtain ⟨up, hfu, hmu, hnu⟩ := h.of_blocked hup
  have hnot : c ∉ job.rootedTree.children p → False := fun hn => hn hc
  have hsym := job.rootedTree.not_mem_children_symm hc
  cases down with
  | abortReply => exact hnd rfl
  | barrier =>
      obtain ⟨hlt, hp⟩ := h.past_of_release hc hmd
      cases up with
      | abortReply => exact hnu rfl
      | barrier =>
          obtain ⟨_, _, _, _, hnil⟩ := h.waves.barrier.answered_of_answer hc hmd
          exact hmu hnil
      | term =>
          rcases hfu.2 with hc' | ⟨_, hst⟩
          · exact hsym hc'
          · exact (rested_of_past h.waves hlt hp c).stage_ne hst
      | reduce =>
          obtain ⟨m, hm, hback⟩ := hmu
          rcases h.reduce with ⟨hnone, _⟩ | ⟨_, hq⟩
          · exact hnone p hlt hp
          · exact absurd (hback.symm.trans (hq.background c p m hm)) (by decide)
  | term =>
      obtain ⟨_, _, _, htermUp, hnil⟩ := h.waves.term.answered_of_answer hc hmd
      cases up with
      | abortReply => exact hnu rfl
      | term => exact hmu hnil
      | reduce =>
          rcases hopts with ht | hr
          · exact absurd (ht.symm.trans hfd.1) (by decide)
          · exact absurd (hr.symm.trans hfu.1) (by decide)
      | barrier =>
          have hst := h.stage_of_arrival hc hmu
          have hreset := ((h.waves.once.coherent.ok c).tidy.term_reset (.inl (by
            simp [Sys.loc, hst]))).1
          exact absurd (hreset.symm.trans htermUp) (by decide)
  | reduce =>
      have hst : x.sys.stage p = .main := (hfd.2.resolve_left hsym).2
      cases up with
      | abortReply => exact hnu rfl
      | term =>
          rcases hopts with ht | hr
          · exact absurd (ht.symm.trans hfu.1) (by decide)
          · exact absurd (hr.symm.trans hfd.1) (by decide)
      | reduce =>
          obtain ⟨m, hm, hback⟩ := hmd
          rcases h.reduce with ⟨_, hB⟩ | ⟨_, hq⟩
          · obtain ⟨m', hm', _⟩ := hmu
            obtain ⟨_, _, _, hnil⟩ := (hB.edge p c hc).of_start (List.ne_nil_of_mem hm)
            rw [hnil] at hm'
            cases hm'
          · exact absurd (hback.symm.trans (hq.background p c m hm)) (by decide)
      | barrier =>
          have ht : (job.opts 1).termTree = false := hopts.resolve_right fun hr =>
            absurd (hr.symm.trans hfd.1) (by decide)
          exact h.stage_of_ring ht (h.stage_of_arrival hc hmu) (job.rootedTree.depth_of_mem hc) hst

/-! ## Cycles -/

/-- The ranks of a set are blocked in sends to each other. -/
def Cycle (job : Job) (x : Blocking α) : Prop :=
  ∃ S : Set Rank, S.Nonempty ∧ ∀ r ∈ S, ∃ q ∈ S, x.Blocked job r q

theorem Inv.not_cycle (h : x.Inv job) (hopts : (job.opts 1).termTree = false ∨
    (job.opts 1).reduceEnabled = false ∨ job.size = 1) : ¬x.Cycle job := by
  rintro ⟨S, hne, hS⟩
  obtain ⟨p, c, hc, hdown, hup⟩ := job.rootedTree.exists_mutual (rankTree_wf ..) hne hS
    fun r q hb => h.edge_of_blocked hb
  rcases hopts with ht | hr | h1
  · exact h.not_mutual (.inl ht) hc hdown hup
  · exact h.not_mutual (.inr hr) hc hdown hup
  · -- a single rank has no child
    have hlt : c < job.size := job.rootedTree.node_of_mem hc
    rw [h1] at hlt
    exact Nat.not_lt_zero p (Nat.lt_of_lt_of_le (job.rootedTree.depth_of_mem hc)
      (Nat.le_of_lt_succ hlt))

end Blocking

/-- The system with blocking sends during one invocation. -/
def Job.blockingOnce (job : Job) : EventSystem (Blocking α) (Blocking.Step α) :=
  job.blocking.restrict Blocking.FirstOnly

instance (x : Blocking α) (e : Blocking.Step α) : Decidable (job.blockingOnce.Enabled x e) :=
  inferInstanceAs (Decidable (x.Enabled job e ∧ x.FirstOnly e))

/-- No cycle of blocked senders is reached, unless the termination allreduce and the background
reductions are both in use on several ranks. -/
theorem blocked_cycle_free {queue : Rank → List α} {abortFlag : Rank → Bool}
    {input : Rank → ReduceInput} {enqueued : List α} {es : List (Blocking.Step α)}
    (hopts : (job.opts 1).termTree = false ∨ (job.opts 1).reduceEnabled = false ∨ job.size = 1)
    (hrun : job.blockingOnce.Run (.start (Sys.start queue abortFlag input enqueued)) es x) :
    ¬x.Cycle job :=
  have hinv : x.Inv job := EventSystem.Run.restrict_invariant
    (fun _ _ hI hE hC => Blocking.inv_next hE hC hI) hrun (Blocking.inv_start ..)
  hinv.not_cycle hopts

end

/-- Without reductions, rank `1` reports to the termination allreduce. -/
def reporting : List (Blocking.Step Nat) :=
  (List.flatten [[.begin 1 (some 0) []], passMain 1,
    [.requestSend 1 false (some 0), .checkForTerm 1, .termRepliesDone 1, .termUp 1]]).map .event

theorem blocked_cycle_free_reporting :
    let x := treePair.blockingOnce.follow (.start .fresh) reporting
    x.Blocked treePair 1 0 ∧ ¬x.Cycle treePair :=
  have hrun : treePair.blockingOnce.Run (.start .fresh) reporting
      (treePair.blockingOnce.follow (.start .fresh) reporting) :=
    .of_admits (by decide +kernel)
  ⟨by decide +kernel, blocked_cycle_free (.inr (.inl rfl)) hrun⟩

/-! ## A cycle -/

/-- A rank comes to `CIRCLE_reduce_check`. -/
def comeToReduce (r : Rank) : List (Event Nat) :=
  [.begin r (some (1 - r)) [], .workreqDone r 0, .workreceiptDone r, .worksendDone r,
    .abortStart r, .abortRequest r none, .abortReplies r false]

/-- Two ranks with tree termination and reductions. -/
def treeReducePair : Job :=
  .uniform 2 ⟨true, false, false, true, 64, treeWidth_init_pos⟩ Nat.two_pos

/-- Rank `0` sends a start message while rank `1` reports to the termination allreduce. -/
def crossing : List (Blocking.Step Nat) :=
  (List.flatten [comeToReduce 0, [.reduceBegin 0 true false []], comeToReduce 1,
    [.reduceBegin 1 false false [], .requestSend 1 false (some 0), .checkForTerm 1,
      .termRepliesDone 1, .termUp 1]]).map .event

/-- The two ranks are then blocked in sends to each other. -/
theorem crossing_cycle :
    ∃ (es : List (Blocking.Step Nat)) (x : Blocking Nat),
      treeReducePair.blockingOnce.Run (.start .fresh) es x ∧ x.Cycle treeReducePair :=
  have hrun : treeReducePair.blockingOnce.Run (.start .fresh) crossing
      (treeReducePair.blockingOnce.follow (.start .fresh) crossing) :=
    .of_admits (by decide +kernel)
  ⟨_, _, hrun, {0, 1}, ⟨0, by simp⟩, by
    rintro r (rfl | rfl)
    · exact ⟨1, by simp, by decide +kernel⟩
    · exact ⟨0, by simp, by decide +kernel⟩⟩

end Libcircle
