import Libcircle.System.BackgroundReduce

/-!
# One rank running alone

A rank in the main loop or in the cleanup loop never has to wait: at every position
it can go on without finding a message, a completed request or a due clock
(`quiet_step`).  Such a step changes the fields of the rank and the messages it
sends, and nothing else (`mail_next`).  So, alone, a rank comes to each position
that every pass through its loop has (`solo_to`), unless it leaves the loop on the
way, and finds there what the others sent it.
-/

namespace Libcircle

variable {α : Type*} {job : Job} {s t : Sys α} {e : Event α} {r a b : Rank}

/-! ## Quiet events -/

/-- The event finds nothing, and its callbacks make no library call. -/
def Event.Quiet : Event α → Prop
  | .workreqDone .. | .sendWork .. | .sendNoWork .. | .workreceiptDone .. | .worksendDone ..
  | .abortStart .. | .reduceSkip .. | .reduceResume .. | .requestSkip .. | .requestSend ..
  | .checkForTerm .. | .termRepliesDone .. | .termUp .. | .barrierStart .. | .barrierUp .. => True
  | .requestNone _ sent => sent = false
  | .abortRequest _ src | .barrierReply _ src => src = none
  | .abortReplies _ done => done = false
  | .reduceBegin _ due hit calls => due = false ∧ hit = false ∧ calls = []
  | .reduceReply _ hit calls => hit = false ∧ calls = []
  | .reduceDone _ calls => calls = []
  | .termDown _ hit | .barrierDown _ hit => hit = false
  | .tokenDrain _ hit done => hit = false ∧ done = false
  | _ => False

/-- The system in which only `r` takes steps, and finds nothing. -/
def Job.solo (job : Job) (r : Rank) : EventSystem (Sys α) (Event α) :=
  job.step.restrict fun _ e => e.rank = r ∧ e.Quiet

/-! ## Messages of other ranks -/

/-- The messages in flight from one rank to another. -/
structure Mail (α : Type*) where
  requests : List Unit
  replies : List (Reply α)
  receipts : List Nat
  token : List Colour
  term : List Bool
  barrier : List Unit
  reduce : List ReduceMsg
  abortRequests : List Unit
  abortReplies : List Unit
  abortReduce : List Bool

/-- The messages in flight from `a` to `b`. -/
def Sys.mail (s : Sys α) (a b : Rank) : Mail α where
  requests := s.work.requests a b
  replies := s.work.replies a b
  receipts := s.work.receipts a b
  token := s.token.net a b
  term := s.term.net a b
  barrier := s.barrier.net a b
  reduce := s.reduce.net a b
  abortRequests := s.abort.requests a b
  abortReplies := s.abort.replies a b
  abortReduce := s.abortReduce.net a b

section Frame

variable {x : Rank} (h : a ≠ x)
include h

theorem Chan.push_of_ne {M : Type*} (ch : Chan Rank M) (d : Rank) (m : M) :
    ch.push x d m a b = ch a b :=
  Chan.push_ne ch m fun hab => h hab.1

theorem Chan.bcast_of_ne {M : Type*} (ch : Chan Rank M) (ds : List Rank) (m : M) :
    ch.bcast x ds m a b = ch a b :=
  Chan.bcast_ne ch m fun hab => h hab.1

theorem TermNet.report_net (y : TermNet) (t : TreeState) :
    (y.report t x).1.net a b = y.net a b := by
  obtain ⟨_, hy⟩ | ⟨p, _, _, hy⟩ | ⟨_, _, hy⟩ := y.report_cases t x <;> rw [hy]
  · exact Chan.push_of_ne h _ _ _
  · exact Chan.bcast_of_ne h _ _ _

theorem BarrierNet.report_net (y : BarrierNet) (t : TreeState) :
    (y.report t x).1.net a b = y.net a b := by
  obtain ⟨_, hy⟩ | ⟨p, _, _, hy⟩ | ⟨_, _, hy⟩ := y.report_cases t x <;> rw [hy]
  · exact Chan.push_of_ne h _ _ _
  · exact Chan.bcast_of_ne h _ _ _

theorem AbortNet.abortStart_net (y : AbortNet) (t : TreeState) (cleanup : Bool) :
    (y.abortStart t cleanup x).requests a b = y.requests a b ∧
      (y.abortStart t cleanup x).replies a b = y.replies a b := by
  unfold abortStart
  split
  · exact ⟨rfl, rfl⟩
  · split
    · exact ⟨rfl, rfl⟩
    · exact ⟨Chan.bcast_of_ne h _ _ _, rfl⟩

theorem ReduceNet.finish_net (y : ReduceNet) (t : TreeState) (count : Nat) :
    (y.finish t x count).net a b = y.net a b := by
  unfold finish
  split
  · cases t.parentRank with
    | none => rfl
    | some p => exact sendResult_net_ne _ fun hab => h hab.1
  · rfl

end Frame

theorem TokenNet.blacken_net (y : TokenNet) (size : Nat) (r d : Rank) :
    (y.blacken size r d).net = y.net := by
  unfold blacken
  split <;> rfl

/-- A reduction is not started by a rank that finds nothing, before it is due. -/
theorem ReduceNet.begin_quiet (y : ReduceNet) (t : TreeState) (x : Rank) (cleanup : Bool) :
    y.begin t x cleanup false false = y := by
  unfold begin Starts
  cases cleanup with
  | false => rfl
  | true => cases hp : t.parentRank <;> simp

/-- A quiet event leaves the messages of the other ranks alone. -/
theorem mail_next (hq : e.Quiet) (ha : a ≠ e.rank) : (s.next job e).mail a b = s.mail a b := by
  cases e with
  | workreqDone r rand =>
      simp only [Sys.mail, Sys.next]
      split <;> rfl
  | sendWork r count =>
      change a ≠ r at ha
      simp only [Sys.mail, Sys.next, WorkNet.nextRequestor]
      by_cases hc : count = 0
      · simp only [hc, if_true, WorkNet.sendWork_zero, WorkNet.sendNoWork, Chan.push_of_ne ha]
      · simp only [hc, if_false, WorkNet.sendWork, Chan.push_of_ne ha, TokenNet.blacken_net]
  | sendNoWork r =>
      change a ≠ r at ha
      simp only [Sys.mail, Sys.next, WorkNet.nextRequestor, WorkNet.sendNoWork, Chan.push_of_ne ha]
  | abortStart r =>
      change a ≠ r at ha
      simp only [Sys.mail, Sys.next]
      split
      · simp only [AbortNet.abortStart_net ha]
      · rfl
  | abortRequest r src =>
      obtain rfl : src = none := hq
      rfl
  | abortReplies r done =>
      obtain rfl : done = false := hq
      rfl
  | reduceBegin r due hit calls =>
      obtain ⟨rfl, rfl, rfl⟩ := hq
      simp only [Sys.mail, Sys.next, ReduceNet.begin_quiet, ReduceNet.callback]
  | reduceReply r hit calls =>
      obtain ⟨rfl, rfl⟩ := hq
      rfl
  | reduceDone r calls =>
      change a ≠ r at ha
      simp only [Sys.mail, Sys.next, ReduceNet.callback, ReduceNet.finish_net ha]
  | requestSend r sent next =>
      change a ≠ r at ha
      simp only [Sys.mail, Sys.next, WorkNet.requestSend, WorkNet.requestTest, Chan.push_of_ne ha]
  | termUp r =>
      change a ≠ r at ha
      simp only [Sys.mail, Sys.next, TermNet.report_net ha]
  | termDown r hit =>
      obtain rfl : hit = false := hq
      obtain hy | ⟨_, _, h, _⟩ := s.term.await_cases (s.tree job r) r false
      · simp only [Sys.mail, Sys.next, hy]
      · cases h
  | barrierStart r =>
      simp only [Sys.mail, Sys.next]
      split <;> rfl
  | barrierReply r src =>
      obtain rfl : src = none := hq
      rfl
  | barrierUp r =>
      change a ≠ r at ha
      simp only [Sys.mail, Sys.next, BarrierNet.report_net ha]
  | barrierDown r hit =>
      obtain rfl : hit = false := hq
      obtain hy | ⟨_, _, h, _⟩ := s.barrier.await_cases (s.tree job r) r false
      · simp only [Sys.mail, Sys.next, hy]
      · cases h
  | tokenDrain r hit done =>
      obtain ⟨rfl, rfl⟩ := hq
      rfl
  | workreceiptDone | worksendDone | reduceSkip | reduceResume | requestSkip | requestNone
  | checkForTerm | termRepliesDone => rfl
  | _ => exact hq.elim

/-- What a rank running alone leaves as it is. -/
structure Sys.Elsewhere (s t : Sys α) (r : Rank) : Prop where
  loc : ∀ x, x ≠ r → t.loc x = s.loc x
  mail : ∀ x, x ≠ r → ∀ y, t.mail x y = s.mail x y

/-! ## What a quiet event does to its own rank -/

theorem firstOnly_of_quiet (hq : e.Quiet) : FirstOnly s e := by
  cases e with
  | begin => exact hq.elim
  | _ => exact trivial

theorem quiet_inv (hq : e.Quiet) : (s.next job e).inv = s.inv := by
  cases e with
  | begin => exact hq.elim
  | _ => rfl

/-- No flag is raised, and none is cleared. -/
theorem quiet_abortFlag (hq : e.Quiet) : (s.next job e).abortFlag = s.abortFlag := by
  cases e with
  | abortRequest r src =>
      obtain rfl : src = none := hq
      simp [Sys.next]
  | reduceBegin r due hit calls =>
      obtain ⟨_, _, rfl⟩ := hq
      simp [Sys.next, callsAbort]
  | reduceReply r hit calls =>
      obtain ⟨_, rfl⟩ := hq
      simp [Sys.next, callsAbort]
  | reduceDone r calls =>
      obtain rfl : calls = [] := hq
      simp [Sys.next, callsAbort]
  | begin | requestReply | process | reduceSync | reduceSyncReply | reduceSyncDone
  | abortReduceUp | abortReduceDown => exact hq.elim
  | _ => rfl

/-- Items leave a queue only. -/
theorem quiet_queue (hq : e.Quiet) (x : Rank) :
    ((s.next job e).work.queue x).length ≤ (s.work.queue x).length := by
  cases e with
  | workreqDone r rand =>
      simp only [Sys.next]
      split <;> exact Nat.le_refl _
  | sendWork r count =>
      simp only [Sys.next, WorkNet.nextRequestor, WorkNet.sendWork_queue]
      by_cases hx : x = r
      · rw [hx, Function.update_self]
        exact List.length_take_le' ..
      · rw [Function.update_of_ne hx]
  | begin | requestReply | process | finish => exact hq.elim
  | _ => exact Nat.le_refl _

/-! ## The order of the positions in a pass -/

/-- The number of positions left in the pass, in either loop. -/
def Pc.height : Stage → Pc → Nat
  | .main, .termReplies => 14
  | .main, .termUp => 13
  | .main, .termDown => 12
  | .cleanup, .barrierReply => 14
  | .cleanup, .barrierUp => 13
  | .cleanup, .barrierDown => 12
  | _, .workreq => 11
  | _, .sendWork | _, .sendNoWork => 10
  | .main, .workreceipt => 9
  | .main, .worksend => 8
  | .main, .abortStart => 7
  | .main, .abortRequest => 6
  | .main, .abortReplies => 5
  | .main, .reduce => 4
  | .main, .reduceReplies _ => 3
  | .main, .request => 2
  | .main, .work => 1
  | .cleanup, .worksend => 9
  | .cleanup, .reduce => 8
  | .cleanup, .reduceReplies _ => 7
  | .cleanup, .request => 6
  | .cleanup, .abortStart => 5
  | .cleanup, .abortRequest => 4
  | .cleanup, .abortReplies => 3
  | .cleanup, .tokenDrain => 2
  | .cleanup, .barrierStart => 1
  | _, _ => 0

/-- Positions that every pass comes to. -/
def Stage.stops : Stage → List Pc
  | .main => [.workreceipt, .request, .work]
  | .cleanup => [.workreq, .worksend, .reduce, .request, .abortRequest, .abortReplies,
      .barrierStart]
  | _ => []

/-- From `p` to `q` a pass goes on, and leaves no stop out. -/
def Stage.Before (st : Stage) (p q : Pc) : Prop :=
  q.height st < p.height st ∧
    ∀ a ∈ st.stops, a.height st < p.height st → a.height st ≤ q.height st

instance (st : Stage) (p q : Pc) : Decidable (st.Before p q) := inferInstanceAs (Decidable (_ ∧ _))

/-- The rounds left in the loop `r` is in, over the requestors or over the children. -/
def Sys.rounds (job : Job) (s : Sys α) (r : Rank) : Nat :=
  (s.work.requestors r).length + ((s.tree job r).children - (s.pc r).index)

/-- The step takes `r` further in its pass, or out of its loop. -/
def Sys.Further (job : Job) (s t : Sys α) (r : Rank) : Prop :=
  t.stage r ≠ s.stage r ∨
    (t.stage r = s.stage r ∧ ((s.stage r).Before (s.pc r) (t.pc r) ∨
      ((t.pc r).height (s.stage r) = (s.pc r).height (s.stage r) ∧
        t.rounds job r < s.rounds job r)))

/-- The step leads to the position `q`. -/
theorem Sys.Further.of_pc {st : Stage} {p q : Pc} (hs : s.stage r = st) (ht : t.stage r = st)
    (hp : s.pc r = p) (hq : t.pc r = q) (hb : st.Before p q) : s.Further job t r :=
  .inr ⟨ht.trans hs.symm, .inl (by rwa [hs, hp, hq])⟩

/-! ## Going on -/

section Steps

/-- The events of the two loops over the requestors. -/
theorem quiet_sendNoWork (hcoh : s.Coherent job) (hp : s.pc r = .sendNoWork) {st : Stage}
    (hst : s.stage r = st) (hb : st.Before .sendNoWork (afterWorkreq st)) :
    s.Further job (s.next job (.sendNoWork r)) r := by
  have hat := (hcoh.ok r).position
  rw [hp] at hat
  have hne : s.work.requestors r ≠ [] := hat.2
  by_cases htail : (s.work.requestors r).tail = []
  · exact .of_pc hst hst hp (by simp [Sys.next, Sys.afterRequestor, htail, hst]) hb
  · have hpc : (s.next job (.sendNoWork r)).pc r = .sendNoWork := by
      simp [Sys.next, Sys.afterRequestor, htail]
    refine .inr ⟨rfl, .inr ⟨by rw [hpc, hp], ?_⟩⟩
    have hpos := List.length_pos_of_ne_nil hne
    have htail : (s.next job (.sendNoWork r)).work.requestors r = (s.work.requestors r).tail := by
      simp [Sys.next, WorkNet.nextRequestor, WorkNet.sendNoWork]
    have htree : (s.next job (.sendNoWork r)).tree job r = s.tree job r := rfl
    rw [Sys.rounds, Sys.rounds, hpc, hp, htail, htree, List.length_tail]
    omega

theorem quiet_sendWork (hcoh : s.Coherent job) (hp : s.pc r = .sendWork) (count : Nat) :
    s.Further job (s.next job (.sendWork r count)) r := by
  have hat := (hcoh.ok r).position
  rw [hp] at hat
  have hst : s.stage r = .main := hat.1
  have hne : s.work.requestors r ≠ [] := hat.2.2.1
  by_cases htail : (s.work.requestors r).tail = []
  · exact .of_pc hst hst hp (q := .workreceipt)
      (by simp [Sys.next, Sys.afterRequestor, htail, hst, afterWorkreq]) (by decide)
  · have hpc : (s.next job (.sendWork r count)).pc r = .sendWork := by
      simp [Sys.next, Sys.afterRequestor, htail]
    refine .inr ⟨rfl, .inr ⟨by rw [hpc, hp], ?_⟩⟩
    have hpos := List.length_pos_of_ne_nil hne
    have htail : (s.next job (.sendWork r count)).work.requestors r =
        (s.work.requestors r).tail := by
      simp [Sys.next, WorkNet.nextRequestor]
    have htree : (s.next job (.sendWork r count)).tree job r = s.tree job r := rfl
    rw [Sys.rounds, Sys.rounds, hpc, hp, htail, htree, List.length_tail]
    omega

/-- A count that the back-off allows. -/
theorem exists_backOff {sizes : List Nat} (h : sizes ≠ []) : ∃ count, BackOff sizes count := by
  obtain ⟨size, rest, rfl⟩ := List.exists_cons_of_ne_nil h
  rcases Nat.eq_zero_or_pos size with h0 | hpos
  · exact ⟨0, .inl ⟨h0, rfl⟩⟩
  · exact ⟨size, .inr ⟨hpos, Nat.le_refl _⟩⟩

theorem quiet_workreq (hp : s.pc r = .workreq) {st : Stage} (hst : s.stage r = st)
    (h₁ : st.Before .workreq (afterWorkreq st)) (h₂ : st.Before .workreq .sendNoWork)
    (h₃ : st.Before .workreq .sendWork) :
    s.Further job (s.next job (.workreqDone r 0)) r := by
  refine .inr ⟨rfl, .inl ?_⟩
  simp only [Sys.next, Function.update_self, hst, hp]
  split
  · exact h₁
  · split
    · exact h₂
    · exact h₃

/-- One round of the loop over the children. -/
theorem quiet_reduceReplies (hcoh : s.Coherent job) {i : Nat} (hp : s.pc r = .reduceReplies i)
    {st : Stage} (hst : s.stage r = st)
    (hb : ∀ i, st.Before (.reduceReplies i) .request) :
    ∃ e, e.rank = r ∧ e.Quiet ∧ s.Enabled job e ∧ s.Further job (s.next job e) r := by
  have hat := (hcoh.ok r).position
  rw [hp] at hat
  obtain ⟨_, _, _, _, hle⟩ := hat
  have hle : i ≤ (s.tree job r).children := hle
  rcases Nat.lt_or_eq_of_le hle with hlt | heq
  · have hpc : (s.next job (.reduceReply r false [])).pc r = .reduceReplies (i + 1) := by
      simp [Sys.next, hp, Pc.index]
    refine ⟨.reduceReply r false [], rfl, ⟨rfl, rfl⟩,
      ⟨by rw [hp]; rfl, by rwa [hp], by simp, .inl rfl⟩, .inr ⟨rfl, .inr ⟨?_, ?_⟩⟩⟩
    · rw [hpc, hp]
      cases s.stage r <;> rfl
    · simp only [Sys.rounds, hpc, hp, Sys.tree, Pc.index]
      have hw : (s.next job (.reduceReply r false [])).work = s.work := rfl
      have hi : (s.next job (.reduceReply r false [])).inv = s.inv := rfl
      rw [hw, hi]
      simp only [Sys.tree] at hlt
      omega
  · exact ⟨.reduceDone r [], rfl, rfl, ⟨by rw [hp, heq], .inl rfl⟩,
      .of_pc hst hst hp (Function.update_self ..) (hb i)⟩

/-- The events at `CIRCLE_reduce_check`. -/
theorem quiet_reduce (hp : s.pc r = .reduce) {st : Stage} (hst : s.stage r = st)
    (h₁ : st.Before .reduce .request) (h₂ : st.Before .reduce (.reduceReplies 0)) :
    ∃ e, e.rank = r ∧ e.Quiet ∧ s.Enabled job e ∧ s.Further job (s.next job e) r := by
  cases hen : (s.opts job r).reduceEnabled with
  | false =>
      exact ⟨.reduceSkip r, rfl, trivial, ⟨hp, hen⟩,
        .of_pc hst hst hp (Function.update_self ..) h₁⟩
  | true =>
      cases hout : (s.reduce.st r).outstanding with
      | false =>
          exact ⟨.reduceBegin r false false [], rfl, ⟨rfl, rfl, rfl⟩,
            ⟨hp, hen, hout, by simp, .inl rfl⟩, .of_pc hst hst hp (Function.update_self ..) h₁⟩
      | true =>
          exact ⟨.reduceResume r, rfl, trivial, ⟨hp, hen, hout⟩,
            .of_pc hst hst hp (Function.update_self ..) h₂⟩

/-- The rank a request may go to after this one. -/
theorem nextProc_of_ne_none (hcoh : s.Coherent job)
    (h : (s.work.request r).nextProcessor ≠ none) :
    NextProc job.size r (s.work.request r).nextProcessor := by
  obtain ⟨d, hd⟩ := Option.ne_none_iff_exists'.mp h
  rw [hd]
  exact (hcoh.matched.next_lt r d hd).2

/-- The events at `CIRCLE_request_work`. -/
theorem quiet_request (hcoh : s.Coherent job) (hp : s.pc r = .request) {st : Stage}
    (hst : s.stage r = st) (h₁ : st.Before .request (afterRequest st))
    (h₂ : st ≠ .cleanup → st.Before .request .work) :
    ∃ e, e.rank = r ∧ e.Quiet ∧ s.Enabled job e ∧ s.Further job (s.next job e) r := by
  have hafter : ∀ {x}, x = afterRequest (s.stage r) → x = afterRequest st := fun h => by rw [h, hst]
  by_cases hq : s.stage r ≠ .cleanup ∧ s.work.queue r ≠ []
  · exact ⟨.requestSkip r, rfl, trivial, ⟨hp, hq.1, hq.2⟩,
      .of_pc hst hst hp (Function.update_self ..) (h₂ (hst ▸ hq.1))⟩
  · have hq' : s.stage r = .cleanup ∨ s.work.queue r = [] := by
      rwa [not_and_or, not_not, not_not] at hq
    by_cases hreq : (s.work.request r).workRequested = true ∨ ¬s.MayRequest r false ∨
        (s.work.request r).nextProcessor = none
    · exact ⟨.requestNone r false, rfl, rfl, ⟨hp, hq', hreq⟩,
        .of_pc hst hst hp (hafter (Function.update_self ..)) h₁⟩
    · simp only [not_or, not_not, Bool.not_eq_true] at hreq
      obtain ⟨hw, hmay, hnext⟩ := hreq
      exact ⟨.requestSend r false _, rfl, trivial,
        ⟨hp, hq'.resolve_left hmay.1, hw, hmay, hnext, nextProc_of_ne_none hcoh hnext⟩,
        .of_pc hst hst hp (hafter (Function.update_self ..)) h₁⟩

/-- In the main loop a rank can go on. -/
theorem quiet_step_main (hcoh : s.Coherent job) (hst : s.stage r = .main)
    (hh : 1 < (s.pc r).height .main) :
    ∃ e, e.rank = r ∧ e.Quiet ∧ s.Enabled job e ∧ s.Further job (s.next job e) r := by
  have hat := (hcoh.ok r).position
  cases hp : s.pc r with
  | workreq =>
      exact ⟨.workreqDone r 0, rfl, trivial, hp,
        quiet_workreq hp hst (by decide) (by decide) (by decide)⟩
  | sendWork =>
      rw [hp] at hat
      obtain ⟨_, _, hne, hlen, _⟩ := hat
      have hsizes : s.work.sizes r ≠ [] := by
        rw [← List.length_pos_iff, show (s.work.sizes r).length = _ from hlen]
        exact List.length_pos_of_ne_nil hne
      obtain ⟨count, hb⟩ := exists_backOff hsizes
      exact ⟨.sendWork r count, rfl, trivial, ⟨hp, hb⟩, quiet_sendWork hcoh hp count⟩
  | sendNoWork =>
      exact ⟨.sendNoWork r, rfl, trivial, hp, quiet_sendNoWork hcoh hp hst (by decide)⟩
  | workreceipt =>
      exact ⟨.workreceiptDone r, rfl, trivial, hp,
        .of_pc hst hst hp (Function.update_self ..) (by decide)⟩
  | worksend =>
      exact ⟨.worksendDone r, rfl, trivial, hp, .of_pc hst hst hp (q := .abortStart)
        (by simp [Sys.next, hst, afterWorksend]) (by decide)⟩
  | abortStart =>
      exact ⟨.abortStart r, rfl, trivial, hp,
        .of_pc hst hst hp (Function.update_self ..) (by decide)⟩
  | abortRequest =>
      exact ⟨.abortRequest r none, rfl, rfl, ⟨hp, by simp⟩,
        .of_pc hst hst hp (Function.update_self ..) (by decide)⟩
  | abortReplies =>
      exact ⟨.abortReplies r false, rfl, rfl, ⟨hp, by simp⟩, .of_pc hst hst hp (q := .reduce)
        (by simp [Sys.next, hst, afterAbort]) (by decide)⟩
  | reduce => exact quiet_reduce hp hst (by decide) (by decide)
  | reduceReplies i =>
      exact quiet_reduceReplies hcoh hp hst fun i =>
        ⟨by simp [Pc.height], by simp [Stage.stops, Pc.height]⟩
  | request => exact quiet_request hcoh hp hst (by decide) fun _ => by decide
  | termReplies =>
      refine ⟨.termRepliesDone r, rfl, trivial, hp, ?_⟩
      by_cases hout : s.work.workOutstanding r = 0
      · exact .of_pc hst hst hp (q := .termUp) (by simp [Sys.next, hout]) (by decide)
      · exact .of_pc hst hst hp (q := .workreq) (by simp [Sys.next, hout]) (by decide)
  | termUp =>
      refine ⟨.termUp r, rfl, trivial, hp, ?_⟩
      cases hy : (s.term.report (s.tree job r) r).2 with
      | none =>
          exact .of_pc hst (by simp [Sys.next, hy, stageAfterTerm, hst]) hp (q := .termDown)
            (by simp [Sys.next, hy, afterTerm]) (by decide)
      | some flag =>
          cases flag with
          | false =>
              exact .of_pc hst (by simp [Sys.next, hy, stageAfterTerm, hst]) hp (q := .workreq)
                (by simp [Sys.next, hy, afterTerm]) (by decide)
          | true => exact .inl (by simp [Sys.next, hy, stageAfterTerm, hst])
  | termDown =>
      refine ⟨.termDown r false, rfl, rfl, ⟨hp, by simp⟩, ?_⟩
      obtain hy | ⟨_, _, h, _⟩ := s.term.await_cases (s.tree job r) r false
      · exact .of_pc hst (by simp [Sys.next, hy, stageAfterTerm, hst]) hp (q := .workreq)
          (by simp [Sys.next, hy, afterTerm]) (by decide)
      · cases h
  | work =>
      rw [hp] at hh
      exact absurd hh (Nat.lt_irrefl 1)
  | _ =>
      rw [hp] at hh
      exact absurd hh (Nat.not_lt_zero 1)

/-- In the cleanup loop a rank can go on. -/
theorem quiet_step_cleanup (hcoh : s.Coherent job) (hst : s.stage r = .cleanup)
    (hh : 1 < (s.pc r).height .cleanup) :
    ∃ e, e.rank = r ∧ e.Quiet ∧ s.Enabled job e ∧ s.Further job (s.next job e) r := by
  have hat := (hcoh.ok r).position
  cases hp : s.pc r with
  | workreq =>
      exact ⟨.workreqDone r 0, rfl, trivial, hp,
        quiet_workreq hp hst (by decide) (by decide) (by decide)⟩
  | sendWork =>
      rw [hp] at hat
      exact absurd (hst.symm.trans hat.1) (by decide)
  | sendNoWork =>
      exact ⟨.sendNoWork r, rfl, trivial, hp, quiet_sendNoWork hcoh hp hst (by decide)⟩
  | worksend =>
      exact ⟨.worksendDone r, rfl, trivial, hp, .of_pc hst hst hp (q := .reduce)
        (by simp [Sys.next, hst, afterWorksend]) (by decide)⟩
  | abortStart =>
      exact ⟨.abortStart r, rfl, trivial, hp,
        .of_pc hst hst hp (Function.update_self ..) (by decide)⟩
  | abortRequest =>
      exact ⟨.abortRequest r none, rfl, rfl, ⟨hp, by simp⟩,
        .of_pc hst hst hp (Function.update_self ..) (by decide)⟩
  | abortReplies =>
      refine ⟨.abortReplies r false, rfl, rfl, ⟨hp, by simp⟩, ?_⟩
      cases ht : (s.opts job r).termTree with
      | false =>
          exact .of_pc hst hst hp (q := .tokenDrain) (by simp [Sys.next, hst, ht, afterAbort])
            (by decide)
      | true =>
          exact .of_pc hst hst hp (q := .barrierStart) (by simp [Sys.next, hst, ht, afterAbort])
            (by decide)
  | reduce => exact quiet_reduce hp hst (by decide) (by decide)
  | reduceReplies i =>
      exact quiet_reduceReplies hcoh hp hst fun i =>
        ⟨by simp [Pc.height], by simp [Stage.stops, Pc.height]⟩
  | request => exact quiet_request hcoh hp hst (by decide) fun h => absurd rfl h
  | barrierReply =>
      exact ⟨.barrierReply r none, rfl, rfl, ⟨hp, by simp⟩,
        .of_pc hst hst hp (Function.update_self ..) (by decide)⟩
  | barrierUp =>
      refine ⟨.barrierUp r, rfl, trivial, hp, ?_⟩
      cases hy : (s.barrier.report (s.tree job r) r).2 with
      | false =>
          exact .of_pc hst (by simp [Sys.next, hy, hst]) hp (q := .barrierDown)
            (by simp [Sys.next, hy, afterBarrier]) (by decide)
      | true => exact .inl (by simp [Sys.next, hy, hst])
  | barrierDown =>
      refine ⟨.barrierDown r false, rfl, rfl, ⟨hp, by simp⟩, ?_⟩
      obtain hy | ⟨_, _, h, _⟩ := s.barrier.await_cases (s.tree job r) r false
      · exact .of_pc hst (by simp [Sys.next, hy, hst]) hp (q := .workreq)
          (by simp [Sys.next, hy, afterBarrier]) (by decide)
      · cases h
  | tokenDrain =>
      exact ⟨.tokenDrain r false false, rfl, ⟨rfl, rfl⟩, ⟨hp, by simp, by simp⟩,
        .of_pc hst hst hp (Function.update_self ..) (by decide)⟩
  | barrierStart =>
      rw [hp] at hh
      exact absurd hh (Nat.lt_irrefl 1)
  | _ =>
      rw [hp] at hh
      exact absurd hh (Nat.not_lt_zero 1)

end Steps

/-! ## Passes -/

/-- No other position has the height of a stop. -/
theorem Stage.height_lt {st : Stage} {p q : Pc} (hp : p ∈ st.stops)
    (hle : p.height st ≤ q.height st)
    (hne : q ≠ p) : 1 ≤ p.height st ∧ p.height st < q.height st := by
  cases st with
  | outside | after => cases hp
  | main =>
      simp only [stops, List.mem_cons, List.not_mem_nil, or_false] at hp
      rcases hp with rfl | rfl | rfl <;> cases q <;> simp_all [Pc.height]
  | cleanup =>
      simp only [stops, List.mem_cons, List.not_mem_nil, or_false] at hp
      rcases hp with rfl | rfl | rfl | rfl | rfl | rfl | rfl <;> cases q <;> simp_all [Pc.height]

/-- In either loop a rank can go on. -/
theorem quiet_step (hcoh : s.Coherent job) (hl : s.stage r = .main ∨ s.stage r = .cleanup)
    (hh : 1 < (s.pc r).height (s.stage r)) :
    ∃ e, e.rank = r ∧ e.Quiet ∧ s.Enabled job e ∧ s.Further job (s.next job e) r := by
  rcases hl with hst | hst
  · exact quiet_step_main hcoh hst (hst ▸ hh)
  · exact quiet_step_cleanup hcoh hst (hst ▸ hh)

/-- Alone, a rank comes to each stop that is ahead in its pass, unless it leaves the loop. -/
theorem solo_to {st : Stage} {p : Pc} (hl : st = .main ∨ st = .cleanup) (hp : p ∈ st.stops)
    (hcoh : s.Coherent job) (hst : s.stage r = st) (hle : p.height st ≤ (s.pc r).height st) :
    (job.solo r).Leads s fun t => t.stage r ≠ st ∨ t.pc r = p := by
  induction hn : (s.pc r).height st using Nat.strongRecOn generalizing s with
  | _ n ih =>
    induction hm : s.rounds job r using Nat.strongRecOn generalizing s with
    | _ m ih' =>
      by_cases hpc : s.pc r = p
      · exact .here (.inr hpc)
      obtain ⟨h₁, h₂⟩ := Stage.height_lt hp hle hpc
      obtain ⟨e, hr, hq, he, hfurther⟩ :=
        quiet_step hcoh (hst ▸ hl) (hst ▸ Nat.lt_of_le_of_lt h₁ h₂)
      have hcoh' := coherent_next he hcoh
      refine .cons (e := e) ⟨he, hr, hq⟩ ?_
      change (job.solo r).Leads (s.next job e) _
      rcases hfurther with hleft | ⟨hst', hbefore | ⟨hsame, hrounds⟩⟩
      · exact .here (.inl (hst ▸ hleft))
      · rw [hst] at hbefore
        exact ih _ (hn ▸ hbefore.1) hcoh' (hst'.trans hst) (hbefore.2 p hp h₂) rfl
      · rw [hst] at hsame
        exact ih' _ (hm ▸ hrounds) hcoh' (hst'.trans hst) (hsame ▸ hle) (hsame.trans hn) rfl

/-- In the main loop every position but `CIRCLE_check_for_term` is before the choice between
processing an item and checking for termination. -/
theorem height_pos_of_main (hO : s.Once job) (hst : s.stage r = .main) (hpc : s.pc r ≠ .token) :
    1 ≤ (s.pc r).height .main := by
  have hat := (hO.coherent.ok r).position
  cases hp : s.pc r with
  | token => exact absurd hp hpc
  | idle | barrierStart | barrierReply | barrierUp | barrierDown | tokenDrain | worksendWait
  | reduceSync | reduceSyncReplies | abortReduce | abortReduceDown | returned =>
      rw [hp] at hat
      exact absurd (hst.symm.trans hat.1) (by decide)
  | _ => simp [Pc.height]

/-! ## Out of the main loop -/

/-- `x` has left the main loop of its invocation. -/
def Sys.Left (s : Sys α) (x : Rank) : Prop := s.stage x ≠ .main ∧ 0 < s.inv x

/-- In one invocation a rank does not come back. -/
theorem left_next {x : Rank} (he : s.Enabled job e) (hf : FirstOnly s e) (hok : s.Ok job e.rank)
    (h : s.Left x) : (s.next job e).Left x := by
  by_cases hx : x = e.rank
  · subst hx
    obtain ⟨hst, hinv⟩ := h
    have hat := hok.position
    have hself : ∀ r y, y ≠ Stage.main → Function.update s.stage r y r ≠ .main := by
      intro r y hy
      rwa [Function.update_self]
    cases e with
    | begin r next ops => exact absurd (show s.inv r = 0 from hf) (Nat.ne_of_gt hinv)
    | termUp r =>
        rw [show s.pc (Event.termUp (α := α) r).rank = _ from he] at hat
        exact absurd hat.1 hst
    | termDown r hit =>
        rw [show s.pc (Event.termDown (α := α) r hit).rank = _ from he.1] at hat
        exact absurd hat.1 hst
    | token r hit =>
        rw [show s.pc (Event.token (α := α) r hit).rank = _ from he.1] at hat
        exact absurd hat.1 hst
    | barrierUp r | barrierDown r hit =>
        refine ⟨hself r _ ?_, hinv⟩
        split
        · decide
        · exact hst
    | finish r => exact ⟨hself r _ (by decide), hinv⟩
    | _ => exact ⟨hst, hinv⟩
  · have hloc : (s.next job e).loc x = s.loc x := loc_next_of_ne hx
    have hst : (s.next job e).stage x = s.stage x := congrArg Loc.stage hloc
    have hinv : (s.next job e).inv x = s.inv x := congrArg Loc.inv hloc
    exact ⟨hst ▸ h.1, hinv ▸ h.2⟩

/-! ## Into the main loop -/

/-- A rank that has not called `CIRCLE_begin` can. -/
theorem idle_of_inv_eq_zero (hO : s.Once job) (hinv : s.inv r = 0) : s.pc r = .idle := by
  by_contra hpc
  have hok := hO.coherent.ok r
  exact absurd hinv (Nat.ne_of_gt (hok.tidy.inv_pos (hok.stage_ne hpc)))

theorem exists_nextProc (size r : Nat) : ∃ next, NextProc size r next := by
  rcases Nat.lt_or_ge 1 size with h | h
  · by_cases hr : r = 0
    · subst hr
      exact ⟨some 1, h, Nat.one_ne_zero⟩
    · exact ⟨some 0, Nat.zero_lt_of_lt h, Ne.symm hr⟩
  · exact ⟨none, h⟩

end Libcircle
