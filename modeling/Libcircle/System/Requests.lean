import Libcircle.System.Control

/-!
# Every request has one answer

A rank that waits for work has exactly one request under way: the request
itself, an entry in the list of requestors of the rank it asked, or the reply.
`WorkNet.Matched` counts the three for every pair of ranks.  It holds along
every run of any number of invocations (`coherent_of_run`).
-/

namespace Libcircle

variable {α : Type*} {size : Nat} {w w' : WorkNet α} {r d src : Rank}

namespace WorkNet

/-- The traces of a request of `r` to `d`: requests, list entries and replies. -/
def traces (w : WorkNet α) (r d : Rank) : Nat :=
  (w.requests r d).length + (w.requestors d).count r + (w.replies d r).length

/-- `r` waits for a reply of `d`. -/
def Awaits (w : WorkNet α) (r d : Rank) : Prop :=
  (w.request r).workRequested = true ∧ (w.request r).workRequestedRank = d

/-- The two ends agree on the request of `r` to `d`. -/
structure Balanced (w : WorkNet α) (r d : Rank) : Prop where
  one : w.Awaits r d → w.traces r d = 1
  zero : ¬w.Awaits r d → w.traces r d = 0

theorem Balanced.congr (h : w.Balanced r d) (ht : w'.traces r d = w.traces r d)
    (hw : w'.Awaits r d ↔ w.Awaits r d) : w'.Balanced r d where
  one ha := ht.trans (h.one (hw.mp ha))
  zero ha := ht.trans (h.zero (mt hw.mpr ha))

/-- Requests and replies match. -/
structure Matched (size : Nat) (w : WorkNet α) : Prop where
  balanced : ∀ r d, w.Balanced r d
  /-- Ranks ask other ranks of the communicator. -/
  awaits_lt : ∀ r d, w.Awaits r d → r < size ∧ d < size ∧ d ≠ r
  next_lt : ∀ r d, (w.request r).nextProcessor = some d → r < size ∧ d < size ∧ d ≠ r

namespace Matched

/-! ## Reading the invariant -/

theorem awaits_of_traces (h : Matched size w) (ht : 0 < w.traces r d) : w.Awaits r d := by
  by_contra hw
  rw [(h.balanced r d).zero hw] at ht
  exact absurd ht (Nat.lt_irrefl 0)

theorem awaits_of_reply (h : Matched size w) (hm : w.replies d r ≠ []) : w.Awaits r d := by
  have := List.length_pos_of_ne_nil hm
  exact h.awaits_of_traces (by unfold traces; omega)

theorem awaits_of_request (h : Matched size w) (hm : w.requests r d ≠ []) : w.Awaits r d := by
  have := List.length_pos_of_ne_nil hm
  exact h.awaits_of_traces (by unfold traces; omega)

theorem awaits_of_requestor (h : Matched size w) (hm : r ∈ w.requestors d) : w.Awaits r d := by
  have := List.count_pos_iff.mpr hm
  exact h.awaits_of_traces (by unfold traces; omega)

/-- The rank to be answered next is waiting for `r`. -/
theorem awaits_head (h : Matched size w) (hne : w.requestors r ≠ []) :
    w.Awaits ((w.requestors r).headD 0) r := by
  refine h.awaits_of_requestor ?_
  cases hl : w.requestors r with
  | nil => exact absurd hl hne
  | cons a l => simp

/-- A rank that does not wait has no request under way. -/
theorem traces_eq_zero (h : Matched size w) (hr : (w.request r).workRequested = false)
    (d : Rank) : w.traces r d = 0 :=
  (h.balanced r d).zero fun hw => absurd (hr.symm.trans hw.1) (by decide)

/-- A reply in flight is the only trace of its request. -/
theorem reply_unique (h : Matched size w) (hm : w.replies d r ≠ []) :
    ∃ m, w.replies d r = [m] ∧ w.requests r d = [] ∧ r ∉ w.requestors d := by
  have hone := (h.balanced r d).one (h.awaits_of_reply hm)
  have hpos := List.length_pos_of_ne_nil hm
  unfold traces at hone
  obtain ⟨m, hm⟩ := List.length_eq_one_iff.mp (show (w.replies d r).length = 1 by omega)
  refine ⟨m, hm, List.length_eq_zero_iff.mp (by omega), ?_⟩
  rw [← List.count_eq_zero]
  omega

/-- A rank waits exactly if its request to the rank it asked has one trace. -/
theorem workRequested_iff (h : Matched size w) :
    (w.request r).workRequested = true ↔
      (w.request r).workRequestedRank ≠ r ∧ w.traces r (w.request r).workRequestedRank = 1 := by
  constructor
  · intro hr
    have haw : w.Awaits r (w.request r).workRequestedRank := ⟨hr, rfl⟩
    exact ⟨(h.awaits_lt _ _ haw).2.2, (h.balanced _ _).one haw⟩
  · rintro ⟨_, hone⟩
    exact (h.awaits_of_traces (Nat.lt_of_lt_of_eq Nat.zero_lt_one hone.symm)).1

/-- Requestors are other ranks of the communicator. -/
theorem requestor_lt (h : Matched size w) (hm : d ∈ w.requestors r) : d < size ∧ d ≠ r := by
  obtain ⟨hd, _, hne⟩ := h.awaits_lt _ _ (h.awaits_of_requestor hm)
  exact ⟨hd, hne.symm⟩

theorem requestors_nodup (h : Matched size w) (r : Rank) : (w.requestors r).Nodup := by
  refine List.nodup_iff_count_le_one.mpr fun d => ?_
  by_cases hm : d ∈ w.requestors r
  · have hone := (h.balanced d r).one (h.awaits_of_requestor hm)
    unfold traces at hone
    omega
  · exact (List.count_eq_zero.mpr hm).trans_le (Nat.zero_le 1)

/-- The array of `size` entries never has its last entry used. -/
theorem requestors_length_le (h : Matched size w) (hr : r < size) :
    (w.requestors r).length ≤ size - 1 := by
  have hsub : w.requestors r ⊆ (List.range size).erase r := by
    intro d hm
    obtain ⟨hd, hne⟩ := h.requestor_lt hm
    exact (List.mem_erase_of_ne hne).mpr (List.mem_range.mpr hd)
  calc (w.requestors r).length
      ≤ ((List.range size).erase r).length := ((h.requestors_nodup r).subperm hsub).length_le
    _ = size - 1 := by
        rw [List.length_erase_of_mem (List.mem_range.mpr hr), List.length_range]

/-! ## The operations -/

theorem congr (h : Matched size w) (hrequests : w'.requests = w.requests)
    (hrequestors : w'.requestors = w.requestors) (hreplies : w'.replies = w.replies)
    (hw : ∀ r, (w'.request r).workRequested = (w.request r).workRequested)
    (hd : ∀ r, (w'.request r).workRequestedRank = (w.request r).workRequestedRank)
    (hn : ∀ r, (w'.request r).nextProcessor = (w.request r).nextProcessor) :
    Matched size w' where
  balanced r d := (h.balanced r d).congr (by simp only [traces, hrequests, hrequestors, hreplies])
    (by simp only [Awaits, hw, hd])
  awaits_lt r d := by simpa only [Awaits, hw, hd] using h.awaits_lt r d
  next_lt r d := by simpa only [hn] using h.next_lt r d

theorem workreqRecv (h : Matched size w) (hm : w.requests src r ≠ []) :
    Matched size (w.workreqRecv r src) where
  balanced a b := by
    refine (h.balanced a b).congr ?_ Iff.rfl
    have hpos := List.length_pos_of_ne_nil hm
    by_cases hb : b = r
    · subst hb
      by_cases ha : a = src
      · subst ha
        simp [traces, WorkNet.workreqRecv]
        omega
      · simp [traces, WorkNet.workreqRecv, Chan.pop_ne w.requests (fun h => ha h.1),
          List.count_append, Ne.symm ha]
    · simp [traces, WorkNet.workreqRecv, Chan.pop_ne w.requests (fun h => hb h.2),
        Function.update_of_ne hb]
  awaits_lt := h.awaits_lt
  next_lt := h.next_lt

/-- The completion of the send of a request changes nothing here. -/
theorem requestReq (h : Matched size w) {b : Bool} (hrequests : w'.requests = w.requests)
    (hrequestors : w'.requestors = w.requestors) (hreplies : w'.replies = w.replies)
    (hr : w'.request = Function.update w.request r { w.request r with workRequestReq := b }) :
    Matched size w' := by
  refine h.congr hrequests hrequestors hreplies ?_ ?_ ?_ <;>
  · intro a
    rw [hr]
    by_cases ha : a = r
    · subst ha
      simp
    · simp [Function.update_of_ne ha]

theorem requestTest (h : Matched size w) (sent : Bool) : Matched size (w.requestTest r sent) :=
  h.requestReq rfl rfl rfl rfl

/-- The next requestor is answered with `m`. -/
theorem reply (h : Matched size w) (hne : w.requestors r ≠ []) (m : Reply α)
    (hrequests : w'.requests = w.requests) (hrequest : w'.request = w.request)
    (hrequestors : w'.requestors = Function.update w.requestors r (w.requestors r).tail)
    (hreplies : w'.replies = w.replies.push r ((w.requestors r).headD 0) m) :
    Matched size w' where
  balanced a b := by
    refine (h.balanced a b).congr ?_ (by simp only [Awaits, hrequest])
    obtain ⟨dest, rest, hlist⟩ := List.exists_cons_of_ne_nil hne
    simp only [traces, hrequests, hrequestors, hreplies, hlist, List.tail_cons, List.headD_cons]
    by_cases hb : b = r
    · subst hb
      by_cases ha : a = dest
      · subst ha
        simp [hlist]
        omega
      · simp [Chan.push_ne w.replies m (fun h => ha h.2), hlist, Ne.symm ha]
    · simp [Chan.push_ne w.replies m (fun h => hb h.1), Function.update_of_ne hb]
  awaits_lt a b := by simpa only [Awaits, hrequest] using h.awaits_lt a b
  next_lt a b := by simpa only [hrequest] using h.next_lt a b

theorem sendNoWork (h : Matched size w) (hne : w.requestors r ≠ []) (abortFlag : Bool) :
    Matched size ((w.sendNoWork abortFlag r ((w.requestors r).headD 0)).nextRequestor r) :=
  h.reply hne _ rfl rfl rfl rfl

theorem sendWork (h : Matched size w) (hne : w.requestors r ≠ []) (abortFlag : Bool)
    (inv count : Nat) :
    Matched size
      ((w.sendWork abortFlag inv r ((w.requestors r).headD 0) count).nextRequestor r) := by
  by_cases hc : count = 0
  · subst hc
    rw [sendWork_zero]
    exact h.sendNoWork hne abortFlag
  · rw [WorkNet.sendWork, if_neg hc]
    exact h.reply hne _ rfl rfl rfl rfl

theorem requestSend (h : Matched size w) (hw : (w.request r).workRequested = false)
    (hd : (w.request r).nextProcessor = some d) {next : Option Rank}
    (hnext : NextProc size r next) : Matched size (w.requestSend r d next) where
  balanced a b := by
    by_cases ha : a = r
    · subst ha
      have hzero := h.traces_eq_zero hw b
      by_cases hb : b = d
      · subst hb
        constructor
        · intro _
          simp [traces, WorkNet.requestSend] at hzero ⊢
          simp [hzero]
        · simp [Awaits, WorkNet.requestSend]
      · constructor
        · simp [Awaits, WorkNet.requestSend, Ne.symm hb]
        · intro _
          simpa [traces, WorkNet.requestSend,
            Chan.push_ne w.requests () (fun h => hb h.2)] using hzero
    · refine (h.balanced a b).congr ?_ ?_
      · simp [traces, WorkNet.requestSend, Chan.push_ne w.requests () (fun h => ha h.1)]
      · simp [Awaits, WorkNet.requestSend, Function.update_of_ne ha]
  awaits_lt a b := by
    by_cases ha : a = r
    · subst ha
      simp only [Awaits, WorkNet.requestSend, Function.update_self, true_and]
      rintro rfl
      exact h.next_lt a d hd
    · simpa [Awaits, WorkNet.requestSend, Function.update_of_ne ha] using h.awaits_lt a b
  next_lt a b := by
    by_cases ha : a = r
    · subst ha
      simp only [WorkNet.requestSend, Function.update_self]
      rintro rfl
      exact ⟨(h.next_lt a d hd).1, hnext⟩
    · simpa [WorkNet.requestSend, Function.update_of_ne ha] using h.next_lt a b

theorem requestDone (h : Matched size w) (hm : w.replies d r ≠ []) (m : Reply α) :
    Matched size ((w.workReceive r d m).requestDone r) where
  balanced a b := by
    obtain ⟨m', hm', hreq, hlist⟩ := h.reply_unique hm
    by_cases ha : a = r
    · subst ha
      constructor
      · simp [Awaits, WorkNet.requestDone]
      · intro _
        by_cases hb : b = d
        · subst hb
          simp [traces, WorkNet.requestDone, hm', hreq, List.count_eq_zero.mpr hlist]
        · have hzero := (h.balanced a b).zero fun hw =>
            hb (hw.2.symm.trans (h.awaits_of_reply hm).2)
          simpa [traces, WorkNet.requestDone,
            Chan.pop_ne w.replies (fun h => hb h.1)] using hzero
    · refine (h.balanced a b).congr ?_ ?_
      · simp [traces, WorkNet.requestDone, Chan.pop_ne w.replies (fun h => ha h.2)]
      · simp [Awaits, WorkNet.requestDone, Function.update_of_ne ha]
  awaits_lt a b := by
    by_cases ha : a = r
    · subst ha
      simp [Awaits, WorkNet.requestDone]
    · simpa [Awaits, WorkNet.requestDone, Function.update_of_ne ha] using h.awaits_lt a b
  next_lt a b := by
    by_cases ha : a = r
    · subst ha
      simpa [WorkNet.requestDone] using h.next_lt a b
    · simpa [WorkNet.requestDone, Function.update_of_ne ha] using h.next_lt a b

theorem init (h : Matched size w) (hr : r < size) (hw : (w.request r).workRequested = false)
    (hserved : w.requestors r = []) {next : Option Rank} (hnext : NextProc size r next) :
    Matched size (w.init r next) where
  balanced a b := by
    have hlist : (w.init r next).requestors = w.requestors := by
      simp only [WorkNet.init, ← hserved, Function.update_eq_self]
    have htraces : (w.init r next).traces a b = w.traces a b := by
      simp only [traces, hlist]
      rfl
    by_cases ha : a = r
    · subst ha
      refine ⟨?_, fun _ => htraces.trans (h.traces_eq_zero hw b)⟩
      simp [Awaits, WorkNet.init]
    · refine (h.balanced a b).congr htraces ?_
      simp [Awaits, WorkNet.init, Function.update_of_ne ha]
  awaits_lt a b := by
    by_cases ha : a = r
    · subst ha
      simp [Awaits, WorkNet.init]
    · simpa [Awaits, WorkNet.init, Function.update_of_ne ha] using h.awaits_lt a b
  next_lt a b := by
    by_cases ha : a = r
    · subst ha
      simp only [WorkNet.init, Function.update_self]
      rintro rfl
      exact ⟨hr, hnext⟩
    · simpa [WorkNet.init, Function.update_of_ne ha] using h.next_lt a b

end Matched

end WorkNet

/-! ## Runs -/

section Runs

variable {job : Job} {s t : Sys α} {e : Event α}

theorem Sys.Ok.requested_of_idle (h : s.Ok job r) (hpc : s.pc r = .idle) :
    s.stage r = .outside ∧ s.work.requestors r = [] ∧
      (s.work.request r).workRequested = false := by
  have hat := h.position
  rw [hpc] at hat
  exact ⟨hat.1, hat.2, (h.tidy.settled (.inr (.inr hat.1))).1⟩

theorem matched_start (queue : Rank → List α) (abortFlag : Rank → Bool)
    (input : Rank → ReduceInput) (enqueued : List α) :
    (Sys.start queue abortFlag input enqueued).work.Matched size where
  balanced _ _ := ⟨fun h => absurd h.1 (by simp [Sys.start]), fun _ => rfl⟩
  awaits_lt _ _ h := absurd h.1 (by simp [Sys.start])
  next_lt _ _ h := absurd h (by simp [Sys.start])

theorem matched_next (he : s.Enabled job e) (hok : ∀ r, s.Ok job r)
    (h : s.work.Matched job.size) : (s.next job e).work.Matched job.size := by
  cases e with
  | begin r next ops =>
      obtain ⟨hpc, hr, hnext, _⟩ := he
      obtain ⟨_, hserved, hreq⟩ := (hok r).requested_of_idle hpc
      exact (h.init hr hreq hserved hnext).congr rfl rfl rfl (fun _ => rfl) (fun _ => rfl)
        fun _ => rfl
  | workreq r src => exact h.workreqRecv he.2
  | workreqDone r rand =>
      simp only [Sys.next]
      split
      · exact h
      · exact h.congr rfl rfl rfl (fun _ => rfl) (fun _ => rfl) fun _ => rfl
  | sendWork r count =>
      have hat := (hok r).position
      rw [he.1] at hat
      exact h.sendWork hat.2.2.1 _ _ _
  | sendNoWork r =>
      have hat := (hok r).position
      rw [show s.pc r = _ from he] at hat
      exact h.sendNoWork hat.2 _
  | requestReply r sent =>
      obtain ⟨_, _, _, hm⟩ := he
      exact (h.requestTest sent).requestDone hm _
  | requestSend r sent next =>
      obtain ⟨_, _, hreq, _, hnext, hproc⟩ := he
      obtain ⟨d, hd⟩ := Option.ne_none_iff_exists'.mp hnext
      simp only [Sys.next, hd, Option.getD_some]
      exact (h.requestTest sent).requestSend (by simpa [WorkNet.requestTest] using hreq)
        (by simpa [WorkNet.requestTest] using hd) hproc
  | requestNone r sent => exact h.requestTest sent
  | worksendWait r => exact h.requestReq rfl rfl rfl rfl
  | finish r =>
      simp only [Sys.next]
      split
      · exact h.congr rfl rfl rfl (fun _ => rfl) (fun _ => rfl) fun _ => rfl
      · exact h
  | workreceipt r src | worksend r i | process r ops =>
      exact h.congr rfl rfl rfl (fun _ => rfl) (fun _ => rfl) fun _ => rfl
  | _ => exact h

/-- The assertions hold, and requests and replies match. -/
structure Sys.Coherent (job : Job) (s : Sys α) : Prop where
  ok : ∀ r, s.Ok job r
  matched : s.work.Matched job.size

theorem coherent_start (queue : Rank → List α) (abortFlag : Rank → Bool)
    (input : Rank → ReduceInput) (enqueued : List α) :
    (Sys.start queue abortFlag input enqueued).Coherent job :=
  ⟨ok_start _ _ _ _, matched_start _ _ _ _⟩

theorem coherent_next (he : s.Enabled job e) (h : s.Coherent job) : (s.next job e).Coherent job :=
  ⟨ok_next he h.ok, matched_next he h.ok h.matched⟩

/-- Every state of every run is coherent. -/
theorem coherent_of_run {es : List (Event α)} (hrun : job.step.Run s es t)
    (h : s.Coherent job) : t.Coherent job :=
  hrun.invariant (fun _ _ hI hE => coherent_next hE hI) h

/-- Every request has exactly one answer, at every state of any sequence of invocations.  The
requestors a rank collects are distinct other ranks, and fewer than the array has entries. -/
theorem request_answered_once {queue : Rank → List α} {abortFlag : Rank → Bool}
    {input : Rank → ReduceInput} {enqueued : List α} {es : List (Event α)}
    (hrun : job.step.Run (Sys.start queue abortFlag input enqueued) es t) :
    (∀ r, ((t.work.request r).workRequested = true ↔
          (t.work.request r).workRequestedRank ≠ r ∧
            t.work.traces r (t.work.request r).workRequestedRank = 1) ∧
        ((t.work.request r).workRequested = false → ∀ d, t.work.traces r d = 0)) ∧
      ∀ r, r < job.size →
        (t.work.requestors r).Nodup ∧ (t.work.requestors r).length ≤ job.size - 1 := by
  have hm := (coherent_of_run hrun (coherent_start ..)).matched
  exact ⟨fun r => ⟨hm.workRequested_iff, fun hr d => hm.traces_eq_zero hr d⟩,
    fun r hr => ⟨hm.requestors_nodup r, hm.requestors_length_le hr⟩⟩

end Runs

/-- Rank `0` enqueues `items` and hands one of them to rank `1`. -/
def handoverOf {α : Type*} (items : List α) : List (Event α) :=
  [.begin 0 (some 1) (items.map .enqueue), .begin 1 (some 0) [], .workreqDone 1 0,
    .workreceiptDone 1, .worksendDone 1, .abortStart 1, .abortRequest 1 none,
    .abortReplies 1 false, .reduceSkip 1, .requestSend 1 true (some 0), .workreq 0 1,
    .workreqDone 0 0, .sendWork 0 1]

def handover : List (Event Nat) := handoverOf [1, 2]

/-- Two ranks with the default options. -/
def ringPair : Job := .uniform 2 ⟨false, false, false, false, 64, treeWidth_init_pos⟩ Nat.two_pos

theorem request_answered_once_handover :
    let t := ringPair.step.follow .fresh handover
    (t.work.request 1).workRequested = true ∧ t.work.traces 1 0 = 1 :=
  have hrun : ringPair.step.Run .fresh handover (ringPair.step.follow .fresh handover) :=
    .of_admits (by decide +kernel)
  have h := (request_answered_once hrun).1 1
  have hr : ((ringPair.step.follow .fresh handover).work.request 1).workRequested = true := by
    decide +kernel
  ⟨hr, (h.1.mp hr).2⟩

end Libcircle
