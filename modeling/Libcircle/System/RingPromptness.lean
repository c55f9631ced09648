import Libcircle.System.RingSoundness
import Libcircle.System.Solo

/-!
# Ring termination is prompt

Once no items are left, no rank turns black any more.  The token may still be black,
and so may the ranks it has passed in this round, so it comes back to rank `0` black
at most twice (`Probe.Swept`).  The third time rank `0` receives it, it terminates, in
every run (`ring_termination_prompt`).
-/

namespace Libcircle

variable {α : Type*} {job : Job} {s t : Sys α} {e : Event α} {r x h k pos : Nat} {sent hit : Bool}
  {c : Colour}

/-! ## What `CIRCLE_check_for_term` does -/

/-- The rank that has the token passes it on, or keeps it if it sees an abort.  The rank after the
one that sent the token receives it, and may get `TERMINATE`.  Nothing happens on another rank. -/
theorem token_cases (he : s.Enabled job (.token r hit)) (hO : s.Once job) (hR : s.Ring job)
    (hp : s.RingPhase job h sent c) :
    (sent = false ∧ r = h ∧ hit = false ∧ (s.token.st r).tokenBuf = c ∧
        (s.next job (.token r hit)).token = s.token.passToken job.size (s.abortFlag r) r ∧
        (s.next job (.token r hit)).RingPhase job r (!s.abortFlag r) (s.token.passed r)) ∨
      (sent = true ∧ r = tokenDest job.size h ∧ hit = true ∧
        (s.next job (.token r hit)).token = s.token.tokenRecv job.size (s.abortFlag r) r c ∧
        if TokenNet.terminates r c then
          (s.next job (.token r hit)).RingPhase job r
            (TokenNet.forwards job.size (s.abortFlag r) r) .terminate
        else (s.next job (.token r hit)).RingPhase job r false c) ∨
      (s.token.st r).tokenIsLocal = false ∧ hit = false ∧
        (s.next job (.token r hit)).token = s.token := by
  have hok := hO.coherent.ok r
  have hlt : r < job.size := hok.rank_lt (e := .token r hit) he
  have hat := hok.position
  rw [he.1] at hat
  have hst : s.stage r = .main := hat.1
  have hpos : 0 < s.inv r := by simp [hO.inv_eq, hst]
  have hproc := hR.not_terminated hst
  obtain ⟨hlocal, hhit, hy⟩ | ⟨hhit, hready, hy⟩ | ⟨hlocal, hhit, hy⟩ := token_event he hR hst
  · obtain ⟨rfl, rfl, hbuf⟩ := hp.pass hlocal
    exact .inl ⟨rfl, rfl, hhit, hbuf, hy, hp.passToken hproc hy rfl⟩
  · obtain ⟨rfl, hsrc, hdest, hnet⟩ := hp.arrive hready
    refine .inr (.inl ⟨rfl, hdest, hhit, hy c hnet, ?_⟩)
    split
    next hterm => exact hp.terminate hlt hsrc hdest hpos hproc hterm (hy c hnet) rfl
    next hterm =>
      exact hp.tokenRecv hlt hsrc hdest hpos (by simpa using hterm) (hy c hnet) rfl
  · exact .inr (.inr ⟨hlocal, hhit, hy⟩)

/-- The other ranks keep their colours. -/
theorem token_st_of_ne (hx : x ≠ e.rank) : (s.next job e).token.st x = s.token.st x :=
  congrArg Loc.token (loc_next_of_ne hx)

/-! ## Rounds without items -/

/-- Rank `0` receives the token. -/
def Event.comesBack : Event α → Bool
  | .token r hit => decide (r = 0) && hit
  | _ => false

/-- The token has come back to rank `0` `k` times, and goes round. -/
def Sys.InRound (job : Job) (s : Sys α) (k : Nat) : Prop :=
  ∃ h sent c, s.RingPhase job h sent c ∧ c ≠ .terminate ∧
    (s.probe (h + sent.toNat) c).Swept job.size k

/-- No items are left, and since then the token has come back to rank `0` `k` times. -/
structure Sys.Rounded (job : Job) (s : Sys α) (k : Nat) : Prop where
  once : s.Once job
  ring : s.Ring job
  exhausted : s.Exhausted job
  phase : (s.token.st 0).tokenProc = .terminate ∧ k ≤ 3 ∨ s.InRound job k ∧ k < 3

/-- Without items, only `CIRCLE_check_for_term` changes the colour of a rank. -/
theorem tokenProc_next (he : s.Enabled job e) (hf : FirstOnly s e) (hO : s.Once job)
    (hR : s.Ring job) (hE : s.Exhausted job) (hmove : ∀ r hit, e ≠ .token r hit) (x : Rank) :
    ((s.next job e).token.st x).tokenProc = (s.token.st x).tokenProc := by
  have hok := hO.coherent.ok e.rank
  have hlt := hok.rank_lt he
  have hat := hok.position
  cases e with
  | begin r next ops => exact absurd hf (Nat.ne_of_gt (hE.begun r hlt))
  | token r hit => exact absurd rfl (hmove r hit)
  | sendWork r count =>
      rw [show s.pc (Event.sendWork (α := α) r count).rank = _ from he.1] at hat
      have hsum : (s.loc r).sizes.sum < (s.work.queue r).length := hat.2.2.2.2
      rw [hE.queue_nil r hlt] at hsum
      exact absurd hsum (Nat.not_lt_zero _)
  | tokenDrain r hit done =>
      obtain ⟨hpc, hhit, _⟩ := he
      rw [show s.pc (Event.tokenDrain (α := α) r hit done).rank = _ from hpc] at hat
      have hst : s.stage r = .cleanup := hat.1
      have hproc : (s.token.st r).tokenProc = .terminate :=
        (hR.stage r).mpr ⟨by simp [hst], by simp [hO.inv_eq, hst]⟩
      cases hit with
      | true => exact absurd (hhit rfl) (hR.not_ready hproc)
      | false =>
          by_cases hx : x = r
          · subst hx
            cases done <;> simp [Sys.next, TokenNet.testSend, TokenNet.set]
          · rw [token_st_of_ne (e := .tokenDrain r false done) hx]
  | _ => rfl

theorem Sys.RingPhase.same (hp : s.RingPhase job h sent c) (hs : s.SameToken t) :
    t.RingPhase job h sent c where
  holder := hp.holder.congr hs.local_eq (fun r _ => hs.buf_eq r) hs.net_eq
  terminated r := (hs.proc_iff r).trans (hp.terminated r)
  forwards := hp.forwards
  begun r hr := by
    rw [hs.inv_eq]
    exact hp.begun r hr

/-- Rank `0` receives no token once it has got `TERMINATE`. -/
theorem not_comesBack (he : s.Enabled job e) (hproc : (s.token.st 0).tokenProc = .terminate) :
    e.comesBack = false := by
  cases e with
  | token r hit =>
      cases hit with
      | false => exact Bool.and_false _
      | true =>
          have hr : r ≠ 0 := by
            rintro rfl
            exact (he.2 rfl).1 hproc
          simp [Event.comesBack, hr]
  | _ => rfl

theorem Sys.InRound.same (h : s.InRound job k) (hs : s.SameToken t)
    (hproc : ∀ x, (t.token.st x).tokenProc = (s.token.st x).tokenProc) : t.InRound job k := by
  obtain ⟨h, sent, c, hp, hc, hS⟩ := h
  refine ⟨h, sent, c, hp.same hs, hc, hS.whiten rfl rfl fun x hx => ?_⟩
  simp only [Sys.probe, hproc]
  exact hx

/-- The colour of the token that a rank passes on. -/
theorem dirty_passed (hbuf : (s.token.st r).tokenBuf = c) {k : Nat} :
    (t.probe k (s.token.passed r)).dirty =
      if (s.probe r c).pos = 0 then false else (s.probe r c).dirty || (s.probe r c).black r := by
  simp only [Sys.probe, TokenNet.passed, hbuf]
  by_cases h0 : r = 0
  · simp [h0]
  · by_cases hb : (s.token.st r).tokenProc = .black <;> simp [h0, hb]

/-- A rank passes the token on. -/
theorem inRound_pass (hp : s.RingPhase job r false c) (hc : c ≠ .terminate)
    (hS : (s.probe r c).Swept job.size k) (hbuf : (s.token.st r).tokenBuf = c)
    (hy : t.token = s.token.passToken job.size (s.abortFlag r) r)
    (hp' : t.RingPhase job r (!s.abortFlag r) (s.token.passed r)) : t.InRound job k := by
  have hst := s.token.passToken_st job.size (s.abortFlag r) r
  have hself : (t.token.st r).tokenProc = .white := by simp [hy, hst]
  refine ⟨r, _, _, hp', TokenNet.passed_ne_terminate (hbuf ▸ hc), hS.leave hp.lt ?_ ?_ ?_ ?_⟩
  · exact Nat.add_le_add_left (Bool.toNat_le _) r
  · exact dirty_passed hbuf
  · simp [Sys.probe, hself]
  · intro x hx
    by_cases hxr : x = r
    · simp [Sys.probe, hxr, hself]
    · simp only [Sys.probe, hy, hst, Function.update_of_ne hxr]
      exact hx

/-- A rank that receives the token does not turn black. -/
theorem white_recv {abortFlag : Bool} (hy : t.token = s.token.tokenRecv job.size abortFlag r c)
    (hterm : TokenNet.terminates r c = false) (pos : Nat) (c' : Colour)
    (hx : (s.probe pos c).black x = false) : (t.probe pos c').black x = false := by
  simp only [Sys.probe, decide_eq_false_iff_not] at hx ⊢
  rw [hy, TokenNet.tokenRecv_st, hterm]
  by_cases hxr : x = r
  · subst hxr
    simp only [Function.update_self, Bool.false_eq_true, if_false, TokenNet.arrived]
    split
    · decide
    · exact hx
  · rwa [Function.update_of_ne hxr]

/-- `CIRCLE_check_for_term` during a round. -/
theorem phase_token (he : s.Enabled job (.token r hit)) (hO : s.Once job) (hR : s.Ring job)
    (h : s.InRound job k) (hk : k < 3) {n : Nat}
    (hn : n = k + (Event.token (α := α) r hit).comesBack.toNat) :
    ((s.next job (.token r hit)).token.st 0).tokenProc = .terminate ∧ n ≤ 3 ∨
      (s.next job (.token r hit)).InRound job n ∧ n < 3 := by
  obtain ⟨h, sent, c, hp, hc, hS⟩ := h
  obtain ⟨rfl, rfl, rfl, hbuf, hy, hp'⟩ | ⟨rfl, hdest, rfl, hy, hp'⟩ | ⟨_, rfl, hy⟩ :=
    token_cases he hO hR hp
  · -- the token is passed on, or stays
    obtain rfl : n = k := by simpa [Event.comesBack] using hn
    exact .inr ⟨inRound_pass hp hc hS hbuf hy hp', hk⟩
  · rcases tokenDest_cases hp.lt hdest with ⟨_, rfl⟩ | ⟨hlast, rfl⟩
    · have hterm : TokenNet.terminates (h + 1) c = false := by simp [TokenNet.terminates, hc]
      obtain rfl : n = k := by simpa [Event.comesBack] using hn
      rw [hterm, if_neg Bool.false_ne_true] at hp'
      exact .inr ⟨⟨_, _, _, hp', hc, hS.whiten rfl rfl fun x hx => white_recv hy hterm _ _ hx⟩, hk⟩
    · -- it is back on rank `0`
      obtain rfl : n = k + 1 := hn
      cases c with
      | white =>
          have hp' : (s.next job (.token 0 true)).RingPhase job 0 _ .terminate := hp'
          exact .inl ⟨(hp'.terminated 0).mpr ⟨rfl, Nat.le_refl 0⟩, hk⟩
      | black =>
          have hterm : TokenNet.terminates 0 .black = false := by decide
          have hlt := hS.lt_of_dirty (Nat.succ_pos h) rfl
          exact .inr
            ⟨⟨_, _, _, hp', hc, hS.restart hlast rfl fun x hx => white_recv hy hterm _ _ hx⟩,
              Nat.succ_lt_succ hlt⟩
      | terminate => exact absurd rfl hc
  · obtain rfl : n = k := by simpa [Event.comesBack] using hn
    exact .inr ⟨Sys.InRound.same ⟨h, sent, c, hp, hc, hS⟩ (.of_eq rfl hy) fun x => by rw [hy], hk⟩

theorem rounded_next (ht : (job.opts 1).termTree = false) (he : s.Enabled job e)
    (hf : FirstOnly s e) (h : s.Rounded job k) :
    (s.next job e).Rounded job (k + e.comesBack.toNat) := by
  obtain ⟨hO, hR, hE, hphase⟩ := h
  have hR' := ring_next ht he hf hO hR
  refine ⟨once_next he hf hO, hR', exhausted_next he hf hO.coherent.ok hE, ?_⟩
  rcases hphase with ⟨hproc, hk⟩ | ⟨hround, hk⟩
  · left
    rw [not_comesBack he hproc]
    exact ⟨(hR'.stage 0).mpr (left_next he hf (hO.coherent.ok _) ((hR.stage 0).mp hproc)), hk⟩
  · cases e with
    | begin r next ops =>
        exact absurd hf (Nat.ne_of_gt (hE.begun r ((hO.coherent.ok r).rank_lt he)))
    | token r hit => exact phase_token he hO hR hround hk rfl
    | _ =>
        exact .inr ⟨hround.same (sameToken_next he hO hR id)
          (tokenProc_next he hf hO hR hE (by simp)), hk⟩

theorem rounded_of_run (ht : (job.opts 1).termTree = false) {fs : List (Event α)}
    (hrun : job.once.Run s fs t) (h : s.Rounded job k) :
    t.Rounded job (k + fs.countP Event.comesBack) := by
  induction hrun generalizing k with
  | nil => exact h
  | @cons s t e es he _ ih =>
      have hnext := ih (rounded_next ht he.1 he.2 h)
      rw [List.countP_cons]
      cases hb : e.comesBack with
      | false => simpa [hb] using hnext
      | true =>
          rw [hb] at hnext
          rw [if_pos rfl, Nat.add_comm _ 1, ← Nat.add_assoc]
          exact hnext

theorem rounded_initial (hO : s.Once job) (hR : s.Ring job)
    (hquiet : ∀ r, r < job.size → 0 < s.inv r ∧ s.work.queue r = [] ∧
      ∀ d, d < job.size → s.work.unreceived r d = false) : s.Rounded job 0 where
  once := hO
  ring := hR
  exhausted := {
    begun := fun r hr => (hquiet r hr).1
    queue_nil := fun r hr => (hquiet r hr).2.1
    none_in_flight := fun r d => by
      rw [Bool.eq_false_iff]
      intro hsent
      have hr := lt_of_sent hO.coherent.matched hsent
      have hd := lt_of_unreceived hO.coherent.matched hsent
      exact absurd (((hquiet r hr).2.2 d hd).symm.trans hsent) (by decide) }
  phase := by
    obtain ⟨pos, c, ⟨ha, _⟩ | ⟨h, sent, hp, _⟩⟩ := hR.token
    · exact absurd ha.not_begun (Nat.ne_of_gt (hquiet 0 job.size_pos).1)
    · by_cases hc : c = .terminate
      · exact .inl ⟨(hp.terminated 0).mpr ⟨hc, Nat.zero_le h⟩, Nat.zero_le 3⟩
      · exact .inr ⟨⟨h, sent, c, hp, hc, trivial⟩, by decide⟩

/-- Ring termination is prompt: in one invocation, with or without an abort, once every rank has
started, every queue is empty and no items are in flight, rank `0` receives the token at most three
times more.  The third time it gets `TERMINATE`. -/
theorem ring_termination_prompt (ht : (job.opts 1).termTree = false) {queue : Rank → List α}
    {abortFlag : Rank → Bool} {input : Rank → ReduceInput} {enqueued : List α}
    {es fs : List (Event α)}
    (hrun : job.once.Run (Sys.start queue abortFlag input enqueued) es s)
    (hquiet : ∀ r, r < job.size → 0 < s.inv r ∧ s.work.queue r = [] ∧
      ∀ d, d < job.size → s.work.unreceived r d = false)
    (hlater : job.once.Run s fs t) :
    fs.countP Event.comesBack ≤ 3 ∧
      (fs.countP Event.comesBack = 3 → (t.token.st 0).tokenProc = .terminate) := by
  obtain ⟨hO, hR⟩ := ring_of_run ht hrun (once_start ..) (ring_start ..)
  have hend := rounded_of_run ht hlater (rounded_initial hO hR hquiet)
  rw [Nat.zero_add] at hend
  rcases hend.phase with ⟨hproc, hk⟩ | ⟨_, hk⟩
  · exact ⟨hk, fun _ => hproc⟩
  · exact ⟨Nat.le_of_lt hk, fun heq => absurd heq (Nat.ne_of_lt hk)⟩

/-- Two ranks with ring termination that both create items. -/
def createPair : Job := .uniform 2 ⟨false, false, true, false, 64, treeWidth_init_pos⟩ Nat.two_pos

/-- A pass through the main loop, with the request of `src` for an item served. -/
def passServe (r src : Rank) : List (Event Nat) :=
  [.workreq r src, .workreqDone r 0, .sendWork r 1] ++ (passMain r).tail

/-- A pass through the main loop to `CIRCLE_check_for_term`. -/
def passCheck (r : Rank) (request : Event Nat) (hit : Bool) : List (Event Nat) :=
  passMain r ++ [request, .checkForTerm r, .token r hit]

/-- Rank `1` serves rank `0`, passes the token on black and serves rank `0` again, while the token
is in flight. -/
def servesTwice : List (Event Nat) :=
  List.flatten
    [[.begin 0 (some 1) [], .begin 1 (some 0) [.enqueue 1, .enqueue 2]],
      passCheck 0 (.requestSend 0 true (some 1)) false,
      passServe 1 0, [.requestSkip 1, .process 1 [.dequeue]],
      passCheck 1 (.requestSend 1 true (some 0)) true, passCheck 1 (.requestNone 1 true) false,
      passMain 0, [.requestReply 0 true, .process 0 [.enqueue 3]],
      passServe 0 1, [.requestSkip 0, .process 0 [.dequeue]],
      passMain 1, [.requestReply 1 true, .process 1 [.enqueue 4]],
      passCheck 0 (.requestSend 0 true (some 1)) false,
      passServe 1 0, [.requestSkip 1, .process 1 [.dequeue]],
      passMain 0, [.requestReply 0 true, .process 0 [.dequeue]]]

/-- The token comes back black twice. -/
def thirdReturn : List (Event Nat) :=
  List.flatten
    [passCheck 0 (.requestSend 0 true (some 1)) true, passCheck 0 (.requestNone 0 true) false,
      passCheck 1 (.requestSend 1 true (some 0)) true, passCheck 1 (.requestNone 1 true) false,
      passCheck 0 (.requestNone 0 true) true, passCheck 0 (.requestNone 0 true) false,
      passCheck 1 (.requestNone 1 true) true, passCheck 1 (.requestNone 1 true) false,
      passCheck 0 (.requestNone 0 true) true]

theorem ring_termination_prompt_thirdReturn :
    let s := createPair.once.follow .fresh servesTwice
    let t := createPair.once.follow s thirdReturn
    thirdReturn.countP Event.comesBack = 3 ∧ (t.token.st 0).tokenProc = .terminate :=
  have hrun : createPair.once.Run .fresh servesTwice
      (createPair.once.follow .fresh servesTwice) := .of_admits (by decide +kernel)
  have hlater : createPair.once.Run (createPair.once.follow .fresh servesTwice) thirdReturn
      (createPair.once.follow (createPair.once.follow .fresh servesTwice) thirdReturn) :=
    .of_admits (by decide +kernel)
  have hcount : thirdReturn.countP Event.comesBack = 3 := by decide +kernel
  ⟨hcount, (ring_termination_prompt rfl hrun (by decide +kernel) hlater).2 hcount⟩

end Libcircle
