import Libcircle.System.Drain
import Libcircle.System.RingAbort
import Libcircle.System.RingPromptness

/-!
# The main loops end

With ring termination and no abort, the token never gets stuck.  Its rank can come to
`CIRCLE_check_for_term` and pass it on, and so can the next one.  A rank turns black
only when it serves a requestor, and none comes while the others wait.  So every move
of the token lowers the effort of the probe, with the black ranks and the requestors
as its debt (`Sys.unrest`), and the main loops end (`ring_main_loops_end`).
-/

namespace Libcircle

variable {α : Type*} {job : Job} {s t : Sys α} {e : Event α} {r x h : Nat} {sent hit : Bool}
  {c : Colour}

/-! ## Black ranks -/

/-- The requestors that may still be served, and the colour. -/
def Loc.unrest (l : Loc α) : Nat :=
  l.requestors.length + (decide (l.token.tokenProc = .black)).toNat

/-- A bound of the black ranks while no request arrives. -/
def Sys.unrest (job : Job) (s : Sys α) : Nat := ∑ r ∈ Finset.range job.size, (s.loc r).unrest

theorem unrest_next (hr : e.rank < job.size) : (s.next job e).unrest job + (s.loc e.rank).unrest =
    s.unrest job + ((s.next job e).loc e.rank).unrest :=
  sum_add_eq_of_ne (Finset.mem_range.mpr hr) (fun x => (s.loc x).unrest)
    (fun x => ((s.next job e).loc x).unrest) fun x hx => by rw [loc_next_of_ne hx]

theorem unrest_next_le (hr : e.rank < job.size)
    (hle : ((s.next job e).loc e.rank).unrest ≤ (s.loc e.rank).unrest) :
    (s.next job e).unrest job ≤ s.unrest job := by
  have := unrest_next (s := s) hr
  omega

/-- A rank that serves a requestor may turn black, but has one less to serve. -/
theorem unrest_served {l l' : Loc α} (hne : l.requestors ≠ [])
    (hl : l'.requestors = l.requestors.tail) : l'.unrest ≤ l.unrest := by
  have hlen : l'.requestors.length + 1 = l.requestors.length := by
    rw [hl, List.length_tail]
    exact Nat.sub_add_cancel (List.length_pos_of_ne_nil hne)
  have hle := Bool.toNat_le (decide (l'.token.tokenProc = .black))
  unfold Loc.unrest
  omega

theorem unrest_heads (he : s.Enabled job e) (hO : s.Once job) (hh : e.Heads r) :
    (s.next job e).unrest job ≤ s.unrest job := by
  obtain ⟨_, hor⟩ := hh
  have hat := (hO.coherent.ok e.rank).position
  refine unrest_next_le ((hO.coherent.ok _).rank_lt he) ?_
  rcases hor with hq | rfl
  · cases e with
    | sendWork r count =>
        rw [show s.pc (Event.sendWork (α := α) r count).rank = _ from he.1] at hat
        exact unrest_served hat.2.2.1
          (by simp [Sys.loc, Sys.next, Event.rank, WorkNet.nextRequestor])
    | sendNoWork r =>
        rw [show s.pc (Event.sendNoWork (α := α) r).rank = _ from he] at hat
        exact unrest_served hat.2 (Function.update_self ..)
    | workreqDone r rand =>
        have hsame : (s.next job (.workreqDone r rand)).work.requestors = s.work.requestors := by
          simp only [Sys.next]
          split <;> rfl
        simp only [Loc.unrest, Sys.loc, hsame]
        exact Nat.le_refl _
    | tokenDrain r hit done =>
        obtain ⟨rfl, rfl⟩ := hq
        exact Nat.le_refl _
    | begin | token | workreq | requestReply | finish => exact hq.elim
    | _ => exact Nat.le_refl _
  · exact Nat.le_refl _

/-! ## The token goes round -/

/-- No rank sees an abort, and the token goes round. -/
structure Sys.Circling (job : Job) (s : Sys α) (h : Nat) (sent : Bool) (c : Colour) : Prop where
  once : s.Once job
  ring : s.Ring job
  phase : s.RingPhase job h sent c
  unaborted : s.NoAbort job

/-- The effort of the token. -/
def Sys.ringEffort (job : Job) (s : Sys α) (h : Nat) (sent : Bool) (c : Colour) : ℕ ×ₗ ℕ :=
  Probe.effort job.size (s.unrest job) sent (s.probe (h + sent.toNat) c)

/-- The rank whose turn it is. -/
def turn (size h : Nat) (sent : Bool) : Rank := if sent then tokenDest size h else h

theorem Sys.Circling.turn_lt (hC : s.Circling job h sent c) : turn job.size h sent < job.size := by
  cases sent with
  | false => exact hC.phase.lt
  | true => exact TokenNet.tokenDest_lt hC.phase.lt

/-- It comes to its main loop. -/
theorem turn_main (ht : (job.opts 1).termTree = false) (hC : s.Circling job h sent c)
    (hc : c ≠ .terminate) :
    job.once.Leads s fun t => (t.Circling job h sent c ∧ t.unrest job ≤ s.unrest job) ∧
      t.stage (turn job.size h sent) = .main := by
  have hO := hC.once
  have hR := hC.ring
  have hproc : (s.token.st (turn job.size h sent)).tokenProc ≠ .terminate :=
    fun hproc => hc ((hC.phase.terminated _).mp hproc).1
  rcases Nat.eq_zero_or_pos (s.inv (turn job.size h sent)) with hinv | hinv
  · cases sent with
    | false => exact absurd hinv (Nat.ne_of_gt (hC.phase.begun h (Nat.le_refl h)))
    | true =>
        obtain ⟨next, hnext⟩ := exists_nextProc job.size (tokenDest job.size h)
        have he : s.Enabled job (.begin (tokenDest job.size h) next []) :=
          ⟨idle_of_inv_eq_zero hO hinv, hC.turn_lt, hnext, .inl rfl⟩
        have hR' := ring_next ht he hinv hO hR
        have hflag : (s.next job (.begin (tokenDest job.size h) next [])).abortFlag =
            s.abortFlag := by
          simp [Sys.next, Sys.callback, CallbackState.run, Sys.callbackState]
        refine leads_next he hinv (.here ⟨⟨⟨once_next he hinv hO, hR',
          hR'.phase_of_mem hC.phase.mem_net, fun x hx => ?_⟩, ?_⟩, Function.update_self ..⟩)
        · rw [hflag]
          exact hC.unaborted x hx
        · refine unrest_next_le hC.turn_lt ?_
          simp [Loc.unrest, Sys.loc, Sys.next, Event.rank, WorkNet.init, WorkNet.setQueue,
            TokenNet.init, TokenNet.set]
  · rw [Ne, hR.stage, not_and_or, not_not] at hproc
    exact .here ⟨⟨hC, Nat.le_refl _⟩, hproc.resolve_right (not_not.mpr hinv)⟩

theorem Sys.Circling.goesOn (hC : s.Circling job h sent c) (hgo : s.GoesOn job r t) :
    t.Circling job h sent c where
  once := hgo.once
  ring := hgo.ring
  phase := hC.phase.same hgo.same
  unaborted x hx := by
    rw [hgo.abortFlag]
    exact hC.unaborted x hx

/-- It comes to `CIRCLE_check_for_term`. -/
theorem turn_token (ht : (job.opts 1).termTree = false) (hC : s.Circling job h sent c)
    (hc : c ≠ .terminate) :
    job.once.Leads s fun t => (t.Circling job h sent c ∧ t.unrest job ≤ s.unrest job) ∧
      t.pc (turn job.size h sent) = .token := by
  refine (turn_main ht hC hc).trans fun u ⟨⟨hu, hle⟩, hst⟩ => ?_
  have hkeep : ∀ (v : Sys α) (e : Event α), v.Once job → v.unrest job ≤ s.unrest job →
      v.Enabled job e →
      e.Heads (turn job.size h sent) → (v.next job e).unrest job ≤ s.unrest job :=
    fun v e hO hle he hh => (unrest_heads he hO hh).trans hle
  exact (to_token_keeping ht hkeep hu.once hu.ring hst hle).mono fun v hv =>
    ⟨⟨hu.goesOn hv.1.1, hv.1.2⟩, hv.2⟩

theorem turn_enabled (hC : s.Circling job h sent c) (hc : c ≠ .terminate)
    (hpc : s.pc (turn job.size h sent) = .token) :
    s.Enabled job (.token (turn job.size h sent) sent) := by
  cases sent with
  | false => exact ⟨hpc, fun hhit => Bool.noConfusion hhit⟩
  | true =>
      have hproc : (s.token.st (tokenDest job.size h)).tokenProc ≠ .terminate :=
        fun hproc => hc ((hC.phase.terminated _).mp hproc).1
      have hlocal : (s.token.st (tokenDest job.size h)).tokenIsLocal = false := by
        cases hC.phase.holder with
        | sent _ _ hl _ => exact hl _
      exact ⟨hpc, fun _ => ⟨hproc, hlocal, hC.phase.ready.1⟩⟩

/-- The token has ended the main loops of the ranks it was on, and is in flight to the next one. -/
def Sys.Ends (job : Job) (s : Sys α) : Prop :=
  ∃ h, s.Circling job h (decide (h + 1 < job.size)) .terminate

/-- The token goes round, with a lower effort. -/
def Sys.Moved (job : Job) (s : Sys α) (effort : ℕ ×ₗ ℕ) : Prop :=
  ∃ h sent c, s.Circling job h sent c ∧ c ≠ .terminate ∧ s.ringEffort job h sent c < effort

/-- What `CIRCLE_check_for_term` keeps. -/
theorem circling_token (ht : (job.opts 1).termTree = false) (hC : s.Circling job x sent c)
    (he : s.Enabled job (.token r hit)) {sent' : Bool} {c' : Colour}
    (hp : (s.next job (.token r hit)).RingPhase job h sent' c') :
    (s.next job (.token r hit)).Circling job h sent' c' :=
  ⟨once_next he trivial hC.once, ring_next ht he trivial hC.once hC.ring, hp, hC.unaborted⟩

theorem forwards_unaborted {size : Nat} :
    TokenNet.forwards size false r = decide (r + 1 < size) := by
  rw [TokenNet.forwards, Bool.not_false, Bool.and_true, decide_eq_decide]
  omega

/-- The rank passes the token on. -/
theorem turn_pass (ht : (job.opts 1).termTree = false) (hC : s.Circling job h false c)
    (hc : c ≠ .terminate) (he : s.Enabled job (.token h false)) :
    (s.next job (.token h false)).Moved job (s.ringEffort job h false c) := by
  have hO := hC.once
  have hflag : s.abortFlag h = false := hC.unaborted h hC.phase.lt
  obtain ⟨_, _, _, hbuf, hy, hp⟩ | ⟨hsent, _⟩ | ⟨hlocal, _⟩ := token_cases he hO hC.ring hC.phase
  · rw [hflag] at hy hp
    refine ⟨h, true, _, circling_token ht hC he hp, TokenNet.passed_ne_terminate (hbuf ▸ hc), ?_⟩
    have hself : ((s.next job (.token h false)).token.st h).tokenProc = .white := by
      rw [hy, TokenNet.passToken_st]
      simp
    have hsum : (s.next job (.token h false)).unrest job + (s.loc h).unrest =
        s.unrest job + ((s.next job (.token h false)).loc h).unrest :=
      unrest_next (e := .token h false) hC.phase.lt
    have hold : (s.loc h).unrest =
        (s.work.requestors h).length + (decide ((s.token.st h).tokenProc = .black)).toNat := rfl
    have hnew : ((s.next job (.token h false)).loc h).unrest = (s.work.requestors h).length := by
      rw [Loc.unrest, show ((s.next job (.token h false)).loc h).token.tokenProc = _ from hself]
      rfl
    refine Probe.effort_leave hC.phase.lt rfl (dirty_passed hbuf) ?_
    change _ + (decide ((s.token.st h).tokenProc = .black)).toNat ≤ _
    rw [hold, hnew] at hsum
    omega
  · cases hsent
  · cases hC.phase.holder with
    | held _ hl _ => exact absurd ((hl h).symm.trans hlocal) (by simp)

/-- The next rank receives it. -/
theorem turn_recv (ht : (job.opts 1).termTree = false) (hC : s.Circling job h true c)
    (hc : c ≠ .terminate) (he : s.Enabled job (.token (tokenDest job.size h) true)) :
    (s.next job (.token (tokenDest job.size h) true)).Ends job ∨
      (s.next job (.token (tokenDest job.size h) true)).Moved job
        (s.ringEffort job h true c) := by
  have hO := hC.once
  have hflag : s.abortFlag (tokenDest job.size h) = false := hC.unaborted _ hC.turn_lt
  obtain ⟨hsent, _⟩ | ⟨_, _, _, hy, hp⟩ | ⟨_, hhit, _⟩ := token_cases he hO hC.ring hC.phase
  · cases hsent
  · cases hterm : TokenNet.terminates (tokenDest job.size h) c with
    | true =>
        rw [hterm, if_pos rfl, hflag] at hp
        left
        rw [forwards_unaborted] at hp
        exact ⟨tokenDest job.size h, circling_token ht hC he hp⟩
    | false =>
        rw [hterm, if_neg Bool.false_ne_true] at hp
        refine .inr ⟨_, false, c, circling_token ht hC he hp, hc, ?_⟩
        have hdebt :
            (s.next job (.token (tokenDest job.size h) true)).unrest job ≤ s.unrest job := by
          refine unrest_next_le hC.turn_lt (Nat.add_le_add_left ?_ _)
          have hwhite := white_recv (x := tokenDest job.size h) hy hterm 0 c
          simp only [Sys.probe] at hwhite
          cases hb : decide ((s.token.st (tokenDest job.size h)).tokenProc = .black) with
          | false => exact (congrArg Bool.toNat (hwhite hb)).le.trans (Nat.zero_le _)
          | true => exact (Bool.toNat_le _).trans (congrArg Bool.toNat hb).ge
        rcases tokenDest_cases hC.phase.lt rfl with ⟨_, hd⟩ | ⟨hlast, hd⟩
        · exact Probe.effort_arrive hd rfl hdebt
        · have hblack : c = .black := by
            rw [hd] at hterm
            cases c with
            | black => rfl
            | white | terminate => cases hterm
          exact Probe.effort_restart (Nat.succ_pos h) (decide_eq_true hblack) hd hdebt
  · cases hhit

/-- Some run brings the token to its end. -/
theorem leads_ends (ht : (job.opts 1).termTree = false) (hC : s.Circling job h sent c)
    (hc : c ≠ .terminate) : job.once.Leads s fun t => t.Ends job := by
  induction hn : s.ringEffort job h sent c using WellFoundedLT.induction
    generalizing s h sent c with
  | _ n ih =>
    refine (turn_token ht hC hc).trans fun u ⟨⟨hu, hle⟩, hpc⟩ => ?_
    have he := turn_enabled hu hc hpc
    refine leads_next he trivial ?_
    have hmono : u.ringEffort job h sent c ≤ s.ringEffort job h sent c :=
      Probe.effort_mono rfl rfl hle
    have hmoved : (u.next job (.token (turn job.size h sent) sent)).Ends job ∨
        (u.next job (.token (turn job.size h sent) sent)).Moved job
          (u.ringEffort job h sent c) := by
      cases sent with
      | false => exact .inr (turn_pass ht hu hc he)
      | true => exact turn_recv ht hu hc he
    rcases hmoved with hends | ⟨h', sent', c', hC', hc', hlt⟩
    · exact .here hends
    · exact ih _ (hn ▸ hlt.trans_le hmono) hC' hc' rfl

/-! ## A token that is kept -/

/-- A rank that has got `TERMINATE` keeps the token only if it sees an abort, or is the last. -/
def Sys.KeepsToken (job : Job) (s : Sys α) : Prop :=
  ∀ r, r + 1 < job.size → (s.token.st r).tokenIsLocal = true →
    (s.token.st r).tokenProc = .terminate → s.abortFlag r = true

/-- While a rank has not left its main loop, no rank has completed the barrier. -/
theorem not_past (hW : s.Waves job) (hR : s.Ring job) (hr : r < job.size)
    (hproc : (s.token.st r).tokenProc ≠ .terminate) (hx : x < job.size) : ¬s.Past x :=
  fun hp => hproc ((hR.stage r).mpr (left_of_past hW hx hp hr))

/-- A rank keeps a token that ends its main loop only if it sees an abort. -/
theorem keepsToken_token (he : s.Enabled job (.token r hit)) (hO : s.Once job) (hR : s.Ring job)
    (hr : r + 1 < job.size)
    (hlocal : ((s.next job (.token r hit)).token.st r).tokenIsLocal = true)
    (hproc : ((s.next job (.token r hit)).token.st r).tokenProc = .terminate) :
    s.abortFlag r = true := by
  have hat := (hO.coherent.ok r).position
  rw [he.1] at hat
  have hst : s.stage r = .main := hat.1
  have hnot := hR.not_terminated hst
  obtain ⟨_, _, hy⟩ | ⟨_, hready, hy⟩ | ⟨_, _, hy⟩ := token_event he hR hst
  · rw [show (s.next job (.token r hit)).token = _ from hy, TokenNet.passToken_st,
      Function.update_self] at hproc
    cases hproc
  · obtain ⟨pos, c, ha⟩ := hR.token
    obtain ⟨_, _, _, _, _, hnet⟩ := ha.of_ready hready
    rw [show (s.next job (.token r hit)).token = _ from hy c hnet, TokenNet.tokenRecv_st,
      Function.update_self] at hlocal hproc
    split at hlocal
    next hterm =>
      by_contra hflag
      simp only [Bool.not_eq_true] at hflag
      rw [hflag, forwards_unaborted, decide_eq_true hr] at hlocal
      cases hlocal
    next hterm =>
      rw [if_neg hterm, TokenNet.arrived] at hproc
      split at hproc
      · cases hproc
      · exact absurd hproc hnot
  · rw [show (s.next job (.token r hit)).token = _ from hy] at hproc
    exact absurd hproc hnot

theorem keepsToken_next (he : s.Enabled job e) (hW : s.Waves job) (hR : s.Ring job)
    (h : s.KeepsToken job) : (s.next job e).KeepsToken job := by
  have hO := hW.once
  intro r hr hlocal hproc
  -- what `r` had before the step, it has after it
  have hkept : (s.token.st r).tokenIsLocal = true → (s.token.st r).tokenProc = .terminate →
      (s.next job e).abortFlag r = true := by
    intro hlocal hproc
    refine abortFlag_of_stage he hO (h r hr hlocal hproc) fun hst => ?_
    obtain ⟨pos, c, ha⟩ := hR.token
    have hp := (ha.of_local hlocal).1
    have hnext : (s.token.st (r + 1)).tokenProc ≠ .terminate := fun hnext =>
      absurd ((hp.terminated (r + 1)).mp hnext).2 (Nat.not_succ_le_self r)
    exact not_past hW hR hr hnext (Nat.lt_of_succ_lt hr) (.inl hst)
  by_cases hre : r = e.rank
  · cases e with
    | begin r next ops =>
        obtain rfl := hre
        rw [begin_token_self] at hproc
        cases hproc
    | token x hit =>
        obtain rfl : r = x := hre
        have hflag : s.abortFlag r = true := keepsToken_token he hO hR hr hlocal hproc
        exact hflag
    | _ =>
        have hs := sameToken_next he hO hR id
        exact hkept ((hs.local_eq r).symm.trans hlocal) ((hs.proc_iff r).mp hproc)
  · rw [token_st_of_ne hre] at hlocal hproc
    exact hkept hlocal hproc

theorem keepsToken_of_run (ht : (job.opts 1).termTree = false) {es : List (Event α)}
    (hrun : job.once.Run s es t) (hW : s.Waves job) (hR : s.Ring job) (h : s.KeepsToken job) :
    t.KeepsToken job :=
  (hrun.restrict_invariant (I := fun s => s.Waves job ∧ s.Ring job ∧ s.KeepsToken job)
    (fun _ _ ⟨hW, hR, h⟩ he hf =>
      ⟨waves_next he hf hW, ring_next ht he hf hW.once hR, keepsToken_next he hW hR h⟩)
    ⟨hW, hR, h⟩).2.2

/-- Where no rank sees an abort, a token that ends main loops is kept only by the last rank. -/
theorem Sys.RingPhase.sent_eq (hp : s.RingPhase job h sent c) (hc : c = .terminate)
    (hkept : s.KeepsToken job) (hnone : s.NoAbort job) : sent = decide (h + 1 < job.size) := by
  cases sent with
  | true => exact (decide_eq_true (hp.forwards rfl hc)).symm
  | false =>
      refine (decide_eq_false fun hlt => ?_).symm
      have hlocal : (s.token.st h).tokenIsLocal = true := by
        cases hp.holder with
        | held _ hl _ => simp [hl]
      have hflag := hkept h hlt hlocal ((hp.terminated h).mpr ⟨hc, Nat.le_refl h⟩)
      exact absurd ((hnone h hp.lt).symm.trans hflag) (by decide)

/-! ## All ranks leave -/

/-- The token ends the main loops of the ranks it has not been on. -/
theorem terminate_all (ht : (job.opts 1).termTree = false) (h : s.Ends job) :
    job.once.Leads s fun t =>
      t.Ring job ∧ ∀ r, r < job.size → (t.token.st r).tokenProc = .terminate := by
  obtain ⟨h, hO, hR, hp, hnone⟩ := h
  by_cases hlast : h + 1 < job.size
  · rw [decide_eq_true hlast] at hp
    exact terminate_rest ht hO hR hp (by simp [TokenNet.terminates]) fun r hr _ _ => hnone r hr
  · have hle : ∀ r, r < job.size → r ≤ h := fun r hr =>
      Nat.le_of_lt_succ (hr.trans_le (Nat.le_of_not_lt hlast))
    exact .here ⟨hR, fun r hr => (hp.terminated r).mpr ⟨rfl, hle r hr⟩⟩

/-- Rank `0` creates the token. -/
theorem circling_begin (ht : (job.opts 1).termTree = false) (hO : s.Once job) (hR : s.Ring job)
    (hnone : s.NoAbort job) (hinv : s.inv 0 = 0) :
    job.once.Leads s fun t => t.Circling job 0 false .black := by
  obtain ⟨next, hnext⟩ := exists_nextProc job.size 0
  have he : s.Enabled job (.begin 0 next []) :=
    ⟨idle_of_inv_eq_zero hO hinv, job.size_pos, hnext, .inl rfl⟩
  have hR' := ring_next ht he hinv hO hR
  have hself : (s.next job (.begin 0 next [])).token.st 0 = { tokenIsLocal := true } :=
    begin_token_self
  obtain ⟨pos, c, ha⟩ := hR'.token
  obtain ⟨hp, _, hbuf⟩ := ha.of_local (r := 0) (by rw [hself])
  rw [hself] at hbuf
  obtain rfl : .black = c := hbuf
  have hflag : (s.next job (.begin 0 next [])).abortFlag = s.abortFlag := by
    simp [Sys.next, Sys.callback, CallbackState.run, Sys.callbackState]
  exact leads_next he hinv (.here ⟨once_next he hinv hO, hR', hp, fun x hx => hflag ▸ hnone x hx⟩)

/-- With ring termination, from every reachable state in which no rank sees an abort, some
continuation ends the main loop of every rank. -/
theorem ring_main_loops_end (ht : (job.opts 1).termTree = false) {queue : Rank → List α}
    {abortFlag : Rank → Bool} {input : Rank → ReduceInput} {enqueued : List α}
    {es : List (Event α)}
    (hrun : job.once.Run (Sys.start queue abortFlag input enqueued) es s)
    (hnone : ∀ r, r < job.size → s.abortFlag r = false) :
    ∃ fs t, job.once.Run s fs t ∧ ∀ r, r < job.size →
      (t.token.st r).tokenProc = .terminate ∧ t.stage r ≠ .main ∧ 0 < t.inv r := by
  obtain ⟨hO, hR⟩ := ring_of_run ht hrun (once_start ..) (ring_start ..)
  have hkept : s.KeepsToken job :=
    keepsToken_of_run ht hrun (waves_start ..) (ring_start ..) fun r _ hlocal => by cases hlocal
  have hends : job.once.Leads s fun t => t.Ends job := by
    obtain ⟨pos, c, ⟨ha, _⟩ | ⟨h, sent, hp, _⟩⟩ := hR.token
    · exact (circling_begin ht hO hR hnone ha.not_begun).trans fun t hC =>
        leads_ends ht hC (by decide)
    · by_cases hc : c = .terminate
      · subst hc
        exact .here ⟨h, hO, hR, hp.sent_eq rfl hkept hnone ▸ hp, hnone⟩
      · exact leads_ends ht ⟨hO, hR, hp, hnone⟩ hc
  obtain ⟨fs, t, hrun', hR', hall⟩ := hends.trans fun t => terminate_all ht
  exact ⟨fs, t, hrun', fun r hr => ⟨hall r hr, (hR'.stage r).mp (hall r hr)⟩⟩

theorem ring_main_loops_end_servesTwice :
    let s := createPair.once.follow .fresh servesTwice
    (s.token.net 1 0 = [.black] ∧ (s.token.st 1).tokenProc = .black) ∧
      ∃ fs t, createPair.once.Run s fs t ∧ ∀ r, r < createPair.size →
        (t.token.st r).tokenProc = .terminate ∧ t.stage r ≠ .main ∧ 0 < t.inv r :=
  have hrun : createPair.once.Run .fresh servesTwice
      (createPair.once.follow .fresh servesTwice) := .of_admits (by decide +kernel)
  ⟨by decide +kernel, ring_main_loops_end rfl hrun (by decide +kernel)⟩

end Libcircle
