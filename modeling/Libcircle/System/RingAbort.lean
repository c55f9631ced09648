import Libcircle.System.AbortAgreement
import Libcircle.System.Solo
import Libcircle.System.TokenRing

/-!
# Aborts with ring termination

A rank that sees an abort does not send the token.  So, once some rank sees an
abort, the main loops can end only if the token that ends them is already under
way, and only ranks that do not see the abort have still to pass it on
(`Sys.RingEnds`).  No step leads there from a state that is not like this
(`ringEnds_of_next`), and from one that is, the ranks receive the token one after
the other.
-/

namespace Libcircle

variable {α : Type*} {job : Job} {s t : Sys α} {e : Event α} {r x h : Nat} {c : Colour}

/-! ## The condition -/

/-- All ranks have got `TERMINATE`, or the token in flight ends the main loop of its receiver and
the ranks left to pass it on see no abort. -/
def Sys.RingEnds (job : Job) (s : Sys α) : Prop :=
  (∀ r, r < job.size → (s.token.st r).tokenProc = .terminate) ∨
    ((∃ h, h < job.size ∧ ∃ c ∈ s.token.net h (tokenDest job.size h),
        TokenNet.terminates (tokenDest job.size h) c = true) ∧
      ∀ r, r < job.size →
        r + 1 < job.size → (s.token.st r).tokenProc ≠ .terminate → s.abortFlag r = false)

instance (s : Sys α) : Decidable (s.RingEnds job) :=
  inferInstanceAs (Decidable (_ ∨ ((∃ h, h < job.size ∧ _) ∧ ∀ r, r < job.size → _)))

/-- Some rank sees an abort, or has got `TERMINATE`. -/
def Sys.Aborting (job : Job) (s : Sys α) : Prop :=
  ∃ x, x < job.size ∧ (s.abortFlag x = true ∨ (s.token.st x).tokenProc = .terminate)

/-! ## The token -/

/-- While a rank has the token, none is in flight. -/
theorem Sys.RingPhase.net_eq_nil (hp : s.RingPhase job h false c) (a b : Rank) :
    s.token.net a b = [] := by
  cases hp.holder with
  | held _ _ hn => exact hn a b

theorem Sys.RingPhase.eq_of_mem {a b : Rank} {c' : Colour} (hp : s.RingPhase job h true c)
    (hm : c' ∈ s.token.net a b) : a = h ∧ c' = c := by
  cases hp.holder with
  | sent _ _ _ hn =>
      rw [hn] at hm
      split at hm
      next hab => exact ⟨hab.1, List.mem_singleton.mp hm⟩
      next => cases hm

/-- The token in flight is the token of the ring. -/
theorem Sys.Ring.phase_of_mem (hR : s.Ring job) (hc : c ∈ s.token.net h (tokenDest job.size h)) :
    s.RingPhase job h true c := by
  obtain ⟨pos, c', ⟨ha, _⟩ | ⟨h', sent, hp, _⟩⟩ := hR.token
  · rw [ha.net_eq] at hc
    cases hc
  · have hholder := hp.holder
    cases hholder with
    | held _ _ hn =>
        rw [hn] at hc
        cases hc
    | sent _ _ _ hn =>
        rw [hn] at hc
        split at hc
        next hab =>
          obtain rfl := hab.1
          obtain rfl := List.mem_singleton.mp hc
          exact hp
        next => cases hc

theorem Sys.RingPhase.mem_net (hp : s.RingPhase job h true c) :
    c ∈ s.token.net h (tokenDest job.size h) := by
  cases hp.holder with
  | sent _ _ _ hn => simp [hn]

/-- The receiver of a token in flight has not got `TERMINATE`. -/
theorem Sys.RingPhase.dest_proc (hp : s.RingPhase job h true c) :
    (s.token.st (tokenDest job.size h)).tokenProc ≠ .terminate := by
  intro hproc
  obtain ⟨hc, hle⟩ := (hp.terminated _).mp hproc
  have := hp.forwards rfl hc
  rcases tokenDest_cases hp.lt rfl with ⟨_, hr⟩ | ⟨_, hr⟩ <;> omega

/-- Its receiver can receive it. -/
theorem Sys.RingPhase.ready (hp : s.RingPhase job h true c) :
    s.token.RecvReady job.size (tokenDest job.size h) ∧
      tokenSrc job.size (tokenDest job.size h) = h ∧
      s.token.net (tokenSrc job.size (tokenDest job.size h)) (tokenDest job.size h) = [c] := by
  have hsrc : tokenSrc job.size (tokenDest job.size h) = h := by
    have hlt := hp.lt
    rcases tokenDest_cases hlt rfl with ⟨hn, hd⟩ | ⟨hn, hd⟩
    · rw [hd, tokenSrc, show h + 1 + job.size - 1 = h + job.size by omega, Nat.add_mod_right,
        Nat.mod_eq_of_lt hlt]
    · rw [hd, tokenSrc, Nat.zero_add, Nat.mod_eq_of_lt (Nat.sub_lt job.size_pos Nat.one_pos)]
      exact Nat.sub_eq_of_eq_add hn.symm
  have hnet :
      s.token.net (tokenSrc job.size (tokenDest job.size h)) (tokenDest job.size h) = [c] := by
    rw [hsrc]
    cases hp.holder with
    | sent _ _ _ hn => simp [hn]
  have hne :
      s.token.net (tokenSrc job.size (tokenDest job.size h)) (tokenDest job.size h) ≠ [] := by
    simp [hnet]
  exact ⟨⟨hne, fun _ => hp.holder.pop_eq_nil hne _ _⟩, hsrc, hnet⟩

/-! ## No step leads to the end -/

/-- Before a rank has completed the barrier, its flag is not cleared. -/
theorem abortFlag_of_stage (he : s.Enabled job e) (hO : s.Once job) (hf : s.abortFlag x = true)
    (hafter : s.stage x ≠ .after) : (s.next job e).abortFlag x = true := by
  by_cases hx : x = e.rank
  · have hat := (hO.coherent.ok e.rank).position
    refine abortFlag_next ?_ ?_ hf
    · intro he'
      rw [he'] at he
      rw [show s.pc e.rank = _ from he.1] at hat
      exact hafter (hx ▸ hat.1)
    · intro he'
      rw [he'] at he
      rw [show s.pc e.rank = _ from he.1] at hat
      exact hafter (hx ▸ hat.1)
  · have hloc : (s.next job e).loc x = s.loc x := loc_next_of_ne hx
    exact (congrArg Loc.abortFlag hloc).trans hf

/-- Before a rank has left the main loop, its flag is not cleared. -/
theorem abortFlag_of_main (he : s.Enabled job e) (hO : s.Once job) (hR : s.Ring job)
    (hf : s.abortFlag x = true) (hproc : (s.token.st x).tokenProc ≠ .terminate) :
    (s.next job e).abortFlag x = true :=
  abortFlag_of_stage he hO hf fun hst =>
    hproc ((hR.stage x).mpr ⟨by simp [hst], by simp [hO.inv_eq, hst]⟩)

theorem aborting_next (ht : (job.opts 1).termTree = false) (he : s.Enabled job e)
    (hf : FirstOnly s e) (hO : s.Once job) (hR : s.Ring job) (h : s.Aborting job) :
    (s.next job e).Aborting job := by
  obtain ⟨x, hx, hor⟩ := h
  refine ⟨x, hx, ?_⟩
  by_cases hproc : (s.token.st x).tokenProc = .terminate
  · right
    rw [(ring_next ht he hf hO hR).stage]
    exact left_next he hf (hO.coherent.ok _) ((hR.stage x).mp hproc)
  · exact .inl (abortFlag_of_main he hO hR (hor.resolve_right hproc) hproc)

/-- A step that does not move the token. -/
theorem Sys.RingEnds.of_same (h : t.RingEnds job)
    (hproc : ∀ r, (t.token.st r).tokenProc = .terminate → (s.token.st r).tokenProc = .terminate)
    (hnet : t.token.net = s.token.net)
    (hflag : ∀ r, s.abortFlag r = true → (s.token.st r).tokenProc ≠ .terminate →
      t.abortFlag r = true) : s.RingEnds job := by
  rcases h with hall | ⟨hnet', hnone⟩
  · exact .inl fun r hr => hproc r (hall r hr)
  · rw [hnet] at hnet'
    refine .inr ⟨hnet', fun r hr hlast hr' => ?_⟩
    have hfalse := hnone r hr hlast (mt (hproc r) hr')
    rw [Bool.eq_false_iff]
    exact fun hf => absurd (hfalse.symm.trans (hflag r hf hr')) (by decide)

/-- A rank that passes the token on does not end a main loop once some rank sees an abort. -/
theorem not_ringEnds_passToken (hR : s.Ring job) (hproc : (s.token.st r).tokenProc ≠ .terminate)
    (hlocal : (s.token.st r).tokenIsLocal = true) (ha : s.Aborting job)
    (htoken : t.token = s.token.passToken job.size (s.abortFlag r) r) (hinv : t.inv = s.inv)
    (hflag : t.abortFlag = s.abortFlag) : ¬t.RingEnds job := by
  obtain ⟨pos, c, hat⟩ := hR.token
  obtain ⟨hp, _, hbuf⟩ := hat.of_local hlocal
  have hp' := hp.passToken hproc htoken hinv
  have hc : c ≠ .terminate := fun hc => hproc ((hp.terminated r).mpr ⟨hc, Nat.le_refl _⟩)
  have hpassed : s.token.passed r ≠ .terminate := TokenNet.passed_ne_terminate (hbuf ▸ hc)
  have hnone : ∀ x, (t.token.st x).tokenProc ≠ .terminate := fun x hx =>
    hpassed ((hp'.terminated x).mp hx).1
  obtain ⟨x, hx, hor⟩ := ha
  have hf : s.abortFlag x = true :=
    hor.resolve_right fun hx => hc ((hp.terminated x).mp hx).1
  rintro (hall | ⟨⟨h, hh, c', hc', hterm⟩, hfree⟩)
  · exact hnone 0 (hall 0 job.size_pos)
  · cases hab : s.abortFlag r with
    | true =>
        rw [hab] at hp'
        rw [hp'.net_eq_nil] at hc'
        cases hc'
    | false =>
        -- only the last rank can send a token that ends the main loop of rank `0`
        rw [hab] at hp'
        obtain ⟨rfl, rfl⟩ := hp'.eq_of_mem hc'
        have hzero : tokenDest job.size h = 0 := by
          simp only [TokenNet.terminates, decide_eq_true_eq] at hterm
          exact (hterm.resolve_right hpassed).1
        rcases tokenDest_cases hh rfl with ⟨_, hd⟩ | ⟨hlast, _⟩
        · exact absurd (hd.symm.trans hzero) (Nat.succ_ne_zero _)
        · have hxr : x ≠ h := by
            rintro rfl
            exact absurd (hab.symm.trans hf) (by decide)
          have hfalse := hfree x hx (by omega) (hnone x)
          rw [hflag] at hfalse
          exact absurd (hfalse.symm.trans hf) (by decide)

/-- What is reached by a step was so before. -/
theorem ringEnds_of_next (he : s.Enabled job e) (hO : s.Once job) (hR : s.Ring job)
    (ha : s.Aborting job) (h : (s.next job e).RingEnds job) : s.RingEnds job := by
  have hflag := fun r hr => abortFlag_of_main (x := r) he hO hR hr
  cases e with
  | begin r next ops =>
      refine h.of_same (fun x hx => ?_) rfl hflag
      by_cases hxr : x = r
      · subst hxr
        rw [begin_token_self] at hx
        cases hx
      · rw [← hx]
        have hloc : (s.next job (.begin r next ops)).loc x = s.loc x := loc_next_of_ne hxr
        exact congrArg (fun l => l.token.tokenProc) hloc.symm
  | token r hit =>
      have hok := hO.coherent.ok r
      have hlt : r < job.size := hok.rank_lt (e := .token r hit) he
      have hat := hok.position
      rw [he.1] at hat
      have hst : s.stage r = .main := hat.1
      have hpos : 0 < s.inv r := by simp [hO.inv_eq, hst]
      have hproc := hR.not_terminated hst
      obtain ⟨hlocal, _, hy⟩ | ⟨_, hready, hy⟩ | ⟨_, _, hy⟩ := token_event he hR hst
      · exact absurd h (not_ringEnds_passToken hR hproc hlocal ha hy rfl rfl)
      · obtain ⟨pos, c, hat⟩ := hR.token
        obtain ⟨h', hp, _, hsrc, hdest, hnet⟩ := hat.of_ready hready
        cases hterm : TokenNet.terminates r c with
        | false =>
            -- the token is with `r`, which has not got `TERMINATE`
            have hp' : (s.next job (.token r hit)).RingPhase job r false c :=
              hp.tokenRecv hlt hsrc hdest hpos hterm (hy c hnet) rfl
            have hc : c ≠ .terminate := by
              rintro rfl
              simp [TokenNet.terminates] at hterm
            rcases h with hall | ⟨⟨h'', _, c', hc', _⟩, _⟩
            · exact absurd ((hp'.terminated r).mp (hall r hlt)).1 hc
            · rw [hp'.net_eq_nil] at hc'
              cases hc'
        | true =>
            have hp' : (s.next job (.token r hit)).RingPhase job r
                (TokenNet.forwards job.size (s.abortFlag r) r) .terminate :=
              hp.terminate hlt hsrc hdest hpos hproc hterm (hy c hnet) rfl
            refine .inr ⟨⟨h', hp.lt, c, hp.mem_net, hdest ▸ hterm⟩, fun x hx hlast hx' => ?_⟩
            rw [Bool.eq_false_iff]
            intro hfx
            -- the ranks that get `TERMINATE` later do not see the abort, and `r` passes it on
            rcases h with hall | ⟨⟨h'', _, c', hc', _⟩, hfree⟩
            · have hle := ((hp'.terminated _).mp (hall (job.size - 1)
                (Nat.sub_lt job.size_pos Nat.one_pos))).2
              have hxle : x ≤ r := by omega
              have hxr : x = r := by
                rcases Nat.lt_or_eq_of_le hxle with hxlt | hxr
                · have hxt := (hp'.terminated x).mpr ⟨rfl, hxle⟩
                  have hloc : (s.next job (.token r hit)).loc x = s.loc x :=
                    loc_next_of_ne (Nat.ne_of_lt hxlt)
                  exact absurd ((congrArg (fun l => l.token.tokenProc) hloc).symm.trans hxt) hx'
                · exact hxr
              omega
            · by_cases hxr : x = r
              · subst hxr
                rw [TokenNet.forwards, hfx, Bool.not_true, Bool.and_false] at hp'
                rw [hp'.net_eq_nil] at hc'
                cases hc'
              · have hloc : (s.next job (.token r hit)).loc x = s.loc x := loc_next_of_ne hxr
                have hx'' : ((s.next job (.token r hit)).token.st x).tokenProc ≠ .terminate := by
                  rw [show (s.next job (.token r hit)).token.st x = s.token.st x from
                    congrArg Loc.token hloc]
                  exact hx'
                have hfalse : s.abortFlag x = false := hfree x hx hlast hx''
                exact absurd (hfalse.symm.trans hfx) (by decide)
      · exact h.of_same
          (fun x hx => by rwa [show (s.next job (.token r hit)).token = _ from hy] at hx)
          (congrArg TokenNet.net hy) hflag
  | _ =>
      have hs := sameToken_next he hO hR id
      exact h.of_same (fun r => (hs.proc_iff r).mp) hs.net_eq hflag

theorem ringEnds_of_run (ht : (job.opts 1).termTree = false) {es : List (Event α)}
    (hrun : job.once.Run s es t) (hO : s.Once job) (hR : s.Ring job) (ha : s.Aborting job)
    (h : t.RingEnds job) : s.RingEnds job := by
  induction hrun with
  | nil => exact h
  | cons he _ ih =>
      obtain ⟨he, hf⟩ := he
      exact ringEnds_of_next he hO hR ha
        (ih (once_next he hf hO) (ring_next ht he hf hO hR) (aborting_next ht he hf hO hR ha) h)

/-! ## The ranks after the token -/

theorem Sys.SameToken.trans {u : Sys α} (h : s.SameToken t) (h' : t.SameToken u) :
    s.SameToken u where
  inv_eq := h'.inv_eq.trans h.inv_eq
  local_eq r := (h'.local_eq r).trans (h.local_eq r)
  buf_eq r := (h'.buf_eq r).trans (h.buf_eq r)
  proc_iff r := (h'.proc_iff r).trans (h.proc_iff r)
  fresh r hr := (h'.fresh r (by rwa [h.inv_eq])).trans (h.fresh r hr)
  net_eq := h'.net_eq.trans h.net_eq

/-- `r` has gone on in its main loop, and the token has not moved. -/
structure Sys.GoesOn (job : Job) (r : Nat) (s t : Sys α) : Prop where
  once : t.Once job
  ring : t.Ring job
  same : s.SameToken t
  abortFlag : t.abortFlag = s.abortFlag
  queue : (t.work.queue r).length ≤ (s.work.queue r).length

theorem Sys.GoesOn.refl (hO : s.Once job) (hR : s.Ring job) : s.GoesOn job r s :=
  ⟨hO, hR, .of_eq rfl rfl, rfl, Nat.le_refl _⟩

theorem Sys.GoesOn.trans {u : Sys α} (h : s.GoesOn job r t) (h' : t.GoesOn job r u) :
    s.GoesOn job r u :=
  ⟨h'.once, h'.ring, h.same.trans h'.same, h'.abortFlag.trans h.abortFlag, h'.queue.trans h.queue⟩

/-- Without the token `r` does not leave the main loop. -/
theorem Sys.GoesOn.stage (h : s.GoesOn job r t) (hO : s.Once job) (hR : s.Ring job)
    (hst : s.stage r = .main) : t.stage r = .main := by
  have hinv : 0 < t.inv r := by
    rw [h.same.inv_eq, hO.inv_eq (by simp [hst])]
    exact Nat.one_pos
  have hproc : (t.token.st r).tokenProc ≠ .terminate := by
    rw [Ne, h.same.proc_iff]
    exact hR.not_terminated hst
  rw [Ne, h.ring.stage, not_and_or, not_not] at hproc
  exact hproc.resolve_right (not_not.mpr hinv)

/-- One event of the rank itself. -/
theorem goesOn_next (ht : (job.opts 1).termTree = false) (he : s.Enabled job e)
    (hf : FirstOnly s e) (hmove : ¬e.MovesToken) (hO : s.Once job) (hR : s.Ring job)
    (hflag : (s.next job e).abortFlag = s.abortFlag)
    (hqueue : ((s.next job e).work.queue r).length ≤ (s.work.queue r).length) :
    s.GoesOn job r (s.next job e) :=
  ⟨once_next he hf hO, ring_next ht he hf hO hR, sameToken_next he hO hR hmove, hflag, hqueue⟩

theorem not_movesToken_of_quiet (hq : e.Quiet) : ¬e.MovesToken := by
  cases e with
  | begin | token => exact hq.elim
  | _ => exact id

/-- A step of `r` on its way to `CIRCLE_check_for_term`: it finds nothing, or processes an item. -/
def Event.Heads (r : Rank) (e : Event α) : Prop :=
  e.rank = r ∧ (e.Quiet ∨ e = .process r [.dequeue])

variable {I : Sys α → Prop}

/-- In a solo run. -/
theorem goesOn_solo (ht : (job.opts 1).termTree = false)
    (hI : ∀ u e, u.Once job → I u → u.Enabled job e → e.Heads r → I (u.next job e))
    {P : Sys α → Prop} (hO : s.Once job) (hR : s.Ring job) (hs : I s)
    (h : (job.solo r).Leads s P) :
    job.once.Leads s fun t => (s.GoesOn job r t ∧ I t) ∧ P t := by
  have hstep : ∀ u e, (s.GoesOn job r u ∧ I u) → (job.solo r).Enabled u e →
      s.GoesOn job r (u.next job e) ∧ I (u.next job e) := by
    rintro u e ⟨hu, hIu⟩ ⟨he, hr, hq⟩
    exact ⟨hu.trans (goesOn_next ht he (firstOnly_of_quiet hq) (not_movesToken_of_quiet hq)
      hu.once hu.ring (quiet_abortFlag hq) (quiet_queue hq r)),
      hI u e hu.once hIu he ⟨hr, .inl hq⟩⟩
  exact (h.invariant hstep ⟨.refl hO hR, hs⟩).restrict_mono fun _ _ hq => firstOnly_of_quiet hq.2

/-- A step of the invocation, and what it leads to. -/
theorem leads_next {P : Sys α → Prop} (he : s.Enabled job e) (hf : FirstOnly s e)
    (h : job.once.Leads (s.next job e) P) : job.once.Leads s P := .cons ⟨he, hf⟩ h

/-- `r` comes to `CIRCLE_check_for_term`.  It processes its items on the way, unless it sees an
abort.  What its steps keep holds there. -/
theorem to_token_keeping (ht : (job.opts 1).termTree = false)
    (hI : ∀ u e, u.Once job → I u → u.Enabled job e → e.Heads r → I (u.next job e))
    (hO : s.Once job) (hR : s.Ring job) (hst : s.stage r = .main) (hs : I s) :
    job.once.Leads s fun t => (s.GoesOn job r t ∧ I t) ∧ t.pc r = .token := by
  induction hn : (s.work.queue r).length using Nat.strongRecOn generalizing s with
  | _ n ih =>
    by_cases hpc : s.pc r = .token
    · exact .here ⟨⟨.refl hO hR, hs⟩, hpc⟩
    have hsolo := solo_to (.inl rfl) (p := .work) (by decide) hO.coherent hst
      (height_pos_of_main hO hst hpc)
    refine (goesOn_solo ht hI hO hR hs hsolo).trans ?_
    rintro u ⟨⟨hu, hIu⟩, hor⟩
    have hst' := hu.stage hO hR hst
    have hpc' : u.pc r = .work := hor.resolve_left (not_not.mpr hst')
    by_cases hb : u.Busy r
    · -- an item is processed
      have he : u.Enabled job (.process r [.dequeue]) := ⟨hpc', hb⟩
      have hlen : ((u.next job (.process r [.dequeue])).work.queue r).length <
          (u.work.queue r).length := by
        have hpos := List.length_pos_of_ne_nil hb.1
        have heq : (u.next job (.process r [.dequeue])).work.queue r =
            (u.work.queue r).dropLast := by
          simp [Sys.next, WorkNet.setQueue, Sys.callback, CallbackState.run, CallbackState.call,
            Sys.callbackState]
        rw [heq, List.length_dropLast]
        omega
      have hgo : u.GoesOn job r (u.next job (.process r [.dequeue])) := by
        refine goesOn_next ht he trivial id hu.once hu.ring ?_ (Nat.le_of_lt hlen)
        simp [Sys.next, Sys.callback, CallbackState.run, CallbackState.call, Sys.callbackState]
      have hsu := hu.trans hgo
      have hIn := hI u _ hu.once hIu he ⟨rfl, .inr rfl⟩
      refine leads_next he trivial ?_
      have hgone :=
        ih _ (hn ▸ hlen.trans_le hu.queue) hsu.once hsu.ring (hsu.stage hO hR hst) hIn rfl
      exact hgone.mono fun t ht => ⟨⟨hsu.trans ht.1.1, ht.1.2⟩, ht.2⟩
    · have he : u.Enabled job (.checkForTerm r) := ⟨hpc', hb⟩
      have hgo : u.GoesOn job r (u.next job (.checkForTerm r)) :=
        goesOn_next ht he trivial id hu.once hu.ring rfl (Nat.le_refl _)
      have hIn := hI u _ hu.once hIu he ⟨rfl, .inl trivial⟩
      refine leads_next he trivial (.here ⟨⟨hu.trans hgo, hIn⟩, ?_⟩)
      have hinv : u.inv r = 1 := hu.once.inv_eq (by simp [hst'])
      simp [Sys.next, Sys.opts, hinv, ht]

theorem to_token (ht : (job.opts 1).termTree = false) (hO : s.Once job) (hR : s.Ring job)
    (hst : s.stage r = .main) :
    job.once.Leads s fun t => s.GoesOn job r t ∧ t.pc r = .token :=
  (to_token_keeping (I := fun _ => True) ht (fun _ _ _ _ _ _ => trivial) hO hR hst trivial).mono
    fun _ h => ⟨h.1.1, h.2⟩

/-! ## One rank after the other -/

/-- The ranks that have still to pass `TERMINATE` on see no abort. -/
def Sys.Unhindered (job : Job) (s : Sys α) : Prop :=
  ∀ r, r < job.size → r + 1 < job.size → (s.token.st r).tokenProc ≠ .terminate →
    s.abortFlag r = false

/-- The receiver of the token comes to its main loop, if it is not there. -/
theorem to_main (ht : (job.opts 1).termTree = false) (hO : s.Once job) (hR : s.Ring job)
    (hp : s.RingPhase job h true c) (hu : s.Unhindered job) :
    job.once.Leads s fun t => t.Once job ∧ t.Ring job ∧ t.RingPhase job h true c ∧
      t.Unhindered job ∧ t.stage (tokenDest job.size h) = .main := by
  rcases Nat.eq_zero_or_pos (s.inv (tokenDest job.size h)) with hinv | hinv
  · obtain ⟨next, hnext⟩ := exists_nextProc job.size (tokenDest job.size h)
    have he : s.Enabled job (.begin (tokenDest job.size h) next []) :=
      ⟨idle_of_inv_eq_zero hO hinv, TokenNet.tokenDest_lt hp.lt, hnext, .inl rfl⟩
    have hR' := ring_next ht he hinv hO hR
    refine leads_next he hinv (.here ⟨once_next he hinv hO, hR', hR'.phase_of_mem hp.mem_net,
      fun x hx hlast hx' => ?_, Function.update_self ..⟩)
    have hflag : (s.next job (.begin (tokenDest job.size h) next [])).abortFlag = s.abortFlag := by
      simp [Sys.next, Sys.callback, CallbackState.run, Sys.callbackState]
    rw [hflag]
    refine hu x hx hlast ?_
    by_cases hxd : x = tokenDest job.size h
    · rw [hxd]
      exact hp.dest_proc
    · have hloc : (s.next job (.begin (tokenDest job.size h) next [])).loc x = s.loc x :=
        loc_next_of_ne hxd
      rwa [show s.token.st x = _ from (congrArg Loc.token hloc).symm]
  · have hstage := hp.dest_proc
    rw [Ne, hR.stage, not_and_or, not_not] at hstage
    exact .here ⟨hO, hR, hp, hu, hstage.resolve_right (not_not.mpr hinv)⟩

/-- The receiver of a token that ends its main loop leaves it. -/
theorem terminate_dest (ht : (job.opts 1).termTree = false) (hO : s.Once job) (hR : s.Ring job)
    (hp : s.RingPhase job h true c)
    (hterm : TokenNet.terminates (tokenDest job.size h) c = true) (hu : s.Unhindered job) :
    job.once.Leads s fun t => t.Once job ∧ t.Ring job ∧
      t.RingPhase job (tokenDest job.size h)
        (decide (tokenDest job.size h + 1 < job.size)) .terminate ∧ t.Unhindered job := by
  refine (to_main ht hO hR hp hu).trans fun u ⟨hO', hR', hp', hu', hst⟩ => ?_
  refine (to_token ht hO' hR' hst).trans fun v ⟨hv, hpc⟩ => ?_
  have hp'' : v.RingPhase job h true c :=
    hv.ring.phase_of_mem (hv.same.net_eq ▸ hp'.mem_net)
  obtain ⟨hready, hsrc, hnet⟩ := hp''.ready
  have hst' := hv.stage hO' hR' hst
  have hproc := hv.ring.not_terminated hst'
  have hpos : 0 < v.inv (tokenDest job.size h) := by simp [hv.once.inv_eq, hst']
  have hlocal : (v.token.st (tokenDest job.size h)).tokenIsLocal = false := by
    cases hp''.holder with
    | sent _ _ hl _ => exact hl _
  have he : v.Enabled job (.token (tokenDest job.size h) true) :=
    ⟨hpc, fun _ => ⟨hproc, hlocal, hready⟩⟩
  have hflag : ∀ x, x < job.size → x + 1 < job.size → (v.token.st x).tokenProc ≠ .terminate →
      v.abortFlag x = false := by
    intro x hx hlast hx'
    rw [hv.abortFlag]
    exact hu' x hx hlast (mt (hv.same.proc_iff x).mpr hx')
  -- the receiver passes it on, unless it is the last one
  have hforwards : TokenNet.forwards job.size (v.abortFlag (tokenDest job.size h))
      (tokenDest job.size h) = decide (tokenDest job.size h + 1 < job.size) := by
    have hlt : tokenDest job.size h < job.size := TokenNet.tokenDest_lt hp.lt
    by_cases hlast : tokenDest job.size h + 1 < job.size
    · simp [TokenNet.forwards, hflag _ hlt hlast hproc, hlast, Nat.lt_sub_of_add_lt hlast]
    · have hge : ¬tokenDest job.size h < job.size - 1 := fun h => hlast (Nat.add_lt_of_lt_sub h)
      simp [TokenNet.forwards, hlast, hge]
  have hterminate : (v.next job (.token (tokenDest job.size h) true)).RingPhase job
      (tokenDest job.size h) (TokenNet.forwards job.size (v.abortFlag (tokenDest job.size h))
        (tokenDest job.size h)) .terminate := by
    refine hp''.terminate (TokenNet.tokenDest_lt hp.lt) hsrc rfl hpos hproc hterm ?_ rfl
    simp [Sys.next, TokenNet.checkForTerm, hproc, hlocal, hnet]
  rw [hforwards] at hterminate
  refine leads_next he trivial (.here ⟨once_next he trivial hv.once,
    ring_next ht he trivial hv.once hv.ring, hterminate, fun x hx hlast hx' => ?_⟩)
  have hxd : x ≠ tokenDest job.size h := by
    rintro rfl
    exact hx' ((hterminate.terminated _).mpr ⟨rfl, Nat.le_refl _⟩)
  have hloc : (v.next job (.token (tokenDest job.size h) true)).loc x = v.loc x :=
    loc_next_of_ne hxd
  refine hflag x hx hlast ?_
  rwa [show v.token.st x = _ from (congrArg Loc.token hloc).symm]

/-- The token ends the main loop of its receiver, and then those of the ranks after it. -/
theorem terminate_rest (ht : (job.opts 1).termTree = false) (hO : s.Once job) (hR : s.Ring job)
    (hp : s.RingPhase job h true c)
    (hterm : TokenNet.terminates (tokenDest job.size h) c = true) (hu : s.Unhindered job) :
    job.once.Leads s fun t =>
      t.Ring job ∧ ∀ r, r < job.size → (t.token.st r).tokenProc = .terminate := by
  induction hn : job.size - tokenDest job.size h generalizing s h c with
  | zero => exact absurd hn (Nat.sub_ne_zero_of_lt (TokenNet.tokenDest_lt hp.lt))
  | succ n ih =>
      refine (terminate_dest ht hO hR hp hterm hu).trans fun t ⟨hO', hR', hp', hu'⟩ => ?_
      by_cases hlast : tokenDest job.size h + 1 < job.size
      · rw [decide_eq_true hlast] at hp'
        have hdest := TokenNet.tokenDest_of_lt hlast
        refine ih hO' hR' hp' (by simp [TokenNet.terminates]) hu' ?_
        rw [hdest, Nat.sub_add_eq, hn, Nat.add_sub_cancel]
      · have hle : ∀ r, r < job.size → r ≤ tokenDest job.size h := fun r hr =>
          Nat.le_of_lt_succ (hr.trans_le (Nat.le_of_not_lt hlast))
        exact .here ⟨hR', fun r hr => (hp'.terminated r).mpr ⟨rfl, hle r hr⟩⟩

/-- With ring termination, once some rank sees an abort, some continuation ends the main loop of
every rank if and only if the token that ends them is under way and no rank left to pass it on
sees an abort. -/
theorem ring_abort_completes (ht : (job.opts 1).termTree = false) {queue : Rank → List α}
    {abortFlag : Rank → Bool} {input : Rank → ReduceInput} {enqueued : List α}
    {es : List (Event α)}
    (hrun : job.once.Run (Sys.start queue abortFlag input enqueued) es s)
    (ha : ∃ a, a < job.size ∧ s.abortFlag a = true) :
    (∃ fs t, job.once.Run s fs t ∧ ∀ r, r < job.size →
        (t.token.st r).tokenProc = .terminate ∧ t.stage r ≠ .main ∧ 0 < t.inv r) ↔
      s.RingEnds job := by
  obtain ⟨hO, hR⟩ := ring_of_run ht hrun (once_start ..) (ring_start ..)
  constructor
  · rintro ⟨fs, t, hrun', hall⟩
    obtain ⟨a, hlt, hf⟩ := ha
    exact ringEnds_of_run ht hrun' hO hR ⟨a, hlt, .inl hf⟩ (.inl fun r hr => (hall r hr).1)
  · rintro (hall | ⟨⟨h, _, c, hc, hterm⟩, hu⟩)
    · exact ⟨[], s, .nil s, fun r hr => ⟨hall r hr, (hR.stage r).mp (hall r hr)⟩⟩
    · obtain ⟨fs, t, hrun', hR', hall⟩ := terminate_rest ht hO hR (hR.phase_of_mem hc) hterm hu
      exact ⟨fs, t, hrun', fun r hr => ⟨hall r hr, (hR'.stage r).mp (hall r hr)⟩⟩

theorem ringTriple_pos : 0 < 3 := by decide

/-- Three ranks with ring termination. -/
def ringTriple : Job :=
  .uniform 3 ⟨false, false, false, false, 64, treeWidth_init_pos⟩ ringTriple_pos

/-- Rank `0` hands an item to rank `2`, and the token goes round before the item has arrived.  It is
on its way from rank `2` back to rank `0` when rank `2` receives the item and calls
`CIRCLE_abort`. -/
def abortLate : List (Event Nat) :=
  List.flatten
    [[.begin 0 (some 1) [.enqueue 1, .enqueue 2], .begin 1 (some 2) [], .begin 2 (some 0) []],
      passMain 2, [.requestSend 2 true (some 0), .checkForTerm 2, .token 2 false],
      [.workreq 0 2, .workreqDone 0 0, .sendWork 0 1, .workreceiptDone 0, .worksendDone 0],
      passAbort 0 none false, [.requestSkip 0, .process 0 [.dequeue]],
      passMain 0, [.requestSend 0 true (some 1), .checkForTerm 0, .token 0 false],
      [.workreq 1 0, .workreqDone 1 0, .sendNoWork 1, .workreceiptDone 1, .worksendDone 1],
      passAbort 1 none false, [.requestSend 1 true (some 2), .checkForTerm 1, .token 1 true],
      passMain 1, [.requestNone 1 true, .checkForTerm 1, .token 1 false],
      [.workreq 2 1, .workreqDone 2 0, .sendNoWork 2, .workreceiptDone 2, .worksendDone 2],
      passAbort 2 none false, [.requestNone 2 true, .checkForTerm 2, .token 2 true],
      passMain 2, [.requestNone 2 true, .checkForTerm 2, .token 2 false],
      passMain 2, [.requestReply 2 true, .process 2 [.dequeue, .abort]]]

theorem ring_abort_completes_abortLate :
    let s := ringTriple.once.follow .fresh abortLate
    (s.abortFlag 2 = true ∧ ∀ r, r < 3 → s.stage r = .main) ∧
      ∃ fs t, ringTriple.once.Run s fs t ∧ ∀ r, r < ringTriple.size →
        (t.token.st r).tokenProc = .terminate ∧ t.stage r ≠ .main ∧ 0 < t.inv r := by
  have hrun : ringTriple.once.Run .fresh abortLate (ringTriple.once.follow .fresh abortLate) :=
    .of_admits (by decide +kernel)
  have hf : (ringTriple.once.follow .fresh abortLate).abortFlag 2 = true := by decide +kernel
  exact ⟨⟨hf, by decide +kernel⟩,
    (ring_abort_completes rfl hrun ⟨2, by decide, hf⟩).mpr (by decide +kernel)⟩

/-- One rank with ring termination. -/
def ringSingle : Job :=
  .uniform 1 ⟨false, false, false, false, 64, treeWidth_init_pos⟩ Nat.one_pos

/-- A rank that calls `CIRCLE_abort` before it has sent the token never leaves the main loop. -/
theorem ring_abort_completes_fails :
    let s := ringSingle.once.follow (Sys.fresh (α := Nat)) [.begin 0 none [.abort]]
    ringSingle.once.Run .fresh [.begin 0 none [.abort]] s ∧ s.abortFlag 0 = true ∧
      s.stage 0 = .main ∧
      ¬∃ fs t, ringSingle.once.Run s fs t ∧ ∀ r, r < ringSingle.size →
        (t.token.st r).tokenProc = .terminate ∧ t.stage r ≠ .main ∧ 0 < t.inv r := by
  have hrun : ringSingle.once.Run (Sys.fresh (α := Nat)) [.begin 0 none [.abort]]
      (ringSingle.once.follow .fresh [.begin 0 none [.abort]]) := .of_admits (by decide +kernel)
  have hf : (ringSingle.once.follow (Sys.fresh (α := Nat)) [.begin 0 none [.abort]]).abortFlag 0 =
      true := by decide +kernel
  refine ⟨hrun, hf, by decide +kernel, ?_⟩
  rintro ⟨fs, t, hrun', hall⟩
  obtain ⟨hO, hR⟩ := ring_of_run rfl hrun (once_start ..) (ring_start ..)
  have hends := ringEnds_of_run rfl hrun' hO hR ⟨0, by decide, .inl hf⟩
    (.inl fun r hr => (hall r hr).1)
  revert hends
  decide +kernel

end Libcircle
