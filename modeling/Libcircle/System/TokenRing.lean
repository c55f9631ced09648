import Libcircle.System.Waves

/-!
# Where the token is

With ring termination there is one token: before rank `0` calls `CIRCLE_begin`
there is none, and from then on some rank has it or has sent it to the next one
(`TokenNet.Holder`).  A token that says `TERMINATE` has ended the main loop of
exactly the ranks up to the one that has it or sent it.  This holds with and
without an abort, along every run of one invocation (`ring_of_run`).
-/

namespace Libcircle

variable {α : Type*} {job : Job} {s t : Sys α} {e : Event α} {r x : Nat}

namespace TokenNet

variable {size : Nat} {y y' : TokenNet} {h : Nat} {sent : Bool} {c : Colour}

theorem tokenDest_of_lt (hlt : h + 1 < size) : tokenDest size h = h + 1 := by
  rw [tokenDest, Nat.add_mod_right, Nat.mod_eq_of_lt hlt]

theorem tokenDest_last (heq : h + 1 = size) : tokenDest size h = 0 := by
  rw [tokenDest, Nat.add_mod_right, heq, Nat.mod_self]

/-- Rank `h` has the token `c`, or has sent it to the next rank. -/
inductive Holder (size : Nat) (y : TokenNet) : Nat → Bool → Colour → Prop
  | held (h : Nat) (hlt : h < size) (hlocal : ∀ r, (y.st r).tokenIsLocal = decide (r = h))
      (hnet : ∀ a b, y.net a b = []) : Holder size y h false (y.st h).tokenBuf
  | sent (h : Nat) (c : Colour) (hlt : h < size) (hlocal : ∀ r, (y.st r).tokenIsLocal = false)
      (hnet : ∀ a b, y.net a b = if a = h ∧ b = tokenDest size h then [c] else []) :
      Holder size y h true c

/-! ## The operations -/

theorem Holder.congr (hh : Holder size y h sent c)
    (hlocal : ∀ r, (y'.st r).tokenIsLocal = (y.st r).tokenIsLocal)
    (hbuf : ∀ r, (y.st r).tokenIsLocal = true → (y'.st r).tokenBuf = (y.st r).tokenBuf)
    (hnet : y'.net = y.net) : Holder size y' h sent c := by
  cases hh with
  | held hlt hl hn =>
      rw [← hbuf h (by simp [hl])]
      exact .held h hlt (fun r => (hlocal r).trans (hl r)) (by rwa [hnet])
  | sent c hlt hl hn =>
      exact .sent h c hlt (fun r => (hlocal r).trans (hl r)) (by rwa [hnet])

/-- The colour `CIRCLE_check_for_term` gives the token of `r`. -/
def passed (y : TokenNet) (r : Nat) : Colour :=
  if r = 0 then .white else if (y.st r).tokenProc = .black then .black else (y.st r).tokenBuf

/-- What passing the token on does to its rank. -/
theorem passToken_st (y : TokenNet) (size : Nat) (abortFlag : Bool) (r : Nat) :
    (y.passToken size abortFlag r).st = Function.update y.st r
      { tokenIsLocal := (y.st r).tokenIsLocal && abortFlag, tokenProc := .white
        tokenBuf := y.passed r, tokenSendReq := (y.st r).tokenSendReq || !abortFlag } := by
  cases abortFlag <;> simp [passToken, tokenIssend, set, passed]

theorem passToken_net (y : TokenNet) (size : Nat) (abortFlag : Bool) (r : Nat) :
    (y.passToken size abortFlag r).net =
      if abortFlag then y.net else y.net.push r (tokenDest size r) (y.passed r) := by
  cases abortFlag <;> simp [passToken, tokenIssend, set, passed]

/-- The rank that has the token passes it on, unless it sees an abort. -/
theorem Holder.passToken (hh : Holder size y h false c) (abortFlag : Bool) :
    Holder size (y.passToken size abortFlag h) h (!abortFlag) (y.passed h) := by
  cases hh with
  | held hlt hl hn =>
      have hst := y.passToken_st size abortFlag h
      have hnet := y.passToken_net size abortFlag h
      cases abortFlag with
      | true =>
          have hheld := Holder.held (y := y.passToken size true h) h hlt (fun r => by
            by_cases hr : r = h
            · subst hr
              simp [hst, hl]
            · simp [hst, hl, hr]) (by simpa [hnet] using hn)
          simpa [hst] using hheld
      | false =>
          refine .sent h _ hlt (fun r => ?_) fun a b => ?_
          · by_cases hr : r = h
            · subst hr
              simp [hst]
            · simp [hst, hl, hr]
          · rw [hnet, if_neg (by decide)]
            by_cases hab : a = h ∧ b = tokenDest size h
            · obtain ⟨rfl, rfl⟩ := hab
              simp [hn]
            · rw [Chan.push_ne _ _ hab, hn, if_neg hab]

/-- A token in flight to `r` was sent by the rank before it. -/
theorem Holder.of_arrival (hh : Holder size y h sent c) (hm : y.net (tokenSrc size r) r ≠ []) :
    sent = true ∧ tokenSrc size r = h ∧ r = tokenDest size h ∧ y.net (tokenSrc size r) r = [c] := by
  cases hh with
  | held hlt hl hn => exact absurd (hn _ _) hm
  | sent c hlt hl hn =>
      rw [hn] at hm ⊢
      by_cases hab : tokenSrc size r = h ∧ r = tokenDest size h
      · exact ⟨rfl, hab.1, hab.2, if_pos hab⟩
      · exact absurd (if_neg hab) hm

/-- The terminate token goes on from `r`. -/
def forwards (size : Nat) (abortFlag : Bool) (r : Nat) : Bool :=
  decide (r < size - 1) && !abortFlag

/-- What receiving the token `c` does to its rank. -/
theorem tokenRecv_st (y : TokenNet) (size : Nat) (abortFlag : Bool) (r : Nat) (c : Colour) :
    (y.tokenRecv size abortFlag r c).st = Function.update y.st r
      (if terminates r c then
        { tokenIsLocal := !forwards size abortFlag r, tokenProc := .terminate
          tokenBuf := .terminate, tokenSendReq := forwards size abortFlag r }
      else arrived (y.st r) c) := by
  cases ht : terminates r c with
  | false => simp [tokenRecv, ht]
  | true =>
      by_cases hr : r < size - 1 <;> cases abortFlag <;>
      simp [tokenRecv, ht, forwardTerminate, tokenIssend, forwards, set, arrived, hr]

theorem tokenRecv_net (y : TokenNet) (size : Nat) (abortFlag : Bool) (r : Nat) (c : Colour) :
    (y.tokenRecv size abortFlag r c).net =
      if terminates r c && forwards size abortFlag r then
        (y.net.pop (tokenSrc size r) r).push r (tokenDest size r) .terminate
      else y.net.pop (tokenSrc size r) r := by
  cases ht : terminates r c with
  | false => simp [tokenRecv, ht]
  | true =>
      by_cases hr : r < size - 1 <;> cases abortFlag <;>
      simp [tokenRecv, ht, forwardTerminate, tokenIssend, forwards, set, arrived, hr]

/-- The rank that receives the token has it, or has sent `TERMINATE` on. -/
theorem Holder.tokenRecv (hh : Holder size y h true c) (hlt : r < size)
    (hsrc : tokenSrc size r = h) (hdest : r = tokenDest size h) (abortFlag : Bool) :
    if terminates r c then
      Holder size (y.tokenRecv size abortFlag r c) r (forwards size abortFlag r) .terminate
    else Holder size (y.tokenRecv size abortFlag r c) r false c := by
  have hst := y.tokenRecv_st size abortFlag r c
  have hnet := y.tokenRecv_net size abortFlag r c
  cases hh with
  | sent c _ hl hn =>
      have hpop : ∀ a b, y.net.pop (tokenSrc size r) r a b = [] := by
        intro a b
        by_cases hab : a = tokenSrc size r ∧ b = r
        · obtain ⟨rfl, rfl⟩ := hab
          rw [Chan.pop_self, hn]
          split <;> rfl
        · rw [Chan.pop_ne _ hab, hn,
            if_neg fun h => hab ⟨h.1.trans hsrc.symm, h.2.trans hdest.symm⟩]
      cases ht : terminates r c with
      | false =>
          rw [if_neg (by decide)]
          rw [ht, if_neg (by decide)] at hst
          have hheld := Holder.held (y := y.tokenRecv size abortFlag r c) r hlt (fun x => by
            by_cases hx : x = r
            · subst hx
              simp [hst, arrived]
            · simp [hst, hl, hx]) (by simpa [hnet, ht] using hpop)
          simpa [hst, arrived] using hheld
      | true =>
          rw [if_pos rfl]
          rw [ht, if_pos rfl] at hst
          cases hf : forwards size abortFlag r with
          | true =>
              refine .sent r _ hlt (fun x => ?_) fun a b => ?_
              · by_cases hx : x = r
                · subst hx
                  simp [hst, hf]
                · simp [hst, hl, hx]
              · rw [hnet, ht, hf, if_pos (by decide)]
                by_cases hab : a = r ∧ b = tokenDest size r
                · obtain ⟨rfl, rfl⟩ := hab
                  simp [hpop]
                · rw [Chan.push_ne _ _ hab, hpop, if_neg hab]
          | false =>
              have hheld := Holder.held (y := y.tokenRecv size abortFlag r c) r hlt (fun x => by
                by_cases hx : x = r
                · subst hx
                  simp [hst, hf]
                · simp [hst, hl, hx]) (by simpa [hnet, ht, hf] using hpop)
              simpa [hst] using hheld

end TokenNet

/-! ## The state of the ring -/

/-- The token `c` is with `h`, or on its way from `h` to the next rank. -/
structure Sys.RingPhase (job : Job) (s : Sys α) (h : Nat) (sent : Bool) (c : Colour) :
    Prop where
  holder : TokenNet.Holder job.size s.token h sent c
  terminated : ∀ r : Nat, (s.token.st r).tokenProc = .terminate ↔ c = .terminate ∧ r ≤ h
  forwards : sent = true → c = .terminate → h + 1 < job.size
  begun : ∀ r : Nat, r ≤ h → 0 < s.inv r

/-- There is no token yet. -/
structure Sys.RingAbsent (s : Sys α) : Prop where
  not_begun : s.inv 0 = 0
  not_local : ∀ r, (s.token.st r).tokenIsLocal = false
  net_eq : ∀ a b, s.token.net a b = []
  not_terminated : ∀ r, (s.token.st r).tokenProc ≠ .terminate

/-- The token is `c`, and has been passed on by `pos` ranks in this round. -/
def Sys.TokenAt (job : Job) (s : Sys α) (pos : Nat) (c : Colour) : Prop :=
  (s.RingAbsent ∧ pos = 0 ∧ c = .black) ∨
    ∃ h sent, s.RingPhase job h sent c ∧ pos = h + sent.toNat

/-- The ring during one invocation. -/
structure Sys.Ring (job : Job) (s : Sys α) : Prop where
  fresh : ∀ r, s.inv r = 0 → s.token.st r = {}
  stage : ∀ r, (s.token.st r).tokenProc = .terminate ↔ s.stage r ≠ .main ∧ 0 < s.inv r
  token : ∃ pos c, s.TokenAt job pos c

theorem ring_start (queue : Rank → List α) (abortFlag : Rank → Bool)
    (input : Rank → ReduceInput) (enqueued : List α) :
    (Sys.start queue abortFlag input enqueued).Ring job where
  fresh _ _ := rfl
  stage _ := by simp [Sys.start]
  token := ⟨0, .black, .inl ⟨⟨rfl, fun _ => rfl, fun _ _ => rfl, fun _ => by simp [Sys.start]⟩,
    rfl, rfl⟩⟩

/-- Ranks may turn black, or forget a send, without a move of the token. -/
structure Sys.SameToken (s t : Sys α) : Prop where
  inv_eq : t.inv = s.inv
  local_eq : ∀ r, (t.token.st r).tokenIsLocal = (s.token.st r).tokenIsLocal
  buf_eq : ∀ r, (t.token.st r).tokenBuf = (s.token.st r).tokenBuf
  proc_iff : ∀ r, (t.token.st r).tokenProc = .terminate ↔ (s.token.st r).tokenProc = .terminate
  fresh : ∀ r, s.inv r = 0 → t.token.st r = s.token.st r
  net_eq : t.token.net = s.token.net

theorem Sys.SameToken.of_eq (hinv : t.inv = s.inv) (htoken : t.token = s.token) :
    s.SameToken t where
  inv_eq := hinv
  local_eq _ := by rw [htoken]
  buf_eq _ := by rw [htoken]
  proc_iff _ := by rw [htoken]
  fresh _ _ := by rw [htoken]
  net_eq := by rw [htoken]

theorem Sys.TokenAt.same {pos : Nat} {c : Colour} (ha : s.TokenAt job pos c)
    (hs : s.SameToken t) : t.TokenAt job pos c := by
  rcases ha with ⟨⟨h₁, h₂, h₃, h₄⟩, hpos, hc⟩ | ⟨h, sent, ⟨h₁, h₂, h₃, h₄⟩, hpos⟩
  · refine .inl ⟨⟨by rw [hs.inv_eq, h₁], fun r => (hs.local_eq r).trans (h₂ r), ?_, fun r => ?_⟩,
      hpos, hc⟩
    · rwa [hs.net_eq]
    · rw [Ne, hs.proc_iff]
      exact h₄ r
  · refine .inr ⟨h, sent, ⟨h₁.congr hs.local_eq (fun r _ => hs.buf_eq r) hs.net_eq, fun r => ?_,
      h₃, ?_⟩, hpos⟩
    · rw [hs.proc_iff, h₂]
    · rwa [hs.inv_eq]

/-- A step that does not move the token. -/
theorem Sys.Ring.same (hR : s.Ring job) (hs : s.SameToken t)
    (hstage : ∀ r, t.stage r = .main ↔ s.stage r = .main) : t.Ring job where
  fresh r hr := by
    rw [hs.inv_eq] at hr
    rw [hs.fresh r hr, hR.fresh r hr]
  stage r := by rw [hs.proc_iff, hR.stage, hs.inv_eq, Ne, Ne, hstage]
  token := by
    obtain ⟨pos, c, ha⟩ := hR.token
    exact ⟨pos, c, ha.same hs⟩

/-- A token in flight to a rank in the main loop is received there. -/
theorem Sys.RingPhase.arrive {h : Nat} {sent : Bool} {c : Colour}
    (hp : s.RingPhase job h sent c) (hm : s.token.RecvReady job.size r) :
    sent = true ∧ tokenSrc job.size r = h ∧ r = tokenDest job.size h ∧
      s.token.net (tokenSrc job.size r) r = [c] :=
  hp.holder.of_arrival hm.1

theorem Sys.RingAbsent.not_ready (ha : s.RingAbsent) : ¬s.token.RecvReady job.size r :=
  fun hm => hm.1 (ha.net_eq _ _)

/-- A rank in the main loop has not received `TERMINATE`. -/
theorem Sys.Ring.not_terminated (hR : s.Ring job) (hst : s.stage r = .main) :
    (s.token.st r).tokenProc ≠ .terminate := fun ht => ((hR.stage r).mp ht).1 hst

/-- The rank that has the token is the one the token is at. -/
theorem Sys.RingPhase.pass {h : Nat} {sent : Bool} {c : Colour} (hp : s.RingPhase job h sent c)
    (hlocal : (s.token.st r).tokenIsLocal = true) :
    h = r ∧ sent = false ∧ (s.token.st r).tokenBuf = c := by
  obtain ⟨hholder, _, _, _⟩ := hp
  cases hholder with
  | held hlt hl hn =>
      rw [hl, decide_eq_true_eq] at hlocal
      subst hlocal
      exact ⟨rfl, rfl, rfl⟩
  | sent c hlt hl hn => exact absurd ((hl r).symm.trans hlocal) (by decide)

theorem Sys.TokenAt.of_local {pos : Nat} {c : Colour} (ha : s.TokenAt job pos c)
    (hlocal : (s.token.st r).tokenIsLocal = true) :
    s.RingPhase job r false c ∧ pos = r ∧ (s.token.st r).tokenBuf = c := by
  rcases ha with ⟨ha, _⟩ | ⟨h, sent, hp, hpos⟩
  · exact absurd ((ha.not_local r).symm.trans hlocal) (by decide)
  · obtain ⟨rfl, rfl, hbuf⟩ := hp.pass hlocal
    exact ⟨hp, hpos, hbuf⟩

theorem Sys.TokenAt.of_ready {pos : Nat} {c : Colour} (ha : s.TokenAt job pos c)
    (hm : s.token.RecvReady job.size r) :
    ∃ h, s.RingPhase job h true c ∧ pos = h + 1 ∧ tokenSrc job.size r = h ∧
      r = tokenDest job.size h ∧ s.token.net (tokenSrc job.size r) r = [c] := by
  rcases ha with ⟨ha, _⟩ | ⟨h, sent, hp, hpos⟩
  · exact absurd hm ha.not_ready
  · obtain ⟨rfl, hrest⟩ := hp.arrive hm
    exact ⟨h, hp, hpos, hrest⟩

theorem TokenNet.passed_ne_terminate {y : TokenNet} (hb : (y.st r).tokenBuf ≠ .terminate) :
    y.passed r ≠ .terminate := by
  unfold passed
  split
  · simp
  · split
    · simp
    · exact hb

/-- In the main loop `CIRCLE_check_for_term` passes the token on, receives it, or does
neither. -/
theorem token_event {hit : Bool} (he : s.Enabled job (.token r hit)) (hR : s.Ring job)
    (hst : s.stage r = .main) :
    ((s.token.st r).tokenIsLocal = true ∧ hit = false ∧
        s.token.checkForTerm job.size (s.abortFlag r) r
          (if hit then (s.token.net (tokenSrc job.size r) r).head? else none) =
          s.token.passToken job.size (s.abortFlag r) r) ∨
      (hit = true ∧ s.token.RecvReady job.size r ∧ ∀ c,
        s.token.net (tokenSrc job.size r) r = [c] →
        s.token.checkForTerm job.size (s.abortFlag r) r
          (if hit then (s.token.net (tokenSrc job.size r) r).head? else none) =
          s.token.tokenRecv job.size (s.abortFlag r) r c) ∨
      ((s.token.st r).tokenIsLocal = false ∧ hit = false ∧
        s.token.checkForTerm job.size (s.abortFlag r) r
          (if hit then (s.token.net (tokenSrc job.size r) r).head? else none) = s.token) := by
  have hproc := hR.not_terminated hst
  cases hit with
  | true =>
      obtain ⟨_, hhit⟩ := he
      obtain ⟨_, hlocal, hready⟩ := hhit rfl
      refine .inr (.inl ⟨rfl, hready, fun c hc => ?_⟩)
      simp [TokenNet.checkForTerm, hproc, hlocal, hc]
  | false =>
      cases hlocal : (s.token.st r).tokenIsLocal with
      | true => exact .inl ⟨rfl, rfl, by simp [TokenNet.checkForTerm, hproc, hlocal]⟩
      | false => exact .inr (.inr ⟨rfl, rfl, by simp [TokenNet.checkForTerm, hproc, hlocal]⟩)

/-- The token passes, or stays where it is if its rank sees an abort. -/
theorem Sys.RingPhase.passToken {h : Nat} {c : Colour} {abortFlag : Bool}
    (hp : s.RingPhase job h false c) (hproc : (s.token.st h).tokenProc ≠ .terminate)
    (htoken : t.token = s.token.passToken job.size abortFlag h) (hinv : t.inv = s.inv) :
    t.RingPhase job h (!abortFlag) (s.token.passed h) := by
  have hlocal : (s.token.st h).tokenBuf = c := by
    cases hp.holder with
    | held => rfl
  have hc : c ≠ .terminate := fun hc => hproc ((hp.terminated h).mpr ⟨hc, Nat.le_refl _⟩)
  have hpassed : s.token.passed h ≠ .terminate := TokenNet.passed_ne_terminate (hlocal ▸ hc)
  refine ⟨?_, fun x => ?_, fun _ hterm => absurd hterm hpassed, by rw [hinv]; exact hp.begun⟩
  · rw [htoken]
    exact hp.holder.passToken _
  · have hx := hp.terminated x
    simp only [hc, false_and, iff_false] at hx
    simp only [hpassed, false_and, iff_false]
    rw [htoken, TokenNet.passToken_st]
    by_cases hxh : x = h
    · subst hxh
      simp
    · rwa [Function.update_of_ne hxh]

/-- The rank after the one that sent the token. -/
theorem tokenDest_cases {size h : Nat} (hlt : h < size) (hdest : r = tokenDest size h) :
    (h + 1 < size ∧ r = h + 1) ∨ (h + 1 = size ∧ r = 0) := by
  by_cases hn : h + 1 < size
  · exact .inl ⟨hn, hdest.trans (TokenNet.tokenDest_of_lt hn)⟩
  · have heq : h + 1 = size := by omega
    exact .inr ⟨heq, hdest.trans (TokenNet.tokenDest_last heq)⟩

theorem Sys.RingPhase.lt {h : Nat} {sent : Bool} {c : Colour} (hp : s.RingPhase job h sent c) :
    h < job.size := by
  cases hp.holder <;> assumption

/-- The token arrives and starts no termination. -/
theorem Sys.RingPhase.tokenRecv {h : Nat} {c : Colour} {abortFlag : Bool}
    (hp : s.RingPhase job h true c) (hlt : r < job.size) (hsrc : tokenSrc job.size r = h)
    (hdest : r = tokenDest job.size h) (hbegun : 0 < s.inv r)
    (hterm : TokenNet.terminates r c = false)
    (htoken : t.token = s.token.tokenRecv job.size abortFlag r c) (hinv : t.inv = s.inv) :
    t.RingPhase job r false c := by
  have hc : c ≠ .terminate := by
    rintro rfl
    simp [TokenNet.terminates] at hterm
  have hholder := hp.holder.tokenRecv hlt hsrc hdest abortFlag
  rw [hterm, if_neg (by decide)] at hholder
  refine ⟨htoken ▸ hholder, fun x => ?_, (fun hs => by cases hs), fun x hx => ?_⟩
  · have hx := hp.terminated x
    simp only [hc, false_and, iff_false] at hx ⊢
    rw [htoken, TokenNet.tokenRecv_st, hterm, if_neg (by decide)]
    by_cases hxr : x = r
    · subst hxr
      rw [Function.update_self]
      simp only [TokenNet.arrived]
      split
      · simp
      · exact hx
    · rwa [Function.update_of_ne hxr]
  · rw [hinv]
    by_cases hxr : x = r
    · exact hxr ▸ hbegun
    · refine hp.begun x ?_
      rcases tokenDest_cases hp.lt hdest with ⟨_, rfl⟩ | ⟨_, rfl⟩ <;> omega

/-- The token arrives and ends the main loop of its rank. -/
theorem Sys.RingPhase.terminate {h : Nat} {c : Colour} {abortFlag : Bool}
    (hp : s.RingPhase job h true c) (hlt : r < job.size) (hsrc : tokenSrc job.size r = h)
    (hdest : r = tokenDest job.size h) (hbegun : 0 < s.inv r)
    (hproc : (s.token.st r).tokenProc ≠ .terminate) (hterm : TokenNet.terminates r c = true)
    (htoken : t.token = s.token.tokenRecv job.size abortFlag r c) (hinv : t.inv = s.inv) :
    t.RingPhase job r (TokenNet.forwards job.size abortFlag r) .terminate := by
  have hholder := hp.holder.tokenRecv hlt hsrc hdest abortFlag
  rw [hterm, if_pos rfl] at hholder
  -- the ranks that were terminated before are those below `r`
  have hbelow : ∀ x : Nat, (s.token.st x).tokenProc = .terminate ↔ x < r := by
    intro x
    rw [hp.terminated]
    rcases tokenDest_cases hp.lt hdest with ⟨hn, rfl⟩ | ⟨hn, rfl⟩
    · have hc : c = .terminate := by simpa [TokenNet.terminates] using hterm
      simp only [hc, true_and]
      omega
    · have hc : c ≠ .terminate := fun hc => by
        have := hp.forwards rfl hc
        omega
      simp [hc]
  refine ⟨htoken ▸ hholder, fun x => ?_, fun hf _ => ?_, fun x hx => ?_⟩
  · rw [htoken, TokenNet.tokenRecv_st, hterm, if_pos rfl]
    by_cases hxr : x = r
    · subst hxr
      simp
    · rw [Function.update_of_ne hxr, hbelow]
      simp only [true_and]
      omega
  · simp only [TokenNet.forwards, Bool.and_eq_true, decide_eq_true_eq] at hf
    omega
  · rw [hinv]
    by_cases hxr : x = r
    · exact hxr ▸ hbegun
    · refine hp.begun x ?_
      rcases tokenDest_cases hp.lt hdest with ⟨_, rfl⟩ | ⟨_, rfl⟩ <;> omega

theorem ring_token {hit : Bool} (he : s.Enabled job (.token r hit)) (hO : s.Once job)
    (hR : s.Ring job) : (s.next job (.token r hit)).Ring job := by
  have hok := hO.coherent.ok r
  have hlt : r < job.size := hok.rank_lt (e := .token r hit) he
  have hat := hok.position
  rw [he.1] at hat
  have hst : s.stage r = .main := hat.1
  have hinv : s.inv r = 1 := hO.inv_eq (by simp [hst])
  have hpos : 0 < s.inv r := by omega
  have hproc := hR.not_terminated hst
  -- the fields of the other ranks stay, so the assertions about one rank concern `r` only
  have hframe : ∀ x, x ≠ r → (s.next job (.token r hit)).token.st x = s.token.st x ∧
      (s.next job (.token r hit)).stage x = s.stage x := by
    intro x hx
    have hloc : (s.next job (.token r hit)).loc x = s.loc x := loc_next_of_ne hx
    exact ⟨congrArg Loc.token hloc, congrArg Loc.stage hloc⟩
  constructor
  · intro x hx
    have hxr : x ≠ r := by
      rintro rfl
      exact absurd (hinv.symm.trans hx) (by decide)
    rw [(hframe x hxr).1]
    exact hR.fresh x hx
  · intro x
    by_cases hxr : x = r
    · subst hxr
      simp [Sys.next, hst, hpos]
    · rw [(hframe x hxr).1, (hframe x hxr).2]
      exact hR.stage x
  · obtain ⟨pos, c, ha⟩ := hR.token
    obtain ⟨hlocal, _, hy⟩ | ⟨_, hready, hy⟩ | ⟨_, _, hy⟩ := token_event he hR hst
    · obtain ⟨hp, _, _⟩ := ha.of_local hlocal
      exact ⟨_, _, .inr ⟨_, _, hp.passToken hproc hy rfl, rfl⟩⟩
    · obtain ⟨h, hp, _, hsrc, hdest, hnet⟩ := ha.of_ready hready
      cases hterm : TokenNet.terminates r c with
      | false =>
          exact ⟨_, _, .inr ⟨_, _, hp.tokenRecv hlt hsrc hdest hpos hterm (hy c hnet) rfl, rfl⟩⟩
      | true =>
          exact ⟨_, _, .inr ⟨_, _, hp.terminate hlt hsrc hdest hpos hproc hterm (hy c hnet) rfl,
            rfl⟩⟩
    · exact ⟨pos, c, ha.same (.of_eq rfl hy)⟩

theorem TokenNet.blacken_st (y : TokenNet) (size : Nat) (r dest x : Rank) :
    ((y.blacken size r dest).st x).tokenIsLocal = (y.st x).tokenIsLocal ∧
      ((y.blacken size r dest).st x).tokenBuf = (y.st x).tokenBuf ∧
      ((y.blacken size r dest).st x).tokenSendReq = (y.st x).tokenSendReq ∧
      (x ≠ r → (y.blacken size r dest).st x = y.st x) ∧ (y.blacken size r dest).net = y.net := by
  unfold blacken
  split
  · by_cases hx : x = r
    · subst hx
      simp [set]
    · simp [set, hx]
  · simp

/-- The colour of a sender is not `TERMINATE`. -/
theorem TokenNet.blacken_proc (y : TokenNet) (size : Nat) (r dest : Rank)
    (h : (y.st r).tokenProc ≠ .terminate) :
    ((y.blacken size r dest).st r).tokenProc ≠ .terminate := by
  unfold blacken
  split
  · simp [set]
  · exact h

theorem begin_token_self {next : Option Rank} {ops : List (WorkOp α)} :
    (s.next job (.begin r next ops)).token.st r = { tokenIsLocal := decide (r = 0) } := by
  simp [Sys.next, TokenNet.init, TokenNet.set]

/-- A first call of `CIRCLE_begin` leaves the token fields, but on rank `0`. -/
theorem begin_token {next : Option Rank} {ops : List (WorkOp α)} (hfresh : s.token.st r = {})
    (h0 : x ≠ 0 ∨ r ≠ 0) : (s.next job (.begin r next ops)).token.st x = s.token.st x := by
  by_cases hx : x = r
  · subst hx
    rw [begin_token_self, hfresh, decide_eq_false (by omega)]
  · have hloc : (s.next job (.begin r next ops)).loc x = s.loc x := loc_next_of_ne hx
    exact congrArg Loc.token hloc

theorem tokenAt_begin {next : Option Rank} {ops : List (WorkOp α)} {pos : Nat} {c : Colour}
    (hf : s.inv r = 0) (hfresh : s.token.st r = {}) (ha : s.TokenAt job pos c) :
    (s.next job (.begin r next ops)).TokenAt job pos c := by
  have hinv : ∀ x, s.inv x ≤ (s.next job (.begin r next ops)).inv x := by
    intro x
    by_cases hx : x = r
    · subst hx
      simp [Sys.next]
    · simp [Sys.next, Function.update_of_ne hx]
  rcases ha with ⟨⟨h₁, h₂, h₃, h₄⟩, rfl, rfl⟩ | ⟨h, sent, hp, rfl⟩
  · by_cases hr : r = 0
    · -- rank `0` creates the token
      subst hr
      have hother : ∀ x, x ≠ 0 →
          (s.next job (.begin 0 next ops)).token.st x = s.token.st x := fun x hx =>
        begin_token hfresh (.inl hx)
      have hheld : TokenNet.Holder job.size (s.next job (.begin 0 next ops)).token 0 false _ :=
        .held 0 job.size_pos (fun x => by
          by_cases hx : x = 0
          · subst hx
            rw [begin_token_self]
          · rw [hother x hx, h₂, decide_eq_false hx]) h₃
      rw [begin_token_self] at hheld
      refine .inr ⟨0, false, ⟨hheld, fun x => ?_, (fun hs => by cases hs), fun x hx => ?_⟩, rfl⟩
      · by_cases hx : x = 0
        · subst hx
          rw [begin_token_self]
          simp
        · rw [hother x hx]
          simpa using h₄ x
      · obtain rfl : x = 0 := Nat.le_zero.mp hx
        simp [Sys.next]
    · have hsame : ∀ x, (s.next job (.begin r next ops)).token.st x = s.token.st x := fun x =>
        begin_token hfresh (.inr hr)
      refine .inl ⟨⟨?_, fun x => by rw [hsame, h₂], h₃, fun x => by rw [hsame]; exact h₄ x⟩, rfl,
        rfl⟩
      simpa [Sys.next, Function.update_of_ne (Ne.symm hr)] using h₁
  · have hr : r ≠ 0 := by
      rintro rfl
      exact absurd hf (Nat.ne_of_gt (hp.begun 0 (Nat.zero_le _)))
    have hsame : ∀ x, (s.next job (.begin r next ops)).token.st x = s.token.st x := fun x =>
      begin_token hfresh (.inr hr)
    have hholder : TokenNet.Holder job.size (s.next job (.begin r next ops)).token h sent c :=
      hp.holder.congr (fun x => by rw [hsame]) (fun x _ => by rw [hsame]) rfl
    exact .inr ⟨h, sent, ⟨hholder, fun x => by rw [hsame]; exact hp.terminated x, hp.forwards,
      fun x hx => (hp.begun x hx).trans_le (hinv x)⟩, rfl⟩

theorem ring_begin {next : Option Rank} {ops : List (WorkOp α)} (hf : s.inv r = 0)
    (hR : s.Ring job) : (s.next job (.begin r next ops)).Ring job := by
  have hfresh := hR.fresh r hf
  have hframe : ∀ x, x ≠ r → (s.next job (.begin r next ops)).token.st x = s.token.st x ∧
      (s.next job (.begin r next ops)).stage x = s.stage x ∧
      (s.next job (.begin r next ops)).inv x = s.inv x := by
    intro x hx
    have hloc : (s.next job (.begin r next ops)).loc x = s.loc x := loc_next_of_ne hx
    exact ⟨congrArg Loc.token hloc, congrArg Loc.stage hloc, congrArg Loc.inv hloc⟩
  constructor
  · intro x hx
    have hxr : x ≠ r := by
      rintro rfl
      simp [Sys.next] at hx
    obtain ⟨h₁, _, h₃⟩ := hframe x hxr
    rw [h₁]
    exact hR.fresh x (h₃ ▸ hx)
  · intro x
    by_cases hxr : x = r
    · subst hxr
      rw [begin_token_self]
      simp [Sys.next]
    · obtain ⟨h₁, h₂, h₃⟩ := hframe x hxr
      rw [h₁, h₂, h₃]
      exact hR.stage x
  · obtain ⟨pos, c, ha⟩ := hR.token
    exact ⟨pos, c, tokenAt_begin hf hfresh ha⟩

/-- A rank that sends may turn black, and the token stays where it is. -/
theorem sameToken_sendWork {count : Nat} (hproc : (s.token.st r).tokenProc ≠ .terminate)
    (hinv : 0 < s.inv r) : s.SameToken (s.next job (.sendWork r count)) := by
  by_cases hc : count = 0
  · exact .of_eq rfl (if_pos hc)
  · have hst := s.token.blacken_st job.size r ((s.work.requestors r).headD 0)
    have hnew : (s.next job (.sendWork r count)).token =
        s.token.blacken job.size r ((s.work.requestors r).headD 0) := if_neg hc
    constructor
    · rfl
    · intro x
      rw [hnew]
      exact (hst x).1
    · intro x
      rw [hnew]
      exact (hst x).2.1
    · intro x
      rw [hnew]
      by_cases hx : x = r
      · subst hx
        exact iff_of_false (s.token.blacken_proc _ _ _ hproc) hproc
      · rw [(hst x).2.2.2.1 hx]
    · intro x hx
      rw [hnew]
      refine (hst x).2.2.2.1 ?_
      rintro rfl
      exact absurd hx (Nat.ne_of_gt hinv)
    · rw [hnew]
      exact (hst r).2.2.2.2

theorem sameToken_testSend (hinv : 0 < s.inv r) :
    s.SameToken (s.next job (.tokenDrain r false true)) := by
  have hother : ∀ x, x ≠ r →
      (s.next job (.tokenDrain r false true)).token.st x = s.token.st x := fun x hx =>
    have hloc : (s.next job (.tokenDrain r false true)).loc x = s.loc x := loc_next_of_ne hx
    congrArg Loc.token hloc
  have hself : (s.next job (.tokenDrain r false true)).token.st r =
      { s.token.st r with tokenSendReq := false } := by
    simp [Sys.next, TokenNet.testSend, TokenNet.set]
  constructor
  · rfl
  · intro x
    by_cases hx : x = r
    · rw [hx, hself]
    · rw [hother x hx]
  · intro x
    by_cases hx : x = r
    · rw [hx, hself]
    · rw [hother x hx]
  · intro x
    by_cases hx : x = r
    · rw [hx, hself]
    · rw [hother x hx]
  · intro x hx
    refine hother x ?_
    rintro rfl
    exact absurd hx (Nat.ne_of_gt hinv)
  · rfl

/-- The step moves the token, or creates it. -/
def Event.MovesToken : Event α → Prop
  | .begin .. | .token .. => True
  | _ => False

/-- A rank that has left the main loop by the token receives none. -/
theorem Sys.Ring.not_ready (hR : s.Ring job) (hproc : (s.token.st r).tokenProc = .terminate) :
    ¬s.token.RecvReady job.size r := by
  intro hready
  -- the token is beyond the ranks that have terminated
  obtain ⟨pos, c, ha⟩ := hR.token
  obtain ⟨h, hp, _, _, hdest, _⟩ := ha.of_ready hready
  obtain ⟨hc, hle⟩ := (hp.terminated r).mp hproc
  have := hp.forwards rfl hc
  rcases tokenDest_cases hp.lt hdest with ⟨_, hr⟩ | ⟨_, hr⟩ <;> omega

/-- The other steps leave the token where it is. -/
theorem sameToken_next (he : s.Enabled job e) (hO : s.Once job) (hR : s.Ring job)
    (hmove : ¬e.MovesToken) : s.SameToken (s.next job e) := by
  have hat := (hO.coherent.ok e.rank).position
  cases e with
  | begin | token => exact absurd trivial hmove
  | sendWork r count =>
      rw [show s.pc (Event.sendWork r count).rank = _ from he.1] at hat
      have hst : s.stage r = .main := hat.1
      have hinv : s.inv r = 1 := hO.inv_eq (by simp [hst])
      exact sameToken_sendWork (hR.not_terminated hst) (by omega)
  | tokenDrain r hit done =>
      obtain ⟨hpc, hhit, _⟩ := he
      rw [show s.pc (Event.tokenDrain (α := α) r hit done).rank = _ from hpc] at hat
      have hst : s.stage r = .cleanup := hat.1
      have hinv : s.inv r = 1 := hO.inv_eq (by simp [hst])
      have hproc : (s.token.st r).tokenProc = .terminate :=
        (hR.stage r).mpr ⟨by simp [hst], by omega⟩
      cases hit with
      | true => exact absurd (hhit rfl) (hR.not_ready hproc)
      | false =>
          cases done with
          | false => exact .of_eq rfl rfl
          | true => exact sameToken_testSend (by omega)
  | _ => exact .of_eq rfl rfl

/-- With ring termination the other steps do not end a main loop. -/
theorem main_iff_next (ht : (job.opts 1).termTree = false) (he : s.Enabled job e)
    (hO : s.Once job) (hmove : ¬e.MovesToken) (x : Rank) :
    (s.next job e).stage x = .main ↔ s.stage x = .main := by
  have hat := (hO.coherent.ok e.rank).position
  -- no rank is in the termination allreduce
  have htree : ∀ x, s.stage x = .main → (job.opts (s.inv x)).termTree = true → False := by
    intro x hst htree
    rw [hO.inv_eq (by simp [hst])] at htree
    exact absurd (ht.symm.trans htree) (by decide)
  have hstage : ∀ {r : Rank} {st : Stage}, s.stage r ≠ .main → st ≠ .main →
      (Function.update s.stage r st x = .main ↔ s.stage x = .main) := by
    intro r st hr hst
    by_cases hx : x = r
    · subst hx
      simp [hr, hst]
    · rw [Function.update_of_ne hx]
  cases e with
  | begin | token => exact absurd trivial hmove
  | termUp r =>
      rw [show s.pc (Event.termUp (α := α) r).rank = _ from he] at hat
      exact (htree r hat.1 hat.2.2.1).elim
  | termDown r hit =>
      rw [show s.pc (Event.termDown (α := α) r hit).rank = _ from he.1] at hat
      exact (htree r hat.1 hat.2.2.1).elim
  | barrierUp r =>
      rw [show s.pc (Event.barrierUp (α := α) r).rank = _ from he] at hat
      have hst : s.stage r = .cleanup := hat.1
      exact hstage (by simp [hst]) (by split <;> simp [hst])
  | barrierDown r hit =>
      rw [show s.pc (Event.barrierDown (α := α) r hit).rank = _ from he.1] at hat
      have hst : s.stage r = .cleanup := hat.1
      exact hstage (by simp [hst]) (by split <;> simp [hst])
  | finish r =>
      rw [show s.pc (Event.finish (α := α) r).rank = _ from he] at hat
      have hst : s.stage r = .after := hat.1
      exact hstage (by simp [hst]) (by simp)
  | _ => exact Iff.rfl

theorem ring_next (ht : (job.opts 1).termTree = false) (he : s.Enabled job e)
    (hf : FirstOnly s e) (hO : s.Once job) (hR : s.Ring job) : (s.next job e).Ring job := by
  cases e with
  | begin r next ops => exact ring_begin hf hR
  | token r hit => exact ring_token he hO hR
  | _ => exact hR.same (sameToken_next he hO hR id) (main_iff_next ht he hO id)

theorem ring_of_run (ht : (job.opts 1).termTree = false) {es : List (Event α)}
    (hrun : job.once.Run s es t) (hO : s.Once job) (hR : s.Ring job) :
    t.Once job ∧ t.Ring job :=
  hrun.restrict_invariant (I := fun s => s.Once job ∧ s.Ring job)
    (fun _ _ ⟨hO, hR⟩ hE hF => ⟨once_next hE hF hO, ring_next ht hE hF hO hR⟩) ⟨hO, hR⟩

/-! ## One token -/

namespace TokenNet

variable {size : Nat} {y : TokenNet} {h : Nat} {sent : Bool} {c : Colour}

/-- The number of ranks that have a token. -/
def holders (y : TokenNet) (size : Nat) : Nat :=
  ∑ r ∈ Finset.range size, (y.st r).tokenIsLocal.toNat

/-- The number of tokens in flight. -/
def inFlight (y : TokenNet) (size : Nat) : Nat := y.net.totalWeight (fun _ => 1) size

theorem tokenDest_lt (hlt : h < size) : tokenDest size h < size :=
  Nat.mod_lt _ (Nat.zero_lt_of_lt hlt)

theorem Holder.count (hh : Holder size y h sent c) : y.holders size + y.inFlight size = 1 := by
  cases hh with
  | held hlt hl hn =>
      have hholders : y.holders size = 1 := by
        rw [holders, Finset.sum_eq_single_of_mem h (Finset.mem_range.mpr hlt) fun r _ hr => by
          simp [hl, hr]]
        simp [hl]
      have hflight : y.inFlight size = 0 := by
        simp [inFlight, Chan.totalWeight, Chan.outWeight, Chan.weight, hn]
      rw [hholders, hflight]
  | sent c hlt hl hn =>
      have hholders : y.holders size = 0 := by
        simp [holders, hl]
      have hflight : y.inFlight size = 1 := by
        have hdest := Finset.mem_range.mpr (tokenDest_lt hlt)
        rw [inFlight, Chan.totalWeight,
          Finset.sum_eq_single_of_mem h (Finset.mem_range.mpr hlt) fun a _ ha => by
            simp [Chan.outWeight, Chan.weight, hn, ha],
          Chan.outWeight, Finset.sum_eq_single_of_mem _ hdest fun b _ hb => by
            simp [Chan.weight, hn, hb]]
        simp [Chan.weight, hn]
      rw [hholders, hflight]

/-- While a rank has the token, none is in flight. -/
theorem Holder.net_eq_nil (hh : Holder size y h sent c) (hlocal : (y.st r).tokenIsLocal = true)
    (a b : Rank) : y.net a b = [] := by
  cases hh with
  | held _ _ hn => exact hn a b
  | sent _ _ hl _ => exact absurd ((hl r).symm.trans hlocal) (by decide)

/-- A token that arrives is the only one. -/
theorem Holder.pop_eq_nil (hh : Holder size y h sent c) (hm : y.net (tokenSrc size r) r ≠ [])
    (a b : Rank) : y.net.pop (tokenSrc size r) r a b = [] := by
  obtain ⟨rfl, hsrc, hdest, hc⟩ := hh.of_arrival hm
  by_cases hab : a = tokenSrc size r ∧ b = r
  · obtain ⟨rfl, rfl⟩ := hab
    simp [hc]
  · rw [Chan.pop_ne _ hab]
    cases hh with
    | sent c _ hl hn =>
        rw [hn, if_neg fun he => hab ⟨he.1.trans hsrc.symm, he.2.trans hdest.symm⟩]

end TokenNet

/-- The step writes `token_buf` of `x`. -/
def Sys.WritesToken (s : Sys α) : Event α → Rank → Prop
  | .begin r _ _, x => x = r
  | .token r hit, x =>
      x = r ∧ (s.token.st r).tokenProc ≠ .terminate ∧
        ((s.token.st r).tokenIsLocal = true ∨ hit = true)
  | .tokenDrain r hit _, x => x = r ∧ hit = true
  | _, _ => False

/-- The sends of `x` that are unmatched when the step writes `token_buf`.  A token that arrives is
received before the write. -/
def Sys.unmatched (job : Job) (s : Sys α) : Event α → Rank → List Colour
  | .token r true, x | .tokenDrain r true _, x =>
      s.token.net.pop (tokenSrc job.size r) r x (tokenDest job.size x)
  | _, x => s.token.net x (tokenDest job.size x)

/-- The other steps leave `token_buf` alone. -/
theorem tokenBuf_next (hw : ¬s.WritesToken e x) :
    ((s.next job e).token.st x).tokenBuf = (s.token.st x).tokenBuf := by
  cases e with
  | begin r next ops =>
      have hloc : (s.next job (.begin r next ops)).loc x = s.loc x := loc_next_of_ne hw
      rw [show (s.next job (.begin r next ops)).token.st x = s.token.st x from
        congrArg Loc.token hloc]
  | sendWork r count =>
      simp only [Sys.next]
      split
      · rfl
      · exact (s.token.blacken_st job.size r _ x).2.1
  | token r hit =>
      by_cases hx : x = r
      · subst hx
        by_cases hproc : (s.token.st x).tokenProc = .terminate
        · simp [Sys.next, TokenNet.checkForTerm, hproc]
        · have hnot : ¬((s.token.st x).tokenIsLocal = true ∨ hit = true) :=
            fun h => hw ⟨rfl, hproc, h⟩
          rw [not_or, Bool.not_eq_true, Bool.not_eq_true] at hnot
          simp [Sys.next, TokenNet.checkForTerm, hproc, hnot.1, hnot.2]
      · have hloc : (s.next job (.token r hit)).loc x = s.loc x := loc_next_of_ne hx
        rw [show (s.next job (.token r hit)).token.st x = s.token.st x from
          congrArg Loc.token hloc]
  | tokenDrain r hit done =>
      by_cases hx : x = r
      · subst hx
        have hhit : hit = false := by
          rw [Bool.eq_false_iff]
          exact fun h => hw ⟨rfl, h⟩
        subst hhit
        cases done <;> simp [Sys.next, TokenNet.testSend, TokenNet.set]
      · have hloc : (s.next job (.tokenDrain r hit done)).loc x = s.loc x := loc_next_of_ne hx
        rw [show (s.next job (.tokenDrain r hit done)).token.st x = s.token.st x from
          congrArg Loc.token hloc]
  | _ => rfl

/-- `token_buf` is written only when no send of it is unmatched. -/
theorem unmatched_eq_nil (he : s.Enabled job e) (hf : FirstOnly s e) (hR : s.Ring job)
    (hw : s.WritesToken e x) : s.unmatched job e x = [] := by
  obtain ⟨pos, c, ha⟩ := hR.token
  have hready : ∀ r, s.token.RecvReady job.size r →
      s.token.net.pop (tokenSrc job.size r) r r (tokenDest job.size r) = [] := by
    intro r hm
    obtain ⟨h, hp, _⟩ := ha.of_ready hm
    exact hp.holder.pop_eq_nil hm.1 _ _
  cases e with
  | begin r next ops =>
      have hxr : x = r := hw
      subst hxr
      have hinv : s.inv x = 0 := hf
      rcases ha with ⟨ha, _⟩ | ⟨h, sent, hp, _⟩
      · exact ha.net_eq _ _
      · have hne : x ≠ h := by
          rintro rfl
          exact absurd hinv (Nat.ne_of_gt (hp.begun x (Nat.le_refl x)))
        change s.token.net x (tokenDest job.size x) = []
        cases hp.holder with
        | held _ _ hn => exact hn _ _
        | sent _ _ _ hn => rw [hn, if_neg fun h => hne h.1]
  | token r hit =>
      obtain ⟨rfl, hproc, hor⟩ := hw
      cases hit with
      | true => exact hready x (he.2 rfl).2.2
      | false =>
          have hlocal : (s.token.st x).tokenIsLocal = true := hor.resolve_right (by decide)
          exact (ha.of_local hlocal).1.holder.net_eq_nil hlocal _ _
  | tokenDrain r hit done =>
      obtain ⟨rfl, rfl⟩ := hw
      exact hready x (he.2.1 rfl)
  | _ => exact hw.elim

/-- With ring termination, with or without an abort: there is one token from the time rank `0`
has started, a rank finds the token only if it does not have it, and then its own send is matched
and the wait for it returns, and `token_buf` is written only when no send of it is unmatched. -/
theorem token_unique (ht : (job.opts 1).termTree = false) {queue : Rank → List α}
    {abortFlag : Rank → Bool} {input : Rank → ReduceInput} {enqueued : List α}
    {es : List (Event α)}
    (hrun : job.once.Run (Sys.start queue abortFlag input enqueued) es s) :
    (0 < s.inv 0 → s.token.holders job.size + s.token.inFlight job.size = 1) ∧
      (∀ r, s.token.net (tokenSrc job.size r) r ≠ [] →
        (s.token.st r).tokenIsLocal = false ∧ s.token.RecvReady job.size r) ∧
      (∀ e r, job.once.Enabled s e → s.WritesToken e r → s.unmatched job e r = []) ∧
      ∀ e r, ¬s.WritesToken e r →
        ((s.next job e).token.st r).tokenBuf = (s.token.st r).tokenBuf := by
  obtain ⟨_, hR⟩ := ring_of_run ht hrun (once_start ..) (ring_start ..)
  refine ⟨fun hinv => ?_, fun r hm => ?_,
    fun e r he hw => unmatched_eq_nil he.1 he.2 hR hw, fun e r hw => tokenBuf_next hw⟩
  · obtain ⟨pos, c, ⟨ha, _⟩ | ⟨h, sent, hp, _⟩⟩ := hR.token
    · exact absurd ha.not_begun (Nat.ne_of_gt hinv)
    · exact hp.holder.count
  · obtain ⟨pos, c, ⟨ha, _⟩ | ⟨h, sent, hp, _⟩⟩ := hR.token
    · exact absurd (ha.net_eq _ _) hm
    · refine ⟨?_, hm, fun _ => hp.holder.pop_eq_nil hm _ _⟩
      by_contra hlocal
      exact hm (hp.holder.net_eq_nil (by simpa using hlocal) _ _)

/-- Rank `0` launches the token. -/
def launched : List (Event Nat) :=
  List.flatten
    [[.begin 0 (some 1) [], .begin 1 (some 0) []], passMain 0,
      [.requestSend 0 true (some 1), .checkForTerm 0, .token 0 false]]

theorem token_unique_launched :
    let s := ringPair.once.follow .fresh launched
    s.token.holders 2 + s.token.inFlight 2 = 1 ∧ s.token.RecvReady 2 1 :=
  have hrun : ringPair.once.Run .fresh launched (ringPair.once.follow .fresh launched) :=
    .of_admits (by decide +kernel)
  have h := token_unique rfl hrun
  ⟨h.1 (by decide +kernel), (h.2.1 1 (by decide +kernel)).2⟩

end Libcircle
