import Libcircle.Lib.Probe
import Libcircle.System.TokenRing

/-!
# When ring termination is sound

The token is a probe of the ranks (`Sys.probe`): a rank with items is active, and
a transfer in flight is a message.  While the token goes round, the probe keeps
its invariant, provided that no rank passes it on too early: not while a transfer
to that rank is unreceived, unless the token is black or will meet a black rank
(`PassesOn`).  A sender forgets its colour when the token leaves it, received or
not, so a token can overtake a transfer in flight (`ring_termination_fails`).
-/

namespace Libcircle

variable {α : Type*} {job : Job} {s t u : Sys α} {e : Event α} {r x d : Nat}

/-- A transfer of `r` to `d` is unreceived. -/
def WorkNet.unreceived (w : WorkNet α) (r d : Rank) : Bool :=
  (w.replies r d).any fun m => m.transfers ≠ 0

theorem WorkNet.unreceived_iff {w : WorkNet α} :
    w.unreceived r d = true ↔ ∃ k l, .items k l ∈ w.replies r d := by
  unfold unreceived
  rw [List.any_eq_true]
  constructor
  · rintro ⟨m, hm, ht⟩
    cases m with
    | items k l => exact ⟨k, l, hm⟩
    | noWork | abort => simp [Reply.transfers] at ht
  · rintro ⟨k, l, hm⟩
    exact ⟨_, hm, by simp [Reply.transfers]⟩

/-- The token as a probe: it is `c`, and was passed on by `pos` ranks in this round. -/
def Sys.probe (s : Sys α) (pos : Nat) (c : Colour) : Probe where
  pos := pos
  dirty := c = .black
  black r := (s.token.st r).tokenProc = .black
  active r := s.work.queue r ≠ []
  pending r d := s.work.unreceived r d = true

/-! ## The condition -/

/-- Rank `r` passes on a black token. -/
def TokenNet.PassesBlack (x : TokenNet) (r : Rank) : Prop :=
  r ≠ 0 ∧ ((x.st r).tokenBuf = .black ∨ (x.st r).tokenProc = .black)

instance (x : TokenNet) (r : Rank) : Decidable (x.PassesBlack r) :=
  inferInstanceAs (Decidable (_ ∧ _))

/-- A rank passes the token on only when no transfer to it is unreceived, or the token is black,
or a later rank is. -/
def PassesOn (job : Job) (s : Sys α) : Event α → Prop
  | .token r _ =>
      (s.token.st r).tokenIsLocal = true →
        s.token.PassesBlack r ∨ (∃ x, x < job.size ∧ r < x ∧ (s.token.st x).tokenProc = .black) ∨
          ∀ d, d < job.size → s.work.unreceived d r = false
  | _ => True

/-- No abort has reached any rank. -/
def Sys.NoAbort (job : Job) (s : Sys α) : Prop := ∀ r, r < job.size → s.abortFlag r = false

instance (s : Sys α) : Decidable (s.NoAbort job) :=
  inferInstanceAs (Decidable (∀ r, r < job.size → s.abortFlag r = false))

instance (s : Sys α) : ∀ e, Decidable (PassesOn job s e)
  | .token .. => inferInstanceAs (Decidable (_ = _ → _ ∨ (∃ x, x < job.size ∧ _) ∨
      ∀ d, d < job.size → _))
  | .begin .. | .workreq .. | .workreqDone .. | .sendWork .. | .sendNoWork ..
  | .workreceipt .. | .workreceiptDone .. | .worksend .. | .worksendDone .. | .abortStart ..
  | .abortRequest .. | .abortReplies .. | .reduceSkip .. | .reduceResume .. | .reduceBegin ..
  | .reduceReply .. | .reduceDone .. | .requestSkip .. | .requestReply .. | .requestSend ..
  | .requestNone .. | .process .. | .checkForTerm .. | .termReply .. | .termRepliesDone ..
  | .termUp .. | .termDown .. | .barrierStart .. | .barrierReply .. | .barrierUp ..
  | .barrierDown .. | .tokenDrain .. | .worksendWait .. | .reduceSync .. | .reduceSyncReply ..
  | .reduceSyncDone .. | .abortReduceReply .. | .abortReduceUp .. | .abortReduceDown ..
  | .finish .. => .isTrue trivial

/-- A step of the first invocation that no abort has reached, with `PassesOn`. -/
def RingStep (job : Job) (s : Sys α) (e : Event α) : Prop :=
  FirstOnly s e ∧ s.NoAbort job ∧ PassesOn job s e

instance (s : Sys α) (e : Event α) : Decidable (RingStep job s e) :=
  inferInstanceAs (Decidable (_ ∧ _ ∧ _))

theorem TokenNet.PassesBlack.passed {x : TokenNet} (h : x.PassesBlack r) :
    x.passed r = .black := by
  obtain ⟨h0, hb | hb⟩ := h <;> simp [TokenNet.passed, h0, hb]

/-! ## The two phases -/

/-- No rank has received `TERMINATE`. -/
structure Sys.Circulating (job : Job) (s : Sys α) : Prop where
  not_terminated : ∀ r, (s.token.st r).tokenProc ≠ .terminate
  probe : ∃ pos c, s.TokenAt job pos c ∧ (s.probe pos c).Inv job.size

/-- No rank has items, and none are in flight. -/
structure Sys.Exhausted (job : Job) (s : Sys α) : Prop where
  begun : ∀ r, r < job.size → 0 < s.inv r
  queue_nil : ∀ r, r < job.size → s.work.queue r = []
  none_in_flight : ∀ r d, s.work.unreceived r d = false

theorem circulating_start (queue : Rank → List α) (abortFlag : Rank → Bool)
    (input : Rank → ReduceInput) (enqueued : List α) :
    (Sys.start queue abortFlag input enqueued).Circulating job where
  not_terminated _ := by simp [Sys.start]
  probe := by
    refine ⟨0, .black, .inl ⟨⟨rfl, fun _ => rfl, fun _ _ => rfl, fun _ => by simp [Sys.start]⟩,
      rfl, rfl⟩, .restart rfl⟩

/-- A step that moves neither the token nor items. -/
theorem Sys.Circulating.same (h : s.Circulating job) (hs : s.SameToken t)
    (hblack : ∀ r, (s.token.st r).tokenProc = .black → (t.token.st r).tokenProc = .black)
    (hqueue : ∀ r, t.work.queue r ≠ [] → s.work.queue r ≠ [])
    (hreplies : ∀ r d, t.work.unreceived r d = true → s.work.unreceived r d = true) :
    t.Circulating job where
  not_terminated r := by
    rw [Ne, hs.proc_iff]
    exact h.not_terminated r
  probe := by
    obtain ⟨pos, c, ha, hinv⟩ := h.probe
    refine ⟨pos, c, ha.same hs, hinv.rest rfl rfl (fun r hr => ?_) hqueue hreplies⟩
    simp only [Sys.probe, decide_eq_true_eq] at hr ⊢
    exact hblack r hr

/-- What a step that pushes one reply without items leaves unreceived. -/
theorem WorkNet.unreceived_push {w w' : WorkNet α} {m : Reply α} (hm : m.transfers = 0)
    (hreplies : w'.replies = w.replies.push r d m) {a b : Rank} (h : w'.unreceived a b = true) :
    w.unreceived a b = true := by
  rw [unreceived_iff] at h ⊢
  obtain ⟨k, l, hkl⟩ := h
  rw [hreplies, Chan.mem_push] at hkl
  rcases hkl with hkl | ⟨_, _, hkl⟩
  · exact ⟨k, l, hkl⟩
  · rw [← hkl] at hm
    cases hm

theorem WorkNet.unreceived_pop {w w' : WorkNet α} (hreplies : w'.replies = w.replies.pop r d)
    {a b : Rank} (h : w'.unreceived a b = true) : w.unreceived a b = true := by
  rw [unreceived_iff] at h ⊢
  obtain ⟨k, l, hkl⟩ := h
  rw [hreplies] at hkl
  exact ⟨k, l, Chan.mem_of_mem_pop _ hkl⟩

/-- Transfers are sent to ranks of the communicator. -/
theorem lt_of_unreceived {size : Nat} {w : WorkNet α} (hm : w.Matched size)
    (h : w.unreceived r d = true) : d < size := by
  obtain ⟨k, l, hkl⟩ := WorkNet.unreceived_iff.mp h
  exact (hm.awaits_lt _ _ (hm.awaits_of_reply (List.ne_nil_of_mem hkl))).1

theorem lt_of_sent {size : Nat} {w : WorkNet α} (hm : w.Matched size)
    (h : w.unreceived r d = true) : r < size := by
  obtain ⟨k, l, hkl⟩ := WorkNet.unreceived_iff.mp h
  exact (hm.awaits_lt _ _ (hm.awaits_of_reply (List.ne_nil_of_mem hkl))).2.1

/-! ## The steps -/

/-- The reply that `r` receives. -/
theorem reply_mem {sent : Bool} (he : s.Enabled job (.requestReply r sent)) :
    s.reply r ∈ s.work.replies (s.work.request r).workRequestedRank r := by
  obtain ⟨m, ms, hms⟩ := List.exists_cons_of_ne_nil he.2.2.2
  simp [Sys.reply, hms]

theorem circulating_token {hit : Bool} (he : s.Enabled job (.token r hit))
    (hC : RingStep job s (.token r hit)) (hO : s.Once job) (hR : s.Ring job)
    (h : s.Circulating job) :
    (s.next job (.token r hit)).Circulating job ∨ (s.next job (.token r hit)).Exhausted job := by
  obtain ⟨_, habort, hpass⟩ := hC
  have hok := hO.coherent.ok r
  have hlt : r < job.size := hok.rank_lt (e := .token r hit) he
  have hat := hok.position
  rw [he.1] at hat
  have hst : s.stage r = .main := hat.1
  have hpos : 0 < s.inv r := by
    rw [hO.inv_eq (by simp [hst])]
    decide
  have hflag := habort r hlt
  have hpassive : s.work.queue r = [] :=
    hat.2.2.2.resolve_right fun ha => absurd (hflag.symm.trans ha) (by decide)
  obtain ⟨hnot, pos, c, ha, hinv⟩ := h
  have hother : ∀ x, x ≠ r → (s.next job (.token r hit)).token.st x = s.token.st x :=
    fun x hx =>
      have hloc : (s.next job (.token r hit)).loc x = s.loc x := loc_next_of_ne hx
      congrArg Loc.token hloc
  obtain ⟨hlocal, _, hy⟩ | ⟨_, hready, hy⟩ | ⟨_, _, hy⟩ := token_event he hR hst
  · -- `r` passes the token on
    left
    have htoken : (s.next job (.token r hit)).token = s.token.passToken job.size false r := by
      rw [← hflag]
      exact hy
    obtain ⟨hp, rfl, hbuf⟩ := ha.of_local hlocal
    have hc : c ≠ .terminate := fun hc => hnot pos ((hp.terminated pos).mpr ⟨hc, Nat.le_refl _⟩)
    have hself : ((s.next job (.token pos hit)).token.st pos).tokenProc = .white := by
      rw [htoken, TokenNet.passToken_st]
      simp
    refine ⟨fun x => ?_, pos + 1, s.token.passed pos,
      .inr ⟨_, _, hp.passToken (hnot pos) htoken rfl, rfl⟩, ?_⟩
    · by_cases hx : x = pos
      · rw [hx, hself]
        decide
      · rw [hother x hx]
        exact hnot x
    · have hmet := hpass hlocal
      refine hinv.leave (by simp [Sys.probe, hpassive]) rfl ?_ ?_ (fun _ hx => hx)
        (fun _ _ hx => hx) ?_
      · simp only [Sys.probe, TokenNet.passed, hbuf]
        by_cases h0 : pos = 0
        · simp [h0]
        · by_cases hb : (s.token.st pos).tokenProc = .black <;> simp [h0, hb]
      · intro x hx hb
        simp only [Sys.probe, hother x hx] at hb ⊢
        exact hb
      · rcases hmet with hblack | ⟨x, hx, hrx, hb⟩ | hnone
        · exact .inl (by simp [Sys.probe, hblack.passed])
        · refine .inr (.inl ⟨x, hrx, hx, ?_⟩)
          have hne : x ≠ pos := Nat.ne_of_gt hrx
          simp only [Sys.probe, hother x hne, hb, decide_true]
        · refine .inr (.inr fun x hx => ?_)
          have hlt_x := lt_of_sent hO.coherent.matched hx
          exact absurd ((hnone x hlt_x).symm.trans hx) (by decide)
  · -- `r` receives the token
    obtain ⟨h, hp, rfl, hsrc, hdest, hnet⟩ := ha.of_ready hready
    have hc : c ≠ .terminate := fun hc => hnot h ((hp.terminated h).mpr ⟨hc, Nat.le_refl _⟩)
    have htoken : (s.next job (.token r hit)).token =
        s.token.tokenRecv job.size (s.abortFlag r) r c := hy c hnet
    have hself : TokenNet.terminates r c = false →
        (s.next job (.token r hit)).token.st r = TokenNet.arrived (s.token.st r) c := by
      intro hterm
      rw [htoken, TokenNet.tokenRecv_st, hterm, if_neg (by decide), Function.update_self]
    have hnot' : TokenNet.terminates r c = false →
        ∀ x, ((s.next job (.token r hit)).token.st x).tokenProc ≠ .terminate := by
      intro hterm x
      by_cases hx : x = r
      · subst hx
        rw [hself hterm]
        simp only [TokenNet.arrived]
        split
        · simp
        · exact hnot x
      · rw [hother x hx]
        exact hnot x
    rcases tokenDest_cases hp.lt hdest with ⟨hlast, rfl⟩ | ⟨hlast, rfl⟩
    · have hterm : TokenNet.terminates (h + 1) c = false := by simp [TokenNet.terminates, hc]
      have hp' := hp.tokenRecv hlt hsrc hdest hpos hterm htoken rfl
      refine .inl ⟨hnot' hterm, h + 1, c, .inr ⟨_, _, hp', rfl⟩, ?_⟩
      by_cases hb : c = .black
      · exact .absorb (by simp [Sys.probe, hb])
      · refine hinv.rest rfl rfl (fun x hbx => ?_) (fun _ hx => hx) fun _ _ hx => hx
        by_cases hx : x = h + 1
        · subst hx
          simpa [Sys.probe, hself hterm, TokenNet.arrived, hb] using hbx
        · simp only [Sys.probe, hother x hx] at hbx ⊢
          exact hbx
    · cases c with
      | white =>
          -- the probe has come back clean
          have hquiet := hinv.quiet hlast rfl
          refine .inr ⟨fun x hx => hp.begun x (by omega), fun x hx => ?_, fun x y => ?_⟩
          · by_contra hq
            exact (hquiet x hx).1 hq
          · rw [Bool.eq_false_iff]
            intro hxy
            exact (hquiet y (lt_of_unreceived hO.coherent.matched hxy)).2 x hxy
      | black =>
          have hterm : TokenNet.terminates 0 .black = false := by decide
          have hp' := hp.tokenRecv hlt hsrc hdest hpos hterm htoken rfl
          exact .inl ⟨hnot' hterm, 0, .black, .inr ⟨_, _, hp', rfl⟩, .restart rfl⟩
      | terminate => exact absurd rfl hc
  · -- the token is elsewhere
    have hsame : (s.next job (.token r hit)).token = s.token := hy
    exact .inl (Sys.Circulating.same ⟨hnot, pos, c, ha, hinv⟩ (.of_eq rfl hsame)
      (fun x hx => by rw [hsame]; exact hx) (fun _ hx => hx) fun _ _ hx => hx)

/-- The replies an event takes or adds without items. -/
theorem unreceived_next (he : s.Enabled job e) (hne : ∀ r count, e ≠ .sendWork r count) {a b : Rank}
    (h : (s.next job e).work.unreceived a b = true) : s.work.unreceived a b = true := by
  cases e with
  | sendWork r count => exact absurd rfl (hne r count)
  | sendNoWork r =>
      exact WorkNet.unreceived_push (r := r) (d := (s.work.requestors r).headD 0)
        (m := if s.abortFlag r then .abort else .noWork) (by split <;> rfl) rfl h
  | requestReply r sent =>
      refine WorkNet.unreceived_pop (r := (s.work.request r).workRequestedRank) (d := r) ?_ h
      simp [Sys.next, WorkNet.requestDone, WorkNet.requestTest]
  | workreqDone r rand | finish r =>
      simp only [Sys.next] at h
      split at h <;> exact h
  | _ => exact h

theorem circulating_sendWork {count : Nat} (he : s.Enabled job (.sendWork r count))
    (hO : s.Once job) (h : s.Circulating job) :
    (s.next job (.sendWork r count)).Circulating job := by
  have hok := hO.coherent.ok r
  have hlt : r < job.size := hok.rank_lt (e := .sendWork r count) he
  have hat := hok.position
  rw [he.1] at hat
  have hst : s.stage r = .main := hat.1
  have hpos : 0 < s.inv r := by
    rw [hO.inv_eq (by simp [hst])]
    decide
  have hsum : (s.loc r).sizes.sum < (s.work.queue r).length := hat.2.2.2.2
  have hq : s.work.queue r ≠ [] := by
    intro hq
    rw [hq] at hsum
    exact absurd hsum (Nat.not_lt_zero _)
  have hqueue : ∀ x, (s.next job (.sendWork r count)).work.queue x ≠ [] →
      s.work.queue x ≠ [] := by
    intro x hx
    by_cases hxr : x = r
    · exact hxr ▸ hq
    · simpa [Sys.next, WorkNet.nextRequestor, Function.update_of_ne hxr] using hx
  have hsame : s.SameToken (s.next job (.sendWork r count)) :=
    sameToken_sendWork (h.not_terminated r) hpos
  by_cases hc : count = 0
  · -- no items are left to send
    have hwork : (s.next job (.sendWork r count)).work.replies =
        s.work.replies.push r ((s.work.requestors r).headD 0)
          (if s.abortFlag r then .abort else .noWork) := by
      simp [Sys.next, hc, WorkNet.sendWork_zero, WorkNet.sendNoWork, WorkNet.nextRequestor]
    refine h.same hsame (fun x hx => ?_) hqueue fun a b hab => ?_
    · simpa [Sys.next, hc] using hx
    · exact WorkNet.unreceived_push (by split <;> rfl) hwork hab
  · have hwork : (s.next job (.sendWork r count)).work.replies =
        s.work.replies.push r ((s.work.requestors r).headD 0)
          (.items (s.inv r) ((s.work.queue r).drop ((s.work.queue r).length - count))) := by
      simp [Sys.next, hc, WorkNet.sendWork, WorkNet.nextRequestor]
    have htoken : (s.next job (.sendWork r count)).token =
        s.token.blacken job.size r ((s.work.requestors r).headD 0) := if_neg hc
    obtain ⟨hnot, pos, c, ha, hinv⟩ := h
    refine ⟨fun x => ?_, pos, c, ha.same hsame, ?_⟩
    · rw [Ne, hsame.proc_iff]
      exact hnot x
    · refine hinv.post hlt (j := (s.work.requestors r).headD 0) hq rfl rfl (fun x hx => ?_)
        (fun hlow => ?_) hqueue fun a b hab => ?_
      · simp only [Sys.probe, decide_eq_true_eq] at hx ⊢
        rw [htoken]
        by_cases hxr : x = r
        · subst hxr
          unfold TokenNet.blacken
          split
          · simp [TokenNet.set]
          · exact hx
        · rwa [(s.token.blacken_st job.size r _ x).2.2.2.1 hxr]
      · simp only [Sys.probe, decide_eq_true_eq]
        rw [htoken, TokenNet.blacken, if_pos (.inl hlow)]
        simp [TokenNet.set]
      · simp only [Sys.probe] at hab ⊢
        rw [WorkNet.unreceived_iff] at hab ⊢
        obtain ⟨k, l, hkl⟩ := hab
        rw [hwork, Chan.mem_push] at hkl
        rcases hkl with hkl | ⟨h₁, h₂, _⟩
        · exact .inl ⟨k, l, hkl⟩
        · exact .inr ⟨h₁, h₂⟩

theorem circulating_next (he : s.Enabled job e)
    (hC : RingStep job s e) (hO : s.Once job) (hR : s.Ring job) (h : s.Circulating job) :
    (s.next job e).Circulating job ∨ (s.next job e).Exhausted job := by
  have hat := (hO.coherent.ok e.rank).position
  have hlt := (hO.coherent.ok _).rank_lt he
  have hlooping : ∀ x, s.stage x ≠ .main → 0 < s.inv x → False := fun x hst hinv =>
    h.not_terminated x ((hR.stage x).mpr ⟨hst, hinv⟩)
  cases e with
  | token r hit => exact circulating_token he hC hO hR h
  | sendWork r count => exact .inl (circulating_sendWork he hO h)
  | begin r next ops =>
      left
      have hf : s.inv r = 0 := hC.1
      have hfresh := hR.fresh r hf
      obtain ⟨hnot, pos, c, ha, hinv⟩ := h
      have hproc : ∀ x, ((s.next job (.begin r next ops)).token.st x).tokenProc =
          (s.token.st x).tokenProc := by
        intro x
        by_cases hx : x = r
        · subst hx
          rw [begin_token_self, hfresh]
        · have hloc : (s.next job (.begin r next ops)).loc x = s.loc x := loc_next_of_ne hx
          rw [show (s.next job (.begin r next ops)).token.st x = s.token.st x from
            congrArg Loc.token hloc]
      refine ⟨fun x => by rw [hproc]; exact hnot x, pos, c, tokenAt_begin hf hfresh ha, ?_⟩
      have hle : pos ≤ r := by
        rcases ha with ⟨_, rfl, _⟩ | ⟨h, sent, hp, rfl⟩
        · exact Nat.zero_le _
        · have hhr : h < r :=
            Nat.lt_of_not_le fun hle => absurd hf (Nat.ne_of_gt (hp.begun r hle))
          calc h + sent.toNat ≤ h + 1 := Nat.add_le_add_left (Bool.toNat_le sent) h
            _ ≤ r := hhr
      refine hinv.wake rfl rfl (fun x hx => ?_) (fun x hx => ?_)
        fun a b hab => unreceived_next he (by simp) hab
      · simpa only [Sys.probe, hproc] using hx
      · by_cases hxr : x = r
        · exact .inr (.inl (hxr ▸ hle))
        · left
          simpa [Sys.probe, Sys.next, WorkNet.setQueue, WorkNet.init, Function.update_of_ne hxr]
            using hx
  | requestReply r sent =>
      left
      have hmem := reply_mem he
      obtain ⟨hnot, pos, c, ha, hinv⟩ := h
      have hsame : s.SameToken (s.next job (.requestReply r sent)) := .of_eq rfl rfl
      refine ⟨hnot, pos, c, ha.same hsame, ?_⟩
      have hpending : ∀ a b, (s.next job (.requestReply r sent)).work.unreceived a b = true →
          s.work.unreceived a b = true := fun a b hab => unreceived_next he (by simp) hab
      cases hm : s.reply r with
      | items k l =>
          rw [hm] at hmem
          have hun := WorkNet.unreceived_iff.mpr ⟨k, l, hmem⟩
          refine hinv.wake rfl rfl (fun _ hx => hx) (fun x hx => ?_) hpending
          by_cases hxr : x = r
          · exact .inr (.inr ⟨_, hxr ▸ hun⟩)
          · left
            simpa [Sys.probe, Sys.next, hm, WorkNet.workReceive, WorkNet.requestTest,
              WorkNet.requestDone, Function.update_of_ne hxr] using hx
      | noWork | abort =>
          refine hinv.rest rfl rfl (fun _ hx => hx) (fun x hx => ?_) hpending
          simpa [Sys.probe, Sys.next, hm, WorkNet.workReceive, WorkNet.requestTest,
            WorkNet.requestDone] using hx
  | process r ops =>
      left
      obtain ⟨_, hq, _⟩ := he
      refine h.same (.of_eq rfl rfl) (fun _ hx => hx) (fun x hx => ?_) fun _ _ hx => hx
      by_cases hxr : x = r
      · exact hxr ▸ hq
      · simpa [Sys.next, WorkNet.setQueue, Function.update_of_ne hxr] using hx
  | workreqDone r rand =>
      left
      refine h.same (.of_eq rfl rfl) (fun _ hx => hx) (fun x hx => ?_)
        fun a b hab => unreceived_next he (by simp) hab
      simp only [Sys.next] at hx
      split at hx <;> exact hx
  | tokenDrain r hit done =>
      rw [show s.pc (Event.tokenDrain (α := α) r hit done).rank = _ from he.1] at hat
      have hst : s.stage r = .cleanup := hat.1
      have hinv : s.inv r = 1 := hO.inv_eq (by simp [hst])
      exact (hlooping r (by simp [hst]) (by omega)).elim
  | finish r =>
      rw [show s.pc (Event.finish (α := α) r).rank = _ from he] at hat
      have hst : s.stage r = .after := hat.1
      have hinv : s.inv r = 1 := hO.inv_eq (by simp [hst])
      exact (hlooping r (by simp [hst]) (by omega)).elim
  | sendNoWork r =>
      exact .inl (h.same (.of_eq rfl rfl) (fun _ hx => hx) (fun _ hx => hx)
        fun a b hab => unreceived_next he (by simp) hab)
  | _ =>
      exact .inl (h.same (.of_eq rfl rfl) (fun _ hx => hx) (fun _ hx => hx) fun _ _ hx => hx)

/-- Once no items are left, no rank gets any. -/
theorem exhausted_next (he : s.Enabled job e) (hf : FirstOnly s e) (hok : ∀ r, s.Ok job r)
    (h : s.Exhausted job) : (s.next job e).Exhausted job := by
  have hat := (hok e.rank).position
  have hlt := (hok _).rank_lt he
  obtain ⟨hbegun, hq, hnone⟩ := h
  have hnone' : (∀ r count, e ≠ .sendWork r count) → ∀ a b,
      (s.next job e).work.unreceived a b = false := by
    intro hne a b
    rw [Bool.eq_false_iff]
    intro hab
    exact absurd ((hnone a b).symm.trans (unreceived_next he hne hab)) (by decide)
  cases e with
  | begin r next ops => exact absurd hf (Nat.ne_of_gt (hbegun r hlt))
  | sendWork r count =>
      rw [show s.pc (Event.sendWork (α := α) r count).rank = _ from he.1] at hat
      have hsum : (s.loc r).sizes.sum < (s.work.queue r).length := hat.2.2.2.2
      rw [hq r hlt] at hsum
      exact absurd hsum (Nat.not_lt_zero _)
  | process r ops => exact absurd (hq r hlt) he.2.1
  | requestReply r sent =>
      have hmem := reply_mem he
      refine ⟨hbegun, fun x hx => ?_, hnone' (by simp)⟩
      cases hm : s.reply r with
      | items k l =>
          rw [hm] at hmem
          exact absurd ((hnone _ _).symm.trans (WorkNet.unreceived_iff.mpr ⟨k, l, hmem⟩))
            (by decide)
      | noWork | abort =>
          simpa [Sys.next, hm, WorkNet.workReceive, WorkNet.requestTest, WorkNet.requestDone]
            using hq x hx
  | workreqDone r rand =>
      refine ⟨hbegun, fun x hx => ?_, hnone' (by simp)⟩
      simp only [Sys.next]
      split <;> exact hq x hx
  | finish r =>
      refine ⟨hbegun, fun x hx => ?_, hnone' (by simp)⟩
      simp only [Sys.next]
      split
      · by_cases hxr : x = r
        · subst hxr
          simp [WorkNet.setQueue]
        · simpa [WorkNet.setQueue, Function.update_of_ne hxr] using hq x hx
      · exact hq x hx
  | sendNoWork r => exact ⟨hbegun, hq, hnone' (by simp)⟩
  | _ => exact ⟨hbegun, hq, hnone⟩

/-! ## Runs -/

/-- One invocation with ring termination that no abort has reached. -/
structure Sys.RingTerm (job : Job) (s : Sys α) : Prop where
  once : s.Once job
  ring : s.Ring job
  phase : s.Circulating job ∨ s.Exhausted job

theorem ringTerm_next (ht : (job.opts 1).termTree = false) (he : s.Enabled job e)
    (hC : RingStep job s e) (h : s.RingTerm job) : (s.next job e).RingTerm job := by
  obtain ⟨hO, hR, hphase⟩ := h
  refine ⟨once_next he hC.1 hO, ring_next ht he hC.1 hO hR, ?_⟩
  rcases hphase with h | h
  · exact circulating_next he hC hO hR h
  · exact .inr (exhausted_next he hC.1 hO.coherent.ok h)

theorem ringTerm_of_run (ht : (job.opts 1).termTree = false) {es : List (Event α)}
    (hrun : (job.step.restrict (RingStep job)).Run s es t) (h : s.RingTerm job) :
    t.RingTerm job :=
  hrun.restrict_invariant (fun _ _ hI hE hC => ringTerm_next ht hE hC hI) h

theorem exhausted_of_run {es : List (Event α)}
    (hrun : (job.step.restrict (RingStep job)).Run s es t) (hO : s.Once job)
    (h : s.Exhausted job) : t.Exhausted job :=
  (hrun.restrict_invariant (I := fun s => s.Once job ∧ s.Exhausted job)
    (fun _ _ ⟨hO, h⟩ hE hC => ⟨once_next hE hC.1 hO, exhausted_next hE hC.1 hO.coherent.ok h⟩)
    ⟨hO, h⟩).2

/-- Ring termination is sound in every run without an abort in which each rank passes the token
on only as `PassesOn` says: when `CIRCLE_check_for_term` returns `TERMINATE` on some rank, every
queue is empty and no items are in flight, and it stays so. -/
theorem ring_termination_sound (ht : (job.opts 1).termTree = false) {queue : Rank → List α}
    {input : Rank → ReduceInput} {enqueued : List α} {es fs : List (Event α)} {hit : Bool}
    (hrun : (job.step.restrict (RingStep job)).Run
      (Sys.start queue (fun _ => false) input enqueued) es s)
    (he : s.Enabled job (.token r hit)) (hC : RingStep job s (.token r hit))
    (hterm : ((s.next job (.token r hit)).token.st r).tokenProc = .terminate)
    (hlater : (job.step.restrict (RingStep job)).Run (s.next job (.token r hit)) fs u) :
    ((∀ x, x < job.size → (s.next job (.token r hit)).work.queue x = []) ∧
        ∀ a b, (s.next job (.token r hit)).work.unreceived a b = false) ∧
      (∀ x, x < job.size → u.work.queue x = []) ∧ ∀ a b, u.work.unreceived a b = false := by
  have hT := ringTerm_of_run ht hrun ⟨once_start .., ring_start .., .inl (circulating_start ..)⟩
  have hT' := ringTerm_next ht he hC hT
  have hE := hT'.phase.resolve_left fun h => h.not_terminated r hterm
  have hEu := exhausted_of_run hlater hT'.once hE
  exact ⟨⟨hE.queue_nil, hE.none_in_flight⟩, hEu.queue_nil, hEu.none_in_flight⟩

/-- Rank `1` has two items.  It sends one to rank `0` and turns black, and rank `0` launches the
token before the item has arrived.  The token comes back black, and a second round is about
to end. -/
def twoRounds : List (Event Nat) :=
  List.flatten
    [[.begin 0 (some 1) [], .begin 1 (some 0) []], passMain 0,
      [.requestSend 0 true (some 1), .workreq 1 0, .workreqDone 1 0, .sendWork 1 1,
        .checkForTerm 0, .token 0 false, .workreceiptDone 1, .worksend 1 0, .worksend 1 0,
        .worksendDone 1],
      passAbort 1 none false, [.requestSkip 1, .process 1 [.dequeue]],
      passMain 1, [.requestSend 1 true (some 0), .checkForTerm 1, .token 1 true],
      passMain 1, [.requestNone 1 true, .checkForTerm 1, .token 1 false],
      [.workreq 0 1, .workreqDone 0 0, .sendNoWork 0, .workreceiptDone 0, .worksend 0 0,
        .worksendDone 0],
      passAbort 0 none false,
      [.requestReply 0 true, .process 0 [.dequeue], .workreqDone 0 0, .workreceiptDone 0,
        .worksend 0 0, .worksendDone 0],
      passAbort 0 none false, [.requestSend 0 true (some 1), .checkForTerm 0, .token 0 true],
      passMain 0, [.requestNone 0 true, .checkForTerm 0, .token 0 false],
      [.workreq 1 0, .workreqDone 1 0, .sendNoWork 1, .workreceipt 1 0, .workreceiptDone 1,
        .worksend 1 0, .worksendDone 1],
      passAbort 1 none false, [.requestReply 1 true, .checkForTerm 1, .token 1 true],
      passMain 1, [.requestSend 1 true (some 0), .checkForTerm 1, .token 1 false],
      [.workreq 0 1, .workreqDone 0 0, .sendNoWork 0, .workreceiptDone 0, .worksend 0 0,
        .worksendDone 0],
      passAbort 0 none false, [.requestNone 0 true, .checkForTerm 0]]

theorem ring_termination_sound_twoRounds :
    let s : Sys Nat :=
      .start (Function.update (fun _ => []) 1 [1, 2]) (fun _ => false) (fun _ => {}) [1, 2]
    let t := ringPair.step.follow s (twoRounds ++ [.token 0 true])
    ((ringPair.step.follow s (twoRounds.take 15)).token.net 0 1 ≠ [] ∧
      (ringPair.step.follow s (twoRounds.take 15)).work.unreceived 1 0 = true) ∧
    (t.token.st 0).tokenProc = .terminate ∧ (∀ x, x < 2 → t.work.queue x = []) ∧
      ∀ a b, t.work.unreceived a b = false := by
  intro s t
  have hrun : (ringPair.step.restrict (RingStep ringPair)).Run s twoRounds
      (ringPair.step.follow s twoRounds) := .of_admits (by decide +kernel)
  have he : (ringPair.step.follow s twoRounds).Enabled ringPair (.token 0 true) := by
    decide +kernel
  exact ⟨by decide +kernel, by decide +kernel,
    (ring_termination_sound rfl hrun he (by decide +kernel) (by decide +kernel) (.nil _)).1⟩

/-! ## A transfer that the token overtakes -/

/-- Rank `0` sends an item to rank `1` and launches the token.  The token goes round while the
item is in flight. -/
def overtaken : List (Event Nat) :=
  List.flatten
    [[.begin 0 (some 1) [.enqueue 1, .enqueue 2], .begin 1 (some 0) []], passMain 1,
      [.requestSend 1 true (some 0), .checkForTerm 1, .token 1 false],
      [.workreq 0 1, .workreqDone 0 0, .sendWork 0 1, .workreceiptDone 0, .worksendDone 0,
        .abortStart 0, .abortRequest 0 none, .abortReplies 0 false, .reduceSkip 0,
        .requestSkip 0, .process 0 [.dequeue]],
      passMain 0, [.requestSend 0 true (some 1), .checkForTerm 0, .token 0 false],
      passMain 1, [.requestNone 1 true, .checkForTerm 1, .token 1 true],
      passMain 1, [.requestNone 1 true, .checkForTerm 1, .token 1 false],
      passMain 0, [.requestNone 0 true, .checkForTerm 0]]

/-- Ring termination is not sound in every run without an abort. -/
theorem ring_termination_fails :
    ¬∀ (es : List (Event Nat)) (s : Sys Nat) (r : Rank) (hit : Bool),
      (ringPair.step.restrict fun s e => FirstOnly s e ∧ s.NoAbort ringPair).Run .fresh es s →
        s.Enabled ringPair (.token r hit) →
        ((s.next ringPair (.token r hit)).token.st r).tokenProc = .terminate →
        ∀ a b, (s.next ringPair (.token r hit)).work.unreceived a b = false := by
  intro h
  have hrun : (ringPair.step.restrict fun s e => FirstOnly s e ∧ s.NoAbort ringPair).Run .fresh
      overtaken (ringPair.step.follow .fresh overtaken) :=
    .of_admits (by decide +kernel)
  have hnone := h overtaken _ 0 true hrun (by decide +kernel) (by decide +kernel) 0 1
  revert hnone
  decide +kernel

end Libcircle
