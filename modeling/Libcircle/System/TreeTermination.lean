import Libcircle.System.Waves

/-!
# Termination by the tree

While no rank got a positive answer, the system is *searching*: either the
current round of the allreduce cannot succeed, because a rank that is still to
report has a transfer outstanding or a cleared flag, or a cleared flag is on its
way up (`Wave.Marked`); or every rank that has reported is at rest.  A rank at
rest becomes active only by items of a rank with a transfer outstanding, and
such a rank has not reported, so the round fails.

When the root gets a positive answer the system is *settled*: every rank is at
rest, and stays so.

Both are stated for the `k`-th invocation.  While it is under way a rank that is
late is still on its way out of the one before.
-/

namespace Libcircle

variable {α : Type*} {job : Job} {s t : Sys α} {e : Event α} {r p x d : Rank} {k : Nat}

/-! ## What termination depends on -/

/-- The part of a state that termination depends on. -/
structure TermView (α : Type*) where
  term : TermNet
  queue : Rank → List α
  abortFlag : Rank → Bool
  outstanding : Rank → Nat
  stage : Rank → Stage
  inv : Rank → Nat

/-- The part of `s` that termination depends on. -/
def Sys.termView (s : Sys α) : TermView α where
  term := s.term
  queue := s.work.queue
  abortFlag := s.abortFlag
  outstanding := s.work.workOutstanding
  stage := s.stage
  inv := s.inv

namespace TermView

variable {v v' : TermView α}

/-- `x` is passive and waits for no receipt. -/
def AtRest (v : TermView α) (x : Rank) : Prop :=
  (v.queue x = [] ∨ v.abortFlag x = true) ∧ v.outstanding x = 0

/-- `x` keeps the round from succeeding until it reports. -/
def Holds (k : Nat) (v : TermView α) (x : Rank) : Prop :=
  v.inv x = k ∧ ((v.term.st x).termFlag = false ∨ 0 < v.outstanding x)

/-- The round cannot succeed. -/
def Fails (job : Job) (k : Nat) (v : TermView α) : Prop :=
  v.term.wave.Marked (job.trees k) (v.Holds k) (· = false)

/-- Every rank that has reported in this round is at rest. -/
def Clean (job : Job) (k : Nat) (v : TermView α) : Prop :=
  ∀ x, x < job.size → v.term.wave.Contributed (job.trees k) x → v.AtRest x

/-- No rank got a positive answer in invocation `k` yet. -/
structure Searching (job : Job) (k : Nat) (v : TermView α) : Prop where
  no_answer : ∀ p c, c ∈ (job.trees k).children p → true ∉ v.term.net p c
  stage_eq : ∀ r, (v.stage r = .main ∧ v.inv r = k) ∨
    (v.inv r < k ∧ (v.stage r = .after ∨ v.stage r = .outside))
  late : ∀ r, r < job.size → v.inv r < k → v.outstanding r = 0
  round : v.Fails job k ∨ v.Clean job k

/-- Every rank is at rest for the rest of invocation `k`. -/
def Settled (job : Job) (k : Nat) (v : TermView α) : Prop :=
  ∀ r, r < job.size → k ≤ v.inv r ∧ v.outstanding r = 0 ∧
    (v.stage r = .main ∨ v.stage r = .cleanup → v.queue r = [] ∨ v.abortFlag r = true)

theorem Searching.inv_eq (h : v.Searching job k) (hst : v.stage r = .main) : v.inv r = k := by
  rcases h.stage_eq r with ⟨_, hinv⟩ | ⟨_, hst' | hst'⟩
  · exact hinv
  · cases hst'.symm.trans hst
  · cases hst'.symm.trans hst

theorem Searching.inv_lt (h : v.Searching job k) (hst : v.stage r ≠ .main) : v.inv r < k := by
  rcases h.stage_eq r with ⟨hst', _⟩ | ⟨hlt, _⟩
  · exact absurd hst' hst
  · exact hlt

theorem Searching.stage_ne_cleanup (h : v.Searching job k) (r : Rank) :
    v.stage r ≠ .cleanup := by
  rcases h.stage_eq r with ⟨hst, _⟩ | ⟨_, hst | hst⟩ <;> simp [hst]

/-- A rank that has begun the first invocation is in the main loop. -/
theorem Searching.main_of_pos (h : v.Searching job 1) (hinv : 0 < v.inv r) :
    v.stage r = .main := by
  rcases h.stage_eq r with ⟨hst, _⟩ | ⟨hlt, _⟩
  · exact hst
  · exact absurd hinv (Nat.not_lt.mpr (Nat.le_of_lt_succ hlt))

/-- A step that does not move the wave. -/
theorem Searching.of_wave (h : v.Searching job k) (hwave : v'.term.wave = v.term.wave)
    (hstage : ∀ r, (v'.stage r = .main ∧ v'.inv r = k) ∨
      (v'.inv r < k ∧ (v'.stage r = .after ∨ v'.stage r = .outside)))
    (hlate : ∀ r, r < job.size → v'.inv r < k → v'.outstanding r = 0)
    (hholds : ∀ x, v.Holds k x → v'.Holds k x)
    (hrest : ∀ x, x < job.size → v.term.wave.Contributed (job.trees k) x → v.AtRest x →
      v'.AtRest x ∨ v.Fails job k) : v'.Searching job k where
  no_answer p c hc := by
    rw [show v'.term.net = v.term.net from congrArg Wave.net hwave]
    exact h.no_answer p c hc
  stage_eq := hstage
  late := hlate
  round := by
    by_cases hf : v.Fails job k
    · refine .inl ?_
      rw [Fails, hwave]
      exact hf.mono fun x _ => hholds x
    · refine .inr fun x hx hcx => ?_
      rw [hwave] at hcx
      exact (hrest x hx hcx (h.round.resolve_left hf x hx hcx)).resolve_right hf

/-- A step that only raises abort flags. -/
theorem Searching.of_abort (h : v.Searching job k) (hterm : v'.term = v.term)
    (hqueue : v'.queue = v.queue) (hout : v'.outstanding = v.outstanding)
    (hstage : v'.stage = v.stage) (hinv : v'.inv = v.inv)
    (habort : ∀ x, v.abortFlag x = true → v'.abortFlag x = true) : v'.Searching job k := by
  refine h.of_wave (by rw [hterm]) ?_ ?_ ?_ ?_
  · rw [hstage, hinv]
    exact h.stage_eq
  · rw [hout, hinv]
    exact h.late
  · intro x hx
    rwa [Holds, hterm, hout, hinv]
  · intro x _ _ hr
    rw [AtRest, hqueue, hout]
    exact .inl ⟨hr.1.imp_right (habort x), hr.2⟩

/-! ### The moves of the wave -/

section Moves

variable {c src : Rank} {m : Bool}

theorem Searching.recvFlag (h : v.Searching job k) (hw : v.term.wave.Inv (job.trees k))
    (hr : v.inv r = k) (hc : src ∈ (job.trees k).children r) (hnet : v.term.net src r = [m]) :
    Searching job k { v with term := v.term.recvFlag r src m } where
  no_answer p c hc hmem := h.no_answer p c hc (Chan.mem_of_mem_pop _ hmem)
  stage_eq := h.stage_eq
  late := h.late
  round := by
    have hwave : (v.term.recvFlag r src m).wave = v.term.wave.recv r src :=
      TermNet.wave_recvFlag v.term src m
    rcases h.round with hfail | hclean
    · left
      unfold Fails
      rw [hwave]
      refine hfail.recv hw hc hnet (fun x hx => ?_) fun hbad => ?_
      · refine hx.imp_right fun hh => hh.imp_left fun hf => ?_
        by_cases hxr : x = r
        · subst hxr
          simp [TermNet.recvFlag, hf]
        · simpa [TermNet.recvFlag, Function.update_of_ne hxr] using hf
      · refine ⟨hr, .inl ?_⟩
        simp [TermNet.recvFlag, hbad]
    · right
      intro x hx hcx
      rw [hwave] at hcx
      exact hclean x hx hcx

theorem Searching.sendUp (h : v.Searching job k) (hrest : v.AtRest r)
    (hc : r ∈ (job.trees k).children p) :
    Searching job k { v with term := v.term.sendUp r p } where
  no_answer p' c' hc' hmem := by
    rcases (Chan.mem_push _ _).mp hmem with hmem | ⟨rfl, rfl, _⟩
    · exact h.no_answer p' c' hc' hmem
    · exact (job.trees k).not_mem_children_symm hc hc'
  stage_eq := h.stage_eq
  late := h.late
  round := by
    have hwave := TermNet.wave_sendUp (r := r) v.term p
    rcases h.round with hfail | hclean
    · left
      unfold Fails
      rw [hwave]
      refine hfail.send hc (fun x hx hh => ?_) fun hh => ?_
      · simpa [Holds, TermNet.sendUp, Function.update_of_ne hx] using hh
      · exact hh.2.resolve_right (by simp [hrest.2])
    · right
      intro x hx hcx
      by_cases hxr : x = r
      · exact hxr ▸ hrest
      · rw [hwave] at hcx
        refine hclean x hx ⟨?_, hcx.2⟩
        rw [← hcx.1]
        exact (Function.update_of_ne hxr _ _).symm

/-- When the root gets a positive result, every rank is at rest. -/
theorem Searching.atRest_of_root (h : v.Searching job k) (hw : v.term.wave.Inv (job.trees k))
    (hall : ∀ c ∈ (job.trees k).children (job.trees k).root,
      v.term.wave.counted (job.trees k).root c = true)
    (hrest : v.AtRest (job.trees k).root)
    (hflag : (v.term.st (job.trees k).root).termFlag = true) (x : Rank) (hx : x < job.size) :
    v.AtRest x := by
  have hclean := h.round.resolve_left fun hfail => by
    rcases hfail.root_of_release hw hall with ⟨_, hh | hh⟩
    · exact absurd (hflag.symm.trans hh) (by decide)
    · exact absurd hrest.2 (Nat.ne_of_gt hh)
  by_cases hxr : x = (job.trees k).root
  · exact hxr ▸ hrest
  · exact hclean x hx (hw.all_up hall x hx hxr)

theorem Searching.completeRoot (h : v.Searching job k) (hw : v.term.wave.Inv (job.trees k))
    (hflag : (v.term.st (job.trees k).root).termFlag = false) :
    Searching job k { v with
      term := v.term.completeRoot (job.tree k (job.trees k).root) (job.trees k).root } where
  no_answer p c hc hmem := by
    rcases (Chan.mem_bcast _ _).mp hmem with hmem | ⟨_, _, htrue⟩
    · exact h.no_answer p c hc hmem
    · exact absurd (htrue.trans hflag) (by decide)
  stage_eq := h.stage_eq
  late := h.late
  round := by
    right
    intro x hx hcx
    rw [TermNet.wave_completeRoot] at hcx
    exact absurd hcx (Wave.not_contributed_release hw hx _)

/-- Every answer in flight is negative. -/
theorem Searching.answer_eq (h : v.Searching job k) (hc : r ∈ (job.trees k).children p)
    (hm : v.term.net p r ≠ []) : (v.term.net p r).headD true = false := by
  obtain ⟨m, ms, hms⟩ := List.exists_cons_of_ne_nil hm
  have hno := h.no_answer p r hc
  rw [hms] at hno ⊢
  cases m with
  | true => exact absurd (List.mem_cons_self ..) hno
  | false => rfl

theorem Searching.recvResult (h : v.Searching job k) (hc : r ∈ (job.trees k).children p) :
    Searching job k { v with term := v.term.recvResult (job.tree k r) r p false } where
  no_answer p' c' hc' hmem := by
    rcases (Chan.mem_bcast _ _).mp hmem with hmem | ⟨_, _, hfalse⟩
    · exact h.no_answer p' c' hc' (Chan.mem_of_mem_pop _ hmem)
    · cases hfalse
  stage_eq := h.stage_eq
  late := h.late
  round := by
    have hwave := TermNet.wave_recvResult (r := r) v.term (job.tree k r) p false
    rcases h.round with hfail | hclean
    · left
      unfold Fails
      rw [hwave]
      refine (Wave.Marked.answer hc hfail).mono fun x _ hh =>
        hh.imp_right fun hh => hh.imp_left fun hf => ?_
      by_cases hxr : x = r
      · subst hxr
        simpa [TermNet.recvResult, TermNet.complete] using hf
      · simpa [TermNet.recvResult, TermNet.complete, Function.update_of_ne hxr] using hf
    · right
      intro x hx hcx
      rw [hwave] at hcx
      exact hclean x hx (Wave.contributed_of_answer hc hcx)

end Moves

end TermView

/-! ## Reading the state -/

theorem rest_of_contributed (hcoh : s.Coherent job)
    (hc : s.term.wave.Contributed (job.trees k) r) : s.stage r = .main := by
  by_contra hst
  have hreset := (hcoh.ok r).tidy.term_reset (.inl hst)
  exact absurd (hreset.1.symm.trans hc.1) (by decide)

/-- A rank that sends items is not at rest. -/
theorem not_atRest_of_sendWork (hok : s.Ok job r) (hpc : s.pc r = .sendWork) :
    ¬s.termView.AtRest r := by
  have hat := hok.position
  rw [hpc] at hat
  obtain ⟨_, hf, _, _, hsum⟩ := hat
  rintro ⟨hq | ha, _⟩
  · rw [show (s.loc r).queue = [] from hq] at hsum
    exact absurd hsum (Nat.not_lt_zero _)
  · exact absurd (hf.symm.trans ha) (by decide)

/-- A transfer in flight keeps the round from succeeding. -/
theorem fails_of_transfer (hA : s.work.Accounted job.size s.inv) (hr : r < job.size)
    (hd : d < job.size) {n : Nat} {l : List α} (hm : .items n l ∈ s.work.replies d r)
    (h : s.termView.Searching job k) : s.termView.Fails job k := by
  have hout : 0 < s.work.workOutstanding d := by
    rw [hA.outstanding_eq d]
    have hne : s.work.transfersFrom job.size d ≠ 0 := fun h₀ =>
      WorkNet.not_mem_of_transfersFrom h₀ hr hm
    omega
  have hinv : s.inv d = k := by
    rcases h.stage_eq d with ⟨_, hinv⟩ | ⟨hlt, _⟩
    · exact hinv
    · exact absurd (h.late d hd hlt) (Nat.ne_of_gt hout)
  by_contra hf
  have hclean := h.round.resolve_left hf
  refine hf (.inl ⟨d, hd, fun hc => ?_, hinv, .inr hout⟩)
  exact absurd (hclean d hd hc).2 (Nat.ne_of_gt hout)

/-! ## The steps -/

theorem searching_start (queue : Rank → List α) (abortFlag : Rank → Bool)
    (input : Rank → ReduceInput) (enqueued : List α) :
    (Sys.start queue abortFlag input enqueued).termView.Searching job 1 where
  no_answer _ _ _ h := by simp [Sys.termView, Sys.start] at h
  stage_eq _ := .inr ⟨Nat.one_pos, .inr rfl⟩
  late _ _ _ := rfl
  round := .inr fun _ _ h => absurd h.1 (by simp [Sys.termView, Sys.start, TermNet.wave])

/-- A rank starts invocation `k`, if it starts any. -/
def BeginsAt (k : Nat) (s : Sys α) : Event α → Prop
  | .begin r _ _ => s.inv r + 1 = k
  | _ => True

theorem beginsAt_of_firstOnly (hf : FirstOnly s e) : BeginsAt 1 s e := by
  cases e with
  | begin r next ops => exact congrArg (· + 1) hf
  | _ => trivial

/-- The termination of invocation `k`, with every rank in it or on its way out of the one
before. -/
structure Sys.TermTurn (job : Job) (k : Nat) (s : Sys α) : Prop where
  coherent : s.Coherent job
  term : s.term.wave.Inv (job.trees k)
  accounted : s.work.Accounted job.size s.inv
  main_eq : ∀ r, s.stage r = .main → s.inv r = k

theorem Sys.TermTurn.tree_eq (h : s.TermTurn job k) (hst : s.stage r = .main) :
    s.tree job r = job.tree k r := by
  rw [Sys.tree, h.main_eq r hst]

theorem searching_termUp (hpc : s.pc r = .termUp) (hT : s.TermTurn job k)
    (h : s.termView.Searching job k) :
    (s.next job (.termUp r)).termView.Searching job k ∨
      (s.next job (.termUp r)).termView.Settled job k := by
  have hlt : r < job.size := (hT.coherent.ok r).lt_size (by simp [hpc])
  have hat := (hT.coherent.ok r).position
  rw [hpc] at hat
  have hrest : s.termView.AtRest r := ⟨hat.2.2.2.1, hat.2.2.2.2⟩
  simp only [Sys.next, hT.tree_eq hat.1]
  obtain ⟨_, hy⟩ | ⟨p, _, hp, hy⟩ | ⟨hready, hp, hy⟩ := s.term.report_cases (job.tree k r) r
  · simp only [hy, stageAfterTerm, Function.update_eq_self]
    exact .inl h
  · simp only [hy, stageAfterTerm, Function.update_eq_self]
    exact .inl (h.sendUp hrest (job.mem_trees_children hlt hp))
  · obtain rfl := job.eq_trees_root hlt hp
    have hall := hT.term.counted_of_replies hready.2
    cases hflag : (s.term.st (job.trees k).root).termFlag with
    | true =>
        right
        have hrests := h.atRest_of_root hT.term hall hrest hflag
        intro x hx
        have hmain : s.stage x = .main := by
          by_cases hxr : x = (job.trees k).root
          · exact hxr ▸ hat.1
          · exact rest_of_contributed hT.coherent (hT.term.all_up hall x hx hxr)
        exact ⟨(hT.main_eq x hmain).ge, (hrests x hx).2, fun _ => (hrests x hx).1⟩
    | false =>
        simp only [hy, hflag, stageAfterTerm, Function.update_eq_self]
        exact .inl (h.completeRoot hT.term hflag)

theorem searching_termDown {hit : Bool} (he : s.Enabled job (.termDown r hit))
    (hT : s.TermTurn job k) (h : s.termView.Searching job k) :
    (s.next job (.termDown r hit)).termView.Searching job k := by
  obtain ⟨hpc, hhit⟩ := he
  have hlt : r < job.size := (hT.coherent.ok r).lt_size (by simp [hpc])
  have hat := (hT.coherent.ok r).position
  rw [hpc] at hat
  rw [hT.tree_eq hat.1] at hhit
  simp only [Sys.next, hT.tree_eq hat.1]
  obtain hy | ⟨p, hp, rfl, hy⟩ := s.term.await_cases (job.tree k r) r hit
  · simp only [hy, stageAfterTerm, Function.update_eq_self]
    exact h
  · obtain ⟨p', hp', hm⟩ := TreeState.parentSent_iff.mp (hhit rfl).2
    obtain rfl : p = p' := Option.some.inj (hp.symm.trans hp')
    have hc := job.mem_trees_children hlt hp
    have hflag : (s.term.net p r).headD true = false := h.answer_eq hc hm
    simp only [hy, hflag, stageAfterTerm, Function.update_eq_self]
    exact h.recvResult hc

/-- A rank on its way out of the invocation before. -/
theorem searching_late (hcoh : s.Coherent job) (hst : s.stage r ≠ .main)
    (hst' : (s.next job e).stage = s.stage ∨
      (s.next job e).stage = Function.update s.stage r .outside)
    (hterm : (s.next job e).term = s.term) (hinv : (s.next job e).inv = s.inv)
    (hout : (s.next job e).work.workOutstanding = s.work.workOutstanding)
    (hqueue : ∀ x, x ≠ r → (s.next job e).work.queue x = s.work.queue x)
    (habort : ∀ x, x ≠ r → (s.next job e).abortFlag x = s.abortFlag x)
    (h : s.termView.Searching job k) : (s.next job e).termView.Searching job k := by
  have hlt : s.inv r < k := h.inv_lt hst
  refine h.of_wave (by rw [Sys.termView, hterm, Sys.termView]) (fun x => ?_) ?_ ?_ ?_
  · simp only [Sys.termView, hinv]
    rcases hst' with heq | heq
    · rw [heq]
      exact h.stage_eq x
    · rw [heq]
      by_cases hx : x = r
      · subst hx
        exact .inr ⟨hlt, .inr (Function.update_self ..)⟩
      · rw [Function.update_of_ne hx]
        exact h.stage_eq x
  · simp only [Sys.termView, hinv, hout]
    exact h.late
  · intro x hx
    simpa only [TermView.Holds, Sys.termView, hinv, hout, hterm] using hx
  · intro x _ hc hrest
    have hx : x ≠ r := by
      rintro rfl
      exact hst (rest_of_contributed hcoh hc)
    left
    simpa only [TermView.AtRest, Sys.termView, hqueue x hx, habort x hx, hout] using hrest

theorem searching_next (ht : (job.opts k).termTree = true) (he : s.Enabled job e)
    (hb : BeginsAt k s e) (hT : s.TermTurn job k) (h : s.termView.Searching job k) :
    (s.next job e).termView.Searching job k ∨ (s.next job e).termView.Settled job k := by
  obtain ⟨hcoh, hW, hA, hmain⟩ := id hT
  have hlt := (hcoh.ok _).rank_lt he
  cases e with
  | begin r next ops =>
      left
      have hst := ((hcoh.ok r).requested_of_idle he.1).1
      have htidy := (hcoh.ok r).tidy
      have hne : s.stage r ≠ .main := by simp [hst]
      have hbehind : s.inv r < k := Nat.lt_of_succ_le (Nat.le_of_eq hb)
      refine h.of_wave (TermNet.wave_init s.term (htidy.term_reset (.inl hne))) ?_ ?_ ?_ ?_
      · intro x
        by_cases hx : x = r
        · subst hx
          exact .inl ⟨Function.update_self .., (Function.update_self ..).trans hb⟩
        · simpa [Sys.termView, Sys.next, Function.update_of_ne hx] using h.stage_eq x
      · intro x hx hinv
        by_cases hxr : x = r
        · subst hxr
          simp [Sys.termView, Sys.next, WorkNet.setQueue, WorkNet.init]
        · simp only [Sys.termView, Sys.next, Function.update_of_ne hxr] at hinv
          simpa [Sys.termView, Sys.next, WorkNet.setQueue, WorkNet.init,
            Function.update_of_ne hxr] using h.late x hx hinv
      · intro x hx
        by_cases hxr : x = r
        · subst hxr
          exact absurd hx.1 (Nat.ne_of_lt hbehind)
        · simpa [TermView.Holds, Sys.termView, Sys.next, TermNet.init, TermNet.set,
            WorkNet.setQueue, WorkNet.init, Function.update_of_ne hxr] using hx
      · intro x _ hc hrest
        have hxr : x ≠ r := by
          rintro rfl
          exact hne (rest_of_contributed hcoh hc)
        left
        simpa [TermView.AtRest, Sys.termView, Sys.next, WorkNet.setQueue, WorkNet.init,
          Function.update_of_ne hxr] using hrest
  | workreqDone r rand =>
      left
      refine h.of_abort rfl ?_ ?_ rfl rfl fun _ hx => hx
      · simp only [Sys.termView, Sys.next]
        split <;> rfl
      · simp only [Sys.termView, Sys.next]
        split <;> rfl
  | sendWork r count =>
      left
      have hnot := not_atRest_of_sendWork (hcoh.ok r) he.1
      have hat := (hcoh.ok r).position
      rw [show s.pc r = _ from he.1] at hat
      refine h.of_wave rfl h.stage_eq ?_ ?_ ?_
      · intro x hx hinv
        have hxr : x ≠ r := by
          rintro rfl
          exact absurd (hmain x hat.1) (Nat.ne_of_lt hinv)
        simpa [Sys.termView, Sys.next, WorkNet.nextRequestor, Function.update_of_ne hxr]
          using h.late x hx hinv
      · intro x hx
        refine hx.imp_right fun hh => hh.imp_right fun hout => Nat.lt_of_lt_of_le hout ?_
        simp only [Sys.termView, Sys.next, WorkNet.nextRequestor,
          WorkNet.sendWork_workOutstanding]
        by_cases hxr : x = r
        · subst hxr
          simp
        · rw [Function.update_of_ne hxr]
      · intro x _ _ hrest
        have hxr : x ≠ r := by
          rintro rfl
          exact hnot hrest
        left
        simpa [TermView.AtRest, Sys.termView, Sys.next, WorkNet.nextRequestor,
          Function.update_of_ne hxr] using hrest
  | workreceipt r src =>
      left
      have hat := (hcoh.ok r).position
      rw [show s.pc r = _ from he.1] at hat
      refine h.of_wave (TermNet.wave_clearFlag s.term) h.stage_eq ?_ ?_ ?_
      · intro x hx hinv
        have hxr : x ≠ r := by
          rintro rfl
          exact absurd (hmain x hat.1) (Nat.ne_of_lt hinv)
        simpa [Sys.termView, Sys.next, WorkNet.workreceiptRecv, Function.update_of_ne hxr]
          using h.late x hx hinv
      · intro x hx
        by_cases hxr : x = r
        · subst hxr
          refine ⟨hx.1, .inl ?_⟩
          simp [Sys.termView, Sys.next, TermNet.clearFlag, TermNet.set]
        · simpa [TermView.Holds, Sys.termView, Sys.next, TermNet.clearFlag, TermNet.set,
            WorkNet.workreceiptRecv, Function.update_of_ne hxr] using hx
      · intro x _ _ hrest
        left
        refine ⟨hrest.1, ?_⟩
        by_cases hxr : x = r
        · subst hxr
          have hzero : s.work.workOutstanding x = 0 := hrest.2
          simp [Sys.termView, Sys.next, WorkNet.workreceiptRecv, hzero]
        · simpa [Sys.termView, Sys.next, WorkNet.workreceiptRecv, Function.update_of_ne hxr]
            using hrest.2
  | requestReply r sent =>
      left
      have hr : r < job.size := hlt
      obtain ⟨_, _, _, hm⟩ := he
      have hd := (hcoh.matched.awaits_lt _ _ (hcoh.matched.awaits_of_reply hm)).2.1
      obtain ⟨m, ms, hms⟩ := List.exists_cons_of_ne_nil hm
      have hreply : s.reply r = m := by simp [Sys.reply, hms]
      refine h.of_wave rfl h.stage_eq ?_ ?_ ?_
      · simpa [Sys.termView, Sys.next, WorkNet.requestDone, WorkNet.requestTest] using h.late
      · intro x hx
        simpa [TermView.Holds, Sys.termView, Sys.next, WorkNet.requestDone,
          WorkNet.requestTest] using hx
      · intro x _ _ hrest
        cases m with
        | items k l =>
            have hmem : .items k l ∈ s.work.replies (s.work.request r).workRequestedRank r := by
              rw [hms]
              exact List.mem_cons_self ..
            exact .inr (fails_of_transfer hA hr hd hmem h)
        | noWork | abort =>
            left
            simp only [TermView.AtRest, Sys.termView, Sys.next, hreply]
            exact ⟨hrest.1.imp_right (le_abortFlag _ _ _ _), hrest.2⟩
  | process r ops =>
      left
      obtain ⟨_, hq, hab⟩ := he
      refine h.of_wave rfl h.stage_eq h.late (fun _ hx => hx) ?_
      intro x _ _ hrest
      have hxr : x ≠ r := by
        rintro rfl
        rcases hrest.1 with hnil | hf
        · exact hq hnil
        · exact absurd (hab.symm.trans hf) (by decide)
      left
      simpa [TermView.AtRest, Sys.termView, Sys.next, WorkNet.setQueue,
        Function.update_of_ne hxr] using hrest
  | abortRequest r src | reduceBegin r due hit calls | reduceReply r hit calls
  | reduceDone r calls | reduceSync r calls | reduceSyncReply r calls | reduceSyncDone r calls =>
      exact .inl (h.of_abort rfl rfl rfl rfl rfl (le_abortFlag _ _ _))
  | termReply r src =>
      left
      obtain ⟨hpc, hpend, hm⟩ := he
      have hat := (hcoh.ok r).position
      rw [hpc] at hat
      rw [hT.tree_eq hat.1] at hpend
      have hc := hW.child_of_pending hpend hm
      obtain ⟨m, hnet, _⟩ := hW.sent_of_report hc hm
      have hnet : s.term.net src r = [m] := hnet
      simp only [Sys.next, hnet, List.headD_cons]
      exact h.recvFlag hW (hmain r hat.1) hc hnet
  | termUp r => exact searching_termUp he hT h
  | termDown r hit => exact .inl (searching_termDown he hT h)
  | token r hit =>
      have hat := (hcoh.ok r).position
      rw [he.1] at hat
      have hring : (job.opts (s.inv r)).termTree = false := hat.2.2.1
      rw [hmain r hat.1] at hring
      exact absurd (ht.symm.trans hring) (by decide)
  | barrierUp r =>
      have hat := (hcoh.ok r).position
      rw [show s.pc r = _ from he] at hat
      exact absurd hat.1 (h.stage_ne_cleanup r)
  | barrierDown r hit =>
      have hat := (hcoh.ok r).position
      rw [he.1] at hat
      exact absurd hat.1 (h.stage_ne_cleanup r)
  | abortReduceUp r | abortReduceDown r =>
      have hat := (hcoh.ok r).position
      rw [he.1] at hat
      have hst : s.stage r ≠ .main := by simp [show s.stage r = .after from hat.1]
      exact .inl (searching_late hcoh hst (.inl rfl) rfl rfl rfl (fun _ _ => rfl)
        (fun x hx => Function.update_of_ne hx _ _) h)
  | finish r =>
      have hat := (hcoh.ok r).position
      rw [show s.pc r = _ from he] at hat
      have hst : s.stage r ≠ .main := by simp [show s.stage r = .after from hat.1]
      refine .inl (searching_late hcoh hst (.inr rfl) rfl rfl ?_ (fun x hx => ?_)
        (fun _ _ => rfl) h)
      · simp only [Sys.next]
        split <;> rfl
      · simp only [Sys.next]
        split
        · simp [WorkNet.setQueue, Function.update_of_ne hx]
        · rfl
  | _ => exact .inl h

end Libcircle
