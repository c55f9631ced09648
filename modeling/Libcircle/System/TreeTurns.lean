import Libcircle.System.Invocations
import Libcircle.System.TreeSoundness

/-!
# Tree termination over many invocations

In a sequence of invocations that all use the tree, the termination of invocation
`k` starts with the first rank that calls `CIRCLE_begin` for the `k`-th time
(`treeTurn_advance`).  At that time the one before is settled and no rank is in its
loops any more, so its allreduce is quiet and the tree may change.  From then on the
invocation is searching or settled (`treeTurn_next`), also while other ranks are
still on their way out of the one before.
-/

namespace Libcircle

variable {α : Type*} {job : Job} {s t : Sys α} {e : Event α} {r x : Rank} {k : Nat}

/-- The termination of invocation `k`, the last that some rank has begun. -/
structure Sys.TreeTurn (job : Job) (k : Nat) (s : Sys α) : Prop where
  turn : s.TermTurn job k
  inv_le : ∀ r, s.inv r ≤ k
  /-- No rank is more than one invocation behind. -/
  behind : ∀ r, r < job.size → k ≤ s.inv r + 1
  /-- Some rank has begun the invocation, unless it is the first. -/
  begun : k = 1 ∨ ∃ r, r < job.size ∧ s.inv r = k
  phase : s.termView.Searching job k ∨ s.termView.Settled job k

theorem treeTurn_start (queue : Rank → List α) (abortFlag : Rank → Bool)
    (input : Rank → ReduceInput) (enqueued : List α) :
    (Sys.start queue abortFlag input enqueued).TreeTurn job 1 where
  turn := (treeTerm_start ..).turn
  inv_le _ := Nat.zero_le _
  behind _ _ := Nat.le_refl _
  begun := .inl rfl
  phase := .inl (searching_start ..)

/-! ## The numbers of the invocations -/

theorem inv_next_begin {next : Option Rank} {ops : List (WorkOp α)} :
    (s.next job (.begin r next ops)).inv = Function.update s.inv r (s.inv r + 1) := rfl

/-- Once a rank has completed an abort reduction, no rank is in the loops before it. -/
theorem Sys.Turns.not_looping (h : s.Turns job) (hr : r < job.size) (hx : x < job.size)
    (hred : s.reductions r = s.inv r) (hinv : s.inv x = s.inv r) : ¬(s.loc x).Looping := by
  intro hl
  obtain ⟨j, hj⟩ := h.abort
  obtain ⟨_, hredx, hw⟩ := (h.coherent.ok x).counted_of_looping hl
  have hlt : s.reductions x < s.reductions r := by omega
  have hup := hj.up_of_done_lt hr hx hlt
  exact absurd (hw.symm.trans hup) (by decide)

/-- A rank outside has completed its last abort reduction. -/
theorem Sys.Ok.reductions_of_outside (h : s.Ok job r) (hst : s.stage r = .outside) :
    s.reductions r = s.inv r := by
  have hc := h.tidy.counted
  rw [show (s.loc r).stage = .outside from hst] at hc
  exact hc.2

/-! ## The steps -/

namespace Sys.TreeTurn

/-- A rank that begins an invocation that no rank has begun finds the one before settled. -/
theorem settled_of_idle (h : s.TreeTurn job k) (hpc : s.pc r = .idle) (hinv : s.inv r = k) :
    s.termView.Settled job k := by
  refine h.phase.resolve_left fun hS => ?_
  have hst : s.stage r = .outside := ((h.turn.coherent.ok r).requested_of_idle hpc).1
  have hlt := hS.inv_lt (show s.termView.stage r ≠ .main by simp [Sys.termView, hst])
  exact absurd hlt (Nat.not_lt.mpr (Nat.le_of_eq hinv.symm))

end Sys.TreeTurn

/-- A step that begins no later invocation. -/
theorem treeTurn_next (ht : (job.opts k).termTree = true) (he : s.Enabled job e)
    (hb : BeginsAt k s e) (h : s.TreeTurn job k) : (s.next job e).TreeTurn job k := by
  obtain ⟨hT, hle, hbehind, hbegun, hphase⟩ := h
  obtain ⟨hcoh, hterm, hA, hmain⟩ := id hT
  have hcoh' := coherent_next he hcoh
  have hinv : ∀ x, (s.next job e).inv x ≤ k := by
    intro x
    cases e with
    | begin r next ops =>
        rw [inv_next_begin]
        by_cases hx : x = r
        · rw [hx, Function.update_self]
          exact Nat.le_of_eq hb
        · rw [Function.update_of_ne hx]
          exact hle x
    | _ => exact hle x
  have hphase' : (s.next job e).termView.Searching job k ∨
      (s.next job e).termView.Settled job k := by
    rcases hphase with hs | hs
    · exact searching_next ht he hb hT hs
    · exact .inr (hs.of_calm (settled_calm he hb hcoh hA hs))
  refine ⟨⟨hcoh', termWave_next he hcoh hmain hterm, accounted_next he ?_ hcoh hA, fun x hst => ?_⟩,
    hinv, fun x hx => (hbehind x hx).trans (Nat.add_le_add_right (inv_le_next x) 1), ?_, hphase'⟩
  · cases e with
    | begin r next ops =>
        -- the rank that begins was late, and settled the invocation before
        intro hpos hring
        rcases hphase with hs | hs
        · have hr := (hcoh.ok r).rank_lt he
          have hlt : s.inv r < k := Nat.lt_of_succ_le (Nat.le_of_eq hb)
          exact hs.late r hr hlt
        · exact (hs r ((hcoh.ok r).rank_lt he)).2.1
    | _ => trivial
  · rcases hphase' with hs | hs
    · exact hs.inv_eq hst
    · have hpc : (s.next job e).pc x ≠ .idle := fun hpc => by
        have hout := ((hcoh'.ok x).requested_of_idle hpc).1
        cases hout.symm.trans hst
      exact Nat.le_antisymm (hinv x) (hs x ((hcoh'.ok x).lt_size hpc)).1
  · rcases hbegun with h1 | ⟨x, hx, hxk⟩
    · exact .inl h1
    · exact .inr ⟨x, hx, Nat.le_antisymm (hinv x) (hxk ▸ inv_le_next x)⟩

/-- The first rank that begins the next invocation. -/
theorem treeTurn_advance {next : Option Rank}
    {ops : List (WorkOp α)} (he : s.Enabled job (.begin r next ops)) (hk : s.inv r = k)
    (hturns : s.Turns job) (h : s.TreeTurn job k) :
    (s.next job (.begin r next ops)).TreeTurn job (k + 1) := by
  have hcoh := h.turn.coherent
  have hr := (hcoh.ok r).rank_lt he
  have hst : s.stage r = .outside := ((hcoh.ok r).requested_of_idle he.1).1
  have hS := h.settled_of_idle he.1 hk
  have hinv : ∀ x, x < job.size → s.inv x = k := fun x hx =>
    Nat.le_antisymm (h.inv_le x) (hS x hx).1
  have hred : s.reductions r = s.inv r := (hcoh.ok r).reductions_of_outside hst
  -- no rank is in the loops
  have hout : ∀ x, s.stage x = .after ∨ s.stage x = .outside := by
    intro x
    by_cases hx : x < job.size
    · have hl := hturns.not_looping hr hx hred ((hinv x hx).trans hk.symm)
      cases hstx : s.stage x with
      | main => exact absurd (.inl hstx) hl
      | cleanup => exact absurd (.inr hstx) hl
      | after => exact .inl rfl
      | outside => exact .inr rfl
    · refine .inr ((hcoh.ok x).requested_of_idle ?_).1
      by_contra hpc
      exact hx ((hcoh.ok x).lt_size hpc)
  have hne : ∀ x, s.stage x ≠ .main := fun x => by rcases hout x with h | h <;> simp [h]
  have hreset := fun x => (hcoh.ok x).tidy.term_reset (.inl (hne x))
  have hwave : (s.next job (.begin r next ops)).term.wave = s.term.wave :=
    TermNet.wave_init s.term (hreset r)
  have hnet : ∀ a b, s.term.net a b = [] := h.turn.term.net_eq_nil fun x _ => (hreset x).1
  have hinv' : ∀ x, x ≠ r → (s.next job (.begin r next ops)).inv x = s.inv x := fun x hx =>
    Function.update_of_ne hx _ _
  have hself : (s.next job (.begin r next ops)).inv r = k + 1 :=
    (Function.update_self ..).trans (congrArg (· + 1) hk)
  have hsearch : (s.next job (.begin r next ops)).termView.Searching job (k + 1) := by
    refine ⟨fun p c _ hmem => ?_, fun x => ?_, fun x hx hlt => ?_, .inr fun x _ hc => ?_⟩
    · have hmem : true ∈ s.term.net p c := hmem
      rw [hnet] at hmem
      cases hmem
    · by_cases hx : x = r
      · exact .inl ⟨hx ▸ Function.update_self .., hx ▸ hself⟩
      · refine .inr ⟨?_, ?_⟩
        · exact Nat.lt_succ_of_le ((hinv' x hx).le.trans (h.inv_le x))
        · simpa [Sys.termView, Sys.next, Function.update_of_ne hx] using hout x
    · by_cases hxr : x = r
      · exact absurd hlt (Nat.not_lt.mpr (hxr ▸ hself.ge))
      · simpa [Sys.termView, Sys.next, WorkNet.setQueue, WorkNet.init,
          Function.update_of_ne hxr] using (hS x hx).2.1
    · have hup : (s.next job (.begin r next ops)).term.wave.up x = true := hc.1
      rw [hwave] at hup
      exact absurd ((hreset x).1.symm.trans hup) (by decide)
  refine ⟨⟨coherent_next he hcoh, ?_, accounted_next he ?_ hcoh h.turn.accounted, fun x hstx => ?_⟩,
    fun x => ?_, fun x hx => ?_, .inr ⟨r, hr, hself⟩, .inl hsearch⟩
  · rw [hwave]
    exact h.turn.term.retree (fun _ hx => hx) fun x _ => (hreset x).1
  · intro _ _
    exact (hS r hr).2.1
  · exact hsearch.inv_eq hstx
  · by_cases hx : x = r
    · exact hx ▸ hself.le
    · exact (hinv' x hx).le.trans ((h.inv_le x).trans (Nat.le_succ k))
  · exact Nat.succ_le_succ ((hinv x hx).ge.trans (inv_le_next x))

end Libcircle
