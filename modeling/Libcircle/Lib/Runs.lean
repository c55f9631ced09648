import Mathlib.Order.RelClasses
import Mathlib.Tactic.Common

/-!
# Event systems and their runs

An *event system* says which events a state enables and which state each event
leads to.  A *run* is a list of events, each enabled where it is taken.  Two
rules cover the inductions of a development over such a system.

* `Run.invariant`: a property that every enabled event preserves holds at the
  end of every run from a state that has it.
* `Run.append`: runs compose, so a schedule is built piece by piece.

`Leads s P` says that some run from `s` ends in a state that has `P`.  A goal is
reached if, while it is not, a state with a lower measure is (`Leads.descend`).

A *path* of a relation is the same for steps that are not functions of their
label.  `LabelledPath.simulate` relates the paths of two relations with the same labels.

`restrict` keeps only the events that meet a condition on the state they are
taken in.  A statement about every run whose steps all meet a condition is a
statement about the restricted system.  `follow` and `Admits` evaluate a
concrete list of events.
-/

/-- States, the events they enable, and the effect of each event. -/
structure EventSystem (σ ε : Type*) where
  /-- The events that can be taken in a state. -/
  Enabled : σ → ε → Prop
  /-- The state an event leads to. -/
  next : σ → ε → σ

namespace EventSystem

variable {σ ε : Type*} {S : EventSystem σ ε} {s t u : σ} {e : ε} {es fs : List ε}

/-- A run: a list of events, each enabled in the state it is taken in. -/
inductive Run (S : EventSystem σ ε) : σ → List ε → σ → Prop where
  | nil (s : σ) : Run S s [] s
  | cons {s t : σ} {e : ε} {es : List ε} :
      S.Enabled s e → Run S (S.next s e) es t → Run S s (e :: es) t

theorem Run.single (h : S.Enabled s e) : S.Run s [e] (S.next s e) :=
  .cons h (.nil _)

/-- Runs compose. -/
theorem Run.append (h : S.Run s es t) (h' : S.Run t fs u) : S.Run s (es ++ fs) u := by
  induction h with
  | nil => exact h'
  | cons he _ ih => exact .cons he (ih h')

theorem Run.snoc (h : S.Run s es t) (he : S.Enabled t e) :
    S.Run s (es ++ [e]) (S.next t e) :=
  h.append (.single he)

/-- A property that every enabled event preserves holds along every run. -/
theorem Run.invariant {I : σ → Prop} (step : ∀ s e, I s → S.Enabled s e → I (S.next s e))
    (h : S.Run s es t) (hs : I s) : I t := by
  induction h with
  | nil => exact hs
  | cons he _ ih => exact ih (step _ _ hs he)

/-- A relation to another system that every step keeps is kept by every run. -/
theorem Run.simulate {σ' ε' : Type*} {S' : EventSystem σ' ε'} {R : σ → σ' → Prop}
    (step : ∀ s x e, R s x → S.Enabled s e → ∃ fs y, S'.Run x fs y ∧ R (S.next s e) y)
    (h : S.Run s es t) {x : σ'} (hs : R s x) : ∃ fs y, S'.Run x fs y ∧ R t y := by
  induction h generalizing x with
  | nil => exact ⟨[], x, .nil x, hs⟩
  | cons he _ ih =>
      obtain ⟨fs, y, hy, hR⟩ := step _ _ _ hs he
      obtain ⟨gs, z, hz, hR'⟩ := ih hR
      exact ⟨fs ++ gs, z, hy.append hz, hR'⟩

/-- A function to the states of another system takes runs to runs if it takes steps to steps. -/
theorem Run.map {σ' : Type*} {S' : EventSystem σ' ε} (f : σ → σ')
    (enabled : ∀ s e, S.Enabled s e → S'.Enabled (f s) e)
    (next : ∀ s e, S'.next (f s) e = f (S.next s e)) (h : S.Run s es t) :
    S'.Run (f s) es (f t) := by
  induction h with
  | nil => exact .nil _
  | @cons s t e es he _ ih => exact .cons (enabled _ _ he) (next s e ▸ ih)

/-! ## Runs whose steps meet a condition -/

/-- The system in which an event may be taken only where the condition holds. -/
def restrict (S : EventSystem σ ε) (C : σ → ε → Prop) : EventSystem σ ε where
  Enabled s e := S.Enabled s e ∧ C s e
  next := S.next

variable {C D : σ → ε → Prop}

theorem Run.of_restrict (h : (S.restrict C).Run s es t) : S.Run s es t := by
  induction h with
  | nil => exact .nil _
  | cons he _ ih => exact .cons he.1 ih

theorem Run.restrict_mono (hCD : ∀ s e, C s e → D s e) (h : (S.restrict C).Run s es t) :
    (S.restrict D).Run s es t := by
  induction h with
  | nil => exact .nil _
  | cons he _ ih => exact .cons ⟨he.1, hCD _ _ he.2⟩ ih

/-- A run whose events all meet a condition. -/
theorem Run.restrict_of_forall {D : ε → Prop} (h : S.Run s es t) (hes : ∀ e ∈ es, D e) :
    (S.restrict fun _ => D).Run s es t := by
  induction h with
  | nil => exact .nil _
  | cons he _ ih =>
      obtain ⟨hD, hes⟩ := List.forall_mem_cons.mp hes
      exact .cons ⟨he, hD⟩ (ih hes)

/-- A property that every enabled event meeting the condition preserves. -/
theorem Run.restrict_invariant {I : σ → Prop}
    (step : ∀ s e, I s → S.Enabled s e → C s e → I (S.next s e))
    (h : (S.restrict C).Run s es t) (hs : I s) : I t :=
  Run.invariant (S := S.restrict C) (fun s e hI hE => step s e hI hE.1 hE.2) h hs

/-! ## States that can be reached -/

/-- Some run from `s` ends in a state that has `P`. -/
def Leads (S : EventSystem σ ε) (s : σ) (P : σ → Prop) : Prop := ∃ es t, S.Run s es t ∧ P t

variable {P Q I G : σ → Prop}

theorem Leads.here (h : P s) : S.Leads s P := ⟨[], s, .nil s, h⟩

theorem Leads.cons (he : S.Enabled s e) (h : S.Leads (S.next s e) P) : S.Leads s P := by
  obtain ⟨es, t, hrun, ht⟩ := h
  exact ⟨e :: es, t, .cons he hrun, ht⟩

theorem Leads.trans (h : S.Leads s P) (hP : ∀ t, P t → S.Leads t Q) : S.Leads s Q := by
  obtain ⟨es, t, hrun, ht⟩ := h
  obtain ⟨fs, u, hrun', hu⟩ := hP t ht
  exact ⟨es ++ fs, u, hrun.append hrun', hu⟩

theorem Leads.mono (h : S.Leads s P) (hPQ : ∀ t, P t → Q t) : S.Leads s Q := by
  obtain ⟨es, t, hrun, ht⟩ := h
  exact ⟨es, t, hrun, hPQ t ht⟩

theorem Leads.restrict_mono (hCD : ∀ s e, C s e → D s e) (h : (S.restrict C).Leads s P) :
    (S.restrict D).Leads s P := by
  obtain ⟨es, t, hrun, ht⟩ := h
  exact ⟨es, t, hrun.restrict_mono hCD, ht⟩

/-- What the run keeps holds at its end as well. -/
theorem Leads.invariant (h : S.Leads s P) (step : ∀ s e, I s → S.Enabled s e → I (S.next s e))
    (hs : I s) : S.Leads s fun t => I t ∧ P t := by
  obtain ⟨es, t, hrun, ht⟩ := h
  exact ⟨es, t, hrun, hrun.invariant step hs, ht⟩

/-- While the goal is not reached, a state with a lower measure is.  So the goal is. -/
theorem Leads.descend {β : Type*} [LT β] [WellFoundedLT β] (μ : σ → β)
    (step : ∀ s, I s → ¬G s → S.Leads s fun t => I t ∧ (G t ∨ μ t < μ s)) (hs : I s) :
    S.Leads s fun t => I t ∧ G t := by
  induction hn : μ s using WellFoundedLT.induction generalizing s with
  | _ n ih =>
    by_cases hG : G s
    · exact .here ⟨hs, hG⟩
    · refine (step s hs hG).trans fun t ht => ?_
      obtain ⟨hI, hG | hlt⟩ := ht
      · exact .here ⟨hI, hG⟩
      · exact ih _ (hn ▸ hlt) hI rfl

/-! ## Evaluating a list of events -/

/-- The state after a list of events, enabled or not. -/
def follow (S : EventSystem σ ε) (s : σ) (es : List ε) : σ := es.foldl S.next s

/-- Every event of the list is enabled where it is taken. -/
def Admits (S : EventSystem σ ε) : σ → List ε → Prop
  | _, [] => True
  | s, e :: es => S.Enabled s e ∧ S.Admits (S.next s e) es

instance Admits.decidable [∀ s e, Decidable (S.Enabled s e)] :
    ∀ (s : σ) (es : List ε), Decidable (S.Admits s es)
  | _, [] => .isTrue trivial
  | s, e :: es =>
      have : Decidable (S.Admits (S.next s e) es) := Admits.decidable (S.next s e) es
      inferInstanceAs (Decidable (S.Enabled s e ∧ S.Admits (S.next s e) es))

instance restrict.decidable [∀ s e, Decidable (S.Enabled s e)] [∀ s e, Decidable (C s e)] :
    ∀ s e, Decidable ((S.restrict C).Enabled s e) :=
  fun s e => inferInstanceAs (Decidable (S.Enabled s e ∧ C s e))

theorem Run.of_admits : ∀ {es : List ε} {s : σ}, S.Admits s es → S.Run s es (S.follow s es)
  | [], _, _ => .nil _
  | _ :: _, _, h => .cons h.1 (Run.of_admits h.2)

end EventSystem

/-! ## Paths of a labelled relation -/

/-- Steps of a relation one after the other, with their labels. -/
inductive LabelledPath {σ ε : Type*} (R : σ → ε → σ → Prop) : σ → List ε → σ → Prop where
  | nil (s : σ) : LabelledPath R s [] s
  | cons {s t u : σ} {e : ε} {es : List ε} :
      R s e t → LabelledPath R t es u → LabelledPath R s (e :: es) u

/-- Paths compose. -/
theorem LabelledPath.append {σ ε : Type*} {R : σ → ε → σ → Prop} {s t u : σ} {es fs : List ε}
    (h : LabelledPath R s es t) (h' : LabelledPath R t fs u) : LabelledPath R s (es ++ fs) u := by
  induction h with
  | nil => exact h'
  | cons he _ ih => exact .cons he (ih h')

/-- If every step has a counterpart with the same label, so does every path. -/
theorem LabelledPath.simulate {σ τ ε : Type*} {R : σ → ε → σ → Prop} {R' : τ → ε → τ → Prop}
    {I : σ → τ → Prop} (step : ∀ {s t x e}, I s x → R s e t → ∃ y, R' x e y ∧ I t y)
    {s t : σ} {es : List ε} (h : LabelledPath R s es t) {x : τ} (hs : I s x) :
    ∃ y, LabelledPath R' x es y ∧ I t y := by
  induction h generalizing x with
  | nil => exact ⟨x, .nil x, hs⟩
  | cons he _ ih =>
      obtain ⟨y, hy, hI⟩ := step hs he
      obtain ⟨z, hz, hI'⟩ := ih hI
      exact ⟨z, .cons hy hz, hI'⟩
