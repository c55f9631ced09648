import Libcircle.Lib.Wave

/-!
# The rounds of a conjunction over a wave

A wave whose messages are truth values conjoins, in every round, one value of
each node.  A node adds the values of its children to its own (`acc`), reports
the result, and starts over.  The value of the root is the answer of the round.

A *ledger* keeps what the nodes forget: the value of a node without those of its
children (`own`), the children it heard in this round, and, round by round, what
it contributed, what it reported and what answer it got.  `Ledger.Inv` relates
the ledger to the wave, and every move preserves it.  So no round mixes with
another, and the answer of a round is the same at every node, and is the
conjunction of what the nodes contributed to it (`Inv.answer_iff`).
-/

/-- What the nodes of a wave contributed, reported and were answered. -/
structure Ledger (V : Type*) where
  /-- The value of a node without those of its children. -/
  own : V → Bool
  /-- The children a node heard in this round. -/
  heard : V → List V
  /-- The own values of a node, by round. -/
  contributed : V → List Bool
  /-- The values a node reported, by round. -/
  sent : V → List Bool
  /-- The answers a node got, by round. -/
  answers : V → List Bool

namespace Ledger

variable {V : Type*}

section Defs

variable [DecidableEq V]

/-- The ledger before the first round. -/
def empty : Ledger V where
  own _ := true
  heard _ := []
  contributed _ := []
  sent _ := []
  answers _ := []

variable (L : Ledger V) (x : V)

/-- The own value of `x` becomes `b`. -/
def setOwn (b : Bool) : Ledger V := { L with own := Function.update L.own x b }

/-- `x` hears `c`. -/
def hear (c : V) : Ledger V := { L with heard := Function.update L.heard x (L.heard x ++ [c]) }

/-- `x` reports `b`. -/
def report (b : Bool) : Ledger V :=
  { L with
    own := Function.update L.own x true
    contributed := Function.update L.contributed x (L.contributed x ++ [L.own x])
    sent := Function.update L.sent x (L.sent x ++ [b]) }

/-- `x` gets the answer `b`. -/
def finish (b : Bool) : Ledger V :=
  { L with
    heard := Function.update L.heard x []
    answers := Function.update L.answers x (L.answers x ++ [b]) }

end Defs

/-- The invariant of a ledger of the wave `w` whose nodes hold the values `acc`. -/
structure Inv (T : ParentTree V) (w : Wave V Bool) (acc : V → Bool) (L : Ledger V) : Prop where
  wave : w.Inv T
  contributed_length : ∀ x, T.IsNode x → (L.contributed x).length = w.done x + (w.up x).toNat
  sent_length : ∀ x, T.IsNode x → (L.sent x).length = w.done x + (w.up x).toNat
  answers_length : ∀ x, T.IsNode x → (L.answers x).length = w.done x
  heard_iff : ∀ p c, c ∈ L.heard p ↔ c ∈ T.children p ∧ w.counted p c = true
  /-- A node that has not reported conjoins its own value and those it heard. -/
  acc_iff : ∀ p, w.up p = false →
    (acc p = true ↔ L.own p = true ∧
      ∀ c ∈ T.children p, w.counted p c = true → (L.sent c)[w.done p]? = some true)
  /-- A node that has reported holds its value for the next round. -/
  acc_up : ∀ x, w.up x = true → acc x = L.own x
  /-- A report conjoins what the node contributed and what its children reported. -/
  sent_iff : ∀ p, T.IsNode p → ∀ n, n < (L.sent p).length →
    ((L.sent p)[n]? = some true ↔ (L.contributed p)[n]? = some true ∧
      ∀ c ∈ T.children p, (L.sent c)[n]? = some true)
  report : ∀ p c, c ∈ T.children p → ∀ m ∈ w.net c p, (L.sent c)[w.done c]? = some m
  answer : ∀ p c, c ∈ T.children p → ∀ m ∈ w.net p c, (L.sent T.root)[w.done c]? = some m
  agree : ∀ x, T.IsNode x → ∀ n, n < w.done x → (L.answers x)[n]? = (L.sent T.root)[n]?

variable {T : ParentTree V} {w : Wave V Bool} {acc : V → Bool} {L : Ledger V} {p c x : V} {m : Bool}

theorem inv_empty (hw : w.Inv T) (hdone : ∀ x, w.done x = 0) (hup : ∀ x, w.up x = false)
    (hnet : ∀ a b, w.net a b = []) (hacc : ∀ x, acc x = true) : Inv T w acc empty where
  wave := hw
  contributed_length x _ := by simp [empty, hdone, hup]
  sent_length x _ := by simp [empty, hdone, hup]
  answers_length x _ := by simp [empty, hdone]
  heard_iff p c := by simp [empty, Wave.Phase.counted_false_of_up_false (hup c)]
  acc_iff p _ := by
    refine ⟨fun _ => ⟨rfl, fun c _ hc => ?_⟩, fun _ => hacc p⟩
    rw [Wave.Phase.counted_false_of_up_false (hup c)] at hc
    cases hc
  acc_up x h := absurd ((hup x).symm.trans h) (by decide)
  sent_iff p _ n hn := absurd hn (by simp [empty])
  report p c _ m hm := by rw [hnet] at hm; cases hm
  answer p c _ m hm := by rw [hnet] at hm; cases hm
  agree x _ n hn := absurd hn (by simp [hdone])

/-! ## Reading the ledger -/

section Facts

variable (h : Inv T w acc L)
include h

/-- A report in flight is that of a child not yet heard, for the same round. -/
theorem Inv.fresh_report (hr : w.replies p < (T.children p).length) (hm : w.net c p ≠ []) :
    c ∈ T.children p ∧ c ∉ L.heard p ∧ w.done c = w.done p ∧
      ∃ b, w.net c p = [b] ∧ (L.sent c)[w.done p]? = some b := by
  have hc := h.wave.child_of_pending hr hm
  obtain ⟨b, hb, hdone, hup, _⟩ := h.wave.sent_of_report hc hm
  refine ⟨hc, fun hheard => ?_, hdone, b, hb, ?_⟩
  · exact hm (Wave.counted_iff.mp ((h.heard_iff p c).mp hheard).2).2.2
  · rw [← hdone]
    exact h.report p c hc b (by simp [hb])

/-- A report of the root is true exactly if every node contributed true. -/
theorem Inv.sent_root_iff (hwf : WellFounded fun c p => c ∈ T.children p) {n : ℕ}
    (hn : n < (L.sent T.root).length) :
    (L.sent T.root)[n]? = some true ↔ ∀ x, T.IsNode x → (L.contributed x)[n]? = some true := by
  have hlen : ∀ x, T.IsNode x → n < (L.sent x).length := by
    refine T.induct hn fun p c hp hc ih => ?_
    rw [h.sent_length p hp] at ih
    rw [h.sent_length c (T.node_of_mem hc)]
    exact Nat.lt_of_lt_of_le ih (h.wave.reports_le hc)
  constructor
  · -- from the root downwards
    intro hroot
    have hall : ∀ x, T.IsNode x → (L.sent x)[n]? = some true := by
      refine T.induct hroot fun p c hp hc ih => ?_
      exact ((h.sent_iff p hp n (hlen p hp)).mp ih).2 c hc
    exact fun x hx => ((h.sent_iff x hx n (hlen x hx)).mp (hall x hx)).1
  · -- from the leaves upwards
    intro hall
    have hsent : ∀ x, T.IsNode x → (L.sent x)[n]? = some true := by
      intro x
      induction x using hwf.induction with
      | _ x ih =>
        intro hx
        exact (h.sent_iff x hx n (hlen x hx)).mpr
          ⟨hall x hx, fun c hc => ih c hc (T.node_of_mem hc)⟩
    exact hsent T.root T.root_node

/-- The answer of a round is the same at every node, and true exactly if every node contributed
true to that round. -/
theorem Inv.answer_iff (hwf : WellFounded fun c p => c ∈ T.children p) (hx : T.IsNode x) {n : ℕ}
    (hn : n < w.done x) :
    ∃ b, (L.answers x)[n]? = some b ∧ (L.sent T.root)[n]? = some b ∧
      (b = true ↔ ∀ y, T.IsNode y → (L.contributed y)[n]? = some true) := by
  have hroot : n < (L.sent T.root).length := by
    rw [h.sent_length _ T.root_node]
    rcases h.wave.done_cases x hx with hd | ⟨hd, _⟩ <;> omega
  have hagree := h.agree x hx n hn
  rw [List.getElem?_eq_getElem hroot] at hagree
  refine ⟨(L.sent T.root)[n], hagree, List.getElem?_eq_getElem hroot, ?_⟩
  rw [← h.sent_root_iff hwf hroot, List.getElem?_eq_getElem hroot, Option.some_inj]

end Facts

/-! ## The moves preserve the invariant -/

section Moves

variable [DecidableEq V]

/-- A value a node reported before is not changed by its next report. -/
theorem report_sent_of_lt {b : Bool} {y : V} {n : ℕ} (hn : n < (L.sent y).length) :
    ((L.report x b).sent y)[n]? = (L.sent y)[n]? := by
  by_cases hy : y = x
  · subst hy
    simp only [report, Function.update_self]
    exact List.getElem?_append_left hn
  · simp only [report, Function.update_of_ne hy]

variable (h : Inv T w acc L)
include h

/-- The own value of a node is lowered. -/
theorem Inv.clear (x : V) : Inv T w (Function.update acc x false) (L.setOwn x false) where
  wave := h.wave
  contributed_length := h.contributed_length
  sent_length := h.sent_length
  answers_length := h.answers_length
  heard_iff := h.heard_iff
  acc_iff p hp := by
    by_cases hpx : p = x
    · subst hpx
      simp [setOwn]
    · simpa [setOwn, Function.update_of_ne hpx] using h.acc_iff p hp
  acc_up p hp := by
    by_cases hpx : p = x
    · subst hpx
      simp [setOwn]
    · simpa [setOwn, Function.update_of_ne hpx] using h.acc_up p hp
  sent_iff := h.sent_iff
  report := h.report
  answer := h.answer
  agree := h.agree

/-- A node that has not heard anything in this round starts over. -/
theorem Inv.restart (hup : w.up x = false) (hr : w.replies x = 0) :
    Inv T w (Function.update acc x true) (L.setOwn x true) where
  wave := h.wave
  contributed_length := h.contributed_length
  sent_length := h.sent_length
  answers_length := h.answers_length
  heard_iff := h.heard_iff
  acc_iff p hp := by
    by_cases hpx : p = x
    · subst hpx
      have hnone : ∀ c ∈ T.children p, ¬w.counted p c = true :=
        List.countP_eq_zero.mp ((h.wave.replies_eq p).symm.trans hr)
      simpa [setOwn] using fun c hc hcnt => absurd hcnt (hnone c hc)
    · simpa [setOwn, Function.update_of_ne hpx] using h.acc_iff p hp
  acc_up p hp := by
    have hpx : p ≠ x := by
      rintro rfl
      exact absurd (hup.symm.trans hp) (by decide)
    simpa [setOwn, Function.update_of_ne hpx] using h.acc_up p hp
  sent_iff := h.sent_iff
  report := h.report
  answer := h.answer
  agree := h.agree

/-- `p` hears the report `m` of its child `c`. -/
theorem Inv.hear (hc : c ∈ T.children p) (hu : w.net c p = [m]) :
    Inv T (w.recv p c) (Function.update acc p (acc p && m)) (L.hear p c) := by
  obtain ⟨_, _, hdone, hup, hd⟩ := h.wave.sent_of_report hc (by simp [hu])
  have hself : (w.recv p c).counted p c = true := Wave.counted_recv_self hup hdone hu
  have hbefore : ¬w.counted p c = true := by simp [Wave.counted, hu]
  have hp_up : w.up p = false := h.wave.up_false_of_report hc (by simp [hu])
  have hm : (L.sent c)[w.done p]? = some m := by
    rw [← hdone]
    exact h.report p c hc m (by simp [hu])
  refine
    { wave := h.wave.recv hc (by simp [hu])
      contributed_length := h.contributed_length
      sent_length := h.sent_length
      answers_length := h.answers_length
      heard_iff := fun p' c' => ?_
      acc_iff := fun p' hup' => ?_
      acc_up := fun x hx => ?_
      sent_iff := h.sent_iff
      report := fun p' c' hc' b hb => h.report p' c' hc' b (Chan.mem_of_mem_pop _ hb)
      answer := fun p' c' hc' b hb => h.answer p' c' hc' b (Chan.mem_of_mem_pop _ hb)
      agree := h.agree }
  · by_cases hp : p' = p
    · subst hp
      simp only [Ledger.hear, Function.update_self, List.mem_append, List.mem_singleton]
      by_cases hcc : c' = c
      · subst hcc
        simp [hc, hself]
      · rw [Wave.counted_recv_ne fun he => hcc he.1, h.heard_iff]
        simp [hcc]
    · rw [Wave.counted_recv_ne fun he => hp he.2]
      simpa only [Ledger.hear, Function.update_of_ne hp] using h.heard_iff p' c'
  · have hacc := h.acc_iff p' hup'
    by_cases hp : p' = p
    · -- one more child is heard
      subst hp
      rw [Function.update_self, Bool.and_eq_true, hacc]
      constructor
      · rintro ⟨⟨hown, hall⟩, hmt⟩
        refine ⟨hown, fun c' hc' hcnt => ?_⟩
        by_cases hcc : c' = c
        · subst hcc
          rw [hmt] at hm
          exact hm
        · rw [Wave.counted_recv_ne fun he => hcc he.1] at hcnt
          exact hall c' hc' hcnt
      · rintro ⟨hown, hall⟩
        refine ⟨⟨hown, fun c' hc' hcnt => ?_⟩, ?_⟩
        · have hcc : ¬(c' = c ∧ p' = p') := fun he => hbefore (he.1 ▸ hcnt)
          exact hall c' hc' ((Wave.counted_recv_ne hcc).trans hcnt)
        · exact Option.some.inj (hm.symm.trans (hall c hc hself))
    · rw [Function.update_of_ne hp, hacc]
      have hsame : ∀ c', (w.recv p c).counted p' c' = w.counted p' c' := fun c' =>
        Wave.counted_recv_ne fun he => hp he.2
      simp only [hsame]
      rfl
  · have hxp : x ≠ p := by
      rintro rfl
      exact absurd (hp_up.symm.trans hx) (by decide)
    rw [Function.update_of_ne hxp]
    exact h.acc_up x hx

/-- The ledger after `x`, having heard all its children, reports what it holds. -/
theorem Inv.sent_iff_report (hx : T.IsNode x) (hup : w.up x = false)
    (hall : ∀ c ∈ T.children x, w.counted x c = true) :
    ∀ p, T.IsNode p → ∀ n, n < ((L.report x (acc x)).sent p).length →
      (((L.report x (acc x)).sent p)[n]? = some true ↔
        ((L.report x (acc x)).contributed p)[n]? = some true ∧
          ∀ c ∈ T.children p, ((L.report x (acc x)).sent c)[n]? = some true) := by
  intro p hp n hn
  have hlen := h.sent_length x hx
  have hclen := h.contributed_length x hx
  rw [hup, Bool.toNat_false, Nat.add_zero] at hlen hclen
  by_cases hpx : p = x
  · subst hpx
    have hchild : ∀ c ∈ T.children p, ((L.report p (acc p)).sent c) = L.sent c := fun c hc =>
      Function.update_of_ne (T.ne_of_mem hc).symm _ _
    simp only [Ledger.report, Function.update_self, List.length_append,
      List.length_singleton] at hn ⊢
    rcases Nat.lt_succ_iff_lt_or_eq.mp hn with hlt | rfl
    · rw [List.getElem?_append_left hlt,
        List.getElem?_append_left (Nat.lt_of_lt_of_eq hlt (hlen.trans hclen.symm)),
        h.sent_iff p hp n hlt]
      refine and_congr_right fun _ => forall₂_congr fun c hc => ?_
      rw [show Function.update L.sent p (L.sent p ++ [acc p]) c = L.sent c from hchild c hc]
    · -- the round reported now
      rw [List.getElem?_concat_length, hlen, ← hclen, List.getElem?_concat_length, hclen,
        Option.some_inj, Option.some_inj, h.acc_iff p hup]
      refine and_congr_right fun _ => forall₂_congr fun c hc => ?_
      rw [show Function.update L.sent p (L.sent p ++ [acc p]) c = L.sent c from hchild c hc]
      exact ⟨fun hsent => hsent (hall c hc), fun hsent _ => hsent⟩
  · have hpsent : (L.report x (acc x)).sent p = L.sent p := Function.update_of_ne hpx _ _
    have hpcontr : (L.report x (acc x)).contributed p = L.contributed p :=
      Function.update_of_ne hpx _ _
    rw [hpsent] at hn ⊢
    rw [hpcontr, h.sent_iff p hp n hn]
    refine and_congr_right fun _ => forall₂_congr fun c hc => ?_
    have hle := h.wave.reports_le hc
    rw [← h.sent_length p hp, ← h.sent_length c (T.node_of_mem hc)] at hle
    rw [report_sent_of_lt (Nat.lt_of_lt_of_le hn hle)]

/-- `x` reports what it holds to its parent `p`. -/
theorem Inv.send (hx : x ∈ T.children p) (hup : w.up x = false)
    (hall : ∀ c ∈ T.children x, w.counted x c = true) :
    Inv T (w.send x p (acc x)) (Function.update acc x true) (L.report x (acc x)) := by
  have hnode := T.node_of_mem hx
  have hupx : (w.send x p (acc x)).up x = true := Function.update_self ..
  have hupne : ∀ y, y ≠ x → (w.send x p (acc x)).up y = w.up y := fun y hy =>
    Function.update_of_ne hy _ _
  have hlenx := h.sent_length x hnode
  rw [hup, Bool.toNat_false, Nat.add_zero] at hlenx
  have hcnt : ∀ q c, c ∈ T.children q →
      (w.send x p (acc x)).counted q c = w.counted q c := fun q c hc =>
    Wave.counted_send hx hup hc
  -- the report of a node that has been heard is kept
  have hkept : ∀ q c, c ∈ T.children q → w.up c = true →
      ((L.report x (acc x)).sent c)[w.done c]? = (L.sent c)[w.done c]? := by
    intro q c hc hupc
    refine report_sent_of_lt ?_
    rw [h.sent_length c (T.node_of_mem hc), hupc]
    exact Nat.lt_succ_self _
  refine
    { wave := h.wave.send hx hup hall _
      contributed_length := fun y hy => ?_
      sent_length := fun y hy => ?_
      answers_length := h.answers_length
      heard_iff := fun q c => ?_
      acc_iff := fun q hq => ?_
      acc_up := fun y hy => ?_
      sent_iff := h.sent_iff_report hnode hup hall
      report := fun q c hc b hb => ?_
      answer := fun q c hc b hb => ?_
      agree := fun y hy n hn => ?_ }
  · by_cases hyx : y = x
    · subst hyx
      have hlen := h.contributed_length y hnode
      rw [hup] at hlen
      simp [Ledger.report, hlen, Wave.send]
    · simpa [Ledger.report, Function.update_of_ne hyx, Wave.send] using h.contributed_length y hy
  · by_cases hyx : y = x
    · subst hyx
      simp [Ledger.report, hlenx, Wave.send]
    · simpa [Ledger.report, Function.update_of_ne hyx, Wave.send] using h.sent_length y hy
  · rw [show (L.report x (acc x)).heard q = L.heard q from rfl, h.heard_iff]
    exact and_congr_right fun hc => by rw [hcnt q c hc]
  · have hqx : q ≠ x := by
      rintro rfl
      exact absurd (hupx.symm.trans hq) (by decide)
    rw [hupne q hqx] at hq
    rw [Function.update_of_ne hqx, h.acc_iff q hq,
      show (L.report x (acc x)).own q = L.own q from Function.update_of_ne hqx _ _]
    refine and_congr_right fun _ => forall₂_congr fun c hc => ?_
    rw [hcnt q c hc]
    refine forall_congr' fun hcq => ?_
    obtain ⟨hupc, hdone, _⟩ := Wave.counted_iff.mp hcq
    rw [show (w.send x p (acc x)).done q = w.done q from rfl, ← hdone, hkept q c hc hupc]
  · by_cases hyx : y = x
    · subst hyx
      simp [Ledger.report]
    · rw [hupne y hyx] at hy
      simpa [Ledger.report, Function.update_of_ne hyx] using h.acc_up y hy
  · rcases (Chan.mem_push w.net (acc x)).mp hb with hb | ⟨rfl, rfl, rfl⟩
    · obtain ⟨_, _, _, hupc, _⟩ := h.wave.sent_of_report hc (List.ne_nil_of_mem hb)
      exact (hkept q c hc hupc).trans (h.report q c hc b hb)
    · simp [Ledger.report, ← hlenx, Wave.send]
  · rcases (Chan.mem_push w.net (acc x)).mp hb with hb | ⟨rfl, rfl, _⟩
    · rw [show (L.report x (acc x)).sent T.root = L.sent T.root from
        Function.update_of_ne (Wave.root_ne_of_mem hx) _ _]
      exact h.answer q c hc b hb
    · exact absurd hx (T.not_mem_children_symm hc)
  · rw [show (L.report x (acc x)).sent T.root = L.sent T.root from
      Function.update_of_ne (Wave.root_ne_of_mem hx) _ _]
    exact h.agree y hy n hn

/-- The root, having heard all its children, answers with what it holds. -/
theorem Inv.release_root (hall : ∀ c ∈ T.children T.root, w.counted T.root c = true) :
    Inv T (w.release T.root (T.children T.root) (acc T.root)) (Function.update acc T.root true)
      ((L.report T.root (acc T.root)).finish T.root (acc T.root)) := by
  have hup := h.wave.root_up
  have hlen := h.sent_length T.root T.root_node
  have hclen := h.contributed_length T.root T.root_node
  rw [hup, Bool.toNat_false, Nat.add_zero] at hlen hclen
  have hchild : ∀ q c, c ∈ T.children q → c ≠ T.root := fun q c hc =>
    (Wave.root_ne_of_mem hc).symm
  have habove : ∀ q, T.root ∈ T.children q → w.done q = w.done T.root + 1 := fun q hq =>
    absurd rfl (Wave.root_ne_of_mem hq)
  have hdone : ∀ y, y ≠ T.root → (w.release T.root (T.children T.root) (acc T.root)).done y =
      w.done y := fun y hy => Function.update_of_ne hy _ _
  have hupne : ∀ y, y ≠ T.root → (w.release T.root (T.children T.root) (acc T.root)).up y =
      w.up y := fun y hy => Function.update_of_ne hy _ _
  have hsent : ((L.report T.root (acc T.root)).finish T.root (acc T.root)).sent =
      (L.report T.root (acc T.root)).sent := rfl
  have hsentne : ∀ y, y ≠ T.root → (L.report T.root (acc T.root)).sent y = L.sent y :=
    fun y hy => Function.update_of_ne hy _ _
  refine
    { wave := h.wave.release_root hall _
      contributed_length := fun y hy => ?_
      sent_length := fun y hy => ?_
      answers_length := fun y hy => ?_
      heard_iff := fun q c => ?_
      acc_iff := fun q hq => ?_
      acc_up := fun y hy => ?_
      sent_iff := h.sent_iff_report T.root_node hup hall
      report := fun q c hc b hb => ?_
      answer := fun q c hc b hb => ?_
      agree := fun y hy n hn => ?_ }
  · by_cases hyr : y = T.root
    · subst hyr
      simp [Ledger.report, finish, hclen, Wave.release]
    · simpa [Ledger.report, finish, Function.update_of_ne hyr, Wave.release] using
        h.contributed_length y hy
  · by_cases hyr : y = T.root
    · subst hyr
      simp [Ledger.report, finish, hlen, Wave.release]
    · simpa [Ledger.report, finish, Function.update_of_ne hyr, Wave.release] using
        h.sent_length y hy
  · by_cases hyr : y = T.root
    · subst hyr
      simp [Ledger.report, finish, h.answers_length _ hy, Wave.release]
    · simpa [Ledger.report, finish, Function.update_of_ne hyr, Wave.release] using
        h.answers_length y hy
  · by_cases hq : q = T.root
    · subst hq
      simp only [finish, Function.update_self, List.not_mem_nil, false_iff, not_and]
      intro hc
      rw [Wave.counted_release_self hc (Wave.counted_iff.mp (hall c hc)).2.1]
      decide
    · simp only [finish, Function.update_of_ne hq]
      rw [show (L.report T.root (acc T.root)).heard q = L.heard q from rfl, h.heard_iff]
      exact and_congr_right fun hc => by rw [Wave.counted_release_ne (habove q) hc hq]
  · by_cases hqr : q = T.root
    · subst hqr
      simp only [Ledger.report, finish, Function.update_self, true_iff, true_and]
      intro c hc hcnt
      rw [Wave.counted_release_self hc (Wave.counted_iff.mp (hall c hc)).2.1] at hcnt
      cases hcnt
    · rw [hupne q hqr] at hq
      rw [Function.update_of_ne hqr, h.acc_iff q hq, hdone q hqr, hsent]
      refine and_congr (by simp [Ledger.report, finish, Function.update_of_ne hqr]) ?_
      refine forall₂_congr fun c hc => ?_
      rw [Wave.counted_release_ne (habove q) hc hqr, hsentne c (hchild q c hc)]
  · have hyr : y ≠ T.root := by
      rintro rfl
      rw [show (w.release T.root (T.children T.root) (acc T.root)).up T.root = false from
        Function.update_self ..] at hy
      cases hy
    rw [hupne y hyr] at hy
    simpa [Ledger.report, finish, Function.update_of_ne hyr] using h.acc_up y hy
  · rw [hsent, hsentne c (hchild q c hc), hdone c (hchild q c hc)]
    rcases (Chan.mem_bcast w.net (acc T.root)).mp hb with hb | ⟨rfl, _, _⟩
    · exact h.report q c hc b hb
    · exact absurd rfl (hchild q _ hc)
  · rw [hsent, hdone c (hchild q c hc)]
    rcases (Chan.mem_bcast w.net (acc T.root)).mp hb with hb | ⟨rfl, hc', rfl⟩
    · have hold := h.answer q c hc b hb
      rw [report_sent_of_lt (List.getElem?_eq_some_iff.mp hold).1]
      exact hold
    · -- the answer of this round
      rw [(Wave.counted_iff.mp (hall c hc')).2.1, ← hlen]
      simp [Ledger.report]
  · rw [hsent]
    by_cases hyr : y = T.root
    · subst hyr
      have hn' : n < w.done T.root + 1 := by
        simpa [Wave.release] using hn
      simp only [Ledger.report, finish, Function.update_self]
      rcases Nat.lt_succ_iff_lt_or_eq.mp hn' with hlt | rfl
      · rw [List.getElem?_append_left (by rw [h.answers_length _ hy]; exact hlt),
          List.getElem?_append_left (by rw [hlen]; exact hlt)]
        exact h.agree _ hy n hlt
      · rw [← h.answers_length _ hy, List.getElem?_concat_length, h.answers_length _ hy, ← hlen,
          List.getElem?_concat_length]
    · rw [hdone y hyr] at hn
      have hlt : n < (L.sent T.root).length := by
        rw [hlen]
        rcases h.wave.done_cases y hy with hd | ⟨hd, _⟩ <;> omega
      rw [report_sent_of_lt hlt]
      simpa [Ledger.report, finish, Function.update_of_ne hyr] using h.agree y hy n hn

/-- `x` receives the answer `m` of its parent `p`. -/
theorem Inv.get (hx : x ∈ T.children p) (hu : w.net p x = [m]) :
    Inv T (w.answer p x (T.children x) m) acc (L.finish x m) := by
  have hnode := T.node_of_mem hx
  obtain ⟨_, _, hdonep, hupx, hnil⟩ := h.wave.answered_of_answer hx (by simp [hu])
  have hcounted := h.wave.counted_of_up x hupx
  have hdone : ∀ y, y ≠ x → (w.answer p x (T.children x) m).done y = w.done y :=
    fun y hy => Function.update_of_ne hy _ _
  have hupne : ∀ y, y ≠ x → (w.answer p x (T.children x) m).up y = w.up y :=
    fun y hy => Function.update_of_ne hy _ _
  have hcnt : ∀ q c, c ∈ T.children q → q ≠ x →
      (w.answer p x (T.children x) m).counted q c = w.counted q c := by
    intro q c hc hq
    rw [Wave.answer, Wave.counted_release_ne (fun hxq => ?_) hc hq, Wave.counted_pop hx hc]
    rw [show q = p from T.parent_unique hxq hx]
    exact hdonep
  have hcnt_self : ∀ c, c ∈ T.children x →
      (w.answer p x (T.children x) m).counted x c = false := fun c hc =>
    Wave.counted_release_self hc (Wave.counted_iff.mp (hcounted c hc)).2.1
  have hanswer := h.answer p x hx m (by simp [hu])
  -- messages in flight after the answer were so before, or are the answer passed on
  have hnet : ∀ a b y, y ∈ (w.answer p x (T.children x) m).net a b →
      y ∈ w.net a b ∧ ¬(a = p ∧ b = x) ∨ (a = x ∧ b ∈ T.children x ∧ y = m) := by
    intro a b y hy
    rcases (Chan.mem_bcast (w.net.pop p x) m).mp hy with hy | hy
    · left
      by_cases hab : a = p ∧ b = x
      · obtain ⟨rfl, rfl⟩ := hab
        simp [hu] at hy
      · exact ⟨Chan.mem_of_mem_pop _ hy, hab⟩
    · exact .inr hy
  refine
    { wave := h.wave.answer hx (by simp [hu]) m
      contributed_length := fun y hy => ?_
      sent_length := fun y hy => ?_
      answers_length := fun y hy => ?_
      heard_iff := fun q c => ?_
      acc_iff := fun q hq => ?_
      acc_up := fun y hy => ?_
      sent_iff := h.sent_iff
      report := fun q c hc b hb => ?_
      answer := fun q c hc b hb => ?_
      agree := fun y hy n hn => ?_ }
  · by_cases hyx : y = x
    · subst hyx
      have hlen := h.contributed_length y hy
      rw [hupx] at hlen
      simpa [finish, Wave.answer, Wave.release] using hlen
    · rw [hdone y hyx, hupne y hyx]
      exact h.contributed_length y hy
  · by_cases hyx : y = x
    · subst hyx
      have hlen := h.sent_length y hy
      rw [hupx] at hlen
      simpa [finish, Wave.answer, Wave.release] using hlen
    · rw [hdone y hyx, hupne y hyx]
      exact h.sent_length y hy
  · by_cases hyx : y = x
    · subst hyx
      simp [finish, Wave.answer, Wave.release, h.answers_length y hy]
    · rw [hdone y hyx]
      simpa [finish, Function.update_of_ne hyx] using h.answers_length y hy
  · by_cases hq : q = x
    · subst hq
      simp only [finish, Function.update_self, List.not_mem_nil, false_iff, not_and]
      intro hc
      rw [hcnt_self c hc]
      decide
    · simp only [finish, Function.update_of_ne hq, h.heard_iff]
      exact and_congr_right fun hc => by rw [hcnt q c hc hq]
  · by_cases hqx : q = x
    · subst hqx
      rw [h.acc_up q hupx]
      refine ⟨fun hown => ⟨hown, fun c hc hcq => ?_⟩, And.left⟩
      rw [hcnt_self c hc] at hcq
      cases hcq
    · rw [hupne q hqx] at hq
      rw [h.acc_iff q hq, hdone q hqx]
      refine and_congr_right fun _ => forall₂_congr fun c hc => ?_
      rw [hcnt q c hc hqx]
      rfl
  · have hyx : y ≠ x := by
      rintro rfl
      rw [show (w.answer p y (T.children y) m).up y = false from Function.update_self ..] at hy
      cases hy
    rw [hupne y hyx] at hy
    exact h.acc_up y hy
  · rcases hnet c q b hb with ⟨hold, _⟩ | ⟨rfl, hq, _⟩
    · have hcx : c ≠ x := by
        rintro rfl
        rw [T.parent_unique hc hx, hnil] at hold
        cases hold
      rw [hdone c hcx]
      exact h.report q c hc b hold
    · exact absurd hq (T.not_mem_children_symm hc)
  · rcases hnet q c b hb with ⟨hb, hne⟩ | ⟨rfl, hc', rfl⟩
    · have hcx : c ≠ x := by
        rintro rfl
        exact hne ⟨T.parent_unique hc hx, rfl⟩
      rw [hdone c hcx]
      exact h.answer q c hc b hb
    · rw [hdone c (T.ne_of_mem hc').symm, (Wave.counted_iff.mp (hcounted c hc')).2.1]
      exact hanswer
  · by_cases hyx : y = x
    · subst hyx
      have hn' : n < w.done y + 1 := by
        simpa [Wave.answer, Wave.release] using hn
      simp only [finish, Function.update_self]
      rcases Nat.lt_succ_iff_lt_or_eq.mp hn' with hlt | rfl
      · rw [List.getElem?_append_left (by rw [h.answers_length _ hy]; exact hlt)]
        exact h.agree _ hy n hlt
      · rw [← h.answers_length _ hy, List.getElem?_concat_length, h.answers_length _ hy]
        exact hanswer.symm
    · rw [hdone y hyx] at hn
      simpa [finish, Function.update_of_ne hyx] using h.agree y hy n hn

end Moves

end Ledger
