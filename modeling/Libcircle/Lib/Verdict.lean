import Libcircle.Lib.Progress
import Mathlib.Data.Prod.Lex

/-!
# Votes repeated until they are unanimous

The reports of a wave carry the conjunction of the *flags* of the nodes below.  A
node that reports sets its flag again, so a cleared flag is what a node knows and
has not passed on yet.  The root makes its flag the answer of the round, and a
node that gets a positive answer *leaves*.

A cleared flag only moves towards the root (`burden`), so, if no node clears its
flag, finitely many answers are negative.  The nodes that have left are those that
had the last round (`Dismissal`), so, while some node has not left, one that has
not can move.  `effort` bounds the moves.
-/

/-- The state of a repeated vote. -/
@[ext] structure Vote (V : Type*) where
  /-- The reports and answers. -/
  wave : Wave V Bool
  /-- What a node knows and has not yet reported. -/
  flag : V → Bool
  /-- The nodes that have left. -/
  left : V → Bool

namespace Vote

open Wave

variable {V : Type*} [DecidableEq V] {T : ParentTree V} {v v' : Vote V} {p c x : V} {m : Bool}

/-! ## Moves -/

/-- A move of a node that has not left. -/
inductive Move (T : ParentTree V) (v : Vote V) : Vote V → Prop where
  /-- The report of `c` arrives at `p`. -/
  | recv (p c : V) (m : Bool) (hc : c ∈ T.children p) (hm : v.wave.net c p = [m]) :
      Move T v
        { v with wave := v.wave.recv p c, flag := Function.update v.flag p (v.flag p && m) }
  /-- `c` reports to its parent `p`. -/
  | send (p c : V) (hc : c ∈ T.children p) (hup : v.wave.up c = false)
      (hall : ∀ y ∈ T.children c, v.wave.counted c y = true) :
      Move T v
        { v with wave := v.wave.send c p (v.flag c), flag := Function.update v.flag c true }
  /-- The root answers. -/
  | release (hl : v.left T.root = false)
      (hall : ∀ y ∈ T.children T.root, v.wave.counted T.root y = true) :
      Move T v
        { wave := v.wave.release T.root (T.children T.root) (v.flag T.root)
          flag := Function.update v.flag T.root true
          left := Function.update v.left T.root (v.flag T.root) }
  /-- The answer arrives at `x`. -/
  | answer (p x : V) (m : Bool) (hc : x ∈ T.children p) (hl : v.left x = false)
      (hm : v.wave.net p x = [m]) :
      Move T v
        { v with
          wave := v.wave.answer p x (T.children x) m
          left := Function.update v.left x m }

/-- Every move is one of the wave. -/
theorem Move.inv (h : Inv T v.wave) (hmove : Move T v v') : Inv T v'.wave := by
  cases hmove with
  | recv p c m hc hm => exact h.recv hc (by simp [hm])
  | send p c hc hup hall => exact h.send hc hup hall _
  | release _ hall => exact h.release_root hall _
  | answer p x m hc _ hm => exact h.answer hc (by simp [hm]) _

/-! ## Who has left -/

/-- No node has left and no answer on its way is positive; or none is negative, and the nodes that
have left are in the round of the root. -/
def Dismissal (T : ParentTree V) (v : Vote V) : Prop :=
  ((∀ x, T.IsNode x → v.left x = false) ∧ ∀ p c, c ∈ T.children p → true ∉ v.wave.net p c) ∨
    ((∀ x, T.IsNode x → (v.left x = true ↔ v.wave.done x = v.wave.done T.root)) ∧
      ∀ p c, c ∈ T.children p → false ∉ v.wave.net p c)

omit [DecidableEq V] in
/-- Nobody leaves, the rounds are the same, and no answer is sent. -/
theorem Dismissal.of_same (h : v.Dismissal T) (hleft : ∀ x, T.IsNode x → v'.left x = v.left x)
    (hdone : v'.wave.done = v.wave.done)
    (hnet : ∀ p c, c ∈ T.children p → ∀ m ∈ v'.wave.net p c, m ∈ v.wave.net p c) :
    v'.Dismissal T := by
  rcases h with ⟨hnone, hpos⟩ | ⟨hiff, hneg⟩
  · exact .inl ⟨fun x hx => (hleft x hx).trans (hnone x hx),
      fun p c hc hm => hpos p c hc (hnet p c hc _ hm)⟩
  · refine .inr ⟨fun x hx => ?_, fun p c hc hm => hneg p c hc (hnet p c hc _ hm)⟩
    rw [hleft x hx, hdone]
    exact hiff x hx

/-- The answer of the root. -/
theorem Dismissal.release (h : v.Dismissal T) (hw : Inv T v.wave) (hl : v.left T.root = false)
    (hall : ∀ y ∈ T.children T.root, v.wave.counted T.root y = true) :
    Dismissal T
      { wave := v.wave.release T.root (T.children T.root) (v.flag T.root)
        flag := Function.update v.flag T.root true
        left := Function.update v.left T.root (v.flag T.root) } := by
  obtain ⟨hnone, hpos⟩ := h.resolve_right fun h =>
    absurd (hl.symm.trans ((h.1 _ T.root_node).mpr rfl)) (by decide)
  have hdone : ∀ x, T.IsNode x → v.wave.done x = v.wave.done T.root := by
    intro x hx
    by_cases hxr : x = T.root
    · rw [hxr]
    · exact (hw.all_up hall x hx hxr).2
  cases hflag : v.flag T.root with
  | false =>
      refine .inl ⟨fun x hx => ?_, fun p c hc hm => ?_⟩
      · by_cases hxr : x = T.root
        · simp [hxr]
        · exact (Function.update_of_ne hxr _ _).trans (hnone x hx)
      · rcases (Chan.mem_bcast _ _).mp hm with hm | ⟨_, _, hfalse⟩
        · exact hpos p c hc hm
        · cases hfalse
  | true =>
      refine .inr ⟨fun x hx => ?_, fun p c hc hm => ?_⟩
      · by_cases hxr : x = T.root
        · simp [hxr, Wave.release]
        · simp [Wave.release, Function.update_of_ne hxr, hnone x hx, hdone x hx]
      · rcases (Chan.mem_bcast _ _).mp hm with hm | ⟨_, _, htrue⟩
        · -- all nodes are in the same round, so no answer is in flight
          obtain ⟨_, _, hd, _⟩ := hw.answered_of_answer hc (List.ne_nil_of_mem hm)
          have hcn := T.node_of_mem hc
          rw [hdone c hcn, hdone p (T.node_parent c p hcn (T.parent_of_mem hc))] at hd
          omega
        · cases htrue

/-- The answer of the parent. -/
theorem Dismissal.answer (h : v.Dismissal T) (hw : Inv T v.wave) (hc : x ∈ T.children p)
    (hl : v.left x = false) (hm : v.wave.net p x = [m]) :
    Dismissal T
      { v with
        wave := v.wave.answer p x (T.children x) m
        left := Function.update v.left x m } := by
  have hmem : m ∈ v.wave.net p x := by simp [hm]
  rcases h with ⟨hnone, hpos⟩ | ⟨hiff, hneg⟩
  · obtain rfl : m = false := by
      cases m with
      | true => exact absurd hmem (hpos p x hc)
      | false => rfl
    refine .inl ⟨fun y hy => ?_, fun p' c hc' hm' => ?_⟩
    · by_cases hyx : y = x
      · simp [hyx]
      · exact (Function.update_of_ne hyx _ _).trans (hnone y hy)
    · rcases (Chan.mem_bcast _ _).mp hm' with hm' | ⟨_, _, hfalse⟩
      · exact hpos p' c hc' (Chan.mem_of_mem_pop _ hm')
      · cases hfalse
  · obtain rfl : m = true := by
      cases m with
      | true => rfl
      | false => exact absurd hmem (hneg p x hc)
    refine .inr ⟨fun y hy => ?_, fun p' c hc' hm' => ?_⟩
    · have hroot : (v.wave.answer p x (T.children x) true).done T.root = v.wave.done T.root :=
        Function.update_of_ne (root_ne_of_mem hc) _ _
      have hx := T.node_of_mem hc
      rw [hroot]
      by_cases hyx : y = x
      · subst hyx
        have hlast : v.wave.done y + 1 = v.wave.done T.root := by
          refine ((hw.done_cases y hx).resolve_left fun hd => ?_).1
          exact absurd (hl.symm.trans ((hiff y hx).mpr hd)) (by decide)
        simp [Wave.answer, Wave.release, hlast]
      · simpa [Wave.answer, Wave.release, Function.update_of_ne hyx] using hiff y hy
    · rcases (Chan.mem_bcast _ _).mp hm' with hm' | ⟨_, _, htrue⟩
      · exact hneg p' c hc' (Chan.mem_of_mem_pop _ hm')
      · cases htrue

theorem Dismissal.move (h : v.Dismissal T) (hw : Inv T v.wave) (hmove : Move T v v') :
    v'.Dismissal T := by
  cases hmove with
  | recv p c m hc hm =>
      exact h.of_same (fun _ _ => rfl) rfl fun _ _ _ _ hm' => Chan.mem_of_mem_pop _ hm'
  | send p c hc hup hall =>
      refine h.of_same (fun _ _ => rfl) rfl fun p' c' hc' m hm' => ?_
      refine ((Chan.mem_push _ _).mp hm').resolve_right ?_
      rintro ⟨rfl, rfl, _⟩
      exact T.not_mem_children_symm hc hc'
  | release hl hall => exact h.release hw hl hall
  | answer p x m hc hl hm => exact h.answer hw hc hl hm

omit [DecidableEq V] in
/-- While some node has not left, one that has not can move. -/
theorem Dismissal.exists_move (h : v.Dismissal T) (hw : Inv T v.wave)
    (hwf : WellFounded fun c p => c ∈ T.children p) (hx : ∃ x, T.IsNode x ∧ v.left x = false) :
    ∃ x, T.IsNode x ∧ v.left x = false ∧ CanMove T v.wave x := by
  rcases h with ⟨hnone, _⟩ | ⟨hiff, _⟩
  · obtain ⟨y, hy, _, hcan⟩ :=
      hw.exists_move hwf ⟨T.root, T.root_node, Nat.lt_succ_self (v.wave.done T.root)⟩
    exact ⟨y, hy, hnone y hy, hcan⟩
  · -- a node that has not left is one round behind
    have hbehind : ∀ y, T.IsNode y → (v.left y = false ↔ v.wave.done y < v.wave.done T.root) := by
      intro y hy
      rw [← Bool.not_eq_true, hiff y hy]
      rcases hw.done_cases y hy with hd | ⟨hd, _⟩ <;> omega
    obtain ⟨x, hx, hl⟩ := hx
    obtain ⟨y, hy, hlt, hcan⟩ := hw.exists_move hwf ⟨x, hx, (hbehind x hx).mp hl⟩
    exact ⟨y, hy, (hbehind y hy).mpr hlt, hcan⟩

/-! ## Cleared flags move towards the root -/

/-- The negative reports of `x` in flight. -/
def reported (T : ParentTree V) (w : Wave V Bool) (x : V) : ℕ :=
  match T.parent x with
  | some p => (w.net x p).count false
  | none => 0

/-- The weight of the cleared flags, on the nodes and on their way. -/
def burden (T : ParentTree V) (N : Finset V) (v : Vote V) : ℕ :=
  ∑ x ∈ N, (if v.flag x then 0 else 2 * T.depth x + 1) +
    ∑ x ∈ N, 2 * T.depth x * reported T v.wave x

omit [DecidableEq V] in
theorem reported_of_mem {w : Wave V Bool} (hc : c ∈ T.children p) :
    reported T w c = (w.net c p).count false := by
  rw [reported, T.parent_of_mem hc]

omit [DecidableEq V] in
theorem reported_congr {w w' : Wave V Bool}
    (h : ∀ q, T.parent x = some q → w'.net x q = w.net x q) :
    reported T w' x = reported T w x := by
  unfold reported
  cases hq : T.parent x with
  | none => rfl
  | some q => simp only [h q hq]

omit [DecidableEq V] in
/-- An answer goes down. -/
theorem not_up_of_child {q : V} (hc : x ∈ T.children p) (hq : T.parent p = some q) : q ≠ x := by
  rintro rfl
  have hp := T.node_parent q p (T.node_of_mem hc) (T.parent_of_mem hc)
  exact T.not_mem_children_symm hc ((T.mem_children q p).mpr ⟨hp, hq⟩)

theorem burden_recv {N : Finset V} (hN : ∀ x, x ∈ N ↔ T.IsNode x) (hc : c ∈ T.children p)
    (hm : v.wave.net c p = [m]) :
    burden T N { v with wave := v.wave.recv p c, flag := Function.update v.flag p (v.flag p && m) }
      ≤ burden T N v := by
  have hcn := T.node_of_mem hc
  have hpN : p ∈ N := (hN p).mpr (T.node_parent c p hcn (T.parent_of_mem hc))
  have hdepth := T.depth_of_mem hc
  have hown := sum_add_eq_of_ne hpN (fun x => if v.flag x then 0 else 2 * T.depth x + 1)
    (fun x => if Function.update v.flag p (v.flag p && m) x then 0 else 2 * T.depth x + 1)
    fun y hy => by simp [Function.update_of_ne hy]
  have hflight := sum_add_eq_of_ne ((hN c).mpr hcn)
    (fun x => 2 * T.depth x * reported T v.wave x)
    (fun x => 2 * T.depth x * reported T (v.wave.recv p c) x)
    fun y hy => by rw [reported_congr fun q _ => Chan.pop_ne _ fun h => hy h.1]
  have hempty : (v.wave.recv p c).net c p = [] := by simp [Wave.recv, hm]
  simp only [Function.update_self, reported_of_mem hc, hm, hempty, List.count_nil,
    Nat.mul_zero] at hown hflight
  unfold burden
  cases m <;> cases hf : v.flag p <;> simp [hf] at hown hflight ⊢ <;> omega

theorem burden_send {N : Finset V} (hN : ∀ x, x ∈ N ↔ T.IsNode x) (hc : c ∈ T.children p) :
    burden T N
      { v with wave := v.wave.send c p (v.flag c), flag := Function.update v.flag c true }
      ≤ burden T N v := by
  have hcN : c ∈ N := (hN c).mpr (T.node_of_mem hc)
  have hown := sum_add_eq_of_ne hcN (fun x => if v.flag x then 0 else 2 * T.depth x + 1)
    (fun x => if Function.update v.flag c true x then 0 else 2 * T.depth x + 1)
    fun y hy => by simp [Function.update_of_ne hy]
  have hflight := sum_add_eq_of_ne hcN
    (fun x => 2 * T.depth x * reported T v.wave x)
    (fun x => 2 * T.depth x * reported T (v.wave.send c p (v.flag c)) x)
    fun y hy => by rw [reported_congr fun q _ => Chan.push_ne _ _ fun h => hy h.1]
  have hpush : (v.wave.send c p (v.flag c)).net c p = v.wave.net c p ++ [v.flag c] :=
    Chan.push_self ..
  simp only [Function.update_self, reported_of_mem hc, hpush, List.count_append,
    Nat.mul_add] at hown hflight
  unfold burden
  cases hf : v.flag c <;> simp [hf] at hown hflight ⊢ <;> omega

/-- A negative answer lightens the burden. -/
theorem burden_release {N : Finset V} (hN : ∀ x, x ∈ N ↔ T.IsNode x) (hl : v.left T.root = false)
    {cs : List V} :
    burden T N
        { wave := v.wave.release T.root cs (v.flag T.root)
          flag := Function.update v.flag T.root true
          left := Function.update v.left T.root (v.flag T.root) } +
        (!Function.update v.left T.root (v.flag T.root) T.root).toNat <
      burden T N v + (!v.left T.root).toNat := by
  have hown := sum_add_eq_of_ne ((hN _).mpr T.root_node)
    (fun x => if v.flag x then 0 else 2 * T.depth x + 1)
    (fun x => if Function.update v.flag T.root true x then 0 else 2 * T.depth x + 1)
    fun y hy => by simp [Function.update_of_ne hy]
  have hflight : ∀ x, reported T (v.wave.release T.root cs (v.flag T.root)) x =
      reported T v.wave x := by
    refine fun x => reported_congr fun q hq => Chan.bcast_ne _ _ ?_
    rintro ⟨rfl, _⟩
    rw [T.parent_root] at hq
    cases hq
  simp only [Function.update_self] at hown
  unfold burden
  simp only [hflight, Function.update_self, hl]
  cases hf : v.flag T.root <;> simp [hf] at hown ⊢ <;> omega

theorem burden_answer {N : Finset V} (hc : x ∈ T.children p) {left : V → Bool} :
    burden T N { v with wave := v.wave.answer p x (T.children x) m, left := left } =
      burden T N v := by
  have hflight : ∀ y, reported T (v.wave.answer p x (T.children x) m) y =
      reported T v.wave y := by
    refine fun y => reported_congr fun q hq => ?_
    have hbcast : ¬(y = x ∧ q ∈ T.children x) := by
      rintro ⟨rfl, hq'⟩
      exact not_up_of_child hq' hq rfl
    have hpop : ¬(y = p ∧ q = x) := by
      rintro ⟨rfl, rfl⟩
      exact not_up_of_child hc hq rfl
    exact (Chan.bcast_ne _ _ hbcast).trans (Chan.pop_ne _ hpop)
  unfold burden
  simp only [hflight]

/-! ## Every move brings the end nearer -/

/-- The answers still to come that are negative, and the moves left in the round. -/
def effort (T : ParentTree V) (N : Finset V) (v : Vote V) : ℕ ×ₗ ℕ :=
  toLex (burden T N v + (!v.left T.root).toNat, v.wave.remaining T N (v.wave.done T.root + 1))

theorem effort_lt {N : Finset V} (hN : ∀ x, x ∈ N ↔ T.IsNode x) (hw : Inv T v.wave)
    (hmove : Move T v v') : v'.effort T N < v.effort T N := by
  have hw' := hmove.inv hw
  have hbound : ∀ x, T.IsNode x → v'.wave.progress T x ≤ 3 * (v'.wave.done T.root + 1) := by
    intro x hx
    have hle : v'.wave.progress T x ≤ 3 * v'.wave.done x + 2 := progress_le
    rcases hw'.done_cases x hx with hd | ⟨hd, _⟩ <;> omega
  -- a move that is not an answer of the root
  have hstep : ∀ x, T.IsNode x → Advances T v.wave v'.wave x →
      v'.wave.done T.root = v.wave.done T.root → v'.left T.root = v.left T.root →
      burden T N v' ≤ burden T N v → v'.effort T N < v.effort T N := by
    intro x hx hadv hdone hleft hburden
    have hlt : v'.wave.remaining T N (v'.wave.done T.root + 1) <
        v.wave.remaining T N (v.wave.done T.root + 1) :=
      remaining_lt ((hN x).mpr hx) hadv (hbound x hx) (by omega)
    rw [effort, effort, Prod.Lex.toLex_lt_toLex, hleft]
    rcases Nat.lt_or_eq_of_le hburden with hb | hb
    · exact .inl (Nat.add_lt_add_right hb _)
    · exact .inr ⟨by rw [hb], hlt⟩
  cases hmove with
  | recv p c m hc hm =>
      exact hstep c (T.node_of_mem hc) (hw.advances_recv hc (by simp [hm])) rfl rfl
        (burden_recv hN hc hm)
  | send p c hc hup hall =>
      exact hstep c (T.node_of_mem hc) (advances_send hc hup _) rfl rfl (burden_send hN hc)
  | release hl hall => exact Prod.Lex.toLex_lt_toLex.mpr (.inl (burden_release hN hl))
  | answer p x m hc hl hm =>
      have hx := root_ne_of_mem hc
      exact hstep x (T.node_of_mem hc) (advances_answer hc m) (Function.update_of_ne hx _ _)
        (Function.update_of_ne hx _ _) (burden_answer hc).le

end Vote
