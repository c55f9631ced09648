import Libcircle.Lib.Verdict

/-!
# A deadline for a repeated vote

A cleared flag spoils one round, the one its node reports it in.  So, while no node
clears its flag, the flags that are cleared now spoil the current round and the next
one at most.  `Clear T v n` says that no cleared flag is left that could spoil round
`n` or a later one.  Every move keeps it (`Clear.move`), and it holds of a round two
rounds ahead of the root (`clear_initial`), so no node that is still in the vote
completes more rounds than that (`Clear.done_le`).
-/

namespace Vote

open Wave

variable {V : Type*} [DecidableEq V] {T : ParentTree V} {v v' : Vote V} {p c x : V} {m : Bool}
  {n : ℕ}

/-- The round in which `x` is going to report its flag. -/
def round (v : Vote V) (x : V) : ℕ := v.wave.done x + (v.wave.up x).toNat

/-- No cleared flag can spoil round `n` or a later one. -/
structure Clear (T : ParentTree V) (v : Vote V) (n : ℕ) : Prop where
  flag : ∀ x, T.IsNode x → n ≤ v.round x → v.flag x = true
  report : ∀ p c, c ∈ T.children p → n ≤ v.wave.done c → false ∉ v.wave.net c p
  answer : ∀ p c, c ∈ T.children p → n ≤ v.wave.done c → false ∉ v.wave.net p c
  left : ∀ x, T.IsNode x → n < v.wave.done x → v.left x = true

omit [DecidableEq V] in
/-- No flag can spoil a round two rounds ahead of the root. -/
theorem clear_initial (h : Inv T v.wave) : v.Clear T (v.wave.done T.root + 2) := by
  have hle : ∀ x, T.IsNode x → v.wave.done x ≤ v.wave.done T.root := fun x hx => by
    rcases h.done_cases x hx with hd | ⟨hd, _⟩ <;> omega
  have hup : ∀ x, (v.wave.up x).toNat ≤ 1 := fun x => Bool.toNat_le _
  refine ⟨fun x hx hn => ?_, fun p c hc hn => ?_, fun p c hc hn => ?_, fun x hx hn => ?_⟩
  · have := hle x hx
    have := hup x
    unfold round at hn
    omega
  · have := hle c (T.node_of_mem hc)
    omega
  · have := hle c (T.node_of_mem hc)
    omega
  · have := hle x hx
    omega

namespace Clear

omit [DecidableEq V] in
/-- A node that has not left is in round `n` or an earlier one. -/
theorem done_le (h : v.Clear T n) (hx : T.IsNode x) (hl : v.left x = false) :
    v.wave.done x ≤ n := by
  by_contra hlt
  exact absurd (hl.symm.trans (h.left x hx (Nat.lt_of_not_le hlt))) (by decide)

/-- A report arrives. -/
theorem recv (h : v.Clear T n) (hw : Inv T v.wave) (hc : c ∈ T.children p)
    (hm : v.wave.net c p = [m]) :
    Clear T { v with wave := v.wave.recv p c, flag := Function.update v.flag p (v.flag p && m) }
      n where
  flag x hx hn := by
    by_cases hxp : x = p
    · subst hxp
      -- the parent of a report in flight is in the same round, and has not reported
      obtain ⟨_, _, hdone, _, _⟩ := hw.sent_of_report hc (by simp [hm])
      have hup := hw.up_false_of_report hc (by simp [hm])
      have hn : n ≤ v.round x := hn
      have hmem : m = true := by
        by_contra hne
        have hround : v.round x = v.wave.done c := by simp [round, hup, hdone]
        exact h.report x c hc (hround ▸ hn) (by simp [hm, Bool.eq_false_of_not_eq_true hne])
      simp [h.flag x hx hn, hmem]
    · exact (Function.update_of_ne hxp _ _).trans (h.flag x hx hn)
  report p' c' hc' hn hmem := h.report p' c' hc' hn (Chan.mem_of_mem_pop _ hmem)
  answer p' c' hc' hn hmem := h.answer p' c' hc' hn (Chan.mem_of_mem_pop _ hmem)
  left := h.left

/-- A node reports its flag, and sets it again. -/
theorem send (h : v.Clear T n) (hc : c ∈ T.children p) (hup : v.wave.up c = false) :
    Clear T { v with wave := v.wave.send c p (v.flag c), flag := Function.update v.flag c true }
      n where
  flag x hx hn := by
    by_cases hxc : x = c
    · rw [hxc]
      exact Function.update_self ..
    · have hround : n ≤ v.round x := by
        simpa [round, Wave.send, Function.update_of_ne hxc] using hn
      exact (Function.update_of_ne hxc _ _).trans (h.flag x hx hround)
  report p' c' hc' hn hmem := by
    rcases (Chan.mem_push _ _).mp hmem with hmem | ⟨rfl, _, hflag⟩
    · exact h.report p' c' hc' hn hmem
    · have hround : n ≤ v.round c' := by simpa [round, hup, Wave.send] using hn
      exact absurd (hflag.trans (h.flag c' (T.node_of_mem hc') hround)) (by decide)
  answer p' c' hc' hn hmem := by
    refine h.answer p' c' hc' hn (((Chan.mem_push _ _).mp hmem).resolve_right ?_)
    rintro ⟨rfl, rfl, _⟩
    exact T.not_mem_children_symm hc hc'
  left := h.left

/-- `x` completes its round with the result `m` and passes it on. -/
theorem release (h : v.Clear T n) {flag : V → Bool}
    (hflag : ∀ y, T.IsNode y → n ≤ v.round y → flag y = true)
    (hself : flag x = true ∨ v.wave.up x = true)
    (hnil : ∀ p, x ∈ T.children p → v.wave.net x p = [] ∧ v.wave.net p x = [])
    (hdone : ∀ c ∈ T.children x, v.wave.done c = v.wave.done x)
    (hm : n ≤ v.wave.done x → m = true) :
    Clear T
      { wave := v.wave.release x (T.children x) m, flag := flag
        left := Function.update v.left x m } n where
  flag y hy hn := by
    by_cases hyx : y = x
    · subst hyx
      rcases hself with hset | hup
      · exact hset
      · -- a report made in this round counts in the next one
        refine hflag y hy ?_
        simpa [round, Wave.release, hup] using hn
    · refine hflag y hy ?_
      simpa [round, Wave.release, Function.update_of_ne hyx] using hn
  report p c hc hn hmem := by
    rcases (Chan.mem_bcast _ _).mp hmem with hold | ⟨rfl, hp, _⟩
    · by_cases hcx : c = x
      · subst hcx
        rw [(hnil p hc).1] at hold
        cases hold
      · refine h.report p c hc ?_ hold
        simpa [Wave.release, Function.update_of_ne hcx] using hn
    · exact T.not_mem_children_symm hc hp
  answer p c hc hn hmem := by
    have hdone_eq : c ≠ x → (v.wave.release x (T.children x) m).done c = v.wave.done c :=
      fun hcx => Function.update_of_ne hcx _ _
    rcases (Chan.mem_bcast _ _).mp hmem with hold | ⟨rfl, _, hfalse⟩
    · by_cases hcx : c = x
      · subst hcx
        rw [(hnil p hc).2] at hold
        cases hold
      · exact h.answer p c hc (hdone_eq hcx ▸ hn) hold
    · have hcx := (T.ne_of_mem hc).symm
      rw [hdone_eq hcx, hdone c hc] at hn
      exact absurd (hfalse.trans (hm hn)) (by decide)
  left y hy hn := by
    by_cases hyx : y = x
    · subst hyx
      have hn : n < v.wave.done y + 1 := by simpa [Wave.release] using hn
      simpa using hm (Nat.lt_succ_iff.mp hn)
    · refine (Function.update_of_ne hyx _ _).trans (h.left y hy ?_)
      simpa [Wave.release, Function.update_of_ne hyx] using hn

/-- Every move keeps this. -/
theorem move (h : v.Clear T n) (hw : Inv T v.wave) (hmove : Move T v v') : v'.Clear T n := by
  cases hmove with
  | recv p c m hc hm => exact h.recv hw hc hm
  | send p c hc hup hall => exact h.send hc hup
  | release hl hall =>
      refine h.release (fun y hy hn => ?_) (.inl (Function.update_self ..))
        (fun p hc => absurd rfl (root_ne_of_mem hc)) (fun c hc => ?_) fun hn => ?_
      · by_cases hyr : y = T.root
        · rw [hyr]
          exact Function.update_self ..
        · exact (Function.update_of_ne hyr _ _).trans (h.flag y hy hn)
      · exact (counted_iff.mp (hall c hc)).2.1
      · exact h.flag _ T.root_node (by simpa [round, hw.root_up] using hn)
  | answer p x m hc hl hm =>
      obtain ⟨_, _, _, hup, hnet⟩ := hw.answered_of_answer hc (by simp [hm])
      have hpop : Clear T { v with wave := { v.wave with net := v.wave.net.pop p x } } n :=
        ⟨h.flag, fun p' c' hc' hn hmem => h.report p' c' hc' hn (Chan.mem_of_mem_pop _ hmem),
          fun p' c' hc' hn hmem => h.answer p' c' hc' hn (Chan.mem_of_mem_pop _ hmem), h.left⟩
      refine hpop.release h.flag (.inr hup) (fun q hq => ?_) (fun c hc' => ?_) fun hn => ?_
      · obtain rfl := T.parent_unique hc hq
        refine ⟨?_, by simp [hm]⟩
        have hne : ¬(x = p ∧ p = x) := fun h => T.ne_of_mem hc h.2
        exact (Chan.pop_ne _ hne).trans hnet
      · exact (counted_iff.mp (hw.counted_of_up x hup c hc')).2.1
      · by_contra hne
        refine h.answer p x hc hn ?_
        rw [hm, Bool.eq_false_of_not_eq_true hne]
        exact List.mem_singleton_self _

end Clear

end Vote
