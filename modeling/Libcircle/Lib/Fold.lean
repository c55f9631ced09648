import Libcircle.Lib.Wave

/-!
# Folds over a rooted tree

The *fold* of a rooted tree combines the own value of every node with the folds
of its children, in the order of the list.  It is the one function that does so
(`ParentTree.eq_fold`).  The fold of a disjunction is the disjunction over all
nodes (`fold_or_iff`), and the fold of a sum is their sum (`fold_add`).

A wave whose nodes hear their children in order (`Wave.InOrder`) computes the
fold in one round (`Wave.Folds`).  The value a node holds is the combination of
its own with those of the children it heard, its report is the fold of its
subtree (`Folds.sent_eq_fold`), and the answer is the fold at the root.
-/

/-! ## The fold -/

namespace ParentTree

variable {V A : Type*} (T : ParentTree V) (own : V → A) (op : V → V → A → A → A)

/-- The own value of `x`, combined with the values `f` of the nodes `cs` from left to right. -/
def combine (f : V → A) (x : V) (cs : List V) : A :=
  cs.foldl (fun a c => op x c a (f c)) (own x)

/-- The fold of the subtree of a node. -/
noncomputable def fold (hwf : WellFounded fun c p => c ∈ T.children p) : V → A :=
  hwf.fix fun x f => (T.children x).attach.foldl (fun a c => op x c.1 a (f c.1 c.2)) (own x)

variable {own op} {f g : V → A} {x c : V} {cs : List V}

theorem combine_congr (h : ∀ c ∈ cs, f c = g c) :
    combine own op f x cs = combine own op g x cs := by
  refine List.foldl_ext _ _ _ fun a c hc => ?_
  rw [h c hc]

/-- Only the own value of `x` matters. -/
theorem combine_own_congr {own' : V → A} (h : own' x = own x) :
    combine own' op f x cs = combine own op f x cs := by
  rw [combine, combine, h]

@[simp] theorem combine_nil : combine own op f x [] = own x := rfl

theorem combine_concat :
    combine own op f x (cs ++ [c]) = op x c (combine own op f x cs) (f c) := by
  rw [combine, List.foldl_append]
  rfl

theorem fold_eq (hwf : WellFounded fun c p => c ∈ T.children p) (x : V) :
    T.fold own op hwf x = combine own op (T.fold own op hwf) x (T.children x) := by
  rw [fold, hwf.fix_eq, combine]
  exact List.foldl_attach (f := fun a c => op x c a (T.fold own op hwf c)) ..

/-- A function that combines like the fold, on nodes with all nodes below them, is the fold. -/
theorem eq_fold (hwf : WellFounded fun c p => c ∈ T.children p) {S : V → Prop}
    (hS : ∀ x, S x → ∀ c ∈ T.children x, S c)
    (hf : ∀ x, S x → f x = combine own op f x (T.children x)) :
    ∀ x, S x → f x = T.fold own op hwf x := by
  intro x
  induction x using hwf.induction with
  | _ x ih =>
    intro hx
    rw [hf x hx, T.fold_eq hwf x]
    exact combine_congr fun c hc => ih c hc (hS x hx c hc)

theorem combine_or_iff {own f : V → Bool} {cs : List V} :
    combine own (fun _ _ => or) f x cs = true ↔ own x = true ∨ ∃ c ∈ cs, f c = true := by
  induction cs using List.reverseRecOn with
  | nil => simp
  | append_singleton cs c ih =>
      rw [combine_concat, Bool.or_eq_true, ih, or_assoc]
      refine or_congr_right ?_
      simp only [List.mem_append, List.mem_singleton, or_and_right, exists_or, exists_eq_left]

/-- The fold of a disjunction. -/
theorem fold_or_iff (hwf : WellFounded fun c p => c ∈ T.children p) {own : V → Bool} :
    T.fold own (fun _ _ => or) hwf T.root = true ↔ ∃ x, T.IsNode x ∧ own x = true := by
  have hlocal : ∀ x, T.fold own (fun _ _ => or) hwf x = true ↔
      own x = true ∨ ∃ c ∈ T.children x, T.fold own (fun _ _ => or) hwf c = true := by
    intro x
    rw [T.fold_eq hwf x]
    exact combine_or_iff
  constructor
  · have hdown : ∀ x, T.IsNode x → T.fold own (fun _ _ => or) hwf x = true →
        ∃ y, T.IsNode y ∧ own y = true := by
      intro x
      induction x using hwf.induction with
      | _ x ih =>
        intro hx hfold
        rcases (hlocal x).mp hfold with hown | ⟨c, hc, hfold⟩
        · exact ⟨x, hx, hown⟩
        · exact ih c hc (T.node_of_mem hc) hfold
    exact hdown _ T.root_node
  · rintro ⟨x, hx, hown⟩
    have hup : ∀ x, T.IsNode x → T.fold own (fun _ _ => or) hwf x = true →
        T.fold own (fun _ _ => or) hwf T.root = true := by
      refine T.induct id fun p c _ hc ih hfold => ih ?_
      exact (hlocal p).mpr (.inr ⟨c, hc, hfold⟩)
    exact hup x hx ((hlocal x).mpr (.inl hown))

theorem combine_add {A : Type*} [AddCommMonoid A] {own f : V → A} {cs : List V} :
    combine own (fun _ _ => (· + ·)) f x cs = own x + (cs.map f).sum := by
  induction cs using List.reverseRecOn with
  | nil => simp
  | append_singleton cs c ih => simp [combine_concat, ih, add_assoc]

/-- The fold of a sum. -/
theorem fold_add {A : Type*} [AddCancelCommMonoid A] [DecidableEq V]
    (hwf : WellFounded fun c p => c ∈ T.children p) {N : Finset V}
    (hN : ∀ x, x ∈ N ↔ T.IsNode x) {own : V → A} :
    T.fold own (fun _ _ => (· + ·)) hwf T.root = ∑ x ∈ N, own x := by
  refine T.sum_own hN fun x _ => ?_
  rw [T.fold_eq hwf x, combine_add]

/-- A function of the values that commutes with the combinations commutes with the fold. -/
theorem map_fold {B : Type*} (hwf : WellFounded fun c p => c ∈ T.children p) (φ : A → B)
    {opB : V → V → B → B → B} (hop : ∀ x c a b, φ (op x c a b) = opB x c (φ a) (φ b)) (x : V) :
    φ (T.fold own op hwf x) = T.fold (fun x => φ (own x)) opB hwf x := by
  refine T.eq_fold (f := fun x => φ (T.fold own op hwf x)) hwf (S := fun _ => True)
    (fun _ _ _ _ => trivial) (fun y _ => ?_) x trivial
  have hcombine : ∀ cs, φ (combine own op (T.fold own op hwf) y cs) =
      combine (fun x => φ (own x)) opB (fun x => φ (T.fold own op hwf x)) y cs := by
    intro cs
    induction cs using List.reverseRecOn with
    | nil => rfl
    | append_singleton cs c ih => rw [combine_concat, combine_concat, hop, ih]
  rw [← hcombine, ← T.fold_eq hwf y]

end ParentTree

namespace Wave

variable {V M : Type*} {T : ParentTree V} {w : Wave V M} {p c x : V} {m : M}

/-! ## Children heard in order -/

/-- A node hears its children in the order of the list. -/
def InOrder (T : ParentTree V) (w : Wave V M) : Prop :=
  ∀ p i c, (T.children p)[i]? = some c → (w.counted p c = true ↔ i < w.replies p)

section Order

variable {i : ℕ}

/-- A node that has not reported hears its next child, if all its children have reported. -/
theorem InOrder.next_report (h : InOrder T w) (hi : (T.children x)[w.replies x]? = some c)
    (hall : ∀ c ∈ T.children x, w.counted x c = true ∨ w.net c x ≠ []) : w.net c x ≠ [] := by
  refine (hall c (List.mem_of_getElem? hi)).resolve_left fun hcount => ?_
  exact absurd ((h x _ c hi).mp hcount) (Nat.lt_irrefl _)

theorem inOrder_initial (hup : ∀ x, w.up x = false) (hreplies : ∀ x, w.replies x = 0) :
    InOrder T w := by
  intro p i c _
  rw [hreplies p, Phase.counted_false_of_up_false (hup c)]
  simp

theorem InOrder.congr (h : InOrder T w) {w' : Wave V M} (hreplies : w'.replies = w.replies)
    (hcount : ∀ p c, c ∈ T.children p → w'.counted p c = w.counted p c) : InOrder T w' := by
  intro p i c hi
  rw [hcount p c (List.mem_of_getElem? hi), hreplies]
  exact h p i c hi

variable [DecidableEq V]

theorem InOrder.recv (h : InOrder T w) (hw : Inv T w) (hi : (T.children p)[w.replies p]? = some c)
    (hm : w.net c p ≠ []) : InOrder T (w.recv p c) := by
  have hc := List.mem_of_getElem? hi
  obtain ⟨m, hu, hdone, hup, _⟩ := hw.sent_of_report hc hm
  intro q j d hj
  by_cases hqp : q = p
  · subst hqp
    have hreplies : (w.recv q c).replies q = w.replies q + 1 := Function.update_self ..
    rw [hreplies]
    by_cases hdc : d = c
    · subst hdc
      have hij : w.replies q = j := by
        have hlt := (List.getElem?_eq_some_iff.mp hi).1
        exact (List.getElem?_inj hlt (T.children_nodup q)).mp (hi.trans hj.symm)
      exact iff_of_true (counted_recv_self hup hdone hu) (by omega)
    · rw [counted_recv_ne fun hne => hdc hne.1, h q j d hj]
      have hne : j ≠ w.replies q := by
        rintro rfl
        exact hdc (Option.some.inj (hj.symm.trans hi))
      omega
  · have hreplies : (w.recv p c).replies q = w.replies q := Function.update_of_ne hqp _ _
    rw [hreplies, counted_recv_ne fun hne => hqp hne.2]
    exact h q j d hj

theorem InOrder.send (h : InOrder T w) (hc : c ∈ T.children p) (hup : w.up c = false) (m : M) :
    InOrder T (w.send c p m) :=
  h.congr rfl fun _ _ hc' => counted_send hc hup hc'

theorem InOrder.of_release (h : InOrder T w)
    (habove : ∀ p, x ∈ T.children p → w.done p = w.done x + 1)
    (hbelow : ∀ c ∈ T.children x, w.done c = w.done x) (m : M) :
    InOrder T (w.release x (T.children x) m) := by
  intro p i c hi
  have hc := List.mem_of_getElem? hi
  by_cases hp : p = x
  · subst hp
    have hreplies : (w.release p (T.children p) m).replies p = 0 := Function.update_self ..
    rw [hreplies, counted_release_self hc (hbelow c hc)]
    simp
  · have hreplies : (w.release x (T.children x) m).replies p = w.replies p :=
      Function.update_of_ne hp _ _
    rw [hreplies, counted_release_ne (habove p) hc hp]
    exact h p i c hi

theorem InOrder.release_root (h : InOrder T w)
    (hall : ∀ c ∈ T.children T.root, w.counted T.root c = true) (m : M) :
    InOrder T (w.release T.root (T.children T.root) m) := by
  refine h.of_release (fun p hp => ?_) (fun c hc => (counted_iff.mp (hall c hc)).2.1) m
  exact absurd rfl (root_ne_of_mem hp)

theorem InOrder.answer (h : InOrder T w) (hw : Inv T w) (hc : x ∈ T.children p)
    (hm : w.net p x ≠ []) (m : M) : InOrder T (w.answer p x (T.children x) m) := by
  obtain ⟨_, _, hdone, hup, _⟩ := hw.answered_of_answer hc hm
  have hpop : InOrder T { w with net := w.net.pop p x } :=
    h.congr rfl fun _ _ hc' => counted_pop hc hc'
  refine hpop.of_release (fun q hq => ?_) (fun c hcx => ?_) m
  · obtain rfl := T.parent_unique hc hq
    exact hdone
  · exact (counted_iff.mp (hw.counted_of_up x hup c hcx)).2.1

end Order

/-! ## A wave that folds -/

section Folds

variable {A : Type*} {own acc sent acc' : V → A} {op : V → V → A → A → A} {val : M → A} {a : A}

/-- A node has reported, in the one round there is. -/
def Reported (w : Wave V M) (x : V) : Prop := w.up x = true ∨ w.done x = 1

/-- The nodes hold `acc` and reported `sent`, and a message `m` carries `val m`. -/
structure Folds (T : ParentTree V) (own : V → A) (op : V → V → A → A → A) (val : M → A)
    (w : Wave V M) (acc sent : V → A) : Prop where
  wave : Inv T w
  order : InOrder T w
  done_le : ∀ x, w.done x ≤ 1
  /-- A node that has not reported combined what it heard. -/
  acc_eq : ∀ x, ¬w.Reported x →
    acc x = ParentTree.combine own op sent x ((T.children x).take (w.replies x))
  /-- A report combines what all children reported. -/
  sent_eq : ∀ x, w.Reported x → sent x = ParentTree.combine own op sent x (T.children x)
  report : ∀ p c, c ∈ T.children p → ∀ m ∈ w.net c p, val m = sent c
  answer : ∀ p c, c ∈ T.children p → ∀ m ∈ w.net p c, val m = sent T.root

/-- A wave in which nothing has happened. -/
theorem folds_initial (hdone : ∀ x, w.done x = 0) (hup : ∀ x, w.up x = false)
    (hreplies : ∀ x, w.replies x = 0) (hnet : ∀ a b, w.net a b = []) :
    Folds T own op val w own sent where
  wave := inv_initial (fun x y => (hdone x).trans (hdone y).symm) hup hreplies hnet
  order := inOrder_initial hup hreplies
  done_le x := by simp [hdone x]
  acc_eq x _ := by simp [hreplies x]
  sent_eq x hx := by simp [Reported, hup x, hdone x] at hx
  report p c _ m hm := by simp [hnet] at hm
  answer p c _ m hm := by simp [hnet] at hm

/-! ### Reading the fold -/

section Facts

variable (h : Folds T own op val w acc sent)
include h

theorem Folds.done_eq_zero (hx : ¬w.Reported x) : w.done x = 0 := by
  have hle := h.done_le x
  have hne : w.done x ≠ 1 := fun hd => hx (.inr hd)
  omega

/-- The children of a node that has reported have reported. -/
theorem Folds.reported_of_mem (hc : c ∈ T.children p) (hp : w.Reported p) : w.Reported c := by
  have hle := h.wave.reports_le hc
  have hdone := h.done_le c
  rcases hp with hup | hd
  · exact .inl (counted_iff.mp (h.wave.counted_of_up p hup c hc)).1
  · cases hup : w.up c with
    | true => exact .inl hup
    | false =>
        rw [hup, hd] at hle
        simp only [Bool.toNat_false] at hle
        exact .inr (by omega)

/-- The children a node heard have reported. -/
theorem Folds.reported_of_take :
    ∀ c ∈ (T.children x).take (w.replies x), w.Reported c := by
  intro c hc
  obtain ⟨i, hi, hic⟩ := List.mem_take_iff_getElem.mp hc
  have hget : (T.children x)[i]? = some c := by
    rw [List.getElem?_eq_getElem (by omega), hic]
  have hcount := (h.order x i c hget).mpr (by omega)
  exact .inl (counted_iff.mp hcount).1

/-- A report is the fold of the subtree. -/
theorem Folds.sent_eq_fold (hwf : WellFounded fun c p => c ∈ T.children p)
    (hx : w.Reported x) : sent x = T.fold own op hwf x :=
  T.eq_fold hwf (fun _ hp _ hc => h.reported_of_mem hc hp) h.sent_eq x hx

/-- A node that heard all its children holds the fold of its subtree. -/
theorem Folds.acc_eq_fold (hwf : WellFounded fun c p => c ∈ T.children p) (hx : ¬w.Reported x)
    (hall : w.replies x = (T.children x).length) : acc x = T.fold own op hwf x := by
  rw [h.acc_eq x hx, hall, List.take_length, T.fold_eq hwf x]
  refine ParentTree.combine_congr fun c hc => ?_
  have hcount := h.wave.counted_of_replies hall c hc
  exact h.sent_eq_fold hwf (.inl (counted_iff.mp hcount).1)

/-- Once the root has completed the round, all nodes have reported. -/
theorem Folds.reported_of_done (hx : T.IsNode x) (hd : w.done x = 1) {y : V} (hy : T.IsNode y) :
    w.Reported y := by
  have hle := h.done_le T.root
  have hroot : w.done T.root = 1 := by
    rcases h.wave.done_cases x hx with h' | ⟨h', _⟩ <;> omega
  rcases h.wave.done_cases y hy with h' | ⟨_, hup⟩
  · exact .inr (h'.trans hroot)
  · exact .inl hup

end Facts

/-! ### The moves -/

/-- A report recorded does not change what other nodes combine from reports. -/
theorem combine_update [DecidableEq V] (hx : ¬w.Reported x) {y : V} {cs : List V}
    (hcs : ∀ c ∈ cs, w.Reported c) :
    ParentTree.combine own op (Function.update sent x a) y cs =
      ParentTree.combine own op sent y cs := by
  refine ParentTree.combine_congr fun c hc => Function.update_of_ne ?_ _ _
  rintro rfl
  exact hx (hcs c hc)

/-- What a node holds once it has reported does not matter. -/
theorem Folds.congr_acc (h : Folds T own op val w acc sent)
    (hacc : ∀ x, ¬w.Reported x → acc' x = acc x) : Folds T own op val w acc' sent where
  wave := h.wave
  order := h.order
  done_le := h.done_le
  acc_eq x hx := (hacc x hx).trans (h.acc_eq x hx)
  sent_eq := h.sent_eq
  report := h.report
  answer := h.answer

/-- A node that has heard nothing sets its own value. -/
theorem Folds.enter [DecidableEq V] (h : Folds T own op val w acc sent) (hx : ¬w.Reported x)
    (hreplies : w.replies x = 0) :
    Folds T (Function.update own x a) op val w (Function.update acc x a) sent where
  wave := h.wave
  order := h.order
  done_le := h.done_le
  acc_eq y hy := by
    by_cases hyx : y = x
    · subst hyx
      simp [hreplies]
    · rw [Function.update_of_ne hyx, h.acc_eq y hy, ParentTree.combine, ParentTree.combine,
        Function.update_of_ne hyx]
  sent_eq y hy := by
    have hyx : y ≠ x := by
      rintro rfl
      exact hx hy
    rw [h.sent_eq y hy, ParentTree.combine, ParentTree.combine, Function.update_of_ne hyx]
  report := h.report
  answer := h.answer

variable [DecidableEq V]

/-- `p` hears its next child `c` and combines what it holds with the report `m`. -/
theorem Folds.recv (h : Folds T own op val w acc sent)
    (hi : (T.children p)[w.replies p]? = some c) (hu : w.net c p = [m]) :
    Folds T own op val (w.recv p c) (Function.update acc p (op p c (acc p) (val m))) sent := by
  have hc := List.mem_of_getElem? hi
  have hm : w.net c p ≠ [] := by simp [hu]
  obtain ⟨_, _, hdone, hupc, _⟩ := h.wave.sent_of_report hc hm
  refine
    { wave := h.wave.recv hc hm
      order := h.order.recv h.wave hi hm
      done_le := h.done_le
      acc_eq := fun y hy => ?_
      sent_eq := h.sent_eq
      report := fun q d hd b hb => h.report q d hd b (Chan.mem_of_mem_pop _ hb)
      answer := fun q d hd b hb => h.answer q d hd b (Chan.mem_of_mem_pop _ hb) }
  by_cases hyp : y = p
  · subst hyp
    have hreplies : (w.recv y c).replies y = w.replies y + 1 := Function.update_self ..
    rw [Function.update_self, hreplies, List.take_add_one, hi, Option.toList_some,
      ParentTree.combine_concat, ← h.acc_eq y hy, h.report y c hc m (by simp [hu])]
  · have hreplies : (w.recv p c).replies y = w.replies y := Function.update_of_ne hyp _ _
    rw [Function.update_of_ne hyp, hreplies]
    exact h.acc_eq y hy

/-- What a report records: every node that has reported, `x` now among them. -/
theorem Folds.sent_eq_report (h : Folds T own op val w acc sent) (hx : ¬w.Reported x)
    (hall : ∀ c ∈ T.children x, w.counted x c = true) {y : V} (hy : y = x ∨ w.Reported y) :
    Function.update sent x (acc x) y =
      ParentTree.combine own op (Function.update sent x (acc x)) y (T.children y) := by
  have hcounted : w.replies x = (T.children x).length := by
    rw [h.wave.replies_eq x, List.countP_eq_length]
    exact hall
  rcases eq_or_ne y x with rfl | hyx
  · rw [combine_update hx fun c hc => .inl (counted_iff.mp (hall c hc)).1,
      Function.update_self, h.acc_eq y hx, hcounted, List.take_length]
  · have hyr := hy.resolve_left hyx
    rw [combine_update hx fun c hc => h.reported_of_mem hc hyr, Function.update_of_ne hyx,
      h.sent_eq y hyr]

/-- `x` reports what it holds to its parent `p`. -/
theorem Folds.send (h : Folds T own op val w acc sent) (hc : x ∈ T.children p)
    (hx : ¬w.Reported x) (hall : ∀ c ∈ T.children x, w.counted x c = true)
    (hval : val m = acc x) :
    Folds T own op val (w.send x p m) acc (Function.update sent x (acc x)) := by
  have hup : w.up x = false := by
    rw [Bool.eq_false_iff]
    exact fun hup => hx (.inl hup)
  have hreported : ∀ y, (w.send x p m).Reported y ↔ y = x ∨ w.Reported y := by
    intro y
    rcases eq_or_ne y x with rfl | hyx
    · exact iff_of_true (.inl (Function.update_self ..)) (.inl rfl)
    · rw [Reported, show (w.send x p m).up y = w.up y from Function.update_of_ne hyx _ _]
      exact (or_iff_right hyx).symm
  refine
    { wave := h.wave.send hc hup hall m
      order := h.order.send hc hup m
      done_le := h.done_le
      acc_eq := fun y hy => ?_
      sent_eq := fun y hy => h.sent_eq_report hx hall ((hreported y).mp hy)
      report := fun q d hd b hb => ?_
      answer := fun q d hd b hb => ?_ }
  · rw [hreported, not_or] at hy
    rw [h.acc_eq y hy.2]
    exact (combine_update hx h.reported_of_take).symm
  · rcases (Chan.mem_push w.net m).mp hb with hold | ⟨rfl, rfl, rfl⟩
    · have hdx : d ≠ x := by
        rintro rfl
        obtain ⟨_, _, _, hupd, _⟩ := h.wave.sent_of_report hd (List.ne_nil_of_mem hold)
        exact hx (.inl hupd)
      rw [Function.update_of_ne hdx]
      exact h.report q d hd b hold
    · rw [Function.update_self, hval]
  · rw [Function.update_of_ne (root_ne_of_mem hc)]
    rcases (Chan.mem_push w.net m).mp hb with hb | ⟨rfl, rfl, _⟩
    · exact h.answer q d hd b hb
    · exact absurd hc (T.not_mem_children_symm hd)

/-- The root, having heard all its children, answers with what it holds. -/
theorem Folds.release_root (h : Folds T own op val w acc sent) (hroot : ¬w.Reported T.root)
    (hall : ∀ c ∈ T.children T.root, w.counted T.root c = true) (hval : val m = acc T.root) :
    Folds T own op val (w.release T.root (T.children T.root) m) acc
      (Function.update sent T.root (acc T.root)) := by
  have hzero := h.done_eq_zero hroot
  obtain ⟨hdone, hnone⟩ := h.wave.none_done hzero
  have hreported : ∀ y, (w.release T.root (T.children T.root) m).Reported y ↔
      y = T.root ∨ w.Reported y := by
    intro y
    rcases eq_or_ne y T.root with rfl | hy
    · refine iff_of_true (.inr ?_) (.inl rfl)
      exact (Function.update_self ..).trans (by rw [hzero])
    · rw [Reported, or_iff_right hy,
        show (w.release T.root (T.children T.root) m).up y = w.up y from
          Function.update_of_ne hy _ _,
        show (w.release T.root (T.children T.root) m).done y = w.done y from
          Function.update_of_ne hy _ _]
      rfl
  refine
    { wave := h.wave.release_root hall m
      order := h.order.release_root hall m
      done_le := fun y => ?_
      acc_eq := fun y hy => ?_
      sent_eq := fun y hy => h.sent_eq_report hroot hall ((hreported y).mp hy)
      report := fun q d hd b hb => ?_
      answer := fun q d hd b hb => ?_ }
  · rcases eq_or_ne y T.root with rfl | hy
    · rw [show (w.release T.root (T.children T.root) m).done T.root = w.done T.root + 1 from
        Function.update_self .., hzero]
    · rw [show (w.release T.root (T.children T.root) m).done y = w.done y from
        Function.update_of_ne hy _ _]
      exact h.done_le y
  · rw [hreported, not_or] at hy
    rw [show (w.release T.root (T.children T.root) m).replies y = w.replies y from
      Function.update_of_ne hy.1 _ _, h.acc_eq y hy.2]
    exact (combine_update hroot h.reported_of_take).symm
  · have hd' : d ≠ T.root := (root_ne_of_mem hd).symm
    rw [Function.update_of_ne hd']
    rcases (Chan.mem_bcast w.net m).mp hb with hb | ⟨hdr, _, _⟩
    · exact h.report q d hd b hb
    · exact absurd hdr hd'
  · rw [Function.update_self]
    rcases (Chan.mem_bcast w.net m).mp hb with hb | ⟨_, _, rfl⟩
    · rw [hnone q d hd] at hb
      cases hb
    · exact hval

/-- `x` receives the answer `m` of its parent `p`. -/
theorem Folds.answered (h : Folds T own op val w acc sent) (hc : x ∈ T.children p)
    (hu : w.net p x = [m]) :
    Folds T own op val (w.answer p x (T.children x) m) acc sent := by
  have hm : w.net p x ≠ [] := by simp [hu]
  obtain ⟨_, _, hdone, hupx, hnil⟩ := h.wave.answered_of_answer hc hm
  have hp := h.done_le p
  have hreported : ∀ y, (w.answer p x (T.children x) m).Reported y ↔ w.Reported y := by
    intro y
    rcases eq_or_ne y x with rfl | hy
    · have hnew : (w.answer p y (T.children y) m).done y = w.done y + 1 := Function.update_self ..
      exact iff_of_true (.inr (by omega)) (.inl hupx)
    · rw [Reported, show (w.answer p x (T.children x) m).up y = w.up y from
          Function.update_of_ne hy _ _,
        show (w.answer p x (T.children x) m).done y = w.done y from Function.update_of_ne hy _ _]
      rfl
  refine
    { wave := h.wave.answer hc hm m
      order := h.order.answer h.wave hc hm m
      done_le := fun y => ?_
      acc_eq := fun y hy => ?_
      sent_eq := fun y hy => h.sent_eq y ((hreported y).mp hy)
      report := fun q d hd b hb => ?_
      answer := fun q d hd b hb => ?_ }
  · rcases eq_or_ne y x with rfl | hy
    · rw [show (w.answer p y (T.children y) m).done y = w.done y + 1 from Function.update_self ..]
      omega
    · rw [show (w.answer p x (T.children x) m).done y = w.done y from
        Function.update_of_ne hy _ _]
      exact h.done_le y
  · rw [hreported] at hy
    have hyx : y ≠ x := by
      rintro rfl
      exact hy (.inl hupx)
    rw [show (w.answer p x (T.children x) m).replies y = w.replies y from
      Function.update_of_ne hyx _ _]
    exact h.acc_eq y hy
  · rcases (Chan.mem_bcast _ _).mp hb with hb | ⟨rfl, hq, _⟩
    · exact h.report q d hd b (Chan.mem_of_mem_pop _ hb)
    · exact absurd hq (T.not_mem_children_symm hd)
  · rcases (Chan.mem_bcast _ _).mp hb with hb | ⟨rfl, _, rfl⟩
    · exact h.answer q d hd b (Chan.mem_of_mem_pop _ hb)
    · exact h.answer p q hc b (by simp [hu])

end Folds

end Wave
