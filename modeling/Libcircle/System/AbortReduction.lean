import Libcircle.Lib.Fold
import Libcircle.Lib.Progress
import Libcircle.System.AbortAgreement

/-!
# The final abort reduction

`abortReduction` is `CIRCLE_abort_reduce` on its own, message by message: a rank
enters with any flag at any time, receives the flags of its children in order,
sends its partial result to its parent and awaits the result, sends the result
to its children one after the other, and returns.  A send is complete at once,
or, with `rendezvous`, when its message is received.

Up to the results that are still to be sent the steps are the moves of a wave
that folds the flags (`SweepNet.wave`).  So the ranks agree on the disjunction,
and while a rank has not returned some rank can take a step.  The work loop
takes only steps of the reduction (`abortReduction_of_run`).
-/

namespace Libcircle

variable {size width : Nat} {rendezvous : Bool} {r a b : Rank}

/-! ## The reduction -/

/-- A position in `CIRCLE_abort_reduce`. -/
inductive SweepPoint where
  /-- Not yet called. -/
  | outside
  /-- In the first loop. -/
  | collect
  /-- The result of the parent is awaited. -/
  | await
  /-- In the second loop. -/
  | forward
  | returned
deriving DecidableEq, Repr

/-- The variables of a rank in `CIRCLE_abort_reduce`. -/
structure Sweep where
  point : SweepPoint := .outside
  /-- `flag`. -/
  flag : Bool := false
  /-- `i`. -/
  index : Nat := 0
  /-- `CIRCLE_ABORT_FLAG`. -/
  abortFlag : Bool := false
  /-- `abort_state`. -/
  abortState : Bool := false
  /-- `CIRCLE_ABORT_FLAG` on entry, a history variable. -/
  entry : Bool := false
deriving DecidableEq, Repr

/-- The abort reduction of all ranks and the tag `CIRCLE_TAG_ABORT_REDUCE`. -/
structure SweepNet where
  /-- The variables of a rank. -/
  st : Rank → Sweep
  /-- `CIRCLE_TAG_ABORT_REDUCE`. -/
  net : Chan Rank Bool

namespace SweepNet

/-- No rank has called the function. -/
def start : SweepNet := ⟨fun _ => {}, .empty⟩

/-- A step of a rank. -/
inductive Step where
  /-- The call, with `CIRCLE_ABORT_FLAG` as `flag`. -/
  | enter (r : Rank) (flag : Bool)
  /-- The flag of the next child is received. -/
  | recv (r : Rank)
  /-- The partial result goes to the parent, or is the result on the root. -/
  | send (r : Rank)
  /-- The result of the parent is received. -/
  | result (r : Rank)
  /-- The result goes to the next child. -/
  | forward (r : Rank)
  /-- The flags are set and the function returns. -/
  | leave (r : Rank)

/-- The send of `r` to `d` is complete. -/
def SendDone (rendezvous : Bool) (x : SweepNet) (r d : Rank) : Prop :=
  rendezvous = true → x.net r d = []

instance (x : SweepNet) : Decidable (x.SendDone rendezvous a b) :=
  inferInstanceAs (Decidable (_ → _))

/-- The last send of the second loop is complete. -/
def Forwarded (size width : Nat) (rendezvous : Bool) (x : SweepNet) (r : Rank) : Prop :=
  0 < (x.st r).index →
    x.SendDone rendezvous r ((treeInit r size width).child ((x.st r).index - 1))

instance (x : SweepNet) : Decidable (x.Forwarded size width rendezvous r) :=
  inferInstanceAs (Decidable (_ → _))

/-- The steps a state enables. -/
def Enabled (size width : Nat) (rendezvous : Bool) (x : SweepNet) : Step → Prop
  | .enter r _ => r < size ∧ (x.st r).point = .outside
  | .recv r =>
      r < size ∧ (x.st r).point = .collect ∧ (x.st r).index < (treeInit r size width).children ∧
        x.net ((treeInit r size width).child (x.st r).index) r ≠ []
  | .send r =>
      r < size ∧ (x.st r).point = .collect ∧ (treeInit r size width).children ≤ (x.st r).index
  | .result r =>
      r < size ∧ (x.st r).point = .await ∧ (treeInit r size width).parentSent x.net r = true ∧
        ∀ p ∈ (treeInit r size width).parentRank, x.SendDone rendezvous r p
  | .forward r =>
      r < size ∧ (x.st r).point = .forward ∧ (x.st r).index < (treeInit r size width).children ∧
        x.Forwarded size width rendezvous r
  | .leave r =>
      r < size ∧ (x.st r).point = .forward ∧ (treeInit r size width).children ≤ (x.st r).index ∧
        x.Forwarded size width rendezvous r

instance (x : SweepNet) : ∀ e, Decidable (x.Enabled size width rendezvous e)
  | .enter .. => inferInstanceAs (Decidable (_ ∧ _))
  | .send _ => inferInstanceAs (Decidable (_ ∧ _ ∧ _))
  | .recv _ | .result _ | .forward _ | .leave _ => inferInstanceAs (Decidable (_ ∧ _ ∧ _ ∧ _))

/-- Replace the variables of `r`. -/
def set (x : SweepNet) (r : Rank) (y : Sweep) : SweepNet :=
  { x with st := Function.update x.st r y }

/-- The state after a step. -/
def next (size width : Nat) (x : SweepNet) : Step → SweepNet
  | .enter r flag =>
      x.set r { x.st r with
        point := .collect, flag := flag, index := 0, abortFlag := flag, entry := flag }
  | .recv r =>
      let child := (treeInit r size width).child (x.st r).index
      { x with net := x.net.pop child r }.set r
        { x.st r with
          flag := (x.st r).flag || (x.net child r).headD false
          index := (x.st r).index + 1 }
  | .send r =>
      match (treeInit r size width).parentRank with
      | some p =>
          { x with net := x.net.push r p (x.st r).flag }.set r { x.st r with point := .await }
      | none => x.set r { x.st r with point := .forward, index := 0 }
  | .result r =>
      match (treeInit r size width).parentRank with
      | some p =>
          { x with net := x.net.pop p r }.set r
            { x.st r with point := .forward, flag := (x.net p r).headD false, index := 0 }
      | none => x
  | .forward r =>
      { x with
        net := x.net.push r ((treeInit r size width).child (x.st r).index) (x.st r).flag }.set r
        { x.st r with index := (x.st r).index + 1 }
  | .leave r =>
      x.set r { x.st r with
        point := .returned, abortFlag := (x.st r).flag, abortState := (x.st r).flag }

end SweepNet

/-- `CIRCLE_abort_reduce` on `size` ranks in a tree of width `width`. -/
def abortReduction (size width : Nat) (rendezvous : Bool) : EventSystem SweepNet SweepNet.Step where
  Enabled := SweepNet.Enabled size width rendezvous
  next := SweepNet.next size width

instance (x : SweepNet) (e : SweepNet.Step) :
    Decidable ((abortReduction size width rendezvous).Enabled x e) :=
  inferInstanceAs (Decidable (x.Enabled size width rendezvous e))

namespace SweepNet

variable (x : SweepNet) {p : Rank}

theorem next_send_up (hp : (treeInit r size width).parentRank = some p) :
    x.next size width (.send r) =
      { x with net := x.net.push r p (x.st r).flag }.set r { x.st r with point := .await } := by
  rw [next, hp]

theorem next_send_root (hp : (treeInit r size width).parentRank = none) :
    x.next size width (.send r) = x.set r { x.st r with point := .forward, index := 0 } := by
  rw [next, hp]

theorem next_result (hp : (treeInit r size width).parentRank = some p) :
    x.next size width (.result r) =
      { x with net := x.net.pop p r }.set r
        { x.st r with point := .forward, flag := (x.net p r).headD false, index := 0 } := by
  rw [next, hp]

end SweepNet

/-! ## The reduction is a wave -/

namespace Sweep

/-- Whether the rank has the result. -/
def done (y : Sweep) : Nat := if y.point = .forward ∨ y.point = .returned then 1 else 0

/-- Whether the rank awaits the result. -/
def up (y : Sweep) : Bool := y.point = .await

/-- The number of children heard. -/
def replies (y : Sweep) : Nat := if y.point = .collect ∨ y.point = .await then y.index else 0

/-- The children the result is still to be sent to. -/
def pending (y : Sweep) (t : TreeState) : List Rank :=
  if y.point = .forward then t.childRanks.drop y.index else []

end Sweep

namespace SweepNet

variable (x : SweepNet)

/-- The messages in flight and those that are still to be sent. -/
def promised (size width : Nat) : Chan Rank Bool := fun a b =>
  if b ∈ (x.st a).pending (treeInit a size width) then x.net a b ++ [(x.st a).flag] else x.net a b

/-- The reduction as a wave. -/
def wave (size width : Nat) : Wave Rank Bool where
  done r := (x.st r).done
  up r := (x.st r).up
  replies r := (x.st r).replies
  net := x.promised size width

/-- `flag` of every rank. -/
def flags (r : Rank) : Bool := (x.st r).flag

/-- The flags on entry. -/
def entries (r : Rank) : Bool := (x.st r).entry

variable {x} {y : Sweep}

theorem promised_of_not_forward (h : (x.st a).point ≠ .forward) :
    x.promised size width a b = x.net a b := by
  simp [promised, Sweep.pending, h]

theorem promised_ne_nil (h : x.net a b ≠ []) : x.promised size width a b ≠ [] := by
  unfold promised
  split <;> simp [h]

/-- A message in flight that is the only one promised. -/
theorem net_eq_of_promised {m : Bool} (h : x.net a b ≠ [])
    (hm : x.promised size width a b = [m]) : x.net a b = [m] := by
  unfold promised at hm
  split at hm
  · cases hnet : x.net a b with
    | nil => exact absurd hnet h
    | cons m' ms => simp [hnet] at hm
  · exact hm

/-- A step of a rank that promises nothing, before or after. -/
theorem promised_set (hold : (x.st r).pending (treeInit r size width) = [])
    (hnew : y.pending (treeInit r size width) = []) :
    (x.set r y).promised size width = x.promised size width := by
  funext a b
  by_cases ha : a = r
  · subst ha
    simp [promised, set, hold, hnew]
  · simp [promised, set, Function.update_of_ne ha]

/-- A rank has the result. -/
theorem promised_release (hold : (x.st r).pending (treeInit r size width) = [])
    (hnew : y.pending (treeInit r size width) = (treeInit r size width).childRanks) :
    (x.set r y).promised size width =
      (x.promised size width).bcast r (treeInit r size width).childRanks y.flag := by
  funext a b
  by_cases ha : a = r
  · subst ha
    simp [promised, set, hold, hnew, Chan.bcast]
  · simp [promised, set, Chan.bcast, ha]

theorem promised_pop (h : x.net a b ≠ []) :
    ({ x with net := x.net.pop a b } : SweepNet).promised size width =
      (x.promised size width).pop a b := by
  funext c d
  by_cases hcd : c = a ∧ d = b
  · obtain ⟨rfl, rfl⟩ := hcd
    simp only [promised, Chan.pop_self]
    split
    · rw [List.tail_append_of_ne_nil h]
    · rfl
  · rw [Chan.pop_ne _ hcd]
    simp only [promised, Chan.pop_ne _ hcd]

theorem promised_push (h : b ∉ (x.st a).pending (treeInit a size width)) (m : Bool) :
    ({ x with net := x.net.push a b m } : SweepNet).promised size width =
      (x.promised size width).push a b m := by
  funext c d
  by_cases hcd : c = a ∧ d = b
  · obtain ⟨rfl, rfl⟩ := hcd
    simp [promised, h]
  · rw [Chan.push_ne _ _ hcd]
    simp only [promised, Chan.push_ne _ _ hcd]

/-! ### The steps are moves -/

theorem wave_enter (flag : Bool) (hpoint : (x.st r).point = .outside) :
    (x.next size width (.enter r flag)).wave size width = x.wave size width := by
  simp only [wave, next]
  congr 1
  · exact update_proj_same Sweep.done _ _ (by simp [Sweep.done, hpoint])
  · exact update_proj_same Sweep.up _ _ (by simp [Sweep.up, hpoint])
  · exact update_proj_same Sweep.replies _ _ (by simp [Sweep.replies, hpoint])
  · exact promised_set (by simp [Sweep.pending, hpoint]) (by simp [Sweep.pending])

theorem wave_recv (hpoint : (x.st r).point = .collect)
    (hm : x.net ((treeInit r size width).child (x.st r).index) r ≠ []) :
    (x.next size width (.recv r)).wave size width =
      (x.wave size width).recv r ((treeInit r size width).child (x.st r).index) := by
  simp only [wave, next, Wave.recv]
  congr 1
  · exact update_proj_same Sweep.done _ _ (by simp [Sweep.done, hpoint])
  · exact update_proj_same Sweep.up _ _ (by simp [Sweep.up, hpoint])
  · refine (update_proj Sweep.replies _ _ _).trans ?_
    simp [Sweep.replies, hpoint]
  · refine (promised_set ?_ ?_).trans (promised_pop hm) <;> simp [Sweep.pending, hpoint]

theorem wave_send {p : Rank} (hpoint : (x.st r).point = .collect)
    (hp : (treeInit r size width).parentRank = some p) :
    (x.next size width (.send r)).wave size width =
      (x.wave size width).send r p (x.st r).flag := by
  simp only [wave, next, hp, Wave.send]
  congr 1
  · exact update_proj_same Sweep.done _ _ (by simp [Sweep.done, hpoint])
  · refine (update_proj Sweep.up _ _ _).trans ?_
    simp [Sweep.up]
  · exact update_proj_same Sweep.replies _ _ (by simp [Sweep.replies, hpoint])
  · refine (promised_set ?_ ?_).trans (promised_push ?_ _) <;> simp [Sweep.pending, hpoint]

theorem wave_release (hpoint : (x.st r).point = .collect)
    (hp : (treeInit r size width).parentRank = none) :
    (x.next size width (.send r)).wave size width =
      (x.wave size width).release r (treeInit r size width).childRanks (x.st r).flag := by
  simp only [wave, next, hp, Wave.release]
  congr 1
  · refine (update_proj Sweep.done _ _ _).trans ?_
    simp [Sweep.done, hpoint]
  · refine (update_proj Sweep.up _ _ _).trans ?_
    simp [Sweep.up]
  · refine (update_proj Sweep.replies _ _ _).trans ?_
    simp [Sweep.replies]
  · exact promised_release (by simp [Sweep.pending, hpoint]) (by simp [Sweep.pending])

theorem wave_result {p : Rank} (hpoint : (x.st r).point = .await)
    (hp : (treeInit r size width).parentRank = some p) (hm : x.net p r ≠ []) :
    (x.next size width (.result r)).wave size width =
      (x.wave size width).answer p r (treeInit r size width).childRanks
        ((x.net p r).headD false) := by
  simp only [wave, next, hp, Wave.answer, Wave.release]
  congr 1
  · refine (update_proj Sweep.done _ _ _).trans ?_
    simp [Sweep.done, hpoint]
  · refine (update_proj Sweep.up _ _ _).trans ?_
    simp [Sweep.up]
  · refine (update_proj Sweep.replies _ _ _).trans ?_
    simp [Sweep.replies]
  · refine (promised_release ?_ ?_).trans ?_
    · simp [Sweep.pending, hpoint]
    · simp [Sweep.pending]
    · rw [promised_pop hm]

/-- A send of the second loop is a promise kept. -/
theorem wave_forward (hpoint : (x.st r).point = .forward)
    (hi : (x.st r).index < (treeInit r size width).children) :
    (x.next size width (.forward r)).wave size width = x.wave size width := by
  simp only [wave, next]
  congr 1
  · exact update_proj_same Sweep.done _ _ (by simp [Sweep.done])
  · exact update_proj_same Sweep.up _ _ (by simp [Sweep.up])
  · exact update_proj_same Sweep.replies _ _ (by simp [Sweep.replies, hpoint])
  · -- the child leaves the list of those the result is promised to
    have hdrop := List.drop_eq_getElem_cons hi
    have hchild : (treeInit r size width).child (x.st r).index =
        (treeInit r size width).childRanks[(x.st r).index] := by
      simp [TreeState.child, List.getD_eq_getElem?_getD, List.getElem?_eq_getElem hi]
    have hnodup : ((treeInit r size width).childRanks.drop (x.st r).index).Nodup :=
      childRanks_nodup.sublist (List.drop_sublist ..)
    rw [hdrop, ← hchild, List.nodup_cons] at hnodup
    rw [← hchild] at hdrop
    funext a b
    by_cases ha : a = r
    · subst ha
      simp only [promised, set, Function.update_self, Sweep.pending, hpoint, if_true, hdrop,
        List.mem_cons]
      by_cases hb : b = (treeInit a size width).child (x.st a).index
      · subst hb
        simp [hnodup.1]
      · simp [hb, Chan.push_ne]
    · simp [promised, set, Chan.push_ne, ha]

theorem wave_leave (hpoint : (x.st r).point = .forward)
    (hi : (treeInit r size width).children ≤ (x.st r).index) :
    (x.next size width (.leave r)).wave size width = x.wave size width := by
  simp only [wave, next]
  congr 1
  · exact update_proj_same Sweep.done _ _ (by simp [Sweep.done, hpoint])
  · exact update_proj_same Sweep.up _ _ (by simp [Sweep.up, hpoint])
  · exact update_proj_same Sweep.replies _ _ (by simp [Sweep.replies, hpoint])
  · refine promised_set ?_ (by simp [Sweep.pending])
    rw [Sweep.pending, if_pos hpoint]
    exact List.drop_eq_nil_of_le hi

/-! ### The variables after a step -/

theorem entries_enter (flag : Bool) :
    (x.next size width (.enter r flag)).entries = Function.update x.entries r flag :=
  update_proj Sweep.entry _ _ _

theorem entries_next {e : Step} (he : ∀ r flag, e ≠ .enter r flag) :
    (x.next size width e).entries = x.entries := by
  cases e with
  | enter r flag => exact absurd rfl (he r flag)
  | recv r | forward r | leave r => exact update_proj_same Sweep.entry _ _ rfl
  | send r =>
      simp only [next]
      split <;> exact update_proj_same Sweep.entry _ _ rfl
  | result r =>
      simp only [next]
      split
      · exact update_proj_same Sweep.entry _ _ rfl
      · rfl

theorem flags_enter (flag : Bool) :
    (x.next size width (.enter r flag)).flags = Function.update x.flags r flag :=
  update_proj Sweep.flag _ _ _

theorem flags_recv :
    (x.next size width (.recv r)).flags =
      Function.update x.flags r
        (x.flags r || (x.net ((treeInit r size width).child (x.st r).index) r).headD false) :=
  update_proj Sweep.flag _ _ _

theorem flags_send : (x.next size width (.send r)).flags = x.flags := by
  simp only [next]
  split <;> exact update_proj_same Sweep.flag _ _ rfl

theorem flags_result {p : Rank} (hp : (treeInit r size width).parentRank = some p) :
    (x.next size width (.result r)).flags =
      Function.update x.flags r ((x.net p r).headD false) := by
  simp only [next, hp]
  exact update_proj Sweep.flag _ _ _

theorem flags_forward : (x.next size width (.forward r)).flags = x.flags :=
  update_proj_same Sweep.flag _ _ rfl

theorem flags_leave : (x.next size width (.leave r)).flags = x.flags :=
  update_proj_same Sweep.flag _ _ rfl

theorem done_eq_one : (x.wave size width).done r = 1 ↔
    (x.st r).point = .forward ∨ (x.st r).point = .returned := by
  simp only [wave, Sweep.done]
  split <;> simp [*]

theorem not_reported_iff : ¬(x.wave size width).Reported r ↔
    (x.st r).point = .outside ∨ (x.st r).point = .collect := by
  rw [Wave.Reported, done_eq_one]
  cases h : (x.st r).point <;> simp [wave, Sweep.up, h]

end SweepNet

/-! ## The invariant -/

/-- The reduction folds the flags on entry, and every rank that has the result holds it. -/
structure SweepNet.Inv (T : ParentTree Rank) (size width : Nat) (x : SweepNet)
    (sent : Rank → Bool) : Prop where
  folds : (x.wave size width).Folds T x.entries (fun _ _ => or) id x.flags sent
  result : ∀ r, r < size → (x.wave size width).done r = 1 → x.flags r = sent T.root
  returned : ∀ r, (x.st r).point = .returned →
    (x.st r).abortFlag = x.flags r ∧ (x.st r).abortState = x.flags r

namespace SweepNet

variable {x : SweepNet} {e : Step} {sent : Rank → Bool} {hs : 0 < size} {hw : 0 < width}

theorem Inv.index_le (h : x.Inv (rankTree size width hs hw) size width sent)
    (hpoint : (x.st r).point = .collect) : (x.st r).index ≤ (treeInit r size width).children := by
  have hreplies : (x.st r).index =
      ((rankTree size width hs hw).children r).countP ((x.wave size width).counted r) := by
    rw [← h.folds.wave.replies_eq r]
    simp [wave, Sweep.replies, hpoint]
  rw [hreplies]
  exact List.countP_le_length

/-- A rank that heard all its children. -/
theorem Inv.heard_all (h : x.Inv (rankTree size width hs hw) size width sent)
    (hpoint : (x.st r).point = .collect)
    (hi : (treeInit r size width).children ≤ (x.st r).index) :
    ∀ c ∈ (rankTree size width hs hw).children r, (x.wave size width).counted r c = true := by
  refine h.folds.wave.counted_of_replies ?_
  have hreplies : (x.wave size width).replies r = (x.st r).index := by
    simp [wave, Sweep.replies, hpoint]
  rw [hreplies]
  exact Nat.le_antisymm (h.index_le hpoint) hi

/-- A rank that returned keeps its variables. -/
theorem Inv.returned_next (h : x.Inv (rankTree size width hs hw) size width sent)
    {net : Chan Rank Bool} {y : Sweep} (hy : y.point ≠ .returned) {x' : SweepNet}
    (hx' : x' = SweepNet.set { x with net := net } r y) :
    ∀ a, (x'.st a).point = .returned →
      (x'.st a).abortFlag = x'.flags a ∧ (x'.st a).abortState = x'.flags a := by
  subst hx'
  intro a ha
  by_cases har : a = r
  · subst har
    exact absurd (by simpa [set] using ha) hy
  · simp only [set, flags, Function.update_of_ne har] at ha ⊢
    exact h.returned a ha

theorem inv_next (h : x.Inv (rankTree size width hs hw) size width sent)
    (he : x.Enabled size width rendezvous e) :
    ∃ sent', (x.next size width e).Inv (rankTree size width hs hw) size width sent' := by
  cases e with
  | enter r flag =>
      obtain ⟨hr, hpoint⟩ := he
      have hnot : ¬(x.wave size width).Reported r := not_reported_iff.mpr (.inl hpoint)
      have hreplies : (x.wave size width).replies r = 0 := by
        simp [wave, Sweep.replies, hpoint]
      refine ⟨sent, ?_, ?_, h.returned_next (by simp) rfl⟩
      · rw [wave_enter flag hpoint, entries_enter, flags_enter]
        exact h.folds.enter hnot hreplies
      · intro a ha hd
        rw [wave_enter flag hpoint] at hd
        have har : a ≠ r := by
          rintro rfl
          exact hnot (.inr hd)
        rw [flags_enter, Function.update_of_ne har]
        exact h.result a ha hd
  | recv r =>
      obtain ⟨hr, hpoint, hi, hm⟩ := he
      have hnot : ¬(x.wave size width).Reported r := not_reported_iff.mpr (.inr hpoint)
      obtain ⟨m, hu, _⟩ := h.folds.wave.sent_of_report (TreeState.child_mem hi) (promised_ne_nil hm)
      have hget : ((rankTree size width hs hw).children r)[(x.wave size width).replies r]? =
          some ((treeInit r size width).child (x.st r).index) := by
        have hreplies : (x.wave size width).replies r = (x.st r).index := by
          simp [wave, Sweep.replies, hpoint]
        rw [hreplies]
        exact TreeState.child_getElem? hi
      have hfolds := h.folds.recv hget hu
      refine ⟨sent, ?_, ?_, h.returned_next (by simp [hpoint]) rfl⟩
      · rw [wave_recv hpoint hm, entries_next (by simp), flags_recv, net_eq_of_promised hm hu]
        exact hfolds
      · intro a ha hd
        rw [wave_recv hpoint hm] at hd
        have har : a ≠ r := by
          rintro rfl
          exact hnot (.inr hd)
        rw [flags_recv, Function.update_of_ne har]
        exact h.result a ha hd
  | send r =>
      obtain ⟨hr, hpoint, hi⟩ := he
      have hnot : ¬(x.wave size width).Reported r := not_reported_iff.mpr (.inr hpoint)
      have hall := h.heard_all hpoint hi
      cases hp : (treeInit r size width).parentRank with
      | some p =>
          have hc : r ∈ (rankTree size width hs hw).children p :=
            ((rankTree size width hs hw).mem_children p r).mpr ⟨hr, hp⟩
          refine ⟨Function.update sent r (x.flags r), ?_, ?_,
            h.returned_next (by simp) (x.next_send_up hp)⟩
          · rw [wave_send hpoint hp, entries_next (by simp), flags_send]
            exact h.folds.send hc hnot hall rfl
          · intro a ha hd
            rw [wave_send hpoint hp] at hd
            rw [flags_send, Function.update_of_ne (Wave.root_ne_of_mem hc)]
            exact h.result a ha hd
      | none =>
          obtain rfl : r = (rankTree size width hs hw).root :=
            (rankTree size width hs hw).eq_root r hr hp
          have hzero := (h.folds.wave.none_done (h.folds.done_eq_zero hnot)).1
          refine ⟨Function.update sent (rankTree size width hs hw).root
              (x.flags (rankTree size width hs hw).root), ?_, ?_,
            h.returned_next (by simp) (x.next_send_root hp)⟩
          · rw [wave_release hpoint hp, entries_next (by simp), flags_send]
            exact h.folds.release_root hnot hall rfl
          · -- the root is the first to have the result
            intro a ha hd
            rw [wave_release hpoint hp] at hd
            rw [flags_send, Function.update_self]
            have har : a = (rankTree size width hs hw).root := by
              by_contra har
              have hold : (x.wave size width).done a = 1 :=
                (Function.update_of_ne har _ _).symm.trans hd
              rw [hzero a ha] at hold
              cases hold
            rw [har]
  | result r =>
      obtain ⟨hr, hpoint, hsent, _⟩ := he
      obtain ⟨p, hp, hm⟩ := TreeState.parentSent_iff.mp hsent
      have hc : r ∈ (rankTree size width hs hw).children p :=
        ((rankTree size width hs hw).mem_children p r).mpr ⟨hr, hp⟩
      obtain ⟨m, hu, _⟩ := h.folds.wave.answered_of_answer hc (promised_ne_nil hm)
      have hnet := net_eq_of_promised hm hu
      have hroot : m = sent (rankTree size width hs hw).root :=
        h.folds.answer p r hc m (by simp [hu])
      have hfolds := h.folds.answered hc hu
      have hwave := wave_result hpoint hp hm
      rw [hnet, List.headD_cons] at hwave
      have hdone : ((x.wave size width).answer p r (treeInit r size width).childRanks m).done r =
          (x.wave size width).done r + 1 := Function.update_self ..
      refine ⟨sent, ?_, ?_, h.returned_next (by simp) (x.next_result hp)⟩
      · rw [hwave, entries_next (by simp), flags_result hp]
        refine hfolds.congr_acc fun a ha => Function.update_of_ne ?_ _ _
        rintro rfl
        refine ha (.inr (hdone.trans ?_))
        simp [wave, Sweep.done, hpoint]
      · intro a ha hd
        rw [hwave] at hd
        rw [flags_result hp, hnet]
        by_cases har : a = r
        · subst har
          simpa using hroot
        · rw [Function.update_of_ne har]
          exact h.result a ha ((Function.update_of_ne har _ _).symm.trans hd)
  | forward r =>
      obtain ⟨hr, hpoint, hi, _⟩ := he
      refine ⟨sent, ?_, ?_, h.returned_next (by simp [hpoint]) rfl⟩
      · rw [wave_forward hpoint hi, entries_next (by simp), flags_forward]
        exact h.folds
      · rw [wave_forward hpoint hi, flags_forward]
        exact h.result
  | leave r =>
      obtain ⟨hr, hpoint, hi, _⟩ := he
      refine ⟨sent, ?_, ?_, fun a ha => ?_⟩
      · rw [wave_leave hpoint hi, entries_next (by simp), flags_leave]
        exact h.folds
      · rw [wave_leave hpoint hi, flags_leave]
        exact h.result
      · rw [flags_leave]
        by_cases har : a = r
        · subst har
          simp [next, set, flags]
        · simp only [next, set, Function.update_of_ne har] at ha ⊢
          exact h.returned a ha

theorem inv_of_run {es : List Step} (hs : 0 < size) (hw : 0 < width)
    (hrun : (abortReduction size width rendezvous).Run .start es x) :
    ∃ sent, x.Inv (rankTree size width hs hw) size width sent := by
  refine hrun.invariant (I := fun x => ∃ sent, x.Inv (rankTree size width hs hw) size width sent)
    (fun _ _ ⟨_, h⟩ he => inv_next h he) ⟨fun _ => false, ?_, ?_, ?_⟩
  · exact Wave.folds_initial (fun _ => rfl) (fun _ => rfl) (fun _ => rfl) fun a b => by
      simp [wave, promised, start, Sweep.pending]
  · exact fun r _ hd => absurd hd (by simp [done_eq_one, start])
  · exact fun r hr => absurd hr (by simp [start])

/-! ## Agreement -/

/-- A rank that has returned holds the disjunction of the flags on entry. -/
theorem Inv.agrees (h : x.Inv (rankTree size width hs hw) size width sent) (hr : r < size)
    (hret : (x.st r).point = .returned) :
    (∀ a, a < size → (x.st a).point ≠ .outside) ∧
      (x.st r).abortFlag = (x.st r).abortState ∧
        ((x.st r).abortFlag = true ↔ ∃ a, a < size ∧ (x.st a).entry = true) := by
  have hdone : (x.wave size width).done r = 1 := done_eq_one.mpr (.inr hret)
  obtain ⟨hflag, hstate⟩ := h.returned r hret
  have hall : ∀ a, a < size → (x.wave size width).Reported a := fun a ha =>
    h.folds.reported_of_done hr hdone ha
  refine ⟨fun a ha hout => ?_, hflag.trans hstate.symm, ?_⟩
  · exact not_reported_iff.mpr (.inl hout) (hall a ha)
  · have hroot := h.folds.sent_eq_fold (rankTree_wf hs hw) (hall _ hs)
    rw [hflag, h.result r hr hdone]
    exact hroot ▸ (rankTree size width hs hw).fold_or_iff (rankTree_wf hs hw)

/-! ## Progress -/

/-- A rank waits for its result, which is in flight. -/
theorem Inv.enabled_result (h : x.Inv (rankTree size width hs hw) size width sent)
    (hc : a ∈ (rankTree size width hs hw).children r) (hm : x.net r a ≠ []) :
    x.Enabled size width rendezvous (.result a) := by
  have hnode : a < size := (rankTree size width hs hw).node_of_mem hc
  have hp : (treeInit a size width).parentRank = some r :=
    (rankTree size width hs hw).parent_of_mem hc
  obtain ⟨_, _, _, hup, hnil⟩ := h.folds.wave.answered_of_answer hc (promised_ne_nil hm)
  have hpoint : (x.st a).point = .await := by
    simpa [wave, Sweep.up] using hup
  refine ⟨hnode, hpoint, TreeState.parentSent_iff.mpr ⟨r, hp, hm⟩, ?_⟩
  -- the report of the rank was received before the answer was sent
  intro q hq _
  obtain rfl : r = q := Option.some.inj (hp.symm.trans hq)
  by_contra hne
  exact promised_ne_nil hne hnil

/-- A rank that forwards its result has sent to children only. -/
theorem Inv.child_of_forward (h : x.Inv (rankTree size width hs hw) size width sent)
    (hpoint : (x.st r).point = .forward) (hm : x.net r a ≠ []) :
    a ∈ (rankTree size width hs hw).children r := by
  by_contra ha
  by_cases hr : r ∈ (rankTree size width hs hw).children a
  · obtain ⟨_, _, _, hup, _⟩ := h.folds.wave.sent_of_report hr (promised_ne_nil hm)
    simp [wave, Sweep.up, hpoint] at hup
  · exact promised_ne_nil hm (h.folds.wave.off_tree r a ha hr)

/-- While a rank forwards its result, some rank can take a step. -/
theorem Inv.enabled_of_forward (h : x.Inv (rankTree size width hs hw) size width sent)
    (hr : r < size) (hpoint : (x.st r).point = .forward) :
    ∃ e, x.Enabled size width rendezvous e := by
  by_cases hfwd : x.Forwarded size width rendezvous r
  · by_cases hi : (x.st r).index < (treeInit r size width).children
    · exact ⟨.forward r, hr, hpoint, hi, hfwd⟩
    · exact ⟨.leave r, hr, hpoint, Nat.le_of_not_lt hi, hfwd⟩
  · -- the child of the last send can receive it
    simp only [Forwarded, SendDone, not_forall] at hfwd
    obtain ⟨_, _, hm⟩ := hfwd
    exact ⟨_, h.enabled_result (h.child_of_forward hpoint hm) hm⟩

/-- While a rank has not returned, some rank can take a step. -/
theorem Inv.exists_enabled (h : x.Inv (rankTree size width hs hw) size width sent)
    (hr : r < size) (hret : (x.st r).point ≠ .returned) :
    ∃ e, x.Enabled size width rendezvous e := by
  by_cases hfwd : ∃ a, a < size ∧ (x.st a).point = .forward
  · obtain ⟨a, ha, hpoint⟩ := hfwd
    exact h.enabled_of_forward ha hpoint
  · have hnet : ∀ a b, a < size → x.promised size width a b = x.net a b := fun a b ha =>
      promised_of_not_forward fun hpoint => hfwd ⟨a, ha, hpoint⟩
    have hzero : (x.wave size width).done r < 1 := by
      have hle := h.folds.done_le r
      have hne : (x.wave size width).done r ≠ 1 := by
        rw [Ne, done_eq_one]
        rintro (hpoint | hpoint)
        · exact hfwd ⟨r, hr, hpoint⟩
        · exact hret hpoint
      omega
    obtain ⟨a, ha, hd, ⟨p, hp, hm⟩ | ⟨hup, hall⟩⟩ :=
      h.folds.wave.exists_waiting (rankTree_wf hs hw) ⟨r, hr, hzero⟩
    · have hpn := (rankTree size width hs hw).node_parent a p ha
        ((rankTree size width hs hw).parent_of_mem hp)
      exact ⟨_, h.enabled_result hp (by rwa [← hnet p a hpn])⟩
    · have hnot : ¬(x.wave size width).Reported a := by
        rintro (hup' | hd')
        · exact absurd (hup.symm.trans hup') (by decide)
        · omega
      rcases not_reported_iff.mp hnot with hpoint | hpoint
      · exact ⟨.enter a false, ha, hpoint⟩
      · by_cases hi : (x.st a).index < (treeInit a size width).children
        · have hreplies : (x.wave size width).replies a = (x.st a).index := by
            simp [wave, Sweep.replies, hpoint]
          have hget := TreeState.child_getElem? hi
          rw [← hreplies] at hget
          have hm := h.folds.order.next_report hget hall
          have hc := (rankTree size width hs hw).node_of_mem (List.mem_of_getElem? hget)
          rw [hreplies] at hm hc
          exact ⟨.recv a, ha, hpoint, hi, by rwa [← hnet _ a hc]⟩
        · exact ⟨.send a, ha, hpoint, Nat.le_of_not_lt hi⟩

end SweepNet

/-- The final abort reduction agrees and does not get stuck.  While a rank has not returned, some
rank can take a step.  When a rank returns, every rank has called the function, and its flag and
`abort_state` are the disjunction of the flags on entry. -/
theorem abort_reduction_agrees {x : SweepNet} {es : List SweepNet.Step} (hs : 0 < size)
    (hw : 0 < width) (hrun : (abortReduction size width rendezvous).Run .start es x) :
    ((∃ r, r < size ∧ (x.st r).point ≠ .returned) →
        ∃ e, (abortReduction size width rendezvous).Enabled x e) ∧
      ∀ r, r < size → (x.st r).point = .returned →
        (∀ a, a < size → (x.st a).point ≠ .outside) ∧
          (x.st r).abortFlag = (x.st r).abortState ∧
            ((x.st r).abortFlag = true ↔ ∃ a, a < size ∧ (x.st a).entry = true) := by
  obtain ⟨sent, h⟩ := SweepNet.inv_of_run hs hw hrun
  exact ⟨fun ⟨r, hr, hret⟩ => h.exists_enabled hr hret, fun r hr hret => h.agrees hr hret⟩

/-- Three ranks, of which the last enters with its flag set.  Every send waits for its receiver. -/
def threeSweeps : List SweepNet.Step :=
  [.enter 1 false, .send 1, .enter 0 false, .recv 0, .enter 2 true, .send 2, .recv 0, .send 0,
    .forward 0, .result 1, .leave 1, .forward 0, .result 2]

theorem abort_reduction_agrees_threeSweeps :
    let x := (abortReduction 3 2 true).follow .start threeSweeps
    (∃ e, (abortReduction 3 2 true).Enabled x e) ∧ (x.st 1).abortFlag = true :=
  have hrun : (abortReduction 3 2 true).Run .start threeSweeps
      ((abortReduction 3 2 true).follow .start threeSweeps) :=
    .of_admits (by decide +kernel)
  have h := abort_reduction_agrees (by decide) (by decide) hrun
  ⟨h.1 ⟨0, by decide, by decide +kernel⟩,
    (h.2 1 (by decide) (by decide +kernel)).2.2.mpr ⟨2, by decide, by decide +kernel⟩⟩

/-! ## The work loop takes the steps of the reduction -/

section Simulation

variable {α : Type*} {job : Job} {s : Sys α} {e : Event α} {x y : SweepNet}

/-- The rest of the function once the result is known. -/
theorem run_forward (hr : r < size) : ∀ n x, (x.st r).point = .forward →
    (treeInit r size width).children - (x.st r).index = n → ∃ fs y,
      (abortReduction size width false).Run x fs y ∧
        y.net = x.net.bcast r ((treeInit r size width).childRanks.drop (x.st r).index)
          (x.st r).flag ∧
        (y.st r).point = .returned ∧ (y.st r).abortFlag = (x.st r).flag ∧
        (y.st r).abortState = (x.st r).flag ∧ ∀ a, a ≠ r → y.st a = x.st a := by
  intro n
  induction n with
  | zero =>
      intro x hpoint hn
      have hi := Nat.sub_eq_zero_iff_le.mp hn
      have hE : (abortReduction size width false).Enabled x (.leave r) :=
        ⟨hr, hpoint, hi, fun _ hf => absurd hf (by decide)⟩
      refine ⟨[.leave r], _, .single hE, ?_, ?_, ?_, ?_, fun a ha => ?_⟩
      · rw [List.drop_eq_nil_of_le hi]
        funext a b
        exact (Chan.bcast_ne _ _ (by simp)).symm
      · simp [abortReduction, SweepNet.next, SweepNet.set]
      · simp [abortReduction, SweepNet.next, SweepNet.set]
      · simp [abortReduction, SweepNet.next, SweepNet.set]
      · exact Function.update_of_ne ha _ _
  | succ n ih =>
      intro x hpoint hn
      have hi : (x.st r).index < (treeInit r size width).children := by omega
      have hE : (abortReduction size width false).Enabled x (.forward r) :=
        ⟨hr, hpoint, hi, fun _ hf => absurd hf (by decide)⟩
      have hst : ((x.next size width (.forward r)).st r) =
          { x.st r with index := (x.st r).index + 1 } := Function.update_self ..
      obtain ⟨fs, y, hrun, hnet, hret, hflag, hstate, hne⟩ := ih (x.next size width (.forward r))
        (by rw [hst, hpoint]) (by rw [hst]; simp only; omega)
      rw [hst] at hnet hflag hstate
      refine ⟨.forward r :: fs, y, .cons hE hrun, ?_, hret, hflag, hstate, fun a ha => ?_⟩
      · have hdrop := List.drop_eq_getElem_cons hi
        have hnodup : ((treeInit r size width).childRanks.drop (x.st r).index).Nodup :=
          childRanks_nodup.sublist (List.drop_sublist ..)
        rw [hdrop, List.nodup_cons] at hnodup
        rw [hnet, hdrop, Chan.bcast_cons _ _ hnodup.1]
        have hchild := Option.some.inj
          ((TreeState.child_getElem? hi).symm.trans (List.getElem?_eq_getElem hi))
        rw [← hchild]
        rfl
      · exact (hne a ha).trans (Function.update_of_ne ha _ _)

/-- A rank of the work loop and its variables in the reduction, which it enters when it takes its
first step there. -/
structure Loc.Sweeps (l : Loc α) (y : Sweep) : Prop where
  outside : l.abortReduce.completed = 0 → l.abortReduce.waiting = false → l.pc ≠ .abortReduce →
    y.point = .outside
  collect : l.abortReduce.completed = 0 → l.abortReduce.waiting = false →
    (y.point = .outside ∧ l.abortReduce.index = 0) ∨
      (y.point = .collect ∧ y.flag = l.abortReduce.flag ∧ y.index = l.abortReduce.index)
  await : l.abortReduce.completed = 0 → l.abortReduce.waiting = true → y.point = .await
  returned : l.abortReduce.completed ≠ 0 →
    y.point = .returned ∧ y.abortFlag = l.abortFlag ∧ y.abortState = l.abort.abortState

/-- The two systems are at the same point of the reduction. -/
structure SweepNet.Follows (x : SweepNet) (s : Sys α) : Prop where
  net : x.net = s.abortReduce.net
  loc : ∀ r, (s.loc r).Sweeps (x.st r)

theorem completed_of_reducing (hO : s.Once job) (h : (s.loc r).Reducing) :
    (s.abortReduce.st r).completed = 0 := by
  have h : (s.abortReduce.st r).completed + 1 = s.inv r := h
  have hle := hO.inv_le r
  omega

theorem completed_of_looping (hO : s.Once job) (h : (s.loc r).Looping) :
    (s.abortReduce.st r).completed = 0 := by
  have hcount := (hO.coherent.ok r).tidy.counted
  refine completed_of_reducing hO ?_
  rcases h with h | h <;>
  · rw [h] at hcount
    exact hcount.2

/-- A rank completes the reduction when it returns from `CIRCLE_work_loop`. -/
theorem pc_of_completed (hO : s.Once job) (hdone : (s.abortReduce.st r).completed ≠ 0) :
    s.pc r = .idle ∨ s.pc r = .returned := by
  have hat := (hO.coherent.ok r).position
  cases hpc : s.pc r with
  | idle => exact .inl rfl
  | returned => exact .inr rfl
  | workreq =>
      rw [hpc] at hat
      exact absurd (completed_of_looping hO hat) hdone
  | sendWork | workreceipt | work | termReplies | termUp | termDown | token =>
      rw [hpc] at hat
      exact absurd (completed_of_looping hO (.inl hat.1)) hdone
  | barrierStart | barrierReply | barrierUp | barrierDown | tokenDrain =>
      rw [hpc] at hat
      exact absurd (completed_of_looping hO (.inr hat.1)) hdone
  | sendNoWork | worksend | abortStart | abortRequest | abortReplies | reduce | request
  | reduceReplies i =>
      rw [hpc] at hat
      exact absurd (completed_of_looping hO hat.1) hdone
  | worksendWait =>
      rw [hpc] at hat
      exact absurd (completed_of_reducing hO hat.2.2.2) hdone
  | reduceSync | reduceSyncReplies i | abortReduce | abortReduceDown =>
      rw [hpc] at hat
      exact absurd (completed_of_reducing hO hat.2.2.2.1) hdone

/-- After `CIRCLE_work_loop` a rank can only finish. -/
theorem event_of_returned (he : s.Enabled job e) (hpc : s.pc e.rank = .returned) :
    e = .finish e.rank := by
  cases e with
  | finish r => rfl
  | workreqDone r rand | sendNoWork r | workreceiptDone r | worksendDone r | abortStart r
  | termRepliesDone r | termUp r | barrierStart r | barrierUp r | worksendWait r
  | reduceSync r calls => cases (show s.pc r = _ from he).symm.trans hpc
  | reduceReply r hit calls | reduceSyncReply r calls =>
      have h := he.1
      rw [show s.pc r = .returned from hpc] at h
      cases h
  | _ => cases he.1.symm.trans hpc

/-- A rank that has completed the reduction can only finish. -/
theorem event_of_completed (hO : s.Once job) (he : s.Enabled job e) (hf : FirstOnly s e)
    (hdone : (s.abortReduce.st e.rank).completed ≠ 0) : e = .finish e.rank := by
  rcases pc_of_completed hO hdone with hpc | hpc
  · obtain ⟨next, ops, hb⟩ := event_of_idle he hpc
    rw [hb] at hf
    have hcount := (hO.coherent.ok e.rank).tidy.counted
    have hinv : s.inv e.rank = 0 := hf
    rw [show (s.loc e.rank).stage = _ from ((hO.coherent.ok e.rank).requested_of_idle hpc).1]
      at hcount
    exact absurd (hcount.2.trans hinv) hdone
  · exact event_of_returned he hpc

theorem SweepNet.Follows.update {t : Sys α} (h : x.Follows s) (hnet : y.net = t.abortReduce.net)
    (hloc : ∀ a, a ≠ r → t.loc a = s.loc a) (hst : ∀ a, a ≠ r → y.st a = x.st a)
    (hr : (t.loc r).Sweeps (y.st r)) : y.Follows t := by
  refine ⟨hnet, fun a => ?_⟩
  by_cases ha : a = r
  · exact ha ▸ hr
  · rw [hloc a ha, hst a ha]
    exact h.loc a

/-- An event outside the reduction. -/
theorem SweepNet.Follows.outside (h : x.Follows s) (hO : s.Once job) (he : s.Enabled job e)
    (hf : FirstOnly s e) (hreply : e ≠ .abortReduceReply e.rank) (hup : e ≠ .abortReduceUp e.rank)
    (hnet : (s.next job e).abortReduce.net = s.abortReduce.net)
    (hst : ∃ flag, (s.next job e).abortReduce.st e.rank =
      { s.abortReduce.st e.rank with flag := flag }) : x.Follows (s.next job e) := by
  obtain ⟨flag, hst⟩ := hst
  have hold := h.loc e.rank
  have hpc : s.pc e.rank ≠ .abortReduce := fun hpc =>
    (event_of_abortReduce he hpc).elim hreply hup
  have hst' : ((s.next job e).loc e.rank).abortReduce =
      { s.abortReduce.st e.rank with flag := flag } := hst
  refine h.update (r := e.rank) (h.net.trans hnet.symm) (fun a ha => loc_next_of_ne ha)
    (fun _ _ => rfl) ⟨fun hd hw _ => ?_, fun hd hw => ?_, fun hd hw => ?_, fun hd => ?_⟩
  · rw [hst'] at hd hw
    exact hold.outside hd hw hpc
  · rw [hst'] at hd hw
    have hout := hold.outside hd hw hpc
    rcases hold.collect hd hw with ⟨_, hindex⟩ | ⟨hpoint, _⟩
    · refine .inl ⟨hout, ?_⟩
      rw [hst']
      exact hindex
    · cases hout.symm.trans hpoint
  · rw [hst'] at hd hw
    exact hold.await hd hw
  · rw [hst'] at hd
    have hfin := event_of_completed hO he hf hd
    obtain ⟨hpoint, hflag, hstate⟩ := hold.returned hd
    rw [hfin] at hflag hstate ⊢
    exact ⟨hpoint, hflag, hstate⟩

/-- A rank that is about to take a step in the reduction has entered it. -/
theorem SweepNet.Follows.entered (h : x.Follows s) (hr : r < size)
    (hpc : s.pc r = .abortReduce) (hd : (s.abortReduce.st r).completed = 0)
    (hw : (s.abortReduce.st r).waiting = false) :
    ∃ fs y, (abortReduction size width false).Run x fs y ∧ y.Follows s ∧
      (y.st r).point = .collect ∧ (y.st r).flag = (s.abortReduce.st r).flag ∧
        (y.st r).index = (s.abortReduce.st r).index := by
  rcases (h.loc r).collect hd hw with ⟨hpoint, hindex⟩ | ⟨hpoint, hflag, hindex⟩
  · have hE : (abortReduction size width false).Enabled x
        (.enter r (s.abortReduce.st r).flag) := ⟨hr, hpoint⟩
    have hst : ((x.next size width (.enter r (s.abortReduce.st r).flag)).st r) =
        { x.st r with
          point := .collect, flag := (s.abortReduce.st r).flag, index := 0
          abortFlag := (s.abortReduce.st r).flag
          entry := (s.abortReduce.st r).flag } := Function.update_self ..
    have hindex' : (s.abortReduce.st r).index = 0 := hindex
    refine ⟨_, _, .single hE, h.update (r := r) h.net (fun _ _ => rfl)
      (fun a ha => Function.update_of_ne ha _ _) ?_, ?_⟩
    · refine ⟨fun _ _ hne => absurd hpc hne, fun _ _ => .inr ?_, fun _ hw' => ?_,
        fun hd' => absurd hd hd'⟩
      · refine (congrArg (fun z : Sweep => z.point = _ ∧ z.flag = _ ∧ z.index = _) hst).mpr ?_
        exact ⟨rfl, rfl, hindex'.symm⟩
      · exact absurd (hw.symm.trans hw') (by decide)
    · refine (congrArg (fun z : Sweep => z.point = _ ∧ z.flag = _ ∧ z.index = _) hst).mpr ?_
      exact ⟨rfl, rfl, hindex'.symm⟩
  · exact ⟨[], x, .nil x, h, hpoint, hflag, hindex⟩

/-- The result is known to `r`, which forwards it and returns. -/
theorem SweepNet.Follows.finish {t : Sys α} {z : SweepNet} {fs : List SweepNet.Step}
    (h : x.Follows s) (hr : r < size) (hrun : (abortReduction size width false).Run z fs y)
    (hpoint : (y.st r).point = .forward) (hindex : (y.st r).index = 0)
    (hst : ∀ a, a ≠ r → y.st a = x.st a) (hloc : ∀ a, a ≠ r → t.loc a = s.loc a)
    (hnet : t.abortReduce.net =
      y.net.bcast r (treeInit r size width).childRanks (y.st r).flag)
    (hdone : (t.abortReduce.st r).completed ≠ 0) (hflag : t.abortFlag r = (y.st r).flag)
    (hstate : (t.abort.st r).abortState = (y.st r).flag) :
    ∃ gs u, (abortReduction size width false).Run z gs u ∧ u.Follows t := by
  obtain ⟨gs, u, hrun', hz, hret, hzflag, hzstate, hne⟩ := run_forward hr _ y hpoint rfl
  rw [hindex, List.drop_zero] at hz
  refine ⟨fs ++ gs, u, hrun.append hrun', h.update (hz.trans hnet.symm) hloc
    (fun a ha => (hne a ha).trans (hst a ha)) ⟨fun hd => absurd hd hdone, fun hd => absurd hd hdone,
      fun hd => absurd hd hdone, fun _ => ⟨hret, ?_, ?_⟩⟩⟩
  · exact hzflag.trans hflag.symm
  · exact hzstate.trans hstate.symm

theorem SweepNet.follows_reply (he : s.Enabled job (.abortReduceReply r)) (hO : s.Once job)
    (h : x.Follows s) :
    ∃ fs y, (abortReduction job.size (job.opts 1).treeWidth false).Run x fs y ∧
      y.Follows (s.next job (.abortReduceReply r)) := by
  have hok := hO.coherent.ok r
  have hlt : r < job.size := hok.rank_lt (e := .abortReduceReply r) he
  obtain ⟨hpc, hindex, hm⟩ := id he
  have htree := hO.tree_eq (hok.stage_ne (by simp [hpc]))
  have hat := hok.position
  rw [hpc] at hat
  have hd := completed_of_reducing hO hat.2.2.2.1
  obtain ⟨fs, y, hrun, hy, hpoint, hflag, hi⟩ :=
    h.entered hlt hpc hd hat.2.2.1
  rw [htree, ← hi] at hindex hm
  have hE : (abortReduction job.size (job.opts 1).treeWidth false).Enabled y (.recv r) :=
    ⟨hlt, hpoint, hindex, by rwa [hy.net]⟩
  have hynext : (y.next job.size (job.opts 1).treeWidth (.recv r)).st r =
      { y.st r with
        flag := (y.st r).flag ||
          (y.net ((treeInit r job.size (job.opts 1).treeWidth).child (y.st r).index) r).headD false
        index := (y.st r).index + 1 } := Function.update_self ..
  have hsnext : (s.next job (.abortReduceReply r)).abortReduce.st r =
      { s.abortReduce.st r with
        flag := (s.abortReduce.st r).flag ||
          (s.abortReduce.net ((s.tree job r).child (s.abortReduce.st r).index) r).headD false
        index := (s.abortReduce.st r).index + 1 } := Function.update_self ..
  refine ⟨fs ++ [.recv r], y.next job.size (job.opts 1).treeWidth (.recv r), hrun.snoc hE,
    hy.update (r := r) ?_ (fun a ha => loc_next_of_ne ha)
      (fun a ha => Function.update_of_ne ha _ _)
      ⟨fun _ _ hne => absurd hpc hne, fun _ _ => .inr ?_, fun _ hw => ?_, fun hd' => ?_⟩⟩
  · simp only [SweepNet.next, SweepNet.set, Sys.next, AbortReduceNet.recvFlag, htree, hy.net, hi]
    rfl
  · rw [hynext]
    refine ⟨hpoint, ?_, ?_⟩
    · refine Eq.trans ?_ (congrArg AbortReduce.flag hsnext).symm
      rw [htree, hy.net, hflag, hi]
      rfl
    · exact (congrArg (· + 1) hi).trans (congrArg AbortReduce.index hsnext).symm
  · have hw' : (s.abortReduce.st r).waiting = true :=
      (congrArg AbortReduce.waiting hsnext).symm.trans hw
    exact absurd (hat.2.2.1.symm.trans hw') (by decide)
  · exact absurd ((congrArg AbortReduce.completed hsnext).trans hd) hd'

theorem SweepNet.follows_up (he : s.Enabled job (.abortReduceUp r)) (hO : s.Once job)
    (h : x.Follows s) :
    ∃ fs y, (abortReduction job.size (job.opts 1).treeWidth false).Run x fs y ∧
      y.Follows (s.next job (.abortReduceUp r)) := by
  have hok := hO.coherent.ok r
  have hlt : r < job.size := hok.rank_lt (e := .abortReduceUp r) he
  obtain ⟨hpc, hindex⟩ := id he
  have htree := hO.tree_eq (hok.stage_ne (by simp [hpc]))
  have hat := hok.position
  rw [hpc] at hat
  have hd := completed_of_reducing hO hat.2.2.2.1
  obtain ⟨fs, y, hrun, hy, hpoint, hflag, hi⟩ := h.entered hlt hpc hd hat.2.2.1
  rw [htree, ← hi] at hindex
  have hE : (abortReduction job.size (job.opts 1).treeWidth false).Enabled y (.send r) :=
    ⟨hlt, hpoint, Nat.le_of_eq hindex.symm⟩
  have hrun' := hrun.snoc hE
  obtain ⟨p, hp, hreport⟩ | ⟨hp, hreport⟩ := s.abortReduce.report_cases (job.tree 1 r) r
  · have hynext := y.next_send_up hp
    have hsnext : (s.next job (.abortReduceUp r)).abortReduce = s.abortReduce.sendUp r p := by
      simp only [Sys.next, htree, hreport]
    have hst : ((s.next job (.abortReduceUp r)).loc r).abortReduce =
        { s.abortReduce.st r with waiting := true } :=
      (congrArg (fun z => z.st r) hsnext).trans (Function.update_self ..)
    refine ⟨_, y.next job.size (job.opts 1).treeWidth (.send r), hrun', hy.update (r := r) ?_
      (fun a ha => loc_next_of_ne ha) (fun a ha => ?_)
        ⟨fun _ hw => ?_, fun _ hw => ?_, fun _ _ => ?_, fun hd' => ?_⟩⟩
    · rw [hsnext, hynext, hy.net, hflag]
      rfl
    · rw [hynext]
      exact Function.update_of_ne ha _ _
    · rw [hst] at hw
      cases hw
    · rw [hst] at hw
      cases hw
    · rw [hynext]
      simp [SweepNet.set]
    · rw [hst] at hd'
      exact absurd hd hd'
  · have hynext := y.next_send_root hp
    have hsnext : (s.next job (.abortReduceUp r)).abortReduce =
        s.abortReduce.complete (job.tree 1 r) r (s.abortReduce.st r).flag := by
      simp only [Sys.next, htree, hreport]
    have hst : (y.next job.size (job.opts 1).treeWidth (.send r)).st r =
        { y.st r with point := .forward, index := 0 } := by
      rw [hynext]
      exact Function.update_self ..
    refine hy.finish hlt hrun' (congrArg Sweep.point hst) (congrArg Sweep.index hst)
      (fun a ha => ?_) (fun a ha => loc_next_of_ne (e := .abortReduceUp r) ha) ?_ ?_ ?_ ?_
    · refine (congrArg (fun z => z.st a) hynext).trans ?_
      exact Function.update_of_ne ha _ _
    · rw [hsnext, show (abortReduction job.size (job.opts 1).treeWidth false).next y (.send r) = _
        from hynext]
      simp only [SweepNet.set, Function.update_self, AbortReduceNet.complete, hy.net, hflag]
      rfl
    · rw [hsnext]
      simp [AbortReduceNet.complete]
    · rw [show ((abortReduction job.size (job.opts 1).treeWidth false).next y (.send r)).st r = _
        from hst]
      simp [Sys.next, htree, hreport, hflag]
    · rw [show ((abortReduction job.size (job.opts 1).treeWidth false).next y (.send r)).st r = _
        from hst]
      simp [Sys.next, htree, hreport, hflag, AbortNet.set]

theorem SweepNet.follows_down (he : s.Enabled job (.abortReduceDown r)) (hO : s.Once job)
    (h : x.Follows s) :
    ∃ fs y, (abortReduction job.size (job.opts 1).treeWidth false).Run x fs y ∧
      y.Follows (s.next job (.abortReduceDown r)) := by
  have hok := hO.coherent.ok r
  have hlt : r < job.size := hok.rank_lt (e := .abortReduceDown r) he
  obtain ⟨hpc, hsent⟩ := id he
  have htree := hO.tree_eq (hok.stage_ne (by simp [hpc]))
  have hat := hok.position
  rw [hpc] at hat
  have hd := completed_of_reducing hO hat.2.2.2.1
  have hpoint := (h.loc r).await hd hat.2.2.1
  rw [htree, ← h.net] at hsent
  obtain ⟨p, hp, _⟩ := TreeState.parentSent_iff.mp hsent
  have hE : (abortReduction job.size (job.opts 1).treeWidth false).Enabled x (.result r) :=
    ⟨hlt, hpoint, hsent, fun _ _ hf => absurd hf (by decide)⟩
  have hxnext := x.next_result hp
  have hawait := s.abortReduce.await_eq (job.tree 1 r) r hp
  have hsnext : (s.next job (.abortReduceDown r)).abortReduce =
      s.abortReduce.recvResult (job.tree 1 r) r p ((s.abortReduce.net p r).headD false) := by
    simp only [Sys.next, htree, hawait]
  have hst : (x.next job.size (job.opts 1).treeWidth (.result r)).st r =
      { x.st r with point := .forward, flag := (x.net p r).headD false, index := 0 } := by
    rw [hxnext]
    exact Function.update_self ..
  refine h.finish hlt (.single hE) (congrArg Sweep.point hst) (congrArg Sweep.index hst)
    (fun a ha => ?_) (fun a ha => loc_next_of_ne (e := .abortReduceDown r) ha) ?_ ?_ ?_ ?_
  · refine (congrArg (fun z => z.st a) hxnext).trans ?_
    exact Function.update_of_ne ha _ _
  · rw [hsnext, show (abortReduction job.size (job.opts 1).treeWidth false).next x (.result r) = _
      from hxnext]
    simp only [SweepNet.set, Function.update_self, AbortReduceNet.recvResult,
      AbortReduceNet.complete, h.net]
    rfl
  · rw [hsnext]
    simp [AbortReduceNet.recvResult, AbortReduceNet.complete]
  · rw [show ((abortReduction job.size (job.opts 1).treeWidth false).next x (.result r)).st r = _
      from hst]
    simp [Sys.next, htree, hawait, h.net]
  · rw [show ((abortReduction job.size (job.opts 1).treeWidth false).next x (.result r)).st r = _
      from hst]
    simp [Sys.next, htree, hawait, h.net, AbortNet.set]

theorem SweepNet.follows_next (he : s.Enabled job e) (hf : FirstOnly s e) (hO : s.Once job)
    (h : x.Follows s) :
    ∃ fs y, (abortReduction job.size (job.opts 1).treeWidth false).Run x fs y ∧
      y.Follows (s.next job e) := by
  cases e with
  | abortReduceReply r => exact SweepNet.follows_reply he hO h
  | abortReduceUp r => exact SweepNet.follows_up he hO h
  | abortReduceDown r => exact SweepNet.follows_down he hO h
  | worksendWait r =>
      refine ⟨[], x, .nil x, h.outside hO he hf (by simp) (by simp) rfl ⟨s.abortFlag r, ?_⟩⟩
      exact Function.update_self ..
  | reduceSyncDone r calls =>
      refine ⟨[], x, .nil x, h.outside hO he hf (by simp) (by simp) rfl
        ⟨s.abortFlag r || callsAbort calls, ?_⟩⟩
      exact Function.update_self ..
  | _ => exact ⟨[], x, .nil x, h.outside hO he hf (by simp) (by simp) rfl ⟨_, rfl⟩⟩

/-- The work loop takes only steps of the reduction. -/
theorem SweepNet.follows_of_run {queue : Rank → List α} {abortFlag : Rank → Bool}
    {input : Rank → ReduceInput} {enqueued : List α} {es : List (Event α)}
    (hrun : job.once.Run (Sys.start queue abortFlag input enqueued) es s) :
    ∃ fs x, (abortReduction job.size (job.opts 1).treeWidth false).Run .start fs x ∧
      s.Once job ∧ x.Follows s := by
  have hstart : SweepNet.start.Follows (Sys.start queue abortFlag input enqueued) := by
    refine ⟨rfl, fun r => ⟨fun _ _ _ => rfl, fun _ _ => .inl ⟨rfl, rfl⟩, fun _ hw => ?_,
      fun hd => absurd rfl hd⟩⟩
    cases hw
  exact hrun.simulate (R := fun s (x : SweepNet) => s.Once job ∧ x.Follows s)
    (fun s x e ⟨hO, hR⟩ ⟨he, hf⟩ => by
      obtain ⟨fs, y, hy, hR'⟩ := SweepNet.follows_next he hf hO hR
      exact ⟨fs, y, hy, once_next he hf hO, hR'⟩) ⟨once_start .., hstart⟩

/-- A rank that has returned from the work loop has returned from the reduction. -/
theorem abortReduction_of_run {queue : Rank → List α} {abortFlag : Rank → Bool}
    {input : Rank → ReduceInput} {enqueued : List α} {es : List (Event α)}
    (hrun : job.once.Run (Sys.start queue abortFlag input enqueued) es s) :
    ∃ fs x, (abortReduction job.size (job.opts 1).treeWidth false).Run .start fs x ∧
      x.net = s.abortReduce.net ∧
        ∀ r, s.pc r = .returned → (x.st r).point = .returned ∧
          (x.st r).abortFlag = s.abortFlag r ∧
            (x.st r).abortState = (s.abort.st r).abortState := by
  obtain ⟨fs, x, hx, hO, hR⟩ := SweepNet.follows_of_run hrun
  refine ⟨fs, x, hx, hR.net, fun r hpc => (hR.loc r).returned ?_⟩
  have hdone : (s.abortReduce.st r).completed = 1 := returned_done hO (.inl hpc)
  exact ne_of_eq_of_ne hdone (by decide)

/-- The ranks that have completed the reduction have the same flag. -/
theorem abortFlag_agrees {queue : Rank → List α} {abortFlag : Rank → Bool}
    {input : Rank → ReduceInput} {enqueued : List α} {es : List (Event α)} {y : Rank}
    (hrun : job.once.Run (Sys.start queue abortFlag input enqueued) es s) (hr : r < job.size)
    (hy : y < job.size) (hdone : (s.abortReduce.st r).completed ≠ 0)
    (hdone' : (s.abortReduce.st y).completed ≠ 0) : s.abortFlag r = s.abortFlag y := by
  obtain ⟨fs, x, hx, _, hR⟩ := SweepNet.follows_of_run hrun
  obtain ⟨sent, hinv⟩ := SweepNet.inv_of_run job.size_pos (job.opts 1).treeWidth_pos hx
  have hagree : ∀ a, a < job.size → (s.abortReduce.st a).completed ≠ 0 →
      (s.abortFlag a = true ↔ ∃ b, b < job.size ∧ (x.st b).entry = true) := fun a ha hdone => by
    obtain ⟨hpoint, hflag, _⟩ := (hR.loc a).returned hdone
    rw [← show (x.st a).abortFlag = s.abortFlag a from hflag]
    exact (hinv.agrees ha hpoint).2.2
  exact Bool.eq_iff_iff.mpr ((hagree r hr hdone).trans (hagree y hy hdone').symm)

end Simulation

end Libcircle
