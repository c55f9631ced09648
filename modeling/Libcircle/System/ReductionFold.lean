import Libcircle.System.FinalReduction
import Libcircle.System.ProgressCount

/-!
# The data of background reductions

The callbacks of a background reduction exchange user data.  `reduce_init_cb` provides
the own buffer of a rank, and `reduce_op_cb` combines the buffer with that of a child
each time a valid reply is found.  The children are heard in any order.  So the buffer
a rank holds combines its own with those of the children it has heard, in this order
(`Reductions.Folded`), and what the root delivers is the fold of the buffers of all
ranks (`background_reduction_folds`).
-/

namespace Libcircle

open ParentTree (combine)

variable {α : Type*} {job : Job} {s t : Sys α} {e : Event α} {r a c p : Rank}
  {x x' : Reductions} {f : Reductions.Step} {op : ReduceOp} {own sent : Rank → List UInt8}
  {buf : List UInt8}

/-! ## What the ranks hold -/

/-- A reply that is counted is kept. -/
theorem Record.heard_refuse (P : Record) (r a : Rank) : (P.refuse r a).heard = (P a).heard := by
  by_cases ha : a = r
  · subst ha
    simp [Record.refuse]
  · simp [Record.refuse, Function.update_of_ne ha]

theorem Record.heard_join (P : Record) (r a : Rank) (cs : List Rank) :
    (P.join r cs a).heard = (P a).heard := by
  by_cases ha : a = r
  · subst ha
    simp only [Record.join, if_true]
    split <;> rfl
  · simp only [Record.join, if_neg ha]
    split <;> rfl

namespace Reductions

/-- The children whose replies `r` has counted in the reduction under way, in this order. -/
def heardBy (x : Reductions) (r : Rank) : List Rank := (x.records x.started r).heard.map Prod.fst

/-- The children a rank has heard are its children, and have nothing more to say. -/
theorem Inv.heard_of_mem (h : x.Inv job) (ha : a < job.size) (hc : c ∈ x.heardBy a) :
    c ∈ job.rootedTree.children a ∧ x.reduce.heard a c = true := by
  cases hout : (x.reduce.st a).outstanding with
  | true =>
      obtain ⟨l, hl, _, _, hmem⟩ := h.current.busy a ha hout
      rw [heardBy, hl] at hc
      exact (hmem c).mp hc
  | false =>
      rw [heardBy] at hc
      cases h.current.idle a ha hout with
      | absent h0 => rw [h0] at hc; cases hc
      | told h0 => rw [h0] at hc; cases hc
      | refused h0 => rw [h0] at hc; cases hc
      | gave l y n h0 _ _ hp =>
          rw [h0] at hc
          have hmem := hp.mem_iff.mp hc
          exact ⟨hmem, (h.background.edge a c hmem).heard_of_idle hout⟩

/-- A rank that takes part has not been heard. -/
theorem Inv.not_mem_heardBy (h : x.Inv job) (ha : a < job.size)
    (hout : (x.reduce.st r).outstanding = true) : r ∉ x.heardBy a := fun hr => by
  have hidle := (ReduceNet.heard_iff.mp (h.heard_of_mem ha hr).2).1
  exact absurd (hidle.symm.trans hout) (by decide)

/-- The buffers `own` of the ranks and those they sent in the reduction under way. -/
structure Folded (job : Job) (op : ReduceOp) (own sent : Rank → List UInt8) (x : Reductions) :
    Prop where
  /-- A rank combines its own buffer with those of the children it heard. -/
  busy : ∀ r, r < job.size → (x.reduce.st r).outstanding = true → (x.reduce.st r).valid = true →
    ∃ buf, x.reduce.input r = ⟨some buf, buf.length⟩ ∧ Sized buf ∧
      buf = combine own op.op sent r (x.heardBy r)
  gave : ∀ r, r < job.size → (x.records x.started r).valid = true →
    Sized (sent r) ∧ sent r = combine own op.op sent r (x.heardBy r)
  /-- A valid header in flight announces what its sender passed on. -/
  flight : ∀ p c, c ∈ job.rootedTree.children p → ∀ total bytes ms,
    x.reduce.net c p = .header .check true total bytes :: ms →
      bytes = (sent c).length ∧ ms = [.data .check (sent c)]

/-- Nothing of this changes. -/
theorem Folded.congr (h : x.Folded job op own sent) (hreduce : x'.reduce = x.reduce)
    (hstarted : x'.started = x.started) (hrecords : x'.records = x.records) :
    x'.Folded job op own sent := by
  have hheard : ∀ r, x'.heardBy r = x.heardBy r := fun r => by
    rw [heardBy, hrecords, hstarted, heardBy]
  constructor
  · intro r hr
    rw [hreduce, hheard]
    exact h.busy r hr
  · intro r hr
    rw [hrecords, hstarted, hheard]
    exact h.gave r hr
  · rw [hreduce]
    exact h.flight

/-- When the root starts the next reduction, nothing is held or in flight. -/
theorem Folded.advance (h : x.Inv job)
    (hout : (x.reduce.st job.rootedTree.root).outstanding = false) :
    Folded job op own sent { x with started := x.started + 1 } where
  busy r hr ho := absurd ((h.background.idle_of_root hout r hr).symm.trans ho) (by decide)
  gave r hr hv := by
    rw [show (x.records (x.started + 1)) r = {} by rw [h.fresh _ (Nat.lt_succ_self _)]] at hv
    cases hv
  flight p c _ total bytes ms hm := by
    rw [h.background.net_eq_nil_of_root hout c p] at hm
    cases hm

/-- Everything but what `r` does stays. -/
theorem Folded.step {own' sent' : Rank → List UInt8} {P : Record} (h : x.Folded job op own sent)
    (r : Rank) (hstarted : x'.started = x.started)
    (hrecords : x'.records = Function.update x.records x.started P)
    (hst : ∀ a, a ≠ r → x'.reduce.st a = x.reduce.st a)
    (hinput : ∀ a, a ≠ r → x'.reduce.input a = x.reduce.input a)
    (hP : ∀ a, a ≠ r → (P a).share = (x.records x.started a).share ∧
      (P a).heard = (x.records x.started a).heard)
    (hown : ∀ a, a ≠ r → own' a = own a) (hsent : ∀ a, a ≠ r → sent' a = sent a)
    (hkept : ∀ a, a < job.size → ∀ c ∈ x.heardBy a, sent' c = sent c)
    (hnet : ∀ p c, c ∈ job.rootedTree.children p → c ≠ r →
      x'.reduce.net c p = x.reduce.net c p ∨ x'.reduce.net c p = [])
    (hbusy : r < job.size → (x'.reduce.st r).outstanding = true → (x'.reduce.st r).valid = true →
      ∃ buf, x'.reduce.input r = ⟨some buf, buf.length⟩ ∧ Sized buf ∧
        buf = combine own' op.op sent' r ((P r).heard.map Prod.fst))
    (hgave : r < job.size → (P r).valid = true →
      Sized (sent' r) ∧ sent' r = combine own' op.op sent' r ((P r).heard.map Prod.fst))
    (hflight : ∀ p, r ∈ job.rootedTree.children p → ∀ total bytes ms,
      x'.reduce.net r p = .header .check true total bytes :: ms →
        bytes = (sent' r).length ∧ ms = [.data .check (sent' r)]) :
    x'.Folded job op own' sent' := by
  have hnow : x'.records x'.started = P := by rw [hstarted, hrecords, Function.update_self]
  have hby : ∀ a, x'.heardBy a = (P a).heard.map Prod.fst := fun a => by rw [heardBy, hnow]
  have hcombine : ∀ a, a < job.size → a ≠ r → combine own' op.op sent' a (x'.heardBy a) =
      combine own op.op sent a (x.heardBy a) := fun a hlt ha => by
    rw [hby, (hP a ha).2, ParentTree.combine_own_congr (hown a ha)]
    exact ParentTree.combine_congr (hkept a hlt)
  constructor
  · intro a hlt hout hvalid
    by_cases ha : a = r
    · subst ha
      rw [hby]
      exact hbusy hlt hout hvalid
    · rw [hst a ha] at hout hvalid
      rw [hinput a ha, hcombine a hlt ha]
      exact h.busy a hlt hout hvalid
  · intro a hlt hvalid
    rw [hnow] at hvalid
    by_cases ha : a = r
    · subst ha
      rw [hby]
      exact hgave hlt hvalid
    · rw [Part.valid, (hP a ha).1] at hvalid
      rw [hcombine a hlt ha, hsent a ha]
      exact h.gave a hlt hvalid
  · intro p c hc total bytes ms hm
    by_cases hcr : c = r
    · subst hcr
      exact hflight p hc total bytes ms hm
    · rw [hsent c hcr]
      rcases hnet p c hc hcr with hsame | hnil
      · exact h.flight p c hc total bytes ms (hsame.symm.trans hm)
      · rw [hnil] at hm
        cases hm

/-! ## What the callbacks do -/

/-- `reduce_init_cb` stores a buffer, `reduce_op_cb` stores its result, and no other callback of
the step stores anything before the rank has passed on its buffer. -/
def Step.Combines (op : ReduceOp) (job : Job) (x : Reductions) : Step → Prop
  | .begin r due hit calls =>
      if ReduceNet.Starts (job.tree 1 r) (x.cleanup r) due hit = true ∧ x.cleanup r = false then
        Sized ((storedBuf calls).getD [])
      else calls = []
  | .reply r hit calls =>
      if hit = true ∧ (x.reduce.st r).valid = true ∧
          ReduceNet.CallsOp (x.reduce.net (x.child job r) r) = true then
        storedBuf calls = some (op.op r (x.child job r) (x.reduce.input r).bytes
          (syncData (x.reduce.net (x.child job r) r)))
      else calls = []
  | .done r _ calls => (x.reduce.st r).replies ≠ (job.tree 1 r).children → calls = []
  | _ => True

/-- The own buffers after a step. -/
def Step.provide (own : Rank → List UInt8) : Step → Rank → List UInt8
  | .begin r _ _ calls => Function.update own r ((storedBuf calls).getD (own r))
  | _ => own

/-- A reply goes through unless the sender begins. -/
theorem begin_net_up (y : ReduceNet) (cleanup due hit : Bool) (hr : r < job.size)
    (hc : c ∈ job.rootedTree.children p) (hcr : c ≠ r) :
    (y.begin (job.tree 1 r) r cleanup due hit).net c p = y.net c p := by
  have hpop : ∀ q, (job.tree 1 r).parentRank = some q → ¬(c = q ∧ p = r) := by
    rintro q hq ⟨rfl, rfl⟩
    exact job.rootedTree.not_mem_children_symm (job.mem_children hr hq) hc
  have hpush : ∀ q, ¬(c = r ∧ p = q) := fun q h => hcr h.1
  have hbcast : ¬(c = r ∧ p ∈ (job.tree 1 r).childRanks) := fun h => hcr h.1
  unfold ReduceNet.begin
  split
  · cases hq : (job.tree 1 r).parentRank with
    | none =>
        cases cleanup with
        | true => rfl
        | false => exact Chan.bcast_ne _ _ hbcast
    | some q =>
        cases cleanup with
        | true => exact (Chan.push_ne _ _ (hpush q)).trans (Chan.pop_ne _ (hpop q hq))
        | false => exact (Chan.bcast_ne _ _ hbcast).trans (Chan.pop_ne _ (hpop q hq))
  · rfl

/-- The start message of a rank that begins. -/
theorem Inv.of_starts (h : x.Inv job) (hr : r < job.size) {cleanup due hit : Bool}
    (hstarts : ReduceNet.Starts (job.tree 1 r) cleanup due hit = true)
    (hhit : hit = true → (job.tree 1 r).parentSent x.reduce.net r = true)
    (hp : (job.tree 1 r).parentRank = some p) :
    r ∈ job.rootedTree.children p ∧ x.reduce.net p r ≠ [] ∧ x.reduce.net r p = [] := by
  have hc := job.mem_children hr hp
  simp only [ReduceNet.Starts, hp, Option.isNone_some, Bool.false_or, Bool.and_eq_true] at hstarts
  obtain ⟨q, hq, hm⟩ := TreeState.parentSent_iff.mp (hhit hstarts.2)
  obtain rfl := Option.some.inj (hp.symm.trans hq)
  obtain ⟨_, _, _, hu⟩ := (h.background.edge p r hc).of_start hm
  exact ⟨hc, hm, hu⟩

/-- A rank answers from the cleanup loop. -/
theorem Folded.refuse (h : x.Folded job op own sent) (hI : x.Inv job) (hr : r < job.size)
    (hout : (x.reduce.st r).outstanding = false) {due hit : Bool}
    (hstarts : ReduceNet.Starts (job.tree 1 r) true due hit = true)
    (hhit : hit = true → (job.tree 1 r).parentSent x.reduce.net r = true)
    (hp : (job.tree 1 r).parentRank = some p) :
    (x.log x.started (x.reduce.begin (job.tree 1 r) r true due hit)
      ((x.records x.started).refuse r)).Folded job op own sent := by
  obtain ⟨hc, hm, hu⟩ := hI.of_starts hr hstarts hhit hp
  have hself : ((x.reduce.begin (job.tree 1 r) r true due hit).st r).outstanding = false := by
    simpa [ReduceNet.begin, hstarts, hp] using hout
  refine h.step r rfl rfl (fun a ha => (ReduceNet.begin_ne ha ..).1)
    (fun a ha => (ReduceNet.begin_ne ha ..).2)
    (fun a _ => ⟨Record.share_refuse .., Record.heard_refuse ..⟩)
    (fun _ _ => rfl) (fun _ _ => rfl) (fun _ _ _ _ => rfl)
    (fun q c hcq hcr => .inl (begin_net_up _ _ _ _ hr hcq hcr)) ?_ ?_ ?_
  · intro _ ho
    exact absurd (hself.symm.trans ho) (by decide)
  · intro hlt hv
    rw [Part.valid, Record.share_refuse] at hv
    rw [Record.heard_refuse]
    exact h.gave r hlt hv
  · intro q hq total bytes ms hms
    obtain rfl := job.rootedTree.parent_unique hc hq
    have hpr := job.rootedTree.ne_of_mem hc
    have hnet : (x.reduce.begin (job.tree 1 r) r true due hit).net r p =
        [.header .check false (x.reduce.st r).total (x.reduce.st r).bytes] := by
      simp only [ReduceNet.begin, hstarts, if_true, hp]
      rw [Chan.push_self, Chan.pop_ne _ fun h => hpr h.2, hu, List.nil_append]
    cases hnet.symm.trans hms

/-- A rank takes part, and its callback provides `buf`. -/
theorem Folded.join (h : x.Folded job op own sent) (hr : r < job.size) {due hit : Bool}
    (hstarts : ReduceNet.Starts (job.tree 1 r) false due hit = true)
    (hup : ∀ p, r ∈ job.rootedTree.children p → x.reduce.net r p = [])
    {up : Nat} (hP : x.records x.started r = { starts := up }) {calls : List ReduceCall}
    (hstored : storedBuf calls = some buf) (hbuf : Sized buf) (hstarted : x'.started = x.started)
    (hreduce : x'.reduce = (x.reduce.begin (job.tree 1 r) r false due hit).callback r calls)
    (hrecords : x'.records = Function.update x.records x.started
      ((x.records x.started).join r (job.tree 1 r).childRanks)) :
    x'.Folded job op (Function.update own r buf) sent := by
  have hjoin : ((x.records x.started).join r (job.tree 1 r).childRanks r).heard = [] := by
    rw [Record.heard_join, hP]
  refine h.step r hstarted hrecords (fun a ha => ?_) (fun a ha => ?_)
    (fun a _ => ⟨Record.share_join .., Record.heard_join ..⟩)
    (fun a ha => Function.update_of_ne ha _ _) (fun _ _ => rfl) (fun _ _ _ _ => rfl)
    (fun q c hcq hcr => .inl ?_) ?_ ?_ ?_
  · rw [hreduce]
    exact (ReduceNet.begin_ne ha ..).1
  · rw [hreduce, (ReduceNet.callback_ne ha ..).2]
    exact (ReduceNet.begin_ne ha ..).2
  · rw [hreduce]
    exact begin_net_up _ _ _ _ hr hcq hcr
  · intro _ _ _
    refine ⟨buf, ?_, hbuf, ?_⟩
    · rw [hreduce]
      exact (Function.update_self ..).trans (ReduceInput.run_stored _ hstored hbuf)
    · rw [hjoin, List.map_nil, ParentTree.combine_nil, Function.update_self]
  · intro _ hv
    rw [Part.valid, Record.share_join, hP] at hv
    cases hv
  · intro p hp total bytes ms hms
    have hnil : x'.reduce.net r p = x.reduce.net r p := by
      have hpr := job.rootedTree.ne_of_mem hp
      have hbcast : ¬(r = r ∧ p ∈ (job.tree 1 r).childRanks) := fun h =>
        job.rootedTree.not_mem_children_symm hp h.2
      rw [hreduce]
      simp only [ReduceNet.callback, ReduceNet.begin, hstarts, if_true, Bool.false_eq_true,
        if_false]
      refine (Chan.bcast_ne _ _ hbcast).trans ?_
      cases (job.tree 1 r).parentRank with
      | none => rfl
      | some q => exact Chan.pop_ne _ fun h => hpr h.2
    rw [hnil, hup p hp] at hms
    cases hms

theorem child_mem_of_index {i : Nat} (hindex : x.index r = some i)
    (hi : i < (job.tree 1 r).children) : x.child job r ∈ job.rootedTree.children r := by
  rw [Reductions.child, hindex]
  exact TreeState.child_mem hi

/-- A reply of `c` is counted. -/
theorem Folded.hear (h : x.Folded job op own sent) (hI : x.Inv job) (hr : r < job.size)
    (hout : (x.reduce.st r).outstanding = true) (hc : c ∈ job.rootedTree.children r)
    (hm : x.reduce.net c r ≠ []) {calls : List ReduceCall}
    (hcalls : (x.reduce.st r).valid = true → ReduceNet.CallsOp (x.reduce.net c r) = true →
      storedBuf calls = some (op.op r c (x.reduce.input r).bytes (syncData (x.reduce.net c r))))
    {k : Nat} (hstarted : x'.started = x.started)
    (hreduce : x'.reduce = (x.reduce.recvReply r c).callback r calls)
    (hrecords : x'.records = Function.update x.records x.started
      ((x.records x.started).hear r c k)) :
    x'.Folded job op own sent := by
  have hrc := job.rootedTree.ne_of_mem hc
  obtain ⟨_, _, _, hreply⟩ := (hI.background.edge r c hc).of_reply hm
  obtain ⟨_, hnil, hnet⟩ := x.reduce.recvReply_of_isReply hreply
  obtain ⟨valid, total, bytes, ms, hhead, hvalid, _⟩ := x.reduce.recvReply_sums hreply
  obtain ⟨l, hl, _⟩ := hI.current.busy r hr hout
  have hheard : ((x.records x.started).hear r c k r).heard.map Prod.fst = x.heardBy r ++ [c] := by
    simp [Record.hear, heardBy]
  refine h.step r hstarted hrecords (fun a ha => ?_) (fun a ha => ?_)
    (fun a ha => ⟨Record.share_hear .., ?_⟩) (fun _ _ => rfl) (fun _ _ => rfl)
    (fun _ _ _ _ => rfl) (fun p a _ _ => ?_) ?_ ?_ ?_
  · rw [hreduce]
    exact (ReduceNet.recvReply_ne ha ..).1
  · rw [hreduce, (ReduceNet.callback_ne ha ..).2]
    exact (ReduceNet.recvReply_ne ha ..).2
  · rw [Record.hear, Function.update_of_ne ha]
  · rw [hreduce]
    by_cases hac : a = c ∧ p = r
    · obtain ⟨rfl, rfl⟩ := hac
      exact .inr hnil
    · exact .inl (hnet a p hac)
  · -- both sides are valid, so the callback combines the buffers
    intro _ _ hv
    rw [hreduce] at hv
    obtain ⟨hv, rfl⟩ := Bool.and_eq_true_iff.mp (hvalid.symm.trans hv)
    obtain ⟨buf, hinput, hbuf, hown⟩ := h.busy r hr hout hv
    obtain ⟨-, rfl⟩ := h.flight r c hc total bytes ms hhead
    have hgave := (hI.current.reply r c hc hm).2 true total bytes _ hhead
    obtain ⟨hsized, _⟩ := h.gave c (job.rootedTree.node_of_mem hc) hgave.1
    have hstored := hcalls hv (by rw [hhead]; rfl)
    rw [hhead, hinput] at hstored
    have hbytes : (⟨some buf, buf.length⟩ : ReduceInput).bytes = buf := List.take_length
    rw [hbytes] at hstored
    have hnew := op.sized r c buf (sent c) hbuf hsized
    refine ⟨op.op r c buf (sent c), ?_, hnew, ?_⟩
    · rw [hreduce]
      exact (Function.update_self ..).trans (ReduceInput.run_stored _ hstored hnew)
    · rw [hheard, ParentTree.combine_concat, ← hown]
  · intro _ hv
    rw [Part.valid, Record.share_hear, hl] at hv
    cases hv
  · intro p hp
    rw [hreduce]
    have hpc : ¬(r = c ∧ p = r) := fun h => hrc h.1
    intro total bytes ms hms
    exact h.flight p r hp total bytes ms ((hnet r p hpc).symm.trans hms)

/-- A rank completes its part. -/
theorem Folded.give (h : x.Folded job op own sent) (hI : x.Inv job) (hr : r < job.size)
    (hout : (x.reduce.st r).outstanding = true)
    (hall : (x.reduce.st r).replies = (job.tree 1 r).children) {count up : Nat} {z : Share}
    (hz : z.valid = (x.reduce.st r).valid) {calls : List ReduceCall}
    (hstarted : x'.started = x.started)
    (hreduce : x'.reduce = (x.reduce.finish (job.tree 1 r) r count).callback r calls)
    (hrecords : x'.records = Function.update x.records x.started
      ((x.records x.started).give r up z)) :
    x'.Folded job op own (Function.update sent r (x.reduce.input r).bytes) := by
  have hidle : ((x.reduce.finish (job.tree 1 r) r count).st r).outstanding = false := by
    simp [ReduceNet.finish, hall, ReduceNet.set]
  have hkept : ∀ a, a < job.size → ∀ c ∈ x.heardBy a,
      Function.update sent r (x.reduce.input r).bytes c = sent c := by
    intro a ha c hc
    refine Function.update_of_ne ?_ _ _
    rintro rfl
    exact hI.not_mem_heardBy ha hout hc
  have hbytes : (x.reduce.st r).valid = true → Sized (x.reduce.input r).bytes ∧
      x.reduce.input r = ⟨some (x.reduce.input r).bytes, (x.reduce.input r).bytes.length⟩ ∧
      (x.reduce.input r).bytes = combine own op.op sent r (x.heardBy r) := by
    intro hv
    obtain ⟨buf, hinput, hbuf, hown⟩ := h.busy r hr hout hv
    have hb : (x.reduce.input r).bytes = buf := by
      rw [hinput]
      exact List.take_length
    rw [hb]
    exact ⟨hbuf, hinput, hown⟩
  refine h.step r hstarted hrecords (fun a ha => ?_) (fun a ha => ?_) (fun a ha => ?_)
    (fun _ _ => rfl) (fun a ha => Function.update_of_ne ha _ _) hkept (fun p c hc hcr => .inl ?_)
    ?_ ?_ ?_
  · rw [hreduce]
    exact (ReduceNet.finish_ne ha ..).1
  · rw [hreduce, (ReduceNet.callback_ne ha ..).2]
    exact (ReduceNet.finish_ne ha ..).2
  · rw [Record.give, Function.update_of_ne ha]
    exact ⟨rfl, rfl⟩
  · rw [hreduce]
    simp only [ReduceNet.callback, ReduceNet.finish, hall, if_true]
    cases (job.tree 1 r).parentRank with
    | none => rfl
    | some q => exact ReduceNet.sendResult_net_ne _ fun h => hcr h.1
  · intro _ ho
    rw [hreduce] at ho
    exact absurd (hidle.symm.trans ho) (by decide)
  · intro _ hv
    have hv' : (x.reduce.st r).valid = true := by
      simpa [Record.give, Part.valid, hz] using hv
    obtain ⟨hsized, _, hown⟩ := hbytes hv'
    have hheard : ((x.records x.started).give r up z r).heard.map Prod.fst = x.heardBy r := by
      simp [Record.give, heardBy]
    rw [hheard, ParentTree.combine_congr (hkept r hr), Function.update_self]
    exact ⟨hsized, hown⟩
  · -- the header announces the buffer that follows it
    intro p hp total bytes ms hms
    have hparent : (job.tree 1 r).parentRank = some p := job.rootedTree.parent_of_mem hp
    obtain ⟨_, _, hu⟩ := (hI.background.edge p r hp).of_working hout
    rw [hreduce] at hms
    cases hv : (x.reduce.st r).valid with
    | false =>
        simp [ReduceNet.callback, ReduceNet.finish, hall, hparent, ReduceNet.set,
          ReduceNet.sendResult, hv, hu] at hms
    | true =>
        obtain ⟨hsized, hinput, _⟩ := hbytes hv
        have hpos : 0 < (x.reduce.input r).bytes.length := hsized.1
        rw [Function.update_self]
        generalize (x.reduce.input r).bytes = buf at hinput hpos
        have hsent : (x.reduce.finish (job.tree 1 r) r count).net r p =
            [.header .check true ((x.reduce.st r).total + count) buf.length, .data .check buf] := by
          simp [ReduceNet.finish, hall, hparent, ReduceNet.set, ReduceNet.sendResult, hv, hu,
            hinput, hpos]
        cases hsent.symm.trans hms
        exact ⟨rfl, rfl⟩

/-- The buffer that a rank passes on is the one it holds. -/
theorem Folded.done (h : x.Folded job op own sent) (hI : x.Inv job)
    (hindex : x.index r = some (job.tree 1 r).children)
    (hall : (x.reduce.st r).replies = (job.tree 1 r).children) (count : Nat)
    (calls : List ReduceCall) : (x.next job (.done r count calls)).Folded job op own
      (Function.update sent r (x.reduce.input r).bytes) := by
  obtain ⟨hr, hout, _⟩ := hI.index r _ hindex
  have hnext : x.next job (.done r count calls) =
      { x.log x.started ((x.reduce.finish (job.tree 1 r) r count).callback r calls)
          ((x.records x.started).give r (job.tree 1 r).parentRank.toList.length
            ⟨(x.reduce.st r).valid, ((x.reduce.finish (job.tree 1 r) r count).st r).total,
              count⟩) with
        index := Function.update x.index r none } := by
    simp only [Reductions.next, hall, if_true, hI.number r hr hout]
    rfl
  rw [hnext]
  exact h.give hI hr hout hall rfl rfl rfl rfl

theorem provide_nil (r : Rank) (due hit : Bool) : Step.provide own (.begin r due hit []) = own :=
  Function.update_eq_self r own

/-- No reduction is outstanding on `r`. -/
theorem Folded.begin (h : x.Folded job op own sent) (hI : x.Inv job) {due hit : Bool}
    {calls : List ReduceCall} (he : x.Enabled job (.begin r due hit calls))
    (hf : Step.Combines op job x (.begin r due hit calls)) :
    (x.next job (.begin r due hit calls)).Folded job op (Step.provide own (.begin r due hit calls))
      sent := by
  obtain ⟨hr, hindex, hout, hhit⟩ := he
  have hparent := fun h => (hhit h).2
  by_cases hstarts : ReduceNet.Starts (job.tree 1 r) (x.cleanup r) due hit = true ∧
      x.cleanup r = false
  · have hbuf : Sized ((storedBuf calls).getD []) := by
      simpa only [Step.Combines, if_pos hstarts] using hf
    obtain ⟨hstarts, hcleanup⟩ := hstarts
    obtain ⟨buf, hstored⟩ : ∃ buf, storedBuf calls = some buf := by
      cases hs : storedBuf calls with
      | none =>
          rw [hs] at hbuf
          exact absurd hbuf (by decide)
      | some buf => exact ⟨buf, rfl⟩
    have hprovide : Step.provide own (.begin r due hit calls) = Function.update own r buf := by
      rw [Step.provide, hstored, Option.getD_some]
    rw [hstored, Option.getD_some] at hbuf
    rw [hprovide]
    rw [hcleanup] at hstarts
    cases hp : (job.tree 1 r).parentRank with
    | some p =>
        obtain ⟨hc, hm, hu⟩ := hI.of_starts hr hstarts hparent hp
        have hk := hI.upcoming_of_start hp hm
        refine h.join hr hstarts (fun q hq => ?_) (hI.current.told p r hc hm) hstored hbuf ?_ ?_ ?_
        · obtain rfl := job.rootedTree.parent_unique hc hq
          exact hu
        all_goals simp [Reductions.next, hcleanup, hstarts, hk, log]
    | none =>
        -- the root starts the next reduction
        obtain rfl := job.eq_root hr hp
        have hk : x.upcoming job job.rootedTree.root = x.started + 1 := by
          simp only [upcoming, hp]
        have hP : x.records (x.started + 1) job.rootedTree.root = { starts := 0 } := by
          rw [hI.fresh _ (Nat.lt_succ_self _)]
        refine (Folded.advance hI hout).join hr hstarts (fun q hq => ?_) hP hstored hbuf ?_ ?_ ?_
        · exact absurd rfl (Wave.root_ne_of_mem hq)
        all_goals simp [Reductions.next, hcleanup, hstarts, hk, log]
  · obtain rfl : calls = [] := by simpa only [Step.Combines, if_neg hstarts] using hf
    rw [provide_nil]
    cases hs : ReduceNet.Starts (job.tree 1 r) (x.cleanup r) due hit with
    | false =>
        refine h.congr ?_ ?_ ?_ <;>
          simp [Reductions.next, ReduceNet.begin, hs, ReduceNet.callback_nil]
    | true =>
        have hcleanup : x.cleanup r = true := by
          by_contra hne
          exact hstarts ⟨hs, Bool.eq_false_iff.mpr hne⟩
        rw [hcleanup] at hs
        cases hp : (job.tree 1 r).parentRank with
        | none =>
            refine h.congr ?_ ?_ ?_ <;>
              simp [Reductions.next, ReduceNet.begin, hcleanup, hs, hp, ReduceNet.callback_nil]
        | some p =>
            obtain ⟨_, hm, _⟩ := hI.of_starts hr hs hparent hp
            have hnext : x.next job (.begin r due hit []) =
                x.log x.started (x.reduce.begin (job.tree 1 r) r true due hit)
                  ((x.records x.started).refuse r) := by
              simp only [Reductions.next, hcleanup, hs, if_true, hp, Option.isSome_some,
                hI.upcoming_of_start hp hm, ReduceNet.callback_nil]
            rw [hnext]
            exact h.refuse hI hr hout hs hparent hp

/-- A step of the reductions keeps the buffers. -/
theorem Folded.next (h : x.Folded job op own sent) (hI : x.Inv job) (he : x.Enabled job f)
    (hf : f.Combines op job x) : ∃ sent', (x.next job f).Folded job op (f.provide own) sent' := by
  cases f with
  | cleanup r | resume r => exact ⟨sent, h.congr rfl rfl rfl⟩
  | begin r due hit calls => exact ⟨sent, h.begin hI he hf⟩
  | reply r hit calls =>
      obtain ⟨⟨i, hindex, hi⟩, hready⟩ := he
      obtain ⟨hr, hout, _⟩ := hI.index r i hindex
      cases hit with
      | true =>
          have hm : x.reduce.net (x.child job r) r ≠ [] := by
            intro hnil
            have hready := hready rfl
            rw [hnil] at hready
            cases hready
          have hcalls : (x.reduce.st r).valid = true →
              ReduceNet.CallsOp (x.reduce.net (x.child job r) r) = true → storedBuf calls =
                some (op.op r (x.child job r) (x.reduce.input r).bytes
                  (syncData (x.reduce.net (x.child job r) r))) := by
            intro hv hop
            simpa only [Step.Combines, hv, hop, and_self, if_true] using hf
          refine ⟨sent, h.hear hI hr hout (child_mem_of_index hindex hi) hm hcalls
            (k := (x.stamps (x.child job r) r).headD 0) rfl rfl ?_⟩
          rw [← hI.number r hr hout]
          rfl
      | false =>
          obtain rfl : calls = [] := by
            simpa only [Step.Combines, Bool.false_eq_true, false_and, if_false] using hf
          refine ⟨sent, h.congr ?_ rfl rfl⟩
          exact ReduceNet.callback_nil ..
  | done r count calls =>
      obtain ⟨hr, hout, _⟩ := hI.index r _ he
      by_cases hall : (x.reduce.st r).replies = (job.tree 1 r).children
      · exact ⟨_, h.done hI he hall count calls⟩
      · obtain rfl : calls = [] := hf hall
        refine ⟨sent, h.congr ?_ ?_ ?_⟩ <;>
          simp [Reductions.next, hall, ReduceNet.finish, ReduceNet.callback_nil]

end Reductions

/-! ## The work loop -/

/-- The callbacks of a background reduction store their results. -/
def Event.Combines (op : ReduceOp) (job : Job) (s : Sys α) : Event α → Prop
  | .reduceBegin r due hit calls =>
      ReduceNet.Starts (s.tree job r) (s.stage r = .cleanup) due hit = true ∧ s.stage r ≠ .cleanup →
        Sized ((storedBuf calls).getD [])
  | .reduceReply r hit calls =>
      hit = true ∧ (s.reduce.st r).valid = true ∧
          ReduceNet.CallsOp (s.reduce.net (s.child job r) r) = true →
        storedBuf calls = some (op.op r (s.child job r) (s.reduce.input r).bytes
          (syncData (s.reduce.net (s.child job r) r)))
  | _ => True

instance (s : Sys α) (e : Event α) : Decidable (e.Combines op job s) :=
  match e with
  | .reduceBegin .. => inferInstanceAs (Decidable (_ → _))
  | .reduceReply .. => inferInstanceAs (Decidable (_ → _))
  | .begin .. | .workreq .. | .workreqDone .. | .sendWork .. | .sendNoWork .. | .workreceipt ..
  | .workreceiptDone .. | .worksend .. | .worksendDone .. | .abortStart .. | .abortRequest ..
  | .abortReplies .. | .reduceSkip .. | .reduceResume .. | .reduceDone .. | .requestSkip ..
  | .requestReply .. | .requestSend .. | .requestNone .. | .process .. | .checkForTerm ..
  | .termReply .. | .termRepliesDone .. | .termUp .. | .termDown .. | .token .. | .barrierStart ..
  | .barrierReply .. | .barrierUp .. | .barrierDown .. | .tokenDrain .. | .worksendWait ..
  | .reduceSync .. | .reduceSyncReply .. | .reduceSyncDone .. | .abortReduceReply ..
  | .abortReduceUp .. | .abortReduceDown .. | .finish .. => .isTrue trivial

/-- The buffers of the ranks after an event. -/
def Event.provide (own : Rank → List UInt8) : Event α → Rank → List UInt8
  | .reduceBegin r _ _ calls => Function.update own r ((storedBuf calls).getD (own r))
  | _ => own

end Libcircle
