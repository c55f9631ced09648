import Libcircle.System.Records

/-!
# Background reductions, one after the other

`Job.reductions` is `CIRCLE_reduce_check` on its own: its steps are the parts of
the function, on any ranks in any order, and ranks that enter the cleanup loop at
any time.

The reductions are numbered in the order in which the root starts them.  Every
message in flight is stamped with the reduction its sender was in, and a record
keeps what every rank did in every reduction.  The stamps and the records are
history variables.

`reductions_complete` is about every schedule, and `reductions_of_run` says that
the work loop takes only such steps.
-/

namespace Libcircle

/-! ## The system -/

/-- The background reductions with their history. -/
structure Reductions where
  /-- The state and the messages in flight. -/
  reduce : ReduceNet
  /-- The argument `cleanup`. -/
  cleanup : Rank → Bool
  /-- The index of the loop over the children, in a call that finds a reduction outstanding. -/
  index : Rank → Option Nat
  /-- The number of reductions the root started. -/
  started : Nat
  /-- The reduction a rank last took part in. -/
  number : Rank → Nat
  /-- The stamps of the messages in flight. -/
  stamps : Chan Rank Nat
  /-- What the ranks did, by the number of the reduction. -/
  records : Nat → Record

/-- The stamps after messages are received and sent; those sent get the stamp `k`. -/
def restamp (old new : Chan Rank ReduceMsg) (stamps : Chan Rank Nat) (k : Nat) : Chan Rank Nat :=
  fun a b => (stamps a b).drop ((old a b).length - (new a b).length) ++
    List.replicate ((new a b).length - (old a b).length) k

namespace Reductions

/-- No reduction has been started. -/
def start (input : Rank → ReduceInput) : Reductions where
  reduce := { st := fun _ => {}, input := input, net := .empty }
  cleanup _ := false
  index _ := none
  started := 0
  number _ := 0
  stamps := .empty
  records _ _ := {}

/-- A part of a call of `CIRCLE_reduce_check` on a rank. -/
inductive Step where
  /-- The rank enters the cleanup loop. -/
  | cleanup (r : Rank)
  /-- No reduction is outstanding; `due` is the test of the clock, `hit` the probe. -/
  | begin (r : Rank) (due hit : Bool) (calls : List ReduceCall)
  /-- A reduction is outstanding. -/
  | resume (r : Rank)
  /-- A reply of the next child is found, or not. -/
  | reply (r : Rank) (hit : Bool) (calls : List ReduceCall)
  /-- The rest of the call, with the argument `count`. -/
  | done (r : Rank) (count : Nat) (calls : List ReduceCall)

variable (job : Job) (x : Reductions)

/-- The child the loop of `r` is at. -/
def child (r : Rank) : Rank := (job.tree 1 r).child ((x.index r).getD 0)

/-- The steps a state enables. -/
def Enabled : Step → Prop
  | .cleanup r => r < job.size ∧ x.index r = none
  | .begin r due hit _ =>
      r < job.size ∧ x.index r = none ∧ (x.reduce.st r).outstanding = false ∧
        (hit = true → (due || x.cleanup r) = true ∧
          (job.tree 1 r).parentSent x.reduce.net r = true)
  | .resume r => r < job.size ∧ x.index r = none ∧ (x.reduce.st r).outstanding = true
  | .reply r hit _ =>
      (∃ i, x.index r = some i ∧ i < (job.tree 1 r).children) ∧
        (hit = true → ReduceNet.ReplyReady (x.reduce.net (x.child job r) r) = true)
  | .done r _ _ => x.index r = some (job.tree 1 r).children

/-- The state with the reduction data `y`, when `r` sends in reduction `k`, whose record is now
`P`. -/
def log (k : Nat) (y : ReduceNet) (P : Record) : Reductions :=
  { x with
    reduce := y
    stamps := restamp x.reduce.net y.net x.stamps k
    records := Function.update x.records k P }

/-- The reduction that `r` is to start: the one its start message was sent in, or a new one. -/
def upcoming (r : Rank) : Nat :=
  match (job.tree 1 r).parentRank with
  | some p => (x.stamps p r).headD 0
  | none => x.started + 1

/-- The state after a step. -/
def next : Step → Reductions
  | .cleanup r => { x with cleanup := Function.update x.cleanup r true }
  | .begin r due hit calls =>
      let t := job.tree 1 r
      let y := (x.reduce.begin t r (x.cleanup r) due hit).callback r calls
      let k := x.upcoming job r
      if ReduceNet.Starts t (x.cleanup r) due hit then
        if x.cleanup r then
          if t.parentRank.isSome then x.log k y ((x.records k).refuse r) else { x with reduce := y }
        else
          { x.log k y ((x.records k).join r t.childRanks) with
            started := max x.started k
            number := Function.update x.number r k }
      else { x with reduce := y }
  | .resume r => { x with index := Function.update x.index r (some 0) }
  | .reply r hit calls =>
      let index := Function.update x.index r ((x.index r).map (· + 1))
      let c := x.child job r
      let k := x.number r
      if hit then
        { x.log k ((x.reduce.recvReply r c).callback r calls)
            ((x.records k).hear r c ((x.stamps c r).headD 0)) with index := index }
      else { x with reduce := x.reduce.callback r calls, index := index }
  | .done r count calls =>
      let t := job.tree 1 r
      let y := (x.reduce.finish t r count).callback r calls
      let k := x.number r
      if (x.reduce.st r).replies = t.children then
        { x.log k y ((x.records k).give r t.parentRank.toList.length
            ⟨(x.reduce.st r).valid, (y.st r).total, count⟩) with
          index := Function.update x.index r none }
      else { x with reduce := y, index := Function.update x.index r none }

end Reductions

instance (job : Job) (x : Reductions) (e : Reductions.Step) : Decidable (x.Enabled job e) :=
  match e with
  | .cleanup _ => inferInstanceAs (Decidable (_ ∧ _))
  | .begin .. => inferInstanceAs (Decidable (_ ∧ _ ∧ _ ∧ _))
  | .resume _ => inferInstanceAs (Decidable (_ ∧ _ ∧ _))
  | .reply r _ _ =>
      inferInstanceAs (Decidable ((∃ i ∈ x.index r, i < (job.tree 1 r).children) ∧ _))
  | .done .. => inferInstanceAs (Decidable (_ = _))

/-- The background reductions of a job. -/
def Job.reductions (job : Job) : EventSystem Reductions Reductions.Step where
  Enabled := Reductions.Enabled job
  next := Reductions.next job

instance (job : Job) (x : Reductions) (e : Reductions.Step) :
    Decidable (job.reductions.Enabled x e) :=
  inferInstanceAs (Decidable (x.Enabled job e))

namespace ReduceNet.Background

variable {T : ParentTree Rank} {y : ReduceNet}

/-- While the root takes part in no reduction, no rank does. -/
theorem idle_of_root (h : y.Background T) (hroot : (y.st T.root).outstanding = false) :
    ∀ r, T.IsNode r → (y.st r).outstanding = false :=
  T.induct hroot fun p c _ hc hp => (heard_iff.mp ((h.edge p c hc).heard_of_idle hp)).1

/-- No message is in flight then. -/
theorem net_eq_nil_of_root (h : y.Background T) (hroot : (y.st T.root).outstanding = false)
    (a b : Rank) : y.net a b = [] := by
  have hedge : ∀ p c, c ∈ T.children p → y.net p c = [] ∧ y.net c p = [] := by
    intro p c hc
    have hp := T.node_parent c p (T.node_of_mem hc) (T.parent_of_mem hc)
    exact (heard_iff.mp ((h.edge p c hc).heard_of_idle (h.idle_of_root hroot p hp))).2
  by_cases hab : b ∈ T.children a
  · exact (hedge a b hab).1
  · by_cases hba : a ∈ T.children b
    · exact (hedge b a hba).2
    · exact h.off_tree a b hab hba

end ReduceNet.Background

/-- The header a rank sends at the end of its part. -/
theorem ReduceNet.sendResult_net_self {r p : Rank} (y : ReduceNet) (hnil : y.net r p = []) :
    ∃ bytes ms, (y.sendResult r .check p).net r p =
      .header .check (y.st r).valid (y.st r).total bytes :: ms := by
  simp only [ReduceNet.sendResult]
  split
  · exact ⟨_, _, by rw [Chan.push_self, Chan.push_self, hnil]; rfl⟩
  · exact ⟨_, _, by rw [Chan.push_self, hnil]; rfl⟩

/-- What counting a reply does to the sums. -/
theorem ReduceNet.recvReply_sums {r c : Rank} (y : ReduceNet) (h : IsReply (y.net c r)) :
    ∃ valid total bytes ms, y.net c r = .header .check valid total bytes :: ms ∧
      ((y.recvReply r c).st r).valid = ((y.st r).valid && valid) ∧
      ((y.recvReply r c).st r).total = (y.st r).total + if valid then total else 0 := by
  generalize hms : y.net c r = ms at h
  cases h with
  | header valid count bytes hb =>
      refine ⟨valid, count, bytes, [], rfl, ?_⟩
      cases valid <;> simp [ReduceNet.recvReply, hms]
  | data count bytes buf hb =>
      refine ⟨true, count, bytes, [.data .check buf], rfl, ?_⟩
      simp [ReduceNet.recvReply, hms]

/-! ## The invariant -/

/-- The stamps after a step that sends in reduction `k`. -/
theorem restamp_eq {old new : Chan Rank ReduceMsg} {stamps : Chan Rank Nat} {k : Nat} {a b : Rank}
    (h : stamps a b = List.replicate (old a b).length k) :
    restamp old new stamps k a b = List.replicate (new a b).length k := by
  rw [restamp, h, List.drop_replicate, List.replicate_append_replicate]
  congr 1
  omega

namespace Reductions

variable {job : Job} {x : Reductions} {e : Step} {r : Rank}

/-- The history fits the state. -/
structure Inv (job : Job) (x : Reductions) : Prop where
  background : x.reduce.Background job.rootedTree
  current : (x.records x.started).Current job.rootedTree x.reduce x.started
  recorded : ∀ k, k < x.started → (x.records k).Recorded job.rootedTree k
  fresh : ∀ k, x.started < k → x.records k = fun _ => {}
  number : ∀ r, r < job.size → (x.reduce.st r).outstanding = true → x.number r = x.started
  stamps : ∀ a b, x.stamps a b = List.replicate (x.reduce.net a b).length x.started
  index : ∀ r i, x.index r = some i →
    r < job.size ∧ (x.reduce.st r).outstanding = true ∧ i ≤ (job.tree 1 r).children

theorem inv_start (input : Rank → ReduceInput) : (start input).Inv job where
  background := {
    edge := fun _ _ _ => .quiet rfl rfl rfl
    replies_eq := fun _ h => by cases h
    off_tree := fun _ _ _ _ => rfl }
  current := Record.current_empty (fun _ _ => rfl) fun _ _ _ => ⟨rfl, rfl⟩
  recorded _ h := by cases h
  fresh _ _ := rfl
  number _ _ h := by cases h
  stamps _ _ := rfl
  index _ _ h := by cases h

/-- Only the reduction data and the arguments change. -/
theorem Inv.idle (h : x.Inv job) {x' : Reductions} (hst : x'.reduce.st = x.reduce.st)
    (hnet : x'.reduce.net = x.reduce.net) (hstarted : x'.started = x.started)
    (hrecords : x'.records = x.records)
    (hnumber : x'.number = x.number) (hstamps : x'.stamps = x.stamps)
    (hindex : ∀ r i, x'.index r = some i →
      r < job.size ∧ (x.reduce.st r).outstanding = true ∧ i ≤ (job.tree 1 r).children) :
    x'.Inv job := by
  obtain ⟨⟨st, input, net⟩, cleanup, index, started, number, stamps, records⟩ := x'
  obtain rfl : st = _ := hst
  obtain rfl : net = _ := hnet
  obtain rfl : started = _ := hstarted
  obtain rfl : records = _ := hrecords
  obtain rfl : number = _ := hnumber
  obtain rfl : stamps = _ := hstamps
  exact {
    background := h.background.congr (fun _ => rfl) (fun _ _ => rfl) rfl
    current := { h.current with }
    recorded := h.recorded
    fresh := h.fresh
    number := h.number
    stamps := h.stamps
    index := hindex }

/-- A step of the reduction under way. -/
theorem Inv.move (h : x.Inv job) {x' : Reductions} {P : Record}
    (hstarted : x'.started = x.started)
    (hrecords : x'.records = Function.update x.records x.started P)
    (hstamps : x'.stamps = restamp x.reduce.net x'.reduce.net x.stamps x.started)
    (hB : x'.reduce.Background job.rootedTree)
    (hC : P.Current job.rootedTree x'.reduce x.started)
    (hnumber : ∀ r, r < job.size → (x'.reduce.st r).outstanding = true →
      x'.number r = x.started)
    (hindex : ∀ r i, x'.index r = some i → r < job.size ∧
      (x'.reduce.st r).outstanding = true ∧ i ≤ (job.tree 1 r).children) : x'.Inv job where
  background := hB
  current := by
    rw [hstarted, hrecords, Function.update_self]
    exact hC
  recorded k hk := by
    rw [hstarted] at hk
    rw [hrecords, Function.update_of_ne (Nat.ne_of_lt hk)]
    exact h.recorded k hk
  fresh k hk := by
    rw [hstarted] at hk
    rw [hrecords, Function.update_of_ne (Nat.ne_of_gt hk)]
    exact h.fresh k hk
  number r hr hout := by
    rw [hstarted]
    exact hnumber r hr hout
  stamps a b := by
    rw [hstarted, hstamps]
    exact restamp_eq (h.stamps a b)
  index := hindex

/-- The loop over the children of `r` moves. -/
theorem Inv.index_update (h : x.Inv job) (hr : r < job.size)
    (hout : (x.reduce.st r).outstanding = true) {i : Nat} (hi : i ≤ (job.tree 1 r).children)
    {a : Rank} {j : Nat} (ha : Function.update x.index r (some i) a = some j) :
    a < job.size ∧ (x.reduce.st a).outstanding = true ∧ j ≤ (job.tree 1 a).children := by
  by_cases har : a = r
  · subst har
    rw [Function.update_self] at ha
    cases ha
    exact ⟨hr, hout, hi⟩
  · rw [Function.update_of_ne har] at ha
    exact h.index a j ha

/-- The stamp of the next message. -/
theorem Inv.headD_stamps (h : x.Inv job) {a b : Rank} (hm : x.reduce.net a b ≠ []) :
    (x.stamps a b).headD 0 = x.started := by
  rw [h.stamps a b]
  cases hms : x.reduce.net a b with
  | nil => exact absurd hms hm
  | cons m ms => rfl

/-- A reply is counted. -/
theorem Inv.reply (h : x.Inv job) {i : Nat} (hindex : x.index r = some i)
    (hi : i < (job.tree 1 r).children)
    (hready : ReduceNet.ReplyReady (x.reduce.net (x.child job r) r) = true)
    (calls : List ReduceCall) : (x.next job (.reply r true calls)).Inv job := by
  obtain ⟨hlt, hout, _⟩ := h.index r i hindex
  have hc : x.child job r ∈ job.rootedTree.children r := by
    rw [Reductions.child, hindex]
    exact TreeState.child_mem hi
  generalize hchild : x.child job r = c at hc hready
  have hm : x.reduce.net c r ≠ [] := by
    intro hnil
    rw [hnil] at hready
    cases hready
  obtain ⟨_, hcout, hd, hreply⟩ := (h.background.edge r c hc).of_reply hm
  obtain ⟨⟨_, _, hst⟩, hnil, hnet⟩ := x.reduce.recvReply_of_isReply hreply
  obtain ⟨valid, total, bytes, ms, hhead, hvalid, htotal⟩ := x.reduce.recvReply_sums hreply
  obtain ⟨hval, htot⟩ := (h.current.reply r c hc hm).2 valid total bytes ms hhead
  have hne : ∀ a, a ≠ r → (x.reduce.recvReply r c).st a = x.reduce.st a := by
    intro a ha
    rw [hst, Function.update_of_ne ha]
  have hout' : ∀ a, ((x.reduce.recvReply r c).st a).outstanding =
      (x.reduce.st a).outstanding := by
    intro a
    by_cases ha : a = r
    · rw [ha, hst, Function.update_self]
    · rw [hne a ha]
  have hheard : (x.reduce.recvReply r c).heard r c = true := by
    refine ReduceNet.heard_iff.mpr ⟨(hout' c).trans hcout, ?_, hnil⟩
    rw [hnet r c fun h => job.rootedTree.ne_of_mem hc h.1]
    exact hd
  have htally : ((x.reduce.recvReply r c).st r).valid =
      ((x.reduce.st r).valid && (x.records x.started c).valid) ∧
      ((x.reduce.recvReply r c).st r).total = (x.reduce.st r).total +
        if (x.records x.started c).valid then (x.records x.started c).total else 0 := by
    rw [hval, hvalid, htotal]
    refine ⟨rfl, ?_⟩
    cases valid with
    | false => rfl
    | true => rw [htot rfl]
  have hnext : x.next job (.reply r true calls) =
      { x.log x.started ((x.reduce.recvReply r c).callback r calls)
          ((x.records x.started).hear r c x.started) with
        index := Function.update x.index r ((x.index r).map (· + 1)) } := by
    simp only [Reductions.next, if_true, hchild, h.number r hlt hout, h.headD_stamps hm]
  rw [hnext]
  refine h.move rfl rfl rfl
    ((h.background.recvReply hc hready).congr (fun _ => rfl) (fun _ _ => rfl) rfl)
    { h.current.hear hlt hout hc hm hheard hout' hne htally hnet hnil with } ?_ ?_
  · intro a hlt ha
    exact h.number a hlt ((hout' a).symm.trans ha)
  · intro a j ha
    change Function.update x.index r ((x.index r).map (· + 1)) a = some j at ha
    rw [show (({ x.log x.started ((x.reduce.recvReply r c).callback r calls)
          ((x.records x.started).hear r c x.started) with
        index := Function.update x.index r ((x.index r).map (· + 1)) } : Reductions).reduce.st
          a).outstanding = _ from hout' a]
    by_cases har : a = r
    · subst har
      rw [Function.update_self, hindex] at ha
      cases ha
      exact ⟨hlt, hout, hi⟩
    · rw [Function.update_of_ne har] at ha
      exact h.index a j ha

/-- A rank in the cleanup loop answers its start message. -/
theorem Inv.refuse (h : x.Inv job) (hr : r < job.size) (hout : (x.reduce.st r).outstanding = false)
    (hcleanup : x.cleanup r = true) {due hit : Bool} (hstarts :
      ReduceNet.Starts (job.tree 1 r) (x.cleanup r) due hit = true)
    (hhit : hit = true → (job.tree 1 r).parentSent x.reduce.net r = true) {p : Rank}
    (hp : (job.tree 1 r).parentRank = some p) (calls : List ReduceCall) :
    (x.next job (.begin r due hit calls)).Inv job := by
  have hc := job.mem_children hr hp
  have hpr := job.rootedTree.ne_of_mem hc
  have hm : x.reduce.net p r ≠ [] := by
    simp only [ReduceNet.Starts, hp, Option.isNone_some, Bool.false_or, Bool.and_eq_true] at hstarts
    obtain ⟨q, hq, hm⟩ := TreeState.parentSent_iff.mp (hhit hstarts.2)
    rw [hp] at hq
    exact Option.some.inj hq ▸ hm
  obtain ⟨hpo, _, hd, hu⟩ := (h.background.edge p r hc).of_start hm
  rw [hcleanup] at hstarts
  have htold : x.records x.started r = .told := h.current.told p r hc hm
  have hB := h.background.begin hr hout true due hit hhit
  have hbegin : x.reduce.begin (job.tree 1 r) r true due hit =
      { x.reduce with
        st := Function.update x.reduce.st r { x.reduce.st r with valid := false }
        net := (x.reduce.net.pop p r).push r p
          (.header .check false (x.reduce.st r).total (x.reduce.st r).bytes) } := by
    simp only [ReduceNet.begin, hstarts, if_true, hp]
  have hnext : x.next job (.begin r due hit calls) =
      x.log x.started ((x.reduce.begin (job.tree 1 r) r true due hit).callback r calls)
        ((x.records x.started).refuse r) := by
    have hk : x.upcoming job r = x.started := by
      simp only [upcoming, hp]
      exact h.headD_stamps hm
    simp only [Reductions.next, hcleanup, hstarts, if_true, hp, Option.isSome_some, hk]
  rw [hbegin] at hnext hB
  have hrefuse : (x.records x.started).refuse r =
      Function.update (x.records x.started) r .refused := by
    rw [Record.refuse, htold]
    rfl
  have h₁ : ¬(p = r ∧ r = p) := fun h => hpr h.1
  have h₂ : ¬(r = p ∧ p = r) := fun h => hpr h.2
  have hup : (x.reduce.net.pop p r).push r p
      (.header .check false (x.reduce.st r).total (x.reduce.st r).bytes) r p =
      [.header .check false (x.reduce.st r).total (x.reduce.st r).bytes] := by
    rw [Chan.push_self, Chan.pop_ne _ h₂, hu, List.nil_append]
  have hout' : ∀ a, (Function.update x.reduce.st r { x.reduce.st r with valid := false }
      a).outstanding = (x.reduce.st a).outstanding :=
    congrFun
      (update_proj_same Reduce.outstanding _ r (y := { x.reduce.st r with valid := false }) rfl)
  rw [hnext]
  refine h.move rfl rfl rfl (hB.congr (fun _ => rfl) (fun _ _ => rfl) rfl) ?_
    (fun a hlt ha => h.number a hlt ((hout' a).symm.trans ha)) fun a j ha => ?_
  · rw [hrefuse]
    refine
      h.current.conclude (fun c hc => (h.background.edge r c hc).heard_of_idle hout) ?_ ?_ ?_ ?_
      (.refused (Function.update_self ..)) (by rw [htold]; rfl) (by rw [htold]; rfl)
      (job.rootedTree.parents_of_mem hc).symm ?_
    · exact (hout' r).trans hout
    · intro a ha
      simp [Reductions.log, ReduceNet.callback, Function.update_of_ne ha]
    · intro a b ha hb
      have h₃ : ¬(a = r ∧ b = p) := by
        rintro ⟨rfl, rfl⟩
        exact hb ⟨rfl, hc⟩
      have h₄ : ¬(a = p ∧ b = r) := by
        rintro ⟨rfl, rfl⟩
        exact ha ⟨rfl, hc⟩
      exact (Chan.push_ne _ _ h₃).trans (Chan.pop_ne _ h₄)
    · intro q hq
      obtain rfl := job.rootedTree.parent_unique hc hq
      refine ⟨hpo, ?_, ?_, ?_⟩
      · simp [ReduceNet.heard, hd]
      · exact (Chan.push_ne _ _ h₁).trans (by rw [Chan.pop_self, hd]; rfl)
      · change ReduceNet.IsReply ((x.reduce.net.pop p r).push r p _ r p)
        rw [hup]
        exact .header false _ _ (.inl rfl)
    · intro q hq valid total bytes ms hms
      obtain rfl := job.rootedTree.parent_unique hc hq
      obtain ⟨hhead, _⟩ := List.cons.inj (hup.symm.trans hms)
      cases hhead
      exact ⟨rfl, fun h => by cases h⟩
  · obtain ⟨hlt, ho, hj⟩ := h.index a j ha
    exact ⟨hlt, (hout' a).trans ho, hj⟩

/-- The reduction that a rank is told to start is the one under way. -/
theorem Inv.upcoming_of_start (h : x.Inv job) {p : Rank}
    (hp : (job.tree 1 r).parentRank = some p) (hm : x.reduce.net p r ≠ []) :
    x.upcoming job r = x.started := by
  simp only [upcoming, hp]
  exact h.headD_stamps hm

/-- The root starts a new reduction when the one before is over. -/
theorem Inv.advance (h : x.Inv job)
    (hout : (x.reduce.st job.rootedTree.root).outstanding = false) :
    Inv job { x with started := x.started + 1 } where
  background := h.background
  current := by
    rw [h.fresh (x.started + 1) (Nat.lt_succ_self _)]
    exact Record.current_empty (h.background.idle_of_root hout) fun p c _ =>
      ⟨h.background.net_eq_nil_of_root hout p c, h.background.net_eq_nil_of_root hout c p⟩
  recorded k hk := by
    rcases Nat.lt_succ_iff_lt_or_eq.mp hk with hk | rfl
    · exact h.recorded k hk
    · exact h.current.recorded h.background
  fresh k hk := h.fresh k (Nat.lt_of_succ_lt hk)
  number r hr ho := absurd ((h.background.idle_of_root hout r hr).symm.trans ho) (by decide)
  stamps a b := by
    rw [h.stamps a b, h.background.net_eq_nil_of_root hout a b]
    rfl
  index := h.index

/-- A rank takes part in the reduction that is now under way. -/
theorem Inv.join (h : x.Inv job) (hr : r < job.size) (hindex : x.index r = none)
    (hout : (x.reduce.st r).outstanding = false) {due hit : Bool}
    (hstarts : ReduceNet.Starts (job.tree 1 r) false due hit = true)
    (hhit : hit = true → (job.tree 1 r).parentSent x.reduce.net r = true)
    (hP : x.records x.started r = { starts := job.rootedTree.parents r }) {x' : Reductions}
    (hx' : x' = { x.log x.started (x.reduce.begin (job.tree 1 r) r false due hit)
        ((x.records x.started).join r (job.tree 1 r).childRanks) with
      number := Function.update x.number r x.started }) : x'.Inv job := by
  subst hx'
  have hquiet : ∀ c ∈ job.rootedTree.children r, (x.reduce.st c).outstanding = false ∧
      x.reduce.net r c = [] ∧ x.reduce.net c r = [] := fun c hc =>
    ReduceNet.heard_iff.mp ((h.background.edge r c hc).heard_of_idle hout)
  have hst : ∀ a, a ≠ r → (x.reduce.begin (job.tree 1 r) r false due hit).st a = x.reduce.st a := by
    intro a ha
    simp [ReduceNet.begin, hstarts, Function.update_of_ne ha]
  have hself : (x.reduce.begin (job.tree 1 r) r false due hit).st r =
      { outstanding := true, replies := 0, valid := true, total := 0, bytes := 0 } := by
    simp [ReduceNet.begin, hstarts]
  have hrr : r ∉ job.rootedTree.children r := fun h => job.rootedTree.ne_of_mem h rfl
  -- the channels before the start messages are sent
  obtain ⟨net, hnet, hup, hne⟩ : ∃ net : Chan Rank ReduceMsg,
      (x.reduce.begin (job.tree 1 r) r false due hit).net =
        net.bcast r (job.rootedTree.children r) .start ∧
      (∀ p, r ∈ job.rootedTree.children p → x.reduce.heard p r = false ∧ net p r = [] ∧
        net r p = []) ∧
      ∀ a b, ¬(b = r ∧ r ∈ job.rootedTree.children a) → net a b = x.reduce.net a b := by
    cases hp : (job.tree 1 r).parentRank with
    | none =>
        obtain rfl := job.eq_root hr hp
        refine ⟨x.reduce.net, ?_, fun p hc => absurd rfl (Wave.root_ne_of_mem hc), fun _ _ _ => rfl⟩
        simp [ReduceNet.begin, hstarts, hp]
        rfl
    | some p =>
        have hc := job.mem_children hr hp
        have hm : x.reduce.net p r ≠ [] := by
          simp only [ReduceNet.Starts, hp, Option.isNone_some, Bool.false_or,
            Bool.and_eq_true] at hstarts
          obtain ⟨q, hq, hm⟩ := TreeState.parentSent_iff.mp (hhit hstarts.2)
          rw [hp] at hq
          exact Option.some.inj hq ▸ hm
        obtain ⟨_, _, hd, hu⟩ := (h.background.edge p r hc).of_start hm
        refine ⟨x.reduce.net.pop p r, ?_, ?_, ?_⟩
        · simp [ReduceNet.begin, hstarts, hp]
          rfl
        · intro q hq
          obtain rfl := job.rootedTree.parent_unique hc hq
          refine ⟨?_, by simp [hd], ?_⟩
          · rw [Bool.eq_false_iff]
            exact fun hh => hm (ReduceNet.heard_iff.mp hh).2.1
          · rw [Chan.pop_ne _ fun h => job.rootedTree.ne_of_mem hc h.2]
            exact hu
        · intro a b hab
          refine Chan.pop_ne _ ?_
          rintro ⟨rfl, rfl⟩
          exact hab ⟨rfl, hc⟩
  have hpc : ∀ p, r ∈ job.rootedTree.children p → p ∉ job.rootedTree.children r :=
    fun p hp => job.rootedTree.not_mem_children_symm hp
  refine h.move rfl rfl rfl (h.background.begin hr hout false due hit hhit) ?_ ?_ ?_
  · refine h.current.join hr hP hout h.background ?_ ?_ ?_ ?_ hst ?_ ?_
    · intro p hp
      obtain ⟨hh, h₁, h₂⟩ := hup p hp
      have hpr := job.rootedTree.ne_of_mem hp
      refine ⟨hh, ?_, ?_⟩
      · exact (congrFun (congrFun hnet p) r).trans
          ((Chan.bcast_ne _ _ fun h => hpr h.1).trans h₁)
      · exact (congrFun (congrFun hnet r) p).trans
          ((Chan.bcast_ne _ _ fun h => hpc p hp h.2).trans h₂)
    · exact congrArg Reduce.outstanding hself
    · exact congrArg Reduce.valid hself
    · exact congrArg Reduce.total hself
    · intro c hc
      obtain ⟨_, hd, hu⟩ := hquiet c hc
      have hcr := job.rootedTree.ne_of_mem hc
      have h₁ : net r c = [] := (hne r c fun h => hcr h.1.symm).trans hd
      have h₂ : net c r = [] :=
        (hne c r fun h => job.rootedTree.not_mem_children_symm hc h.2).trans hu
      refine ⟨?_, ?_⟩
      · exact (congrFun (congrFun hnet r) c).trans ((Chan.bcast_mem _ _ hc).trans (by rw [h₁]; rfl))
      · exact (congrFun (congrFun hnet c) r).trans
          ((Chan.bcast_ne _ _ fun h => hcr h.1.symm).trans h₂)
    · intro a b h₁ h₂
      exact (congrFun (congrFun hnet a) b).trans ((Chan.bcast_ne _ _ h₂).trans (hne a b h₁))
  · intro a hlt ha
    change Function.update x.number r x.started a = x.started
    by_cases har : a = r
    · rw [har, Function.update_self]
    · rw [Function.update_of_ne har]
      exact h.number a hlt ((congrArg Reduce.outstanding (hst a har)).symm.trans ha)
  · intro a j ha
    have har : a ≠ r := by
      rintro rfl
      exact absurd (hindex.symm.trans ha) (by simp)
    obtain ⟨hlt, ho, hj⟩ := h.index a j ha
    exact ⟨hlt, (congrArg Reduce.outstanding (hst a har)).trans ho, hj⟩

/-- A rank completes its part. -/
theorem Inv.done (h : x.Inv job) (hindex : x.index r = some (job.tree 1 r).children) {count : Nat}
    (hall : (x.reduce.st r).replies = (job.tree 1 r).children) (calls : List ReduceCall) :
    (x.next job (.done r count calls)).Inv job := by
  obtain ⟨hlt, hout, _⟩ := h.index r _ hindex
  have hB := h.background.finish hlt hout count
  have hheard := h.background.heard_of_replies hout hall
  obtain ⟨l, hl, ht, hnodup, hmem⟩ := h.current.busy r hlt hout
  have hperm : (l.map Prod.fst).Perm (job.rootedTree.children r) := by
    refine (List.perm_ext_iff_of_nodup hnodup (job.rootedTree.children_nodup r)).mpr fun c => ?_
    rw [hmem c]
    exact and_iff_left_of_imp (hheard c)
  have hst : ∀ a, a ≠ r → (x.reduce.finish (job.tree 1 r) r count).st a = x.reduce.st a :=
    fun a ha => (ReduceNet.finish_ne ha x.reduce (job.tree 1 r) count).1
  have hself : ((x.reduce.finish (job.tree 1 r) r count).st r).outstanding = false ∧
      ((x.reduce.finish (job.tree 1 r) r count).st r).total = (x.reduce.st r).total + count := by
    simp only [ReduceNet.finish, hall, if_true]
    cases (job.tree 1 r).parentRank <;> simp [ReduceNet.set, ReduceNet.sendResult]
  have hgive : (x.records x.started).give r (job.tree 1 r).parentRank.toList.length
      ⟨(x.reduce.st r).valid, ((x.reduce.finish (job.tree 1 r) r count).st r).total, count⟩ =
      Function.update (x.records x.started) r (.gave (job.rootedTree.parents r) l
        ⟨(x.reduce.st r).valid, (x.reduce.st r).total + count, count⟩) := by
    rw [Record.give, hl, hself.2]
    simp only [Part.joined, Part.gave, Nat.zero_add]
    rfl
  have hnext : x.next job (.done r count calls) =
      { x.log x.started ((x.reduce.finish (job.tree 1 r) r count).callback r calls)
          ((x.records x.started).give r (job.tree 1 r).parentRank.toList.length
            ⟨(x.reduce.st r).valid, ((x.reduce.finish (job.tree 1 r) r count).st r).total,
              count⟩) with
        index := Function.update x.index r none } := by
    simp only [Reductions.next, hall, if_true, h.number r hlt hout]
    rfl
  -- the header is the only message to the parent, with the data it announces
  have hup : ∀ p, r ∈ job.rootedTree.children p → (x.reduce.st p).outstanding = true ∧
      x.reduce.heard p r = false ∧ (x.reduce.finish (job.tree 1 r) r count).net p r = [] ∧
      ReduceNet.IsReply ((x.reduce.finish (job.tree 1 r) r count).net r p) ∧
      ∃ bytes ms, (x.reduce.finish (job.tree 1 r) r count).net r p =
        .header .check (x.reduce.st r).valid ((x.reduce.st r).total + count) bytes :: ms := by
    intro p hc
    have hp : (job.tree 1 r).parentRank = some p := job.rootedTree.parent_of_mem hc
    have hpr := job.rootedTree.ne_of_mem hc
    obtain ⟨hpo, hd, hu⟩ := (h.background.edge p r hc).of_working hout
    have hfinish : (x.reduce.finish (job.tree 1 r) r count).net =
        ((x.reduce.set r { x.reduce.st r with total := (x.reduce.st r).total + count }).sendResult
          r .check p).net := by
      simp only [ReduceNet.finish, hall, if_true, hp]
      rfl
    refine ⟨hpo, ?_, ?_, ?_, ?_⟩
    · simp [ReduceNet.heard, hout]
    · rw [hfinish]
      exact (ReduceNet.sendResult_net_ne _ fun h => hpr h.1).trans hd
    · rw [hfinish]
      exact ReduceNet.isReply_sendResult _ hu
    · obtain ⟨bytes, ms, hms⟩ := (x.reduce.set r
        { x.reduce.st r with total := (x.reduce.st r).total + count }).sendResult_net_self hu
      have hz : (x.reduce.set r { x.reduce.st r with
          total := (x.reduce.st r).total + count }).st r =
          { x.reduce.st r with total := (x.reduce.st r).total + count } := Function.update_self ..
      rw [hz] at hms
      exact ⟨bytes, ms, (congrFun (congrFun hfinish r) p).trans hms⟩
  have hnet : ∀ a b, ¬(b = r ∧ r ∈ job.rootedTree.children a) →
      ¬(a = r ∧ r ∈ job.rootedTree.children b) →
      (x.reduce.finish (job.tree 1 r) r count).net a b = x.reduce.net a b := by
    intro a b _ hb
    simp only [ReduceNet.finish, hall, if_true]
    cases hp : (job.tree 1 r).parentRank with
    | none => rfl
    | some p =>
        refine ReduceNet.sendResult_net_ne _ ?_
        rintro ⟨rfl, rfl⟩
        exact hb ⟨rfl, job.mem_children hlt hp⟩
  have hout' : ∀ a, a < job.size → ((x.reduce.finish (job.tree 1 r) r count).st a).outstanding =
      true → a ≠ r ∧ (x.reduce.st a).outstanding = true := by
    intro a _ ha
    have har : a ≠ r := by
      rintro rfl
      exact absurd (hself.1.symm.trans ha) (by decide)
    exact ⟨har, (congrArg Reduce.outstanding (hst a har)).symm.trans ha⟩
  rw [hnext]
  refine h.move rfl rfl rfl (hB.congr (fun _ => rfl) (fun _ _ => rfl) rfl) ?_ ?_ ?_
  · rw [hgive]
    have hidle : Record.Idle job.rootedTree (Function.update (x.records x.started) r
        (.gave (job.rootedTree.parents r) l
          ⟨(x.reduce.st r).valid, (x.reduce.st r).total + count, count⟩)) x.started r := by
      refine .gave l _ (x.reduce.st r).total (Function.update_self ..) (ht.congr fun c hc => ?_) rfl
        hperm
      have hcr : c ≠ r := (job.rootedTree.ne_of_mem (hperm.mem_iff.mp hc)).symm
      rw [Function.update_of_ne hcr]
    have hC := h.current.conclude hheard hself.1 hst hnet
      (fun p hc => ⟨(hup p hc).1, (hup p hc).2.1, (hup p hc).2.2.1, (hup p hc).2.2.2.1⟩) hidle
      (by rw [hl]; rfl) (by rw [hl]; rfl) rfl fun p hc valid total bytes ms hms => by
        obtain ⟨_, _, hms'⟩ := (hup p hc).2.2.2.2
        obtain ⟨hhead, _⟩ := List.cons.inj (hms'.symm.trans hms)
        cases hhead
        exact ⟨rfl, fun _ => rfl⟩
    exact { hC with }
  · intro a hlt' ha
    exact h.number a hlt' (hout' a hlt' ha).2
  · intro a j ha
    change Function.update x.index r none a = some j at ha
    have har : a ≠ r := by
      rintro rfl
      rw [Function.update_self] at ha
      cases ha
    rw [Function.update_of_ne har] at ha
    obtain ⟨hlt', ho, hj⟩ := h.index a j ha
    exact ⟨hlt', (congrArg Reduce.outstanding (hst a har)).trans ho, hj⟩

/-- No reduction is outstanding on `r`. -/
theorem Inv.begin (h : x.Inv job) (hr : r < job.size) (hindex : x.index r = none)
    (hout : (x.reduce.st r).outstanding = false) {due hit : Bool}
    (hhit : hit = true → (due || x.cleanup r) = true ∧
      (job.tree 1 r).parentSent x.reduce.net r = true) (calls : List ReduceCall) :
    (x.next job (.begin r due hit calls)).Inv job := by
  have hsent := fun h => (hhit h).2
  cases hstarts : ReduceNet.Starts (job.tree 1 r) (x.cleanup r) due hit with
  | false =>
      have hbegin : x.reduce.begin (job.tree 1 r) r (x.cleanup r) due hit = x.reduce := by
        simp only [ReduceNet.begin, hstarts, Bool.false_eq_true, if_false]
      have hnext : x.next job (.begin r due hit calls) =
          { x with reduce := x.reduce.callback r calls } := by
        simp only [Reductions.next, hstarts, Bool.false_eq_true, if_false, hbegin]
      rw [hnext]
      exact h.idle rfl rfl rfl rfl rfl rfl h.index
  | true =>
      cases hcleanup : x.cleanup r with
      | true =>
          cases hp : (job.tree 1 r).parentRank with
          | some p => exact h.refuse hr hout hcleanup hstarts hsent hp calls
          | none =>
              -- the root in the cleanup loop starts nothing
              have hnext : x.next job (.begin r due hit calls) =
                  { x with reduce := x.reduce.callback r calls } := by
                rw [hcleanup] at hstarts
                simp only [Reductions.next, ReduceNet.begin, hcleanup, hstarts, hp, if_true,
                  Option.isSome_none, Bool.false_eq_true, if_false]
              rw [hnext]
              exact h.idle rfl rfl rfl rfl rfl rfl h.index
      | false =>
          have hnext : x.next job (.begin r due hit calls) =
              { x.log (x.upcoming job r)
                  ((x.reduce.begin (job.tree 1 r) r false due hit).callback r calls)
                  ((x.records (x.upcoming job r)).join r (job.tree 1 r).childRanks) with
                started := max x.started (x.upcoming job r)
                number := Function.update x.number r (x.upcoming job r) } := by
            rw [hcleanup] at hstarts
            simp only [Reductions.next, hcleanup, hstarts, if_true, Bool.false_eq_true, if_false]
          rw [hcleanup] at hstarts
          rw [hnext]
          cases hp : (job.tree 1 r).parentRank with
          | some p =>
              have hc := job.mem_children hr hp
              have hm : x.reduce.net p r ≠ [] := by
                simp only [ReduceNet.Starts, hp, Option.isNone_some, Bool.false_or,
                  Bool.and_eq_true] at hstarts
                obtain ⟨q, hq, hm⟩ := TreeState.parentSent_iff.mp (hsent hstarts.2)
                rw [hp] at hq
                exact Option.some.inj hq ▸ hm
              have hP : x.records x.started r = { starts := job.rootedTree.parents r } := by
                rw [h.current.told p r hc hm, job.rootedTree.parents_of_mem hc]
                rfl
              rw [h.upcoming_of_start hp hm, Nat.max_self]
              exact (h.join hr hindex hout hstarts hsent hP rfl).idle rfl rfl rfl rfl rfl rfl
                (h.join hr hindex hout hstarts hsent hP rfl).index
          | none =>
              -- the root starts the next reduction
              obtain rfl := job.eq_root hr hp
              have hk : x.upcoming job job.rootedTree.root = x.started + 1 := by
                simp only [upcoming, hp]
              have hP : x.records (x.started + 1) job.rootedTree.root =
                  { starts := job.rootedTree.parents job.rootedTree.root } := by
                rw [h.fresh _ (Nat.lt_succ_self _)]
                rfl
              have hjoin := (h.advance hout).join hr hindex hout hstarts hsent hP rfl
              rw [hk, Nat.max_eq_right (Nat.le_succ _)]
              exact hjoin.idle rfl rfl rfl rfl rfl rfl hjoin.index

theorem inv_next (h : x.Inv job) (he : x.Enabled job e) : (x.next job e).Inv job := by
  cases e with
  | cleanup r => exact h.idle rfl rfl rfl rfl rfl rfl h.index
  | begin r due hit calls => exact h.begin he.1 he.2.1 he.2.2.1 he.2.2.2 calls
  | resume r =>
      obtain ⟨hr, _, hout⟩ := he
      refine h.idle rfl rfl rfl rfl rfl rfl fun a j ha => ?_
      exact h.index_update hr hout (Nat.zero_le _) ha
  | reply r hit calls =>
      obtain ⟨⟨i, hindex, hi⟩, hready⟩ := he
      cases hit with
      | true => exact h.reply hindex hi (hready rfl) calls
      | false =>
          obtain ⟨hr, hout, _⟩ := h.index r i hindex
          have hnext : x.next job (.reply r false calls) =
              { x with
                reduce := x.reduce.callback r calls
                index := Function.update x.index r (some (i + 1)) } := by
            simp only [Reductions.next, hindex, Bool.false_eq_true, if_false, Option.map_some]
          rw [hnext]
          exact h.idle rfl rfl rfl rfl rfl rfl fun a j ha => h.index_update hr hout hi ha
  | done r count calls =>
      by_cases hall : (x.reduce.st r).replies = (job.tree 1 r).children
      · exact h.done he hall calls
      · have hfinish : x.reduce.finish (job.tree 1 r) r count = x.reduce := by
          simp only [ReduceNet.finish, hall, if_false]
        have hnext : x.next job (.done r count calls) =
            { x with
              reduce := x.reduce.callback r calls
              index := Function.update x.index r none } := by
          simp only [Reductions.next, hall, if_false, hfinish]
        rw [hnext]
        refine h.idle rfl rfl rfl rfl rfl rfl fun a j ha => ?_
        have har : a ≠ r := by
          rintro rfl
          exact absurd ((Function.update_self ..).symm.trans ha) (by simp)
        exact h.index a j ((Function.update_of_ne har ..).symm.trans ha)

/-- The invariant holds in every state of a run. -/
theorem inv_of_run {input : Rank → ReduceInput} {s : List Step} {x : Reductions}
    (h : job.reductions.Run (start input) s x) : x.Inv job :=
  h.invariant (fun _ _ h he => inv_next h he) (inv_start input)

/-- What is recorded of the reduction number `k`. -/
theorem Inv.recorded_all (h : x.Inv job) (k : Nat) :
    (x.records k).Recorded job.rootedTree k := by
  rcases Nat.lt_trichotomy k x.started with hk | rfl | hk
  · exact h.recorded k hk
  · exact h.current.recorded h.background
  · rw [h.fresh k hk]
    exact Record.recorded_empty

/-! ## Completeness -/

/-- In every reduction, a rank that is sent a start message sends at most one header up, after
it took part or at once from the cleanup loop, and its parent does not complete without it.  The
replies a rank counts were sent in the same reduction, and a reply leaves the channel with the
data it announces and no other.  When the root completes its part, it calls `reduce_fini_cb` iff
no rank answered from the cleanup loop; then all ranks took part, and the result is the sum of
their counts. -/
theorem reductions_complete {input : Rank → ReduceInput} {es : List Step}
    (hrun : job.reductions.Run (start input) es x) :
    (∀ k r, r < job.size →
      (x.records k r).headers ≤ (x.records k r).starts ∧ (x.records k r).starts ≤ 1 ∧
      ((x.records k r).headers = 1 →
        (x.records k r).TookPart (job.tree 1 r).childRanks ∨ (x.records k r).Refused)) ∧
    (∀ k p c, p < job.size → c ∈ (job.tree 1 p).childRanks → (x.records k p).share ≠ none →
      (x.records k c).starts = 1 ∧ (x.records k c).headers = 1) ∧
    (∀ k r c k', r < job.size → (c, k') ∈ (x.records k r).heard → k' = k) ∧
    (∀ p c, p < job.size → c ∈ (job.tree 1 p).childRanks → x.reduce.net c p ≠ [] →
      ReduceNet.IsReply (x.reduce.net c p) ∧ (x.reduce.recvReply p c).net c p = []) ∧
    ∀ k, (x.records k 0).share ≠ none →
      ((x.records k 0).finis = 1 ↔ ∀ r, r < job.size → (x.records k r).refusals = 0) ∧
      ((x.records k 0).finis = 1 →
        (∀ r, r < job.size → (x.records k r).TookPart (job.tree 1 r).childRanks) ∧
        (x.records k 0).total = ∑ r ∈ Finset.range job.size, (x.records k r).count) := by
  have h := inv_of_run hrun
  refine ⟨fun k r hr => ?_, fun k p c _ hc hs => ?_, fun k r c k' hr hc => ?_,
    fun p c _ hc hm => ?_, fun k hs => ?_⟩
  · obtain ⟨h₁, h₂⟩ := (h.recorded_all k).headers_le hr
    exact ⟨h₁, h₂, (h.recorded_all k).answered hr⟩
  · exact (h.recorded_all k).done p c hc hs
  · exact (h.recorded_all k).stamped hr hc
  · obtain ⟨_, _, _, hreply⟩ := (h.background.edge p c hc).of_reply hm
    exact ⟨hreply, (x.reduce.recvReply_of_isReply hreply).2.1⟩
  · have hR := h.recorded_all k
    have hfinis := hR.finis_iff hs
    have hvalid := hR.valid_of_root
    refine ⟨hfinis.trans ⟨fun hv r hr => ?_, fun hall => ?_⟩, fun hf => ⟨fun r hr => ?_, ?_⟩⟩
    · exact (hR.took_part (hvalid hv r hr) hr).refusals
    · exact hR.valid_of_no_refusal (rankTree_wf ..) hs hall _ job.rootedTree.root_node
    · exact hR.took_part (hvalid (hfinis.mp hf) r hr) hr
    · exact hR.total_root (hfinis.mp hf) fun r => Finset.mem_range

/-- Two ranks complete a reduction; then rank `1` enters the cleanup loop and refuses the next. -/
def twoReductions : List Step :=
  [.begin 0 true false [.reduce [1]], .begin 1 true true [], .resume 1, .done 1 3 [], .resume 0,
    .reply 0 true [.reduce [5]], .done 0 4 [], .begin 0 true false [], .cleanup 1,
    .begin 1 false true [], .resume 0, .reply 0 true [], .done 0 6 []]

theorem reductions_complete_twoReductions :
    let x := treePair.reductions.follow (start fun _ => {}) twoReductions
    (x.records 1 0).finis = 1 ∧
      (x.records 1 0).total = ∑ r ∈ Finset.range 2, (x.records 1 r).count ∧
      (x.records 1 0).total = 7 ∧ (x.records 2 0).finis = 0 :=
  have hrun : treePair.reductions.Run (start fun _ => {}) twoReductions
      (treePair.reductions.follow (start fun _ => {}) twoReductions) :=
    .of_admits (by decide +kernel)
  have hfinis : ((treePair.reductions.follow (start fun _ => {}) twoReductions).records 1 0).finis
      = 1 := by decide +kernel
  ⟨hfinis, (((reductions_complete hrun).2.2.2.2 1 (by decide +kernel)).2 hfinis).2,
    by decide +kernel, by decide +kernel⟩

end Reductions

/-! ## The work loop -/

section WorkLoop

variable {α : Type*} {job : Job} {s s' : Sys α} {x : Reductions} {e : Event α} {r : Rank}

/-- The index of the loop of `CIRCLE_reduce_check`. -/
def Pc.reduceIndex : Pc → Option Nat
  | .reduceReplies i => some i
  | _ => none

theorem reduceIndex_afterWorkreq (st : Stage) : (afterWorkreq st).reduceIndex = none := by
  cases st <;> rfl

theorem reduceIndex_afterAbort (b : Bool) (st : Stage) : (afterAbort b st).reduceIndex = none := by
  cases st <;> cases b <;> rfl

theorem reduceIndex_afterWorksend (st : Stage) : (afterWorksend st).reduceIndex = none := by
  cases st <;> rfl

theorem reduceIndex_afterRequest (st : Stage) : (afterRequest st).reduceIndex = none := by
  cases st <;> rfl

theorem reduceIndex_afterTerm {wait : Pc} (h : wait.reduceIndex = none) (b : Option Bool) :
    (afterTerm wait b).reduceIndex = none := by
  cases b with
  | none => exact h
  | some b => cases b <;> rfl

theorem reduceIndex_ite {c : Prop} [Decidable c] {a b : Pc} (ha : a.reduceIndex = none)
    (hb : b.reduceIndex = none) : (if c then a else b).reduceIndex = none := by
  split
  · exact ha
  · exact hb

/-- The event is a part of `CIRCLE_reduce_check`, or enters the loop. -/
def Event.Reduces : Event α → Prop
  | .begin .. | .reduceResume .. | .reduceBegin .. | .reduceReply .. | .reduceDone .. => True
  | _ => False

/-- No other event enters or leaves the loop over the children. -/
theorem reduceIndex_next (he : s.Enabled job e) (hr : ¬e.Reduces) :
    (s.pc e.rank).reduceIndex = none ∧ ((s.next job e).pc e.rank).reduceIndex = none := by
  have hself : ∀ r y, y.reduceIndex = none → (Function.update s.pc r y r).reduceIndex = none := by
    intro r y hy
    rwa [Function.update_self]
  cases e with
  | begin | reduceResume | reduceBegin | reduceReply | reduceDone => exact absurd trivial hr
  | workreq r src | workreceipt r src | worksend r i | termReply r src | abortReduceReply r =>
      have hpc : (s.pc r).reduceIndex = none := congrArg Pc.reduceIndex he.1
      exact ⟨hpc, hpc⟩
  | reduceSyncReply r calls | reduceSyncDone r calls | abortRequest r src | reduceSkip r
  | requestSkip r | process r ops | barrierReply r src | tokenDrain r hit done
  | abortReduceDown r =>
      exact ⟨congrArg Pc.reduceIndex he.1, hself r _ rfl⟩
  | abortStart r | workreceiptDone r | reduceSync r calls | finish r =>
      exact ⟨congrArg Pc.reduceIndex he, hself r _ rfl⟩
  | workreqDone r rand =>
      exact ⟨congrArg Pc.reduceIndex he, hself r _ (reduceIndex_ite (reduceIndex_afterWorkreq _)
        (reduceIndex_ite rfl rfl))⟩
  | sendWork r count =>
      exact ⟨congrArg Pc.reduceIndex he.1, hself r _ (reduceIndex_ite (reduceIndex_afterWorkreq _)
        rfl)⟩
  | sendNoWork r =>
      exact ⟨congrArg Pc.reduceIndex he, hself r _ (reduceIndex_ite (reduceIndex_afterWorkreq _)
        rfl)⟩
  | worksendDone r => exact ⟨congrArg Pc.reduceIndex he, hself r _ (reduceIndex_afterWorksend _)⟩
  | abortReplies r done =>
      exact ⟨congrArg Pc.reduceIndex he.1, hself r _ (reduceIndex_afterAbort _ _)⟩
  | requestReply r sent | requestSend r sent next | requestNone r sent =>
      exact ⟨congrArg Pc.reduceIndex he.1, hself r _ (reduceIndex_afterRequest _)⟩
  | checkForTerm r | barrierDown r hit | token r hit | abortReduceUp r =>
      exact ⟨congrArg Pc.reduceIndex he.1, hself r _ (reduceIndex_ite rfl rfl)⟩
  | termRepliesDone r | barrierStart r | barrierUp r | worksendWait r =>
      exact ⟨congrArg Pc.reduceIndex he, hself r _ (reduceIndex_ite rfl rfl)⟩
  | termUp r => exact ⟨congrArg Pc.reduceIndex he, hself r _ (reduceIndex_afterTerm rfl _)⟩
  | termDown r hit => exact ⟨congrArg Pc.reduceIndex he.1, hself r _ (reduceIndex_afterTerm rfl _)⟩

/-- A rank stays in the cleanup loop until it completes the barrier. -/
theorem stage_cleanup_next (he : s.Enabled job e) (hat : (s.loc e.rank).At job e.rank (s.pc e.rank))
    (hst : s.stage e.rank = .cleanup) (hafter : (s.next job e).stage e.rank ≠ .after) :
    (s.next job e).stage e.rank = .cleanup := by
  cases e with
  | begin r next ops =>
      rw [show s.pc (Event.begin r next ops).rank = _ from he.1] at hat
      exact absurd (hst.symm.trans hat.1) (by decide)
  | termUp r =>
      rw [show s.pc (Event.termUp (α := α) r).rank = _ from he] at hat
      exact absurd (hst.symm.trans hat.1) (by decide)
  | termDown r hit =>
      rw [show s.pc (Event.termDown (α := α) r hit).rank = _ from he.1] at hat
      exact absurd (hst.symm.trans hat.1) (by decide)
  | token r hit =>
      rw [show s.pc (Event.token (α := α) r hit).rank = _ from he.1] at hat
      exact absurd (hst.symm.trans hat.1) (by decide)
  | barrierUp r | barrierDown r hit =>
      change Function.update s.stage r _ r ≠ _ at hafter
      change Function.update s.stage r _ r = _
      rw [Function.update_self] at hafter ⊢
      split at hafter
      · exact absurd rfl hafter
      · rename_i hy
        rw [if_neg hy]
        exact hst
  | finish r =>
      rw [show s.pc (Event.finish (α := α) r).rank = _ from he] at hat
      exact absurd (hst.symm.trans hat.1) (by decide)
  | _ => exact hst

/-- Before the barrier, nothing else touches the reduction. -/
theorem reduce_next (he : s.Enabled job e) (hat : (s.loc e.rank).At job e.rank (s.pc e.rank))
    (hr : ¬e.Reduces) (hnot : s.stage e.rank ≠ .after) : (s.next job e).reduce = s.reduce := by
  cases e with
  | begin | reduceResume | reduceBegin | reduceReply | reduceDone => exact absurd trivial hr
  | reduceSync r calls =>
      rw [show s.pc (Event.reduceSync (α := α) r calls).rank = _ from he] at hat
      exact absurd hat.1 hnot
  | reduceSyncReply r calls =>
      rw [show s.pc (Event.reduceSyncReply (α := α) r calls).rank = _ from he.1] at hat
      exact absurd hat.1 hnot
  | reduceSyncDone r calls =>
      rw [show s.pc (Event.reduceSyncDone (α := α) r calls).rank = _ from he.1] at hat
      exact absurd hat.1 hnot
  | _ => rfl

/-- The reductions that `x` has done are those of `s`. -/
structure Reductions.Follows (s : Sys α) (x : Reductions) : Prop where
  reduce : x.reduce = s.reduce
  cleanup : ∀ r, x.cleanup r = decide (s.stage r = .cleanup)
  index : ∀ r, x.index r = (s.pc r).reduceIndex

/-- The part of `CIRCLE_reduce_check` in an event, or the entry into the cleanup loop. -/
def Event.reduction (job : Job) (s : Sys α) : Event α → Option Reductions.Step
  | .reduceResume r => some (.resume r)
  | .reduceBegin r due hit calls => some (.begin r due hit calls)
  | .reduceReply r hit calls => some (.reply r hit calls)
  | .reduceDone r calls => some (.done r (s.objects r) calls)
  | e => if (s.next job e).stage e.rank = .cleanup then some (.cleanup e.rank) else none

theorem reduction_of_not_reduces (hr : ¬e.Reduces) : e.reduction job s =
    if (s.next job e).stage e.rank = .cleanup then some (.cleanup e.rank) else none := by
  cases e with
  | begin | reduceResume | reduceBegin | reduceReply | reduceDone => exact absurd trivial hr
  | _ => rfl

namespace Reductions.Follows

/-- A step outside `CIRCLE_reduce_check`, which may enter the cleanup loop. -/
theorem other (h : x.Follows s) (hr : r < job.size) (hreduce : s'.reduce = s.reduce)
    (hst : ∀ y, y ≠ r → s'.stage y = s.stage y) (hpc : ∀ y, y ≠ r → s'.pc y = s.pc y)
    (h₀ : (s.pc r).reduceIndex = none) (h₁ : (s'.pc r).reduceIndex = none)
    (hcleanup : s.stage r = .cleanup → s'.stage r = .cleanup) :
    ∃ y, job.reductions.Run x
        (if s'.stage r = .cleanup then some (.cleanup r) else none : Option Step).toList y ∧
      y.Follows s' := by
  have hindex : ∀ y, x.index y = (s'.pc y).reduceIndex := by
    intro y
    by_cases hy : y = r
    · rw [hy, h.index r, h₀, h₁]
    · rw [hpc y hy, h.index y]
  by_cases hc : s'.stage r = .cleanup
  · have hnone : x.index r = none := (h.index r).trans h₀
    rw [if_pos hc]
    refine ⟨_, .single ⟨hr, hnone⟩, h.reduce.trans hreduce.symm, fun y => ?_, hindex⟩
    change Function.update x.cleanup r true y = _
    by_cases hy : y = r
    · rw [hy, Function.update_self, hc]
      rfl
    · rw [Function.update_of_ne hy, hst y hy, h.cleanup y]
  · rw [if_neg hc]
    refine ⟨x, .nil _, h.reduce.trans hreduce.symm, fun y => ?_, hindex⟩
    by_cases hy : y = r
    · rw [hy, h.cleanup r, decide_eq_decide]
      exact iff_of_false (fun h => hc (hcleanup h)) hc
    · rw [hst y hy, h.cleanup y]

end Reductions.Follows

/-- What a step of a reduction does to its state. -/
theorem Reductions.next_begin_reduce (job : Job) (x : Reductions) (r : Rank) (due hit : Bool)
    (calls : List ReduceCall) : (x.next job (.begin r due hit calls)).reduce =
      (x.reduce.begin (job.tree 1 r) r (x.cleanup r) due hit).callback r calls ∧
    (x.next job (.begin r due hit calls)).cleanup = x.cleanup ∧
    (x.next job (.begin r due hit calls)).index = x.index := by
  simp only [Reductions.next]
  split
  · split
    · split <;> exact ⟨rfl, rfl, rfl⟩
    · exact ⟨rfl, rfl, rfl⟩
  · exact ⟨rfl, rfl, rfl⟩

theorem Reductions.next_reply_reduce (job : Job) (x : Reductions) (r : Rank) (hit : Bool)
    (calls : List ReduceCall) : (x.next job (.reply r hit calls)).reduce =
      (if hit then x.reduce.recvReply r (x.child job r) else x.reduce).callback r calls ∧
    (x.next job (.reply r hit calls)).cleanup = x.cleanup ∧
    (x.next job (.reply r hit calls)).index =
      Function.update x.index r ((x.index r).map (· + 1)) := by
  cases hit <;> exact ⟨rfl, rfl, rfl⟩

theorem Reductions.next_done_reduce (job : Job) (x : Reductions) (r : Rank) (count : Nat)
    (calls : List ReduceCall) : (x.next job (.done r count calls)).reduce =
      (x.reduce.finish (job.tree 1 r) r count).callback r calls ∧
    (x.next job (.done r count calls)).cleanup = x.cleanup ∧
    (x.next job (.done r count calls)).index = Function.update x.index r none := by
  simp only [Reductions.next]
  split
  · exact ⟨rfl, rfl, rfl⟩
  · rename_i hne
    simp only [ReduceNet.finish, if_neg hne]
    exact ⟨trivial, trivial, trivial⟩

/-- One step before the first rank completes the barrier. -/
theorem follows_next (he : s.Enabled job e) (hO : s.Once job) (hnot : s.stage e.rank ≠ .after)
    (hafter : (s.next job e).stage e.rank ≠ .after) (h : x.Follows s) :
    ∃ y, job.reductions.Run x (e.reduction job s).toList y ∧ y.Follows (s.next job e) := by
  have hlt := (hO.coherent.ok _).rank_lt he
  have hat := (hO.coherent.ok e.rank).position
  have hstage : ∀ y, y ≠ e.rank → (s.next job e).stage y = s.stage y := fun y hy =>
    congrArg Loc.stage (loc_next_of_ne hy)
  have hpc : ∀ y, y ≠ e.rank → (s.next job e).pc y = s.pc y := fun y hy =>
    congrArg Loc.pc (loc_next_of_ne hy)
  have hindex : ∀ r k p, p.reduceIndex = k → ∀ y,
      Function.update x.index r k y = (Function.update s.pc r p y).reduceIndex := by
    rintro r _ p rfl y
    by_cases hy : y = r
    · rw [hy, Function.update_self, Function.update_self]
    · rw [Function.update_of_ne hy, Function.update_of_ne hy, h.index y]
  by_cases hr : e.Reduces
  · cases e with
    | begin r next ops =>
        obtain ⟨hst, _⟩ := (hO.coherent.ok r).requested_of_idle he.1
        have hout : (s.reduce.st r).outstanding = false :=
          ((hO.coherent.ok r).tidy.settled (.inr (.inr hst))).2.1
        have hreduce : s.reduce.init r = s.reduce := by
          have hself : ({ s.reduce.st r with outstanding := false } : Reduce) = s.reduce.st r := by
            rw [← hout]
          simp only [ReduceNet.init, ReduceNet.set, hself, Function.update_eq_self]
        refine h.other hlt hreduce hstage hpc (congrArg Pc.reduceIndex he.1) ?_ fun hc => ?_
        · change (Function.update s.pc r .workreq r).reduceIndex = none
          rw [Function.update_self]
          rfl
        · exact absurd (hst.symm.trans hc) (by decide)
    | reduceResume r =>
        obtain ⟨hpc', _, hout⟩ := he
        refine ⟨_, .single ⟨hlt, (h.index r).trans (congrArg Pc.reduceIndex hpc'), ?_⟩,
          h.reduce, h.cleanup, hindex r _ _ rfl⟩
        rw [h.reduce]
        exact hout
    | reduceBegin r due hit calls =>
        obtain ⟨hpc', _, hout, hhit, _⟩ := he
        have htree := hO.tree_eq ((hO.coherent.ok r).stage_ne (by simp [hpc']))
        have hnone : x.index r = none := (h.index r).trans (congrArg Pc.reduceIndex hpc')
        obtain ⟨h₁, h₂, h₃⟩ := Reductions.next_begin_reduce job x r due hit calls
        refine ⟨_, .single ⟨hlt, hnone, ?_, ?_⟩, h₁.trans ?_, fun y => ?_, fun y => ?_⟩
        · rw [h.reduce]
          exact hout
        · rw [h.cleanup r, h.reduce, ← htree]
          exact hhit
        · rw [h.reduce, h.cleanup r, ← htree]
          rfl
        · exact (congrFun h₂ y).trans (h.cleanup y)
        · refine (congrFun h₃ y).trans (Eq.trans ?_ (hindex r none .request rfl y))
          by_cases hy : y = r
          · rw [hy, Function.update_self, hnone]
          · rw [Function.update_of_ne hy]
    | reduceReply r hit calls =>
        obtain ⟨hpc', hi, hhit, _⟩ := he
        have htree := hO.tree_eq ((hO.coherent.ok r).stage_ne (by rw [hpc']; simp))
        have hsome : x.index r = some (s.pc r).index :=
          (h.index r).trans (congrArg Pc.reduceIndex hpc')
        have hchild : x.child job r = s.child job r := by
          simp only [Reductions.child, Sys.child, hsome, htree, Option.getD_some]
        rw [htree] at hi
        obtain ⟨h₁, h₂, h₃⟩ := Reductions.next_reply_reduce job x r hit calls
        refine ⟨_, .single ⟨⟨_, hsome, hi⟩, ?_⟩, h₁.trans ?_, fun y => ?_, fun y => ?_⟩
        · rw [hchild, h.reduce]
          exact hhit
        · rw [hchild, h.reduce]
          rfl
        · exact (congrFun h₂ y).trans (h.cleanup y)
        · refine (congrFun h₃ y).trans (hindex r _ _ ?_ y)
          rw [hsome]
          rfl
    | reduceDone r calls =>
        obtain ⟨hpc', _⟩ := he
        have htree := hO.tree_eq ((hO.coherent.ok r).stage_ne (by simp [hpc']))
        have hsome : x.index r = some (job.tree 1 r).children := by
          rw [h.index r, hpc', htree]
          rfl
        obtain ⟨h₁, h₂, h₃⟩ := Reductions.next_done_reduce job x r (s.objects r) calls
        refine ⟨_, .single hsome, h₁.trans ?_, fun y => ?_, fun y => ?_⟩
        · rw [h.reduce, ← htree]
          rfl
        · exact (congrFun h₂ y).trans (h.cleanup y)
        · exact (congrFun h₃ y).trans (hindex r none .request rfl y)
    | _ => exact absurd hr id
  · obtain ⟨h₀, h₁⟩ := reduceIndex_next he hr
    rw [reduction_of_not_reduces hr]
    exact h.other hlt (reduce_next he hat hr hnot) hstage hpc h₀ h₁ fun hc =>
      stage_cleanup_next he hat hc hafter

/-- Until the first rank completes the barrier, the work loop takes only steps of the
reductions; a rank passes on the number of its processed items. -/
theorem reductions_of_run {queue : Rank → List α} {abortFlag : Rank → Bool}
    {input : Rank → ReduceInput} {enqueued : List α} {es : List (Event α)}
    (hrun : job.once.Run (Sys.start queue abortFlag input enqueued) es s)
    (hpast : ∀ r, ¬s.Past r) :
    ∃ fs x, job.reductions.Run (Reductions.start input) fs x ∧ x.Follows s := by
  suffices hsim : ∃ fs x, job.reductions.Run (Reductions.start input) fs x ∧
      s.Once job ∧ ((∀ r, ¬s.Past r) → x.Follows s) by
    obtain ⟨fs, x, hx, _, hR⟩ := hsim
    exact ⟨fs, x, hx, hR hpast⟩
  refine hrun.simulate (R := fun s x => s.Once job ∧ ((∀ r, ¬s.Past r) → x.Follows s))
    (x := Reductions.start input) ?_ ⟨once_start .., fun _ => ⟨rfl, fun _ => rfl, fun _ => rfl⟩⟩
  rintro s x e ⟨hO, hR⟩ ⟨he, hf⟩
  have hO' := once_next he hf hO
  by_cases hp : ∀ r, ¬(s.next job e).Past r
  · have hs : ∀ r, ¬s.Past r := fun r hr => hp r (past_next he hf hO hr)
    obtain ⟨y, hrun, hF⟩ := follows_next he hO (fun h => hs _ (.inl h))
      (fun h => hp _ (.inl h)) (hR hs)
    exact ⟨_, y, hrun, hO', fun _ => hF⟩
  · exact ⟨[], x, .nil x, hO', fun h => absurd h hp⟩

end WorkLoop

end Libcircle
