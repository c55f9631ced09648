import Libcircle.System.Waves

/-!
# Background reductions

A background reduction goes down the tree as start messages and up again as
replies.  An edge of the tree is in one of four phases (`ReduceNet.Phase`), and a
rank with a reduction outstanding has counted the replies of exactly the children
whose edge is quiet again.  A rank without a reduction outstanding has no message
of one on the edges to its children.
-/

namespace Libcircle

namespace ReduceNet

variable {T : ParentTree Rank} {y y' : ReduceNet} {r p c a b : Rank}

/-! ## Edges -/

/-- One reply of a child: a header, and the data it announces. -/
inductive IsReply : List ReduceMsg → Prop
  | header (valid : Bool) (count bytes : Nat) (h : valid = false ∨ bytes = 0) :
      IsReply [.header .check valid count bytes]
  | data (count bytes : Nat) (buf : List UInt8) (h : bytes ≠ 0) :
      IsReply [.header .check true count bytes, .data .check buf]

theorem IsReply.ne_nil {ms : List ReduceMsg} (h : IsReply ms) : ms ≠ [] := by
  cases h <;> simp

/-- The phases of the edge from `p` down to `c`. -/
inductive Phase (y : ReduceNet) (p c : Rank) : Prop where
  /-- `c` takes part in no reduction, or its reply has been counted. -/
  | quiet (hc : (y.st c).outstanding = false) (hd : y.net p c = []) (hu : y.net c p = [])
  /-- The start message is in flight. -/
  | started (hp : (y.st p).outstanding = true) (hc : (y.st c).outstanding = false)
      (hd : y.net p c = [.start]) (hu : y.net c p = [])
  /-- `c` takes part. -/
  | working (hp : (y.st p).outstanding = true) (hc : (y.st c).outstanding = true)
      (hd : y.net p c = []) (hu : y.net c p = [])
  /-- The reply is in flight. -/
  | answered (hp : (y.st p).outstanding = true) (hc : (y.st c).outstanding = false)
      (hd : y.net p c = []) (hu : IsReply (y.net c p))

/-- The edge from `p` down to `c` is quiet. -/
def heard (y : ReduceNet) (p c : Rank) : Bool :=
  !(y.st c).outstanding && (y.net p c).isEmpty && (y.net c p).isEmpty

theorem heard_iff :
    y.heard p c = true ↔ (y.st c).outstanding = false ∧ y.net p c = [] ∧ y.net c p = [] := by
  simp [heard, and_assoc]

theorem heard_congr (hc : (y'.st c).outstanding = (y.st c).outstanding)
    (hd : y'.net p c = y.net p c) (hu : y'.net c p = y.net c p) : y'.heard p c = y.heard p c := by
  simp only [heard, hc, hd, hu]

theorem Phase.congr (h : y.Phase p c) (hp : (y'.st p).outstanding = (y.st p).outstanding)
    (hc : (y'.st c).outstanding = (y.st c).outstanding) (hd : y'.net p c = y.net p c)
    (hu : y'.net c p = y.net c p) : y'.Phase p c := by
  cases h with
  | quiet h₁ h₂ h₃ => exact .quiet (by rw [hc, h₁]) (by rw [hd, h₂]) (by rw [hu, h₃])
  | started h₁ h₂ h₃ h₄ =>
      exact .started (by rw [hp, h₁]) (by rw [hc, h₂]) (by rw [hd, h₃]) (by rw [hu, h₄])
  | working h₁ h₂ h₃ h₄ =>
      exact .working (by rw [hp, h₁]) (by rw [hc, h₂]) (by rw [hd, h₃]) (by rw [hu, h₄])
  | answered h₁ h₂ h₃ h₄ =>
      exact .answered (by rw [hp, h₁]) (by rw [hc, h₂]) (by rw [hd, h₃]) (by rwa [hu])

/-- The edges to the children of a rank without a reduction are quiet. -/
theorem Phase.heard_of_idle (h : y.Phase p c) (hp : (y.st p).outstanding = false) :
    y.heard p c = true := by
  cases h with
  | quiet h₁ h₂ h₃ => exact heard_iff.mpr ⟨h₁, h₂, h₃⟩
  | started h₁ => exact absurd (hp.symm.trans h₁) (by decide)
  | working h₁ => exact absurd (hp.symm.trans h₁) (by decide)
  | answered h₁ => exact absurd (hp.symm.trans h₁) (by decide)

/-- The parent of a rank that takes part waits for its reply. -/
theorem Phase.of_working (h : y.Phase p c) (hc : (y.st c).outstanding = true) :
    (y.st p).outstanding = true ∧ y.net p c = [] ∧ y.net c p = [] := by
  cases h with
  | quiet h₁ => exact absurd (hc.symm.trans h₁) (by decide)
  | started _ h₁ => exact absurd (hc.symm.trans h₁) (by decide)
  | working h₁ _ h₃ h₄ => exact ⟨h₁, h₃, h₄⟩
  | answered _ h₁ => exact absurd (hc.symm.trans h₁) (by decide)

/-- A message to a child is the start message of a reduction of its parent. -/
theorem Phase.of_start (h : y.Phase p c) (hd : y.net p c ≠ []) :
    (y.st p).outstanding = true ∧ (y.st c).outstanding = false ∧ y.net p c = [.start] ∧
      y.net c p = [] := by
  cases h with
  | quiet _ h₂ => exact absurd h₂ hd
  | started h₁ h₂ h₃ h₄ => exact ⟨h₁, h₂, h₃, h₄⟩
  | working _ _ h₃ => exact absurd h₃ hd
  | answered _ _ h₃ => exact absurd h₃ hd

/-- A message to the parent is part of a reply. -/
theorem Phase.of_reply (h : y.Phase p c) (hu : y.net c p ≠ []) :
    (y.st p).outstanding = true ∧ (y.st c).outstanding = false ∧ y.net p c = [] ∧
      IsReply (y.net c p) := by
  cases h with
  | quiet _ _ h₃ => exact absurd h₃ hu
  | started _ _ _ h₄ => exact absurd h₄ hu
  | working _ _ _ h₄ => exact absurd h₄ hu
  | answered h₁ h₂ h₃ h₄ => exact ⟨h₁, h₂, h₃, h₄⟩

/-- The state of all background reductions. -/
structure Background (T : ParentTree Rank) (y : ReduceNet) : Prop where
  edge : ∀ p c, c ∈ T.children p → y.Phase p c
  replies_eq : ∀ p, (y.st p).outstanding = true →
    (y.st p).replies = (T.children p).countP (y.heard p)
  off_tree : ∀ a b, b ∉ T.children a → a ∉ T.children b → y.net a b = []

namespace Background

/-! ## The operations -/

/-- Only the other fields change. -/
theorem congr (h : y.Background T) (hout : ∀ x, (y'.st x).outstanding = (y.st x).outstanding)
    (hreplies : ∀ x, (y.st x).outstanding = true → (y'.st x).replies = (y.st x).replies)
    (hnet : y'.net = y.net) : y'.Background T where
  edge p c hc := (h.edge p c hc).congr (hout p) (hout c) (by rw [hnet]) (by rw [hnet])
  replies_eq p hp := by
    rw [hout p] at hp
    rw [hreplies p hp, h.replies_eq p hp]
    exact List.countP_congr fun c _ => by
      rw [heard_congr (hout c) (by rw [hnet]) (by rw [hnet])]
  off_tree a b := by
    rw [hnet]
    exact h.off_tree a b

/-- All messages are background messages. -/
theorem isBackground (h : y.Background T) {m : ReduceMsg} (hm : m ∈ y.net a b) :
    m.isBackground = true := by
  by_cases hb : b ∈ T.children a
  · have hne : y.net a b ≠ [] := List.ne_nil_of_mem hm
    rw [((h.edge a b hb).of_start hne).2.2.1, List.mem_singleton] at hm
    rw [hm]
    rfl
  · by_cases ha : a ∈ T.children b
    · have hreply := ((h.edge b a ha).of_reply (List.ne_nil_of_mem hm)).2.2.2
      revert hm
      generalize y.net a b = ms at hreply
      intro hm
      cases hreply with
      | header =>
        rw [List.mem_singleton] at hm
        rw [hm]
        rfl
      | data =>
        rcases List.mem_cons.mp hm with hm | hm
        · rw [hm]
          rfl
        · rw [List.mem_singleton.mp hm]
          rfl
    · rw [h.off_tree a b hb ha] at hm
      cases hm

/-- When all replies are counted, all edges to children are quiet. -/
theorem heard_of_replies (h : y.Background T) (hr : (y.st r).outstanding = true)
    (hall : (y.st r).replies = (T.children r).length) :
    ∀ c ∈ T.children r, y.heard r c = true := by
  rw [h.replies_eq r hr, List.countP_eq_length] at hall
  exact hall

/-- The reply of `c` is counted by `r`. -/
theorem count (h : y.Background T) (hc : c ∈ T.children r) (hm : y.net c r ≠ [])
    (hout : ∀ x, (y'.st x).outstanding = (y.st x).outstanding)
    (hreplies : (y'.st r).replies = (y.st r).replies + 1)
    (hst : ∀ x, x ≠ r → (y'.st x).replies = (y.st x).replies) (hnil : y'.net c r = [])
    (hnet : ∀ a b, ¬(a = c ∧ b = r) → y'.net a b = y.net a b) : y'.Background T := by
  obtain ⟨hr, hcout, hd, _⟩ := (h.edge r c hc).of_reply hm
  have hrc := T.ne_of_mem hc
  -- the other edges do not see the channel from `c` to `r`
  have hother : ∀ p x, x ∈ T.children p → ¬(x = c ∧ p = r) →
      y'.net p x = y.net p x ∧ y'.net x p = y.net x p := by
    intro p x hx hne
    refine ⟨hnet p x ?_, hnet x p hne⟩
    rintro ⟨rfl, rfl⟩
    exact T.not_mem_children_symm hc hx
  have hd' : y'.net r c = [] := (hnet r c fun h => hrc h.1).trans hd
  constructor
  · intro p x hx
    by_cases hxc : x = c ∧ p = r
    · obtain ⟨rfl, rfl⟩ := hxc
      exact .quiet ((hout x).trans hcout) hd' hnil
    · obtain ⟨h₁, h₂⟩ := hother p x hx hxc
      exact (h.edge p x hx).congr (hout p) (hout x) h₁ h₂
  · intro p hp
    rw [hout p] at hp
    by_cases hpr : p = r
    · subst hpr
      rw [hreplies, h.replies_eq p hp]
      refine (Wave.countP_eq_add_one (T.children_nodup p) hc ?_ ?_ ?_).symm
      · rw [Bool.eq_false_iff]
        exact fun hh => hm (heard_iff.mp hh).2.2
      · exact heard_iff.mpr ⟨(hout c).trans hcout, hd', hnil⟩
      · intro x hx hxc
        obtain ⟨h₁, h₂⟩ := hother p x hx fun h => hxc h.1
        exact heard_congr (hout x) h₁ h₂
    · rw [hst p hpr, h.replies_eq p hp]
      refine List.countP_congr fun x hx => ?_
      obtain ⟨h₁, h₂⟩ := hother p x hx fun h => hpr h.2
      rw [heard_congr (hout x) h₁ h₂]
  · intro a b ha hb
    rw [hnet a b ?_]
    · exact h.off_tree a b ha hb
    · rintro ⟨rfl, rfl⟩
      exact hb hc

/-- `r` gives its part: the channel to its parent gets a reply, and no reduction is
outstanding on `r`.  On the root nothing is sent. -/
theorem conclude (h : y.Background T) (hheard : ∀ c ∈ T.children r, y.heard r c = true)
    (hr : (y'.st r).outstanding = false) (hst : ∀ x, x ≠ r → y'.st x = y.st x)
    (hnet : ∀ a b, ¬(b = r ∧ r ∈ T.children a) → ¬(a = r ∧ r ∈ T.children b) →
      y'.net a b = y.net a b)
    (hup : ∀ p, r ∈ T.children p → (y.st p).outstanding = true ∧ y.heard p r = false ∧
      y'.net p r = [] ∧ IsReply (y'.net r p)) : y'.Background T := by
  -- an edge that `r` is not the lower end of
  have hother : ∀ p x, x ∈ T.children p → x ≠ r →
      y'.net p x = y.net p x ∧ y'.net x p = y.net x p := by
    intro p x hx hne
    refine ⟨hnet p x (fun h => hne h.1) ?_, hnet x p ?_ fun h => hne h.1⟩
    · rintro ⟨rfl, hpx⟩
      exact T.not_mem_children_symm hx hpx
    · rintro ⟨rfl, hpx⟩
      exact T.not_mem_children_symm hx hpx
  constructor
  · intro p x hx
    by_cases hxr : x = r
    · subst hxr
      obtain ⟨hp, _, hd, hu⟩ := hup p hx
      have hpx := T.ne_of_mem hx
      exact .answered (by rwa [hst p hpx]) hr hd hu
    · obtain ⟨h₁, h₂⟩ := hother p x hx hxr
      by_cases hpr : p = r
      · subst hpr
        obtain ⟨hc, hd, hu⟩ := heard_iff.mp (hheard x hx)
        exact .quiet (by rwa [hst x hxr]) (h₁.trans hd) (h₂.trans hu)
      · exact (h.edge p x hx).congr (by rw [hst p hpr]) (by rw [hst x hxr]) h₁ h₂
  · intro p hp
    have hpr : p ≠ r := by
      rintro rfl
      exact absurd (hr.symm.trans hp) (by decide)
    rw [hst p hpr] at hp ⊢
    rw [h.replies_eq p hp]
    refine List.countP_congr fun x hx => ?_
    by_cases hxr : x = r
    · subst hxr
      obtain ⟨_, hf, _, hu⟩ := hup p hx
      have hf' : y'.heard p x = false := by
        rw [Bool.eq_false_iff]
        exact fun hh => hu.ne_nil (heard_iff.mp hh).2.2
      rw [hf, hf']
    · obtain ⟨h₁, h₂⟩ := hother p x hx hxr
      rw [heard_congr (by rw [hst x hxr]) h₁ h₂]
  · intro a b ha hb
    rw [hnet a b (fun h => ha (h.1 ▸ h.2)) fun h => hb (h.1 ▸ h.2)]
    exact h.off_tree a b ha hb

/-- `r` starts a reduction, on the start message of its parent or as the root. -/
theorem launch (h : y.Background T) (hidle : (y.st r).outstanding = false)
    (net : Chan Rank ReduceMsg)
    (hnet : ∀ a b, ¬(b = r ∧ r ∈ T.children a) → net a b = y.net a b)
    (hup : ∀ p, r ∈ T.children p → y.net p r ≠ [] ∧ net p r = [])
    (hout : (y'.st r).outstanding = true) (hreplies : (y'.st r).replies = 0)
    (hst : ∀ x, x ≠ r → y'.st x = y.st x)
    (hnet' : y'.net = net.bcast r (T.children r) .start) : y'.Background T := by
  have hedge : ∀ a b, ¬(a = r ∧ b ∈ T.children r) → ¬(b = r ∧ r ∈ T.children a) →
      y'.net a b = y.net a b := by
    intro a b h₁ h₂
    rw [hnet', Chan.bcast_ne _ _ h₁, hnet a b h₂]
  -- an edge that does not end in `r`
  have hother : ∀ p x, x ∈ T.children p → x ≠ r → p ≠ r →
      y'.net p x = y.net p x ∧ y'.net x p = y.net x p := by
    intro p x _ hxr hpr
    exact ⟨hedge p x (fun h => hpr h.1) fun h => hxr h.1,
      hedge x p (fun h => hxr h.1) fun h => hpr h.1⟩
  have hchild : ∀ x, x ∈ T.children r → y'.net r x = [.start] ∧ y'.net x r = [] ∧
      (y'.st x).outstanding = false := by
    intro x hx
    obtain ⟨hc, hd, hu⟩ := heard_iff.mp ((h.edge r x hx).heard_of_idle hidle)
    have hxr := T.ne_of_mem hx
    have hd' : net r x = [] := by
      rw [hnet r x fun h => hxr h.1.symm, hd]
    refine ⟨?_, ?_, ?_⟩
    · rw [hnet', Chan.bcast_mem _ _ hx, hd']
      rfl
    · rw [hedge x r (fun h => hxr h.1.symm) fun h => T.not_mem_children_symm hx h.2, hu]
    · rwa [hst x hxr.symm]
  have hparent : ∀ p, r ∈ T.children p → y'.net p r = [] ∧ y'.net r p = [] ∧
      (y'.st p).outstanding = true := by
    intro p hp
    obtain ⟨hne, hnil⟩ := hup p hp
    obtain ⟨hpo, _, _, hu⟩ := (h.edge p r hp).of_start hne
    have hpr := T.ne_of_mem hp
    refine ⟨?_, ?_, ?_⟩
    · rw [hnet', Chan.bcast_ne _ _ fun h => hpr h.1, hnil]
    · rw [hedge r p (fun h => T.not_mem_children_symm hp h.2) fun h => hpr h.1, hu]
    · rwa [hst p hpr]
  constructor
  · intro p x hx
    by_cases hxr : x = r
    · subst hxr
      obtain ⟨hd, hu, hpo⟩ := hparent p hx
      exact .working hpo hout hd hu
    · by_cases hpr : p = r
      · subst hpr
        obtain ⟨hd, hu, hc⟩ := hchild x hx
        exact .started hout hc hd hu
      · obtain ⟨h₁, h₂⟩ := hother p x hx hxr hpr
        exact (h.edge p x hx).congr (by rw [hst p hpr]) (by rw [hst x hxr]) h₁ h₂
  · intro p hp
    by_cases hpr : p = r
    · subst hpr
      rw [hreplies, eq_comm, List.countP_eq_zero]
      intro x hx hh
      have hd := (heard_iff.mp hh).2.1
      rw [(hchild x hx).1] at hd
      cases hd
    · rw [hst p hpr] at hp ⊢
      rw [h.replies_eq p hp]
      refine List.countP_congr fun x hx => ?_
      by_cases hxr : x = r
      · subst hxr
        have hf : y.heard p x = false := by
          rw [Bool.eq_false_iff]
          exact fun hh => (hup p hx).1 (heard_iff.mp hh).2.1
        have hf' : y'.heard p x = false := by
          rw [Bool.eq_false_iff]
          exact fun hh => absurd (hout.symm.trans (heard_iff.mp hh).1) (by decide)
        rw [hf, hf']
      · obtain ⟨h₁, h₂⟩ := hother p x hx hxr hpr
        rw [heard_congr (by rw [hst x hxr]) h₁ h₂]
  · intro a b ha hb
    rw [hedge a b (fun h => ha (h.1 ▸ h.2)) fun h => ha (h.1 ▸ h.2)]
    exact h.off_tree a b ha hb

end Background

/-! ## The functions -/

section Functions

variable {job : Job}

/-- The reply a rank sends at the end of its part. -/
theorem isReply_sendResult (y : ReduceNet) (hnil : y.net r p = []) :
    IsReply ((y.sendResult r .check p).net r p) := by
  cases hv : (y.st r).valid with
  | false => simpa [sendResult, hv, hnil] using .header false _ _ (.inl rfl)
  | true =>
      by_cases hb : 0 < (y.input r).size
      · simpa [sendResult, hv, hb, hnil] using .data _ _ _ (Nat.ne_of_gt hb)
      · simpa [sendResult, hv, hb, hnil] using .header true _ _ (.inr (by omega))

theorem sendResult_net_ne (y : ReduceNet) (h : ¬(a = r ∧ b = p)) :
    (y.sendResult r .check p).net a b = y.net a b := by
  simp only [sendResult]
  split <;> simp [Chan.push_ne _ _ h]

theorem sendResult_st_ne (y : ReduceNet) {x : Rank} (h : x ≠ r) :
    (y.sendResult r .check p).st x = y.st x := by
  simp [sendResult, Function.update_of_ne h]

/-- `r` receives a reply: it counts it, and the channel is empty again. -/
theorem recvReply_of_isReply (y : ReduceNet) (h : IsReply (y.net c r)) :
    (∃ total valid, (y.recvReply r c).st = Function.update y.st r
        { y.st r with replies := (y.st r).replies + 1, total := total, valid := valid }) ∧
      (y.recvReply r c).net c r = [] ∧
      ∀ a b, ¬(a = c ∧ b = r) → (y.recvReply r c).net a b = y.net a b := by
  generalize hms : y.net c r = ms at h
  cases h with
  | header valid count bytes hb =>
      cases valid with
      | false =>
          simp only [recvReply, hms]
          exact ⟨⟨_, _, rfl⟩, by simp [hms], fun a b hne => Chan.pop_ne _ hne⟩
      | true =>
          obtain rfl : bytes = 0 := hb.resolve_left (by decide)
          simp only [recvReply, hms, if_true]
          exact ⟨⟨_, _, rfl⟩, by simp [hms], fun a b hne => Chan.pop_ne _ hne⟩
  | data count bytes buf hb =>
      simp only [recvReply, hms, if_neg hb]
      refine ⟨⟨_, _, rfl⟩, by simp [hms], fun a b hne => ?_⟩
      rw [Chan.pop_ne _ hne, Chan.pop_ne _ hne]

namespace Background

variable (h : y.Background job.rootedTree)
include h

theorem recvReply (hc : c ∈ job.rootedTree.children r) (hready : ReplyReady (y.net c r) = true) :
    (y.recvReply r c).Background job.rootedTree := by
  have hm : y.net c r ≠ [] := by
    intro hnil
    rw [hnil] at hready
    cases hready
  obtain ⟨_, _, _, hreply⟩ := (h.edge r c hc).of_reply hm
  obtain ⟨⟨total, valid, hst⟩, hnil, hnet⟩ := y.recvReply_of_isReply hreply
  refine h.count hc hm ?_ ?_ ?_ hnil hnet
  · intro x
    rw [hst]
    by_cases hx : x = r
    · subst hx
      rw [Function.update_self]
    · rw [Function.update_of_ne hx]
  · rw [hst, Function.update_self]
  · intro x hx
    rw [hst, Function.update_of_ne hx]

theorem finish (hlt : r < job.size) (hr : (y.st r).outstanding = true) (count : Nat) :
    (y.finish (job.tree 1 r) r count).Background job.rootedTree := by
  unfold ReduceNet.finish
  split
  next hall =>
    have hheard := h.heard_of_replies hr hall
    cases hp : (job.tree 1 r).parentRank with
    | none =>
        obtain rfl := job.eq_root hlt hp
        refine h.conclude hheard (by simp [set])
          (fun x hx => by simp [set, Function.update_of_ne hx])
          (fun _ _ _ _ => rfl) fun p hc => ?_
        exact absurd rfl (Wave.root_ne_of_mem hc)
    | some p =>
        have hc := job.mem_children hlt hp
        obtain ⟨hpo, hd, hu⟩ := (h.edge p r hc).of_working hr
        have hpr := job.rootedTree.ne_of_mem hc
        refine h.conclude hheard (by simp [set]) ?_ ?_ ?_
        · intro x hx
          simp [set, Function.update_of_ne hx, sendResult_st_ne _ hx]
        · intro a b _ hb
          refine sendResult_net_ne _ ?_
          rintro ⟨rfl, rfl⟩
          exact hb ⟨rfl, hc⟩
        · intro q hq
          obtain rfl := job.rootedTree.parent_unique hc hq
          refine ⟨hpo, ?_, ?_, isReply_sendResult _ hu⟩
          · simp [heard, hr]
          · exact (sendResult_net_ne _ fun h => hpr h.1).trans hd
  next => exact h

theorem begin (hlt : r < job.size) (hr : (y.st r).outstanding = false) (cleanup due hit : Bool)
    (hhit : hit = true → (job.tree 1 r).parentSent y.net r = true) :
    (y.begin (job.tree 1 r) r cleanup due hit).Background job.rootedTree := by
  unfold ReduceNet.begin
  split
  next hstarts =>
    cases hp : (job.tree 1 r).parentRank with
    | none =>
        obtain rfl := job.eq_root hlt hp
        cases cleanup with
        | true => exact h
        | false =>
            exact h.launch hr y.net (fun _ _ _ => rfl)
              (fun p hc => absurd rfl (Wave.root_ne_of_mem hc)) (by simp) (by simp)
              (fun x hx => by simp [Function.update_of_ne hx]) rfl
    | some p =>
        have hc := job.mem_children hlt hp
        have hpr := job.rootedTree.ne_of_mem hc
        have hm : y.net p r ≠ [] := by
          simp only [Starts, hp, Option.isNone_some, Bool.false_or, Bool.and_eq_true] at hstarts
          obtain ⟨q, hq, hm⟩ := TreeState.parentSent_iff.mp (hhit hstarts.2)
          rw [hp] at hq
          exact Option.some.inj hq ▸ hm
        obtain ⟨hpo, _, hd, hu⟩ := (h.edge p r hc).of_start hm
        cases cleanup with
        | true =>
            refine h.conclude (fun x hx => (h.edge r x hx).heard_of_idle hr) (by simpa using hr)
              (fun x hx => by simp [Function.update_of_ne hx]) ?_ ?_
            · intro a b ha hb
              have h₁ : ¬(a = r ∧ b = p) := by
                rintro ⟨rfl, rfl⟩
                exact hb ⟨rfl, hc⟩
              have h₂ : ¬(a = p ∧ b = r) := by
                rintro ⟨rfl, rfl⟩
                exact ha ⟨rfl, hc⟩
              simp [Chan.push_ne _ _ h₁, Chan.pop_ne _ h₂]
            · intro q hq
              obtain rfl := job.rootedTree.parent_unique hc hq
              have h₁ : ¬(p = r ∧ r = p) := fun h => hpr h.1
              have h₂ : ¬(r = p ∧ p = r) := fun h => hpr h.2
              refine ⟨hpo, ?_, ?_, ?_⟩
              · simp [heard, hd]
              · simp [Chan.push_ne _ _ h₁, hd]
              · simpa [Chan.pop_ne _ h₂, hu] using .header false _ _ (.inl rfl)
        | false =>
            refine h.launch hr (y.net.pop p r) ?_ ?_ (by simp) (by simp)
              (fun x hx => by simp [Function.update_of_ne hx]) rfl
            · intro a b hab
              refine Chan.pop_ne _ ?_
              rintro ⟨rfl, rfl⟩
              exact hab ⟨rfl, hc⟩
            · intro q hq
              obtain rfl := job.rootedTree.parent_unique hc hq
              exact ⟨hm, by simp [hd]⟩
  next => exact h

end Background

end Functions

end ReduceNet

/-! ## Runs -/

variable {α : Type*} {job : Job} {s : Sys α} {e : Event α} {r x : Rank}

/-- `x` has completed the cleanup barrier. -/
def Sys.Past (s : Sys α) (x : Rank) : Prop :=
  s.stage x = .after ∨ (s.stage x = .outside ∧ 0 < s.inv x)

/-- Before the first rank completes the barrier, the events keep the background reductions. -/
theorem background_next (he : s.Enabled job e) (hO : s.Once job)
    (hpast : ∀ x, x < job.size → ¬s.Past x) (h : s.reduce.Background job.rootedTree) :
    (s.next job e).reduce.Background job.rootedTree := by
  have hlt := (hO.coherent.ok _).rank_lt he
  have hafter : s.stage e.rank ≠ .after := fun hst => hpast _ hlt (.inl hst)
  cases e with
  | begin r next ops =>
      have hst := ((hO.coherent.ok r).requested_of_idle he.1).1
      have hout : (s.reduce.st r).outstanding = false :=
        ((hO.coherent.ok r).tidy.settled (.inr (.inr hst))).2.1
      refine h.congr (fun x => ?_) (fun x hx => ?_) rfl
      · by_cases hxr : x = r
        · subst hxr
          simp [Sys.next, ReduceNet.init, ReduceNet.set, hout]
        · simp [Sys.next, ReduceNet.init, ReduceNet.set, Function.update_of_ne hxr]
      · have hxr : x ≠ r := by
          rintro rfl
          exact absurd (hout.symm.trans hx) (by decide)
        simp [Sys.next, ReduceNet.init, ReduceNet.set, Function.update_of_ne hxr]
  | reduceBegin r due hit calls =>
      obtain ⟨hpc, _, hout, hhit, _⟩ := he
      have htree := hO.tree_eq ((hO.coherent.ok r).stage_ne (by simp [hpc]))
      simp only [Sys.next, htree] at hhit ⊢
      exact (h.begin hlt hout _ due hit fun hh => (hhit hh).2).congr (fun _ => rfl)
        (fun _ _ => rfl) rfl
  | reduceReply r hit calls =>
      obtain ⟨hpc, hindex, hready, _⟩ := he
      have hidle : s.pc r ≠ .idle := by
        intro hidle
        rw [hidle] at hpc
        cases hpc
      have htree := hO.tree_eq ((hO.coherent.ok r).stage_ne hidle)
      have hc : s.child job r ∈ job.rootedTree.children r := by
        rw [htree] at hindex
        rw [Sys.child, htree]
        exact TreeState.child_mem hindex
      cases hit with
      | false => exact h.congr (fun _ => rfl) (fun _ _ => rfl) rfl
      | true =>
          exact (h.recvReply hc (hready rfl)).congr (fun _ => rfl) (fun _ _ => rfl) rfl
  | reduceDone r calls =>
      obtain ⟨hpc, _⟩ := he
      have htree := hO.tree_eq ((hO.coherent.ok r).stage_ne (by simp [hpc]))
      have hat := (hO.coherent.ok r).position
      rw [hpc] at hat
      simp only [Sys.next, htree]
      exact (h.finish hlt hat.2.2.2.1 _).congr (fun _ => rfl) (fun _ _ => rfl) rfl
  | reduceSync r calls =>
      have hat := (hO.coherent.ok r).position
      rw [show s.pc r = _ from he] at hat
      exact absurd hat.1 hafter
  | reduceSyncReply r calls | reduceSyncDone r calls =>
      have hat := (hO.coherent.ok r).position
      rw [he.1] at hat
      exact absurd hat.1 hafter
  | _ => exact h

theorem background_start (queue : Rank → List α) (abortFlag : Rank → Bool)
    (input : Rank → ReduceInput) (enqueued : List α) :
    (Sys.start queue abortFlag input enqueued).reduce.Background job.rootedTree where
  edge _ _ _ := .quiet rfl rfl rfl
  replies_eq _ h := by cases h
  off_tree _ _ _ _ := rfl

end Libcircle
