import Libcircle.System.Drain

/-!
# Records of background reductions

A `Record` keeps what every rank did in one reduction.  A rank without a reduction
outstanding is in one of four stages (`Record.Idle`), and a rank with one has
counted the replies of the children whose edge is quiet again.  `Record.Current`
says so of the reduction under way and is kept by the three things a rank does:
it joins, it counts a reply, it answers.  `Record.Recorded` is what is left when
the reduction is over.
-/

namespace Libcircle

/-! ## Records -/

/-- What a rank passes on when it completes its part of a reduction. -/
structure Share where
  /-- `reduce_buf[0]` is `MSG_VALID`. -/
  valid : Bool
  /-- `reduce_buf[1]`. -/
  total : Nat
  /-- The argument `count`. -/
  count : Nat
deriving DecidableEq, Repr

/-- What a rank did in one reduction. -/
structure Part where
  /-- The number of start messages sent to the rank. -/
  starts : Nat := 0
  /-- The number of times it took part, which is the number of calls of `reduce_init_cb`. -/
  inits : Nat := 0
  /-- The number of immediate answers `MSG_INVALID` from the cleanup loop. -/
  refusals : Nat := 0
  /-- The number of headers sent to the parent. -/
  headers : Nat := 0
  /-- The replies counted: the child, and the reduction the reply was sent in. -/
  heard : List (Rank × Nat) := []
  /-- What it passed on. -/
  share : Option Share := none
  /-- The number of calls of `reduce_fini_cb`. -/
  finis : Nat := 0
deriving DecidableEq, Repr

/-- What the ranks did in one reduction. -/
abbrev Record := Rank → Part

namespace Record

variable (P : Record) (r : Rank)

/-- `r` answers `MSG_INVALID` from the cleanup loop. -/
def refuse : Record :=
  Function.update P r { P r with refusals := (P r).refusals + 1, headers := (P r).headers + 1 }

/-- `r` takes part and sends start messages to `cs`. -/
def join (cs : List Rank) : Record := fun x =>
  let y := if x = r then { P r with inits := (P r).inits + 1 } else P x
  if x ∈ cs then { y with starts := y.starts + 1 } else y

/-- `r` counts the reply of `c`, which was sent in reduction `k`. -/
def hear (c : Rank) (k : Nat) : Record :=
  Function.update P r { P r with heard := (P r).heard ++ [(c, k)] }

/-- `r` completes its part; `up` is the number of headers this sends.  A rank that sends none is
the root. -/
def give (up : Nat) (y : Share) : Record :=
  Function.update P r
    { P r with
      headers := (P r).headers + up
      share := some y
      finis := (P r).finis + if up = 0 ∧ y.valid = true then 1 else 0 }

end Record

/-! ## The stages of a rank -/

namespace Part

/-- The start message is in flight. -/
def told : Part := { starts := 1 }

/-- The rank takes part and has counted the replies of `h`. -/
def joined (up : Nat) (h : List (Rank × Nat)) : Part := { starts := up, inits := 1, heard := h }

/-- The rank answered from the cleanup loop. -/
def refused : Part := { starts := 1, refusals := 1, headers := 1 }

/-- The rank took part and passed on `y`. -/
def gave (up : Nat) (h : List (Rank × Nat)) (y : Share) : Part :=
  { starts := up, inits := 1, headers := up, heard := h, share := some y
    finis := if up = 0 ∧ y.valid = true then 1 else 0 }

/-- The rank passed on a valid share. -/
def valid (A : Part) : Bool := A.share.any Share.valid

/-- The sum the rank passed on. -/
def total (A : Part) : Nat := (A.share.map Share.total).getD 0

/-- The own count in it. -/
def count (A : Part) : Nat := (A.share.map Share.count).getD 0

/-- The rank took part, counted the reply of each of its children `cs` and passed on its share. -/
structure TookPart (cs : List Rank) (A : Part) : Prop where
  inits : A.inits = 1
  refusals : A.refusals = 0
  heard : (A.heard.map Prod.fst).Perm cs
  share : A.share ≠ none

/-- The rank answered `MSG_INVALID` at once. -/
structure Refused (A : Part) : Prop where
  inits : A.inits = 0
  refusals : A.refusals = 1
  heard : A.heard = []
  share : A.share = none

end Part

namespace Record

variable {T : ParentTree Rank} {P P' : Record} {y y' : ReduceNet} {k r p c : Nat}
  {h : List (Rank × Nat)}

/-- `valid` and `total` are what the replies of `h` make of a reduction number `k`. -/
structure Tally (P : Record) (k : Nat) (h : List (Rank × Nat)) (valid : Bool) (total : Nat) :
    Prop where
  valid_eq : valid = h.all fun c => (P c.1).valid
  total_eq : total = (h.map fun c => if (P c.1).valid then (P c.1).total else 0).sum
  /-- The replies were sent in this reduction. -/
  stamped : ∀ c ∈ h, c.2 = k

/-- The stages of a rank with no reduction outstanding. -/
inductive Idle (T : ParentTree Rank) (P : Record) (k : Nat) (r : Rank) : Prop where
  | absent (hr : P r = {})
  | told (hr : P r = .told)
  | refused (hr : P r = .refused)
  | gave (h : List (Rank × Nat)) (y : Share) (n : Nat) (hr : P r = .gave (T.parents r) h y)
      (ht : P.Tally k h y.valid n) (hy : y.total = n + y.count)
      (hp : (h.map Prod.fst).Perm (T.children r))

/-- The record of the reduction number `k`, which is under way or was the last. -/
structure Current (T : ParentTree Rank) (P : Record) (y : ReduceNet) (k : Nat) : Prop where
  idle : ∀ r, T.IsNode r → (y.st r).outstanding = false → P.Idle T k r
  busy : ∀ r, T.IsNode r → (y.st r).outstanding = true →
    ∃ h, P r = .joined (T.parents r) h ∧ P.Tally k h (y.st r).valid (y.st r).total ∧
      (h.map Prod.fst).Nodup ∧
      ∀ c, c ∈ h.map Prod.fst ↔ c ∈ T.children r ∧ y.heard r c = true
  told : ∀ p c, c ∈ T.children p → y.net p c ≠ [] → P c = .told
  reply : ∀ p c, c ∈ T.children p → y.net c p ≠ [] → (P c).headers = 1 ∧
    ∀ valid total bytes ms, y.net c p = .header .check valid total bytes :: ms →
      (P c).valid = valid ∧ (valid = true → (P c).total = total)
  absent : ∀ p c, c ∈ T.children p → (P p).inits = 0 → P c = {}
  sent : ∀ p c, c ∈ T.children p → (P p).inits = 1 → (P c).starts = 1
  done : ∀ p c, c ∈ T.children p → (P p).inits = 1 → y.heard p c = true → (P c).headers = 1

/-- Only what was passed on matters. -/
theorem Tally.congr {valid : Bool} {total : Nat} (ht : P.Tally k h valid total)
    (hP : ∀ c ∈ h.map Prod.fst, (P' c).share = (P c).share) : P'.Tally k h valid total := by
  have hP : ∀ c ∈ h, (P' c.1).share = (P c.1).share :=
    fun c hc => hP c.1 (List.mem_map_of_mem hc)
  refine ⟨ht.valid_eq.trans ?_, ht.total_eq.trans ?_, ht.stamped⟩
  · rw [Bool.eq_iff_iff, List.all_eq_true, List.all_eq_true]
    exact forall₂_congr fun c hc => by rw [Part.valid, Part.valid, hP c hc]
  · refine congrArg List.sum (List.map_congr_left fun c hc => ?_)
    rw [Part.valid, Part.valid, Part.total, Part.total, hP c hc]

theorem Idle.congr (hi : P.Idle T k r) (hr : P' r = P r)
    (hP : ∀ c ∈ T.children r, (P' c).share = (P c).share) : P'.Idle T k r := by
  cases hi with
  | absent h => exact .absent (hr.trans h)
  | told h => exact .told (hr.trans h)
  | refused h => exact .refused (hr.trans h)
  | gave h z n hz ht hy hp =>
      exact .gave h z n (hr.trans hz) (ht.congr fun c hc => hP c (hp.mem_iff.mp hc)) hy hp

/-- Before the first start message nothing is recorded. -/
theorem current_empty (hst : ∀ r, T.IsNode r → (y.st r).outstanding = false)
    (hnet : ∀ p c, c ∈ T.children p → y.net p c = [] ∧ y.net c p = []) :
    Current T (fun _ => {}) y k where
  idle _ _ _ := .absent rfl
  busy r hr hout := absurd ((hst r hr).symm.trans hout) (by decide)
  told p c hc hm := absurd (hnet p c hc).1 hm
  reply p c hc hm := absurd (hnet p c hc).2 hm
  absent _ _ _ _ := rfl
  sent _ _ _ h := absurd h (by decide)
  done _ _ _ h := absurd h (by decide)

theorem Current.inits_eq (h : P.Current T y k) (hr : T.IsNode r)
    (hout : (y.st r).outstanding = true) : (P r).inits = 1 := by
  obtain ⟨_, hP, _⟩ := h.busy r hr hout
  rw [hP]
  rfl

/-! ## The operations -/

/-- The reply of `c` is counted by `r`. -/
theorem Current.hear (h : P.Current T y k) (hr : T.IsNode r) (hout : (y.st r).outstanding = true)
    (hc : c ∈ T.children r) (hm : y.net c r ≠ []) (hheard : y'.heard r c = true)
    (hout' : ∀ x, (y'.st x).outstanding = (y.st x).outstanding)
    (hst : ∀ x, x ≠ r → y'.st x = y.st x)
    (htally : (y'.st r).valid = ((y.st r).valid && (P c).valid) ∧
      (y'.st r).total = (y.st r).total + if (P c).valid then (P c).total else 0)
    (hnet : ∀ a b, ¬(a = c ∧ b = r) → y'.net a b = y.net a b) (hnil : y'.net c r = []) :
    (P.hear r c k).Current T y' k := by
  have hrc := T.ne_of_mem hc
  have hne : ∀ x, x ≠ r → P.hear r c k x = P x := fun x hx => Function.update_of_ne hx _ _
  have hself : P.hear r c k r = { P r with heard := (P r).heard ++ [(c, k)] } :=
    Function.update_self ..
  -- what was passed on, and what was sent, is as before
  have hshare : ∀ x, (P.hear r c k x).share = (P x).share := by
    intro x
    by_cases hx : x = r
    · rw [hx, hself]
    · rw [hne x hx]
  have hvalid : (P.hear r c k c).valid = (P c).valid := congrArg (Option.any Share.valid) (hshare c)
  have htotal : (P.hear r c k c).total = (P c).total :=
    congrArg (fun z => (Option.map Share.total z).getD 0) (hshare c)
  have hinits : ∀ x, (P.hear r c k x).inits = (P x).inits ∧
      (P.hear r c k x).starts = (P x).starts ∧ (P.hear r c k x).headers = (P x).headers := by
    intro x
    by_cases hx : x = r
    · rw [hx, hself]
      exact ⟨rfl, rfl, rfl⟩
    · rw [hne x hx]
      exact ⟨rfl, rfl, rfl⟩
  have hone := h.inits_eq hr hout
  have hnr : P r ≠ {} := by
    intro h0
    rw [h0] at hone
    cases hone
  have hother : ∀ p x, x ∈ T.children p → ¬(x = c ∧ p = r) →
      y'.net p x = y.net p x ∧ y'.net x p = y.net x p := by
    intro p x hx hxp
    refine ⟨hnet p x ?_, hnet x p hxp⟩
    rintro ⟨rfl, rfl⟩
    exact T.not_mem_children_symm hc hx
  have hheard' : ∀ p x, x ∈ T.children p → ¬(x = c ∧ p = r) → y'.heard p x = y.heard p x := by
    intro p x hx hxp
    obtain ⟨h₁, h₂⟩ := hother p x hx hxp
    exact ReduceNet.heard_congr (hout' x) h₁ h₂
  constructor
  · intro x hx hxout
    rw [hout' x] at hxout
    have hxr : x ≠ r := by
      rintro rfl
      exact absurd (hxout.symm.trans hout) (by decide)
    exact (h.idle x hx hxout).congr (hne x hxr) fun c _ => hshare c
  · intro x hx hxout
    rw [hout' x] at hxout
    obtain ⟨l, hl, ht, hnodup, hmem⟩ := h.busy x hx hxout
    have ht' := ht.congr fun c _ => hshare c
    by_cases hxr : x = r
    · subst hxr
      have hcl : c ∉ l.map Prod.fst := by
        intro hcl
        exact hm (ReduceNet.heard_iff.mp ((hmem c).mp hcl).2).2.2
      refine ⟨l ++ [(c, k)], ?_, ⟨?_, ?_, ?_⟩, ?_, fun a => ?_⟩
      · rw [hself, hl]
        rfl
      · rw [htally.1, ht'.valid_eq, List.all_append]
        simp [hvalid]
      · rw [htally.2, ht'.total_eq, List.map_append, List.sum_append]
        simp [hvalid, htotal]
      · intro a ha
        rcases List.mem_append.mp ha with ha | ha
        · exact ht.stamped a ha
        · rw [List.mem_singleton.mp ha]
      · rw [List.map_append]
        exact List.nodup_append.mpr ⟨hnodup, by simp, by
          rintro a ha b hb rfl
          rw [List.map_singleton, List.mem_singleton] at hb
          rw [hb] at ha
          exact hcl ha⟩
      · rw [List.map_append, List.mem_append, List.map_singleton, List.mem_singleton]
        by_cases hac : a = c
        · subst hac
          exact iff_of_true (.inr rfl) ⟨hc, hheard⟩
        · rw [hmem a]
          constructor
          · rintro (⟨ha, hh⟩ | ha)
            · exact ⟨ha, (hheard' x a ha fun h => hac h.1).trans hh⟩
            · exact absurd ha hac
          · rintro ⟨ha, hh⟩
            exact .inl ⟨ha, (hheard' x a ha fun h => hac h.1).symm.trans hh⟩
    · refine ⟨l, by rw [hne x hxr, hl], by rwa [hst x hxr], hnodup, fun a => ?_⟩
      rw [hmem a]
      exact and_congr_right fun ha => by rw [hheard' x a ha fun h => hxr h.2]
  · intro p x hx hm'
    have hxp : ¬(p = c ∧ x = r) := by
      rintro ⟨rfl, rfl⟩
      exact T.not_mem_children_symm hc hx
    rw [hnet p x hxp] at hm'
    have htold := h.told p x hx hm'
    have hxr : x ≠ r := by
      rintro rfl
      rw [htold] at hone
      cases hone
    rw [hne x hxr, htold]
  · intro p x hx hm'
    have hxp : ¬(x = c ∧ p = r) := by
      rintro ⟨rfl, rfl⟩
      exact hm' hnil
    rw [hnet x p hxp] at hm' ⊢
    obtain ⟨hhead, hval⟩ := h.reply p x hx hm'
    refine ⟨(hinits x).2.2.trans hhead, ?_⟩
    rw [Part.valid, Part.total, hshare x]
    exact hval
  · intro p x hx h0
    rw [(hinits p).1] at h0
    have hx0 := h.absent p x hx h0
    have hxr : x ≠ r := by
      rintro rfl
      exact hnr hx0
    rw [hne x hxr, hx0]
  · intro p x hx h1
    rw [(hinits p).1] at h1
    rw [(hinits x).2.1]
    exact h.sent p x hx h1
  · intro p x hx h1 hh
    rw [(hinits p).1] at h1
    rw [(hinits x).2.2]
    by_cases hxp : x = c ∧ p = r
    · obtain ⟨rfl, rfl⟩ := hxp
      exact (h.reply p x hx hm).1
    · exact h.done p x hx h1 ((hheard' p x hx hxp).symm.trans hh)

/-- `r` answers its parent: `A` is its part from now on. -/
theorem Current.conclude (h : P.Current T y k)
    (hheard : ∀ c ∈ T.children r, y.heard r c = true) (hr : (y'.st r).outstanding = false)
    (hst : ∀ x, x ≠ r → y'.st x = y.st x)
    (hnet : ∀ a b, ¬(b = r ∧ r ∈ T.children a) → ¬(a = r ∧ r ∈ T.children b) →
      y'.net a b = y.net a b)
    (hup : ∀ p, r ∈ T.children p → (y.st p).outstanding = true ∧ y.heard p r = false ∧
      y'.net p r = [] ∧ ReduceNet.IsReply (y'.net r p))
    {A : Part} (hidle : Idle T (Function.update P r A) k r) (hinits : A.inits = (P r).inits)
    (hstarts : A.starts = (P r).starts) (hheaders : A.headers = T.parents r)
    (hreply : ∀ p, r ∈ T.children p → ∀ valid total bytes ms,
      y'.net r p = .header .check valid total bytes :: ms →
        A.valid = valid ∧ (valid = true → A.total = total)) :
    Current T (Function.update P r A) y' k := by
  have hne : ∀ x, x ≠ r → Function.update P r A x = P x := fun x hx => Function.update_of_ne hx _ _
  have hself : Function.update P r A r = A := Function.update_self ..
  have hinits' : ∀ x, (Function.update P r A x).inits = (P x).inits ∧
      (Function.update P r A x).starts = (P x).starts := by
    intro x
    by_cases hx : x = r
    · rw [hx, hself]
      exact ⟨hinits, hstarts⟩
    · rw [hne x hx]
      exact ⟨rfl, rfl⟩
  -- an edge that `r` is not the lower end of
  have hother : ∀ p x, x ∈ T.children p → x ≠ r →
      y'.net p x = y.net p x ∧ y'.net x p = y.net x p := by
    intro p x hx hxr
    refine ⟨hnet p x (fun h => hxr h.1) ?_, hnet x p ?_ fun h => hxr h.1⟩
    · rintro ⟨rfl, hpx⟩
      exact T.not_mem_children_symm hx hpx
    · rintro ⟨rfl, hpx⟩
      exact T.not_mem_children_symm hx hpx
  have hheard' : ∀ p x, x ∈ T.children p → x ≠ r → y'.heard p x = y.heard p x := by
    intro p x hx hxr
    obtain ⟨h₁, h₂⟩ := hother p x hx hxr
    exact ReduceNet.heard_congr (by rw [hst x hxr]) h₁ h₂
  have hfalse : ∀ p, r ∈ T.children p → y'.heard p r = false := by
    intro p hp
    rw [Bool.eq_false_iff]
    exact fun hh => (hup p hp).2.2.2.ne_nil (ReduceNet.heard_iff.mp hh).2.2
  constructor
  · intro x hx hxout
    by_cases hxr : x = r
    · rw [hxr]
      exact hidle
    · rw [hst x hxr] at hxout
      refine (h.idle x hx hxout).congr (hne x hxr) fun c hc => ?_
      have hcr : c ≠ r := by
        rintro rfl
        exact absurd (hxout.symm.trans (hup x hc).1) (by decide)
      rw [hne c hcr]
  · intro x hx hxout
    have hxr : x ≠ r := by
      rintro rfl
      exact absurd (hr.symm.trans hxout) (by decide)
    rw [hst x hxr] at hxout ⊢
    obtain ⟨l, hl, ht, hnodup, hmem⟩ := h.busy x hx hxout
    have hrl : r ∉ l.map Prod.fst := by
      intro hrl
      obtain ⟨hrx, hh⟩ := (hmem r).mp hrl
      exact absurd ((hup x hrx).2.1.symm.trans hh) (by decide)
    refine ⟨l, by rw [hne x hxr, hl], ht.congr fun c hc => ?_, hnodup, fun c => ?_⟩
    · have hcr : c ≠ r := by
        rintro rfl
        exact hrl hc
      rw [hne c hcr]
    · rw [hmem c]
      refine and_congr_right fun hc => ?_
      by_cases hcr : c = r
      · subst hcr
        rw [(hup x hc).2.1, hfalse x hc]
      · rw [hheard' x c hc hcr]
  · intro p c hc hm
    by_cases hcr : c = r
    · subst hcr
      exact absurd (hup p hc).2.2.1 hm
    · rw [(hother p c hc hcr).1] at hm
      rw [hne c hcr]
      exact h.told p c hc hm
  · intro p c hc hm
    by_cases hcr : c = r
    · subst hcr
      rw [hself]
      exact ⟨hheaders.trans (T.parents_of_mem hc), hreply p hc⟩
    · rw [(hother p c hc hcr).2] at hm ⊢
      rw [hne c hcr]
      exact h.reply p c hc hm
  · intro p c hc h0
    rw [(hinits' p).1] at h0
    by_cases hcr : c = r
    · subst hcr
      have hp : T.IsNode p := T.node_parent _ p (T.node_of_mem hc) (T.parent_of_mem hc)
      exact absurd (h0.symm.trans (h.inits_eq hp (hup p hc).1)) (by decide)
    · rw [hne c hcr]
      exact h.absent p c hc h0
  · intro p c hc h1
    rw [(hinits' p).1] at h1
    rw [(hinits' c).2]
    exact h.sent p c hc h1
  · intro p c hc h1 hh
    rw [(hinits' p).1] at h1
    by_cases hcr : c = r
    · subst hcr
      exact absurd ((hfalse p hc).symm.trans hh) (by decide)
    · rw [hne c hcr]
      exact h.done p c hc h1 ((hheard' p c hc hcr).symm.trans hh)

/-- `r` takes part, on the start message of its parent or as the root. -/
theorem Current.join (h : P.Current T y k) (hr : T.IsNode r) (hP : P r = { starts := T.parents r })
    (hidle : (y.st r).outstanding = false) (hB : y.Background T)
    (hup : ∀ p, r ∈ T.children p → y.heard p r = false ∧ y'.net p r = [] ∧ y'.net r p = [])
    (hout : (y'.st r).outstanding = true) (hvalid : (y'.st r).valid = true)
    (htotal : (y'.st r).total = 0) (hst : ∀ x, x ≠ r → y'.st x = y.st x)
    (hstart : ∀ c ∈ T.children r, y'.net r c = [.start] ∧ y'.net c r = [])
    (hnet : ∀ a b, ¬(b = r ∧ r ∈ T.children a) → ¬(a = r ∧ b ∈ T.children r) →
      y'.net a b = y.net a b) :
    (P.join r (T.children r)).Current T y' k := by
  have hrr : r ∉ T.children r := fun hrr => T.ne_of_mem hrr rfl
  have hempty : ∀ c ∈ T.children r, P c = {} := by
    intro c hc
    refine h.absent r c hc ?_
    rw [hP]
  have hself : P.join r (T.children r) r = .joined (T.parents r) [] := by
    simp [Record.join, hrr, hP, Part.joined]
  have hchild : ∀ c ∈ T.children r, P.join r (T.children r) c = .told := by
    intro c hc
    have hcr : c ≠ r := (T.ne_of_mem hc).symm
    simp [Record.join, hc, hcr, hempty c hc, Part.told]
  have hne : ∀ x, x ≠ r → x ∉ T.children r → P.join r (T.children r) x = P x := by
    intro x hxr hx
    simp [Record.join, hxr, hx]
  -- an edge that has not `r` at its upper end has no child of `r` at its lower end
  have hlow : ∀ p c, c ∈ T.children p → p ≠ r → c ∉ T.children r :=
    fun p c hc hpr hcr => hpr (T.parent_unique hc hcr)
  have hshare : ∀ x, (P.join r (T.children r) x).share = (P x).share := by
    intro x
    by_cases hxr : x = r
    · rw [hxr, hself, hP]
      rfl
    · by_cases hx : x ∈ T.children r
      · rw [hchild x hx, hempty x hx]
        rfl
      · rw [hne x hxr hx]
  have hquiet : ∀ c ∈ T.children r, (y.st c).outstanding = false := fun c hc =>
    (ReduceNet.heard_iff.mp ((hB.edge r c hc).heard_of_idle hidle)).1
  have hstarts : ∀ p, r ∈ T.children p → (P r).starts = 1 := by
    intro p hp
    rw [hP]
    exact T.parents_of_mem hp
  have hfalse : ∀ c ∈ T.children r, y'.heard r c = false := by
    intro c hc
    rw [Bool.eq_false_iff]
    intro hh
    have hd := (ReduceNet.heard_iff.mp hh).2.1
    rw [(hstart c hc).1] at hd
    cases hd
  have hfalse' : ∀ p, r ∈ T.children p → y'.heard p r = false := by
    intro p _
    rw [Bool.eq_false_iff]
    exact fun hh => absurd (hout.symm.trans (ReduceNet.heard_iff.mp hh).1) (by decide)
  have hother : ∀ p c, c ∈ T.children p → p ≠ r → c ≠ r →
      y'.net p c = y.net p c ∧ y'.net c p = y.net c p := fun p c _ hpr hcr =>
    ⟨hnet p c (fun h => hcr h.1) fun h => hpr h.1, hnet c p (fun h => hpr h.1) fun h => hcr h.1⟩
  have hheard' : ∀ p c, c ∈ T.children p → p ≠ r → c ≠ r → y'.heard p c = y.heard p c := by
    intro p c hc hpr hcr
    obtain ⟨h₁, h₂⟩ := hother p c hc hpr hcr
    exact ReduceNet.heard_congr (by rw [hst c hcr]) h₁ h₂
  constructor
  · intro x hx hxout
    have hxr : x ≠ r := by
      rintro rfl
      exact absurd (hxout.symm.trans hout) (by decide)
    by_cases hxc : x ∈ T.children r
    · exact .told (hchild x hxc)
    · rw [hst x hxr] at hxout
      exact (h.idle x hx hxout).congr (hne x hxr hxc) fun c _ => hshare c
  · intro x hx hxout
    by_cases hxr : x = r
    · subst hxr
      refine ⟨[], hself, ⟨hvalid, htotal, by simp⟩, List.nodup_nil, fun c => ?_⟩
      refine iff_of_false List.not_mem_nil fun hc => ?_
      exact absurd ((hfalse c hc.1).symm.trans hc.2) (by decide)
    · rw [hst x hxr] at hxout ⊢
      have hxc : x ∉ T.children r := fun hxc =>
        absurd ((hquiet x hxc).symm.trans hxout) (by decide)
      obtain ⟨l, hl, ht, hnodup, hmem⟩ := h.busy x hx hxout
      refine ⟨l, by rw [hne x hxr hxc, hl], ht.congr fun c _ => hshare c, hnodup, fun c => ?_⟩
      rw [hmem c]
      refine and_congr_right fun hc => ?_
      by_cases hcr : c = r
      · subst hcr
        rw [(hup x hc).1, hfalse' x hc]
      · rw [hheard' x c hc hxr hcr]
  · intro p c hc hm
    by_cases hpr : p = r
    · subst hpr
      exact hchild c hc
    · by_cases hcr : c = r
      · subst hcr
        exact absurd (hup p hc).2.1 hm
      · rw [(hother p c hc hpr hcr).1] at hm
        rw [hne c hcr (hlow p c hc hpr)]
        exact h.told p c hc hm
  · intro p c hc hm
    by_cases hpr : p = r
    · subst hpr
      exact absurd (hstart c hc).2 hm
    · by_cases hcr : c = r
      · subst hcr
        exact absurd (hup p hc).2.2 hm
      · rw [(hother p c hc hpr hcr).2] at hm ⊢
        rw [hne c hcr (hlow p c hc hpr)]
        exact h.reply p c hc hm
  · intro p c hc h0
    have hpr : p ≠ r := by
      rintro rfl
      rw [hself] at h0
      cases h0
    have h0 : (P p).inits = 0 := by
      by_cases hpc : p ∈ T.children r
      · rw [hempty p hpc]
      · rwa [hne p hpr hpc] at h0
    have hc0 := h.absent p c hc h0
    have hcr : c ≠ r := by
      rintro rfl
      have h1 := hstarts p hc
      rw [hc0] at h1
      cases h1
    rw [hne c hcr (hlow p c hc hpr), hc0]
  · intro p c hc h1
    by_cases hpr : p = r
    · subst hpr
      rw [hchild c hc]
      rfl
    · have hpc : p ∉ T.children r := by
        intro hpc
        rw [hchild p hpc] at h1
        cases h1
      rw [hne p hpr hpc] at h1
      by_cases hcr : c = r
      · subst hcr
        rw [hself]
        exact T.parents_of_mem hc
      · rw [hne c hcr (hlow p c hc hpr)]
        exact h.sent p c hc h1
  · intro p c hc h1 hh
    by_cases hpr : p = r
    · subst hpr
      exact absurd ((hfalse c hc).symm.trans hh) (by decide)
    · have hpc : p ∉ T.children r := by
        intro hpc
        rw [hchild p hpc] at h1
        cases h1
      rw [hne p hpr hpc] at h1
      by_cases hcr : c = r
      · subst hcr
        exact absurd ((hfalse' p hc).symm.trans hh) (by decide)
      · rw [hne c hcr (hlow p c hc hpr)]
        exact h.done p c hc h1 ((hheard' p c hc hpr hcr).symm.trans hh)

/-! ## Finished records -/

/-- What stays of a record when the next reduction starts. -/
structure Recorded (T : ParentTree Rank) (P : Record) (k : Nat) : Prop where
  stage : ∀ r, T.IsNode r →
    P.Idle T k r ∨ ∃ h, P r = .joined (T.parents r) h ∧ ∀ c ∈ h, c.2 = k
  done : ∀ p c, c ∈ T.children p → (P p).share ≠ none →
    (P c).starts = 1 ∧ (P c).headers = 1

theorem recorded_empty : Recorded T (fun _ => {}) k where
  stage _ _ := .inl (.absent rfl)
  done _ _ _ h := absurd rfl h

theorem Current.recorded (h : P.Current T y k) (hB : y.Background T) : P.Recorded T k where
  stage r hr := by
    cases hout : (y.st r).outstanding with
    | false => exact .inl (h.idle r hr hout)
    | true =>
        obtain ⟨l, hl, ht, _⟩ := h.busy r hr hout
        exact .inr ⟨l, hl, ht.stamped⟩
  done p c hc hs := by
    have hp : T.IsNode p := T.node_parent _ p (T.node_of_mem hc) (T.parent_of_mem hc)
    cases hout : (y.st p).outstanding with
    | true =>
        obtain ⟨l, hl, _⟩ := h.busy p hp hout
        rw [hl] at hs
        exact absurd rfl hs
    | false =>
        cases h.idle p hp hout with
        | absent h0 => exact absurd (congrArg Part.share h0) hs
        | told h0 => exact absurd (congrArg Part.share h0) hs
        | refused h0 => exact absurd (congrArg Part.share h0) hs
        | gave l z n h0 =>
            have hone : (P p).inits = 1 := congrArg Part.inits h0
            exact ⟨h.sent p c hc hone, h.done p c hc hone ((hB.edge p c hc).heard_of_idle hout)⟩

/-! ## What a finished record says -/

namespace Recorded

variable (hR : P.Recorded T k)
include hR

theorem headers_le (hr : T.IsNode r) : (P r).headers ≤ (P r).starts ∧ (P r).starts ≤ 1 := by
  have hone := T.parents_le_one r
  rcases hR.stage r hr with hi | ⟨l, hl, _⟩
  · cases hi with
    | absent h0 => rw [h0]; decide
    | told h0 => rw [h0]; decide
    | refused h0 => rw [h0]; decide
    | gave l y n h0 =>
        rw [h0]
        exact ⟨Nat.le_refl _, hone⟩
  · rw [hl]
    exact ⟨Nat.zero_le _, hone⟩

/-- A rank that answered took part or refused. -/
theorem answered (hr : T.IsNode r) (hone : (P r).headers = 1) :
    (P r).TookPart (T.children r) ∨ (P r).Refused := by
  rcases hR.stage r hr with hi | ⟨l, hl, _⟩
  · cases hi with
    | absent h0 => rw [h0] at hone; cases hone
    | told h0 => rw [h0] at hone; cases hone
    | refused h0 =>
        rw [h0]
        exact .inr ⟨rfl, rfl, rfl, rfl⟩
    | gave l y n h0 _ _ hp =>
        rw [h0]
        exact .inl ⟨rfl, rfl, hp, by simp [Part.gave]⟩
  · rw [hl] at hone
    cases hone

/-- The replies that were counted belong to this reduction. -/
theorem stamped (hr : T.IsNode r) {c : Rank × Nat} (hc : c ∈ (P r).heard) : c.2 = k := by
  rcases hR.stage r hr with hi | ⟨l, hl, hk⟩
  · cases hi with
    | absent h0 => rw [h0] at hc; cases hc
    | told h0 => rw [h0] at hc; cases hc
    | refused h0 => rw [h0] at hc; cases hc
    | gave l y n h0 ht =>
        rw [h0] at hc
        exact ht.stamped c hc
  · rw [hl] at hc
    exact hk c hc

/-- A rank that passed on a share. -/
theorem gave (hr : T.IsNode r) (hs : (P r).share ≠ none) :
    ∃ l y n, P r = .gave (T.parents r) l y ∧ P.Tally k l y.valid n ∧ y.total = n + y.count ∧
      (l.map Prod.fst).Perm (T.children r) := by
  rcases hR.stage r hr with hi | ⟨l, hl, _⟩
  · cases hi with
    | absent h0 => exact absurd (congrArg Part.share h0) hs
    | told h0 => exact absurd (congrArg Part.share h0) hs
    | refused h0 => exact absurd (congrArg Part.share h0) hs
    | gave l y n h0 ht hy hp => exact ⟨l, y, n, h0, ht, hy, hp⟩
  · exact absurd (congrArg Part.share hl) hs

/-- The share is valid if those of the children are. -/
theorem valid_iff (hr : T.IsNode r) (hs : (P r).share ≠ none) :
    (P r).valid = true ↔ ∀ c ∈ T.children r, (P c).valid = true := by
  obtain ⟨l, y, n, h0, ht, _, hp⟩ := hR.gave hr hs
  have hv : (P r).valid = y.valid := by
    rw [h0]
    rfl
  rw [hv, ht.valid_eq, List.all_eq_true]
  constructor
  · intro hall c hc
    obtain ⟨a, ha, rfl⟩ := List.mem_map.mp (hp.mem_iff.mpr hc)
    exact hall a ha
  · intro hall a ha
    exact hall a.1 (hp.mem_iff.mp (List.mem_map_of_mem ha))

/-- A child of a rank that passed on its share passed on its own, or refused. -/
theorem share_of_mem (hc : c ∈ T.children p) (hs : (P p).share ≠ none)
    (hr : (P c).refusals = 0) : (P c).share ≠ none := by
  rcases hR.answered (T.node_of_mem hc) (hR.done p c hc hs).2 with ht | hf
  · exact ht.share
  · exact absurd (hr.symm.trans hf.refusals) (by decide)

/-- Valid shares all over the tree. -/
theorem took_part (hs : (P r).valid = true) (hr : T.IsNode r) :
    (P r).TookPart (T.children r) := by
  have hshare : (P r).share ≠ none := by
    intro h0
    simp [Part.valid, h0] at hs
  obtain ⟨l, y, n, h0, _, _, hp⟩ := hR.gave hr hshare
  rw [h0]
  exact ⟨rfl, rfl, hp, by simp [Part.gave]⟩

theorem valid_of_root (hs : (P T.root).valid = true) : ∀ r, T.IsNode r → (P r).valid = true :=
  T.induct hs fun _ c hp hc hv =>
    (hR.valid_iff hp (hR.took_part hv hp).share).mp hv c hc

/-- If no rank refused, every rank passed on a share, and all shares are valid. -/
theorem valid_of_no_refusal (hwf : WellFounded fun c p => c ∈ T.children p)
    (hs : (P T.root).share ≠ none) (hall : ∀ r, T.IsNode r → (P r).refusals = 0) :
    ∀ r, T.IsNode r → (P r).valid = true := by
  have hshare : ∀ r, T.IsNode r → (P r).share ≠ none :=
    T.induct hs fun p c hp hc hs => hR.share_of_mem hc hs (hall c (T.node_of_mem hc))
  intro r
  induction r using hwf.induction with
  | _ r ih =>
    intro hr
    exact (hR.valid_iff hr (hshare r hr)).mpr fun c hc => ih c hc (T.node_of_mem hc)

/-- The share of the root is the sum of all counts. -/
theorem total_root (hs : (P T.root).valid = true) {N : Finset Rank}
    (hN : ∀ r, r ∈ N ↔ T.IsNode r) : (P T.root).total = ∑ r ∈ N, (P r).count := by
  refine T.sum_own hN (f := fun r => (P r).total) fun r hr => ?_
  have hvalid := hR.valid_of_root hs
  obtain ⟨l, y, n, h0, ht, hy, hp⟩ := hR.gave hr (hR.took_part (hvalid r hr) hr).share
  have htotal : (P r).total = y.total ∧ (P r).count = y.count := by
    rw [h0]
    exact ⟨rfl, rfl⟩
  have hn : n = ((T.children r).map fun c => (P c).total).sum := by
    rw [ht.total_eq, ← (hp.map fun c => (P c).total).sum_eq, List.map_map]
    refine congrArg List.sum (List.map_congr_left fun c hc => ?_)
    rw [hvalid c.1 (T.node_of_mem (hp.mem_iff.mp (List.mem_map_of_mem hc)))]
    rfl
  rw [htotal.1, htotal.2, hy, hn, Nat.add_comm]

/-- The root calls `reduce_fini_cb` for a valid share. -/
theorem finis_iff (hs : (P T.root).share ≠ none) :
    (P T.root).finis = 1 ↔ (P T.root).valid = true := by
  obtain ⟨l, y, n, h0, _⟩ := hR.gave T.root_node hs
  have hup : T.parents T.root = 0 := by
    rw [ParentTree.parents, T.parent_root]
    rfl
  rw [h0, hup]
  cases hv : y.valid <;> simp [Part.gave, Part.valid, hv]

end Recorded

end Record

end Libcircle
