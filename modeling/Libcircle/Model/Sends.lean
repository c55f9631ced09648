import Mathlib.Data.List.Range
import Libcircle.Lib.Loans
import Libcircle.Model.Queue

/-!
# The sends a rank keeps track of

`CIRCLE_worksend_track` records the request of a send and the buffer it was
posted with in two arrays.  `CIRCLE_worksend_check` frees the buffers of the sends
that are complete, and fills each slot that becomes free with the last entry.

MPI decides which requests are complete.  An access outside an array and an `int`
that overflows have no result, and neither has a call that ends in `MPI_Abort`.

The functions refine a list of sends (`Tracks`), from which a check takes what it
finds complete, and they treat the buffers as `Libcircle.Lib.Loans` asks.
-/

namespace Libcircle

/-- The fields of `CIRCLE_state_st` for outstanding sends.  A request is `none` for
`MPI_REQUEST_NULL`, and a buffer is `none` for a null pointer. -/
structure SendTable (ρ β : Type) where
  /-- `send_count`. -/
  sendCount : Nat
  /-- `send_capacity`. -/
  sendCapacity : Nat
  /-- `send_reqs`, with `none` for a null pointer. -/
  sendReqs : Option (Block (Option ρ))
  /-- `send_bufs`, with `none` for a null pointer. -/
  sendBufs : Option (Block (Option β))
  /-- `work_request_req`. -/
  workRequestReq : Option ρ

variable {ρ β : Type}

/-- `MPI_Test`; `flag` says whether a request is complete that is not `MPI_REQUEST_NULL`. -/
def mpiTest (flag : Bool) : Option ρ → Bool
  | none => true
  | some _ => flag

/-- `CIRCLE_free`. -/
def circleFree (buf : Option β) : List (LoanEvent ρ β) := buf.toList.map .free

namespace SendTable

variable (t : SendTable ρ β)

/-- The fields at the start of `CIRCLE_work_loop`. -/
def init (workRequestReq : Option ρ) : SendTable ρ β := ⟨0, 0, none, none, workRequestReq⟩

/-- The part of `CIRCLE_worksend_track` for arrays that are full; `okReqs` and `okBufs` say
whether the calls of `realloc` succeed. -/
def grow (okReqs okBufs : Bool) : Option (SendTable ρ β) :=
  let capacity := if 0 < t.sendCapacity then t.sendCapacity * 2 else 32
  if int32Max < capacity then none
  else do
    let reqs ← realloc okReqs t.sendReqs capacity
    let bufs ← realloc okBufs t.sendBufs capacity
    return { t with sendReqs := some reqs, sendBufs := some bufs, sendCapacity := capacity }

/-- The last part of `CIRCLE_worksend_track`: fill a slot. -/
def record (req : ρ) (buf : Option β) : Option (SendTable ρ β) := do
  let reqs ← (← t.sendReqs).write t.sendCount [some req]
  let bufs ← (← t.sendBufs).write t.sendCount [buf]
  return { t with sendReqs := some reqs, sendBufs := some bufs, sendCount := t.sendCount + 1 }

/-- `CIRCLE_worksend_track`. -/
def worksendTrack (okReqs okBufs : Bool) (req : ρ) (buf : Option β) : Option (SendTable ρ β) :=
  match if t.sendCount = t.sendCapacity then t.grow okReqs okBufs else some t with
  | none => none
  | some t => t.record req buf

/-- The part of the loop of `CIRCLE_worksend_check` for a send that is complete. -/
def reap (i : Nat) : Option (SendTable ρ β × List (LoanEvent ρ β)) := do
  -- `MPI_Test` and `CIRCLE_free` clear the slot
  let reqs ← (← t.sendReqs).write i [none]
  let buf ← (← t.sendBufs).read i
  let bufs ← (← t.sendBufs).write i [none]
  match t.sendCount with
  | 0 => none
  | n + 1 => do
      let reqs ← reqs.write i [← reqs.read n]
      let bufs ← bufs.write i [← bufs.read n]
      return ({ t with sendReqs := some reqs, sendBufs := some bufs, sendCount := n },
        circleFree buf)

/-- The loop of `CIRCLE_worksend_check` over the slots below `i`; `flag i` is what `MPI_Test` says
of the request in slot `i`. -/
def checkLoop (flag : Nat → Bool) : Nat → SendTable ρ β →
    Option (SendTable ρ β × List (LoanEvent ρ β))
  | 0, t => some (t, [])
  | i + 1, t => do
      let req ← (← t.sendReqs).read i
      if mpiTest (flag i) req then do
        let (t, freed) ← t.reap i
        let (t, log) ← checkLoop flag i t
        return (t, req.toList.map (.test · true) ++ freed ++ log)
      else do
        let (t, log) ← checkLoop flag i t
        return (t, req.toList.map (.test · false) ++ log)

/-- `CIRCLE_worksend_check`, with what MPI and the allocator see of it. -/
def worksendCheck (flag : Nat → Bool) : Option (SendTable ρ β × List (LoanEvent ρ β)) :=
  t.checkLoop flag t.sendCount

/-- `CIRCLE_worksend_wait`.  The request of a work request has no buffer in the arrays. -/
def worksendWait : Option (SendTable ρ β × List (LoanEvent ρ β)) :=
  let t := { t with workRequestReq := none }
  if 0 < t.sendCount then do
    let reqs ← (← t.sendReqs).slice 0 t.sendCount
    let waited ← (← t.sendReqs).write 0 (List.replicate t.sendCount none)
    let bufs ← (← t.sendBufs).slice 0 t.sendCount
    let freed ← (← t.sendBufs).write 0 (List.replicate t.sendCount none)
    return ({ t with sendReqs := some waited, sendBufs := some freed, sendCount := 0 },
      reqs.flatMap (fun req => req.toList.map .wait) ++ bufs.flatMap circleFree)
  else some (t, [])

end SendTable

/-! ## Sequences of calls -/

/-- The calls, with allocation succeeding. -/
inductive SendCall (ρ β : Type) where
  | track (req : ρ) (buf : Option β)
  | check (flag : Nat → Bool)
  | wait

/-- One call.  The send that is tracked has just been posted. -/
def SendCall.apply : SendCall ρ β → SendTable ρ β →
    Option (SendTable ρ β × List (LoanEvent ρ β))
  | .track req buf, t => (t.worksendTrack true true req buf).map fun t => (t, [.post req buf])
  | .check flag, t => t.worksendCheck flag
  | .wait, t => t.worksendWait

/-- The send that a call tracks, with its buffer. -/
def SendCall.post? : SendCall ρ β → Option (ρ × Option β)
  | .track req buf => some (req, buf)
  | _ => none

/-- The number of sends outstanding after a call, where there were `n` before. -/
def SendCall.outstanding : SendCall ρ β → Nat → Nat
  | .track _ _, n => n + 1
  | .check flag, n => ((List.range n).filter fun i => !flag i).length
  | .wait, _ => 0

/-- Calls one after the other. -/
def applyCalls : List (SendCall ρ β) → SendTable ρ β →
    Option (SendTable ρ β × List (LoanEvent ρ β))
  | [], t => some (t, [])
  | call :: calls, t => do
      let (t, log) ← call.apply t
      let (t, log') ← applyCalls calls t
      return (t, log ++ log')

/-! ## The sends in the arrays -/

/-- The largest capacity that fits in an `int`. -/
def maxSends : Nat := 2 ^ 30

/-- With `n` sends outstanding, at no time during the calls are there more than `maxSends`. -/
def SendsFit : Nat → List (SendCall ρ β) → Prop
  | _, [] => True
  | n, call :: calls => call.outstanding n ≤ maxSends ∧ SendsFit (call.outstanding n) calls

namespace SendTable

/-- The first entries of the two arrays are the sends of `live`, each request next to the buffer
it was posted with. -/
structure Layout (t : SendTable ρ β) (reqs : Block (Option ρ)) (bufs : Block (Option β))
    (live : List (ρ × Option β)) : Prop where
  reqs_eq : t.sendReqs = some reqs
  bufs_eq : t.sendBufs = some bufs
  reqs_size : reqs.size = t.sendCapacity
  bufs_size : bufs.size = t.sendCapacity
  count_eq : t.sendCount = live.length
  count_le : t.sendCount ≤ t.sendCapacity
  /-- The capacity is doubled from 32 on. -/
  capacity_eq : ∃ k, k ≤ 25 ∧ t.sendCapacity = 32 * 2 ^ k
  cells : ∀ i e, live[i]? = some e → reqs.cell i = some e.1 ∧ bufs.cell i = e.2

/-- The table tracks the sends of `live`.  The arrays are not allocated before the first send. -/
def Tracks (t : SendTable ρ β) (live : List (ρ × Option β)) : Prop :=
  (t.sendReqs = none ∧ t.sendBufs = none ∧ t.sendCount = 0 ∧ t.sendCapacity = 0 ∧ live = []) ∨
    ∃ reqs bufs, t.Layout reqs bufs live

variable {t : SendTable ρ β} {reqs : Block (Option ρ)} {bufs : Block (Option β)}
  {live done rest : List (ρ × Option β)} {e : ρ × Option β}

theorem tracks_init (req : Option ρ) : (init req : SendTable ρ β).Tracks [] :=
  .inl ⟨rfl, rfl, rfl, rfl, rfl⟩

theorem Layout.tracks (h : t.Layout reqs bufs live) : t.Tracks live := .inr ⟨_, _, h⟩

theorem Tracks.count_eq (h : t.Tracks live) : t.sendCount = live.length := by
  rcases h with ⟨_, _, hcount, _, rfl⟩ | ⟨_, _, h⟩
  · exact hcount
  · exact h.count_eq

theorem Tracks.count_le (h : t.Tracks live) : t.sendCount ≤ t.sendCapacity := by
  rcases h with ⟨_, _, hcount, _, _⟩ | ⟨_, _, h⟩
  · exact hcount ▸ Nat.zero_le _
  · exact h.count_le

theorem Layout.capacity_le (h : t.Layout reqs bufs live) : t.sendCapacity ≤ maxSends := by
  obtain ⟨k, hk, hcap⟩ := h.capacity_eq
  rw [hcap]
  exact Nat.mul_le_mul_left 32 (Nat.pow_le_pow_right (by decide) hk)

theorem Tracks.length_le (h : t.Tracks live) : live.length ≤ maxSends := by
  rcases h with ⟨_, _, _, _, rfl⟩ | ⟨_, _, h⟩
  · exact Nat.zero_le _
  · exact h.count_eq ▸ h.count_le.trans h.capacity_le

/-! ## Tracking -/

/-- The arrays are doubled. -/
theorem Tracks.grow (h : t.Tracks live) (hfull : t.sendCount = t.sendCapacity)
    (hlt : live.length < maxSends) :
    ∃ t' reqs bufs, t.grow true true = some t' ∧ t'.Layout reqs bufs live ∧
      t'.sendCount < t'.sendCapacity := by
  rcases h with ⟨hreqs, hbufs, hcount, hcap, rfl⟩ | ⟨reqs, bufs, h⟩
  · refine ⟨{ t with
      sendReqs := some ⟨32, fun _ => default⟩
      sendBufs := some ⟨32, fun _ => default⟩
      sendCapacity := 32 }, _, _, ?_, ⟨rfl, rfl, rfl, rfl, hcount, ?_, ⟨0, by decide, rfl⟩, ?_⟩,
      ?_⟩
    · simp [SendTable.grow, hreqs, hbufs, hcap, realloc, int32Max]
    · exact hcount ▸ Nat.zero_le _
    · intro i e he
      cases he
    · change t.sendCount < 32
      rw [hcount]
      decide
  · obtain ⟨k, hk, hcap⟩ := h.capacity_eq
    have hpow : 2 ^ k < 2 ^ 25 := by
      have : maxSends = 32 * 2 ^ 25 := rfl
      have := h.count_eq
      omega
    have hk : k < 25 := (Nat.pow_lt_pow_iff_right (by decide)).mp hpow
    have hpos : 0 < t.sendCapacity := hcap ▸ Nat.mul_pos (by decide) (Nat.two_pow_pos k)
    have hint : ¬int32Max < t.sendCapacity * 2 := by
      have : int32Max = 2 ^ 31 - 1 := rfl
      omega
    refine ⟨{ t with
      sendReqs := some (reqs.resize (t.sendCapacity * 2))
      sendBufs := some (bufs.resize (t.sendCapacity * 2))
      sendCapacity := t.sendCapacity * 2 }, _, _, ?_, ⟨rfl, rfl, rfl, rfl, h.count_eq, ?_,
      ⟨k + 1, hk, ?_⟩, h.cells⟩, ?_⟩
    · simp only [SendTable.grow, hpos, if_true, hint, if_false, h.reqs_eq, h.bufs_eq, realloc]
      rfl
    · exact h.count_le.trans (Nat.le_mul_of_pos_right _ (by decide))
    · change t.sendCapacity * 2 = _
      rw [hcap, Nat.pow_succ, Nat.mul_assoc]
    · change t.sendCount < t.sendCapacity * 2
      omega

/-- A send is recorded behind the others. -/
theorem Layout.record (h : t.Layout reqs bufs live) (hlt : t.sendCount < t.sendCapacity)
    (req : ρ) (buf : Option β) :
    ∃ t', t.record req buf = some t' ∧ t'.Tracks (live ++ [(req, buf)]) := by
  have hreqs : t.sendCount + [some req].length ≤ reqs.size := h.reqs_size ▸ hlt
  have hbufs : t.sendCount + [buf].length ≤ bufs.size := h.bufs_size ▸ hlt
  refine ⟨{ t with
    sendReqs := some ⟨reqs.size, overwrite reqs.cell t.sendCount [some req]⟩
    sendBufs := some ⟨bufs.size, overwrite bufs.cell t.sendCount [buf]⟩
    sendCount := t.sendCount + 1 }, ?_, Layout.tracks ⟨rfl, rfl, h.reqs_size, h.bufs_size, ?_, hlt,
      h.capacity_eq, fun i e he => ?_⟩⟩
  · simp only [SendTable.record, h.reqs_eq, h.bufs_eq, Block.write_of_le hreqs,
      Block.write_of_le hbufs, Option.bind_eq_bind, Option.bind_some]
    rfl
  · rw [List.length_append, h.count_eq, List.length_singleton]
  · change overwrite reqs.cell t.sendCount [some req] i = _ ∧
      overwrite bufs.cell t.sendCount [buf] i = _
    rw [overwrite_singleton, overwrite_singleton, h.count_eq]
    rcases Nat.lt_trichotomy i live.length with hi | rfl | hi
    · rw [List.getElem?_append_left hi] at he
      rw [Function.update_of_ne hi.ne, Function.update_of_ne hi.ne]
      exact h.cells i e he
    · rw [List.getElem?_concat_length, Option.some.injEq] at he
      rw [← he, Function.update_self, Function.update_self]
      exact ⟨rfl, rfl⟩
    · rw [List.getElem?_eq_none (by rw [List.length_append, List.length_singleton]; omega)] at he
      cases he

theorem Tracks.worksendTrack (h : t.Tracks live) (hlt : live.length < maxSends) (req : ρ)
    (buf : Option β) :
    ∃ t', t.worksendTrack true true req buf = some t' ∧ t'.Tracks (live ++ [(req, buf)]) := by
  obtain ⟨t₁, reqs, bufs, ht, h₁, hroom⟩ : ∃ t₁ reqs bufs,
      (if t.sendCount = t.sendCapacity then t.grow true true else some t) = some t₁ ∧
        t₁.Layout reqs bufs live ∧ t₁.sendCount < t₁.sendCapacity := by
    split
    next hfull => exact h.grow hfull hlt
    next hroom =>
      have hle := h.count_le
      rcases h with ⟨_, _, hcount, hcap, _⟩ | ⟨reqs, bufs, h⟩
      · exact absurd (hcount.trans hcap.symm) hroom
      · exact ⟨t, reqs, bufs, rfl, h, Nat.lt_of_le_of_ne hle hroom⟩
  obtain ⟨t', ht', h'⟩ := h₁.record hroom req buf
  refine ⟨t', ?_, h'⟩
  rw [SendTable.worksendTrack, ht]
  exact ht'

/-- A capacity of `2 ^ 31` does not fit in an `int`. -/
theorem Tracks.worksendTrack_full (h : t.Tracks live) (hfull : live.length = maxSends) (req : ρ)
    (buf : Option β) : t.worksendTrack true true req buf = none := by
  have hcount := h.count_eq
  have hle := h.count_le
  have hcap : t.sendCapacity = maxSends := by
    rcases h with ⟨_, _, _, _, rfl⟩ | ⟨_, _, h⟩
    · cases hfull
    · have := h.capacity_le
      omega
  have hgrow : t.grow true true = none := by
    rw [SendTable.grow, hcap]
    rfl
  rw [SendTable.worksendTrack, if_pos (by omega), hgrow]

/-! ## Checking -/

theorem entry_middle (done rest : List (ρ × Option β)) (e : ρ × Option β) :
    (done ++ e :: rest)[done.length]? = some e := by
  rw [List.getElem?_append_right (Nat.le_refl _), Nat.sub_self, List.getElem?_cons_zero]

/-- The list after the last entry has been moved into the slot in front of `rest`. -/
theorem swap_last (done rest : List (ρ × Option β)) (e : ρ × Option β) :
    ∃ rest' : List (ρ × Option β), rest'.Perm rest ∧ ∀ i x, (done ++ rest')[i]? = some x →
      if i = done.length then (done ++ e :: rest)[done.length + rest.length]? = some x ∧ rest ≠ []
      else (done ++ e :: rest)[i]? = some x := by
  rcases List.eq_nil_or_concat rest with rfl | ⟨rest, y, rfl⟩
  · refine ⟨[], .refl _, fun i x hx => ?_⟩
    rw [List.append_nil] at hx
    have hi : i < done.length := (List.getElem?_eq_some_iff.mp hx).1
    rwa [if_neg hi.ne, List.getElem?_append_left hi]
  · rw [List.concat_eq_append]
    refine ⟨y :: rest, (List.perm_append_singleton y rest).symm, fun i x hx => ?_⟩
    split
    next hi =>
      rw [hi, List.getElem?_append_right (Nat.le_refl _), Nat.sub_self,
        List.getElem?_cons_zero] at hx
      refine ⟨?_, by simp⟩
      rw [List.getElem?_append_right (Nat.le_add_right ..), Nat.add_sub_cancel_left,
        List.length_append, List.length_singleton, List.getElem?_cons_succ,
        List.getElem?_concat_length]
      exact hx
    next hi =>
      rcases Nat.lt_or_gt_of_ne hi with hlt | hgt
      · rwa [List.getElem?_append_left hlt] at hx ⊢
      · obtain ⟨j, rfl⟩ : ∃ j, i = done.length + (j + 1) := ⟨i - done.length - 1, by omega⟩
        rw [List.getElem?_append_right (Nat.le_add_right ..), Nat.add_sub_cancel_left,
          List.getElem?_cons_succ] at hx ⊢
        have hj : j < rest.length := (List.getElem?_eq_some_iff.mp hx).1
        rwa [List.getElem?_append_left hj]

/-- The array once the entry `n` has been moved into the slot `i`, which has been cleared. -/
def moved {α : Type} (b : Block (Option α)) (i n : Nat) : Block (Option α) where
  size := b.size
  cell j := if j = i then if n = i then none else b.cell n else b.cell j

theorem moved_eq {α : Type} (b : Block (Option α)) (i n : Nat) :
    Block.mk b.size (overwrite (overwrite b.cell i [none]) i [overwrite b.cell i [none] n]) =
      moved b i n := by
  rw [overwrite_singleton, overwrite_singleton, moved, Block.mk.injEq]
  refine ⟨rfl, funext fun j => ?_⟩
  by_cases hj : j = i
  · rw [hj, Function.update_self, if_pos rfl, Function.update_apply]
  · rw [if_neg hj, Function.update_of_ne hj, Function.update_of_ne hj]

/-- A send that is complete is removed, and its buffer is freed. -/
theorem Layout.reap (h : t.Layout reqs bufs (done ++ e :: rest)) :
    ∃ t' reqs' bufs' rest', t.reap done.length = some (t', circleFree e.2) ∧ rest'.Perm rest ∧
      t'.Layout reqs' bufs' (done ++ rest') := by
  have hcount : t.sendCount = done.length + rest.length + 1 := by
    rw [h.count_eq, List.length_append, List.length_cons, Nat.add_assoc]
  have hle := h.count_le
  have hreqs := h.reqs_size
  have hbufs := h.bufs_size
  have hwrite : ∀ {γ : Type} (b : Block γ) (x : γ), b.size = t.sendCapacity →
      b.write done.length [x] = some ⟨b.size, overwrite b.cell done.length [x]⟩ :=
    fun b x hb => Block.write_of_le (by rw [List.length_singleton]; omega)
  have hread : ∀ {γ : Type} (b : Block γ) (j : Nat), b.size = t.sendCapacity →
      j ≤ done.length + rest.length → b.read j = some (b.cell j) :=
    fun b j hb hj => Block.read_of_lt (by omega)
  have hbuf : bufs.cell done.length = e.2 :=
    (h.cells done.length e (entry_middle done rest e)).2
  obtain ⟨rest', hperm, hswap⟩ := swap_last done rest e
  refine ⟨{ t with
    sendReqs := some (moved reqs done.length (done.length + rest.length))
    sendBufs := some (moved bufs done.length (done.length + rest.length))
    sendCount := done.length + rest.length }, _, _, rest', ?_, hperm,
    ⟨rfl, rfl, hreqs, hbufs, ?_, by change done.length + rest.length ≤ t.sendCapacity; omega,
      h.capacity_eq, fun i x hx => ?_⟩⟩
  · simp only [SendTable.reap, h.reqs_eq, h.bufs_eq, Option.bind_eq_bind, Option.bind_some, hcount,
      hwrite reqs none hreqs, hwrite bufs none hbufs, hread bufs _ hbufs (Nat.le_add_right ..),
      hread ⟨reqs.size, overwrite reqs.cell done.length [none]⟩ _ hreqs (Nat.le_refl _),
      hread ⟨bufs.size, overwrite bufs.cell done.length [none]⟩ _ hbufs (Nat.le_refl _)]
    rw [hwrite ⟨reqs.size, overwrite reqs.cell done.length [none]⟩ _ hreqs,
      hwrite ⟨bufs.size, overwrite bufs.cell done.length [none]⟩ _ hbufs, hbuf, ← moved_eq,
      ← moved_eq]
    rfl
  · rw [List.length_append, hperm.length_eq]
  · have hx := hswap i x hx
    simp only [moved]
    split at hx
    next hi =>
      have hne : ¬done.length + rest.length = done.length := by
        have := List.length_pos_iff.mpr hx.2
        omega
      rw [if_pos hi, if_pos hi, if_neg hne, if_neg hne]
      exact h.cells _ x hx.1
    next hi =>
      rw [if_neg hi, if_neg hi]
      exact h.cells i x hx

/-- The sends of `live` that a check does not find complete. -/
def kept (flag : Nat → Bool) (live : List (ρ × Option β)) : List (ρ × Option β) :=
  (live.zipIdx.filter fun e => !flag e.2).map Prod.fst

/-- What a check of the sends of `live` does: it tests each send once, the last first. -/
def reapLog (flag : Nat → Bool) (live : List (ρ × Option β)) : List (LoanEvent ρ β) :=
  live.zipIdx.reverse.flatMap fun e =>
    .test e.1.1 (flag e.2) :: if flag e.2 then circleFree e.1.2 else []

variable {flag : Nat → Bool}

theorem kept_concat : kept flag (live ++ [e]) =
    kept flag live ++ if flag live.length then [] else [e] := by
  cases hflag : flag live.length <;>
    simp [kept, List.zipIdx_append, List.filter_append, hflag]

theorem reapLog_concat : reapLog flag (live ++ [e]) =
    .test e.1 (flag live.length) :: (if flag live.length then circleFree e.2 else []) ++
      reapLog flag live := by
  simp [reapLog, List.zipIdx_append]

theorem length_kept (live : List (ρ × Option β)) :
    (kept flag live).length = ((List.range live.length).filter fun i => !flag i).length := by
  induction live using List.reverseRecOn with
  | nil => rfl
  | append_singleton live e ih =>
      rw [kept_concat, List.length_append, ih, List.length_append, List.length_singleton,
        List.range_succ, List.filter_append, List.length_append]
      cases hflag : flag live.length <;> simp [hflag]

theorem kept_sublist (flag : Nat → Bool) (live : List (ρ × Option β)) :
    (kept flag live).Sublist live := by
  have h := (List.filter_sublist (p := fun e => !flag e.2) (l := live.zipIdx)).map Prod.fst
  rwa [List.zipIdx_map_fst] at h

/-- The loop visits the slots from the last to the first. -/
theorem Layout.checkLoop (h : t.Layout reqs bufs (done ++ rest)) :
    ∃ t' reqs' bufs' live', t.checkLoop flag done.length = some (t', reapLog flag done) ∧
      live'.Perm (kept flag done ++ rest) ∧ t'.Layout reqs' bufs' live' := by
  induction done using List.reverseRecOn generalizing t reqs bufs rest with
  | nil => exact ⟨t, reqs, bufs, rest, rfl, .refl _, h⟩
  | append_singleton done e ih =>
      rw [List.append_assoc, List.singleton_append] at h
      have hsize : done.length < reqs.size := by
        have := h.count_eq
        have := h.count_le
        have := h.reqs_size
        simp only [List.length_append, List.length_cons] at *
        omega
      have hreq : reqs.read done.length = some (some e.1) := by
        rw [Block.read_of_lt hsize]
        exact congrArg some (h.cells done.length e (entry_middle done rest e)).1
      rw [List.length_append, List.length_singleton, reapLog_concat, kept_concat]
      simp only [SendTable.checkLoop, h.reqs_eq, hreq, Option.bind_eq_bind, Option.bind_some,
        mpiTest]
      cases hflag : flag done.length with
      | false =>
          obtain ⟨t', reqs', bufs', live', hloop, hperm, h'⟩ := ih h
          refine ⟨t', reqs', bufs', live', ?_, ?_, h'⟩
          · simp only [Bool.false_eq_true, if_false, hloop, Option.bind_some]
            rfl
          · rw [if_neg Bool.false_ne_true, List.append_assoc, List.singleton_append]
            exact hperm
      | true =>
          obtain ⟨t₁, reqs₁, bufs₁, rest', hreap, hrest, h₁⟩ := h.reap
          obtain ⟨t', reqs', bufs', live', hloop, hperm, h'⟩ := ih h₁
          refine ⟨t', reqs', bufs', live', ?_, ?_, h'⟩
          · simp only [if_true, hreap, hloop, Option.bind_some]
            rfl
          · rw [if_pos rfl, List.append_nil]
            exact hperm.trans (hrest.append_left _)

/-- A check removes exactly the sends it finds complete. -/
theorem Tracks.worksendCheck (h : t.Tracks live) (flag : Nat → Bool) :
    ∃ t' live', t.worksendCheck flag = some (t', reapLog flag live) ∧
      live'.Perm (kept flag live) ∧ t'.Tracks live' := by
  rw [SendTable.worksendCheck, h.count_eq]
  rcases id h with ⟨_, _, _, _, rfl⟩ | ⟨reqs, bufs, h⟩
  · exact ⟨t, [], rfl, .refl _, h⟩
  · have h : t.Layout reqs bufs (live ++ []) := by rwa [List.append_nil]
    obtain ⟨t', reqs', bufs', live', hloop, hperm, h'⟩ := h.checkLoop
    rw [List.append_nil] at hperm
    exact ⟨t', live', hloop, hperm, h'.tracks⟩

/-! ## Waiting -/

/-- What a wait does: all requests are complete, and then the buffers are freed. -/
def waitLog (live : List (ρ × Option β)) : List (LoanEvent ρ β) :=
  (live.map fun e => .wait e.1) ++ (Loans.bufs live).map .free

theorem waitLog_eq (live : List (ρ × Option β)) :
    waitLog live = (live.map fun e => some e.1).flatMap (fun req => req.toList.map .wait) ++
      (live.map Prod.snd).flatMap circleFree := by
  have hbufs : (Loans.bufs live).map LoanEvent.free =
      (live.map Prod.snd).flatMap fun b => (circleFree b : List (LoanEvent ρ β)) := by
    induction live with
    | nil => rfl
    | cons e live ih =>
        obtain ⟨r, b⟩ := e
        cases b <;> simp_all [Loans.bufs, circleFree]
  rw [← hbufs, waitLog, List.flatMap_map]
  congr 1
  exact (List.map_eq_flatMap ..)

theorem Layout.slices (h : t.Layout reqs bufs live) :
    reqs.slice 0 live.length = some (live.map fun e => some e.1) ∧
      bufs.slice 0 live.length = some (live.map Prod.snd) := by
  have hle : 0 + live.length ≤ t.sendCapacity := by
    rw [Nat.zero_add, ← h.count_eq]
    exact h.count_le
  rw [Block.slice_of_le (h.reqs_size ▸ hle), Block.slice_of_le (h.bufs_size ▸ hle)]
  refine ⟨congrArg some (List.ext_getElem (by simp) fun i hi _ => ?_),
    congrArg some (List.ext_getElem (by simp) fun i hi _ => ?_)⟩
  all_goals
    rw [List.length_map, List.length_range] at hi
    rw [List.getElem_map, List.getElem_map, List.getElem_range, Nat.zero_add]
  · exact (h.cells i live[i] (List.getElem?_eq_getElem hi)).1
  · exact (h.cells i live[i] (List.getElem?_eq_getElem hi)).2

/-- After a wait nothing is tracked. -/
theorem Tracks.worksendWait (h : t.Tracks live) :
    ∃ t', t.worksendWait = some (t', waitLog live) ∧ t'.Tracks [] := by
  have hcount := h.count_eq
  have hcap := h.count_le
  cases live with
  | nil =>
      refine ⟨{ t with workRequestReq := none }, ?_, ?_⟩
      · have hzero : ¬0 < t.sendCount := by
          rw [hcount]
          exact Nat.lt_irrefl 0
        simp only [SendTable.worksendWait, hzero, if_false]
        rfl
      · rcases h with h | ⟨reqs, bufs, h⟩
        · exact .inl h
        · exact .inr ⟨reqs, bufs, { h with }⟩
  | cons e live =>
      rcases h with ⟨_, _, _, _, hnil⟩ | ⟨reqs, bufs, h⟩
      · cases hnil
      · obtain ⟨hreqs, hbufs⟩ := h.slices
        have hle : 0 + t.sendCount ≤ t.sendCapacity := by rwa [Nat.zero_add]
        have hwrite : ∀ {γ : Type} (b : Block (Option γ)), b.size = t.sendCapacity →
            b.write 0 (List.replicate t.sendCount none) =
              some ⟨b.size, overwrite b.cell 0 (List.replicate t.sendCount none)⟩ :=
          fun b hb => Block.write_of_le (by rw [List.length_replicate, hb]; exact hle)
        have hpos : 0 < t.sendCount := hcount ▸ Nat.succ_pos _
        rw [← hcount] at hreqs hbufs
        refine ⟨{ t with
          sendReqs := some ⟨reqs.size, overwrite reqs.cell 0 (List.replicate t.sendCount none)⟩
          sendBufs := some ⟨bufs.size, overwrite bufs.cell 0 (List.replicate t.sendCount none)⟩
          sendCount := 0
          workRequestReq := none }, ?_, Layout.tracks ⟨rfl, rfl, h.reqs_size, h.bufs_size, rfl,
            Nat.zero_le _, h.capacity_eq, fun i x hx => by cases hx⟩⟩
        simp only [SendTable.worksendWait, hpos, if_true, h.reqs_eq, h.bufs_eq, hreqs, hbufs,
          hwrite reqs h.reqs_size, hwrite bufs h.bufs_size, Option.bind_eq_bind, Option.bind_some,
          waitLog_eq]
        rfl

end SendTable

/-! ## The calls return the buffers -/

namespace SendTable

variable {t : SendTable ρ β} {live : List (ρ × Option β)} {flag : Nat → Bool}

/-- A check frees the buffers of the sends it removes, each after the send is complete. -/
theorem path_reapLog (flag : Nat → Bool) (live : List (ρ × Option β))
    (p : Multiset (ρ × Option β)) :
    LabelledPath Loans.Step (⟨↑live + p, 0⟩ : Loans ρ β) (reapLog flag live)
      ⟨↑(kept flag live) + p, 0⟩ := by
  induction live using List.reverseRecOn generalizing p with
  | nil => exact .nil _
  | append_singleton live e ih =>
      obtain ⟨r, b⟩ := e
      have hconcat : ∀ l : List (ρ × Option β),
          (↑(l ++ [(r, b)]) : Multiset (ρ × Option β)) + p = ↑l + (r, b) ::ₘ p := by
        intro l
        rw [← Multiset.coe_add, Multiset.coe_singleton, add_assoc, Multiset.singleton_add]
      rw [reapLog_concat, kept_concat, hconcat]
      cases flag live.length with
      | false =>
          rw [if_neg Bool.false_ne_true, if_neg Bool.false_ne_true, hconcat]
          refine .cons (.pending (b := b) ?_) (ih _)
          rw [Multiset.add_cons]
          exact Multiset.mem_cons_self _ _
      | true =>
          rw [if_pos rfl, if_pos rfl, List.append_nil, Multiset.add_cons]
          exact (Loans.path_reap r b).append (ih p)

/-- A wait frees the buffers of all sends after all are complete. -/
theorem path_waitLog : LabelledPath Loans.Step (⟨live, 0⟩ : Loans ρ β) (waitLog live) ⟨0, 0⟩ := by
  have hwait : LabelledPath Loans.Step (⟨live, 0⟩ : Loans ρ β) (live.map fun e => .wait e.1)
      ⟨0, ↑(Loans.bufs live) + 0⟩ := Loans.path_wait
  exact hwait.append (Loans.path_free (Loans.bufs live))

theorem post_reapLog (live : List (ρ × Option β)) :
    (reapLog flag live).filterMap LoanEvent.post? = [] := by
  rw [List.filterMap_eq_nil_iff]
  intro ev hev
  obtain ⟨e, _, hev⟩ := List.mem_flatMap.mp hev
  rcases List.mem_cons.mp hev with rfl | hev
  · rfl
  · split at hev
    next =>
      obtain ⟨b, _, rfl⟩ := List.mem_map.mp hev
      rfl
    next => cases hev

theorem post_waitLog (live : List (ρ × Option β)) :
    (waitLog live).filterMap LoanEvent.post? = [] := by
  rw [List.filterMap_eq_nil_iff]
  intro ev hev
  rcases List.mem_append.mp hev with hev | hev
  · obtain ⟨e, _, rfl⟩ := List.mem_map.mp hev
    rfl
  · obtain ⟨b, _, rfl⟩ := List.mem_map.mp hev
    rfl

end SendTable

/-! ## All sequences of calls -/

variable {t : SendTable ρ β} {live : List (ρ × Option β)}

/-- A call keeps track of the sends, unless they are too many. -/
theorem SendCall.apply_eq (h : t.Tracks live) (call : SendCall ρ β)
    (hfit : call.outstanding live.length ≤ maxSends) :
    ∃ t' log live', call.apply t = some (t', log) ∧ t'.Tracks live' ∧
      live'.length = call.outstanding live.length ∧
      LabelledPath Loans.Step (⟨live, 0⟩ : Loans ρ β) log ⟨live', 0⟩ ∧
      log.filterMap LoanEvent.post? = call.post?.toList := by
  cases call with
  | track req buf =>
      obtain ⟨t', ht', h'⟩ := h.worksendTrack hfit req buf
      refine ⟨t', _, _, by rw [SendCall.apply, ht', Option.map_some], h', by simp [outstanding], ?_,
        rfl⟩
      have hlast : (↑(live ++ [(req, buf)]) : Multiset (ρ × Option β)) = (req, buf) ::ₘ live := by
        rw [← Multiset.coe_add, Multiset.coe_singleton, add_comm, Multiset.singleton_add]
      rw [hlast]
      exact .cons (.post req buf _ _) (.nil _)
  | check flag =>
      obtain ⟨t', live', ht', hperm, h'⟩ := h.worksendCheck flag
      have hpath := SendTable.path_reapLog flag live 0
      rw [add_zero, add_zero, ← Multiset.coe_eq_coe.mpr hperm] at hpath
      refine ⟨t', _, live', ht', h', ?_, hpath, ?_⟩
      · rw [hperm.length_eq, SendTable.length_kept]
        rfl
      · exact SendTable.post_reapLog live
  | wait =>
      obtain ⟨t', ht', h'⟩ := h.worksendWait
      exact ⟨t', _, [], ht', h', rfl, SendTable.path_waitLog, SendTable.post_waitLog live⟩

theorem SendCall.apply_eq_none (h : t.Tracks live) (call : SendCall ρ β)
    (hfit : ¬call.outstanding live.length ≤ maxSends) : call.apply t = none := by
  have hle := h.length_le
  cases call with
  | track req buf =>
      have hfull : live.length = maxSends := Nat.le_antisymm hle (by
        simp only [outstanding] at hfit
        omega)
      rw [SendCall.apply, h.worksendTrack_full hfull, Option.map_none]
  | check flag =>
      refine absurd ?_ hfit
      exact (List.length_filter_le _ _).trans ((List.length_range).trans_le hle)
  | wait => exact absurd (Nat.zero_le _) hfit

theorem applyCalls_eq (h : t.Tracks live) (calls : List (SendCall ρ β))
    (hfit : SendsFit live.length calls) :
    ∃ t' log live', applyCalls calls t = some (t', log) ∧ t'.Tracks live' ∧
      LabelledPath Loans.Step (⟨live, 0⟩ : Loans ρ β) log ⟨live', 0⟩ ∧
      log.filterMap LoanEvent.post? = calls.filterMap SendCall.post? := by
  induction calls generalizing t live with
  | nil => exact ⟨t, [], live, rfl, h, .nil _, rfl⟩
  | cons call calls ih =>
      obtain ⟨t₁, log₁, live₁, hcall, h₁, hlen, hpath₁, hpost₁⟩ := call.apply_eq h hfit.1
      obtain ⟨t', log', live', hcalls, h', hpath', hpost'⟩ := ih h₁ (hlen ▸ hfit.2)
      refine ⟨t', log₁ ++ log', live', ?_, h', hpath₁.append hpath', ?_⟩
      · simp only [applyCalls, hcall, hcalls, Option.bind_eq_bind, Option.bind_some]
        rfl
      · rw [List.filterMap_append, hpost₁, hpost', List.filterMap_cons]
        cases call.post? <;> rfl

theorem applyCalls_eq_none (h : t.Tracks live) (calls : List (SendCall ρ β))
    (hfit : ¬SendsFit live.length calls) : applyCalls calls t = none := by
  induction calls generalizing t live with
  | nil => exact absurd trivial hfit
  | cons call calls ih =>
      rw [SendsFit, not_and_or] at hfit
      by_cases hcall : call.outstanding live.length ≤ maxSends
      · obtain ⟨t₁, log₁, live₁, hcall', h₁, hlen, _⟩ := call.apply_eq h hcall
        have hfit : ¬SendsFit live₁.length calls := by
          rw [hlen]
          exact hfit.resolve_left (not_not_intro hcall)
        simp only [applyCalls, hcall', ih h₁ hfit, Option.bind_eq_bind, Option.bind_some,
          Option.bind_none]
      · simp only [applyCalls, call.apply_eq_none h hcall, Option.bind_eq_bind, Option.bind_none]

/-- After the calls the arrays have exactly the sends that have been posted and not been found
complete; no buffer has been freed twice, or before its send was complete, or lost; a check would
test each send once and remove exactly those it finds complete; a wait would remove all. -/
def SendsTracked (req : Option ρ) (calls : List (SendCall ρ β)) : Prop :=
  ∃ t log live, applyCalls calls (.init req) = some (t, log) ∧ t.Tracks live ∧
    t.sendCount ≤ t.sendCapacity ∧ log.filterMap LoanEvent.post? = calls.filterMap SendCall.post? ∧
    LabelledPath Loans.Step (⟨0, 0⟩ : Loans ρ β) log ⟨live, 0⟩ ∧
    (log.map Loans.freed).sum + ↑(Loans.bufs live) = (log.map Loans.posted).sum ∧
    (∀ flag, ∃ t' live', t.worksendCheck flag = some (t', SendTable.reapLog flag live) ∧
      live'.Perm (SendTable.kept flag live) ∧ t'.Tracks live') ∧
    ∃ t', t.worksendWait = some (t', SendTable.waitLog live) ∧ t'.Tracks []

/-- Sends are tracked exactly as long as there are not more than `maxSends`. -/
theorem sends_tracked_iff (req : Option ρ) (calls : List (SendCall ρ β)) :
    SendsTracked req calls ↔ SendsFit 0 calls := by
  have hinit : (SendTable.init req : SendTable ρ β).Tracks [] := SendTable.tracks_init req
  constructor
  · rintro ⟨t, log, live, hcalls, _⟩
    by_contra hfit
    rw [applyCalls_eq_none hinit calls hfit] at hcalls
    cases hcalls
  · intro hfit
    obtain ⟨t, log, live, hcalls, h, hpath, hpost⟩ := applyCalls_eq hinit calls hfit
    refine ⟨t, log, live, hcalls, h, h.count_le, hpost, hpath, ?_, h.worksendCheck,
      h.worksendWait⟩
    rw [← Loans.lent_coe, Loans.freed_add_lent hpath]
    exact add_zero _

theorem not_sendsFit (r : ρ) (b : Option β) {n m : Nat} (hn : n ≤ maxSends)
    (hm : maxSends < n + m) : ¬SendsFit n (List.replicate m (SendCall.track r b)) := by
  induction m generalizing n with
  | zero => omega
  | succ m ih =>
      rintro ⟨hle, hfit⟩
      exact ih hle (by rw [SendCall.outstanding]; omega) hfit

/-- The calls that track `2 ^ 30 + 1` sends and find none complete. -/
theorem sends_tracked_fails :
    ¬SendsTracked (none : Option Unit)
      (List.replicate (maxSends + 1) (SendCall.track () (none : Option Unit))) := by
  rintro ⟨t, log, live, hcalls, _⟩
  have hfit : ¬SendsFit 0 (List.replicate (maxSends + 1) (SendCall.track () none)) :=
    not_sendsFit () (none : Option Unit) (Nat.zero_le _) (by omega)
  rw [applyCalls_eq_none (SendTable.tracks_init none) _ hfit] at hcalls
  cases hcalls

end Libcircle
