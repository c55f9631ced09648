import Libcircle.Queue.Checkpoint

/-!
# What a failure leaves behind

A checkpoint takes an item off the queue before it prints it.  When the print
fails the item is in neither place, and when `fclose` fails the queue is empty
already (`write_saves_iff`).

A push stores what `realloc` returns in the queue before it looks at it, so a
failure of `realloc` loses the block, and with it the items (`push_keeps_iff`).
-/

namespace Libcircle

namespace Queue

variable {q q' : Queue} {l : List Item} {s : Item} {files : Files} {rank : Int}

/-! ## Writing -/

section Write

variable {env : WriteEnv}

/-- The call reaches `fclose`. -/
def Closes (q : Queue) (env : WriteEnv) : Prop :=
  q.count ≠ 0 ∧ env.fopen = true ∧ ∀ i, i < q.count → env.fprintf i = true

/-- A checkpoint of the items of `l` loses none: each is still in the queue, or its line is in the
file, and after a failed `fclose` all are in the queue. -/
def WriteSaves (q : Queue) (env : WriteEnv) (files : Files) (rank : Int) (l : List Item) : Prop :=
  ∃ ok files' q' saved kept, q.write env files rank = some (ok, files', q') ∧
    l.Perm (saved ++ kept) ∧ q'.Holds kept ∧
    (saved ≠ [] → ∃ text, files' (filename rank) = some text ∧ checkpoint saved <:+: text) ∧
    (q.Closes env → env.fclose ≠ none → q'.Holds l)

theorem length_checkpoint {k : List Item} (h : k.Perm l) :
    (checkpoint k).length = (checkpoint l).length := by
  have hperm : (k.map CStr.chars).Perm (l.map CStr.chars) := h.map _
  exact (hperm.flatMap_right _).length_eq

/-- An item that could not be printed is in neither place. -/
theorem not_saved {done rest saved kept : List Item} (h : q.Holds rest)
    (h' : q.Holds kept) (hperm : (done ++ s :: rest).Perm (saved ++ kept))
    (hpart : checkpoint saved <:+: checkpoint done) : False := by
  obtain rfl := h.unique h'
  have happend : done ++ s :: rest = (done ++ [s]) ++ rest := by simp
  rw [happend, List.perm_append_right_iff] at hperm
  have hlen := length_checkpoint hperm
  have hle := hpart.length_le
  have hcheckpoint : (checkpoint (done ++ [s])).length =
      (checkpoint done).length + (s.length + 1) := by
    simp [checkpoint, Lines.join, CStr.length]
  omega

/-- A write that finds no failure saves all items. -/
theorem Holds.write_ok (h : q.Holds l) (hl : l ≠ []) (hopen : env.fopen = true)
    (hprint : ∀ i, i < l.length → env.fprintf i = true) (hclose : env.fclose = none) :
    q.WriteSaves env files rank l := by
  have hcount : q.count ≠ 0 := by
    rw [h.count_eq]
    exact fun h0 => hl (List.length_eq_zero_iff.mp h0)
  obtain ⟨q', hloop, h', _⟩ | ⟨done, t, rest, q', rfl, _, _, hfail⟩ :=
    h.writeLoop_cases env 0 []
  · refine ⟨true, Function.update files (filename rank) (some (checkpoint l)), q', l, [], ?_,
      by simp, h',
      fun _ => ⟨checkpoint l, Function.update_self .., List.infix_rfl⟩,
      fun _ hne => absurd hclose hne⟩
    rw [Queue.write, if_neg hcount, if_neg (by simp [hopen]), h.count_eq, hloop]
    simp only [hclose, List.nil_append]
  · have hok := hprint done.length (by simp)
    rw [Nat.zero_add, hok] at hfail
    cases hfail

/-- A write that fails after `fopen` loses an item. -/
theorem Holds.fprintf_of_saves (h : q.Holds l) (hl : l ≠ []) (hopen : env.fopen = true)
    (hsaves : q.WriteSaves env files rank l) :
    (∀ i, i < l.length → env.fprintf i = true) ∧ env.fclose = none := by
  obtain ⟨ok, files', q', saved, kept, hwrite, hperm, hkept, hsaved, hclosed⟩ := hsaves
  have hcount : q.count ≠ 0 := by
    rw [h.count_eq]
    exact fun h0 => hl (List.length_eq_zero_iff.mp h0)
  rw [Queue.write, if_neg hcount, if_neg (by simp [hopen]), h.count_eq] at hwrite
  obtain ⟨q'', hloop, h'', hall⟩ | ⟨done, t, rest, q'', rfl, hloop, h'', _⟩ :=
    h.writeLoop_cases env 0 []
  · have hall : ∀ i, i < l.length → env.fprintf i = true := fun i hi =>
      Nat.zero_add i ▸ hall i hi
    refine ⟨hall, ?_⟩
    cases hclose : env.fclose with
    | none => rfl
    | some n =>
        -- all items are popped by the time `fclose` fails
        simp only [hloop, hclose, Option.some.injEq, Prod.mk.injEq] at hwrite
        obtain ⟨_, _, rfl⟩ := hwrite
        have hcloses : q.Closes env := ⟨hcount, hopen, h.count_eq ▸ hall⟩
        exact absurd ((hclosed hcloses (by simp [hclose])).unique h'') hl
  · simp only [hloop, List.nil_append, Option.some.injEq, Prod.mk.injEq] at hwrite
    obtain ⟨_, rfl, rfl⟩ := hwrite
    cases saved with
    | nil =>
        obtain rfl := h''.unique hkept
        have hlen := hperm.length_eq
        simp only [List.length_append, List.length_cons, List.length_nil] at hlen
        omega
    | cons t' saved =>
        obtain ⟨text, htext, hpart⟩ := hsaved (List.cons_ne_nil _ _)
        rw [Function.update_self, Option.some.injEq] at htext
        exact (not_saved h'' hkept hperm (htext ▸ hpart)).elim

/-- A checkpoint loses no item exactly if nothing fails once the file is open. -/
theorem write_saves_iff (h : q.Holds l) :
    q.WriteSaves env files rank l ↔
      l = [] ∨ env.fopen = false ∨
        (∀ i, i < l.length → env.fprintf i = true) ∧ env.fclose = none := by
  rcases List.eq_nil_or_concat l with rfl | ⟨_, _, hl⟩
  · refine iff_of_true ⟨true, files, q, [], [], if_pos h.count_eq, .refl _, h,
      fun hne => absurd rfl hne, fun hc => absurd h.count_eq hc.1⟩ (.inl rfl)
  · have hl : l ≠ [] := by simp [hl]
    have hcount : q.count ≠ 0 := by
      rw [h.count_eq]
      exact fun h0 => hl (List.length_eq_zero_iff.mp h0)
    cases hopen : env.fopen with
    | false =>
        refine iff_of_true ⟨false, files, q, [], l, ?_, .refl _, h, fun hne => absurd rfl hne,
          fun hc => absurd (hc.2.1.symm.trans hopen) (by decide)⟩ (.inr (.inl rfl))
        rw [Queue.write, if_neg hcount, if_pos hopen]
    | true =>
        constructor
        · exact fun hsaves => .inr (.inr (h.fprintf_of_saves hl hopen hsaves))
        · rintro (hnil | hfail | ⟨hprint, hclose⟩)
          · exact absurd hnil hl
          · cases hfail
          · exact h.write_ok hl hopen hprint hclose

/-- The items are saved, and not if the second one cannot be printed. -/
theorem write_saves_iff_words :
    (filledQueue words).WriteSaves {} noFiles 0 words ∧
      ¬(filledQueue words).WriteSaves { fprintf := fun i => i != 1 } noFiles 0 words := by
  constructor
  · exact (write_saves_iff holds_words).mpr (.inr (.inr ⟨fun _ _ => rfl, rfl⟩))
  · rw [write_saves_iff holds_words]
    rintro (hnil | hopen | ⟨hprint, _⟩)
    · cases hnil
    · cases hopen
    · exact absurd (hprint 1 (by decide)) (by decide)

/-- The only item of a queue is lost when it cannot be printed. -/
theorem write_saves_fails :
    ¬(blankQueue 1 1).WriteSaves { fprintf := fun _ => false } noFiles 0 [CStr.empty] := by
  intro hsaves
  have h : (blankQueue 1 1).Holds [CStr.empty] :=
    (layout_blank (n := 1) (by decide) (by decide)).holds
  have hprint := (h.fprintf_of_saves (by decide) rfl hsaves).1 0 (by decide)
  cases hprint

end Write

/-! ## Pushing -/

section Push

variable {env : GrowEnv} {str : Option Item}

/-- Every `realloc` that a push of a string makes succeeds. -/
def Reallocates (q : Queue) (env : GrowEnv) (s : Item) : Prop :=
  (q.strCount < q.count + 1 → env.strings = true) ∧
    (q.bytes < q.head + pushLen s → env.base = true)

/-- When the string array cannot be reallocated it is lost. -/
theorem Holds.strExtend_failed (h : q.Holds l) (hl : l.length < maxCapacity) :
    ∃ q', q.strExtend false (q.count + 1) = some (false, q') ∧ q'.strings = none := by
  have hle : q.count + 1 ≤ maxCapacity := h.count_eq ▸ hl
  obtain ⟨b, a, h⟩ := h
  have hint := not_int32Max_lt_growTo h.strCount_dvd h.strCount_max hle
  refine ⟨{ q with strCount := growTo 4096 (q.count + 1) q.strCount, strings := none }, ?_, rfl⟩
  simp only [Queue.strExtend, realloc, hint, if_false, Option.isSome_none]

theorem not_holds_of_strings (hq : q.strings = none) : ¬q.Holds l := by
  rintro ⟨b, a, h⟩
  exact absurd (hq.symm.trans h.strings) (by simp)

theorem not_holds_of_base (hq : q.base = none) : ¬q.Holds l := by
  rintro ⟨b, a, h⟩
  exact absurd (hq.symm.trans h.base) (by simp)

/-- The queue before the copy, when the string array has room or gets it. -/
theorem Holds.strings_ready (h : q.Holds l) (hl : l.length < maxCapacity)
    (hstrings : q.strCount < q.count + 1 → env.strings = true) :
    ∃ q₁, (if q.strCount < q.count + 1 then q.strExtend env.strings (q.count + 1)
        else some (true, q)) = some (true, q₁) ∧ q₁.Holds l ∧ q₁.bytes = q.bytes ∧
      q₁.head = q.head := by
  by_cases hfull : q.strCount < q.count + 1
  · obtain ⟨q₁, hq₁, h₁, _, _, hbytes⟩ := h.strExtend (n := q.count + 1) (h.count_eq ▸ hl)
    refine ⟨q₁, by rw [if_pos hfull, hstrings hfull, hq₁], h₁, hbytes, ?_⟩
    simp only [Queue.strExtend] at hq₁
    split at hq₁
    · cases hq₁
    · rw [Option.some.injEq, Prod.mk.injEq] at hq₁
      rw [← hq₁.2]
  · exact ⟨q, if_neg hfull, h, rfl, rfl⟩

/-- A push whose calls of `realloc` succeed does not fail. -/
theorem Holds.push_reallocated (h : q.Holds l) (hl : l.length < maxCapacity) (hs : Accepts s)
    (henv : q.Reallocates env s) : q.push env (some s) ≠ some (false, q') := by
  obtain ⟨q₁, hq₁, _, hbytes, hhead⟩ := h.strings_ready hl henv.1
  rw [push_accepted hs, hq₁]
  simp only [hbytes, hhead]
  by_cases hpool : q.bytes < q.head + pushLen s
  · obtain ⟨b, a, h₁⟩ := ‹q₁.Holds l›
    simp only [hpool, if_true, Queue.extend, h₁.base, henv.2 hpool, realloc]
    intro hpush
    obtain ⟨_, _, hpush⟩ := Option.map_eq_some_iff.mp hpush
    cases hpush
  · simp only [hpool, if_false]
    intro hpush
    obtain ⟨_, _, hpush⟩ := Option.map_eq_some_iff.mp hpush
    cases hpush

/-- A push in which a call of `realloc` fails leaves a queue without one of its blocks. -/
theorem Holds.push_broken (h : q.Holds l) (hl : l.length < maxCapacity) (hs : Accepts s)
    (henv : ¬q.Reallocates env s) :
    ∃ q', q.push env (some s) = some (false, q') ∧ (q'.strings = none ∨ q'.base = none) := by
  by_cases hstrings : q.strCount < q.count + 1 → env.strings = true
  · obtain ⟨q₁, hq₁, _, hbytes, hhead⟩ := h.strings_ready hl hstrings
    have hpool : q.bytes < q.head + pushLen s ∧ env.base = false := by
      have hpool : ¬(q.bytes < q.head + pushLen s → env.base = true) := fun hp =>
        henv ⟨hstrings, hp⟩
      rwa [Classical.not_imp, Bool.not_eq_true] at hpool
    refine ⟨{ q₁ with base := none }, ?_, .inr rfl⟩
    rw [push_accepted hs, hq₁]
    simp only [hbytes, hhead, hpool.1, if_true, Queue.extend, hpool.2, realloc]
  · rw [Classical.not_imp, Bool.not_eq_true] at hstrings
    obtain ⟨q', hq', hnone⟩ := h.strExtend_failed hl
    refine ⟨q', ?_, .inl hnone⟩
    rw [push_accepted hs, if_pos hstrings.1, hstrings.2, hq']

/-- A push that fails leaves the queue as it was exactly if it turns the string away, or has not
reached a call of `realloc` that fails. -/
theorem push_keeps_iff (h : q.Holds l) :
    (∀ q', q.push env str = some (false, q') → q'.Holds l) ↔
      ∀ s, str = some s → Accepts s → l.length < maxCapacity → q.Reallocates env s := by
  cases str with
  | none =>
      refine iff_of_true (fun q' hpush => ?_) fun s hs => by cases hs
      simp only [Queue.push, Option.some.injEq, Prod.mk.injEq, true_and] at hpush
      exact hpush ▸ h
  | some s =>
      constructor
      · intro hkeeps t ht hs hl
        obtain rfl := Option.some.inj ht
        by_contra henv
        obtain ⟨q', hpush, hnone | hnone⟩ := h.push_broken hl hs henv
        · exact not_holds_of_strings hnone (hkeeps q' hpush)
        · exact not_holds_of_base hnone (hkeeps q' hpush)
      · intro henv q' hpush
        by_cases hs : Accepts s
        · rcases Nat.lt_or_eq_of_le h.length_le with hl | hl
          · exact absurd hpush (h.push_reallocated hl hs (henv s rfl hs hl))
          · -- there is no such result
            rw [h.push_full_of_accepts hs hl] at hpush
            cases hpush
        · rw [push_rejected hs, Option.some.injEq, Prod.mk.injEq] at hpush
          exact hpush.2 ▸ h

theorem push_keeps_iff_null :
    (filledQueue words).push { strings := false, base := false } none =
        some (false, filledQueue words) ∧
      ∀ q', (filledQueue words).push { strings := false, base := false } none = some (false, q') →
        q'.Holds words :=
  ⟨rfl, (push_keeps_iff holds_words).mpr fun _ hs => by cases hs⟩

/-- The array of 4096 offsets is full and cannot be reallocated: the items are lost. -/
theorem push_keeps_fails :
    ∃ q', (blankQueue 4096 1).push { strings := false } (some CStr.empty) = some (false, q') ∧
      ¬q'.Holds (List.replicate 4096 CStr.empty) := by
  have h : (blankQueue 4096 1).Holds (List.replicate 4096 CStr.empty) :=
    (layout_blank (by decide) (by decide)).holds
  have hl : (List.replicate 4096 (CStr.empty : Item)).length < maxCapacity := by
    rw [List.length_replicate]
    decide
  have hs : Accepts CStr.empty := by decide
  have henv : ¬(blankQueue 4096 1).Reallocates { strings := false } CStr.empty := fun henv =>
    absurd (henv.1 (by decide)) (by decide)
  obtain ⟨q', hpush, hnone | hnone⟩ := h.push_broken hl hs henv
  · exact ⟨q', hpush, not_holds_of_strings hnone⟩
  · exact ⟨q', hpush, not_holds_of_base hnone⟩

end Push

end Queue

end Libcircle
