import Libcircle.Queue.Failures
import Libcircle.Queue.Transfer

/-!
# Lengths and capacities of 32 bits

`CIRCLE_internal_queue_push` cuts the length of a string to 32 bits before it
compares it with the limit, and copies the whole string.  So it enforces the limit
on all strings but those whose length is cut to a small one (`push_limits_iff`).

The string array and the offset array grow by 4096 entries at a time, in an
`int32_t` (`growInt32`).  Their capacities are the positive multiples of 4096 up to
`maxCapacity` (`capacity_iff`), and a larger request makes the addition overflow
(`capacity_grows_iff`).
-/

namespace Libcircle

/-! ## Growing in steps of 4096 -/

/-- The loop of `CIRCLE_internal_queue_str_extend` and of `CIRCLE_extend_offsets`, one addition at a
time, with no result when an addition overflows. -/
def growInt32 (size cap : Nat) : Option Nat :=
  if cap < size then
    if int32Max < cap + 4096 then none else growInt32 size (cap + 4096)
  else some cap
termination_by size - cap
decreasing_by omega

/-- The loop overflows exactly if the capacity that is enough is out of range. -/
theorem growInt32_eq {size cap : Nat} (h : cap ≤ int32Max) :
    growInt32 size cap =
      if int32Max < growTo 4096 size cap then none else some (growTo 4096 size cap) := by
  fun_induction growInt32 size cap with
  | case1 cap hlt hover =>
      have hle : cap + 4096 ≤ growTo 4096 size (cap + 4096) := le_growTo
      rw [growTo_of_lt (by decide) hlt, if_pos (by omega)]
  | case2 cap hlt hover ih =>
      rw [ih (Nat.le_of_not_lt hover), growTo_of_lt (by decide) hlt]
  | case3 cap hge =>
      rw [growTo_of_ge (Nat.le_of_not_lt hge), if_neg (Nat.not_lt.mpr h)]

variable {q q' : Queue} {o o' : OffsetsBuf} {size cap : Nat}

/-- `CIRCLE_internal_queue_str_extend`, with its loop. -/
theorem Queue.strExtend_eq (ok : Bool) (h : q.strCount ≤ int32Max) :
    q.strExtend ok size = (growInt32 size q.strCount).map fun cap =>
      ((realloc ok q.strings cap).isSome,
        { q with strCount := cap, strings := realloc ok q.strings cap }) := by
  rw [growInt32_eq h, Queue.strExtend]
  split <;> rfl

/-- `CIRCLE_extend_offsets`, with its loop. -/
theorem OffsetsBuf.extend_eq (ok : Bool) (hle : ¬size ≤ o.count) (h : o.count ≤ int32Max) :
    o.extend ok size = (growInt32 size o.count).map fun cap =>
      ((realloc ok o.buf cap).isSome, ⟨realloc ok o.buf cap, cap⟩) := by
  rw [growInt32_eq h]
  simp only [OffsetsBuf.extend, if_neg hle]
  split <;> rfl

/-! ## The capacities -/

/-- A capacity that the two functions record, from the initial one on. -/
inductive Capacity : Nat → Prop where
  | init : Capacity initialQueueSize
  | strExtend {q q' : Queue} {ok out : Bool} {size : Nat} (h : Capacity q.strCount)
      (hsize : size ≤ int32Max) (hext : q.strExtend ok size = some (out, q')) :
      Capacity q'.strCount
  | extend {o o' : OffsetsBuf} {ok out : Bool} {size : Nat} (h : Capacity o.count)
      (hsize : size ≤ int32Max) (hext : o.extend ok size = some (out, o')) : Capacity o'.count

/-- A capacity that has been recorded is the result of the loop. -/
theorem Queue.strCount_of_strExtend {ok out : Bool}
    (hext : q.strExtend ok size = some (out, q')) :
    q'.strCount = growTo 4096 size q.strCount ∧ q'.strCount ≤ int32Max := by
  simp only [Queue.strExtend] at hext
  split at hext
  next => cases hext
  next hint =>
    obtain ⟨_, rfl⟩ := Prod.mk.inj (Option.some.inj hext)
    exact ⟨rfl, Nat.le_of_not_lt hint⟩

theorem OffsetsBuf.count_of_extend {ok out : Bool} (hext : o.extend ok size = some (out, o')) :
    o'.count = o.count ∨ (o'.count = growTo 4096 size o.count ∧ o'.count ≤ int32Max) := by
  simp only [OffsetsBuf.extend] at hext
  split at hext
  next =>
    obtain ⟨_, rfl⟩ := Prod.mk.inj (Option.some.inj hext)
    exact .inl rfl
  next =>
    split at hext
    next => cases hext
    next hint =>
      obtain ⟨_, rfl⟩ := Prod.mk.inj (Option.some.inj hext)
      exact .inr ⟨rfl, Nat.le_of_not_lt hint⟩

/-- One more step of 4096 leaves a multiple of 4096 in the range. -/
theorem le_maxCapacity (hdvd : 4096 ∣ cap) (hle : cap ≤ int32Max) : cap ≤ maxCapacity := by
  obtain ⟨k, hk⟩ := hdvd
  have hmax : maxCapacity = 4096 * 524287 := rfl
  have hmax' : int32Max = 4096 * 524288 - 1 := rfl
  omega

theorem growTo_spec (hdvd : 4096 ∣ cap) (hpos : 0 < cap)
    (hint : growTo 4096 size cap ≤ int32Max) :
    4096 ∣ growTo 4096 size cap ∧ 0 < growTo 4096 size cap ∧
      growTo 4096 size cap ≤ maxCapacity :=
  ⟨growTo_dvd hdvd, hpos.trans_le le_growTo, le_maxCapacity (growTo_dvd hdvd) hint⟩

theorem Capacity.spec (h : Capacity cap) : 4096 ∣ cap ∧ 0 < cap ∧ cap ≤ maxCapacity := by
  induction h with
  | init => exact ⟨Nat.dvd_refl _, by decide, by decide⟩
  | strExtend h hsize hext ih =>
      obtain ⟨heq, hint⟩ := Queue.strCount_of_strExtend hext
      rw [heq] at hint ⊢
      exact growTo_spec ih.1 ih.2.1 hint
  | extend h hsize hext ih =>
      rcases OffsetsBuf.count_of_extend hext with heq | ⟨heq, hint⟩
      · rwa [heq]
      · rw [heq] at hint ⊢
        exact growTo_spec ih.1 ih.2.1 hint

/-- The capacities are the positive multiples of 4096 in the range of `int32_t`. -/
theorem capacity_iff : Capacity cap ↔ 4096 ∣ cap ∧ 0 < cap ∧ cap ≤ maxCapacity := by
  refine ⟨Capacity.spec, fun ⟨hdvd, hpos, hmax⟩ => ?_⟩
  have hfirst : initialQueueSize ≤ cap := Nat.le_of_dvd hpos hdvd
  have hgrow : growTo 4096 cap initialQueueSize = cap :=
    Nat.le_antisymm (growTo_le (Nat.dvd_refl _) hdvd hfirst (Nat.le_refl _))
      (size_le_growTo (by decide))
  have hint : ¬int32Max < cap := Nat.not_lt.mpr (hmax.trans (by decide))
  have hext : (blankQueue 0 1).strExtend true cap =
      some (true, { blankQueue 0 1 with strCount := cap, strings := some ⟨cap, id⟩ }) := by
    rw [Queue.strExtend, show (blankQueue 0 1).strCount = initialQueueSize from rfl, hgrow,
      if_neg hint]
    rfl
  exact Capacity.strExtend (q := blankQueue 0 1) .init (hmax.trans (by decide)) hext

/-! ## Requests -/

/-- With allocation succeeding, the loop for `size` entries ends without an overflow, and the
capacity it records is enough and not smaller than before. -/
def Queue.Grows (q : Queue) (size : Nat) : Prop :=
  ∃ q', q.strExtend true size = some (true, q') ∧ growInt32 size q.strCount = some q'.strCount ∧
    q.strCount ≤ q'.strCount ∧ q'.strCount ≤ int32Max ∧ size ≤ q'.strCount

/-- The same of the offset array. -/
def OffsetsBuf.Grows (o : OffsetsBuf) (size : Nat) : Prop :=
  ∃ o', o.extend true size = some (true, o') ∧ growInt32 size o.count = some o'.count ∧
    o.count ≤ o'.count ∧ o'.count ≤ int32Max ∧ size ≤ o'.count

theorem Capacity.le_int32Max (h : Capacity cap) : cap ≤ int32Max := h.spec.2.2.trans (by decide)

/-- A request that a multiple of 4096 in the range of `int32_t` is enough for. -/
theorem Capacity.growInt32_some (h : Capacity cap) (hsize : size ≤ maxCapacity) :
    ∃ cap', growInt32 size cap = some cap' ∧ cap ≤ cap' ∧ cap' ≤ int32Max ∧ size ≤ cap' := by
  obtain ⟨hdvd, _, hmax⟩ := h.spec
  have hint := not_int32Max_lt_growTo hdvd hmax hsize
  exact ⟨growTo 4096 size cap, by rw [growInt32_eq h.le_int32Max, if_neg hint], le_growTo,
    Nat.le_of_not_lt hint, size_le_growTo (by decide)⟩

/-- A larger request. -/
theorem Capacity.growInt32_none (h : Capacity cap) (hsize : maxCapacity < size) :
    growInt32 size cap = none := by
  rw [growInt32_eq h.le_int32Max, if_pos (int32Max_lt_growTo h.spec.1 hsize)]

theorem Queue.grows_iff (h : Capacity q.strCount) : q.Grows size ↔ size ≤ maxCapacity := by
  constructor
  · rintro ⟨q', _, hloop, _⟩
    by_contra hsize
    rw [h.growInt32_none (Nat.lt_of_not_le hsize)] at hloop
    cases hloop
  · intro hsize
    obtain ⟨cap, hloop, hle, hint, henough⟩ := h.growInt32_some hsize
    refine ⟨{ q with strCount := cap, strings := realloc true q.strings cap }, ?_, hloop, hle,
      hint, henough⟩
    rw [Queue.strExtend_eq true h.le_int32Max, hloop]
    cases q.strings <;> rfl

theorem OffsetsBuf.grows_iff (h : Capacity o.count) : o.Grows size ↔ size ≤ maxCapacity := by
  constructor
  · rintro ⟨o', _, hloop, _⟩
    by_contra hsize
    rw [h.growInt32_none (Nat.lt_of_not_le hsize)] at hloop
    cases hloop
  · intro hsize
    obtain ⟨cap, hloop, hle, hint, henough⟩ := h.growInt32_some hsize
    by_cases hroom : size ≤ o.count
    · -- the array is large enough already
      have hkeep : growInt32 size o.count = some o.count := by
        rw [growInt32_eq h.le_int32Max, growTo_of_ge hroom, if_neg (Nat.not_lt.mpr h.le_int32Max)]
      exact ⟨o, if_pos hroom, hkeep, Nat.le_refl _, h.le_int32Max, hroom⟩
    · refine ⟨⟨realloc true o.buf cap, cap⟩, ?_, hloop, hle, hint, henough⟩
      rw [OffsetsBuf.extend_eq true hroom h.le_int32Max, hloop]
      cases o.buf <;> rfl

/-- From every capacity that can be reached, a request makes the string array and the offset array
grow without an overflow exactly if a multiple of 4096 in the range of `int32_t` is enough. -/
theorem capacity_grows_iff (hq : Capacity q.strCount) (ho : Capacity o.count) :
    (q.Grows size ↔ size ≤ maxCapacity) ∧ (o.Grows size ↔ size ≤ maxCapacity) :=
  ⟨Queue.grows_iff hq, OffsetsBuf.grows_iff ho⟩

/-- The largest request that the initial arrays grow for. -/
theorem capacity_grows_max :
    (blankQueue 0 1).Grows maxCapacity ∧ freshOffsets.Grows maxCapacity := by
  have hq : Capacity (blankQueue 0 1).strCount := .init
  have ho : Capacity freshOffsets.count := .init
  exact ⟨(capacity_grows_iff hq ho).1.mpr (Nat.le_refl _),
    (capacity_grows_iff hq ho).2.mpr (Nat.le_refl _)⟩

/-- A queue of `2 ^ 31 - 4096` items has no room for one more, and an offset array none for the
message that transfers `2 ^ 31 - 4097` items. -/
theorem capacity_grows_fails :
    Capacity (blankQueue maxCapacity 524287).strCount ∧ Capacity freshOffsets.count ∧
      (blankQueue maxCapacity 524287).count + 1 ≤ int32Max ∧
      ¬(blankQueue maxCapacity 524287).Grows ((blankQueue maxCapacity 524287).count + 1) ∧
      ¬freshOffsets.Grows (maxCapacity - 1 + 2) := by
  have hq : Capacity (blankQueue maxCapacity 524287).strCount :=
    capacity_iff.mpr ⟨⟨524287, rfl⟩, by decide, by decide⟩
  have ho : Capacity freshOffsets.count := .init
  refine ⟨hq, ho, by decide, fun hgrows => ?_, fun hgrows => ?_⟩
  · exact absurd ((Queue.grows_iff hq).mp hgrows) (by decide)
  · exact absurd ((OffsetsBuf.grows_iff ho).mp hgrows) (by decide)

/-! ## The length limit -/

namespace Queue

variable {l : List Item} {s : Item} {env : GrowEnv}

/-- What a push of `s` is to do.  It accepts `s` exactly if `s` is not too long.  Then the bytes it
copies lie between the old and the new head and inside the pool, and otherwise the queue is not
touched. -/
def PushLimits (q : Queue) (env : GrowEnv) (s : Item) : Prop :=
  ∃ ok q', q.push env (some s) = some (ok, q') ∧ (ok = true ↔ s.length + 1 ≤ maxStringLen) ∧
    if ok then
      q.head + (s.length + 1) ≤ q'.head ∧ q'.head ≤ q'.bytes ∧
        ∃ b, q'.base = some b ∧ b.size = q'.bytes ∧ b.slice q.head (s.length + 1) = some s.toBuffer
    else q' = q

/-- Growing does not move the head. -/
theorem head_of_strExtend {ok out : Bool} (hext : q.strExtend ok size = some (out, q')) :
    q'.head = q.head := by
  simp only [Queue.strExtend] at hext
  split at hext
  next => cases hext
  next =>
    obtain ⟨_, rfl⟩ := Prod.mk.inj (Option.some.inj hext)
    rfl

theorem head_of_extend {out : Bool} (hext : q.extend env size = (out, q')) :
    q'.head = q.head := by
  simp only [Queue.extend] at hext
  split at hext
  all_goals
    obtain ⟨_, rfl⟩ := Prod.mk.inj hext
    rfl

/-- A push that succeeds ends with the copy. -/
theorem exists_store (hs : Accepts s) (hpush : q.push env (some s) = some (true, q')) :
    ∃ q₂ : Queue, q₂.head = q.head ∧ q₂.store s (pushLen s) = some q' := by
  rw [push_accepted hs] at hpush
  split at hpush
  next => cases hpush
  next => cases hpush
  next q₁ hq₁ =>
    have h₁ : q₁.head = q.head := by
      split at hq₁
      · exact head_of_strExtend hq₁
      · cases hq₁
        rfl
    split at hpush
    next => cases hpush
    next q₂ hq₂ =>
      have h₂ : q₂.head = q₁.head := by
        split at hq₂
        · exact head_of_extend hq₂
        · cases hq₂
          rfl
      obtain ⟨q₃, hstore, heq⟩ := Option.map_eq_some_iff.mp hpush
      obtain ⟨_, rfl⟩ := Prod.mk.inj heq
      exact ⟨q₂, h₂.trans h₁, hstore⟩

/-- The copy is inside the pool. -/
theorem slice_of_store {len : Nat} (hstore : q.store s len = some q') :
    q'.head = q.head + len ∧
      ∃ b, q'.base = some b ∧ b.slice q.head (s.length + 1) = some s.toBuffer := by
  simp only [Queue.store, Option.bind_eq_bind, Option.bind_eq_some_iff, Option.pure_def,
    Option.some.injEq] at hstore
  obtain ⟨a, _, a', _, b, _, b', hwrite, rfl⟩ := hstore
  have hsize : q.head + s.toBuffer.length ≤ b.size := by
    by_contra hover
    rw [Block.write, if_neg hover] at hwrite
    cases hwrite
  rw [Block.write_of_le hsize, Option.some.injEq] at hwrite
  refine ⟨rfl, b', rfl, ?_⟩
  have hslice := Block.slice_overwrite (j := 0) (n := s.toBuffer.length) hsize (by omega)
  rw [Nat.add_zero, List.drop_zero, List.take_length, CStr.length_toBuffer] at hslice
  rw [← hwrite]
  exact hslice

/-- With allocation succeeding, a string that is accepted is not turned away later. -/
theorem Holds.push_of_accepts (h : q.Holds l) (henv : env.strings = true ∧ env.base = true)
    (hs : Accepts s) : q.push env (some s) ≠ some (false, q') := by
  rcases Nat.lt_or_eq_of_le h.length_le with hl | hl
  · exact h.push_reallocated hl hs ⟨fun _ => henv.1, fun _ => henv.2⟩
  · rw [h.push_full_of_accepts hs hl]
    exact (Option.some_ne_none _).symm

/-- A string whose length is cut to a small one is not turned away. -/
theorem Holds.not_pushLimits (h : q.Holds l) (henv : env.strings = true ∧ env.base = true)
    (hlong : maxStringLen < s.length + 1) (hs : Accepts s) : ¬q.PushLimits env s := by
  rintro ⟨ok, q', hpush, hok, _⟩
  cases ok with
  | true => exact absurd (hok.mp rfl) (Nat.not_le.mpr hlong)
  | false => exact h.push_of_accepts henv hs hpush

/-- A queue with the largest number of items does not take a string. -/
theorem Holds.not_pushLimits_full (h : q.Holds l) (hs : s.length + 1 ≤ maxStringLen)
    (hl : l.length = maxCapacity) : ¬q.PushLimits env s := by
  rintro ⟨ok, q', hpush, _⟩
  rw [h.push_full hs hl] at hpush
  cases hpush

/-- With allocation succeeding, a push enforces the length limit exactly if the length of a string
that is too long is not cut to one that is accepted, and there is room for one more item unless the
string is too long. -/
theorem push_limits_iff (h : q.Holds l) (henv : env.strings = true ∧ env.base = true) :
    q.PushLimits env s ↔
      (maxStringLen < s.length + 1 → ¬Accepts s) ∧
        (s.length + 1 ≤ maxStringLen → l.length < maxCapacity) := by
  constructor
  · intro hlimits
    exact ⟨fun hlong hs => h.not_pushLimits henv hlong hs hlimits, fun hs =>
      Nat.lt_of_le_of_ne h.length_le fun hl => h.not_pushLimits_full hs hl hlimits⟩
  · rintro ⟨hcut, hroom⟩
    rcases Nat.lt_or_ge maxStringLen (s.length + 1) with hlong | hs
    · exact ⟨false, q, push_rejected (hcut hlong),
        iff_of_false Bool.false_ne_true (Nat.not_le.mpr hlong), rfl⟩
    · obtain ⟨q', hpush, h'⟩ := h.push henv hs (hroom hs)
      obtain ⟨hacc, hlen⟩ := accepts_of_length hs
      obtain ⟨q₂, hhead, hstore⟩ := exists_store hacc hpush
      obtain ⟨hhead', b, hb, hslice⟩ := slice_of_store hstore
      rw [hhead, hlen] at hhead'
      rw [hhead] at hslice
      obtain ⟨b', a, hlayout⟩ := h'
      obtain rfl := Option.some.inj (hb.symm.trans hlayout.base)
      exact ⟨true, q', hpush, iff_of_true rfl hs, hhead'.ge, hlayout.head_le, b, hb,
        hlayout.bytes_eq.symm, hslice⟩

theorem ne_zero_of_replicate {n : Nat} : ∀ x ∈ List.replicate n (97 : UInt8), x ≠ 0 := by
  intro x hx
  rw [List.eq_of_mem_replicate hx]
  decide

/-- A string of `n` times the same character. -/
def repeated (n : Nat) : Item := ⟨List.replicate n 97, ne_zero_of_replicate⟩

/-- A string of one character is pushed on a queue with two items. -/
theorem push_limits_one : (blankQueue 2 1).PushLimits {} (repeated 1) :=
  (push_limits_iff (layout_blank (n := 2) (by decide) (by decide)).holds ⟨rfl, rfl⟩).mpr
    ⟨fun hlong => absurd hlong (by decide), fun _ => by decide⟩

/-- A string of `2 ^ 32` characters, whose length is cut to `1`, is not turned away. -/
theorem push_limits_fails :
    maxStringLen < (repeated (2 ^ 32)).length + 1 ∧
      ¬(blankQueue 2 1).PushLimits {} (repeated (2 ^ 32)) := by
  have hlen : (repeated (2 ^ 32)).length = 2 ^ 32 := List.length_replicate
  have hcut : pushLen (repeated (2 ^ 32)) = 1 := by
    rw [pushLen, hlen]
    rfl
  have hlong : maxStringLen < (repeated (2 ^ 32)).length + 1 := by
    rw [hlen]
    decide
  have h := (layout_blank (n := 2) (by decide) (show 1 ≤ 524287 by decide)).holds
  refine ⟨hlong, h.not_pushLimits ⟨rfl, rfl⟩ hlong ⟨?_, ?_⟩⟩
  · rw [hcut]
    decide
  · rw [hcut]
    decide

end Queue

end Libcircle
