import Mathlib.Logic.Function.Iterate
import Libcircle.Model.Transfer
import Libcircle.Queue.Holds

/-!
# A transfer moves the top of one queue to another

`m.Encodes l` says that the two messages of `m` describe the items of `l`: the
bytes are a pool of these strings, at the offsets of the first message.
`CIRCLE_send_work` takes items off the top of a queue and encodes them, and
`CIRCLE_work_receive` puts what a message encodes into an empty queue.  So a
transfer moves the items and keeps their order.

The offset array of the receiver grows in steps of 4096, as the string array
does, and has two entries more.  A transfer of all but one of the largest number
of items a queue can hold does not fit (`transfer_iff`).
-/

namespace Libcircle

/-! ## The back-off -/

theorem backOffStep_spec {count : Nat} (h : 1 < count) :
    1 ≤ backOffStep count ∧ backOffStep count < count := by
  simp only [backOffStep]
  split <;> omega

/-- The back-off loop ends at a count that fits, or at one item. -/
theorem backOff_spec (len : Nat → Nat) {n count : Nat} (hn : count ≤ n) (h : 1 ≤ count) :
    1 ≤ backOff len n count ∧ backOff len n count ≤ count ∧
      (len (backOff len n count) ≤ int32Max ∨ backOff len n count = 1) := by
  induction n generalizing count with
  | zero => omega
  | succ n ih =>
      rw [backOff]
      split
      next hlong =>
        obtain ⟨hpos, hlt⟩ := backOffStep_spec hlong.2
        have hn' : backOffStep count ≤ n := by omega
        obtain ⟨h₁, h₂, h₃⟩ := ih hn' hpos
        exact ⟨h₁, by omega, h₃⟩
      next hshort =>
        refine ⟨h, Nat.le_refl _, ?_⟩
        rcases Nat.lt_or_eq_of_le h with hlt | heq
        · exact .inl (Nat.le_of_not_lt fun hlen => hshort ⟨hlen, hlt⟩)
        · exact .inr heq.symm

/-- A count that fits is not lowered. -/
theorem backOff_eq (len : Nat → Nat) {n count : Nat} (h : len count ≤ int32Max) :
    backOff len n count = count := by
  cases n with
  | zero => rfl
  | succ n => exact if_neg fun hlong => absurd hlong.1 (Nat.not_lt.mpr h)

/-- The back-off loop is left after finitely many passes, each at a count of more than one whose
items do not fit. -/
theorem backOff_passes (len : Nat → Nat) {n count : Nat} (hn : count ≤ n) (h : 1 ≤ count) :
    ∃ i, backOff len n count = backOffStep^[i] count ∧
      ∀ j, j < i → int32Max < len (backOffStep^[j] count) ∧ 1 < backOffStep^[j] count := by
  induction n generalizing count with
  | zero => omega
  | succ n ih =>
      rw [backOff]
      split
      next hlong =>
        obtain ⟨hpos, hlt⟩ := backOffStep_spec hlong.2
        have hn' : backOffStep count ≤ n := by omega
        obtain ⟨i, hi, hpass⟩ := ih hn' hpos
        refine ⟨i + 1, by rw [hi, Function.iterate_succ_apply], fun j hj => ?_⟩
        cases j with
        | zero => exact hlong
        | succ j =>
            rw [Function.iterate_succ_apply]
            exact hpass j (Nat.lt_of_succ_lt_succ hj)
      next => exact ⟨0, rfl, fun j hj => absurd hj (Nat.not_lt_zero j)⟩

/-! ## What a message says -/

/-- The messages of `m` describe the items of `l`, the top first. -/
structure WorkMessage.Encodes (m : WorkMessage) (l : List Item) : Prop where
  nonempty : l ≠ []
  short : ∀ s ∈ l, s.length < maxStringLen
  buf_le : m.buf.length ≤ int32Max
  packed : ∃ off : Nat → Nat,
    m.offsets = (l.length : Int) :: (m.buf.length : Int) ::
        (List.range l.length).map (fun i => (off i : Int)) ∧
      Packed (fun i => m.buf[i]?.getD 0) off 0 l m.buf.length

/-- Every number of the first message fits in an `int`. -/
theorem WorkMessage.Encodes.offsets_le {m : WorkMessage} {l : List Item} (h : m.Encodes l)
    (hl : l.length ≤ int32Max) : ∀ x ∈ m.offsets, 0 ≤ x ∧ x ≤ int32Max := by
  obtain ⟨off, hoff, hpacked⟩ := h.packed
  rw [hoff]
  intro x hx
  have hbuf := h.buf_le
  rcases List.mem_cons.mp hx with rfl | hx
  · omega
  · rcases List.mem_cons.mp hx with rfl | hx
    · omega
    · obtain ⟨i, hi, rfl⟩ := List.mem_map.mp hx
      have hlt := hpacked.off_lt_head (List.mem_range.mp hi)
      omega

theorem WorkMessage.Encodes.length_offsets {m : WorkMessage} {l : List Item} (h : m.Encodes l) :
    m.offsets.length = l.length + 2 := by
  obtain ⟨off, hoff, _⟩ := h.packed
  rw [hoff, List.length_cons, List.length_cons, List.length_map, List.length_range]

namespace Queue

variable {q : Queue} {b : Block UInt8} {a : Block Nat} {l : List Item} {s : Item} {count : Nat}

/-! ## Sending -/

/-- The number of bytes from the first of the top `count` items to the end of the last. -/
def span (q : Queue) (count : Nat) : Option Nat := do
  let base ← q.base
  let strings ← q.strings
  let endOffset ← strings.read (q.count - 1)
  let last ← base.str endOffset
  some (endOffset - strings.cell (q.count - count) + (last.length + 1))

/-- The cells of the queue that `CIRCLE_send_work` reads. -/
theorem Layout.read_top (h : q.Layout b a (s :: l)) :
    a.read (q.count - 1) = some (a.cell l.length) ∧ b.str (a.cell l.length) = some s := by
  have hcount : q.count = l.length + 1 := h.count_eq
  have hlt := h.count_le.trans_eq h.strCount_eq
  refine ⟨?_, h.packed.str_top (h.head_le.trans_eq h.bytes_eq)⟩
  rw [show q.count - 1 = l.length by omega]
  exact Block.read_of_lt (by omega)

theorem Layout.span_eq (h : q.Layout b a (s :: l)) :
    q.span count = some (a.cell l.length - a.cell (l.length + 1 - count) + (s.length + 1)) := by
  obtain ⟨hread, hstr⟩ := h.read_top
  simp only [span, h.base, h.strings, hread, hstr, Option.bind_eq_bind, Option.bind_some]
  rw [h.count_eq, List.length_cons]

/-- The messages `CIRCLE_send_work` builds for `k + 1` of the items of a queue with the blocks
`b` and `a`, whose top item has the index `n` and `size` bytes. -/
def workMessage (b : Block UInt8) (a : Block Nat) (n size k : Nat) : WorkMessage :=
  let start := a.cell (n - k)
  let len := a.cell n - start + size
  ⟨((k + 1 : Nat) : Int) :: (len : Int) ::
      (List.range (k + 1)).map fun i => ((a.cell (n - k + i) - start : Nat) : Int),
    (List.range len).map fun i => b.cell (start + i)⟩

theorem Layout.encodes (h : q.Layout b a (s :: l)) {k : Nat} (hk : k ≤ l.length)
    (hlen : a.cell l.length - a.cell (l.length - k) + (s.length + 1) ≤ int32Max) :
    (workMessage b a l.length (s.length + 1) k).Encodes (s :: l.take k) := by
  -- the strings up to the end of the top one
  have hpacked : Packed b.cell a.cell 0 (s :: l) (a.cell l.length + s.length + 1) :=
    ⟨h.packed.1, Nat.le_refl _, h.packed.2.2⟩
  obtain ⟨hle, htop⟩ := hpacked.take hk
  have hbuf : (workMessage b a l.length (s.length + 1) k).buf.length =
      a.cell l.length - a.cell (l.length - k) + (s.length + 1) := by
    simp only [workMessage, List.length_map, List.length_range]
  refine ⟨List.cons_ne_nil _ _, ?_, by rwa [hbuf],
    fun i => a.cell (l.length - k + i) - a.cell (l.length - k), ?_, ?_⟩
  · intro t ht
    refine h.short t ?_
    rcases List.mem_cons.mp ht with rfl | ht
    · exact List.mem_cons_self ..
    · exact List.mem_cons_of_mem _ (List.mem_of_mem_take ht)
  · rw [hbuf, List.length_cons, List.length_take_of_le hk]
    rfl
  · rw [hbuf]
    have hcopy : ∀ i, a.cell (l.length - k) + i < a.cell l.length + s.length + 1 →
        (workMessage b a l.length (s.length + 1) k).buf[i]?.getD 0 =
          b.cell (a.cell (l.length - k) + i) := by
      intro i hi
      have hi : i < a.cell l.length - a.cell (l.length - k) + (s.length + 1) := by omega
      simp [workMessage, List.getElem?_range hi]
    have hshift := htop.shift hcopy
    rwa [show a.cell l.length + s.length + 1 - a.cell (l.length - k) =
      a.cell l.length - a.cell (l.length - k) + (s.length + 1) by omega] at hshift

/-- What is left of a queue after its top items have been sent. -/
theorem Layout.rest (h : q.Layout b a l) {c : Nat} (hc : c < l.length) :
    Layout { q with count := q.count - c } b a (l.drop c) where
  base := h.base
  strings := h.strings
  bytes_eq := h.bytes_eq
  strCount_eq := h.strCount_eq
  strCount_dvd := h.strCount_dvd
  strCount_max := h.strCount_max
  count_eq := by rw [List.length_drop, ← h.count_eq]
  count_le := (Nat.sub_le _ _).trans h.count_le
  head_le := h.head_le
  packed := h.packed.drop hc
  short t ht := h.short t (List.mem_of_mem_drop ht)

/-- The count at which the back-off loop is left. -/
def sentCount (q : Queue) (count : Nat) : Nat :=
  backOff (fun c => (q.span c).getD 0) count count

/-- One item always fits. -/
theorem Holds.sentCount_spec (h : q.Holds l) (hpos : 1 ≤ count) (hlt : count < l.length) :
    1 ≤ q.sentCount count ∧ q.sentCount count ≤ count ∧
      ∃ k, q.span (q.sentCount count) = some k ∧ k ≤ int32Max := by
  obtain ⟨b, a, h⟩ := h
  cases l with
  | nil => cases hlt
  | cons s l =>
    obtain ⟨hc, hle, hfit⟩ :=
      backOff_spec (fun c => (q.span c).getD 0) (Nat.le_refl count) hpos
    refine ⟨hc, hle, _, h.span_eq, ?_⟩
    rcases hfit with hfit | hone
    · rwa [h.span_eq] at hfit
    · have hs : s.length < maxStringLen := h.short s (List.mem_cons_self ..)
      have hmax : maxStringLen + 1 ≤ int32Max := by decide
      rw [sentCount, hone, Nat.add_sub_cancel, Nat.sub_self]
      omega

/-- A queue sends the items off its top that the back-off loop leaves, and keeps the others. -/
theorem Holds.sendWork_eq (h : q.Holds l) (hpos : 1 ≤ count) (hlt : count < l.length) :
    ∃ m q', q.sendWork count = some (.work m, q') ∧
      q.span (q.sentCount count) = some m.buf.length ∧ m.Encodes (l.take (q.sentCount count)) ∧
      q'.Holds (l.drop (q.sentCount count)) := by
  obtain ⟨hc, hle, size, hspan, hfit⟩ := h.sentCount_spec hpos hlt
  obtain ⟨b, a, h⟩ := h
  cases l with
  | nil => cases hlt
  | cons s l =>
    have hcount : q.count = l.length + 1 := h.count_eq
    obtain ⟨hread, hstr⟩ := h.read_top
    -- the number of bytes as the loop computes it
    have hlen : (fun c => a.cell l.length - a.cell (q.count - c) + (s.length + 1)) =
        fun c => (q.span c).getD 0 := by
      funext c
      rw [h.span_eq, hcount, Option.getD_some]
    have hback : backOff (fun c => a.cell l.length - a.cell (q.count - c) + (s.length + 1))
        count count = q.sentCount count := by
      rw [hlen, sentCount]
    obtain ⟨k, hk⟩ : ∃ k, q.sentCount count = k + 1 := ⟨q.sentCount count - 1, by omega⟩
    rw [hk] at hle hspan hback ⊢
    have hkl : k ≤ l.length := by
      rw [List.length_cons] at hlt
      omega
    have hindex : q.count - (k + 1) = l.length - k := by omega
    have hsize : a.cell l.length - a.cell (l.length - k) + (s.length + 1) = size := by
      rw [h.span_eq, Option.some.injEq] at hspan
      rw [← hspan, Nat.add_sub_add_right]
    refine ⟨workMessage b a l.length (s.length + 1) k, { q with count := q.count - (k + 1) }, ?_,
      ?_, h.encodes hkl (hsize ▸ hfit), (h.rest (by omega)).holds⟩
    · have hzero : ¬count ≤ 0 := Nat.not_le.mpr hpos
      have henough : ¬q.count < count := by
        rw [List.length_cons] at hlt
        omega
      have hslice : b.slice (a.cell (l.length - k)) size =
          some ((List.range size).map fun i => b.cell (a.cell (l.length - k) + i)) := by
        refine Block.slice_of_le ?_
        have hend := h.packed.2.1
        have hhead := h.head_le.trans_eq h.bytes_eq
        have hstart := (h.packed.take hkl).1
        omega
      have hfits : ¬int32Max < size := Nat.not_lt.mpr hfit
      simp only [Queue.sendWork, hzero, henough, if_false, h.base, h.strings, hread, hstr,
        Option.bind_eq_bind, Option.bind_some]
      rw [hback]
      simp only [hindex, hsize, hfits, if_false, hslice, Option.bind_some, workMessage]
    · simp only [workMessage, List.length_map, List.length_range]
      rw [hspan, hsize]

/-- The number of items is lowered exactly if their bytes do not fit. -/
theorem Holds.sendWork (h : q.Holds l) (hpos : 1 ≤ count) (hlt : count < l.length) :
    ∃ c m q' k, q.sendWork count = some (.work m, q') ∧ 1 ≤ c ∧ c ≤ count ∧
      q.span count = some k ∧ (k ≤ int32Max ↔ c = count) ∧ m.Encodes (l.take c) ∧
      q'.Holds (l.drop c) := by
  obtain ⟨m, q', hsend, _, hm, hrest⟩ := h.sendWork_eq hpos hlt
  obtain ⟨hc, hle, size, hsize, hfit⟩ := h.sentCount_spec hpos hlt
  have hspan : ∃ k, q.span count = some k := by
    obtain ⟨b, a, h⟩ := h
    cases l with
    | nil => cases hlt
    | cons s l => exact ⟨_, h.span_eq⟩
  obtain ⟨k, hk⟩ := hspan
  refine ⟨q.sentCount count, m, q', k, hsend, hc, hle, hk, ⟨fun hshort => ?_, fun heq => ?_⟩,
    hm, hrest⟩
  · exact backOff_eq _ (by rwa [hk])
  · rw [heq, hk, Option.some.injEq] at hsize
    exact hsize ▸ hfit

/-- The back-off loop is left at a count whose items fit, and it tries no count after one that
fits. -/
theorem back_off_sends (h : q.Holds l) (hpos : 1 ≤ count) (hlt : count < l.length) :
    ∃ (c i : Nat) (m : WorkMessage) (q' : Queue),
      q.sendWork count = some (.work m, q') ∧ m.offsets.head? = some (c : Int) ∧
      1 ≤ c ∧ c ≤ count ∧ q.span c = some m.buf.length ∧ m.buf.length ≤ int32Max ∧
      (∀ x ∈ m.offsets, 0 ≤ x ∧ x ≤ int32Max) ∧ c = backOffStep^[i] count ∧
      (∀ j, j < i → 1 < backOffStep^[j] count ∧
        ∃ k, q.span (backOffStep^[j] count) = some k ∧ int32Max < k) ∧
      ∀ k, q.span count = some k → k ≤ int32Max → c = count := by
  obtain ⟨m, q', hsend, hspan, hm, _⟩ := h.sendWork_eq hpos hlt
  obtain ⟨hc, hle, _⟩ := h.sentCount_spec hpos hlt
  obtain ⟨i, hi, hpass⟩ :=
    backOff_passes (fun c => (q.span c).getD 0) (Nat.le_refl count) hpos
  have hlen : (l.take (q.sentCount count)).length = q.sentCount count :=
    List.length_take_of_le (hle.trans hlt.le)
  refine ⟨q.sentCount count, i, m, q', hsend, ?_, hc, hle, hspan, hm.buf_le, ?_, hi,
    fun j hj => ⟨(hpass j hj).2, ?_⟩, fun k hk hshort => backOff_eq _ (by rwa [hk])⟩
  · obtain ⟨off, hoff, _⟩ := hm.packed
    rw [hoff, List.head?_cons, hlen]
  · refine hm.offsets_le ?_
    have hmax : maxCapacity ≤ int32Max := by decide
    have hl := h.length_le
    omega
  · have hlong := (hpass j hj).1
    cases hk : q.span (backOffStep^[j] count) with
    | none =>
        rw [hk] at hlong
        cases hlong
    | some k =>
        rw [hk] at hlong
        exact ⟨k, rfl, hlong⟩

/-- Three empty strings, with more than `2 ^ 31` bytes between the second and the third. -/
def gapQueue : Queue where
  base := some ⟨2 ^ 32, fun _ => 0⟩
  bytes := 2 ^ 32
  head := 2 ^ 31 + 2
  strings := some ⟨4096, fun i => if i < 2 then i else 2 ^ 31 + 1⟩
  strCount := 4096
  count := 3

theorem layout_gap :
    gapQueue.Layout ⟨2 ^ 32, fun _ => 0⟩ ⟨4096, fun i => if i < 2 then i else 2 ^ 31 + 1⟩
      (List.replicate 3 CStr.empty) where
  base := rfl
  strings := rfl
  bytes_eq := rfl
  strCount_eq := rfl
  strCount_dvd := Nat.dvd_refl _
  strCount_max := show 4096 ≤ maxCapacity by decide
  count_eq := rfl
  count_le := show 3 ≤ 4096 by decide
  head_le := show 2 ^ 31 + 2 ≤ 2 ^ 32 by decide
  packed := ⟨rfl, Nat.le_refl _, rfl, by decide, rfl, by decide, rfl⟩
  short := by decide

/-- Two of the strings were planned.  The loop is passed once, and one string is sent. -/
theorem back_off_sends_gap :
    gapQueue.span 2 = some (int32Max + 2) ∧
      ∃ (c i : Nat) (m : WorkMessage) (q' : Queue),
        gapQueue.sendWork 2 = some (.work m, q') ∧ c = 1 ∧ i = 1 ∧ c = backOffStep^[i] 2 ∧
          m.offsets.head? = some (c : Int) ∧ gapQueue.span c = some m.buf.length ∧
          m.buf.length ≤ int32Max ∧ ∀ x ∈ m.offsets, 0 ≤ x ∧ x ≤ int32Max := by
  have hspan : gapQueue.span 2 = some (int32Max + 2) := by decide +kernel
  obtain ⟨c, i, m, q', hsend, hhead, hpos, hle, hlen, hmax, hoff, hc, hpass, _⟩ :=
    back_off_sends layout_gap.holds (by decide : 1 ≤ 2) (by decide)
  have hne : c ≠ 2 := fun h => by
    rw [h, hspan] at hlen
    have := Option.some.inj hlen
    omega
  have hi : i = 1 := by
    match i with
    | 0 => exact absurd hc hne
    | 1 => rfl
    | n + 2 => exact absurd (hpass 1 (by omega)).1 (by decide)
  exact ⟨hspan, c, i, m, q', hsend, by omega, hi, hc, hhead, hlen, hmax, hoff⟩

/-! ## Receiving -/

/-- The queue holds the items of `l` from the first byte on, and `head` is just past the top. -/
def Filled (q : Queue) (l : List Item) : Prop :=
  ∃ b a, q.Layout b a l ∧ a.cell 0 = 0 ∧
    ∀ s ∈ l.head?, q.head = a.cell (l.length - 1) + (s.length + 1)

theorem Filled.holds (h : q.Filled l) : q.Holds l := by
  obtain ⟨b, a, h, _⟩ := h
  exact h.holds

theorem uintptr_natCast {n : Nat} (h : n < 2 ^ 64) : uintptr n = n := by
  rw [uintptr]
  omega

variable {m : WorkMessage} {env : GrowEnv}

/-- What the offset buffer holds once the first message is in it. -/
theorem read_offsets {c : Nat → Int} {size : Nat} (hm : m.Encodes l)
    (hsize : m.offsets.length ≤ size) :
    (Block.mk size (overwrite c 0 m.offsets)).read 0 = some (l.length : Int) ∧
      (Block.mk size (overwrite c 0 m.offsets)).read 1 = some (m.buf.length : Int) ∧
      (Block.mk size (overwrite c 0 m.offsets)).slice 2 l.length = some (m.offsets.drop 2) := by
  have hlen := hm.length_offsets
  obtain ⟨off, hoff, _⟩ := hm.packed
  have hcell : ∀ i, (hi : i < m.offsets.length) →
      overwrite c 0 m.offsets i = m.offsets[i] := by
    intro i hi
    have h := overwrite_mem (c := c) (o := 0) hi
    rwa [Nat.zero_add] at h
  refine ⟨(Block.read_of_lt (show 0 < size by omega)).trans ?_,
    (Block.read_of_lt (show 1 < size by omega)).trans ?_, ?_⟩
  · change some (overwrite c 0 m.offsets 0) = _
    rw [hcell 0 (by omega)]
    simp [hoff]
  · change some (overwrite c 0 m.offsets 1) = _
    rw [hcell 1 (by omega)]
    simp [hoff]
  · have hle : 0 + m.offsets.length ≤ size := by omega
    have h := Block.slice_overwrite (b := ⟨size, c⟩) (n := l.length) (j := 2) hle (by omega)
    rw [Nat.zero_add] at h
    rw [h, List.take_of_length_le (by rw [List.length_drop]; omega)]

/-- The strings of a message lie in the pool it is written to as they lie in the message. -/
theorem packed_written (hm : m.Encodes l) (c : Nat → UInt8) (d : Nat → Nat) :
    Packed (overwrite c 0 m.buf) (overwrite d 0 ((m.offsets.drop 2).map uintptr)) 0 l
      m.buf.length := by
  obtain ⟨off, hoff, hpacked⟩ := hm.packed
  refine hpacked.congr (fun i hi => ?_) fun i hi => ?_
  · have h := overwrite_mem (c := c) (o := 0) hi
    rw [Nat.zero_add] at h
    rw [h, List.getElem?_eq_getElem hi, Option.getD_some]
  · have hdrop : (m.offsets.drop 2).map uintptr =
        (List.range l.length).map fun i => uintptr (off i) := by
      rw [hoff]
      simp only [List.drop_succ_cons, List.drop_zero, List.map_map, Function.comp_def]
    have h := overwrite_mem (c := d) (o := 0) (i := i)
      (l := (List.range l.length).map fun i => uintptr (off i)) (by simpa using hi)
    rw [Nat.zero_add] at h
    have hint : int32Max < 2 ^ 64 := by decide
    have hlt := hpacked.off_lt_head hi
    have hbuf := hm.buf_le
    rw [hdrop, h, List.getElem_map, List.getElem_range]
    exact uintptr_natCast (by omega)

/-- An empty queue takes what a message encodes. -/
theorem Holds.receiveItems (h : q.Holds []) (hm : m.Encodes l) (hl : l.length ≤ maxCapacity)
    (henv : env.strings = true ∧ env.base = true) {c : Nat → Int} {size : Nat}
    (hsize : m.offsets.length ≤ size) :
    ∃ q', q.receiveItems env ⟨size, overwrite c 0 m.offsets⟩ l.length m.buf = some (true, q') ∧
      q'.Filled l := by
  obtain ⟨_, hread, hslice⟩ := read_offsets (c := c) hm hsize
  have hint : int32Max < 2 ^ 64 := by decide
  have hbuf := hm.buf_le
  have hchars : uintptr m.buf.length = m.buf.length := uintptr_natCast (by omega)
  have hhead : q.head = 0 := by
    obtain ⟨b, a, h⟩ := h
    exact h.packed
  -- room for the bytes
  obtain ⟨q₁, hq₁, ⟨b, a, h₁⟩, hbytes⟩ : ∃ q₁, (if q.bytes < q.head + m.buf.length
      then q.extend env (q.head + m.buf.length) else (true, q)) = (true, q₁) ∧
      q₁.Holds [] ∧ m.buf.length ≤ q₁.bytes := by
    rw [hhead, Nat.zero_add]
    split
    next =>
      obtain ⟨q₁, hq₁, h₁, hle, _⟩ := h.extend henv.2 m.buf.length
      exact ⟨q₁, hq₁, h₁, hle⟩
    next hge => exact ⟨q, rfl, h, Nat.le_of_not_lt hge⟩
  have hwrite : b.write 0 m.buf = some ⟨b.size, overwrite b.cell 0 m.buf⟩ :=
    Block.write_of_le (by rw [Nat.zero_add]; exact hbytes.trans_eq h₁.bytes_eq)
  have hwritten : Layout { q₁ with base := some ⟨b.size, overwrite b.cell 0 m.buf⟩ }
      ⟨b.size, overwrite b.cell 0 m.buf⟩ a [] := { h₁ with base := rfl }
  -- room for the offsets
  obtain ⟨q₂, hq₂, ⟨b₂, a₂, h₂⟩, hroom, hbase, hbytes₂⟩ : ∃ q₂,
      (if q₁.strCount < l.length
        then ({ q₁ with base := some ⟨b.size, overwrite b.cell 0 m.buf⟩ } : Queue).strExtend
          env.strings l.length
        else some (true, { q₁ with base := some ⟨b.size, overwrite b.cell 0 m.buf⟩ })) =
        some (true, q₂) ∧ q₂.Holds [] ∧ l.length ≤ q₂.strCount ∧
      q₂.base = some ⟨b.size, overwrite b.cell 0 m.buf⟩ ∧ q₂.bytes = q₁.bytes := by
    split
    next =>
      obtain ⟨q₂, hq₂, h₂, hle, hbase, hbytes₂⟩ := hwritten.holds.strExtend hl
      exact ⟨q₂, henv.1 ▸ hq₂, h₂, hle, hbase, hbytes₂⟩
    next hge => exact ⟨_, rfl, hwritten.holds, Nat.le_of_not_lt hge, rfl, rfl⟩
  obtain rfl : b₂ = ⟨b.size, overwrite b.cell 0 m.buf⟩ := Option.some.inj (h₂.base.symm.trans hbase)
  have hwrite₂ : a₂.write 0 ((m.offsets.drop 2).map uintptr) =
      some ⟨a₂.size, overwrite a₂.cell 0 ((m.offsets.drop 2).map uintptr)⟩ := by
    refine Block.write_of_le ?_
    rw [List.length_map, List.length_drop, hm.length_offsets, Nat.zero_add, Nat.add_sub_cancel]
    exact hroom.trans_eq h₂.strCount_eq
  have hpool := packed_written hm b.cell a₂.cell
  have hzero := hpool.off_zero hm.nonempty
  cases l with
  | nil => exact absurd rfl hm.nonempty
  | cons s l =>
    have hend := hpool.2.1
    have hstr := hpool.str_top (b := ⟨b.size, overwrite b.cell 0 m.buf⟩)
      (hbytes.trans_eq h₁.bytes_eq)
    have htop : Block.read ⟨a₂.size, overwrite a₂.cell 0 ((m.offsets.drop 2).map uintptr)⟩
        ((s :: l).length - 1) =
          some (overwrite a₂.cell 0 ((m.offsets.drop 2).map uintptr) l.length) :=
      Block.read_of_lt (hroom.trans_eq h₂.strCount_eq)
    refine ⟨{ q₂ with
      strings := some ⟨a₂.size, overwrite a₂.cell 0 ((m.offsets.drop 2).map uintptr)⟩
      count := l.length + 1
      head := overwrite a₂.cell 0 ((m.offsets.drop 2).map uintptr) l.length + (s.length + 1) }, ?_,
      _, _, { h₂ with
        strings := rfl
        count_eq := rfl
        count_le := hroom
        head_le := ?_
        packed := ⟨hpool.1, Nat.le_refl _, hpool.2.2⟩
        short := hm.short }, hzero, ?_⟩
    · have hfits : ¬(m.buf.length : Int) < m.buf.length := Int.lt_irrefl _
      simp only [Queue.receiveItems, hread, Option.bind_eq_bind, Option.bind_some, hchars, hq₁,
        hfits, if_false, h₁.base, hwrite, hq₂, hslice, h₂.strings, hwrite₂, hzero, ne_eq,
        not_true_eq_false, htop, hstr]
      rfl
    · rw [hbytes₂]
      exact (Nat.le_of_eq (Nat.add_assoc ..).symm).trans (hend.trans hbytes)
    · intro t ht
      cases ht
      rfl

end Queue

/-! ## The offset array -/

/-- The offset array has the size `count`, which grows in steps of 4096. -/
structure OffsetsBuf.Ok (o : OffsetsBuf) (b : Block Int) : Prop where
  buf : o.buf = some b
  count_eq : o.count = b.size
  count_dvd : 4096 ∣ o.count
  count_max : o.count ≤ maxCapacity

/-- The offset array can be extended exactly if a multiple of 4096 below `2 ^ 31` is enough. -/
theorem OffsetsBuf.Ok.extend {o : OffsetsBuf} {b : Block Int} (h : o.Ok b) {size : Nat}
    (hsize : size ≤ maxCapacity) :
    ∃ o', o.extend true size = some (true, o') ∧ size ≤ o'.count ∧
      o'.Ok ⟨o'.count, b.cell⟩ := by
  unfold OffsetsBuf.extend
  split
  next hle => exact ⟨o, rfl, hle, { h with buf := by rw [h.buf, h.count_eq], count_eq := rfl }⟩
  next =>
    have hmax := growTo_le_max h.count_dvd h.count_max hsize
    have hint := not_int32Max_lt_growTo h.count_dvd h.count_max hsize
    refine ⟨⟨some (b.resize (growTo 4096 size o.count)), growTo 4096 size o.count⟩, ?_,
      size_le_growTo (by decide),
      { buf := rfl, count_eq := rfl, count_dvd := growTo_dvd h.count_dvd, count_max := hmax }⟩
    simp only [h.buf, realloc, hint, if_false, Option.isSome_some]

theorem OffsetsBuf.Ok.extend_eq_none {o : OffsetsBuf} {b : Block Int} (h : o.Ok b) {size : Nat}
    (hsize : maxCapacity < size) : o.extend true size = none := by
  have hle : ¬size ≤ o.count := by
    have := h.count_max
    omega
  have hint := int32Max_lt_growTo h.count_dvd hsize
  simp only [OffsetsBuf.extend, hle, if_false, hint, if_true]

namespace Queue

variable {q : Queue} {l : List Item} {m : WorkMessage} {env : GrowEnv}

/-- An empty queue takes what the messages of a transfer encode, if the offset array can be
extended. -/
theorem Holds.workReceive (h : q.Holds []) (hm : m.Encodes l) {o : OffsetsBuf} {b : Block Int}
    (ho : o.Ok b) (hl : l.length + 2 ≤ maxCapacity)
    (henv : env.strings = true ∧ env.base = true) :
    ∃ o' q', q.workReceive env true o m = some (.work, o', q') ∧ q'.Filled l := by
  have hlen := hm.length_offsets
  have hroom : m.offsets.length ≤ maxCapacity := by omega
  obtain ⟨o', ho', hle, hok⟩ := ho.extend hroom
  have hwrite : Block.write ⟨o'.count, b.cell⟩ 0 m.offsets =
      some ⟨o'.count, overwrite b.cell 0 m.offsets⟩ :=
    Block.write_of_le (by rwa [Nat.zero_add])
  have hread := (read_offsets (c := b.cell) hm hle).1
  obtain ⟨q', hq', hfilled⟩ := h.receiveItems (c := b.cell) hm (by omega) henv hle
  refine ⟨{ o' with buf := some ⟨o'.count, overwrite b.cell 0 m.offsets⟩ }, q', ?_, hfilled⟩
  have hpos : ¬m.offsets.length ≤ 0 := by omega
  have hne : (l.length : Int) ≠ 0 := by
    have := List.length_pos_iff.mpr hm.nonempty
    omega
  have hnot : ¬(l.length : Int) = payloadAbort := by
    have : payloadAbort = -32 := rfl
    omega
  have hnn : ¬(l.length : Int) < 0 := by omega
  simp only [Queue.workReceive, hpos, if_false, ho', hok.buf, Option.bind_eq_bind,
    Option.bind_some, hwrite, hread, hne, hnot, hnn, Int.toNat_natCast, hq']

theorem workReceive_eq_none (hm : m.Encodes l) {o : OffsetsBuf} {b : Block Int} (ho : o.Ok b)
    (hl : maxCapacity < l.length + 2) : q.workReceive env true o m = none := by
  have hlen := hm.length_offsets
  have hpos : ¬m.offsets.length ≤ 0 := by omega
  have hlarge : maxCapacity < m.offsets.length := by omega
  have hextend := ho.extend_eq_none hlarge
  simp only [Queue.workReceive, hpos, if_false, hextend]

/-! ## Transfers -/

/-- The two messages that `q`, which holds the items of `l`, sends when asked for `count` items
move the top `c` of them to `r`, in the same order.  Here `c` is `count` if the items fit, and
`o` is the offset array of the receiver. -/
def Transfers (q : Queue) (l : List Item) (count : Nat) (r : Queue) (env : GrowEnv)
    (o : OffsetsBuf) : Prop :=
  ∃ c m q' o' r', 1 ≤ c ∧ c ≤ count ∧ (∀ k, q.span count = some k → k ≤ int32Max → c = count) ∧
    q.sendWork count = some (.work m, q') ∧ r.workReceive env true o m = some (.work, o', r') ∧
    r'.Filled (l.take c) ∧ q'.Holds (l.drop c)

variable {r : Queue} {o : OffsetsBuf} {b : Block Int} {count k : Nat}

/-- The offset array cannot hold the first message. -/
theorem Holds.not_transfers (h : q.Holds l) (hpos : 1 ≤ count) (hlt : count < l.length)
    (ho : o.Ok b) (hlarge : maxCapacity < count + 2) (hspan : q.span count = some k)
    (hk : k ≤ int32Max) : ¬q.Transfers l count r env o := by
  rintro ⟨_, m', _, _, _, _, _, _, hsend', hrecv, _⟩
  obtain ⟨c, m, _, k', hsend, _, _, hspan', hfit, hm, _⟩ := h.sendWork hpos hlt
  obtain rfl := Option.some.inj (hspan.symm.trans hspan')
  obtain rfl := hfit.mp hk
  obtain ⟨hwork, _⟩ := Prod.mk.inj (Option.some.inj (hsend.symm.trans hsend'))
  obtain rfl := Sent.work.inj hwork
  have hlen : (l.take c).length = c := List.length_take_of_le hlt.le
  rw [workReceive_eq_none hm ho (by omega)] at hrecv
  cases hrecv

/-- A transfer moves the top of one queue to another exactly if not all but one of the largest
number of items are asked for and fit. -/
theorem transfer_iff (h : q.Holds l) (hpos : 1 ≤ count) (hlt : count < l.length) (hr : r.Holds [])
    (ho : o.Ok b) (henv : env.strings = true ∧ env.base = true) :
    q.Transfers l count r env o ↔
      count + 2 ≤ maxCapacity ∨ ∃ k, q.span count = some k ∧ int32Max < k := by
  obtain ⟨c, m, q', k, hsend, hc, hle, hspan, hfit, hm, hrest⟩ := h.sendWork hpos hlt
  have hlen : (l.take c).length = c := List.length_take_of_le (hle.trans hlt.le)
  constructor
  · intro ht
    rcases Nat.lt_or_ge maxCapacity (count + 2) with hlarge | hsmall
    · refine .inr ⟨k, hspan, Nat.lt_of_not_le fun hk => ?_⟩
      exact h.not_transfers hpos hlt ho hlarge hspan hk ht
    · exact .inl hsmall
  · intro hfits
    have hroom : c + 2 ≤ maxCapacity := by
      rcases hfits with hsmall | ⟨k', hspan', hlong⟩
      · omega
      · -- the back-off lowered the count
        obtain rfl := Option.some.inj (hspan.symm.trans hspan')
        have hne : c ≠ count := fun heq => absurd (hfit.mpr heq) (Nat.not_le.mpr hlong)
        have hmax := h.length_le
        omega
    obtain ⟨o', r', hrecv, hfilled⟩ := hr.workReceive hm ho (by omega) henv
    refine ⟨c, m, q', o', r', hc, hle, fun k' hspan' hk' => ?_, hsend, hrecv, hfilled, hrest⟩
    obtain rfl := Option.some.inj (hspan.symm.trans hspan')
    exact hfit.mp hk'

end Queue

/-! ## The largest transfer -/

/-- The top items of a queue of empty strings have one byte each. -/
theorem span_blank {n blocks count : Nat} (hn : n + 1 ≤ 4096 * blocks) (hblocks : blocks ≤ 524287)
    (hpos : 1 ≤ count) (hcount : count ≤ n + 1) :
    (blankQueue (n + 1) blocks).span count = some count := by
  have hlen : (List.replicate n (CStr.empty : Item)).length = n := List.length_replicate
  have h : (blankQueue (n + 1) blocks).span count =
      some ((List.replicate n (CStr.empty : Item)).length -
        ((List.replicate n (CStr.empty : Item)).length + 1 - count) + (0 + 1)) :=
    (layout_blank hn hblocks).span_eq
  rw [h, hlen]
  congr 1
  omega

/-- The offset array of a rank that starts. -/
def freshOffsets : OffsetsBuf := ⟨some ⟨4096, fun _ => 0⟩, 4096⟩

theorem freshOffsets_ok : freshOffsets.Ok ⟨4096, fun _ => 0⟩ where
  buf := rfl
  count_eq := rfl
  count_dvd := Nat.dvd_refl _
  count_max := show 4096 ≤ maxCapacity by decide

namespace Queue

theorem transfer_iff_words :
    (filledQueue words).Transfers words 2 (blankQueue 0 1) {} freshOffsets :=
  (transfer_iff holds_words (by decide) (by decide)
    (layout_blank (by decide) (by decide)).holds freshOffsets_ok ⟨rfl, rfl⟩).mpr (.inl (by decide))

/-- A queue of `2 ^ 31 - 4096` empty strings is asked for all but one. -/
theorem transfer_fails :
    (blankQueue maxCapacity 524287).Holds (List.replicate maxCapacity CStr.empty) ∧
      ¬(blankQueue maxCapacity 524287).Transfers (List.replicate maxCapacity CStr.empty)
        (maxCapacity - 1) (blankQueue 0 1) {} freshOffsets := by
  have h : (blankQueue maxCapacity 524287).Layout _ _ (List.replicate maxCapacity CStr.empty) :=
    layout_blank (by decide) (by decide)
  have hspan : (blankQueue maxCapacity 524287).span (maxCapacity - 1) = some (maxCapacity - 1) :=
    span_blank (n := maxCapacity - 1) (by decide) (by decide) (by decide) (by decide)
  refine ⟨h.holds, h.holds.not_transfers (by decide) ?_ freshOffsets_ok (by decide) hspan
    (by decide)⟩
  rw [List.length_replicate]
  decide

end Queue

end Libcircle
