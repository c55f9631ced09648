import Mathlib.Order.Nat
import Libcircle.Model.Queue

/-!
# The items a queue holds

`q.Holds l` is the representation invariant of a queue: its bytes are a pool of
the strings of `l`, the top of the stack first, and the two blocks have the sizes
`bytes` and `str_count`.  Each function of `queue.c` is proved against it
once.  With allocation succeeding a push adds a string at the top, unless it is
longer than a queue accepts, and a pop takes it off again.
-/

namespace Libcircle

/-- The largest multiple of 4096 in the range of `int32_t`, which is the largest `str_count`. -/
def maxCapacity : Nat := 2 ^ 31 - 4096

section Capacity

variable {cap size : Nat} (hdvd : 4096 ∣ cap)
include hdvd

/-- A capacity that grows in steps of 4096 stays in the range of `int32_t` if a multiple of 4096
in that range is enough. -/
theorem growTo_le_max (hcap : cap ≤ maxCapacity) (hsize : size ≤ maxCapacity) :
    growTo 4096 size cap ≤ maxCapacity :=
  growTo_le hdvd (by decide) hcap hsize

theorem not_int32Max_lt_growTo (hcap : cap ≤ maxCapacity) (hsize : size ≤ maxCapacity) :
    ¬int32Max < growTo 4096 size cap :=
  Nat.not_lt.mpr ((growTo_le_max hdvd hcap hsize).trans (by decide))

/-- Otherwise it leaves the range. -/
theorem int32Max_lt_growTo (hsize : maxCapacity < size) : int32Max < growTo 4096 size cap := by
  obtain ⟨k, hk⟩ : 4096 ∣ growTo 4096 size cap := growTo_dvd hdvd
  have hgrow : size ≤ growTo 4096 size cap := size_le_growTo (by decide)
  have hmax : maxCapacity = 4096 * 524287 := rfl
  have hmax' : int32Max = 4096 * 524288 - 1 := rfl
  omega

end Capacity

namespace Queue

/-- The queue has the blocks `b` and `a`, and holds the items of `l`, the top first. -/
structure Layout (q : Queue) (b : Block UInt8) (a : Block Nat) (l : List Item) : Prop where
  base : q.base = some b
  strings : q.strings = some a
  bytes_eq : q.bytes = b.size
  strCount_eq : q.strCount = a.size
  /-- `str_count` grows in steps of 4096. -/
  strCount_dvd : 4096 ∣ q.strCount
  strCount_max : q.strCount ≤ maxCapacity
  count_eq : q.count = l.length
  count_le : q.count ≤ q.strCount
  head_le : q.head ≤ q.bytes
  packed : Packed b.cell a.cell 0 l q.head
  short : ∀ s ∈ l, s.length < maxStringLen

/-- The representation invariant: `q` holds the items of `l`, the top first. -/
def Holds (q : Queue) (l : List Item) : Prop := ∃ b a, q.Layout b a l

variable {q : Queue} {l : List Item} {s : Item} {env : GrowEnv}

theorem Layout.holds {b : Block UInt8} {a : Block Nat} (h : q.Layout b a l) : q.Holds l :=
  ⟨b, a, h⟩

theorem Holds.count_eq (h : q.Holds l) : q.count = l.length := by
  obtain ⟨_, _, h⟩ := h
  exact h.count_eq

theorem Holds.length_le (h : q.Holds l) : l.length ≤ maxCapacity := by
  obtain ⟨_, _, h⟩ := h
  exact h.count_eq ▸ h.count_le.trans h.strCount_max

theorem Holds.short (h : q.Holds l) : ∀ s ∈ l, s.length < maxStringLen := by
  obtain ⟨_, _, h⟩ := h
  exact h.short

/-- A queue holds one list of items. -/
theorem Holds.unique {l' : List Item} (h : q.Holds l) (h' : q.Holds l') : l = l' := by
  obtain ⟨b, a, h⟩ := h
  obtain ⟨b', a', h'⟩ := h'
  obtain rfl := Option.some.inj (h.base.symm.trans h'.base)
  obtain rfl := Option.some.inj (h.strings.symm.trans h'.strings)
  exact h.packed.unique h'.packed (h.count_eq.symm.trans h'.count_eq)

theorem holds_init (bytes : Nat → UInt8) (offsets : Nat → Nat) : (init bytes offsets).Holds [] :=
  ⟨_, _, {
    base := rfl
    strings := rfl
    bytes_eq := rfl
    strCount_eq := rfl
    strCount_dvd := Nat.dvd_refl _
    strCount_max := show initialQueueSize ≤ maxCapacity by decide
    count_eq := rfl
    count_le := Nat.zero_le _
    head_le := Nat.zero_le _
    packed := rfl
    short := by simp }⟩

/-! ## Growing -/

/-- The string array grows when there is room for another multiple of 4096. -/
theorem Holds.strExtend (h : q.Holds l) {n : Nat} (hn : n ≤ maxCapacity) :
    ∃ q', q.strExtend true n = some (true, q') ∧ q'.Holds l ∧ n ≤ q'.strCount ∧
      q'.base = q.base ∧ q'.bytes = q.bytes := by
  obtain ⟨b, a, h⟩ := h
  have hdvd : 4096 ∣ growTo 4096 n q.strCount := growTo_dvd h.strCount_dvd
  have hmax := growTo_le_max h.strCount_dvd h.strCount_max hn
  have hle : q.strCount ≤ growTo 4096 n q.strCount := le_growTo
  have hint := not_int32Max_lt_growTo h.strCount_dvd h.strCount_max hn
  refine ⟨{ q with
    strCount := growTo 4096 n q.strCount
    strings := some (a.resize (growTo 4096 n q.strCount)) }, ?_,
    Layout.holds (b := b) (a := a.resize (growTo 4096 n q.strCount)) ?_,
    size_le_growTo (by decide), rfl, rfl⟩
  · simp only [Queue.strExtend, h.strings, realloc, hint, if_false, Option.isSome_some]
  · exact { h with
      strings := rfl
      strCount_eq := rfl
      strCount_dvd := hdvd
      strCount_max := hmax
      count_le := h.count_le.trans hle }

/-- The byte pool grows. -/
theorem Holds.extend (h : q.Holds l) (henv : env.base = true) (n : Nat) :
    ∃ q', q.extend env n = (true, q') ∧ q'.Holds l ∧ n ≤ q'.bytes ∧ q'.strCount = q.strCount ∧
      q'.head = q.head := by
  obtain ⟨b, a, h⟩ := h
  have hle : q.bytes ≤ growTo (env.pageSize * 4096) n q.bytes := le_growTo
  refine ⟨{ q with
    base := some (b.resize (growTo (env.pageSize * 4096) n q.bytes))
    bytes := growTo (env.pageSize * 4096) n q.bytes }, ?_,
    Layout.holds (b := b.resize (growTo (env.pageSize * 4096) n q.bytes)) (a := a) ?_,
    size_le_growTo (Nat.mul_pos env.pageSize_pos (by decide)), rfl, rfl⟩
  · simp only [Queue.extend, h.base, henv, realloc]
  · exact { h with
      base := rfl
      bytes_eq := rfl
      head_le := h.head_le.trans hle }

/-! ## Push and pop -/

/-- A string is stored above the top when both blocks have room for it. -/
theorem Holds.store (h : q.Holds l) (hs : s.length < maxStringLen)
    (hcount : q.count + 1 ≤ q.strCount) (hbytes : q.head + (s.length + 1) ≤ q.bytes) :
    ∃ q', q.store s (s.length + 1) = some q' ∧ q'.Holds (s :: l) := by
  obtain ⟨b, a, h⟩ := h
  have hwa : q.count + [q.head].length ≤ a.size := hcount.trans_eq h.strCount_eq
  have hwb : q.head + s.toBuffer.length ≤ b.size := by
    rw [CStr.length_toBuffer]
    exact hbytes.trans_eq h.bytes_eq
  refine ⟨{ q with
    strings := some { a with cell := overwrite a.cell q.count [q.head] }
    base := some { b with cell := overwrite b.cell q.head s.toBuffer }
    head := q.head + (s.length + 1)
    count := q.count + 1 }, ?_,
    Layout.holds (b := { b with cell := overwrite b.cell q.head s.toBuffer })
      (a := { a with cell := overwrite a.cell q.count [q.head] }) ?_⟩
  · simp only [Queue.store, h.strings, h.base, Option.bind_eq_bind, Option.bind_some,
      Block.write_of_le hwa, Block.write_of_le hwb]
    rfl
  · refine { h with
      base := rfl
      strings := rfl
      count_eq := congrArg (· + 1) h.count_eq
      count_le := hcount
      head_le := hbytes
      packed := (h.packed.push s).congr (fun _ _ => rfl) fun i _ => ?_
      short := List.forall_mem_cons.mpr ⟨hs, h.short⟩ }
    rw [h.count_eq, overwrite_singleton]

/-- A push of a string that is not too long adds it at the top. -/
theorem Holds.push (h : q.Holds l) (henv : env.strings = true ∧ env.base = true)
    (hs : s.length < maxStringLen) (hl : l.length < maxCapacity) :
    ∃ q', q.push env (some s) = some (true, q') ∧ q'.Holds (s :: l) := by
  have hlen : (s.length + 1) % 2 ^ 32 = s.length + 1 :=
    Nat.mod_eq_of_lt (by have : maxStringLen = 4096 := rfl; omega)
  have hcount := h.count_eq
  -- room in the string array
  obtain ⟨q₁, hq₁, h₁, hroom⟩ : ∃ q₁, (if q.strCount < q.count + 1
      then q.strExtend env.strings (q.count + 1) else some (true, q)) = some (true, q₁) ∧
      q₁.Holds l ∧ q₁.count + 1 ≤ q₁.strCount := by
    split
    next =>
      obtain ⟨q₁, hq₁, h₁, hle, _⟩ := h.strExtend (n := q.count + 1) (by omega)
      refine ⟨q₁, henv.1 ▸ hq₁, h₁, ?_⟩
      rwa [h₁.count_eq, ← hcount]
    next hge => exact ⟨q, rfl, h, Nat.le_of_not_lt hge⟩
  -- room in the byte pool
  obtain ⟨q₂, hq₂, h₂, hroom₂, hbytes⟩ : ∃ q₂, (if q₁.bytes < q₁.head + (s.length + 1)
      then q₁.extend env (q₁.head + (s.length + 1)) else (true, q₁)) = (true, q₂) ∧
      q₂.Holds l ∧ q₂.count + 1 ≤ q₂.strCount ∧ q₂.head + (s.length + 1) ≤ q₂.bytes := by
    split
    next =>
      obtain ⟨q₂, hq₂, h₂, hle, hstr, hhead⟩ := h₁.extend henv.2 (q₁.head + (s.length + 1))
      refine ⟨q₂, hq₂, h₂, ?_, by rwa [hhead]⟩
      rwa [h₂.count_eq, ← h₁.count_eq, hstr]
    next hge => exact ⟨q₁, rfl, h₁, hroom, Nat.le_of_not_lt hge⟩
  obtain ⟨q₃, hq₃, h₃⟩ := h₂.store hs hroom₂ hbytes
  refine ⟨q₃, ?_, h₃⟩
  have hpos : ¬s.length + 1 ≤ 0 := Nat.not_succ_le_zero _
  have hmax : ¬maxStringLen < s.length + 1 := Nat.not_lt.mpr hs
  simp only [Queue.push, hlen, hpos, hmax, hq₁, hq₂, hq₃, if_false, Option.map_some]

/-- The length that `CIRCLE_internal_queue_push` computes. -/
def pushLen (s : Item) : Nat := (s.length + 1) % 2 ^ 32

/-- `CIRCLE_internal_queue_push` does not turn the string away. -/
def Accepts (s : Item) : Prop := 0 < pushLen s ∧ pushLen s ≤ maxStringLen

instance (s : Item) : Decidable (Accepts s) := inferInstanceAs (Decidable (_ ∧ _))

/-- A string that is turned away is not looked at again. -/
theorem push_rejected (hs : ¬Accepts s) : q.push env (some s) = some (false, q) := by
  simp only [Accepts, pushLen, not_and_or, Nat.not_lt, Nat.not_le] at hs
  simp only [Queue.push]
  rcases hs with hs | hs
  · rw [if_pos hs]
  · rw [if_neg (by omega), if_pos hs]

/-- The two calls of `realloc` and the copy. -/
theorem push_accepted (hs : Accepts s) :
    q.push env (some s) =
      match if q.strCount < q.count + 1 then q.strExtend env.strings (q.count + 1)
        else some (true, q) with
      | none => none
      | some (false, q) => some (false, q)
      | some (true, q) =>
          match if q.bytes < q.head + pushLen s then q.extend env (q.head + pushLen s)
            else (true, q) with
          | (false, q) => some (false, q)
          | (true, q) => (q.store s (pushLen s)).map fun q => (true, q) := by
  have hzero : ¬(s.length + 1) % 2 ^ 32 ≤ 0 := Nat.not_le.mpr hs.1
  have hlong : ¬maxStringLen < (s.length + 1) % 2 ^ 32 := Nat.not_lt.mpr hs.2
  simp only [Queue.push, hzero, hlong, if_false]
  rfl

/-- The string array cannot grow beyond the range of `int32_t`. -/
theorem Holds.strExtend_full (h : q.Holds l) (hl : l.length = maxCapacity) (ok : Bool) :
    q.strExtend ok (q.count + 1) = none := by
  have hcount := h.count_eq
  obtain ⟨b, a, h⟩ := h
  have hint : int32Max < growTo 4096 (q.count + 1) q.strCount :=
    int32Max_lt_growTo h.strCount_dvd (by omega)
  simp only [Queue.strExtend, hint, if_true]

/-- The length of a string that is not too long is not cut. -/
theorem accepts_of_length (hs : s.length < maxStringLen) :
    Accepts s ∧ pushLen s = s.length + 1 := by
  have hlen : pushLen s = s.length + 1 :=
    Nat.mod_eq_of_lt (by have : maxStringLen = 4096 := rfl; omega)
  exact ⟨⟨hlen ▸ Nat.succ_pos _, hlen ▸ hs⟩, hlen⟩

/-- No string that is accepted is pushed on a queue with the largest number of items. -/
theorem Holds.push_full_of_accepts (h : q.Holds l) (hs : Accepts s)
    (hl : l.length = maxCapacity) : q.push env (some s) = none := by
  have hext : q.strCount < q.count + 1 := by
    have hcount := h.count_eq
    obtain ⟨b, a, hlayout⟩ := id h
    have hmax := hlayout.strCount_max
    omega
  rw [push_accepted hs, if_pos hext, h.strExtend_full hl]

theorem Holds.push_full (h : q.Holds l) (hs : s.length < maxStringLen)
    (hl : l.length = maxCapacity) : q.push env (some s) = none :=
  h.push_full_of_accepts (accepts_of_length hs).1 hl

/-- A string that is too long is turned away, and the queue is not touched. -/
theorem push_long (hs : maxStringLen ≤ s.length) (hlen : s.length + 1 < 2 ^ 32) :
    q.push env (some s) = some (false, q) := by
  have hmod : pushLen s = s.length + 1 := Nat.mod_eq_of_lt hlen
  refine push_rejected fun hacc => ?_
  have hle : s.length + 1 ≤ maxStringLen := hmod.symm.trans_le hacc.2
  omega

/-- A pop returns the top string. -/
theorem Holds.pop (h : q.Holds (s :: l)) : ∃ q', q.pop = some (some s, q') ∧ q'.Holds l := by
  obtain ⟨b, a, h⟩ := h
  have hcount : q.count = l.length + 1 := h.count_eq
  have hlt : ¬q.count < 1 := by omega
  have hindex : q.count - 1 = l.length := by omega
  have hread : a.read (q.count - 1) = some (a.cell l.length) := by
    rw [hindex]
    refine Block.read_of_lt ?_
    have := h.count_le.trans_eq h.strCount_eq
    omega
  have hstr : b.str (a.cell l.length) = some s := h.packed.str_top (h.head_le.trans_eq h.bytes_eq)
  have htop := h.packed.2.1
  refine ⟨{ q with head := a.cell l.length, count := q.count - 1 }, ?_,
    Layout.holds (b := b) (a := a) ?_⟩
  · simp only [Queue.pop, hlt, if_false, h.strings, h.base, Option.bind_eq_bind, Option.bind_some,
      hread, hstr]
    rfl
  · exact { h with
      count_eq := hindex
      count_le := (Nat.sub_le _ _).trans h.count_le
      head_le := by
        have := h.head_le
        change a.cell l.length ≤ q.bytes
        omega
      packed := h.packed.2.2
      short := fun t ht => h.short t (List.mem_cons_of_mem _ ht) }

/-- An empty queue has nothing to pop. -/
theorem Holds.pop_nil (h : q.Holds []) : q.pop = some (none, q) := by
  have hcount : q.count < 1 := h.count_eq ▸ Nat.zero_lt_one
  simp only [Queue.pop, hcount, if_true]

end Queue

/-! ## Given queues -/

/-- A queue that holds `n` empty strings and has `blocks` times the initial capacities. -/
def blankQueue (n blocks : Nat) : Queue where
  base := some ⟨4096 * 4096 * blocks, fun _ => 0⟩
  bytes := 4096 * 4096 * blocks
  head := n
  strings := some ⟨4096 * blocks, id⟩
  strCount := 4096 * blocks
  count := n

theorem packed_blank (n : Nat) :
    Packed (fun _ => (0 : UInt8)) id 0 (List.replicate n CStr.empty) n := by
  induction n with
  | zero => rfl
  | succ n ih =>
      rw [List.replicate_succ]
      have hlen : (List.replicate n (CStr.empty : Item)).length = n := List.length_replicate
      refine ⟨rfl, ?_, ?_⟩
      · rw [hlen]
        exact Nat.le_refl _
      · rwa [hlen]

theorem layout_blank {n blocks : Nat} (hn : n ≤ 4096 * blocks) (hblocks : blocks ≤ 524287) :
    (blankQueue n blocks).Layout ⟨4096 * 4096 * blocks, fun _ => 0⟩ ⟨4096 * blocks, id⟩
      (List.replicate n CStr.empty) where
  base := rfl
  strings := rfl
  bytes_eq := rfl
  strCount_eq := rfl
  strCount_dvd := ⟨blocks, rfl⟩
  strCount_max := Nat.mul_le_mul_left 4096 hblocks
  count_eq := List.length_replicate.symm
  count_le := hn
  head_le := by
    change n ≤ 4096 * 4096 * blocks
    omega
  packed := packed_blank n
  short := by
    intro s hs
    rw [List.eq_of_mem_replicate hs]
    decide

/-- The queue after the items of `l` have been pushed, the last one first. -/
def filledQueue : List Item → Queue
  | [] => blankQueue 0 1
  | s :: l => (((filledQueue l).push .ok (some s)).map Prod.snd).getD (filledQueue l)

/-- Every list of items that is not too long is held by a queue. -/
theorem holds_filled {l : List Item} (hl : l.length ≤ maxCapacity)
    (hs : ∀ s ∈ l, s.length < maxStringLen) : (filledQueue l).Holds l := by
  induction l with
  | nil => exact (layout_blank (n := 0) (by decide) (by decide)).holds
  | cons s l ih =>
      obtain ⟨hs, hshort⟩ := List.forall_mem_cons.mp hs
      have henv : GrowEnv.ok.strings = true ∧ GrowEnv.ok.base = true := ⟨rfl, rfl⟩
      obtain ⟨q, hpush, hq⟩ := (ih (Nat.le_of_succ_le hl) hshort).push henv hs hl
      rwa [filledQueue, hpush]

def words : List Item :=
  [CStr.ofBuffer [97], CStr.ofBuffer [98, 98], CStr.ofBuffer [99, 99, 99], CStr.ofBuffer [100]]

theorem holds_words : (filledQueue words).Holds words := holds_filled (by decide) (by decide)

end Libcircle
