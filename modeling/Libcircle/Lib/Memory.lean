import Mathlib.Data.List.TakeWhile
import Mathlib.Logic.Function.Basic
import Mathlib.Tactic.Common

/-!
# Blocks of memory and the strings in them

A *block* is what an allocator returns: a size and a content.  Every access is
checked against the size, and an access outside the block has no result.  What a
fresh block holds is arbitrary.

A *C string* is a list of characters none of which is the terminator `0`.
`StrAt` says that a content has a string at an offset, with its terminator, and
`Block.str` reads the string at an offset.  The two agree (`Block.str_eq_some_iff`),
so a proof about reading and writing strings never looks at single characters.

`growTo` is the loop that raises a capacity by a fixed step until it is enough.
-/

/-! ## Blocks -/

/-- A block of memory. -/
structure Block (α : Type*) where
  /-- The number of cells. -/
  size : ℕ
  /-- The content; cells from `size` on are not part of the block. -/
  cell : ℕ → α

variable {α : Type*}

/-- The content `c` with `l` written from offset `o` on. -/
def overwrite (c : ℕ → α) (o : ℕ) (l : List α) : ℕ → α :=
  fun i => if o ≤ i then l[i - o]?.getD (c i) else c i

section Overwrite

variable {c : ℕ → α} {o i : ℕ} {l : List α} {x : α}

theorem overwrite_lt (h : i < o) : overwrite c o l i = c i := if_neg (Nat.not_le.mpr h)

theorem overwrite_mem (h : i < l.length) : overwrite c o l (o + i) = l[i] := by
  rw [overwrite, if_pos (Nat.le_add_right ..), Nat.add_sub_cancel_left,
    List.getElem?_eq_getElem h, Option.getD_some]

theorem overwrite_cons : overwrite c o (x :: l) = overwrite (Function.update c o x) (o + 1) l := by
  funext i
  rcases Nat.lt_trichotomy i o with h | rfl | h
  · rw [overwrite_lt h, overwrite_lt (by omega), Function.update_of_ne (by omega)]
  · rw [overwrite_lt (Nat.lt_succ_self i), Function.update_self]
    exact overwrite_mem (o := i) (i := 0) (l := x :: l) (Nat.succ_pos _)
  · have hsub : i - o = (i - (o + 1)) + 1 := by omega
    rw [overwrite, overwrite, if_pos (by omega), if_pos (by omega), hsub,
      List.getElem?_cons_succ, Function.update_of_ne (by omega)]

theorem overwrite_singleton : overwrite c o [x] = Function.update c o x := by
  rw [overwrite_cons]
  funext i
  rw [overwrite]
  split <;> simp

end Overwrite

namespace Block

variable (b : Block α)

/-- The cell at `i`. -/
def read (i : ℕ) : Option α := if i < b.size then some (b.cell i) else none

/-- Write `l` from offset `o` on. -/
def write (o : ℕ) (l : List α) : Option (Block α) :=
  if o + l.length ≤ b.size then some { b with cell := overwrite b.cell o l } else none

/-- The `n` cells from offset `o` on. -/
def slice (o n : ℕ) : Option (List α) :=
  if o + n ≤ b.size then some ((List.range n).map fun i => b.cell (o + i)) else none

/-- A block of `n` cells with the same content. -/
def resize (n : ℕ) : Block α := { b with size := n }

variable {b} {o n i : ℕ} {l : List α}

theorem read_of_lt (h : i < b.size) : b.read i = some (b.cell i) := if_pos h

theorem write_of_le (h : o + l.length ≤ b.size) :
    b.write o l = some { b with cell := overwrite b.cell o l } := if_pos h

theorem slice_of_le (h : o + n ≤ b.size) :
    b.slice o n = some ((List.range n).map fun i => b.cell (o + i)) := if_pos h

/-- A part of what was written. -/
theorem slice_overwrite {j : ℕ} (hsize : o + l.length ≤ b.size) (hj : j + n ≤ l.length) :
    Block.slice { b with cell := overwrite b.cell o l } (o + j) n = some ((l.drop j).take n) := by
  have hle : o + j + n ≤ b.size := by omega
  refine (if_pos hle).trans (congrArg some ?_)
  refine List.ext_getElem ?_ fun i hi _ => ?_
  · rw [List.length_map, List.length_range, List.length_take, List.length_drop]
    omega
  · rw [List.length_map, List.length_range] at hi
    rw [List.getElem_map, List.getElem_range, List.getElem_take, List.getElem_drop, Nat.add_assoc]
    exact overwrite_mem (by omega)

end Block

/-! ## C strings -/

/-- A string without its terminator. -/
@[ext]
structure CStr (α : Type*) [Zero α] where
  /-- The characters. -/
  chars : List α
  nul_free : ∀ x ∈ chars, x ≠ 0

section Strings

variable [Zero α]

namespace CStr

/-- `strlen`. -/
def length (s : CStr α) : ℕ := s.chars.length

/-- The characters with the terminator, as `strcpy` copies them. -/
def toBuffer (s : CStr α) : List α := s.chars ++ [0]

@[simp] theorem length_toBuffer (s : CStr α) : s.toBuffer.length = s.length + 1 := by
  simp [toBuffer, length]

/-- The empty string. -/
def empty : CStr α := ⟨[], by simp⟩

/-- The string in a buffer, up to the first terminator. -/
def ofBuffer [DecidableEq α] (l : List α) : CStr α :=
  ⟨l.takeWhile fun x => !decide (x = 0), fun x hx => by simpa using List.mem_takeWhile_imp hx⟩

/-- The string without its last character. -/
def dropLast (s : CStr α) : CStr α :=
  ⟨s.chars.dropLast, fun x hx => s.nul_free x (List.dropLast_subset _ hx)⟩

/-- One more character in front. -/
def cons (x : α) (hx : x ≠ 0) (s : CStr α) : CStr α :=
  ⟨x :: s.chars, List.forall_mem_cons.mpr ⟨hx, s.nul_free⟩⟩

instance [DecidableEq α] : DecidableEq (CStr α) := fun s t =>
  decidable_of_iff (s.chars = t.chars) (CStr.ext_iff).symm

end CStr

/-- The content `c` has the characters `l` and a terminator from offset `o` on. -/
def StrAt (c : ℕ → α) : ℕ → List α → Prop
  | o, [] => c o = 0
  | o, x :: l => c o = x ∧ x ≠ 0 ∧ StrAt c (o + 1) l

section StrAt

variable {c c' : ℕ → α} {o o' k : ℕ} {l l' : List α}

/-- Only the characters and the terminator matter. -/
theorem StrAt.congr (h : StrAt c o l) (hc : ∀ i, i ≤ l.length → c' (o' + i) = c (o + i)) :
    StrAt c' o' l := by
  induction l generalizing o o' with
  | nil => exact (hc 0 (Nat.le_refl 0)).trans h
  | cons x l ih =>
      obtain ⟨hx, hne, hl⟩ := h
      refine ⟨(hc 0 (Nat.zero_le _)).trans hx, hne, ih hl fun i hi => ?_⟩
      rw [Nat.add_assoc, Nat.add_assoc, Nat.add_comm 1 i]
      exact hc (i + 1) (Nat.succ_le_succ hi)

/-- There is one string at an offset. -/
theorem StrAt.unique (h : StrAt c o l) (h' : StrAt c o l') : l = l' := by
  induction l generalizing o l' with
  | nil =>
      cases l' with
      | nil => rfl
      | cons y l' => exact absurd (h'.1.symm.trans h) h'.2.1
  | cons x l ih =>
      cases l' with
      | nil => exact absurd (h.1.symm.trans h') h.2.1
      | cons y l' =>
          obtain rfl := h.1.symm.trans h'.1
          rw [ih h.2.2 h'.2.2]

/-- `strcpy`. -/
theorem strAt_overwrite (c : ℕ → α) (o : ℕ) (s : CStr α) :
    StrAt (overwrite c o s.toBuffer) o s.chars := by
  obtain ⟨l, hl⟩ := s
  change StrAt (overwrite c o (l ++ [0])) o l
  induction l generalizing c o with
  | nil => exact overwrite_mem (o := o) (i := 0) (l := [0]) (Nat.succ_pos 0)
  | cons x l ih =>
      obtain ⟨hx, hl⟩ := List.forall_mem_cons.mp hl
      refine ⟨overwrite_mem (o := o) (i := 0) (l := x :: (l ++ [0])) (Nat.succ_pos _), hx, ?_⟩
      rw [List.cons_append, overwrite_cons]
      exact ih _ _ hl

end StrAt

/-! ## Reading a string -/

section Read

variable [DecidableEq α]

/-- The string from offset `o` on, if its terminator is among the next `n` cells. -/
def strFrom (c : ℕ → α) : ℕ → ℕ → Option (CStr α)
  | 0, _ => none
  | n + 1, o => if h : c o = 0 then some .empty else (strFrom c n (o + 1)).map (.cons (c o) h)

/-- The string at offset `o`. -/
def Block.str (b : Block α) (o : ℕ) : Option (CStr α) := strFrom b.cell (b.size - o) o

theorem strFrom_eq_some_iff {c : ℕ → α} {n o : ℕ} {s : CStr α} :
    strFrom c n o = some s ↔ StrAt c o s.chars ∧ s.length < n := by
  induction n generalizing o s with
  | zero => simp [strFrom]
  | succ n ih =>
      obtain ⟨l, hl⟩ := s
      by_cases h : c o = 0
      · cases l with
        | nil => simp [strFrom, h, StrAt, CStr.empty, CStr.length]
        | cons x l =>
            simp only [strFrom, h, dif_pos, StrAt, CStr.empty]
            constructor
            · intro heq
              cases heq
            · rintro ⟨⟨rfl, hx, _⟩, _⟩
              exact absurd rfl hx
      · cases l with
        | nil => simp [strFrom, h, StrAt, CStr.cons]
        | cons x l =>
            obtain ⟨hx, hl'⟩ := List.forall_mem_cons.mp hl
            have ih := @ih (o + 1) ⟨l, hl'⟩
            simp only [strFrom, h, dif_neg, not_false_eq_true, Option.map_eq_some_iff, StrAt,
              CStr.length, List.length_cons, Nat.succ_lt_succ_iff] at ih ⊢
            constructor
            · rintro ⟨s, hs, heq⟩
              obtain ⟨rfl, rfl⟩ := List.cons.inj (congrArg CStr.chars heq)
              have hs' := ih.mp hs
              exact ⟨⟨rfl, hx, hs'.1⟩, hs'.2⟩
            · rintro ⟨⟨rfl, _, hs⟩, hlt⟩
              exact ⟨⟨l, hl'⟩, ih.mpr ⟨hs, hlt⟩, rfl⟩

/-- What `strlen` and `strcpy` find at an offset. -/
theorem Block.str_eq_some_iff {b : Block α} {o : ℕ} {s : CStr α} :
    b.str o = some s ↔ StrAt b.cell o s.chars ∧ o + s.length < b.size := by
  rw [Block.str, strFrom_eq_some_iff]
  exact and_congr_right fun _ => by omega

end Read

end Strings

/-! ## Allocation -/

/-- `realloc` to `n` cells; `ok` says whether it succeeds.  A null block is allocated anew. -/
def realloc [Inhabited α] (ok : Bool) (b : Option (Block α)) (n : ℕ) : Option (Block α) :=
  match ok, b with
  | false, _ => none
  | true, some b => some (b.resize n)
  | true, none => some ⟨n, fun _ => default⟩

/-- `while(cap < size) cap += step`, for at most `n` rounds. -/
def growLoop (step size : ℕ) : ℕ → ℕ → ℕ
  | 0, cap => cap
  | n + 1, cap => if cap < size then growLoop step size n (cap + step) else cap

/-- The capacity after it has been raised by `step` until it is at least `size`. -/
def growTo (step size cap : ℕ) : ℕ := growLoop step size size cap

section Grow

variable {step size cap n m : ℕ}

/-- The loop stops at the first capacity that is large enough. -/
theorem growLoop_le (hm : cap ≤ m) (hdvd : step ∣ m - cap) (hsize : size ≤ m) :
    growLoop step size n cap ≤ m := by
  induction n generalizing cap with
  | zero => exact hm
  | succ n ih =>
      rw [growLoop]
      split
      next hlt =>
        obtain ⟨k, hk⟩ := hdvd
        cases k with
        | zero => omega
        | succ k =>
            rw [Nat.mul_succ] at hk
            exact ih (by omega) ⟨k, by omega⟩
      next => exact hm

theorem growLoop_dvd : cap ≤ growLoop step size n cap ∧ step ∣ growLoop step size n cap - cap := by
  induction n generalizing cap with
  | zero => exact ⟨Nat.le_refl _, ⟨0, by simp [growLoop]⟩⟩
  | succ n ih =>
      rw [growLoop]
      split
      next =>
        obtain ⟨hle, k, hk⟩ : cap + step ≤ growLoop step size n (cap + step) ∧
            step ∣ growLoop step size n (cap + step) - (cap + step) := ih
        refine ⟨by omega, k + 1, ?_⟩
        rw [Nat.mul_succ]
        omega
      next => exact ⟨Nat.le_refl _, ⟨0, by simp⟩⟩

theorem size_le_growLoop (hstep : 0 < step) (hn : size ≤ cap + n) :
    size ≤ growLoop step size n cap := by
  induction n generalizing cap with
  | zero => exact hn
  | succ n ih =>
      rw [growLoop]
      split
      next => exact ih (by omega)
      next hge => exact Nat.le_of_not_lt hge

theorem size_le_growTo (hstep : 0 < step) : size ≤ growTo step size cap :=
  size_le_growLoop hstep (Nat.le_add_left ..)

theorem le_growTo : cap ≤ growTo step size cap := growLoop_dvd.1

theorem growTo_dvd (h : step ∣ cap) : step ∣ growTo step size cap := by
  have hdvd : step ∣ growTo step size cap - cap := growLoop_dvd.2
  have hsum := Nat.dvd_add hdvd h
  rwa [Nat.sub_add_cancel le_growTo] at hsum

/-- A capacity that is enough is kept. -/
theorem growTo_of_ge (h : size ≤ cap) : growTo step size cap = cap :=
  Nat.le_antisymm (growLoop_le (Nat.le_refl _) (by simp) h) le_growTo

/-- A capacity that is not enough is raised by one step first. -/
theorem growTo_of_lt (hstep : 0 < step) (h : cap < size) :
    growTo step size cap = growTo step size (cap + step) := by
  have hle : cap ≤ growTo step size cap := le_growTo
  have hle' : cap + step ≤ growTo step size (cap + step) := le_growTo
  have hsize : size ≤ growTo step size cap := size_le_growTo hstep
  have hsize' : size ≤ growTo step size (cap + step) := size_le_growTo hstep
  obtain ⟨k, hk⟩ : step ∣ growTo step size cap - cap := growLoop_dvd.2
  obtain ⟨k', hk'⟩ : step ∣ growTo step size (cap + step) - (cap + step) := growLoop_dvd.2
  refine Nat.le_antisymm (growLoop_le (by omega) ⟨k' + 1, ?_⟩ hsize') ?_
  · rw [Nat.mul_succ]
    omega
  · cases k with
    | zero => omega
    | succ k =>
        rw [Nat.mul_succ] at hk
        exact growLoop_le (by omega) ⟨k, by omega⟩ hsize

/-- A multiple of the step that is large enough is not exceeded. -/
theorem growTo_le (hcap : step ∣ cap) (hm : step ∣ m) (hle : cap ≤ m) (hsize : size ≤ m) :
    growTo step size cap ≤ m :=
  growLoop_le hle (Nat.dvd_sub hm hcap) hsize

end Grow
