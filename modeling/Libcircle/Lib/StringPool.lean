import Libcircle.Lib.Memory

/-!
# A stack of strings in a pool

A *string pool* keeps a stack of C strings in one block of memory, with the
offset of each string in an array and the offset of the first free cell in
`head`.  `Packed c off lo l head` says that the strings of `l`, the top of the
stack first, lie in the content `c` one above the other, from `lo` on and below
`head`, at the offsets `off 0`, `off 1`, … from the bottom up.  There may be
gaps between them.

Push, pop, removal from the top without lowering `head`, and copying the upper
part of the stack to the bottom of another pool all keep the predicate.
-/

variable {α : Type*} [Zero α]

/-- The strings of `l`, the top first, in the content `c` at the offsets `off`. -/
def Packed (c : ℕ → α) (off : ℕ → ℕ) (lo : ℕ) : List (CStr α) → ℕ → Prop
  | [], head => head = lo
  | s :: l, head =>
      StrAt c (off l.length) s.chars ∧ off l.length + s.length + 1 ≤ head ∧
        Packed c off lo l (off l.length)

namespace Packed

variable {c c' : ℕ → α} {off off' : ℕ → ℕ} {lo head head' i : ℕ} {s : CStr α}
  {l top rest : List (CStr α)}

theorem lo_le (h : Packed c off lo l head) : lo ≤ head := by
  induction l generalizing head with
  | nil => exact Nat.le_of_eq h.symm
  | cons s l ih =>
      have hle := ih h.2.2
      have hlt := h.2.1
      omega

/-- The bottom string lies at the bottom of the pool. -/
theorem off_zero (h : Packed c off lo l head) (hl : l ≠ []) : off 0 = lo := by
  induction l generalizing head with
  | nil => exact absurd rfl hl
  | cons s l ih =>
      cases l with
      | nil => exact h.2.2
      | cons t l => exact ih h.2.2 (List.cons_ne_nil _ _)

theorem off_lt_head (h : Packed c off lo l head) (hi : i < l.length) : off i < head := by
  induction l generalizing head with
  | nil => cases hi
  | cons s l ih =>
      have hlt := h.2.1
      rcases Nat.lt_succ_iff_lt_or_eq.mp hi with hi | rfl
      · have := ih h.2.2 hi
        omega
      · omega

/-- The offsets increase. -/
theorem off_lt (h : Packed c off lo l head) (hi : i + 1 < l.length) : off i < off (i + 1) := by
  induction l generalizing head with
  | nil => cases hi
  | cons s l ih =>
      rcases Nat.lt_succ_iff_lt_or_eq.mp hi with hi | heq
      · exact ih h.2.2 hi
      · rw [heq]
        exact off_lt_head h.2.2 (by omega)

/-- A pool has one stack of each height. -/
theorem unique {l' : List (CStr α)} (h : Packed c off lo l head) (h' : Packed c off lo l' head')
    (hlen : l.length = l'.length) : l = l' := by
  induction l generalizing l' head head' with
  | nil => exact (List.length_eq_zero_iff.mp hlen.symm).symm
  | cons s l ih =>
      cases l' with
      | nil => cases hlen
      | cons s' l' =>
          have hlen : l.length = l'.length := Nat.succ.inj hlen
          have hs' := h'.1
          rw [← hlen] at hs'
          rw [CStr.ext (h.1.unique hs'), ih h.2.2 h'.2.2 hlen]

/-- The strings from the bottom up: each ends before the next one starts. -/
theorem str_at (h : Packed c off lo l head) (hi : i < l.length) :
    ∃ s, l.reverse[i]? = some s ∧ StrAt c (off i) s.chars ∧
      off i + s.length + 1 ≤ if i + 1 < l.length then off (i + 1) else head := by
  induction l generalizing head with
  | nil => cases hi
  | cons s l ih =>
      rw [List.reverse_cons, List.length_cons]
      rcases Nat.lt_succ_iff_lt_or_eq.mp hi with hi | rfl
      · obtain ⟨t, hget, hstr, hle⟩ := ih h.2.2 hi
        refine ⟨t, ?_, hstr, ?_⟩
        · rwa [List.getElem?_append_left (by rwa [List.length_reverse])]
        · rw [if_pos (Nat.succ_lt_succ hi)]
          split at hle
          next => exact hle
          next hge => rwa [show i + 1 = l.length by omega]
      · refine ⟨s, ?_, h.1, ?_⟩
        · rw [← List.length_reverse, List.getElem?_concat_length]
        · rw [if_neg (Nat.lt_irrefl _)]
          exact h.2.1

/-- The cells below `head` and the offsets of the strings are all that matters. -/
theorem congr (h : Packed c off lo l head) (hc : ∀ i, i < head → c' i = c i)
    (hoff : ∀ i, i < l.length → off' i = off i) : Packed c' off' lo l head := by
  induction l generalizing head with
  | nil => exact h
  | cons s l ih =>
      obtain ⟨hs, hlt, hl⟩ := h
      have hi := hoff l.length (Nat.lt_succ_self _)
      refine ⟨?_, by rwa [hi], ?_⟩
      · rw [hi]
        refine hs.congr fun i hi => hc _ ?_
        have : s.length = s.chars.length := rfl
        omega
      · rw [hi]
        exact ih hl (fun i hi => hc i (by omega)) fun i hi => hoff i (Nat.lt_succ_of_lt hi)

/-- There may be a gap above the top string. -/
theorem raise (h : Packed c off lo l head) (hl : l ≠ []) (hle : head ≤ head') :
    Packed c off lo l head' := by
  cases l with
  | nil => exact absurd rfl hl
  | cons s l => exact ⟨h.1, Nat.le_trans h.2.1 hle, h.2.2⟩

/-- A string written at `head` is the new top. -/
theorem push (h : Packed c off lo l head) (s : CStr α) :
    Packed (overwrite c head s.toBuffer) (Function.update off l.length head) lo (s :: l)
      (head + s.length + 1) := by
  have htop : Function.update off l.length head l.length = head := Function.update_self ..
  refine ⟨?_, Nat.le_of_eq (by rw [htop]), ?_⟩
  · rw [htop]
    exact strAt_overwrite c head s
  · rw [htop]
    exact h.congr (fun i hi => overwrite_lt hi)
      fun i hi => Function.update_of_ne (Nat.ne_of_lt hi) _ _

/-- Strings removed from the top leave a gap, unless none is left. -/
theorem drop (h : Packed c off lo l head) {k : ℕ} (hk : k < l.length) :
    Packed c off lo (l.drop k) head := by
  induction k generalizing l head with
  | zero => exact h
  | succ k ih =>
      cases l with
      | nil => cases hk
      | cons s l =>
          have hk : k < l.length := Nat.lt_of_succ_lt_succ hk
          have hlt := h.2.1
          refine (ih h.2.2 hk).raise ?_ (by omega)
          exact List.ne_nil_of_length_pos (by rw [List.length_drop]; omega)

/-- The upper part of a stack is a stack on top of the lower part. -/
theorem of_append (h : Packed c off lo (top ++ rest) head) :
    ∃ mid, Packed c (fun i => off (rest.length + i)) mid top head ∧ Packed c off lo rest mid := by
  induction top generalizing head with
  | nil => exact ⟨head, rfl, h⟩
  | cons s top ih =>
      have hlen : (top ++ rest).length = rest.length + top.length := by
        rw [List.length_append, Nat.add_comm]
      have hcons : Packed c off lo (s :: (top ++ rest)) head := h
      rw [Packed, hlen] at hcons
      obtain ⟨hs, hlt, hl⟩ := hcons
      obtain ⟨mid, htop, hrest⟩ := ih hl
      exact ⟨mid, ⟨hs, hlt, htop⟩, hrest⟩

/-- The top of a stack, from the offset of its lowest string on. -/
theorem take (h : Packed c off lo (s :: l) head) {k : ℕ} (hk : k ≤ l.length) :
    off (l.length - k) ≤ off l.length ∧
      Packed c (fun i => off (l.length - k + i)) (off (l.length - k)) (s :: l.take k) head := by
  have happ : Packed c off lo ((s :: l.take k) ++ l.drop k) head := by
    rw [List.cons_append, List.take_append_drop]
    exact h
  obtain ⟨mid, htop, _⟩ := happ.of_append
  rw [List.length_drop] at htop
  have hmid : off (l.length - k) = mid := htop.off_zero (List.cons_ne_nil _ _)
  have hle : mid ≤ off (l.length - k + (l.take k).length) := htop.2.2.lo_le
  rw [List.length_take_of_le hk, Nat.sub_add_cancel hk] at hle
  rw [hmid]
  exact ⟨hle, htop⟩

/-- The cells from `lo` on copied to the bottom of another pool. -/
theorem shift (h : Packed c off lo l head) (hc : ∀ i, lo + i < head → c' i = c (lo + i)) :
    Packed c' (fun i => off i - lo) 0 l (head - lo) := by
  induction l generalizing head with
  | nil => exact Nat.sub_eq_zero_of_le (Nat.le_of_eq h)
  | cons s l ih =>
      obtain ⟨hs, hlt, hl⟩ := h
      have hlo := lo_le hl
      change StrAt c' (off l.length - lo) s.chars ∧ off l.length - lo + s.length + 1 ≤ head - lo ∧
        Packed c' (fun i => off i - lo) 0 l (off l.length - lo)
      refine ⟨?_, by omega, ih hl fun i hi => hc i (by omega)⟩
      refine hs.congr fun i hi => ?_
      have hlen : s.length = s.chars.length := rfl
      rw [hc _ (by omega)]
      congr 1
      omega

/-- The string at the top is the one `strlen` and `strcpy` find there. -/
theorem str_top [DecidableEq α] {b : Block α} (h : Packed b.cell off lo (s :: l) head)
    (hle : head ≤ b.size) : b.str (off l.length) = some s :=
  Block.str_eq_some_iff.mpr ⟨h.1, by have := h.2.1; omega⟩

end Packed
