import Mathlib.Tactic.Common

/-!
# Text read in lines

`Lines.fgets nl n` reads from a text as `fgets` does with room for `n`
characters: up to and including the next `nl`, but no more than `n` characters.
`Lines.chunks` is what successive calls return.

`Lines.join` puts `nl` behind each of the given lines.  What is read back from
it is the same lines as long as each of them is shorter than `n`; a line of
exactly `n` characters is cut off before its `nl`.  Two texts of this form are
equal exactly if the lines, cut at every `nl` in them, are (`Lines.join_inj`).
-/

namespace Lines

variable {α : Type*} [DecidableEq α] (nl : α)

/-- What one call reads with room for `n` characters, and the rest of the text. -/
def fgets : ℕ → List α → List α × List α
  | 0, l => ([], l)
  | _ + 1, [] => ([], [])
  | n + 1, x :: l => if x = nl then ([x], l) else (x :: (fgets n l).1, (fgets n l).2)

/-- What the first `k` calls read, until the text is used up. -/
def chunksFrom (n : ℕ) : ℕ → List α → List (List α)
  | 0, _ => []
  | _ + 1, [] => []
  | k + 1, x :: l => (fgets nl n (x :: l)).1 :: chunksFrom n k (fgets nl n (x :: l)).2

/-- What the calls read, until the text is used up. -/
def chunks (n : ℕ) (l : List α) : List (List α) := chunksFrom nl n l.length l

/-- The text of the lines of `l`. -/
def join (l : List (List α)) : List α := l.flatMap (· ++ [nl])

variable {nl} {n k m : ℕ} {s l : List α} {x : α}

/-! ## One call -/

theorem fgets_append : (fgets nl n l).1 ++ (fgets nl n l).2 = l := by
  induction l generalizing n with
  | nil => cases n <;> rfl
  | cons x l ih =>
      cases n with
      | zero => rfl
      | succ n =>
          rw [fgets]
          split
          · rfl
          · exact congrArg (x :: ·) ih

theorem length_fgets_le : (fgets nl n l).1.length ≤ n := by
  induction l generalizing n with
  | nil => cases n <;> simp [fgets]
  | cons x l ih =>
      cases n with
      | zero => simp [fgets]
      | succ n =>
          rw [fgets]
          split
          · simp
          · exact Nat.succ_le_succ ih

theorem length_fgets_snd_lt : (fgets nl (n + 1) (x :: l)).2.length < (x :: l).length := by
  have happ : (fgets nl (n + 1) (x :: l)).1 ++ (fgets nl (n + 1) (x :: l)).2 = x :: l :=
    fgets_append
  have hpos : 0 < (fgets nl (n + 1) (x :: l)).1.length := by
    rw [fgets]
    split <;> simp
  rw [← happ, List.length_append, happ]
  omega

/-- A line that is short enough is read with its end. -/
theorem fgets_line (hnl : nl ∉ s) (hlen : s.length < n) :
    fgets nl n (s ++ nl :: l) = (s ++ [nl], l) := by
  induction s generalizing n with
  | nil =>
      cases n with
      | zero => cases hlen
      | succ n => exact if_pos rfl
  | cons x s ih =>
      cases n with
      | zero => cases hlen
      | succ n =>
          have hx : x ≠ nl := fun h => hnl (h ▸ List.mem_cons_self ..)
          have hs : fgets nl n (s ++ nl :: l) = (s ++ [nl], l) :=
            ih (fun h => hnl (List.mem_cons_of_mem _ h)) (Nat.lt_of_succ_lt_succ hlen)
          rw [List.cons_append, fgets, if_neg hx, hs]
          rfl

/-- A line that fills the buffer is read without its end. -/
theorem fgets_full (hnl : nl ∉ s) : fgets nl s.length (s ++ l) = (s, l) := by
  induction s with
  | nil => rfl
  | cons x s ih =>
      have hx : x ≠ nl := fun h => hnl (h ▸ List.mem_cons_self ..)
      have hs : fgets nl s.length (s ++ l) = (s, l) := ih fun h => hnl (List.mem_cons_of_mem _ h)
      rw [List.cons_append, List.length_cons, fgets, if_neg hx, hs]

/-! ## All calls -/

/-- Once the text is used up further calls read nothing. -/
theorem chunksFrom_eq (hk : l.length ≤ k) (hm : l.length ≤ m) :
    chunksFrom nl (n + 1) k l = chunksFrom nl (n + 1) m l := by
  induction k generalizing l m with
  | zero =>
      obtain rfl := List.length_eq_zero_iff.mp (Nat.le_zero.mp hk)
      cases m <;> rfl
  | succ k ih =>
      cases l with
      | nil => cases m <;> rfl
      | cons x l =>
          cases m with
          | zero => cases hm
          | succ m =>
              have hlt : (fgets nl (n + 1) (x :: l)).2.length < (x :: l).length :=
                length_fgets_snd_lt
              rw [chunksFrom, chunksFrom]
              exact congrArg _ (ih (by omega) (by omega))

theorem chunks_of_ne_nil (h : l ≠ []) :
    chunks nl (n + 1) l = (fgets nl (n + 1) l).1 :: chunks nl (n + 1) (fgets nl (n + 1) l).2 := by
  cases l with
  | nil => exact absurd rfl h
  | cons x l =>
      have hlt : (fgets nl (n + 1) (x :: l)).2.length < (x :: l).length := length_fgets_snd_lt
      rw [List.length_cons] at hlt
      exact congrArg _ (chunksFrom_eq (Nat.le_of_lt_succ hlt) (Nat.le_refl _))

theorem length_le_of_mem_chunks (h : s ∈ chunks nl n l) : s.length ≤ n := by
  suffices ∀ k l, s ∈ chunksFrom nl n k l → s.length ≤ n from this _ _ h
  intro k
  induction k with
  | zero => simp [chunksFrom]
  | succ k ih =>
      intro l hs
      cases l with
      | nil => simp [chunksFrom] at hs
      | cons x l =>
          rcases List.mem_cons.mp hs with rfl | hs
          · exact length_fgets_le
          · exact ih _ hs

/-- The first line of a text is read in one call if it is shorter than the buffer. -/
theorem chunks_line (hnl : nl ∉ s) (hlen : s.length ≤ n) :
    chunks nl (n + 1) (s ++ nl :: l) = (s ++ [nl]) :: chunks nl (n + 1) l := by
  rw [chunks_of_ne_nil (by simp), fgets_line hnl (Nat.lt_succ_of_le hlen)]

/-- It takes two calls if it fills the buffer. -/
theorem chunks_full (hnl : nl ∉ s) (hlen : s.length = n + 1) :
    chunks nl (n + 1) (s ++ nl :: l) = s :: [nl] :: chunks nl (n + 1) l := by
  have hrest : fgets nl (n + 1) (nl :: l) = ([nl], l) := if_pos rfl
  rw [chunks_of_ne_nil (by simp), ← hlen, fgets_full hnl, hlen, chunks_of_ne_nil (by simp), hrest]

/-! ## Lines with separators in them -/

omit [DecidableEq α] in
theorem join_cons {t : List (List α)} : join nl (s :: t) = s ++ nl :: join nl t := by
  rw [join, List.flatMap_cons, List.append_assoc]
  rfl

theorem splitOn_join (t : List (List α)) :
    (join nl t).splitOn nl = t.flatMap (·.splitOn nl) ++ [[]] := by
  induction t with
  | nil => exact List.splitOn_nil nl
  | cons s t ih =>
      rw [join_cons, List.splitOn_append_cons_self, ih, List.flatMap_cons, List.append_assoc]

/-- The parts of a line between its separators are parts of the line. -/
theorem sublist_of_mem_splitOn {p : List α} (h : p ∈ s.splitOn nl) : p.Sublist s := by
  induction s generalizing p with
  | nil =>
      rw [List.splitOn_nil, List.mem_singleton] at h
      exact h ▸ List.Sublist.refl _
  | cons x s ih =>
      rw [List.splitOn_cons_eq_if_modifyHead] at h
      obtain ⟨t, ts, hts⟩ := List.exists_cons_of_ne_nil (List.splitOn_ne_nil nl s)
      rw [hts] at h ih
      split at h
      · rcases List.mem_cons.mp h with rfl | h
        · exact List.nil_sublist _
        · exact (ih h).cons x
      · rcases List.mem_cons.mp h with rfl | h
        · exact (ih (List.mem_cons_self ..)).cons_cons x
        · exact (ih (List.mem_cons_of_mem t h)).cons x

/-- No separator is in them. -/
theorem not_mem_of_mem_splitOn {p : List α} (h : p ∈ s.splitOn nl) : nl ∉ p := by
  induction s generalizing p with
  | nil =>
      rw [List.splitOn_nil, List.mem_singleton] at h
      simp [h]
  | cons x s ih =>
      rw [List.splitOn_cons_eq_if_modifyHead] at h
      obtain ⟨t, ts, hts⟩ := List.exists_cons_of_ne_nil (List.splitOn_ne_nil nl s)
      rw [hts] at h ih
      split at h
      · rcases List.mem_cons.mp h with rfl | h
        · simp
        · exact ih h
      next hx =>
        rcases List.mem_cons.mp h with rfl | h
        · have hne : x ≠ nl := fun heq => hx (beq_iff_eq.mpr heq)
          exact List.not_mem_cons_of_ne_of_not_mem hne.symm (ih (List.mem_cons_self ..))
        · exact ih (List.mem_cons_of_mem t h)

/-- A text determines its lines exactly up to the separators in them. -/
theorem join_inj {t u : List (List α)} :
    join nl t = join nl u ↔ t.flatMap (·.splitOn nl) = u.flatMap (·.splitOn nl) := by
  constructor
  · intro h
    have hsplit := congrArg (·.splitOn nl) h
    simp only [splitOn_join] at hsplit
    exact List.append_cancel_right hsplit
  · intro h
    have hsplit : (join nl t).splitOn nl = (join nl u).splitOn nl := by
      rw [splitOn_join, splitOn_join, h]
    have hback : ∀ l : List α, [nl].intercalate (l.splitOn nl) = l :=
      fun _ => List.intercalate_splitOn nl
    rw [← hback (join nl t), hsplit, hback]

end Lines
