import Mathlib.Logic.Function.Basic
import Mathlib.Algebra.Order.BigOperators.Group.Finset
import Mathlib.Tactic.Common

/-!
# FIFO channels between the parties of a protocol

A `Chan V M` holds, for every ordered pair of parties, the messages sent from
the first to the second and not yet received, oldest first.  There are four
operations: a send (`push`), the receipt of the oldest message (`pop`), the same
message sent to every party of a list (`bcast`), and the receipt of one message
from every party of a list (`gather`).

The equations of each operation say what happens on the channel it names and
that every other channel is as before.  Channels whose messages are the same in two
forms stay so (`Related`).
-/

/-- Messages in flight, by sender and receiver, oldest first. -/
abbrev Chan (V M : Type*) := V → V → List M

namespace Chan

variable {V M : Type*} [DecidableEq V]

/-- No message in flight. -/
def empty : Chan V M := fun _ _ => []

/-- `src` sends `m` to `dst`. -/
def push (ch : Chan V M) (src dst : V) (m : M) : Chan V M :=
  fun a b => if a = src ∧ b = dst then ch a b ++ [m] else ch a b

/-- `dst` receives the oldest message from `src`. -/
def pop (ch : Chan V M) (src dst : V) : Chan V M :=
  fun a b => if a = src ∧ b = dst then (ch a b).tail else ch a b

/-- `src` sends `m` to every party of `dsts`. -/
def bcast (ch : Chan V M) (src : V) (dsts : List V) (m : M) : Chan V M :=
  fun a b => if a = src ∧ b ∈ dsts then ch a b ++ [m] else ch a b

/-- `dst` receives the oldest message from every party of `srcs`. -/
def gather (ch : Chan V M) (srcs : List V) (dst : V) : Chan V M :=
  fun a b => if a ∈ srcs ∧ b = dst then (ch a b).tail else ch a b

variable (ch : Chan V M) {src dst a b : V} {dsts : List V} (m : M)

omit [DecidableEq V] in
@[simp] theorem empty_apply (a b : V) : (empty : Chan V M) a b = [] := rfl

@[simp] theorem push_self : ch.push src dst m src dst = ch src dst ++ [m] := by
  simp [push]

theorem push_ne (h : ¬(a = src ∧ b = dst)) : ch.push src dst m a b = ch a b := by
  simp [push, h]

@[simp] theorem pop_self : ch.pop src dst src dst = (ch src dst).tail := by
  simp [pop]

theorem pop_ne (h : ¬(a = src ∧ b = dst)) : ch.pop src dst a b = ch a b := by
  simp [pop, h]

theorem bcast_mem (h : b ∈ dsts) : ch.bcast src dsts m src b = ch src b ++ [m] := by
  simp [bcast, h]

theorem bcast_ne (h : ¬(a = src ∧ b ∈ dsts)) : ch.bcast src dsts m a b = ch a b := by
  simp [bcast, h]

/-- A message sent to one party after the other. -/
theorem bcast_cons {c : V} (h : c ∉ dsts) :
    ch.bcast src (c :: dsts) m = (ch.push src c m).bcast src dsts m := by
  funext a b
  by_cases hbc : b = c
  · subst hbc
    by_cases ha : a = src
    · subst ha
      simp [bcast, h]
    · simp [bcast, push, ha]
  · simp [bcast, push, hbc]

theorem gather_mem {srcs : List V} (h : a ∈ srcs) : ch.gather srcs dst a dst = (ch a dst).tail := by
  simp [gather, h]

theorem gather_ne {srcs : List V} (h : ¬(a ∈ srcs ∧ b = dst)) :
    ch.gather srcs dst a b = ch a b := by
  simp [gather, h]

/-- A message in flight after a receipt was in flight before. -/
theorem mem_of_mem_pop {x : M} (h : x ∈ ch.pop src dst a b) : x ∈ ch a b := by
  by_cases hab : a = src ∧ b = dst
  · obtain ⟨rfl, rfl⟩ := hab
    rw [pop_self] at h
    exact List.mem_of_mem_tail h
  · rwa [pop_ne ch hab] at h

/-- A message in flight after a send is the one sent or was in flight before. -/
theorem mem_push {x : M} :
    x ∈ ch.push src dst m a b ↔ x ∈ ch a b ∨ (a = src ∧ b = dst ∧ x = m) := by
  by_cases hab : a = src ∧ b = dst
  · obtain ⟨rfl, rfl⟩ := hab
    simp
  · rw [push_ne ch m hab]
    constructor
    · exact Or.inl
    · rintro (h | ⟨h₁, h₂, _⟩)
      · exact h
      · exact absurd ⟨h₁, h₂⟩ hab

theorem mem_bcast {x : M} :
    x ∈ ch.bcast src dsts m a b ↔ x ∈ ch a b ∨ (a = src ∧ b ∈ dsts ∧ x = m) := by
  by_cases hab : a = src ∧ b ∈ dsts
  · obtain ⟨rfl, hb⟩ := hab
    simp [bcast, hb]
  · rw [bcast_ne ch m hab]
    constructor
    · exact Or.inl
    · rintro (h | ⟨h₁, h₂, _⟩)
      · exact h
      · exact absurd ⟨h₁, h₂⟩ hab

/-! ## The same messages in two forms -/

/-- Two lists of messages on every channel, related one by one. -/
def Related {M' : Type*} (R : M → M' → Prop) (ch : Chan V M) (ch' : Chan V M') : Prop :=
  ∀ a b, List.Forall₂ R (ch a b) (ch' a b)

section Related

variable {M' : Type*} {R : M → M' → Prop} {ch : Chan V M} {ch' : Chan V M'} {m : M} {m' : M'}

omit [DecidableEq V] in
theorem related_empty : Related R (empty : Chan V M) (empty : Chan V M') :=
  fun _ _ => .nil

theorem Related.push (h : Related R ch ch') (hm : R m m') :
    Related R (ch.push src dst m) (ch'.push src dst m') := by
  intro a b
  unfold Chan.push
  split
  · exact List.rel_append (h a b) (.cons hm .nil)
  · exact h a b

theorem Related.pop (h : Related R ch ch') : Related R (ch.pop src dst) (ch'.pop src dst) := by
  intro a b
  unfold Chan.pop
  split
  · rw [← List.drop_one, ← List.drop_one]
    exact List.forall₂_drop 1 (h a b)
  · exact h a b

end Related

end Chan

/-! ## Weighing the messages in flight -/

section Weight

variable {A : Type*} [AddCommMonoid A]

/-- A sum over `0 .. N - 1` changes with the one term that changes. -/
theorem sum_range_eq_add {N d : ℕ} (hd : d < N) {g g' : ℕ → A} {x : A}
    (hself : g' d = g d + x) (hne : ∀ b, b ≠ d → g' b = g b) :
    ∑ b ∈ Finset.range N, g' b = ∑ b ∈ Finset.range N, g b + x := by
  have hmem : d ∈ Finset.range N := Finset.mem_range.mpr hd
  have hrest : ∑ b ∈ (Finset.range N).erase d, g' b = ∑ b ∈ (Finset.range N).erase d, g b :=
    Finset.sum_congr rfl fun b hb => hne b (Finset.ne_of_mem_erase hb)
  rw [← Finset.add_sum_erase _ _ hmem, ← Finset.add_sum_erase _ g hmem, hrest, hself,
    add_right_comm]

/-- A sum in which one term changes. -/
theorem sum_add_eq_of_ne {V : Type*} [DecidableEq V] {N : Finset V} {x : V} (hx : x ∈ N)
    (g g' : V → A) (hne : ∀ y, y ≠ x → g' y = g y) :
    ∑ y ∈ N, g' y + g x = ∑ y ∈ N, g y + g' x := by
  have hrest : ∑ y ∈ N.erase x, g' y = ∑ y ∈ N.erase x, g y :=
    Finset.sum_congr rfl fun y hy => hne y (Finset.ne_of_mem_erase hy)
  rw [← Finset.add_sum_erase _ _ hx, ← Finset.add_sum_erase _ g hx, hrest, add_right_comm,
    add_right_comm (g x), add_comm (g' x)]

theorem sum_range_congr {N : ℕ} {g g' : ℕ → A} (h : ∀ b, b < N → g' b = g b) :
    ∑ b ∈ Finset.range N, g' b = ∑ b ∈ Finset.range N, g b :=
  Finset.sum_congr rfl fun b hb => h b (Finset.mem_range.mp hb)

namespace Chan

variable {M : Type*} (ch : Chan ℕ M) (f : M → A) {N src dst a : ℕ}

/-- The total weight of the messages from `a` to `b`. -/
def weight (a b : ℕ) : A := ((ch a b).map f).sum

/-- The total weight of the messages from `a` to parties below `N`. -/
def outWeight (N a : ℕ) : A := ∑ b ∈ Finset.range N, ch.weight f a b

/-- The total weight of the messages to `b` from parties below `N`. -/
def inWeight (N b : ℕ) : A := ∑ a ∈ Finset.range N, ch.weight f a b

/-- The total weight of the messages between parties below `N`. -/
def totalWeight (N : ℕ) : A := ∑ a ∈ Finset.range N, ch.outWeight f N a

theorem weight_push_self (m : M) :
    (ch.push src dst m).weight f src dst = ch.weight f src dst + f m := by
  simp [weight]

theorem weight_push_ne (m : M) {b : ℕ} (h : ¬(a = src ∧ b = dst)) :
    (ch.push src dst m).weight f a b = ch.weight f a b := by
  rw [weight, push_ne ch m h, weight]

variable {ch} in
theorem weight_pop_self {m : M} {ms : List M} (h : ch src dst = m :: ms) :
    ch.weight f src dst = (ch.pop src dst).weight f src dst + f m := by
  simp [weight, h, add_comm]

theorem weight_pop_ne {b : ℕ} (h : ¬(a = src ∧ b = dst)) :
    (ch.pop src dst).weight f a b = ch.weight f a b := by
  rw [weight, pop_ne ch h, weight]

theorem outWeight_push_self (m : M) (hd : dst < N) :
    (ch.push src dst m).outWeight f N src = ch.outWeight f N src + f m :=
  sum_range_eq_add hd (weight_push_self ch f m) fun _ hb =>
    weight_push_ne ch f m fun h => hb h.2

theorem outWeight_push_ne (m : M) (h : a ≠ src) :
    (ch.push src dst m).outWeight f N a = ch.outWeight f N a :=
  sum_range_congr fun _ _ => weight_push_ne ch f m fun h' => h h'.1

variable {ch} in
theorem outWeight_pop_self {m : M} {ms : List M} (hm : ch src dst = m :: ms) (hd : dst < N) :
    ch.outWeight f N src = (ch.pop src dst).outWeight f N src + f m :=
  sum_range_eq_add hd (weight_pop_self f hm) fun _ hb =>
    (weight_pop_ne ch f fun h => hb h.2).symm

theorem outWeight_pop_ne (h : a ≠ src) :
    (ch.pop src dst).outWeight f N a = ch.outWeight f N a :=
  sum_range_congr fun _ _ => weight_pop_ne ch f fun h' => h h'.1

theorem inWeight_push_self (m : M) (hs : src < N) :
    (ch.push src dst m).inWeight f N dst = ch.inWeight f N dst + f m :=
  sum_range_eq_add hs (weight_push_self ch f m) fun _ hb =>
    weight_push_ne ch f m fun h => hb h.1

theorem inWeight_push_ne (m : M) {b : ℕ} (h : b ≠ dst) :
    (ch.push src dst m).inWeight f N b = ch.inWeight f N b :=
  sum_range_congr fun _ _ => weight_push_ne ch f m fun h' => h h'.2

variable {ch} in
theorem inWeight_pop_self {m : M} {ms : List M} (hm : ch src dst = m :: ms) (hs : src < N) :
    ch.inWeight f N dst = (ch.pop src dst).inWeight f N dst + f m :=
  sum_range_eq_add hs (weight_pop_self f hm) fun _ hb =>
    (weight_pop_ne ch f fun h => hb h.1).symm

theorem inWeight_pop_ne {b : ℕ} (h : b ≠ dst) :
    (ch.pop src dst).inWeight f N b = ch.inWeight f N b :=
  sum_range_congr fun _ _ => weight_pop_ne ch f fun h' => h h'.2

theorem totalWeight_push (m : M) (hs : src < N) (hd : dst < N) :
    (ch.push src dst m).totalWeight f N = ch.totalWeight f N + f m :=
  sum_range_eq_add hs (outWeight_push_self ch f m hd) fun _ ha => outWeight_push_ne ch f m ha

variable {ch} in
theorem totalWeight_pop {m : M} {ms : List M} (hm : ch src dst = m :: ms) (hs : src < N)
    (hd : dst < N) :
    ch.totalWeight f N = (ch.pop src dst).totalWeight f N + f m :=
  sum_range_eq_add hs (outWeight_pop_self f hm hd) fun _ ha => (outWeight_pop_ne ch f ha).symm

variable {ch} {f} in
/-- Messages without a weight have none together. -/
theorem totalWeight_eq_zero (h : ∀ a b, ∀ m ∈ ch a b, f m = 0) : ch.totalWeight f N = 0 := by
  refine Finset.sum_eq_zero fun a _ => Finset.sum_eq_zero fun b _ => List.sum_eq_zero fun w hw => ?_
  obtain ⟨m, hm, rfl⟩ := List.mem_map.mp hw
  exact h a b m hm

/-- Without outgoing weight no outgoing message has a weight. -/
theorem eq_zero_of_outWeight {M : Type*} {ch : Chan ℕ M} {f : M → ℕ} {N a b : ℕ} {m : M}
    (h : ch.outWeight f N a = 0) (hb : b < N) (hm : m ∈ ch a b) : f m = 0 := by
  have hab : ch.weight f a b = 0 := Finset.sum_eq_zero_iff.mp h b (Finset.mem_range.mpr hb)
  exact List.sum_eq_zero_iff_forall_eq_nat.mp hab _ (List.mem_map_of_mem hm)

/-- Without incoming weight no incoming message has a weight. -/
theorem eq_zero_of_inWeight {M : Type*} {ch : Chan ℕ M} {f : M → ℕ} {N a b : ℕ} {m : M}
    (h : ch.inWeight f N b = 0) (ha : a < N) (hm : m ∈ ch a b) : f m = 0 := by
  have hab : ch.weight f a b = 0 := Finset.sum_eq_zero_iff.mp h a (Finset.mem_range.mpr ha)
  exact List.sum_eq_zero_iff_forall_eq_nat.mp hab _ (List.mem_map_of_mem hm)

end Chan

end Weight
