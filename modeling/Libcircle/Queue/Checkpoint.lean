import Mathlib.Data.List.Perm.Basic
import Libcircle.Model.Checkpoint
import Libcircle.Queue.Holds

/-!
# What a checkpoint restores

A write leaves `checkpoint l` in the file, one line for each item of `l`.  A read
pushes the items of `textItems text`, one for each chunk `fgets` returns.  The two
agree on items without a newline, but for an item that fills the buffer of
`fgets`: its line is read in two chunks, and both lose their last character
(`checkpoint_iff`).

A write of an empty queue leaves the file as it is, so what it restores is what
was there before (`restart_iff`).  Items with a newline are two lines, and the
file does not tell them from two items.  So the queues without newlines are a
largest class in which different queues have different files
(`checkpointFile_inj_iff`).
-/

namespace Libcircle

/-! ## Texts -/

/-- The text of a checkpoint of the items of `l`, the top first. -/
def checkpoint (l : List Item) : List UInt8 := Lines.join newline (l.map CStr.chars)

/-- The items `CIRCLE_internal_queue_read` pushes for one chunk. -/
def chunkItems (chunk : List UInt8) : List Item :=
  if 0 < (CStr.ofBuffer chunk).length then [(CStr.ofBuffer chunk).dropLast] else []

/-- The items `CIRCLE_internal_queue_read` pushes, in this order. -/
def textItems (text : List UInt8) : List Item :=
  (Lines.chunks newline (maxStringLen - 1) text).flatMap chunkItems

/-- The item fills the buffer of `fgets`. -/
def fills (s : Item) : Bool := s.length = maxStringLen - 1

variable {l : List Item} {s : Item} {text : List UInt8}

theorem checkpoint_cons : checkpoint (s :: l) = s.chars ++ newline :: checkpoint l :=
  Lines.join_cons

theorem ofBuffer_chars (s : Item) : CStr.ofBuffer s.chars = s := by
  refine CStr.ext (List.takeWhile_eq_self_iff.mpr fun x hx => ?_)
  simpa using s.nul_free x hx

/-- A whole line is pushed without its end. -/
theorem chunkItems_line (s : Item) : chunkItems (s.chars ++ [newline]) = [s] := by
  have hnul : ∀ x ∈ s.chars ++ [newline], x ≠ 0 := by
    intro x hx
    rcases List.mem_append.mp hx with hx | hx
    · exact s.nul_free x hx
    · rw [List.mem_singleton.mp hx]
      decide
  have hbuf : CStr.ofBuffer (s.chars ++ [newline]) = ⟨s.chars ++ [newline], hnul⟩ :=
    ofBuffer_chars ⟨_, hnul⟩
  have hlen : 0 < (CStr.mk (s.chars ++ [newline]) hnul).length := by simp [CStr.length]
  rw [chunkItems, hbuf, if_pos hlen]
  exact congrArg (fun t => [t]) (CStr.ext List.dropLast_concat)

theorem chunkItems_newline : chunkItems [newline] = [CStr.empty] := chunkItems_line CStr.empty

/-- A line that fills the buffer loses its last character. -/
theorem chunkItems_full (hs : s.length = maxStringLen - 1) : chunkItems s.chars = [s.dropLast] := by
  rw [chunkItems, ofBuffer_chars, if_pos (hs.symm ▸ by decide)]

theorem length_of_mem_textItems (h : s ∈ textItems text) : s.length < maxStringLen := by
  obtain ⟨chunk, hchunk, hs⟩ := List.mem_flatMap.mp h
  have hle : chunk.length ≤ maxStringLen - 1 := Lines.length_le_of_mem_chunks hchunk
  rw [chunkItems] at hs
  split at hs
  · rw [List.mem_singleton.mp hs]
    have hdrop : (CStr.ofBuffer chunk).dropLast.length ≤ (CStr.ofBuffer chunk).length :=
      (List.dropLast_prefix _).length_le
    have htake : (CStr.ofBuffer chunk).length ≤ chunk.length := (List.takeWhile_prefix _).length_le
    have hmax : maxStringLen = 4096 := rfl
    omega
  · cases hs

/-- Nothing is pushed exactly if every chunk starts with a terminator. -/
theorem textItems_eq_nil_iff :
    textItems text = [] ↔
      ∀ c ∈ Lines.chunks newline (maxStringLen - 1) text, ∀ x ∈ c.head?, x = 0 := by
  rw [textItems, List.flatMap_eq_nil_iff]
  refine forall₂_congr fun c _ => ?_
  cases c with
  | nil => simp [chunkItems, CStr.ofBuffer, CStr.length]
  | cons x c => by_cases hx : x = 0 <;> simp [chunkItems, CStr.ofBuffer, CStr.length, hx]

/-- A checkpoint is read back if no item fills the buffer. -/
theorem textItems_checkpoint (hnl : ∀ s ∈ l, newline ∉ s.chars)
    (hlen : ∀ s ∈ l, s.length ≤ maxStringLen - 2) : textItems (checkpoint l) = l := by
  induction l with
  | nil => rfl
  | cons s l ih =>
      obtain ⟨hs, hnl⟩ := List.forall_mem_cons.mp hnl
      obtain ⟨hle, hlen⟩ := List.forall_mem_cons.mp hlen
      have hchunks : Lines.chunks newline (maxStringLen - 1) (s.chars ++ newline :: checkpoint l) =
          (s.chars ++ [newline]) :: Lines.chunks newline (maxStringLen - 1) (checkpoint l) :=
        Lines.chunks_line hs hle
      rw [checkpoint_cons, textItems, hchunks, List.flatMap_cons, chunkItems_line]
      exact congrArg (s :: ·) (ih hnl hlen)

/-- Every item that fills the buffer is read as two. -/
theorem length_textItems_checkpoint (hnl : ∀ s ∈ l, newline ∉ s.chars)
    (hlen : ∀ s ∈ l, s.length < maxStringLen) :
    (textItems (checkpoint l)).length =
      l.length + l.countP fills := by
  induction l with
  | nil => rfl
  | cons s l ih =>
      obtain ⟨hs, hnl⟩ := List.forall_mem_cons.mp hnl
      obtain ⟨hle, hlen⟩ := List.forall_mem_cons.mp hlen
      have ih := ih hnl hlen
      rcases Nat.lt_or_eq_of_le (Nat.le_pred_of_lt hle) with hlt | heq
      · have hchunks : Lines.chunks newline (maxStringLen - 1)
            (s.chars ++ newline :: checkpoint l) =
            (s.chars ++ [newline]) :: Lines.chunks newline (maxStringLen - 1) (checkpoint l) :=
          Lines.chunks_line hs (Nat.le_pred_of_lt hlt)
        have hne : ¬fills s = true := fun h => Nat.ne_of_lt hlt (of_decide_eq_true h)
        rw [checkpoint_cons, textItems, hchunks, List.flatMap_cons, chunkItems_line,
          List.countP_cons_of_neg hne, List.length_append, List.length_cons, ← textItems, ih]
        simp only [List.length_cons, List.length_nil]
        omega
      · have hchunks : Lines.chunks newline (maxStringLen - 1)
            (s.chars ++ newline :: checkpoint l) =
            s.chars :: [newline] :: Lines.chunks newline (maxStringLen - 1) (checkpoint l) :=
          Lines.chunks_full hs heq
        have hpos : fills s = true := decide_eq_true heq
        rw [checkpoint_cons, textItems, hchunks, List.flatMap_cons, List.flatMap_cons,
          chunkItems_full heq, chunkItems_newline, List.countP_cons_of_pos hpos,
          List.length_append, List.length_append, List.length_cons, ← textItems, ih]
        simp only [List.length_cons, List.length_nil]
        omega

/-! ## Writing -/

namespace Queue

variable {q r : Queue} {files : Files} {rank : Int}

/-- The loop prints the items from the top down, and stops after the pop of an item it cannot
print. -/
theorem Holds.writeLoop_cases (h : q.Holds l) (env : WriteEnv) (k : Nat) (text : List UInt8) :
    (∃ q', Queue.writeLoop env l.length k text q = some (true, text ++ checkpoint l, q') ∧
        q'.Holds [] ∧ ∀ i, i < l.length → env.fprintf (k + i) = true) ∨
      ∃ done t rest q', l = done ++ t :: rest ∧
        Queue.writeLoop env l.length k text q = some (false, text ++ checkpoint done, q') ∧
        q'.Holds rest ∧ env.fprintf (k + done.length) = false := by
  induction l generalizing q k text with
  | nil =>
      refine .inl ⟨q, ?_, h, fun i hi => absurd hi (Nat.not_lt_zero i)⟩
      exact congrArg (fun t => some (true, t, q)) (List.append_nil text).symm
  | cons s l ih =>
      obtain ⟨q₁, hpop, h₁⟩ := h.pop
      have hshort : ¬maxStringLen < s.length + 1 :=
        Nat.not_lt.mpr (h.short s (List.mem_cons_self ..))
      cases hprint : env.fprintf k with
      | false =>
          refine .inr ⟨[], s, l, q₁, rfl, ?_, h₁, hprint⟩
          rw [List.length_cons, Queue.writeLoop]
          simp only [hpop, hshort, if_false, hprint, Bool.false_eq_true, checkpoint, Lines.join,
            List.map_nil, List.flatMap_nil, List.append_nil]
      | true =>
          have hloop : Queue.writeLoop env (s :: l).length k text q =
              Queue.writeLoop env l.length (k + 1) (text ++ (s.chars ++ [newline])) q₁ := by
            rw [List.length_cons, Queue.writeLoop]
            simp only [hpop, hshort, if_false, hprint, if_true]
          have htext : ∀ done, text ++ (s.chars ++ [newline]) ++ checkpoint done =
              text ++ checkpoint (s :: done) := by
            intro done
            simp only [checkpoint_cons, List.append_assoc, List.cons_append, List.nil_append]
          rw [hloop]
          obtain ⟨q', hq', h', hall⟩ | ⟨done, t, rest, q', rfl, hq', h', hfail⟩ :=
            ih h₁ (k + 1) (text ++ (s.chars ++ [newline]))
          · refine .inl ⟨q', htext l ▸ hq', h', fun i hi => ?_⟩
            cases i with
            | zero => exact hprint
            | succ i =>
                rw [Nat.add_comm i, ← Nat.add_assoc]
                exact hall i (Nat.lt_of_succ_lt_succ hi)
          · refine .inr ⟨s :: done, t, rest, q', rfl, htext done ▸ hq', h', ?_⟩
            rw [List.length_cons, Nat.add_comm done.length, ← Nat.add_assoc]
            exact hfail

/-- When every `fprintf` succeeds all items are printed. -/
theorem Holds.writeLoop (h : q.Holds l) (k : Nat) (text : List UInt8) :
    ∃ q', writeLoop {} l.length k text q = some (true, text ++ checkpoint l, q') ∧ q'.Holds [] := by
  obtain ⟨q', hloop, h', _⟩ | ⟨done, t, rest, q', _, _, _, hfail⟩ := h.writeLoop_cases {} k text
  · exact ⟨q', hloop, h'⟩
  · cases hfail

/-- A write leaves the checkpoint in the file, and nothing in the queue. -/
theorem Holds.write (h : q.Holds l) (hl : l ≠ []) (files : Files) (rank : Int) :
    ∃ q', q.write {} files rank =
        some (true, Function.update files (filename rank) (some (checkpoint l)), q') ∧
      q'.Holds [] := by
  obtain ⟨q', hloop, h'⟩ := h.writeLoop 0 []
  have hcount : q.count ≠ 0 := by
    rw [h.count_eq]
    exact fun h0 => hl (List.length_eq_zero_iff.mp h0)
  refine ⟨q', ?_, h'⟩
  rw [Queue.write, if_neg hcount, h.count_eq, hloop]
  rfl

/-- A write of an empty queue leaves the file as it is. -/
theorem Holds.write_nil (h : q.Holds []) : q.write {} files rank = some (true, files, q) :=
  if_pos h.count_eq

/-! ## Reading -/

section Read

variable {grow : Nat → GrowEnv} {chunks : List (List UInt8)}

/-- What the loop pushes, as long as there is room. -/
theorem Holds.readLoop (h : q.Holds l) {k : Nat}
    (hgrow : ∀ k, (grow k).strings = true ∧ (grow k).base = true)
    (hshort : ∀ s ∈ chunks.flatMap chunkItems, s.length < maxStringLen)
    (hroom : (chunks.flatMap chunkItems).length + l.length ≤ maxCapacity) :
    ∃ q', Queue.readLoop grow k chunks q = some q' ∧
      q'.Holds ((chunks.flatMap chunkItems).reverse ++ l) := by
  induction chunks generalizing q k l with
  | nil => exact ⟨q, rfl, h⟩
  | cons c chunks ih =>
      rw [List.flatMap_cons] at hshort hroom ⊢
      rw [Queue.readLoop]
      by_cases hpos : 0 < (CStr.ofBuffer c).length
      · rw [show chunkItems c = [(CStr.ofBuffer c).dropLast] from if_pos hpos] at hshort hroom ⊢
        rw [List.length_append, List.length_singleton] at hroom
        have hs := hshort _ (List.mem_cons_self ..)
        obtain ⟨q₁, hpush, h₁⟩ := h.push (hgrow k) hs (by omega)
        obtain ⟨q', hloop, h'⟩ := ih h₁ (k := k + 1)
          (fun s hs => hshort s (List.mem_cons_of_mem _ hs)) (by rw [List.length_cons]; omega)
        refine ⟨q', ?_, ?_⟩
        · simp only [hpos, if_true, hpush, hloop]
        · rwa [List.reverse_append, List.reverse_singleton, List.append_assoc]
      · rw [show chunkItems c = [] from if_neg hpos] at hshort hroom ⊢
        obtain ⟨q', hloop, h'⟩ := ih h (k := k + 1) hshort hroom
        exact ⟨q', by simp only [hpos, if_false, hloop], h'⟩

/-- More items than a queue can hold have no result. -/
theorem Holds.readLoop_full (h : q.Holds l) {k : Nat}
    (hgrow : ∀ k, (grow k).strings = true ∧ (grow k).base = true)
    (hshort : ∀ s ∈ chunks.flatMap chunkItems, s.length < maxStringLen)
    (hroom : maxCapacity < (chunks.flatMap chunkItems).length + l.length) :
    Queue.readLoop grow k chunks q = none := by
  induction chunks generalizing q k l with
  | nil =>
      have hle := h.length_le
      rw [List.flatMap_nil, List.length_nil, Nat.zero_add] at hroom
      omega
  | cons c chunks ih =>
      rw [List.flatMap_cons] at hshort hroom
      rw [Queue.readLoop]
      by_cases hpos : 0 < (CStr.ofBuffer c).length
      · rw [show chunkItems c = [(CStr.ofBuffer c).dropLast] from if_pos hpos] at hshort hroom
        rw [List.length_append, List.length_singleton] at hroom
        have hs := hshort _ (List.mem_cons_self ..)
        rcases Nat.lt_or_eq_of_le h.length_le with hlt | heq
        · obtain ⟨q₁, hpush, h₁⟩ := h.push (hgrow k) hs hlt
          have hloop : Queue.readLoop grow (k + 1) chunks q₁ = none :=
            ih h₁ (fun s hs => hshort s (List.mem_cons_of_mem _ hs))
              (by rw [List.length_cons]; omega)
          simp only [hpos, if_true, hpush, hloop]
        · simp only [hpos, if_true, h.push_full hs heq]
      · rw [show chunkItems c = [] from if_neg hpos] at hshort hroom
        have hloop : Queue.readLoop grow (k + 1) chunks q = none := ih h hshort hroom
        simp only [hpos, if_false, hloop]

end Read

end Queue

/-- The file can be opened and closed, and every allocation succeeds. -/
structure ReadEnv.Ok (env : ReadEnv) : Prop where
  fopen : env.fopen = true
  grow : ∀ k, (env.grow k).strings = true ∧ (env.grow k).base = true
  fclose : env.fclose = true

namespace Queue

variable {q r : Queue} {files : Files} {rank : Int} {env : ReadEnv}

/-- Without a file nothing is read. -/
theorem read_none (hfile : files (filename rank) = none) :
    q.read env files rank = some (false, q) := by
  rw [Queue.read, hfile, ite_self]

theorem read_some (henv : env.Ok) (hfile : files (filename rank) = some text) :
    q.read env files rank =
      (Queue.readLoop env.grow 0 (Lines.chunks newline (maxStringLen - 1) text) q).map
        fun q' => (true, q') := by
  simp only [Queue.read, henv.fopen, if_true, hfile, henv.fclose]
  cases Queue.readLoop env.grow 0 (Lines.chunks newline (maxStringLen - 1) text) q <;> rfl

/-- The items of the file are pushed, the last on top. -/
theorem Holds.read (h : q.Holds l) (henv : env.Ok) (hfile : files (filename rank) = some text)
    (hroom : (textItems text).length + l.length ≤ maxCapacity) :
    ∃ q', q.read env files rank = some (true, q') ∧
      q'.Holds ((textItems text).reverse ++ l) := by
  obtain ⟨q', hloop, h'⟩ := h.readLoop (k := 0) henv.grow (fun _ => length_of_mem_textItems) hroom
  exact ⟨q', by rw [read_some henv hfile, hloop, Option.map_some], h'⟩

theorem Holds.read_full (h : q.Holds l) (henv : env.Ok) (hfile : files (filename rank) = some text)
    (hroom : maxCapacity < (textItems text).length + l.length) :
    q.read env files rank = none := by
  have hloop := h.readLoop_full (k := 0) henv.grow (fun _ => length_of_mem_textItems) hroom
  rw [read_some henv hfile, hloop, Option.map_none]

/-- A read into an empty queue leaves `l` in it. -/
def Reads (r : Queue) (env : ReadEnv) (files : Files) (rank : Int) (l : List Item) : Prop :=
  ∃ b r', r.read env files rank = some (b, r') ∧ r'.Holds l

/-- Without a file the queue stays empty. -/
theorem Holds.reads_none (hr : r.Holds []) (hfile : files (filename rank) = none) :
    r.Reads env files rank l ↔ l = [] := by
  constructor
  · rintro ⟨b, r', hread, h'⟩
    obtain ⟨_, rfl⟩ := Prod.mk.inj (Option.some.inj ((read_none hfile).symm.trans hread))
    exact (hr.unique h').symm
  · rintro rfl
    exact ⟨_, _, read_none hfile, hr⟩

/-- The items of the file are read, the last on top, if a queue can hold them. -/
theorem Holds.reads_some (hr : r.Holds []) (henv : env.Ok)
    (hfile : files (filename rank) = some text) :
    r.Reads env files rank l ↔
      l = (textItems text).reverse ∧ (textItems text).length ≤ maxCapacity := by
  rcases Nat.lt_or_ge maxCapacity (textItems text).length with hfull | hroom
  · constructor
    · rintro ⟨b, r', hread, _⟩
      cases (hr.read_full henv hfile hfull).symm.trans hread
    · rintro ⟨_, hle⟩
      omega
  · obtain ⟨r₁, hread, h₁⟩ := hr.read henv hfile hroom
    rw [List.append_nil] at h₁
    constructor
    · rintro ⟨b, r', hread', h'⟩
      obtain ⟨_, rfl⟩ := Prod.mk.inj (Option.some.inj (hread.symm.trans hread'))
      exact ⟨h'.unique h₁, hroom⟩
    · rintro ⟨rfl, _⟩
      exact ⟨_, _, hread, h₁⟩

/-! ## One checkpoint -/

/-- The checkpoint of `q`, read into `r`, leaves `l` there. -/
def Restores (q r : Queue) (env : ReadEnv) (files : Files) (rank : Int) (l : List Item) : Prop :=
  ∃ files' q', q.write {} files rank = some (true, files', q') ∧ r.Reads env files' rank l

theorem Holds.restores_iff (hq : q.Holds l) (hl : l ≠ []) (hr : r.Holds []) (henv : env.Ok)
    {l' : List Item} :
    q.Restores r env files rank l' ↔
      l' = (textItems (checkpoint l)).reverse ∧
        (textItems (checkpoint l)).length ≤ maxCapacity := by
  obtain ⟨q', hwrite, _⟩ := hq.write hl files rank
  have hfile : Function.update files (filename rank) (some (checkpoint l)) (filename rank) =
      some (checkpoint l) := Function.update_self ..
  rw [← hr.reads_some henv hfile]
  constructor
  · rintro ⟨files', q'', hwrite', hread⟩
    obtain ⟨_, hrest⟩ := Prod.mk.inj (Option.some.inj (hwrite.symm.trans hwrite'))
    obtain ⟨rfl, _⟩ := Prod.mk.inj hrest
    exact hread
  · exact fun hread => ⟨_, _, hwrite, hread⟩

/-- An empty directory. -/
def noFiles : Files := fun _ => none

/-- A checkpoint restores the items in reverse order exactly if none of them fills the buffer. -/
theorem checkpoint_iff (hq : q.Holds l) (hl : l ≠ []) (hnl : ∀ s ∈ l, newline ∉ s.chars)
    (hr : r.Holds []) (henv : env.Ok) :
    q.Restores r env files rank l.reverse ↔ ∀ s ∈ l, s.length ≠ maxStringLen - 1 := by
  rw [hq.restores_iff hl hr henv]
  constructor
  · rintro ⟨heq, _⟩ s hs hlen
    have hcount := length_textItems_checkpoint hnl hq.short
    rw [← List.reverse_inj.mp heq] at hcount
    have hpos : 0 < l.countP fills := List.countP_pos_iff.mpr ⟨s, hs, decide_eq_true hlen⟩
    omega
  · intro hlen
    have hshort : ∀ s ∈ l, s.length ≤ maxStringLen - 2 := by
      intro s hs
      have hlt := hq.short s hs
      have hne := hlen s hs
      omega
    rw [textItems_checkpoint hnl hshort]
    exact ⟨rfl, hq.length_le⟩

theorem checkpoint_iff_words :
    (filledQueue words).Restores (blankQueue 0 1) {} noFiles 0 words.reverse :=
  (checkpoint_iff holds_words (by decide) (by decide)
    (layout_blank (by decide) (by decide)).holds ⟨rfl, fun _ => ⟨rfl, rfl⟩, rfl⟩).mpr (by decide)

/-- The item of 4095 bytes `'a'`. -/
def longItem : Item := ⟨List.replicate 4095 97, fun x hx => by
  rw [List.eq_of_mem_replicate hx]
  decide⟩

theorem textItems_longItem :
    textItems (checkpoint [longItem]) = [longItem.dropLast, CStr.empty] := by
  have hlen : longItem.length = maxStringLen - 1 := List.length_replicate
  have hnl : newline ∉ longItem.chars := fun h => by cases List.eq_of_mem_replicate h
  have hchunks : Lines.chunks newline (maxStringLen - 1)
      (longItem.chars ++ newline :: checkpoint []) =
      longItem.chars :: [newline] :: Lines.chunks newline (maxStringLen - 1) (checkpoint []) :=
    Lines.chunks_full hnl hlen
  rw [checkpoint_cons, textItems, hchunks, List.flatMap_cons, List.flatMap_cons,
    chunkItems_full hlen, chunkItems_newline]
  rfl

/-- An item of 4095 bytes comes back as an item of 4094 bytes and an empty one. -/
theorem checkpoint_splits_longItem :
    ∃ q : Queue, (blankQueue 0 1).push {} (some longItem) = some (true, q) ∧
      q.Restores (blankQueue 0 1) {} noFiles 0 [CStr.empty, longItem.dropLast] ∧
      ¬q.Restores (blankQueue 0 1) {} noFiles 0 [longItem] := by
  have hr : (blankQueue 0 1).Holds [] := (layout_blank (by decide) (by decide)).holds
  have hlen : longItem.length < maxStringLen := by
    rw [show longItem.length = maxStringLen - 1 from List.length_replicate]
    decide
  have hgrow : ({} : GrowEnv).strings = true ∧ ({} : GrowEnv).base = true := ⟨rfl, rfl⟩
  have henv : ({} : ReadEnv).Ok := ⟨rfl, fun _ => ⟨rfl, rfl⟩, rfl⟩
  obtain ⟨q, hpush, hq⟩ := hr.push hgrow hlen (by decide)
  refine ⟨q, hpush, ?_, ?_⟩
  · rw [hq.restores_iff (List.cons_ne_nil _ _) hr henv, textItems_longItem]
    exact ⟨rfl, by decide⟩
  · rw [hq.restores_iff (List.cons_ne_nil _ _) hr henv, textItems_longItem]
    rintro ⟨heq, _⟩
    cases heq

/-! ## Histories of checkpoints -/

/-- Successive calls of `CIRCLE_internal_queue_write` for one rank. -/
def writeAll (rank : Int) : List Queue → Files → Option Files
  | [], files => some files
  | q :: qs, files =>
      match q.write {} files rank with
      | some (true, files, _) => writeAll rank qs files
      | _ => none

/-- The files after checkpoints of the lists of items in `ls`. -/
def checkpointed (rank : Int) : List (List Item) → Files → Files
  | [], files => files
  | [] :: ls, files => checkpointed rank ls files
  | (s :: l) :: ls, files =>
      checkpointed rank ls (Function.update files (filename rank) (some (checkpoint (s :: l))))

variable {qs : List Queue} {ls : List (List Item)}

theorem writeAll_eq (h : List.Forall₂ Holds qs ls) :
    writeAll rank qs files = some (checkpointed rank ls files) := by
  induction h generalizing files with
  | nil => rfl
  | @cons q l qs ls hq _ ih =>
      cases l with
      | nil =>
          rw [writeAll, hq.write_nil]
          exact ih
      | cons s l =>
          obtain ⟨q', hwrite, _⟩ := hq.write (List.cons_ne_nil s l) files rank
          rw [writeAll, hwrite]
          exact ih

theorem checkpointed_append {l : List Item} :
    checkpointed rank (ls ++ [l]) files = checkpointed rank [l] (checkpointed rank ls files) := by
  induction ls generalizing files with
  | nil => rfl
  | cons l' ls ih => cases l' <;> exact ih

/-- The file has the last checkpoint of a queue that was not empty. -/
theorem checkpointed_filename (rank : Int) (ls : List (List Item)) (files : Files) :
    (∀ l ∈ ls, l = []) ∧ checkpointed rank ls files (filename rank) = files (filename rank) ∨
      ∃ l ∈ ls, l ≠ [] ∧ checkpointed rank ls files (filename rank) = some (checkpoint l) := by
  induction ls generalizing files with
  | nil => exact .inl ⟨by simp, rfl⟩
  | cons l ls ih =>
      cases l with
      | nil =>
          rcases ih files with ⟨hempty, hfile⟩ | ⟨l, hl, hne, hfile⟩
          · exact .inl ⟨List.forall_mem_cons.mpr ⟨rfl, hempty⟩, hfile⟩
          · exact .inr ⟨l, List.mem_cons_of_mem _ hl, hne, hfile⟩
      | cons s l =>
          have ih := ih (Function.update files (filename rank) (some (checkpoint (s :: l))))
          rcases ih with ⟨_, hfile⟩ | ⟨l', hl', hne, hfile⟩
          · exact .inr ⟨s :: l, List.mem_cons_self .., List.cons_ne_nil _ _,
              hfile.trans (Function.update_self ..)⟩
          · exact .inr ⟨l', List.mem_cons_of_mem _ hl', hne, hfile⟩

/-- A restart after checkpoints of the queues in `qs` and then of `q` reads `l`, up to the order.-/
def Restarts (qs : List Queue) (q r : Queue) (env : ReadEnv) (files : Files) (rank : Int)
    (l : List Item) : Prop :=
  ∃ files' l', writeAll rank (qs ++ [q]) files = some files' ∧ r.Reads env files' rank l' ∧
    l'.Perm l

variable {s : Item}

theorem restarts_iff (hqs : List.Forall₂ Holds qs ls) (hq : q.Holds l) :
    Restarts qs q r env files rank l ↔
      ∃ l', r.Reads env (checkpointed rank [l] (checkpointed rank ls files)) rank l' ∧
        l'.Perm l := by
  have hwrite : writeAll rank (qs ++ [q]) files = some (checkpointed rank (ls ++ [l]) files) :=
    writeAll_eq (List.rel_append hqs (.cons hq .nil))
  rw [checkpointed_append] at hwrite
  constructor
  · rintro ⟨files', l', hwrite', hread, hperm⟩
    obtain rfl := Option.some.inj (hwrite.symm.trans hwrite')
    exact ⟨l', hread, hperm⟩
  · rintro ⟨l', hread, hperm⟩
    exact ⟨_, l', hwrite, hread, hperm⟩

/-- The items of a queue that was not empty are read back. -/
theorem restarts_cons (hqs : List.Forall₂ Holds qs ls) (hq : q.Holds (s :: l))
    (hnl : ∀ t ∈ s :: l, newline ∉ t.chars) (hlen : ∀ t ∈ s :: l, t.length ≤ maxStringLen - 2)
    (hr : r.Holds []) (henv : env.Ok) : Restarts qs q r env files rank (s :: l) := by
  refine (restarts_iff hqs hq).mpr ⟨(s :: l).reverse, ?_, List.reverse_perm _⟩
  have hfile : checkpointed rank [s :: l] (checkpointed rank ls files) (filename rank) =
      some (checkpoint (s :: l)) := Function.update_self ..
  rw [hr.reads_some henv hfile, textItems_checkpoint hnl hlen]
  exact ⟨rfl, hq.length_le⟩

/-- After an empty queue, the items of the file are read that was there before. -/
theorem restarts_nil_iff (hqs : List.Forall₂ Holds qs ls) (hq : q.Holds [])
    (hnl : ∀ l ∈ ls, ∀ s ∈ l, newline ∉ s.chars)
    (hlen : ∀ l ∈ ls, ∀ s ∈ l, s.length ≤ maxStringLen - 2) (hr : r.Holds []) (henv : env.Ok) :
    Restarts qs q r env files rank [] ↔
      (∀ l ∈ ls, l = []) ∧ ∀ text ∈ files (filename rank), textItems text = [] := by
  rw [restarts_iff hqs hq]
  change (∃ l', r.Reads env (checkpointed rank ls files) rank l' ∧ l'.Perm []) ↔ _
  simp only [List.perm_nil, exists_eq_right]
  rcases checkpointed_filename rank ls files with ⟨hempty, hfile⟩ | ⟨l, hl, hne, hfile⟩
  · cases htext : files (filename rank) with
    | none =>
        rw [hr.reads_none (hfile.trans htext)]
        exact iff_of_true rfl ⟨hempty, fun text htext => by cases htext⟩
    | some text =>
        rw [hr.reads_some henv (hfile.trans htext)]
        constructor
        · rintro ⟨heq, _⟩
          refine ⟨hempty, fun text' htext' => ?_⟩
          obtain rfl := Option.some.inj htext'
          exact List.reverse_eq_nil_iff.mp heq.symm
        · rintro ⟨_, htext'⟩
          rw [htext' text rfl]
          exact ⟨rfl, Nat.zero_le _⟩
  · rw [hr.reads_some henv hfile, textItems_checkpoint (hnl l hl) (hlen l hl)]
    constructor
    · rintro ⟨heq, _⟩
      exact absurd (List.reverse_eq_nil_iff.mp heq.symm) hne
    · rintro ⟨hempty, _⟩
      exact absurd (hempty l hl) hne

/-- A restart reads the last checkpoint exactly if the queue was not empty, or if no checkpoint
and no item was there before. -/
theorem restart_iff (hqs : List.Forall₂ Holds qs ls) (hq : q.Holds l)
    (hnl : ∀ l' ∈ ls ++ [l], ∀ s ∈ l', newline ∉ s.chars)
    (hlen : ∀ l' ∈ ls ++ [l], ∀ s ∈ l', s.length ≤ maxStringLen - 2)
    (hr : r.Holds []) (henv : env.Ok) :
    Restarts qs q r env files rank l ↔
      l ≠ [] ∨ (∀ l' ∈ ls, l' = []) ∧ ∀ text ∈ files (filename rank),
        ∀ c ∈ Lines.chunks newline (maxStringLen - 1) text, ∀ x ∈ c.head?, x = 0 := by
  cases l with
  | nil =>
      have hiff : Restarts qs q r env files rank [] ↔
          (∀ l ∈ ls, l = []) ∧ ∀ text ∈ files (filename rank), textItems text = [] :=
        restarts_nil_iff hqs hq (fun l hl => hnl l (List.mem_append_left _ hl))
          (fun l hl => hlen l (List.mem_append_left _ hl)) hr henv
      rw [hiff]
      simp only [textItems_eq_nil_iff, ne_eq, not_true_eq_false, false_or]
  | cons s l =>
      have hlast : s :: l ∈ ls ++ [s :: l] := List.mem_append_right _ (List.mem_singleton_self _)
      exact iff_of_true (restarts_cons hqs hq (hnl _ hlast) (hlen _ hlast) hr henv)
        (.inl (List.cons_ne_nil s l))

/-- The words are read again after the checkpoint of an empty queue and one of another item. -/
theorem restart_iff_words :
    Restarts [blankQueue 0 1, filledQueue [CStr.ofBuffer [101]]] (filledQueue words)
      (blankQueue 0 1) {} noFiles 0 words :=
  (restart_iff (.cons (layout_blank (n := 0) (by decide) (by decide)).holds
      (.cons (holds_filled (by decide) (by decide)) .nil))
    holds_words (by decide) (by decide) (layout_blank (by decide) (by decide)).holds
    ⟨rfl, fun _ => ⟨rfl, rfl⟩, rfl⟩).mpr (.inl (List.cons_ne_nil _ _))

/-- The checkpoint of the words is read again after that of an empty queue. -/
theorem restart_reads_stale :
    (∃ files', writeAll 0 [filledQueue words, blankQueue 0 1] noFiles = some files' ∧
        (blankQueue 0 1).Reads {} files' 0 words.reverse) ∧
      ¬Restarts [filledQueue words] (blankQueue 0 1) (blankQueue 0 1) {} noFiles 0 [] := by
  have h₀ : (blankQueue 0 1).Holds [] := (layout_blank (by decide) (by decide)).holds
  have henv : ({} : ReadEnv).Ok := ⟨rfl, fun _ => ⟨rfl, rfl⟩, rfl⟩
  have htext : textItems (checkpoint words) = words :=
    textItems_checkpoint (by decide) (by decide)
  refine ⟨⟨_, writeAll_eq (.cons holds_words (.cons h₀ .nil)), ?_⟩, ?_⟩
  · have hfile : checkpointed 0 [words, []] noFiles (filename 0) = some (checkpoint words) := by
      rw [words, checkpointed, checkpointed, checkpointed]
      exact Function.update_self ..
    rw [h₀.reads_some henv hfile, htext]
    exact ⟨rfl, by decide⟩
  · rw [restarts_nil_iff (.cons holds_words .nil) h₀ (by decide) (by decide) h₀ henv]
    rintro ⟨hempty, _⟩
    exact absurd (hempty _ (List.mem_singleton_self _)) (List.cons_ne_nil _ _)

/-! ## Items with newlines -/

/-- The content of the file after a write of `q`. -/
def checkpointFile (q : Queue) (files : Files) (rank : Int) : Option (List UInt8) := do
  let (_, files, _) ← q.write {} files rank
  files (filename rank)

/-- The items cut at their newlines, from the top down. -/
def pieces (l : List Item) : List (List UInt8) := l.flatMap fun s => s.chars.splitOn newline

theorem Holds.checkpointFile_eq (h : q.Holds l) (hl : l ≠ []) :
    q.checkpointFile files rank = some (checkpoint l) := by
  obtain ⟨q', hwrite, _⟩ := h.write hl files rank
  rw [checkpointFile, hwrite]
  exact Function.update_self ..

theorem checkpoint_inj {k l : List Item} : checkpoint k = checkpoint l ↔ pieces k = pieces l := by
  rw [checkpoint, checkpoint, Lines.join_inj, List.flatMap_map, List.flatMap_map]
  rfl

/-- The items that are the lines of the file, from the top down. -/
def lines (l : List Item) : List Item := (pieces l).map CStr.ofBuffer

/-- No item of the queue has a newline. -/
def NewlineFree (l : List Item) : Prop := ∀ s ∈ l, newline ∉ s.chars

theorem exists_of_mem_pieces {p : List UInt8} (h : p ∈ pieces l) :
    ∃ s ∈ l, p.Sublist s.chars ∧ newline ∉ p := by
  obtain ⟨s, hs, hp⟩ := List.mem_flatMap.mp h
  exact ⟨s, hs, Lines.sublist_of_mem_splitOn hp, Lines.not_mem_of_mem_splitOn hp⟩

theorem chars_ofBuffer {p : List UInt8} (h : p ∈ pieces l) : (CStr.ofBuffer p).chars = p := by
  obtain ⟨s, _, hsub, _⟩ := exists_of_mem_pieces h
  refine List.takeWhile_eq_self_iff.mpr fun x hx => ?_
  simpa using s.nul_free x (hsub.subset hx)

theorem map_chars_lines : (lines l).map CStr.chars = pieces l := by
  rw [lines, List.map_map]
  exact (List.map_congr_left fun p hp => chars_ofBuffer hp).trans (List.map_id _)

theorem pieces_of_newlineFree (h : NewlineFree l) : pieces l = l.map CStr.chars := by
  rw [pieces, ← List.flatMap_singleton' (l.map CStr.chars), List.flatMap_map]
  exact List.flatMap_congr fun s hs => List.splitOn_eq_singleton (h s hs)

theorem newlineFree_lines : NewlineFree (lines l) := by
  intro s hs
  obtain ⟨p, hp, rfl⟩ := List.mem_map.mp hs
  obtain ⟨_, _, _, hnl⟩ := exists_of_mem_pieces hp
  rwa [chars_ofBuffer hp]

theorem short_lines (h : ∀ s ∈ l, s.length < maxStringLen) :
    ∀ s ∈ lines l, s.length < maxStringLen := by
  intro s hs
  obtain ⟨p, hp, rfl⟩ := List.mem_map.mp hs
  obtain ⟨s, hs, hsub, _⟩ := exists_of_mem_pieces hp
  rw [CStr.length, chars_ofBuffer hp]
  exact hsub.length_le.trans_lt (h s hs)

/-- The lines have the same file. -/
theorem pieces_lines : pieces (lines l) = pieces l := by
  rw [pieces_of_newlineFree newlineFree_lines, map_chars_lines]

/-- A queue has a checkpoint that no other queue without newlines has, exactly if it has no
newlines itself, or more lines than a queue can hold items. -/
theorem checkpointFile_inj_iff (hq : q.Holds l) (hl : l ≠ []) :
    (∀ (r : Queue) (k : List Item), r.Holds k → k ≠ [] → NewlineFree k → k ≠ l →
        r.checkpointFile files rank ≠ q.checkpointFile files rank) ↔
      (NewlineFree l ∨ maxCapacity < (pieces l).length) := by
  constructor
  · intro hdistinct
    by_contra hcond
    obtain ⟨hnl, hfit⟩ := not_or.mp hcond
    have hlen : (lines l).length = (pieces l).length := List.length_map ..
    have hr : (filledQueue (lines l)).Holds (lines l) :=
      holds_filled (hlen.le.trans (Nat.le_of_not_lt hfit)) (short_lines hq.short)
    have hne : lines l ≠ [] := by
      intro hnil
      have hpieces : pieces l = [] := by rw [← map_chars_lines, hnil, List.map_nil]
      obtain ⟨s, t, rfl⟩ := List.exists_cons_of_ne_nil hl
      exact List.splitOn_ne_nil newline s.chars (List.append_eq_nil_iff.mp hpieces).1
    refine hdistinct _ _ hr hne newlineFree_lines (fun heq => hnl (heq ▸ newlineFree_lines)) ?_
    rw [hr.checkpointFile_eq hne, hq.checkpointFile_eq hl, checkpoint_inj.mpr pieces_lines]
  · intro hcond r k hr hk hnlk hne hfile
    rw [hr.checkpointFile_eq hk, hq.checkpointFile_eq hl, Option.some_inj, checkpoint_inj,
      pieces_of_newlineFree hnlk] at hfile
    rcases hcond with hnl | hlarge
    · rw [pieces_of_newlineFree hnl] at hfile
      exact hne (List.map_injective_iff.mpr (fun _ _ => CStr.ext) hfile)
    · rw [← hfile, List.length_map] at hlarge
      exact absurd hr.length_le (Nat.not_le.mpr hlarge)

/-- The queue of `"a"` and `"b"` and the queue of `"ab"`. -/
theorem checkpointFile_inj_iff_letters :
    (filledQueue [CStr.ofBuffer [97, 98]]).checkpointFile noFiles 0 ≠
      (filledQueue [CStr.ofBuffer [97], CStr.ofBuffer [98]]).checkpointFile noFiles 0 := by
  have hq : (filledQueue [CStr.ofBuffer [97], CStr.ofBuffer [98]]).Holds
      [CStr.ofBuffer [97], CStr.ofBuffer [98]] := holds_filled (by decide) (by decide)
  have hr : (filledQueue [CStr.ofBuffer [97, 98]]).Holds [CStr.ofBuffer [97, 98]] :=
    holds_filled (by decide) (by decide)
  exact (checkpointFile_inj_iff hq (List.cons_ne_nil _ _)).mpr
    (.inl (by unfold NewlineFree; decide)) _ _ hr (List.cons_ne_nil _ _)
    (by unfold NewlineFree; decide) (by simp)

theorem newline_nul_free : ∀ x ∈ [newline], x ≠ 0 := by
  simp [newline]

/-- The item `"\n"` and two empty items have the same checkpoint. -/
theorem checkpointFile_not_inj :
    ∃ q : Queue, (blankQueue 0 1).push {} (some ⟨[newline], newline_nul_free⟩) = some (true, q) ∧
      q.Holds [⟨[newline], newline_nul_free⟩] ∧
      (blankQueue 2 1).Holds [CStr.empty, CStr.empty] ∧
      [(⟨[newline], newline_nul_free⟩ : Item)] ≠ [CStr.empty, CStr.empty] ∧
      q.checkpointFile noFiles 0 = (blankQueue 2 1).checkpointFile noFiles 0 := by
  have hr : (blankQueue 0 1).Holds [] := (layout_blank (by decide) (by decide)).holds
  have h₂ : (blankQueue 2 1).Holds [CStr.empty, CStr.empty] :=
    (layout_blank (n := 2) (by decide) (by decide)).holds
  have hgrow : ({} : GrowEnv).strings = true ∧ ({} : GrowEnv).base = true := ⟨rfl, rfl⟩
  obtain ⟨q, hpush, hq⟩ :=
    hr.push (s := ⟨[newline], newline_nul_free⟩) hgrow (by decide) (by decide)
  refine ⟨q, hpush, hq, h₂, by simp, ?_⟩
  rw [hq.checkpointFile_eq (List.cons_ne_nil _ _), h₂.checkpointFile_eq (List.cons_ne_nil _ _)]
  rfl

end Queue

end Libcircle
