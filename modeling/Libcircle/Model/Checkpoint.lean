import Libcircle.Lib.Lines
import Libcircle.Model.Queue

/-!
# Checkpoint files

The functions of `queue.c` that write a queue to a file and read it back.  Each
item is one line of the file, the top of the stack first.

A file is its bytes, and `none` if it does not exist.  The system decides whether
a file can be opened, written and closed.
-/

namespace Libcircle

/-- `'\n'`. -/
def newline : UInt8 := 10

/-- The files of the working directory. -/
abbrev Files := String → Option (List UInt8)

/-- `sprintf(filename, "circle%d.txt", rank)`. -/
def filename (rank : Int) : String := "circle" ++ toString rank ++ ".txt"

/-- What the system decides in one call of `CIRCLE_internal_queue_write`. -/
structure WriteEnv where
  /-- `fopen` succeeds. -/
  fopen : Bool := true
  /-- The `fprintf` with this number succeeds. -/
  fprintf : Nat → Bool := fun _ => true
  /-- `fclose` fails after this number of bytes. -/
  fclose : Option Nat := none

/-- What the system decides in one call of `CIRCLE_internal_queue_read`. -/
structure ReadEnv where
  /-- `fopen` succeeds if the file exists. -/
  fopen : Bool := true
  /-- The allocations in each push. -/
  grow : Nat → GrowEnv := fun _ => {}
  /-- `fclose` succeeds. -/
  fclose : Bool := true

namespace Queue

/-! ## Writing -/

/-- The loop of `CIRCLE_internal_queue_write` that pops `n` items; `k` have been printed. -/
def writeLoop (env : WriteEnv) : Nat → Nat → List UInt8 → Queue → Option (Bool × List UInt8 × Queue)
  | 0, _, text, q => some (true, text, q)
  | n + 1, k, text, q =>
      match q.pop with
      | none => none
      | some (none, q) => some (false, text, q)
      | some (some str, q) =>
          -- `strcpy` into a buffer of `CIRCLE_MAX_STRING_LEN` bytes
          if maxStringLen < str.length + 1 then none
          else if env.fprintf k then
            writeLoop env n (k + 1) (text ++ (str.chars ++ [newline])) q
          else some (false, text, q)

variable (q : Queue)

/-- `CIRCLE_internal_queue_write`.  A pop lowers `count` by one, so the loop runs `count` times. -/
def write (env : WriteEnv) (files : Files) (rank : Int) : Option (Bool × Files × Queue) :=
  if q.count = 0 then some (true, files, q)
  else if env.fopen = false then some (false, files, q)
  else
    match writeLoop env q.count 0 [] q with
    | none => none
    | some (false, text, q) => some (false, Function.update files (filename rank) (some text), q)
    | some (true, text, q) =>
        match env.fclose with
        | none => some (true, Function.update files (filename rank) (some text), q)
        | some n => some (false, Function.update files (filename rank) (some (text.take n)), q)

/-! ## Reading -/

/-- The loop of `CIRCLE_internal_queue_read` over what `fgets` returns.  The result of the push
is only logged. -/
def readLoop (env : Nat → GrowEnv) : Nat → List (List UInt8) → Queue → Option Queue
  | _, [], q => some q
  | k, chunk :: chunks, q =>
      let str := CStr.ofBuffer chunk
      if 0 < str.length then
        match q.push (env k) (some str.dropLast) with
        | none => none
        | some (_, q) => readLoop env (k + 1) chunks q
      else readLoop env (k + 1) chunks q

/-- `CIRCLE_internal_queue_read`. -/
def read (env : ReadEnv) (files : Files) (rank : Int) : Option (Bool × Queue) :=
  match if env.fopen then files (filename rank) else none with
  | none => some (false, q)
  | some text =>
      match readLoop env.grow 0 (Lines.chunks newline (maxStringLen - 1) text) q with
      | none => none
      | some q => some (env.fclose, q)

end Queue

end Libcircle
