import Xv6.Param
import Xv6.Ulib

/-! `user/xargs.c`: the command is run once for each line of the standard input.

    `read` takes one byte at a time. The argument vector holds pointers: those of `argv`, then `buf` itself, so that every
    child sees the line that stands in `buf` when it is forked. `fork` and `exec` succeed; what happens is a list of the
    programs started and of the waits for them. -/

namespace Xv6.Xargs
open Bytes Ulib Function List Option

/-! ### The code -/

/-- `sizeof(buf)`. -/
def BUFSIZE : Nat := 512

/-- An entry of `args`. -/
inductive Ptr where
  | given (s : List UInt8)
  | buf
  | null
  deriving Repr, DecidableEq

/-- What the parent and its children do. -/
inductive Event where
  | exec (path : List UInt8) (argv : List (List UInt8))
  | wait
  deriving Repr, DecidableEq

/-- `args[i] = p`. -/
def setArg (args : Nat → Ptr) (i : Nat) (p : Ptr) : Option (Nat → Ptr) :=
  if i < MAXARG then some (update args i p) else none

/-- `for (int i = 1; i < argc; ++i) args[i-1] = argv[i];` -/
def copyArgs : List (List UInt8) → Nat → (Nat → Ptr) → Option (Nat → Ptr)
  | [], _, args => some args
  | a :: rest, i, args => do
    let args ← setArg args i (.given a)
    copyArgs rest (i + 1) args

/-- The vector as `exec` reads it, up to the null pointer. -/
def vector (args : Nat → Ptr) (buf : Buf) : Nat → Nat → Option (List (List UInt8))
  | 0, _ => none
  | k + 1, i =>
    match args i with
    | .null => some []
    | .given s => (vector args buf k (i + 1)).map (s :: ·)
    | .buf => do
      let s ← string BUFSIZE buf 0
      (vector args buf k (i + 1)).map (s :: ·)

/-- How reading a line ends. -/
inductive Reading where
  | tooLong
  | line (buf : Buf) (i : Nat) (eof : Bool) (input : List UInt8)

/-- The inner `for(;;)`. -/
def readLine (buf : Buf) (i : Nat) : List UInt8 → Option Reading
  | [] => do
    let buf ← store BUFSIZE buf i 0
    some (.line buf i true [])
  | ch :: input =>
    if i ≥ 512 then some .tooLong
    else if newline = ch then do
      let buf ← store BUFSIZE buf i 0
      some (.line buf i false input)
    else do
      let buf ← store BUFSIZE buf i ch
      readLine buf (i + 1) input

/-- `while (!eof)`; returns what happened and the exit status. -/
def loop (argv : List (List UInt8)) :
    Nat → Bool → Buf → (Nat → Ptr) → List UInt8 → Option (List Event × Int)
  | 0, _, _, _, _ => none
  | fuel + 1, eof, buf, args, input =>
    if eof then some ([], 0)
    else do
      match ← readLine buf 0 input with
      | .tooLong => some ([], -1)
      | .line buf i eof input =>
        if i = 0 then some ([], 0)
        else
          let args ← setArg args (argv.length - 1) .buf
          let args ← setArg args argv.length .null
          let (events, status) ← loop argv fuel eof buf args input
          some (.exec (argv.getD 1 []) (← vector args buf MAXARG 0) :: .wait :: events, status)

/-- `main`; what is in `buf` and `args` before is anything. -/
def main (argv : List (List UInt8)) (buf : Buf) (args : Nat → Ptr) (input : List UInt8) : Option (List Event × Int) :=
  if argv.length < 2 then some ([], -1)
  else do
    let args ← copyArgs argv.tail 0 args
    loop argv (input.length + 2) false buf args input

/-! ### The vector -/

/-- The first entries of `args` are the words `ws`. -/
def Given (args : Nat → Ptr) (i : Nat) : List (List UInt8) → Prop
  | [] => True
  | w :: ws => args i = .given w ∧ Given args (i + 1) ws

section Vector
variable {args args' : Nat → Ptr} {i k : Nat} {p : Ptr} {ws : List (List UInt8)} {buf : Buf} {l : List UInt8}

theorem Given.congr (h : Given args i ws) (hsame : ∀ k, i ≤ k → k < i + ws.length → args' k = args k) : Given args' i ws := by
  induction ws generalizing i with
  | nil => trivial
  | cons w ws ih =>
    rw [length_cons] at hsame
    exact ⟨(hsame i (by omega) (by omega)).trans h.1, ih h.2 fun k h1 h2 => hsame k (by omega) (by omega)⟩

end Vector

/-! ### The lines -/

section Lines
variable {buf : Buf} {i : Nat} {l rest : List UInt8}

end Lines

/-- A line that fits and has no NUL in it. -/
structure Line (l : List UInt8) : Prop where
  nul : 0 ∉ l
  newline : newline ∉ l
  short : l.length < 512

/-- What is to happen: a child for each line that is not empty, and a wait for it. -/
def runs (argv : List (List UInt8)) (lines : List (List UInt8)) : List Event :=
  (lines.filter (· ≠ [])).flatMap fun l => [.exec (argv.getD 1 []) (argv.tail ++ [l]), .wait]

section Loop
variable {argv : List (List UInt8)} {fuel : Nat} {buf : Buf} {args : Nat → Ptr} {input : List UInt8}

end Loop

section Bounds
variable {argv : List (List UInt8)} {fuel i j k : Nat} {buf : Buf} {args : Nat → Ptr} {input : List UInt8}

end Bounds

end Xv6.Xargs
