import Xv6.Fs.Sysfile

/-! `user/sh.c`, parsing: from a line of text to a command tree.

    The parser walks over the line with a cursor, the `char **ps` that every function passes on. Words are
    not copied: the tree points into the line, at the first character of a word and one past its last,
    and when the whole line has been parsed `nulterminate` stores a NUL behind every word. Here a cursor
    is a position, and a word a pair of positions (`Span`).

    A function whose recursion or loop has no other bound takes as its first argument how many calls and
    rounds may still be made. That `parsecmd` starts with enough of them is part of what is proved. -/

namespace Xv6.Shell
open Fs (O_WRONLY O_CREATE O_TRUNC)

def MAXARGS : Nat := 10

/-- `struct cmd`, for words of type `W`. -/
inductive Cmd (W : Type) where
  | exec (argv : List W)
  | redir (cmd : Cmd W) (file : W) (mode : UInt32) (fd : Nat)
  | pipe (left right : Cmd W)
  | list (left right : Cmd W)
  | back (cmd : Cmd W)
  deriving DecidableEq

namespace Cmd
variable {W V : Type}

def map (f : W → V) : Cmd W → Cmd V
  | .exec argv => .exec (argv.map f)
  | .redir c file mode fd => .redir (c.map f) (f file) mode fd
  | .pipe l r => .pipe (l.map f) (r.map f)
  | .list l r => .list (l.map f) (r.map f)
  | .back c => .back (c.map f)

/-- `cmd->argv[argc] = w`, where `cmd` is the command at the bottom of the redirections around it. -/
def pushArg : Cmd W → W → Cmd W
  | .exec argv, w => .exec (argv ++ [w])
  | .redir c file mode fd, w => .redir (c.pushArg w) file mode fd
  | c, _ => c

end Cmd

/-! ### Characters -/

def bar : UInt8 := 124     -- '|'
def lpar : UInt8 := 40     -- '('
def rpar : UInt8 := 41     -- ')'
def semi : UInt8 := 59     -- ';'
def amp : UInt8 := 38      -- '&'
def lt : UInt8 := 60       -- '<'
def gt : UInt8 := 62       -- '>'
def plus : UInt8 := 43     -- '+', the token ">>"
def letterA : UInt8 := 97  -- 'a', a word

def whitespace : List UInt8 := [32, 9, 13, 10, 11]
def symbols : List UInt8 := [lt, bar, gt, amp, semi, lpar, rpar]

def isSpace (c : UInt8) : Bool := whitespace.contains c

def isWord (c : UInt8) : Bool := !whitespace.contains c && !symbols.contains c

/-! ### Tokens -/

/-- The line, and `es`, the position of the NUL behind it. -/
structure Text where
  buf : Nat → UInt8
  es : Nat

def Text.of (s : List UInt8) : Text := ⟨fun i => s.getD i 0, s.length⟩

/-- A word: `q` and `eq`. -/
structure Span where
  q : Nat
  eq : Nat
  deriving DecidableEq

/-- Go on from `s` while `p` holds, `n` characters at most. -/
def Text.scan (t : Text) (p : UInt8 → Bool) : Nat → Nat → Nat
  | s, 0 => s
  | s, n + 1 => if p (t.buf s) then t.scan p (s + 1) n else s

/-- `while(s < es && p(*s)) s++`. -/
def Text.skip (t : Text) (p : UInt8 → Bool) (s : Nat) : Nat := t.scan p s (t.es - s)

/-- The token's code and where it ends, if it starts at `s`. -/
def Text.token (t : Text) (s : Nat) : UInt8 × Nat :=
  if t.buf s = 0 then (0, s)
  else if t.buf s = bar ∨ t.buf s = lpar ∨ t.buf s = rpar ∨ t.buf s = semi ∨ t.buf s = amp ∨ t.buf s = lt then
    (t.buf s, s + 1)
  else if t.buf s = gt then
    if t.buf (s + 1) = gt then (plus, s + 2) else (gt, s + 1)
  else (letterA, t.skip isWord s)

/-- The next token: its code, its place, and the cursor behind it. -/
def gettoken (t : Text) (ps : Nat) : UInt8 × Span × Nat :=
  let s := t.skip isSpace ps
  let tok := t.token s
  (tok.1, ⟨s, tok.2⟩, t.skip isSpace tok.2)

/-- Whether the next token starts with one of `toks`; the cursor moves over the blanks. -/
def peek (t : Text) (ps : Nat) (toks : List UInt8) : Bool × Nat :=
  let s := t.skip isSpace ps
  (t.buf s != 0 && toks.contains (t.buf s), s)

/-! ### The parser -/

/-- Why the shell gives up on a line. -/
inductive Panic where
  | syntaxError      -- "syntax"
  | missingFile      -- "missing file for redirection"
  | parseblock       -- "parseblock"
  | missingParen     -- "syntax - missing )"
  | tooManyArgs      -- "too many args"
  | leftovers        -- "leftovers: %s", "syntax"
  | fuel             -- the bound of the model, not of the code
  deriving DecidableEq

/-- The command that the code of a redirection makes of `cmd`. -/
def redircmd {W : Type} (tok : UInt8) (cmd : Cmd W) (file : W) : Cmd W :=
  if tok = lt then .redir cmd file 0 0
  else if tok = gt then .redir cmd file (O_WRONLY ||| O_CREATE ||| O_TRUNC) 1
  else if tok = plus then .redir cmd file (O_WRONLY ||| O_CREATE) 1
  else cmd

variable (t : Text)

def parseredirs : Nat → Cmd Span → Nat → Except Panic (Cmd Span × Nat)
  | 0, _, _ => .error .fuel
  | n + 1, cmd, ps =>
    let more := peek t ps [lt, gt]
    if more.1 then
      let tok := gettoken t more.2
      let file := gettoken t tok.2.2
      if file.1 ≠ letterA then .error .missingFile
      else parseredirs n (redircmd tok.1 cmd file.2.1) file.2.2
    else .ok (cmd, more.2)

/-- The loop of `parseexec`. -/
def parseargs : Nat → Nat → Cmd Span → Nat → Except Panic (Cmd Span × Nat)
  | 0, _, _, _ => .error .fuel
  | n + 1, argc, ret, ps =>
    let stop := peek t ps [bar, rpar, amp, semi]
    if stop.1 then .ok (ret, stop.2)
    else
      let tok := gettoken t stop.2
      if tok.1 = 0 then .ok (ret, tok.2.2)
      else if tok.1 ≠ letterA then .error .syntaxError
      else if argc + 1 ≥ MAXARGS then .error .tooManyArgs
      else do
        let r ← parseredirs t n (ret.pushArg tok.2.1) tok.2.2
        parseargs n (argc + 1) r.1 r.2

/-- The loop of `parseline`. -/
def parseback : Nat → Cmd Span → Nat → Except Panic (Cmd Span × Nat)
  | 0, _, _ => .error .fuel
  | n + 1, cmd, ps =>
    let more := peek t ps [amp]
    if more.1 then parseback n (.back cmd) (gettoken t more.2).2.2 else .ok (cmd, more.2)

mutual

def parseline : Nat → Nat → Except Panic (Cmd Span × Nat)
  | 0, _ => .error .fuel
  | n + 1, ps => do
    let first ← parsepipe n ps
    let cmd ← parseback t n first.1 first.2
    let more := peek t cmd.2 [semi]
    if more.1 then do
      let rest ← parseline n (gettoken t more.2).2.2
      .ok (.list cmd.1 rest.1, rest.2)
    else .ok (cmd.1, more.2)

def parsepipe : Nat → Nat → Except Panic (Cmd Span × Nat)
  | 0, _ => .error .fuel
  | n + 1, ps => do
    let cmd ← parseexec n ps
    let more := peek t cmd.2 [bar]
    if more.1 then do
      let rest ← parsepipe n (gettoken t more.2).2.2
      .ok (.pipe cmd.1 rest.1, rest.2)
    else .ok (cmd.1, more.2)

def parseblock : Nat → Nat → Except Panic (Cmd Span × Nat)
  | 0, _ => .error .fuel
  | n + 1, ps =>
    let more := peek t ps [lpar]
    if more.1 then do
      let cmd ← parseline n (gettoken t more.2).2.2
      let close := peek t cmd.2 [rpar]
      if close.1 then parseredirs t n cmd.1 (gettoken t close.2).2.2
      else .error .missingParen
    else .error .parseblock

def parseexec : Nat → Nat → Except Panic (Cmd Span × Nat)
  | 0, _ => .error .fuel
  | n + 1, ps =>
    let block := peek t ps [lpar]
    if block.1 then parseblock n block.2
    else do
      let r ← parseredirs t n (.exec []) block.2
      parseargs t n 0 r.1 r.2

end

/-- NUL-terminate all the counted strings. -/
def nulterminate : Cmd Span → (Nat → UInt8) → Nat → UInt8
  | .exec argv, buf => argv.foldl (fun buf w => Function.update buf w.eq 0) buf
  | .redir c file _ _, buf => Function.update (nulterminate c buf) file.eq 0
  | .pipe l r, buf => nulterminate r (nulterminate l buf)
  | .list l r, buf => nulterminate r (nulterminate l buf)
  | .back c, buf => nulterminate c buf

/-- The string at position `q` of a buffer with a NUL at `es`. -/
def cstring (buf : Nat → UInt8) (es q : Nat) : List UInt8 :=
  ((List.range (es - q)).map fun i => buf (q + i)).takeWhile (· != 0)

/-- The command that a line stands for, its strings read where the tree points. -/
def parsecmd (s : List UInt8) : Except Panic (Cmd (List UInt8)) := do
  let t := Text.of s
  let cmd ← parseline t (4 * s.length + 4) 0
  let last := (peek t cmd.2 []).2
  if last ≠ t.es then .error .leftovers
  else .ok (cmd.1.map fun w => cstring (nulterminate cmd.1 t.buf) t.es w.q)

end Xv6.Shell
