import Xv6.Lib.Descriptors
import Xv6.Shell.Accepts

/-! `runcmd` of `user/sh.c`: how the shell plugs the descriptors of its commands together.

    `runcmd` never returns: it execs, or it goes on with a part of the command, or it forks processes that do so. As a
    process between two system calls is alone with its variables, one step is one system call (`Pc`), and the processes
    that run the parts of a command make theirs in any order. Besides what the program has, a process carries the
    constructs around the part that it runs, with the files and pipes that they have opened (`ctx`), and the number of
    the pipe in its array `p` (`obj`): nothing depends on them, and they say what the descriptors should be. -/

namespace Xv6.Shell
open Descriptors

/-- What a descriptor stands for: one of those from before, the `i`-th file or an end of the `i`-th pipe that the shell
    has opened, or something that the program has opened itself. -/
inductive Desc where
  | inherited (fd : Nat)
  | file (i : Nat)
  | pipeR (i : Nat)
  | pipeW (i : Nat)
  | own
  deriving DecidableEq

/-- A construct around a command. -/
inductive Frame where
  | redir (fd i : Nat)
  | pipeL (i : Nat)
  | pipeR (i : Nat)
  | listL
  | listR
  | back
  deriving DecidableEq

/-- The two children of a pipe. -/
inductive Side where
  | left
  | right
  deriving DecidableEq

/-- The descriptor that the child replaces. -/
def Side.fd : Side → Int
  | .left => 1
  | .right => 0

def Side.frame : Side → Nat → Frame
  | .left => .pipeL
  | .right => .pipeR

/-- The end of the pipe that the child uses: `p[1]` or `p[0]`. -/
def Side.pick (p : Int × Int) : Side → Int
  | .left => p.2
  | .right => p.1

variable {W : Type}

/-- The system call that comes next. -/
inductive Pc (W : Type) where
  | exec (argv : List W)                                            -- exec(ecmd->argv[0], ecmd->argv)
  | redirClose (cmd : Cmd W) (file : W) (mode : UInt32) (fd : Nat)  -- close(rcmd->fd)
  | redirOpen (cmd : Cmd W) (file : W) (mode : UInt32) (fd : Nat)   -- open(rcmd->file, rcmd->mode)
  | listFork (left right : Cmd W)                                   -- fork1()
  | listWait (right : Cmd W)                                        -- wait(0)
  | pipe (left right : Cmd W)                                       -- pipe(p)
  | forkLeft (left right : Cmd W)                                   -- the first fork1()
  | forkRight (right : Cmd W)                                       -- the second fork1()
  | close0                                                          -- close(p[0])
  | close1                                                          -- close(p[1])
  | wait1                                                           -- wait(0)
  | wait2                                                           -- wait(0)
  | childClose (side : Side) (cmd : Cmd W)                          -- close(1) or close(0)
  | childDup (side : Side) (cmd : Cmd W)                            -- dup(p[1]) or dup(p[0])
  | childClose0 (side : Side) (cmd : Cmd W)                         -- close(p[0])
  | childClose1 (side : Side) (cmd : Cmd W)                         -- close(p[1])
  | backFork (cmd : Cmd W)                                          -- fork1()
  | program                                                         -- exec has succeeded
  | exit
  | exited
  deriving DecidableEq

/-- `runcmd(cmd)`, up to its first system call. -/
def runcmd : Cmd W → Pc W
  | .exec [] => .exit
  | .exec (a :: argv) => .exec (a :: argv)
  | .redir cmd file mode fd => .redirClose cmd file mode fd
  | .list left right => .listFork left right
  | .pipe left right => .pipe left right
  | .back cmd => .backFork cmd

structure Proc (W : Type) where
  pc : Pc W
  fds : List (Option Desc)
  p : Int × Int
  parent : Option Nat
  /-- The parent has waited for this process. -/
  reaped : Bool
  ctx : List Frame
  obj : Nat

namespace Proc

def close (p : Proc W) (fd : Int) : Proc W := { p with fds := Descriptors.close p.fds fd }

/-- `runcmd(cmd)` for a part of the command. -/
def run (p : Proc W) (frame : Frame) (cmd : Cmd W) : Proc W := { p with ctx := frame :: p.ctx, pc := runcmd cmd }

/-- What `fork` makes of process `k`. -/
def child (p : Proc W) (k : Nat) : Proc W := { p with parent := some k, reaped := false }

/-- `pipe(p)`: the two new descriptors, for the `i`-th pipe. -/
def openPipe (p : Proc W) (i : Nat) : Option ((Int × Int) × List (Option Desc)) :=
  (alloc p.fds (.pipeR i)).bind fun r => (alloc r.2 (.pipeW i)).map fun s => ((r.1, s.1), s.2)

end Proc

/-- The processes `procs 0`, …, `procs (n - 1)`, and how many files and pipes have been opened. -/
structure World (W : Type) where
  n : Nat
  procs : Nat → Proc W
  m : Nat

/-- What a program does with descriptors. -/
inductive Act where
  | close (fd : Int)
  | dup (fd : Int)
  | open
  | fork
  | exit

/-- What is not up to the shell: whether `exec` finds its file, and what the programs do. -/
structure Choice where
  fails : Bool
  act : Act

namespace World

/-- Some process has a descriptor for `d`. -/
def held (w : World W) (d : Desc) : Bool := (List.range w.n).any fun k => (w.procs k).fds.contains (some d)

def set (w : World W) (k : Nat) (p : Proc W) : World W := { w with procs := Function.update w.procs k p }

def spawn (w : World W) (child : Proc W) : World W := { w with n := w.n + 1, procs := Function.update w.procs w.n child }

/-- The process `k` has called `exit`. -/
def gone (w : World W) (k : Nat) : Bool :=
  match (w.procs k).pc with
  | .exited => true
  | _ => false

/-- `wait(0)`; `none` if it has to wait. -/
def waitChild (w : World W) (k : Nat) : Option (World W) :=
  let kids := (List.range w.n).filter fun j => j ≠ k ∧ (w.procs j).parent = some k ∧ (w.procs j).reaped = false
  match kids.find? w.gone with
  | some j => some (w.set j { w.procs j with reaped := true })
  | none => if kids = [] then some w else none

end World

/-- One step of a program that has been started by `exec`. -/
def program (k : Nat) (p : Proc W) (w : World W) : Act → World W
  | .close fd => w.set k (p.close fd)
  | .dup fd => w.set k { p with fds := (dup p.fds fd).2 }
  | .open => w.set k { p with fds := ((alloc p.fds .own).getD (-1, p.fds)).2 }
  | .fork => w.spawn (p.child k)
  | .exit => w.set k { p with pc := .exit }

/-- One system call of process `k`, `p`. -/
def syscall (c : Choice) (k : Nat) (p : Proc W) (w : World W) : Option (World W) :=
  match p.pc with
  | .exec _ => some (w.set k { p with pc := if c.fails then .exit else .program })
  | .redirClose cmd file mode fd => some (w.set k { p.close fd with pc := .redirOpen cmd file mode fd })
  | .redirOpen cmd _ _ fd =>
    match alloc p.fds (.file w.m) with
    | none => some (w.set k { p with pc := .exit })
    | some (_, fds) => some ({ w with m := w.m + 1 }.set k ({ p with fds := fds }.run (.redir fd w.m) cmd))
  | .listFork left right => some ((w.set k { p with pc := .listWait right }).spawn ((p.child k).run .listL left))
  | .listWait right => (w.waitChild k).map fun w => w.set k (p.run .listR right)
  | .pipe left right =>
    match p.openPipe w.m with
    | none => some (w.set k { p with pc := .exit })
    | some (pip, fds) =>
      some ({ w with m := w.m + 1 }.set k { p with pc := .forkLeft left right, p := pip, obj := w.m, fds := fds })
  | .forkLeft left right =>
    some ((w.set k { p with pc := .forkRight right }).spawn
      { p.child k with pc := .childClose .left left, ctx := .pipeL p.obj :: p.ctx })
  | .forkRight right =>
    some ((w.set k { p with pc := .close0 }).spawn
      { p.child k with pc := .childClose .right right, ctx := .pipeR p.obj :: p.ctx })
  | .close0 => some (w.set k { p.close p.p.1 with pc := .close1 })
  | .close1 => some (w.set k { p.close p.p.2 with pc := .wait1 })
  | .wait1 => (w.waitChild k).map fun w => w.set k { p with pc := .wait2 }
  | .wait2 => (w.waitChild k).map fun w => w.set k { p with pc := .exit }
  | .childClose side cmd => some (w.set k { p.close side.fd with pc := .childDup side cmd })
  | .childDup side cmd => some (w.set k { p with fds := (dup p.fds (side.pick p.p)).2, pc := .childClose0 side cmd })
  | .childClose0 side cmd => some (w.set k { p.close p.p.1 with pc := .childClose1 side cmd })
  | .childClose1 _ cmd => some (w.set k { p.close p.p.2 with pc := runcmd cmd })
  | .backFork cmd => some ((w.set k { p with pc := .exit }).spawn ((p.child k).run .back cmd))
  | .program => some (program k p w c.act)
  | .exit => some (w.set k { p with pc := .exited, fds := [] })
  | .exited => none

/-- Process `k` makes a system call. -/
def step (c : Choice) (k : Nat) (w : World W) : Option (World W) :=
  if k < w.n then syscall c k (w.procs k) w else none

/-! ### What the descriptors should be -/

/-- The input of a command: set by the innermost redirection of it or pipe to it. -/
def stdin : List Frame → Desc
  | [] => .inherited 0
  | .redir 0 i :: _ => .file i
  | .pipeR i :: _ => .pipeR i
  | _ :: π => stdin π

/-- The output of a command: set by the innermost redirection of it or pipe from it. -/
def stdout : List Frame → Desc
  | [] => .inherited 1
  | .redir 1 i :: _ => .file i
  | .pipeL i :: _ => .pipeW i
  | _ :: π => stdout π

def table (a b c d e : Option Desc) : List (Option Desc) := a :: b :: c :: d :: e :: List.replicate 11 none

/-- Exactly the descriptors 0, 1 and 2. -/
def stdio (π : List Frame) : List (Option Desc) :=
  table (some (stdin π)) (some (stdout π)) (some (.inherited 2)) none none

/-- `c` is the part of `root` within the constructs `π`, the innermost first. -/
inductive At (root : Cmd W) : List Frame → Cmd W → Prop
  | root : At root [] root
  | redir {π : List Frame} {c : Cmd W} {file : W} {mode : UInt32} {fd : Nat} (i : Nat)
      (h : At root π (.redir c file mode fd)) : At root (.redir fd i :: π) c
  | pipeL {π : List Frame} {l r : Cmd W} (i : Nat) (h : At root π (.pipe l r)) : At root (.pipeL i :: π) l
  | pipeR {π : List Frame} {l r : Cmd W} (i : Nat) (h : At root π (.pipe l r)) : At root (.pipeR i :: π) r
  | listL {π : List Frame} {l r : Cmd W} (h : At root π (.list l r)) : At root (.listL :: π) l
  | listR {π : List Frame} {l r : Cmd W} (h : At root π (.list l r)) : At root (.listR :: π) r
  | back {π : List Frame} {c : Cmd W} (h : At root π (.back c)) : At root (.back :: π) c

/-- A process with exactly the descriptors 0, 1 and 2 runs the command `root`. -/
structure Start (root : Cmd W) (w : World W) : Prop where
  n : w.n = 1
  pc : (w.procs 0).pc = runcmd root
  ctx : (w.procs 0).ctx = []
  fds : (w.procs 0).fds = stdio []

def Step (w w' : World W) : Prop := ∃ c k, step c k w = some w'

def Reached (root : Cmd W) (w : World W) : Prop := ∃ w₀, Start root w₀ ∧ Relation.ReflTransGen Step w₀ w

/-- The process is plugging in the `i`-th pipe: it is the one that has made it, or a child of that one, and has not
    closed both ends of it yet. -/
def Plumbs (i : Nat) (p : Proc W) : Prop :=
  p.obj = i ∧ match p.pc with
    | .forkLeft .. | .forkRight .. | .close0 | .close1 => True
    | .childClose .. | .childDup .. | .childClose0 .. | .childClose1 .. => True
    | _ => False

end Xv6.Shell
