import Xv6.Lib.Descriptors
import Xv6.Pipe

/-! `user/primes.c`: the prime sieve as a chain of processes.

    The first process feeds numbers into a pipe; every further one prints its prime, reads numbers from its left
    neighbour and passes on those that its prime does not divide, to a right neighbour that it creates for the
    first of them. A process is given by its local variables, its descriptors, and the system call that it makes
    next (`Pc`): between two system calls it is alone with its variables, so one step is one system call and what
    follows it up to the next. The bound, 280 in the source, is the parameter `N`. -/

namespace Xv6.Primes
open Descriptors Function

/-- What a descriptor stands for. -/
inductive Desc where
  | console
  | read (pipe : Nat)
  | write (pipe : Nat)
  deriving DecidableEq

/-- The system call that comes next. -/
inductive Pc where
  | pipe0                      -- pipe(pip_0)
  | fork0                      -- the first fork()
  | feedClose                  -- close(pip_0[0]), in the feeder
  | feed                       -- write(pip_0[1], &i, sizeof(int))
  | feedDone                   -- close(pip_0[1])
  | dup                        -- pip_0[0] = dup(pip_1[0])
  | print (cs : List Char)     -- fprintf: the characters still to be written
  | close0                     -- close(pip_0[0])
  | close1                     -- close(pip_0[1])
  | read                       -- read(pip_0[0], &num, sizeof(int))
  | pipe1                      -- pipe(pip_1)
  | fork1                      -- the fork() of a prime process
  | closeR                     -- close(pip_1[0])
  | write                      -- write(pip_1[1], &num, sizeof(int))
  | closeIn                    -- close(pip_0[0]), clean up
  | closeOut                   -- close(pip_1[1])
  | wait                       -- wait(0)
  | panic                      -- write(1, msg, strlen(msg))
  | exit
  | exited
  deriving DecidableEq

structure Proc where
  pc : Pc
  fds : List (Option Desc)
  parent : Option Nat
  /-- The parent has waited for this process. -/
  reaped : Bool
  pip0 : Int × Int
  pip1 : Int × Int
  myPr : Int
  yourPr : Int
  rightCreated : Bool
  num : Int
  noMoreInput : Int
  i : Int

/-- The processes `procs 0`, …, `procs (n - 1)` and the pipes `pipes 0`, …, `pipes (m - 1)`. -/
structure World where
  n : Nat
  procs : Nat → Proc
  m : Nat
  pipes : Nat → List Int
  out : List Char

/-- What is not up to the program: whether `pipe` and `fork` fail, and what becomes of `num` where it is declared. -/
structure Choice where
  fails : Bool
  num : Option Int

/-- How many `int`s fit into a pipe. -/
def capacity : Nat := Pipe.PIPESIZE / 4

/-- `int` arithmetic. -/
def toInt (x : Int) : Int := x.bmod (2 ^ 32)

/-- `printint(fd, x, 10, 1)`. -/
def decimal : Int → List Char
  | .ofNat n => Nat.toDigits 10 n
  | .negSucc n => '-' :: Nat.toDigits 10 (n + 1)

/-- `fprintf(1, "prime %d\n", p)`. -/
def line (p : Int) : List Char := ['p', 'r', 'i', 'm', 'e', ' '] ++ decimal p ++ ['\n']

namespace World

/-- Some process has a descriptor for `d`. -/
def held (w : World) (d : Desc) : Bool := (List.range w.n).any fun k => (w.procs k).fds.contains (some d)

def set (w : World) (k : Nat) (p : Proc) : World := { w with procs := update w.procs k p }

def setPipe (w : World) (π : Nat) (b : List Int) : World := { w with pipes := update w.pipes π b }

/-- `fork`: the child is a process of its own. -/
def spawn (w : World) (child : Proc) : World := { w with n := w.n + 1, procs := update w.procs w.n child }

/-- `write(fd, &x, sizeof(int))`; `none` if it has to wait. -/
def writeInt (w : World) (p : Proc) (fd x : Int) : Option World :=
  match get p.fds fd with
  | some (.write π) =>
    if w.held (.read π) then
      if (w.pipes π).length < capacity then some (w.setPipe π (w.pipes π ++ [x])) else none
    else some w
  | _ => some w

/-- `read(fd, &x, sizeof(int))`: what it returns and the number read; `none` if it has to wait. -/
def readInt (w : World) (p : Proc) (fd : Int) : Option (World × Int × Option Int) :=
  match get p.fds fd with
  | some (.read π) =>
    match w.pipes π with
    | x :: b => some (w.setPipe π b, 4, some x)
    | [] => if w.held (.write π) then none else some (w, 0, none)
  | _ => some (w, -1, none)

/-- `wait(0)`: the world after it has returned a child or -1; `none` if it has to wait. -/
def waitChild (w : World) (k : Nat) : Option (World × Bool) :=
  let kids := (List.range w.n).filter fun j => j ≠ k ∧ (w.procs j).parent = some k ∧ (w.procs j).reaped = false
  match kids.find? fun j => (w.procs j).pc = .exited with
  | some j => some (w.set j { w.procs j with reaped := true }, true)
  | none => if kids = [] then some (w, false) else none

end World

namespace Proc

/-- `pipe(pip)`: the two new descriptors, for the pipe `π`. -/
def openPipe (p : Proc) (π : Nat) : Option ((Int × Int) × List (Option Desc)) :=
  (alloc p.fds (.read π)).bind fun r => (alloc r.2 (.write π)).map fun s => ((r.1, s.1), s.2)

def close (p : Proc) (fd : Int) : Proc := { p with fds := Descriptors.close p.fds fd }

/-- The feeder's loop test. -/
def feedTest (p : Proc) (N : Int) : Proc := { p with pc := if p.i ≤ N then .feed else .feedDone }

/-- `prime_start`. -/
def primeStart (p : Proc) : Proc := { p with myPr := p.yourPr, pc := .print (line p.yourPr) }

/-- `while (no_more_input != 0)`. -/
def loopEnd (p : Proc) : Proc := { p with pc := if p.noMoreInput ≠ 0 then .read else .closeIn }

/-- What follows the `read`. -/
def afterRead (p : Proc) : Proc :=
  if p.num.tmod p.myPr ≠ 0 then { p with pc := if p.rightCreated then .write else .pipe1 } else p.loopEnd

end Proc

/-- One system call of process `k`, `p`. -/
def syscall (N : Int) (c : Choice) (k : Nat) (p : Proc) (w : World) : Option World :=
  match p.pc with
  | .pipe0 =>
    match if c.fails then none else p.openPipe w.m with
    | none => some (w.set k { p with pc := .panic })
    | some (pip, fds) =>
      some ({ w with m := w.m + 1, pipes := update w.pipes w.m [] }.set k
        { p with pc := .fork0, pip0 := pip, fds := fds })
  | .fork0 =>
    let w' := w.set k { p with pc := .feedClose }
    if c.fails then some w'
    else some (w'.spawn { p with pc := .dup, parent := some k, reaped := false, yourPr := 2, pip1 := p.pip0 })
  | .feedClose => some (w.set k ({ p.close p.pip0.1 with i := 2 }.feedTest N))
  | .feed => (w.writeInt p p.pip0.2 p.i).map fun w => w.set k ({ p with i := toInt (p.i + 1) }.feedTest N)
  | .feedDone => some (w.set k { p.close p.pip0.2 with pc := .wait })
  | .dup =>
    let d := Descriptors.dup p.fds p.pip1.1
    some (w.set k { p with fds := d.2, pip0 := (d.1, p.pip0.2) }.primeStart)
  | .print [] => some (w.set k { p with pc := .close0 })
  | .print (c :: cs) =>
    some ({ w with out := w.out ++ [c] }.set k { p with pc := if cs = [] then .close0 else .print cs })
  | .close0 => some (w.set k { p.close p.pip0.1 with pip0 := p.pip1, pc := .close1 })
  | .close1 => some (w.set k { p.close p.pip0.2 with rightCreated := false, num := c.num.getD p.num, pc := .read })
  | .read => (w.readInt p p.pip0.1).map fun r =>
      r.1.set k { p with noMoreInput := r.2.1, num := r.2.2.getD p.num }.afterRead
  | .pipe1 =>
    match if c.fails then none else p.openPipe w.m with
    | none => some (w.set k { p with pc := .panic })
    | some (pip, fds) =>
      some ({ w with m := w.m + 1, pipes := update w.pipes w.m [] }.set k
        { p with pc := .fork1, pip1 := pip, fds := fds, yourPr := p.num })
  | .fork1 =>
    let w' := w.set k { p with pc := .closeR }
    if c.fails then some w' else some (w'.spawn { p with parent := some k, reaped := false }.primeStart)
  | .closeR => some (w.set k { p.close p.pip1.1 with rightCreated := true }.loopEnd)
  | .write => (w.writeInt p p.pip1.2 p.num).map fun w => w.set k p.loopEnd
  | .closeIn => some (w.set k { p.close p.pip0.1 with pc := if p.rightCreated then .closeOut else .exit })
  | .closeOut => some (w.set k { p.close p.pip1.2 with pc := .wait })
  | .wait => (w.waitChild k).map fun r => r.1.set k { p with pc := if r.2 then .wait else .exit }
  | .panic => some ({ w with out := w.out ++ "Cannot create pipe.".toList }.set k { p with pc := .exit })
  | .exit => some (w.set k { p with pc := .exited, fds := [] })
  | .exited => none

/-- Process `k` makes a system call. -/
def step (N : Int) (c : Choice) (k : Nat) (w : World) : Option World :=
  if k < w.n then syscall N c k (w.procs k) w else none

/-- The descriptors 0, 1 and 2 are open, and the variables hold anything. -/
structure Start (w : World) : Prop where
  n : w.n = 1
  m : w.m = 0
  out : w.out = []
  pc : (w.procs 0).pc = .pipe0
  fds : (w.procs 0).fds = some .console :: some .console :: some .console :: List.replicate 13 none
  parent : (w.procs 0).parent = none

end Xv6.Primes
