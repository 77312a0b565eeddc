import Xv6.Lib.Path
import Xv6.Pipe
import Xv6.Console
import Xv6.Fs.Boot

/-! `fileread` of `kernel/file.c`, and how much `read` delivers.

    An open file is a pipe, a device or an inode, and each has a loop of its own that copies bytes to the
    user: `piperead`, `consoleread` and `readi`. The first two wait for other processes in the middle, so
    what they deliver is counted along a run of the monitor; the third runs under the inode's lock.

    The number asked for is an `int` in the system call, in `piperead` and in `consoleread`, and a `uint` in
    `readi`. -/

namespace Xv6

/-! ### What `piperead` takes and what it delivers -/

namespace Pipe
open Fs Bytes

/-- A byte stored in user memory. -/
def poke (u : UMem) (va : Nat) (ch : UInt8) : UMem := { u with byte := Function.update u.byte va ch }

section Copy
variable {d : St} {u : UMem} {addr i : Nat} {n : Int} {fuel : Nat}

section Monitor
open Monitor
variable {P : Type} [DecidableEq P] {procs : List P} {p : P} {s : State P St Chan Label} {k : Label}

end Monitor

end Copy

/-! ### What a call delivers -/

section Delivered
open Monitor

/-- How far a call of `piperead` for `n` bytes can have got at a label. -/
def Reading (n : Int) : Label → Prop
  | .read m | .rloop m | .rkilled m | .rsleep m => m = n
  | .rcopy m i => m = n ∧ i ≤ n.toNat
  | .rtake m i => m = n ∧ (i : Int) < n
  | .rend i => i ≤ n.toNat
  | .ret r => r ≤ max n 0
  | _ => False

/-- What it may still deliver. -/
def left (n : Int) : Label → Nat
  | .read _ | .rloop _ | .rkilled _ | .rsleep _ => n.toNat
  | .rcopy _ i | .rtake _ i => n.toNat - i
  | _ => 0

/-- In the middle of a call. -/
def Within (k : Label) : Prop := k ≠ .idle ∧ ∀ r, k ≠ .ret r

variable {P : Type} [DecidableEq P] {procs : List P} {p : P} {s s' : State P St Chan Label}
  {as : List (Act P Input Empty)} {n r : Int}

end Delivered

end Pipe

/-! ### `consoleread` -/

namespace Console
open Monitor

/-- How far a call of `consoleread` for `target` bytes can have got at a label. -/
def Reading (target : Int) : Label → Prop
  | .read n => n = target
  | .loop n t => t = target ∧ (n = target ∨ 0 ≤ n ∧ n ≤ target)
  | .wait n t | .killed n t | .sleep n t | .take n t | .test n t _ | .copy n t _ => t = target ∧ 0 < n ∧ n ≤ target
  | .ret r => r ≤ max target 0
  | _ => False

/-- What it may still deliver. -/
def left (target : Int) : Label → Nat
  | .read _ => target.toNat
  | .loop n _ | .wait n _ | .killed n _ | .sleep n _ | .take n _ | .test n _ _ | .copy n _ _ => n.toNat
  | _ => 0

/-- In the middle of a call. -/
def Within (k : Label) : Prop := k ≠ .idle ∧ ∀ r, k ≠ .ret r

variable {P : Type} [DecidableEq P] {procs : List P} {p : P} {s s' : State P St Unit Label}
  {as : List (Act P Input Empty)} {n r : Int}

end Console

/-! ### `fileread` -/

namespace Fs
open Prog Bytes Monitor

section Any
variable {α : Type} {me : Pid} {s : St}

variable {sb : Super} {k : Slot} {dst : Dst}

end Any

variable {sb : Super} {σ σ' : Sys} {me : Pid} {fd : Fin NOFILE} {f : FileId} {u : UMem} {addr m : Nat} {n : Int32}
  {input r : Int} {bs : List UInt8}

/-- Descriptor 1 and the second open file. -/
def fd1 : Fin NOFILE := ⟨1, by decide⟩
end Fs

end Xv6
