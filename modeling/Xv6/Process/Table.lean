import Mathlib
import Xv6.Param

/-! The process table of `kernel/proc.c`: the fields of `struct proc` that `p->lock` and `wait_lock`
    protect. A slot is an element of any type `P`, a channel one of any type `Ch`; what hangs from
    a slot besides (page table, trapframe, open files) is not modelled here. -/

namespace Xv6.Process

/-- `enum procstate`. -/
inductive ProcState where
  | UNUSED | USED | SLEEPING | RUNNABLE | RUNNING | ZOMBIE
  deriving DecidableEq

/-- `struct proc`. -/
structure Proc (P Ch : Type) where
  state : ProcState
  chan : Option Ch       -- if non-zero, sleeping on chan
  killed : Bool          -- if non-zero, have been killed
  xstate : Int32         -- exit status to be returned to parent's wait
  pid : Int32
  parent : Option P

variable {P Ch : Type}

/-- What `procinit` and `freeproc` leave in a slot. -/
def Proc.free : Proc P Ch := ⟨.UNUSED, none, false, 0, 0, none⟩

/-- What `kill` does to the process it finds. -/
def Proc.kill (q : Proc P Ch) : Proc P Ch :=
  { q with killed := true, state := if q.state = .SLEEPING then .RUNNABLE else q.state }

/-- What `wakeup` does to a process. -/
def Proc.wake [DecidableEq Ch] (ch : Option Ch) (q : Proc P Ch) : Proc P Ch :=
  if q.state = .SLEEPING ∧ q.chan = ch then { q with state := .RUNNABLE } else q

section Wake
variable [DecidableEq Ch] {ch : Option Ch} {q : Proc P Ch}

/-- `wakeup` changes the state only, and that of a sleeper only. -/
theorem Proc.wake_eq (q : Proc P Ch) (ch : Option Ch) :
    q.wake ch = q ∨ q.state = .SLEEPING ∧ q.chan = ch ∧ q.wake ch = { q with state := .RUNNABLE } := by
  unfold Proc.wake
  split
  · rename_i h
    exact .inr ⟨h.1, h.2, rfl⟩
  · exact .inl rfl

@[simp] theorem Proc.killed_wake : (q.wake ch).killed = q.killed := by
  rcases q.wake_eq ch with h | ⟨_, _, h⟩ <;> rw [h]

@[simp] theorem Proc.pid_wake : (q.wake ch).pid = q.pid := by
  rcases q.wake_eq ch with h | ⟨_, _, h⟩ <;> rw [h]

@[simp] theorem Proc.parent_wake : (q.wake ch).parent = q.parent := by
  rcases q.wake_eq ch with h | ⟨_, _, h⟩ <;> rw [h]

@[simp] theorem Proc.xstate_wake : (q.wake ch).xstate = q.xstate := by
  rcases q.wake_eq ch with h | ⟨_, _, h⟩ <;> rw [h]

@[simp] theorem Proc.chan_wake : (q.wake ch).chan = q.chan := by
  rcases q.wake_eq ch with h | ⟨_, _, h⟩ <;> rw [h]

/-- A state other than `SLEEPING` and `RUNNABLE` is not touched. -/
theorem Proc.state_wake {st : ProcState} (hs : st ≠ .SLEEPING) (hr : st ≠ .RUNNABLE) :
    (q.wake ch).state = st ↔ q.state = st := by
  rcases q.wake_eq ch with h | ⟨hsleep, _, h⟩
  · rw [h]
  · rw [h, hsleep]
    exact iff_of_false hr.symm hs.symm

/-- Whoever still sleeps was not meant. -/
theorem Proc.sleeping_wake (h : (q.wake ch).state = .SLEEPING) : q.state = .SLEEPING ∧ q.chan ≠ ch := by
  unfold Proc.wake at h
  split at h
  · cases h
  · rename_i hno
    exact ⟨h, fun hch => hno ⟨h, hch⟩⟩

end Wake

theorem Proc.awake_kill {q : Proc P Ch} : q.kill.state ≠ .SLEEPING := by
  unfold Proc.kill
  dsimp only
  split
  · nofun
  · assumption

/-- Likewise for `kill`. -/
theorem Proc.state_kill {q : Proc P Ch} {st : ProcState} (hs : st ≠ .SLEEPING) (hr : st ≠ .RUNNABLE) :
    q.kill.state = st ↔ q.state = st := by
  unfold Proc.kill
  dsimp only
  split
  · rename_i h
    rw [h]
    exact iff_of_false hr.symm hs.symm
  · exact Iff.rfl

end Xv6.Process
