import Xv6.Process.Table
import Xv6.Lib.Run

/-! `kernel/proc.c` on any number of CPUs, with every lock operation and every `swtch` a step of its own.

    A CPU runs its scheduler or the kernel thread of a process. `Code` says where such a thread is; for a
    process that does not run it is the context that `swtch` will restore. A step looks up the next
    instruction of the thread (`fetch`) and executes it (`exec`): take a lock, change the table and give a
    lock back, change the table, or `sched`.

        scan ──acquire──▶ test ──RUNNABLE──▶ enter ──swtch──▶ away ──sched──▶ back ──▶ leave ──release──▶ scan

    The rest of the kernel is present through what it asks of this file: a thread at `user` may take and
    give back other spin locks, sleep on other channels and wake them, in any order; a timer interrupt may
    make a thread yield wherever it holds no lock. A panic is a thread that does not go on. -/

namespace Xv6.Process.Kernel
open Function

variable {C P L Ch : Type}

/-- `p->lock`, `wait_lock` and the other spin locks. `allocpid` is one step, so `pid_lock` is not needed. -/
inductive Lock (P L : Type) where
  | proc (p : P) | wait | other (l : L)
  deriving DecidableEq

/-- `wait` sleeps on the process itself. -/
inductive Chan (P Ch : Type) where
  | proc (p : P) | other (ch : Ch)
  deriving DecidableEq

/-- Where a kernel thread is. A list is what is left of a loop over the table; `k` is where a function
    returns to. -/
inductive Code (P L Ch : Type) where
  | user
  -- sleep(chan, lk)
  | sleepAcq (ch : Chan P Ch) (lk : Lock P L) (k : Code P L Ch)
  | sleepRel (ch : Chan P Ch) (lk : Lock P L) (k : Code P L Ch)
  | sleepSet (ch : Chan P Ch) (lk : Lock P L) (k : Code P L Ch)
  | sleepOut (ch : Chan P Ch) (lk : Lock P L) (k : Code P L Ch)
  | sleepLk (ch : Chan P Ch) (lk : Lock P L) (k : Code P L Ch)
  -- sched()
  | sched (k : Code P L Ch)
  -- yield()
  | yieldAcq (k : Code P L Ch) | yieldSet (k : Code P L Ch) | yieldOut (k : Code P L Ch)
  -- wakeup(chan)
  | wake (ch : Option (Chan P Ch)) (js : List P) (k : Code P L Ch)
  | wakeIn (ch : Option (Chan P Ch)) (j : P) (js : List P) (k : Code P L Ch)
  -- kill(pid)
  | kill (pid : Int32) (js : List P) | killIn (pid : Int32) (j : P) (js : List P)
  -- fork() with allocproc(), and forkret()
  | fork (js : List P) | forkIn (j : P) (js : List P) | forkMem (j : P)
  | forkParent (j : P) (pid : Int32) | forkParentIn (j : P) (pid : Int32)
  | forkReady (j : P) (pid : Int32) | forkReadyIn (j : P) (pid : Int32)
  | forkret
  -- exit(status)
  | exit (status : Int32) | reparent (status : Int32) (js : List P)
  | exitLk (status : Int32) | exitSet (status : Int32) | exitRel | zombie
  -- wait()
  | wait | waitScan (js : List P) (havekids : Bool) | waitLk (j : P) (js : List P) | waitIn (j : P) (js : List P)
  | waitRet | waitKilled | waitKilledIn

/-- What a thread at `user` does next, and whether memory can be had or copied. -/
inductive Input (L Ch : Type) where
  | acquire (l : L) | release (l : L) | sleep (ch : Ch) (l : L) | wakeup (ch : Ch)
  | fork | exit (status : Int32) | wait | kill (pid : Int32)
  | ok (b : Bool)

/-- History. Processes are counted as they are born; `reap` also has the slot of the waiting process and
    the parent of the child. -/
inductive Event (P : Type) where
  | fork (parent child : Nat) (pid : Int32)
  | exit (child : Nat) (status : Int32)
  | reap (p : P) (parent : Option P) (waiter child : Nat) (pid status : Int32)

/-- How a sleeping process was made `RUNNABLE`. -/
inductive Cause (P Ch : Type) where
  | wakeup (ch : Option (Chan P Ch)) | kill

structure Tbl (P L Ch : Type) where
  proc : P → Proc P (Chan P Ch)
  code : P → Code P L Ch
  nextpid : Int32
  -- history
  born : P → Nat                     -- which process the slot holds
  births : Nat
  log : List (Event P)               -- newest first
  sleeps : P → Nat                   -- how often the process has given a lock away in sleep
  woken : P → Option (Cause P Ch)    -- since it last went to sleep

/-- What a CPU executes: the loop of `scheduler`, or, `away`, the thread of a process. -/
inductive Thread (P : Type) where
  | scan (js : List P) | test (j : P) (js : List P) | enter (j : P) (js : List P)
  | away (j : P) (js : List P) | back (j : P) (js : List P) | leave (j : P) (js : List P)

structure St (C P L Ch : Type) where
  tbl : Tbl P L Ch
  owner : Lock P L → Option C
  held : C → List (Lock P L)         -- its length is noff
  cpu : C → Option P                 -- c->proc
  thread : C → Thread P

inductive Instr (P L Ch : Type) where
  | lock (l : Lock P L) (k : Code P L Ch)
  | unlock (l : Lock P L) (t : Tbl P L Ch) (k : Code P L Ch)
  | act (t : Tbl P L Ch) (k : Code P L Ch)
  | sched (k : Code P L Ch)
  | halt

section Semantics
variable [DecidableEq C] [DecidableEq P] [DecidableEq L] [DecidableEq Ch]

namespace Tbl

def goto (t : Tbl P L Ch) (p : P) (k : Code P L Ch) : Tbl P L Ch := { t with code := update t.code p k }

def set (t : Tbl P L Ch) (j : P) (q : Proc P (Chan P Ch)) : Tbl P L Ch := { t with proc := update t.proc j q }

/-- In `sleep`: `release(lk)`. -/
def drop (t : Tbl P L Ch) (p : P) : Tbl P L Ch := { t with sleeps := update t.sleeps p (t.sleeps p + 1) }

/-- In `sleep`: go to sleep. -/
def sleep (t : Tbl P L Ch) (p : P) (ch : Chan P Ch) : Tbl P L Ch :=
  { t.set p { t.proc p with chan := some ch, state := .SLEEPING } with woken := update t.woken p none }

/-- The body of the loop of `wakeup`. -/
def wakeup (t : Tbl P L Ch) (j : P) (ch : Option (Chan P Ch)) : Tbl P L Ch :=
  if (t.proc j).state = .SLEEPING ∧ (t.proc j).chan = ch then
    { t.set j ((t.proc j).wake ch) with woken := update t.woken j (some (.wakeup ch)) }
  else t

/-- `kill` has found its process. -/
def kill (t : Tbl P L Ch) (j : P) : Tbl P L Ch :=
  { t.set j (t.proc j).kill with
    woken := if (t.proc j).state = .SLEEPING then update t.woken j (some .kill) else t.woken }

/-- `allocproc` has found a free slot. -/
def alloc (t : Tbl P L Ch) (j : P) : Tbl P L Ch :=
  { t.set j { t.proc j with pid := t.nextpid, state := .USED } with
    nextpid := t.nextpid + 1, code := update t.code j .forkret
    born := update t.born j t.births, births := t.births + 1 }

/-- The end of `fork`. -/
def ready (t : Tbl P L Ch) (p j : P) (pid : Int32) : Tbl P L Ch :=
  { t.set j { t.proc j with state := .RUNNABLE } with log := .fork (t.born p) (t.born j) pid :: t.log }

def exit (t : Tbl P L Ch) (p : P) (status : Int32) : Tbl P L Ch :=
  { t.set p { t.proc p with xstate := status, state := .ZOMBIE } with log := .exit (t.born p) status :: t.log }

/-- `wait` has found an exited child and has copied its status out. -/
def reap (t : Tbl P L Ch) (p j : P) : Tbl P L Ch :=
  { t.set j .free with
    log := .reap p (t.proc j).parent (t.born p) (t.born j) (t.proc j).pid (t.proc j).xstate :: t.log }

end Tbl

/-- The next instruction of process `p`. -/
def fetch (init : P) (table : List P) (p : P) (x : Input L Ch) (t : Tbl P L Ch) : Code P L Ch → Instr P L Ch
  | .user => match x with
    | .acquire l => .lock (.other l) .user
    | .release l => .unlock (.other l) t .user
    | .sleep ch l => .act t (.sleepAcq (.other ch) (.other l) .user)
    | .wakeup ch => .act t (.wake (some (.other ch)) table .user)
    | .fork => .act t (.fork table)
    | .exit status => .act t (.exit status)
    | .wait => .act t .wait
    | .kill pid => .act t (.kill pid table)
    | .ok _ => .act t .user
  | .sleepAcq ch lk k => .lock (.proc p) (.sleepRel ch lk k)
  | .sleepRel ch lk k => .unlock lk (t.drop p) (.sleepSet ch lk k)
  | .sleepSet ch lk k => .act (t.sleep p ch) (.sched (.sleepOut ch lk k))
  | .sleepOut ch lk k => .unlock (.proc p) (t.set p { t.proc p with chan := none }) (.sleepLk ch lk k)
  | .sleepLk _ lk k => .lock lk k
  | .sched k => .sched k
  | .yieldAcq k => .lock (.proc p) (.yieldSet k)
  | .yieldSet k => .act (t.set p { t.proc p with state := .RUNNABLE }) (.sched (.yieldOut k))
  | .yieldOut k => .unlock (.proc p) t k
  | .wake _ [] k => .act t k
  | .wake ch (j :: js) k => if j = p then .act t (.wake ch js k) else .lock (.proc j) (.wakeIn ch j js k)
  | .wakeIn ch j js k => .unlock (.proc j) (t.wakeup j ch) (.wake ch js k)
  | .kill _ [] => .act t .user
  | .kill pid (j :: js) => .lock (.proc j) (.killIn pid j js)
  | .killIn pid j js =>
    if (t.proc j).pid = pid then .unlock (.proc j) (t.kill j) .user else .unlock (.proc j) t (.kill pid js)
  | .fork [] => .act t .user
  | .fork (j :: js) => .lock (.proc j) (.forkIn j js)
  | .forkIn j js => if (t.proc j).state = .UNUSED then .act (t.alloc j) (.forkMem j) else .unlock (.proc j) t (.fork js)
  -- kalloc, proc_pagetable and uvmcopy; after each the cleanup is the same
  | .forkMem j => match x with
    | .ok true => .unlock (.proc j) t (.forkParent j (t.proc j).pid)
    | _ => .unlock (.proc j) (t.set j .free) .user
  | .forkParent j pid => .lock .wait (.forkParentIn j pid)
  | .forkParentIn j pid => .unlock .wait (t.set j { t.proc j with parent := some p }) (.forkReady j pid)
  | .forkReady j pid => .lock (.proc j) (.forkReadyIn j pid)
  | .forkReadyIn j pid => .unlock (.proc j) (t.ready p j pid) .user
  | .forkret => .unlock (.proc p) t .user
  | .exit status => if p = init then .halt else .lock .wait (.reparent status table)
  | .reparent status [] => .act t (.wake ((t.proc p).parent.map .proc) table (.exitLk status))
  | .reparent status (j :: js) =>
    if (t.proc j).parent = some p then
      .act (t.set j { t.proc j with parent := some init }) (.wake (some (.proc init)) table (.reparent status js))
    else .act t (.reparent status js)
  | .exitLk status => .lock (.proc p) (.exitSet status)
  | .exitSet status => .act (t.exit p status) .exitRel
  | .exitRel => .unlock .wait t (.sched .zombie)
  | .zombie => .halt
  | .wait => .lock .wait (.waitScan table false)
  | .waitScan [] havekids => .act t (if havekids then .waitKilled else .waitRet)
  | .waitScan (j :: js) havekids =>
    .act t (if (t.proc j).parent = some p then .waitLk j js else .waitScan js havekids)
  | .waitLk j js => .lock (.proc j) (.waitIn j js)
  | .waitIn j js =>
    if (t.proc j).state = .ZOMBIE then
      match x with
      | .ok true => .unlock (.proc j) (t.reap p j) .waitRet
      | _ => .unlock (.proc j) t .waitRet
    else .unlock (.proc j) t (.waitScan js true)
  | .waitRet => .unlock .wait t .user
  | .waitKilled => .lock (.proc p) .waitKilledIn
  | .waitKilledIn =>
    .unlock (.proc p) t (if (t.proc p).killed then .waitRet else .sleepAcq (.proc p) .wait (.waitScan table false))

namespace St

def acquire (s : St C P L Ch) (c : C) (l : Lock P L) : Option (St C P L Ch) :=
  if s.owner l = none then
    some { s with owner := update s.owner l (some c), held := update s.held c (l :: s.held c) }
  else none

def release (s : St C P L Ch) (c : C) (l : Lock P L) : Option (St C P L Ch) :=
  if s.owner l = some c then
    some { s with owner := update s.owner l none, held := update s.held c ((s.held c).erase l) }
  else none

def become (s : St C P L Ch) (c : C) (th : Thread P) : St C P L Ch := { s with thread := update s.thread c th }

/-- CPU `c` executes an instruction of process `p`. -/
def exec (s : St C P L Ch) (c : C) (p : P) (js : List P) : Instr P L Ch → Option (St C P L Ch)
  | .lock l k => (s.acquire c l).map fun s => { s with tbl := s.tbl.goto p k }
  | .unlock l t k => (s.release c l).map fun s => { s with tbl := t.goto p k }
  | .act t k => some { s with tbl := t.goto p k }
  | .sched k =>
    if s.held c = [.proc p] ∧ (s.tbl.proc p).state ≠ .RUNNING then
      some ({ s with tbl := s.tbl.goto p k }.become c (.back p js))
    else none
  | .halt => none

end St

inductive Act (C L Ch : Type) where
  | cpu (c : C) (x : Input L Ch)
  | timer (c : C)

def step (init : P) (table : List P) (s : St C P L Ch) : Act C L Ch → Option (St C P L Ch)
  | .cpu c x =>
    match s.thread c with
    | .scan [] => some (s.become c (.scan table))
    | .scan (j :: js) => (s.acquire c (.proc j)).map fun s => s.become c (.test j js)
    | .test j js =>
      if (s.tbl.proc j).state = .RUNNABLE then
        some ({ s with tbl := s.tbl.set j { s.tbl.proc j with state := .RUNNING },
                       cpu := update s.cpu c (some j) }.become c (.enter j js))
      else some (s.become c (.leave j js))
    | .enter j js => some (s.become c (.away j js))
    | .away j js => s.exec c j js (fetch init table j x s.tbl (s.tbl.code j))
    | .back j js => some ({ s with cpu := update s.cpu c none }.become c (.leave j js))
    | .leave j js => (s.release c (.proc j)).map fun s => s.become c (.scan js)
  | .timer c =>
    match s.thread c with
    | .away j _ => if s.held c = [] then some { s with tbl := s.tbl.goto j (.yieldAcq (s.tbl.code j)) } else none
    | _ => none

/-- After `userinit`, with every CPU at the beginning of `scheduler`. -/
def boot (init : P) : St C P L Ch where
  tbl :=
    { proc := update (fun _ => .free) init { (.free : Proc P (Chan P Ch)) with pid := 1, state := .RUNNABLE }
      code := fun _ => .forkret
      nextpid := 2
      born := fun _ => 0
      births := 1
      log := []
      sleeps := fun _ => 0
      woken := fun _ => none }
  owner := fun _ => none
  held := fun _ => []
  cpu := fun _ => none
  thread := fun _ => .scan []

end Semantics

end Xv6.Process.Kernel
