import Xv6.Process.Table
import Xv6.Lib.Run

/-! `fork`, `exit`, `wait` and `kill` of `kernel/proc.c`, one call after another.

    A process that may run is `RUNNABLE` here, whether or not a CPU runs it. A call of `wait` that finds
    no exited child puts its process to sleep; once awake the process goes on with the same call. Where
    memory is allocated or copied the call is told whether that succeeds. -/

namespace Xv6.Process.Calls
open Function

abbrev Slot := Fin NPROC

/-- `proc[NPROC]`, in the order of the loops. -/
def slots : List Slot := List.finRange NPROC

def initproc : Slot := ⟨0, zero_lt_NPROC⟩

structure Tbl where
  proc : Slot → Proc Slot Slot
  waiting : Slot → Bool    -- in wait
  nextpid : Int32

namespace Tbl

def set (t : Tbl) (j : Slot) (q : Proc Slot Slot) : Tbl := { t with proc := update t.proc j q }

/-- Whether the slot holds a process. -/
def Live (t : Tbl) (j : Slot) : Prop := (t.proc j).state ≠ .UNUSED

instance (t : Tbl) (j : Slot) : Decidable (t.Live j) := inferInstanceAs (Decidable (_ ≠ _))

def wakeup (t : Tbl) (me : Slot) (ch : Option Slot) : Tbl :=
  { t with proc := fun j => if j ≠ me then (t.proc j).wake ch else t.proc j }

/-- `sleep(p, &wait_lock)`, up to where it waits. -/
def sleep (t : Tbl) (p : Slot) : Tbl :=
  { t.set p { t.proc p with chan := some p, state := .SLEEPING } with waiting := update t.waiting p true }

/-- The rest of it. -/
def resume (t : Tbl) (p : Slot) : Tbl :=
  { t.set p { t.proc p with chan := none } with waiting := update t.waiting p false }

end Tbl

def allocpid (t : Tbl) : Int32 × Tbl := (t.nextpid, { t with nextpid := t.nextpid + 1 })

/-- `mem`: there is memory for the trapframe and an empty page table. -/
def allocproc (t : Tbl) (mem : Bool) : Option Slot × Tbl :=
  match slots.find? fun j => (t.proc j).state = .UNUSED with
  | none => (none, t)
  | some j =>
    let (pid, t) := allocpid t
    let t := t.set j { t.proc j with pid := pid, state := .USED }
    if mem then (some j, t) else (none, t.set j .free)

/-- `copy`: there is memory for a copy of the parent's. -/
def fork (t : Tbl) (p : Slot) (mem copy : Bool) : Int32 × Tbl :=
  match allocproc t mem with
  | (none, t) => (-1, t)
  | (some np, t) =>
    if copy then
      let pid := (t.proc np).pid
      let t := t.set np { t.proc np with parent := some p }
      (pid, t.set np { t.proc np with state := .RUNNABLE })
    else (-1, t.set np .free)

/-- Pass p's abandoned children to init. -/
def reparent (t : Tbl) (p : Slot) : Tbl :=
  slots.foldl (fun t pp =>
    if (t.proc pp).parent = some p then
      (t.set pp { t.proc pp with parent := some initproc }).wakeup p (some initproc)
    else t) t

/-- No result: the kernel panics, "init exiting". -/
def exit (t : Tbl) (p : Slot) (status : Int32) : Option Tbl :=
  if p = initproc then none
  else
    let t := reparent t p
    let t := t.wakeup p (t.proc p).parent
    some (t.set p { t.proc p with xstate := status, state := .ZOMBIE })

/-- The loop of `wait`. `copyout`: the status can be copied out, or no status is wanted. No pid: the process
    sleeps. -/
def wait (t : Tbl) (p : Slot) (copyout : Bool) : Option Int32 × Tbl :=
  let t := t.resume p
  match slots.find? fun pp => (t.proc pp).parent = some p ∧ (t.proc pp).state = .ZOMBIE with
  | some pp => if copyout then (some (t.proc pp).pid, t.set pp .free) else (some (-1), t)
  | none =>
    if (slots.all fun pp => (t.proc pp).parent ≠ some p) ∨ (t.proc p).killed then (some (-1), t)
    else (none, t.sleep p)

def kill (t : Tbl) (pid : Int32) : Int32 × Tbl :=
  match slots.find? fun j => (t.proc j).pid = pid with
  | some j => (0, t.set j (t.proc j).kill)
  | none => (-1, t)

inductive Call where
  | fork (mem copy : Bool)
  | exit (status : Int32)
  | wait (copyout : Bool)
  | kill (pid : Int32)
  deriving DecidableEq

def Call.isWait : Call → Bool
  | .wait _ => true
  | _ => false

def Call.isFork : Call → Bool
  | .fork _ _ => true
  | _ => false

/-- Process `p` makes a call, or goes on with `wait`. -/
def step (t : Tbl) : Slot × Call → Option Tbl
  | (p, c) =>
    if (t.proc p).state = .RUNNABLE ∧ (t.waiting p → c.isWait) then
      match c with
      | .fork mem copy => some (fork t p mem copy).2
      | .exit status => exit t p status
      | .wait copyout => some (wait t p copyout).2
      | .kill pid => some (kill t pid).2
    else none

/-- After `userinit`. -/
def boot : Tbl where
  proc := update (fun _ => .free) initproc { (.free : Proc Slot Slot) with pid := 1, state := .RUNNABLE }
  waiting := fun _ => false
  nextpid := 2

/-! ### What a call does to a slot -/

variable {t t' t'' : Tbl} {p j : Slot} {c : Call}

@[simp] theorem Tbl.set_self {q : Proc Slot Slot} : (t.set j q).proc j = q := update_self ..

theorem Tbl.set_of_ne {i : Slot} {q : Proc Slot Slot} (h : i ≠ j) : (t.set j q).proc i = t.proc i := update_of_ne h ..

@[simp] theorem Tbl.set_set {q q' : Proc Slot Slot} : (t.set j q).set j q' = t.set j q' := by
  simp [Tbl.set]

/-- No process is made, and whoever is not freed keeps its pid. -/
structure Keeps (t t' : Tbl) : Prop where
  nextpid : t'.nextpid = t.nextpid
  slot : ∀ j, t'.proc j = .free ∨ (t'.proc j).pid = (t.proc j).pid ∧ (t'.Live j ↔ t.Live j)

/-- `killed` changes for live processes only. -/
def Quiet (t t' : Tbl) : Prop := ∀ j, t'.proc j = .free ∨ (t'.proc j).killed = (t.proc j).killed ∨ t.Live j

/-- A loop of `wakeup`s and changes of `parent` leaves everything but states and parents alone. -/
structure Rearranges (t t' : Tbl) : Prop where
  nextpid : t'.nextpid = t.nextpid
  pid : ∀ j, (t'.proc j).pid = (t.proc j).pid
  killed : ∀ j, (t'.proc j).killed = (t.proc j).killed
  live : ∀ j, t'.Live j ↔ t.Live j

theorem Rearranges.refl (t : Tbl) : Rearranges t t := ⟨rfl, fun _ => rfl, fun _ => rfl, fun _ => Iff.rfl⟩

theorem Rearranges.trans (h : Rearranges t t') (h' : Rearranges t' t'') : Rearranges t t'' :=
  ⟨h'.nextpid.trans h.nextpid, fun j => (h'.pid j).trans (h.pid j), fun j => (h'.killed j).trans (h.killed j),
    fun j => (h'.live j).trans (h.live j)⟩

theorem rearranges_set {q : Proc Slot Slot} (hpid : q.pid = (t.proc j).pid) (hkilled : q.killed = (t.proc j).killed)
    (hlive : q.state ≠ .UNUSED ↔ t.Live j) : Rearranges t (t.set j q) := by
  refine ⟨rfl, fun i => ?_, fun i => ?_, fun i => ?_⟩ <;> rcases eq_or_ne i j with rfl | hne
  · rw [Tbl.set_self, hpid]
  · rw [Tbl.set_of_ne hne]
  · rw [Tbl.set_self, hkilled]
  · rw [Tbl.set_of_ne hne]
  · rw [Tbl.Live, Tbl.set_self, hlive]
  · rw [Tbl.Live, Tbl.set_of_ne hne, Tbl.Live]

theorem rearranges_wakeup (ch : Option Slot) : Rearranges t (t.wakeup p ch) := by
  refine ⟨rfl, fun j => ?_, fun j => ?_, fun j => ?_⟩ <;> unfold Tbl.wakeup <;> dsimp only [Tbl.Live] <;> split
  · exact Proc.pid_wake
  · rfl
  · exact Proc.killed_wake
  · rfl
  · exact not_congr (Proc.state_wake nofun nofun)
  · exact Iff.rfl

theorem rearranges_reparent : Rearranges t (reparent t p) := by
  unfold reparent
  suffices h : ∀ (l : List Slot) (t₀ : Tbl), Rearranges t t₀ → Rearranges t (l.foldl _ t₀) from h slots t (.refl t)
  intro l
  induction l with
  | nil => exact fun _ h => h
  | cons pp l ih =>
    refine fun t₀ h => ih _ ?_
    dsimp only
    split
    · refine (h.trans ?_).trans (rearranges_wakeup _)
      exact rearranges_set rfl rfl Iff.rfl
    · exact h

theorem Rearranges.keeps (h : Rearranges t t') : Keeps t t' := ⟨h.nextpid, fun j => .inr ⟨h.pid j, h.live j⟩⟩

theorem Rearranges.quiet (h : Rearranges t t') : Quiet t t' := fun j => .inr (.inl (h.killed j))

theorem rearranges_exit {status : Int32} (hp : (t.proc p).state = .RUNNABLE) (h : exit t p status = some t') : Rearranges t t' := by
  unfold exit at h
  split at h
  · cases h
  obtain rfl := Option.some.inj h
  have hwake := (rearranges_reparent (t := t) (p := p)).trans (rearranges_wakeup (p := p) ((reparent t p).proc p).parent)
  refine hwake.trans (rearranges_set rfl rfl (iff_of_true nofun ((hwake.live p).mpr ?_)))
  rw [Tbl.Live, hp]
  nofun

theorem Rearranges.free (h : Rearranges t t') : Keeps t (t'.set j .free) ∧ Quiet t (t'.set j .free) := by
  refine ⟨⟨h.nextpid, fun i => ?_⟩, fun i => ?_⟩ <;> rcases eq_or_ne i j with rfl | hne
  · exact .inl Tbl.set_self
  · rw [Tbl.Live, Tbl.set_of_ne hne]
    exact .inr ⟨h.pid i, h.live i⟩
  · exact .inl Tbl.set_self
  · rw [Tbl.set_of_ne hne]
    exact .inr (.inl (h.killed i))

theorem rearranges_resume : Rearranges t (t.resume p) := by
  have h : Rearranges t (t.set p { t.proc p with chan := none }) := rearranges_set rfl rfl Iff.rfl
  exact ⟨h.nextpid, h.pid, h.killed, h.live⟩

theorem rearranges_sleep (hlive : t.Live p) : Rearranges t (t.sleep p) := by
  have h : Rearranges t (t.set p { t.proc p with chan := some p, state := .SLEEPING }) :=
    rearranges_set rfl rfl (iff_of_true nofun hlive)
  exact ⟨h.nextpid, h.pid, h.killed, h.live⟩

theorem keeps_wait {copyout : Bool} (hp : (t.proc p).state = .RUNNABLE) :
    Keeps t (wait t p copyout).2 ∧ Quiet t (wait t p copyout).2 := by
  have hlive : t.Live p := by rw [Tbl.Live, hp]; nofun
  have hresume : Rearranges t (t.resume p) := rearranges_resume
  unfold wait
  dsimp only
  split
  · split
    · exact hresume.free
    · exact ⟨hresume.keeps, hresume.quiet⟩
  · split
    · exact ⟨hresume.keeps, hresume.quiet⟩
    · have hsleep := hresume.trans (rearranges_sleep ((hresume.live p).mpr hlive))
      exact ⟨hsleep.keeps, hsleep.quiet⟩

theorem keeps_kill {pid : Int32} : Keeps t (kill t pid).2 := by
  unfold kill
  split
  · refine ⟨rfl, fun i => .inr ?_⟩
    rename_i j hj
    rcases eq_or_ne i j with rfl | hne
    · rw [Tbl.Live, Tbl.set_self]
      exact ⟨rfl, not_congr (Proc.state_kill nofun nofun)⟩
    · rw [Tbl.Live, Tbl.set_of_ne hne]
      exact ⟨rfl, Iff.rfl⟩
  · exact ⟨rfl, fun _ => .inr ⟨rfl, Iff.rfl⟩⟩

/-- What `fork` does: nothing, or it uses up a pid and fills a slot that was free, or leaves it free. -/
theorem fork_cases (t : Tbl) (p : Slot) (mem copy : Bool) :
    (fork t p mem copy).2 = t ∨ ∃ j, ¬t.Live j ∧
      ((fork t p mem copy).2 = { t with nextpid := t.nextpid + 1 }.set j .free ∨
        fork t p mem copy = (t.nextpid, { t with nextpid := t.nextpid + 1 }.set j
          { t.proc j with pid := t.nextpid, parent := some p, state := .RUNNABLE })) := by
  unfold fork allocproc
  cases hfind : slots.find? fun j => (t.proc j).state = .UNUSED with
  | none => exact .inl rfl
  | some j =>
    have hj : ¬t.Live j := by simpa [Tbl.Live] using List.find?_some hfind
    refine .inr ⟨j, hj, ?_⟩
    cases mem with
    | false => exact .inl (by simp [allocpid])
    | true =>
      cases copy with
      | false => exact .inl (by simp [allocpid])
      | true => exact .inr (by simp [allocpid])

/-- A call other than `fork` makes no process. -/
theorem keeps_step (h : step t (p, c) = some t') (hfork : c.isFork = false) :
    Keeps t t' ∧ ((∀ pid, c ≠ .kill pid) → Quiet t t') := by
  simp only [step] at h
  split at h
  · rename_i hp
    cases c with
    | fork mem copy => cases hfork
    | exit status => exact ⟨(rearranges_exit hp.1 h).keeps, fun _ => (rearranges_exit hp.1 h).quiet⟩
    | wait copyout =>
      obtain rfl := Option.some.inj h
      exact ⟨(keeps_wait hp.1).1, fun _ => (keeps_wait hp.1).2⟩
    | kill pid =>
      obtain rfl := Option.some.inj h
      exact ⟨keeps_kill, fun hno => absurd rfl (hno pid)⟩
  · cases h

/-! ### Killing -/

/-- A free slot carries no pid and is not marked. -/
def Clean (t : Tbl) : Prop := ∀ j, ¬t.Live j → (t.proc j).pid = 0 ∧ (t.proc j).killed = false

theorem Clean.keeps (h : Clean t) (hkeeps : Keeps t t') (hquiet : Quiet t t') : Clean t' := by
  intro j hj
  rcases hkeeps.slot j with hfree | ⟨hpid, hlive⟩
  · rw [hfree]; exact ⟨rfl, rfl⟩
  rcases hquiet j with hfree | hkilled | hl
  · rw [hfree]; exact ⟨rfl, rfl⟩
  · rw [hpid, hkilled]
    exact h j fun hl => hj (hlive.mpr hl)
  · exact absurd (hlive.mpr hl) hj

theorem clean_set_free (h : Clean t) (n : Int32) : Clean ({ t with nextpid := n }.set j .free) := by
  intro i hi
  rcases eq_or_ne i j with rfl | hne
  · rw [Tbl.set_self]; exact ⟨rfl, rfl⟩
  · rw [Tbl.Live, Tbl.set_of_ne hne] at hi
    rw [Tbl.set_of_ne hne]
    exact h i hi

theorem Clean.fork {mem copy : Bool} (h : Clean t) : Clean (fork t p mem copy).2 := by
  rcases fork_cases t p mem copy with hsame | ⟨j, _, hfree | hborn⟩
  · rw [hsame]; exact h
  · rw [hfree]; exact clean_set_free h _
  · rw [hborn]
    intro i hi
    have hne : i ≠ j := by
      rintro rfl
      rw [Tbl.Live, Tbl.set_self] at hi
      exact hi nofun
    rw [Tbl.Live, Tbl.set_of_ne hne] at hi
    rw [Tbl.set_of_ne hne]
    exact h i hi

/-- What `kill` finds is alive, unless it looks for pid 0. -/
theorem Clean.live_of_pid {pid : Int32} (h : Clean t) (hpid : pid ≠ 0) (hj : (t.proc j).pid = pid) : t.Live j := by
  by_contra hno
  exact hpid (hj.symm.trans (h j hno).1)

theorem kill_cases (t : Tbl) (pid : Int32) : (∃ j, (t.proc j).pid = pid ∧ kill t pid = (0, t.set j (t.proc j).kill)) ∨
    (∀ j, (t.proc j).pid ≠ pid) ∧ kill t pid = (-1, t) := by
  unfold kill
  cases hfind : slots.find? fun j => (t.proc j).pid = pid with
  | some j => exact .inl ⟨j, by simpa using List.find?_some hfind, rfl⟩
  | none =>
    refine .inr ⟨fun j hj => ?_, rfl⟩
    have := List.find?_eq_none.mp hfind j (List.mem_finRange j)
    simp [hj] at this

theorem quiet_kill {pid : Int32} (h : Clean t) (hpid : pid ≠ 0) : Quiet t (kill t pid).2 := by
  rcases kill_cases t pid with ⟨j, hj, hkill⟩ | ⟨_, hkill⟩
  · rw [hkill]
    intro i
    rcases eq_or_ne i j with rfl | hne
    · exact .inr (.inr (h.live_of_pid hpid hj))
    · rw [Tbl.set_of_ne hne]
      exact .inr (.inl rfl)
  · rw [hkill]
    exact fun _ => .inr (.inl rfl)

/-- The call does not ask for the death of process 0. -/
def Call.Aims : Call → Prop
  | .kill pid => pid ≠ 0
  | _ => True

theorem Clean.step {a : Slot × Call} (h : Clean t) (ha : a.2.Aims) (hstep : step t a = some t') : Clean t' := by
  obtain ⟨p, c⟩ := a
  cases c with
  | fork mem copy =>
    simp only [Calls.step] at hstep
    split at hstep
    · obtain rfl := Option.some.inj hstep
      exact h.fork
    · cases hstep
  | kill pid =>
    have hkeeps := (keeps_step hstep rfl).1
    simp only [Calls.step] at hstep
    split at hstep
    · obtain rfl := Option.some.inj hstep
      exact h.keeps hkeeps (quiet_kill h ha)
    · cases hstep
  | exit status => exact h.keeps (keeps_step hstep rfl).1 ((keeps_step hstep rfl).2 nofun)
  | wait copyout => exact h.keeps (keeps_step hstep rfl).1 ((keeps_step hstep rfl).2 nofun)

theorem clean_boot : Clean boot := by
  intro j hj
  rcases eq_or_ne j initproc with rfl | hne
  · exact absurd (by decide) hj
  · have : boot.proc j = .free := by simp [boot, update_of_ne hne]
    rw [this]
    exact ⟨rfl, rfl⟩

variable {cs : List (Slot × Call)}

theorem clean_run (haims : ∀ a ∈ cs, a.2.Aims) (hrun : Run.run step boot cs = some t) : Clean t :=
  Run.run_along (P := fun _ a => a.2.Aims) (fun _ _ _ h ha hstep => h.step ha hstep) clean_boot
    (Run.along_of_mem boot fun a ha _ => haims a ha) hrun

/-- KILL AFFECTS LIVE PROCESSES ONLY, as long as nobody asks for pid 0: it returns 0 if and only if there is
    a process with the pid, it marks one such process and changes no other slot, and no child is born
    marked. -/
theorem kill_live_only (haims : ∀ a ∈ cs, a.2.Aims) (hrun : Run.run step boot cs = some t) :
    (∀ pid ≠ 0, ((kill t pid).1 = 0 ↔ ∃ j, t.Live j ∧ (t.proc j).pid = pid) ∧
      ((kill t pid).1 = 0 → ∃ j, t.Live j ∧ (t.proc j).pid = pid ∧ ((kill t pid).2.proc j).killed = true ∧
        ∀ i ≠ j, (kill t pid).2.proc i = t.proc i) ∧
      ((kill t pid).1 ≠ 0 → (kill t pid).2 = t)) ∧
    ∀ p mem copy j, ¬t.Live j → (fork t p mem copy).2.Live j → ((fork t p mem copy).2.proc j).killed = false := by
  have hclean := clean_run haims hrun
  refine ⟨fun pid hpid => ?_, fun p mem copy j hj hborn => ?_⟩
  · rcases kill_cases t pid with ⟨j, hj, hkill⟩ | ⟨hno, hkill⟩
    · have hlive := hclean.live_of_pid hpid hj
      rw [hkill]
      exact ⟨iff_of_true rfl ⟨j, hlive, hj⟩, fun _ => ⟨j, hlive, hj, by rw [Tbl.set_self]; rfl, fun i hne => Tbl.set_of_ne hne⟩,
        fun hne => absurd rfl hne⟩
    · rw [hkill]
      have hret : (-1 : Int32) ≠ 0 := by decide
      exact ⟨iff_of_false hret fun ⟨j, _, hj⟩ => hno j hj, fun h => absurd h hret, fun _ => rfl⟩
  · rcases fork_cases t p mem copy with hsame | ⟨k, _, hfree | hfork⟩
    · rw [hsame] at hborn
      exact absurd hborn hj
    · rw [hfree] at hborn
      rcases eq_or_ne j k with rfl | hne
      · rw [Tbl.Live, Tbl.set_self] at hborn
        exact absurd rfl hborn
      · rw [Tbl.Live, Tbl.set_of_ne hne] at hborn
        exact absurd hborn hj
    · rw [hfork] at hborn ⊢
      rcases eq_or_ne j k with rfl | hne
      · rw [Tbl.set_self]
        exact (hclean j hj).2
      · rw [Tbl.Live, Tbl.set_of_ne hne] at hborn
        exact absurd hborn hj

theorem kill_live_only_fork : ∃ t, Run.run step boot [(initproc, .fork true true), (initproc, .kill 2)] = some t ∧
    (kill t 2).1 = 0 ∧ ∃ j, t.Live j ∧ (t.proc j).pid = 2 := by
  have hrun : (Run.run step boot [(initproc, .fork true true), (initproc, .kill 2)]).any fun t => decide ((kill t 2).1 = 0) := by
    decide +kernel
  obtain ⟨t, ht, hkill⟩ := (Option.any_eq_true _ _).mp hrun
  have haims : ∀ a ∈ [(initproc, Call.fork true true), (initproc, .kill 2)], a.2.Aims := by
    simp [Call.Aims]
  have hlive := ((kill_live_only haims ht).1 2 (by decide)).1
  exact ⟨t, ht, of_decide_eq_true hkill, hlive.mp (of_decide_eq_true hkill)⟩

/-- `kill(0)` finds a free slot: it returns 0 though no process has pid 0, and the next child is born marked. -/
theorem kill_zero : (kill boot 0).1 = 0 ∧ (∀ j, boot.Live j → (boot.proc j).pid ≠ 0) ∧
    ∃ t, Run.run step boot [(initproc, .kill 0), (initproc, .fork true true)] = some t ∧
      ∃ j, ¬boot.Live j ∧ t.Live j ∧ (t.proc j).pid = 2 ∧ (t.proc j).killed = true := by
  have hrun : (Run.run step boot [(initproc, .kill 0), (initproc, .fork true true)]).any fun t =>
      slots.any fun j => decide (¬boot.Live j ∧ t.Live j ∧ (t.proc j).pid = 2 ∧ (t.proc j).killed = true) := by decide +kernel
  obtain ⟨t, ht, hborn⟩ := (Option.any_eq_true _ _).mp hrun
  obtain ⟨j, _, hj⟩ := List.any_eq_true.mp hborn
  exact ⟨by decide +kernel, by decide +kernel, t, ht, j, of_decide_eq_true hj⟩

/-! ### Pids -/

/-- The pids given so far, at most `n` since `userinit`, are all below `nextpid`, which has not wrapped. -/
structure Numbered (n : Nat) (t : Tbl) : Prop where
  pos : 0 < t.nextpid.toInt
  le : t.nextpid.toInt ≤ 2 + n
  range : ∀ j, t.Live j → 0 < (t.proc j).pid.toInt ∧ (t.proc j).pid.toInt < t.nextpid.toInt
  unique : ∀ i j, t.Live i → t.Live j → (t.proc i).pid = (t.proc j).pid → i = j

theorem toInt_succ {n : Int32} (h : n.toInt < 2 ^ 31 - 1) : (n + 1).toInt = n.toInt + 1 := by
  have hle := n.le_toInt
  rw [Int32.toInt_add, Int32.toInt_one, Int.bmod_eq_of_le] <;> omega

variable {n : Nat}

theorem Numbered.keeps (h : Numbered n t) (hkeeps : Keeps t t') : Numbered n t' := by
  have hslot : ∀ j, t'.Live j → t.Live j ∧ (t'.proc j).pid = (t.proc j).pid := fun j hj => by
    rcases hkeeps.slot j with hfree | ⟨hpid, hlive⟩
    · rw [Tbl.Live, hfree] at hj
      exact absurd rfl hj
    · exact ⟨hlive.mp hj, hpid⟩
  refine ⟨hkeeps.nextpid ▸ h.pos, hkeeps.nextpid ▸ h.le, fun j hj => ?_, fun i j hi hj heq => ?_⟩
  · rw [(hslot j hj).2, hkeeps.nextpid]
    exact h.range j (hslot j hj).1
  · rw [(hslot i hi).2, (hslot j hj).2] at heq
    exact h.unique i j (hslot i hi).1 (hslot j hj).1 heq

theorem numbered_fork {mem copy : Bool} (h : Numbered n t) (hn : n + 1 < 2 ^ 31 - 2) :
    Numbered (n + 1) (fork t p mem copy).2 := by
  have hpos := h.pos
  have hle := h.le
  have hsucc : (t.nextpid + 1).toInt = t.nextpid.toInt + 1 := toInt_succ (by omega)
  have hnext : 0 < (t.nextpid + 1).toInt ∧ (t.nextpid + 1).toInt ≤ 2 + (n + 1 : Nat) := by omega
  rcases fork_cases t p mem copy with hsame | ⟨k, hk, hfree | hborn⟩
  · rw [hsame]
    exact ⟨hpos, by omega, h.range, h.unique⟩
  · have hlive : ∀ j, (fork t p mem copy).2.Live j → t.Live j ∧ (fork t p mem copy).2.proc j = t.proc j := fun j hj => by
      rw [hfree, Tbl.Live] at hj
      have hne : j ≠ k := by
        rintro rfl
        exact hj (by rw [Tbl.set_self]; rfl)
      rw [Tbl.set_of_ne hne] at hj
      exact ⟨hj, by rw [hfree, Tbl.set_of_ne hne]⟩
    have hnextpid : (fork t p mem copy).2.nextpid = t.nextpid + 1 := by rw [hfree]; rfl
    refine ⟨hnextpid ▸ hnext.1, hnextpid ▸ hnext.2, fun j hj => ?_, fun i j hi hj heq => ?_⟩
    · have := h.range j (hlive j hj).1
      rw [(hlive j hj).2, hnextpid, hsucc]
      omega
    · rw [(hlive i hi).2, (hlive j hj).2] at heq
      exact h.unique i j (hlive i hi).1 (hlive j hj).1 heq
  · have hslot : ∀ j, (fork t p mem copy).2.Live j →
        j = k ∧ ((fork t p mem copy).2.proc j).pid = t.nextpid ∨
          t.Live j ∧ ((fork t p mem copy).2.proc j).pid = (t.proc j).pid := fun j hj => by
      rw [hborn, Tbl.Live] at hj
      rcases eq_or_ne j k with rfl | hne
      · exact .inl ⟨rfl, by rw [hborn, Tbl.set_self]⟩
      · rw [Tbl.set_of_ne hne] at hj
        exact .inr ⟨hj, by rw [hborn, Tbl.set_of_ne hne]⟩
    have hnextpid : (fork t p mem copy).2.nextpid = t.nextpid + 1 := by rw [hborn]; rfl
    -- an old pid is not the new one
    have hold : ∀ j, t.Live j → (t.proc j).pid ≠ t.nextpid := fun j hj heq => by
      have := (h.range j hj).2
      rw [heq] at this
      omega
    refine ⟨hnextpid ▸ hnext.1, hnextpid ▸ hnext.2, fun j hj => ?_, fun i j hi hj heq => ?_⟩
    · rw [hnextpid, hsucc]
      rcases hslot j hj with ⟨_, hpid⟩ | ⟨hl, hpid⟩ <;> rw [hpid]
      · omega
      · have := h.range j hl
        omega
    · rcases hslot i hi with ⟨hik, hpi⟩ | ⟨hli, hpi⟩ <;> rcases hslot j hj with ⟨hjk, hpj⟩ | ⟨hlj, hpj⟩ <;>
        rw [hpi, hpj] at heq
      · rw [hik, hjk]
      · exact absurd heq.symm (hold j hlj)
      · exact absurd heq (hold i hli)
      · exact h.unique i j hli hlj heq

def forks (cs : List (Slot × Call)) : Nat := cs.countP fun a => a.2.isFork

theorem Numbered.run : ∀ {cs : List (Slot × Call)} {n : Nat} {t : Tbl}, Numbered n t → n + forks cs < 2 ^ 31 - 2 →
    Run.run step t cs = some t' → Numbered (n + forks cs) t'
  | [], _, _, h, _, hrun => by
    obtain rfl := Option.some.inj hrun
    exact h
  | (p, c) :: cs, n, t, h, hfew, hrun => by
    obtain ⟨t₁, hstep, hrest⟩ := Run.run_cons hrun
    cases hc : c.isFork with
    | false =>
      have hforks : forks ((p, c) :: cs) = forks cs := by simp [forks, hc]
      rw [hforks] at hfew ⊢
      exact (h.keeps (keeps_step hstep hc).1).run hfew hrest
    | true =>
      have hforks : n + forks ((p, c) :: cs) = n + 1 + forks cs := by simp [forks, hc]; omega
      rw [hforks] at hfew ⊢
      cases c with
      | fork mem copy =>
        simp only [step] at hstep
        split at hstep
        · obtain rfl := Option.some.inj hstep
          exact (numbered_fork h (by omega)).run hfew hrest
        · cases hstep
      | _ => cases hc

theorem live_boot (h : boot.Live j) : j = initproc := by
  by_contra hne
  exact h (by simp [boot, update_of_ne hne, Proc.free])

theorem numbered_boot : Numbered 0 boot := by
  refine ⟨by decide, by decide, fun j hj => ?_, fun i j hi hj _ => ?_⟩
  · rw [live_boot hj]
    decide
  · rw [live_boot hi, live_boot hj]

/-- PIDS ARE UNIQUE AND POSITIVE while `nextpid` has not wrapped. -/
theorem pids_unique (hfew : forks cs < 2 ^ 31 - 2) (hrun : Run.run step boot cs = some t) :
    (∀ i j, t.Live i → t.Live j → i ≠ j → (t.proc i).pid ≠ (t.proc j).pid) ∧ ∀ j, t.Live j → 0 < (t.proc j).pid := by
  have h := numbered_boot.run (by omega) hrun
  exact ⟨fun i j hi hj hne heq => hne (h.unique i j hi hj heq), fun j hj => Int32.lt_iff_toInt_lt.mpr (h.range j hj).1⟩

theorem pids_unique_fork : ∃ t, Run.run step boot [(initproc, .fork true true)] = some t ∧
    ∀ i j, t.Live i → t.Live j → i ≠ j → (t.proc i).pid ≠ (t.proc j).pid := by
  have hrun : (Run.run step boot [(initproc, .fork true true)]).isSome := by decide +kernel
  obtain ⟨t, ht⟩ := Option.isSome_iff_exists.mp hrun
  exact ⟨t, ht, (pids_unique (by decide) ht).1⟩

/-! `init` makes a child and waits for it, again and again: each round uses up one pid, and after 2 ^ 32 of
    them `nextpid` is back at the pid of `init`. -/

def one : Slot := ⟨1, by decide⟩

def cycle : List (Slot × Call) := [(initproc, .fork true true), (one, .exit 0), (initproc, .wait true)]

/-- `boot` with another `nextpid`. -/
def base (n : Int32) : Tbl := { boot with nextpid := n }

/-- The child's slot on the way. -/
def born (n : Int32) (st : ProcState) : Tbl :=
  { boot with proc := update boot.proc one ⟨st, none, false, 0, n, some initproc⟩, nextpid := n + 1 }

theorem proc_boot (j : Slot) : boot.proc j = if j = initproc then ⟨.RUNNABLE, none, false, 0, 1, none⟩ else .free := by
  unfold boot
  rcases eq_or_ne j initproc with rfl | hne
  · simp [Proc.free]
  · simp [hne]

theorem find_eq {f : Slot → Bool} (h : ∀ j, f j = true ↔ j = one) : slots.find? f = some one := by
  cases hfind : slots.find? f with
  | none => exact absurd ((h one).mpr rfl) (List.find?_eq_none.mp hfind one (List.mem_finRange one))
  | some j => rw [(h j).mp (List.find?_some hfind)]

theorem wakeup_eq {ch : Option Slot} (h : ∀ j, (t.proc j).state ≠ .SLEEPING) : t.wakeup p ch = t := by
  have hproc : (fun j => if j ≠ p then (t.proc j).wake ch else t.proc j) = t.proc := by
    funext j
    have hwake : (t.proc j).wake ch = t.proc j := if_neg fun hs => h j hs.1
    rw [hwake, ite_self]
  rw [Tbl.wakeup, hproc]

theorem reparent_eq (h : ∀ j, (t.proc j).parent ≠ some p) : reparent t p = t := by
  unfold reparent
  induction slots with
  | nil => rfl
  | cons pp l ih => rw [List.foldl_cons, if_neg (h pp), ih]

theorem free_one : boot.proc one = .free := by rw [proc_boot, if_neg (by decide)]

theorem step_fork (n : Int32) : step (base n) (initproc, .fork true true) = some (born n .RUNNABLE) := by
  have hfind : (slots.find? fun j => ((base n).proc j).state = .UNUSED) = some one := by
    change (slots.find? fun j => (boot.proc j).state = .UNUSED) = some one
    decide +kernel
  have hguard : ((base n).proc initproc).state = .RUNNABLE := by
    change (boot.proc initproc).state = .RUNNABLE
    decide
  have hone : (base n).proc one = .free := free_one
  have hfork : fork (base n) initproc true true = (n, born n .RUNNABLE) := by
    rw [fork, allocproc, hfind]
    simp only [allocpid, Tbl.set_self, Tbl.set_set, if_true, hone]
    rfl
  rw [step, if_pos ⟨hguard, nofun⟩, hfork]

theorem proc_born (n : Int32) (st : ProcState) (j : Slot) :
    (born n st).proc j = if j = one then ⟨st, none, false, 0, n, some initproc⟩ else boot.proc j := by
  rcases eq_or_ne j one with rfl | hne
  · simp [born]
  · simp [born, hne]

theorem step_exit (n : Int32) : step (born n .RUNNABLE) (one, .exit 0) = some (born n .ZOMBIE) := by
  have hparent : ∀ j, ((born n .RUNNABLE).proc j).parent ≠ some one := fun j => by
    rw [proc_born, proc_boot]
    split
    · simp [initproc, one]
    · split <;> simp [Proc.free]
  have hstate : ∀ j, ((born n .RUNNABLE).proc j).state ≠ .SLEEPING := fun j => by
    rw [proc_born, proc_boot]
    split
    · nofun
    · split <;> nofun
  have hguard : ((born n .RUNNABLE).proc one).state = .RUNNABLE := by rw [proc_born, if_pos rfl]
  rw [step, if_pos ⟨hguard, nofun⟩]
  change exit _ _ _ = _
  rw [exit, if_neg (by decide), reparent_eq hparent]
  dsimp only
  rw [wakeup_eq hstate, proc_born, if_pos rfl]
  simp [Tbl.set, born]

theorem step_wait (n : Int32) : step (born n .ZOMBIE) (initproc, .wait true) = some (base (n + 1)) := by
  have hguard : ((born n .ZOMBIE).proc initproc).state = .RUNNABLE := by
    rw [proc_born, proc_boot, if_neg (by decide), if_pos rfl]
  have hresume : (born n .ZOMBIE).resume initproc = born n .ZOMBIE := by
    have hproc : (born n .ZOMBIE).proc initproc = ⟨.RUNNABLE, none, false, 0, 1, none⟩ := by
      rw [proc_born, proc_boot, if_neg (by decide), if_pos rfl]
    have hsame : update (born n .ZOMBIE).proc initproc ((born n .ZOMBIE).proc initproc) = (born n .ZOMBIE).proc :=
      update_eq_self ..
    rw [hproc] at hsame
    simp only [Tbl.resume, Tbl.set, hproc, hsame]
    simp [born, boot]
  have hfind : (slots.find? fun pp => ((born n .ZOMBIE).proc pp).parent = some initproc ∧
      ((born n .ZOMBIE).proc pp).state = .ZOMBIE) = some one := by
    refine find_eq fun j => ?_
    rw [decide_eq_true_iff, proc_born, proc_boot]
    split
    · simp_all
    · split <;> simp_all [Proc.free]
  rw [step, if_pos ⟨hguard, fun _ => rfl⟩]
  unfold wait
  dsimp only
  rw [hresume, hfind]
  simp [Tbl.set, born, base, free_one]

theorem run_cycles : ∀ (m : Nat) (n : Int32), ∃ cs, Run.run step (base n) cs = some (base (n + Int32.ofNat m))
  | 0, n => ⟨[], by simp [Run.run]⟩
  | m + 1, n => by
    have hcycle : Run.run step (base n) cycle = some (base (n + 1)) := by
      simp [cycle, Run.run, step_fork, step_exit, step_wait]
    obtain ⟨cs, hcs⟩ := run_cycles m (n + 1)
    refine ⟨cycle ++ cs, (Run.run_append hcycle hcs).trans ?_⟩
    rw [Int32.add_assoc, Nat.add_comm m 1, Int32.ofNat_add]
    rfl

/-- After 2 ^ 32 processes a child has the pid of `init`; after 2 ^ 31 it has a negative one. -/
theorem pids_wrap : (∃ cs t i j, Run.run step boot cs = some t ∧ t.Live i ∧ t.Live j ∧ i ≠ j ∧ (t.proc i).pid = (t.proc j).pid) ∧
    ∃ cs t j, Run.run step boot cs = some t ∧ t.Live j ∧ (t.proc j).pid < 0 := by
  have hborn : ∀ m : Nat, ∃ cs, Run.run step boot cs = some (born (2 + Int32.ofNat m) .RUNNABLE) := fun m => by
    obtain ⟨cs, hcs⟩ := run_cycles m 2
    exact ⟨cs ++ [(initproc, .fork true true)], Run.run_append hcs (by simp [Run.run, step_fork])⟩
  have hone : ∀ n, (born n .RUNNABLE).Live one ∧ ((born n .RUNNABLE).proc one).pid = n := fun n => by
    rw [Tbl.Live, proc_born, if_pos rfl]
    exact ⟨by rintro ⟨⟩, rfl⟩
  have hinit : ∀ n, (born n .RUNNABLE).Live initproc ∧ ((born n .RUNNABLE).proc initproc).pid = 1 := fun n => by
    rw [Tbl.Live, proc_born, proc_boot, if_neg (by decide), if_pos rfl]
    exact ⟨by rintro ⟨⟩, rfl⟩
  refine ⟨?_, ?_⟩
  · obtain ⟨cs, hcs⟩ := hborn (2 ^ 32 - 1)
    refine ⟨cs, _, one, initproc, hcs, (hone _).1, (hinit _).1, by decide, ?_⟩
    rw [(hone _).2, (hinit _).2]
    decide
  · obtain ⟨cs, hcs⟩ := hborn (2 ^ 31 - 2)
    refine ⟨cs, _, one, hcs, (hone _).1, ?_⟩
    rw [(hone _).2]
    decide

end Xv6.Process.Calls
