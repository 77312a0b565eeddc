import Xv6.Process.Family

/-! Every child is reaped at most once, by its parent.

    The log of a run has an entry for every `fork` that returns, every `exit` and every `wait` that returns a
    child; processes are numbered as they are born, since pids and slots are used again. `Records` ties the
    log to the table: what it says about a process that has a slot, and that every entry follows from
    those before it (`Event.Follows`). -/

namespace Xv6.Process.Kernel
set_option linter.unusedSectionVars false
open Function List

variable {C P L Ch : Type}

/-- The process that an entry is about. -/
def Event.child : Event P → Nat
  | .fork _ child _ | .exit child _ | .reap _ _ _ child _ _ => child

/-- What an entry says, given those before it. -/
def Event.Follows (init : P) (older : List (Event P)) : Event P → Prop
  | .fork _ child _ => ∀ forker pid, .fork forker child pid ∉ older
  | .exit child _ => ∀ status, .exit child status ∉ older
  | .reap p parent waiter child pid status =>
    parent = some p ∧ (∀ p' parent' waiter' pid' status', .reap p' parent' waiter' child pid' status' ∉ older) ∧
      .exit child status ∈ older ∧
      ∃ forker, .fork forker child pid ∈ older ∧ (waiter = forker ∨ p = init ∧ ∃ status, .exit forker status ∈ older)

def Legit (init : P) : List (Event P) → Prop
  | [] => True
  | e :: older => e.Follows init older ∧ Legit init older

/-- An entry about a process that has a slot. -/
def Event.Suits (q : Proc P (Chan P Ch)) : Event P → Prop
  | .fork _ _ _ => q.state ≠ .USED
  | .exit _ status => q.state = .ZOMBIE ∧ q.xstate = status
  | .reap .. => False

/-- In `exit`, with `wait_lock`, before the state is changed. -/
def Exits : Code P L Ch → Prop
  | .wake _ _ k | .wakeIn _ _ _ k => (∃ status js, k = .reparent status js) ∨ ∃ status, k = .exitLk status
  | .reparent _ _ | .exitLk _ | .exitSet _ => True
  | _ => False

/-- Process `q` is the parent of a child of process `forker`. -/
def From (init : P) (t : Tbl P L Ch) (forker : Nat) (q : P) : Prop :=
  t.born q = forker ∨
    q = init ∧ ((∃ status, .exit forker status ∈ t.log) ∨ ∃ r, t.born r = forker ∧ Exits (t.code r))

/-- What `fork` knows about the child it makes. -/
def Makes (t : Tbl P L Ch) (q : P) : Code P L Ch → Prop
  | .forkParent j pid | .forkParentIn j pid => (t.proc j).pid = pid
  | .forkReady j pid | .forkReadyIn j pid => (t.proc j).pid = pid ∧ (t.proc j).parent = some q
  | _ => True

structure Records (init : P) (t : Tbl P L Ch) : Prop where
  legit : Legit init t.log
  lt : ∀ i, t.born i < t.births
  past : ∀ e ∈ t.log, e.child < t.births
  distinct : ∀ i j, (t.proc i).state ≠ .UNUSED → (t.proc j).state ≠ .UNUSED → t.born i = t.born j → i = j
  suits : ∀ j, (t.proc j).state ≠ .UNUSED → ∀ e ∈ t.log, e.child = t.born j → e.Suits (t.proc j)
  exited : ∀ j, (t.proc j).state = .ZOMBIE → .exit (t.born j) (t.proc j).xstate ∈ t.log
  forked : ∀ j, j ≠ init → (t.proc j).state ≠ .UNUSED → (t.proc j).state ≠ .USED →
    ∃ forker, .fork forker (t.born j) (t.proc j).pid ∈ t.log ∧ ∀ q, (t.proc j).parent = some q → From init t forker q
  making : ∀ q, Makes t q (t.code q).strip

/-! ### What a step writes -/

/-- The slot keeps its process, and what the log says about it. -/
structure Kept (q q' : Proc P (Chan P Ch)) : Prop where
  pid : q'.pid = q.pid
  xstate : q'.xstate = q.xstate
  unused : q'.state = .UNUSED ↔ q.state = .UNUSED
  used : q'.state = .USED ↔ q.state = .USED
  zombie : q'.state = .ZOMBIE ↔ q.state = .ZOMBIE

theorem Kept.refl (q : Proc P (Chan P Ch)) : Kept q q := ⟨rfl, rfl, Iff.rfl, Iff.rfl, Iff.rfl⟩

/-- How a step of process `p` changes the records. -/
inductive Deed [DecidableEq P] (p : P) (t t' : Tbl P L Ch) : Prop
  | quiet (hborn : t'.born = t.born) (hbirths : t'.births = t.births) (hlog : t'.log = t.log)
      (hkept : ∀ i, Kept (t.proc i) (t'.proc i))
  | alloc (j : P) (hj : (t.proc j).state = .UNUSED) (hj' : (t'.proc j).state = .USED)
      (hborn : t'.born = update t.born j t.births) (hbirths : t'.births = t.births + 1) (hlog : t'.log = t.log)
      (hkept : ∀ i ≠ j, Kept (t.proc i) (t'.proc i))
  | unalloc (j : P) (hp : t.code p = .forkMem j) (hj' : (t'.proc j).state = .UNUSED)
      (hborn : t'.born = t.born) (hbirths : t'.births = t.births) (hlog : t'.log = t.log)
      (hkept : ∀ i ≠ j, Kept (t.proc i) (t'.proc i))
  | ready (j : P) (pid : Int32) (hp : t.code p = .forkReadyIn j pid) (hj : (t.proc j).state = .USED)
      (hj' : (t'.proc j).state = .RUNNABLE) (hpid : (t'.proc j).pid = (t.proc j).pid)
      (hborn : t'.born = t.born) (hbirths : t'.births = t.births) (hlog : t'.log = .fork (t.born p) (t.born j) pid :: t.log)
      (hkept : ∀ i ≠ j, Kept (t.proc i) (t'.proc i))
  | exit (status : Int32) (hp : t.code p = .exitSet status) (hrunning : (t.proc p).state = .RUNNING)
      (hp' : (t'.proc p).state = .ZOMBIE) (hstatus : (t'.proc p).xstate = status) (hpid : (t'.proc p).pid = (t.proc p).pid)
      (hborn : t'.born = t.born) (hbirths : t'.births = t.births) (hlog : t'.log = .exit (t.born p) status :: t.log)
      (hkept : ∀ i ≠ p, Kept (t.proc i) (t'.proc i))
  | reap (j : P) (js : List P) (hp : t.code p = .waitIn j js) (hj : (t.proc j).state = .ZOMBIE)
      (hj' : (t'.proc j).state = .UNUSED) (hborn : t'.born = t.born) (hbirths : t'.births = t.births)
      (hlog : t'.log = .reap p (t.proc j).parent (t.born p) (t.born j) (t.proc j).pid (t.proc j).xstate :: t.log)
      (hkept : ∀ i ≠ j, Kept (t.proc i) (t'.proc i))

variable {i j : P} {q : Proc P (Chan P Ch)}

section Deed
variable [DecidableEq P] [DecidableEq Ch] {init : P} {table : List P} {p : P} {k' : Code P L Ch} {t t' : Tbl P L Ch}

theorem Kept.set (h : i = j → Kept (t.proc j) q) : Kept (t.proc i) ((t.set j q).proc i) := by
  rcases eq_or_ne i j with rfl | hij
  · rw [set_self]
    exact h rfl
  · rw [set_of_ne hij]
    exact .refl _

theorem Next.deed (h : Next init table p t (t.code p) t' k') (hrun : mid (t.code p) = false → (t.proc p).state = .RUNNING)
    (hused : ∀ j, forks (t.code p) = some j → (t.proc j).state = .USED) : Deed p t (t'.goto p k') := by
  generalize hk : t.code p = k at h hrun hused
  -- a change of state that the log does not tell
  have hstate : ∀ {q : Proc P (Chan P Ch)}, mid k = false → q.pid = (t.proc p).pid → q.xstate = (t.proc p).xstate →
      q.state = .SLEEPING ∨ q.state = .RUNNABLE → Kept (t.proc p) q := fun hmid hpid hx hst => by
    have hp := hrun hmid
    rcases hst with hst | hst <;> exact ⟨hpid, hx, by simp [hst, hp], by simp [hst, hp], by simp [hst, hp]⟩
  have hne : ∀ {j : P} {q : Proc P (Chan P Ch)}, ∀ i ≠ j, Kept (t.proc i) ((t.set j q).proc i) := fun i hij =>
    .set fun h => absurd h hij
  cases h with
  | sleepSet => exact .quiet rfl rfl rfl fun i => .set fun _ => hstate rfl rfl rfl (.inl rfl)
  | yieldSet => exact .quiet rfl rfl rfl fun i => .set fun _ => hstate rfl rfl rfl (.inr rfl)
  | sleepOut | setParent | adopt => exact .quiet rfl rfl rfl fun i => .set fun _ => ⟨rfl, rfl, Iff.rfl, Iff.rfl, Iff.rfl⟩
  | wakeIn ch j js k =>
    have hkept : ∀ i, Kept (t.proc i) ((t.wakeup j ch).proc i) := fun i => by
      rw [wakeup_eq_set]
      refine .set fun _ => ⟨Proc.pid_wake, Proc.xstate_wake, ?_, ?_, ?_⟩ <;> exact Proc.state_wake nofun nofun
    refine .quiet ?_ ?_ ?_ hkept <;>
    · simp only [Tbl.wakeup, Tbl.goto]
      split <;> rfl
  | killIn pid j js hj =>
    exact .quiet rfl rfl rfl fun i => .set fun _ =>
      ⟨rfl, rfl, Proc.state_kill nofun nofun, Proc.state_kill nofun nofun, Proc.state_kill nofun nofun⟩
  | alloc j js hj => exact .alloc j hj (congrArg Proc.state set_self) rfl rfl rfl hne
  | unalloc j => exact .unalloc j hk (congrArg Proc.state set_self) rfl rfl rfl hne
  | ready j pid => exact .ready j pid hk (hused j rfl) (congrArg Proc.state set_self) ((congrArg Proc.pid set_self).trans rfl) rfl rfl rfl hne
  | exitSet status =>
    exact .exit status hk (hrun rfl) (congrArg Proc.state set_self) (congrArg Proc.xstate set_self) ((congrArg Proc.pid set_self).trans rfl) rfl rfl rfl hne
  | reap j js hj => exact .reap j js hk hj (congrArg Proc.state set_self) rfl rfl rfl hne
  | _ => exact .quiet rfl rfl rfl fun i => .refl _

end Deed

section Records
variable [DecidableEq P] {init p : P} {t t' : Tbl P L Ch}

theorem Event.Suits.kept {q' : Proc P (Chan P Ch)} {e : Event P} (h : e.Suits q) (hq : Kept q q') : e.Suits q' := by
  cases e with
  | fork => exact mt hq.used.mp h
  | exit => exact ⟨hq.zombie.mpr h.1, hq.xstate.trans h.2⟩
  | reap => exact h.elim

theorem Deed.lt (hd : Deed p t t') (h : Records init t) (i : P) : t'.born i < t'.births := by
  cases hd with
  | alloc j hj hj' hborn hbirths =>
    rw [hborn, hbirths]
    rcases eq_or_ne i j with rfl | hij
    · rw [update_self]
      exact Nat.lt_succ_self _
    · rw [update_of_ne hij]
      exact Nat.lt_succ_of_lt (h.lt i)
  | quiet hborn hbirths | unalloc _ _ _ hborn hbirths | ready _ _ _ _ _ _ hborn hbirths | exit _ _ _ _ _ _ hborn hbirths
  | reap _ _ _ _ _ hborn hbirths =>
    rw [hborn, hbirths]
    exact h.lt i

theorem Deed.past (hd : Deed p t t') (h : Records init t) (e : Event P) (he : e ∈ t'.log) : e.child < t'.births := by
  cases hd with
  | alloc j hj hj' hborn hbirths hlog =>
    rw [hlog] at he
    rw [hbirths]
    exact Nat.lt_succ_of_lt (h.past e he)
  | quiet hborn hbirths hlog | unalloc _ _ _ hborn hbirths hlog =>
    rw [hlog] at he
    rw [hbirths]
    exact h.past e he
  | ready j _ _ _ _ _ hborn hbirths hlog | reap j _ _ _ _ hborn hbirths hlog =>
    rw [hlog] at he
    rw [hbirths]
    rcases mem_cons.mp he with rfl | he
    · exact h.lt j
    · exact h.past e he
  | exit _ _ _ _ _ _ hborn hbirths hlog =>
    rw [hlog] at he
    rw [hbirths]
    rcases mem_cons.mp he with rfl | he
    · exact h.lt p
    · exact h.past e he

theorem Deed.log_mono (hd : Deed p t t') {e : Event P} (he : e ∈ t.log) : e ∈ t'.log := by
  cases hd with
  | quiet _ _ hlog | alloc _ _ _ _ _ hlog | unalloc _ _ _ _ _ hlog =>
    rw [hlog]
    exact he
  | ready _ _ _ _ _ _ _ _ hlog | exit _ _ _ _ _ _ _ _ hlog | reap _ _ _ _ _ _ _ hlog =>
    rw [hlog]
    exact mem_cons_of_mem _ he

/-- Nobody who has a slot is born again. -/
theorem Deed.born (hd : Deed p t t') (hi : (t.proc i).state ≠ .UNUSED) : t'.born i = t.born i := by
  cases hd with
  | alloc j hj _ hborn =>
    rw [hborn, update_of_ne]
    rintro rfl
    exact hi hj
  | quiet hborn | unalloc _ _ _ hborn | ready _ _ _ _ _ _ hborn | exit _ _ _ _ _ _ hborn | reap _ _ _ _ _ hborn => rw [hborn]

/-- A slot in which another process makes a child is left alone. -/
theorem Deed.kept_of_used (hd : Deed p t t') (hj : (t.proc j).state = .USED) (hp : forks (t.code p) ≠ some j) :
    Kept (t.proc j) (t'.proc j) := by
  cases hd with
  | quiet _ _ _ hkept => exact hkept j
  | alloc i hi _ _ _ _ hkept =>
    refine hkept j ?_
    rintro rfl
    cases hi.symm.trans hj
  | unalloc i hk _ _ _ _ hkept | ready i _ hk _ _ _ _ _ _ hkept =>
    refine hkept j ?_
    rintro rfl
    exact hp (by rw [hk]; rfl)
  | exit _ _ hi _ _ _ _ _ _ hkept | reap i _ _ hi _ _ _ _ hkept =>
    refine hkept j ?_
    rintro rfl
    cases hi.symm.trans hj

/-- What becomes of the process in slot `i`. -/
inductive Fate (p : P) (t t' : Tbl P L Ch) (i : P) : Prop
  | kept (hi : (t.proc i).state ≠ .UNUSED) (hborn : t'.born i = t.born i) (hkept : Kept (t.proc i) (t'.proc i))
      (hlog : ∀ e ∈ t'.log, e.child = t.born i → e ∈ t.log)
  | alloc (hi' : (t'.proc i).state = .USED) (hborn : t'.born i = t.births) (hlog : t'.log = t.log)
  | ready (pid : Int32) (hp : t.code p = .forkReadyIn i pid) (hi : (t.proc i).state = .USED)
      (hi' : (t'.proc i).state = .RUNNABLE) (hpid : (t'.proc i).pid = (t.proc i).pid) (hborn : t'.born = t.born)
      (hlog : t'.log = .fork (t.born p) (t.born i) pid :: t.log)
  | exit (status : Int32) (hp : t.code p = .exitSet status) (hip : i = p) (hi : (t.proc i).state = .RUNNING)
      (hi' : (t'.proc i).state = .ZOMBIE) (hstatus : (t'.proc i).xstate = status) (hpid : (t'.proc i).pid = (t.proc i).pid)
      (hborn : t'.born i = t.born i) (hlog : t'.log = .exit (t.born i) status :: t.log)

theorem Deed.fate (hd : Deed p t t') (h : Records init t) (i : P) (hi' : (t'.proc i).state ≠ .UNUSED) : Fate p t t' i := by
  -- an entry about another process
  have hcons : ∀ {e₀ : Event P} {j : P}, i ≠ j → (t.proc i).state ≠ .UNUSED → (t.proc j).state ≠ .UNUSED → e₀.child = t.born j →
      ∀ e ∈ e₀ :: t.log, e.child = t.born i → e ∈ t.log := fun hij hi hj he₀ e he hchild => by
    rcases mem_cons.mp he with rfl | he
    · exact absurd (h.distinct _ _ hi hj (hchild.symm.trans he₀)) hij
    · exact he
  cases hd with
  | quiet hborn hbirths hlog hkept =>
    exact .kept (mt (hkept i).unused.mpr hi') (by rw [hborn]) (hkept i) (by rw [hlog]; exact fun e he _ => he)
  | alloc j hj hj' hborn hbirths hlog hkept =>
    rcases eq_or_ne i j with rfl | hij
    · exact .alloc hj' (by rw [hborn, update_self]) hlog
    · refine .kept (mt (hkept i hij).unused.mpr hi') (by rw [hborn, update_of_ne hij]) (hkept i hij) ?_
      rw [hlog]
      exact fun e he _ => he
  | unalloc j hp hj' hborn hbirths hlog hkept =>
    have hij : i ≠ j := by
      rintro rfl
      exact hi' hj'
    exact .kept (mt (hkept i hij).unused.mpr hi') (by rw [hborn]) (hkept i hij) (by rw [hlog]; exact fun e he _ => he)
  | ready j pid hp hj hj' hpid hborn hbirths hlog hkept =>
    rcases eq_or_ne i j with rfl | hij
    · exact .ready pid hp hj hj' hpid hborn hlog
    · have hi := mt (hkept i hij).unused.mpr hi'
      exact .kept hi (by rw [hborn]) (hkept i hij) (by rw [hlog]; exact hcons hij hi (by rw [hj]; nofun) rfl)
  | exit status hp hrunning hp' hstatus hpid hborn hbirths hlog hkept =>
    rcases eq_or_ne i p with rfl | hip
    · exact .exit status hp rfl hrunning hp' hstatus hpid (by rw [hborn]) hlog
    · have hi := mt (hkept i hip).unused.mpr hi'
      exact .kept hi (by rw [hborn]) (hkept i hip) (by rw [hlog]; exact hcons hip hi (by rw [hrunning]; nofun) rfl)
  | reap j js hp hj hj' hborn hbirths hlog hkept =>
    have hij : i ≠ j := by
      rintro rfl
      exact hi' hj'
    have hi := mt (hkept i hij).unused.mpr hi'
    exact .kept hi (by rw [hborn]) (hkept i hij) (by rw [hlog]; exact hcons hij hi (by rw [hj]; nofun) rfl)

theorem Fate.born (hi : Fate p t t' i) :
    ((t.proc i).state ≠ .UNUSED ∧ t'.born i = t.born i) ∨ t'.born i = t.births := by
  cases hi with
  | kept hi hborn => exact .inl ⟨hi, hborn⟩
  | alloc _ hborn => exact .inr hborn
  | ready _ _ hi _ _ hborn => exact .inl ⟨by rw [hi]; nofun, by rw [hborn]⟩
  | exit _ _ _ hi _ _ _ hborn => exact .inl ⟨by rw [hi]; nofun, hborn⟩

/-- One process is born at a time. -/
theorem Deed.newborn (hd : Deed p t t') (h : Records init t) (hi : t'.born i = t.births) (hj : t'.born j = t.births) :
    i = j := by
  cases hd with
  | alloc j₀ _ _ hborn =>
    have hnew : ∀ i, t'.born i = t.births → i = j₀ := fun i hi => by
      by_contra hne
      rw [hborn, update_of_ne hne] at hi
      exact absurd hi (h.lt i).ne
    rw [hnew i hi, hnew j hj]
  | quiet hborn | unalloc _ _ _ hborn | ready _ _ _ _ _ _ hborn | exit _ _ _ _ _ _ hborn | reap _ _ _ _ _ hborn =>
    rw [hborn] at hi
    exact absurd hi (h.lt i).ne

theorem Deed.distinct (hd : Deed p t t') (h : Records init t) (i j : P) (hi : (t'.proc i).state ≠ .UNUSED) (hj : (t'.proc j).state ≠ .UNUSED) (hij : t'.born i = t'.born j) : i = j := by
  rcases (hd.fate h i hi).born with ⟨hi, hbi⟩ | hbi <;> rcases (hd.fate h j hj).born with ⟨hj, hbj⟩ | hbj
  · exact h.distinct i j hi hj (hbi.symm.trans (hij.trans hbj))
  · exact absurd (hbi.symm.trans (hij.trans hbj)) (h.lt i).ne
  · exact absurd (hbj.symm.trans (hij.symm.trans hbi)) (h.lt j).ne
  · exact hd.newborn h hbi hbj

theorem Fate.suits (hi : Fate p t t' i) (h : Records init t) (e : Event P) (he : e ∈ t'.log) (hchild : e.child = t'.born i) :
    e.Suits (t'.proc i) := by
  cases hi with
  | kept hi hborn hkept hlog =>
    rw [hborn] at hchild
    exact (h.suits i hi e (hlog e he hchild) hchild).kept hkept
  | alloc hi' hborn hlog =>
    rw [hlog] at he
    exact absurd (hchild.trans hborn) (h.past e he).ne
  | ready pid hp hi hi' hpid hborn hlog =>
    rw [hborn] at hchild
    rw [hlog] at he
    rcases mem_cons.mp he with rfl | he
    · simp [Event.Suits, hi']
    · have hold := h.suits i (by rw [hi]; nofun) e he hchild
      cases e with
      | fork => exact absurd hi hold
      | exit => cases hi.symm.trans hold.1
      | reap => exact hold.elim
  | exit status hp hip hi hi' hstatus hpid hborn hlog =>
    rw [hborn] at hchild
    rw [hlog] at he
    rcases mem_cons.mp he with rfl | he
    · exact ⟨hi', hstatus⟩
    · have hold := h.suits i (by rw [hi]; nofun) e he hchild
      cases e with
      | fork => simp [Event.Suits, hi']
      | exit => cases hi.symm.trans hold.1
      | reap => exact hold.elim

theorem Fate.exited (hi : Fate p t t' i) (h : Records init t) (hd : Deed p t t') (hz : (t'.proc i).state = .ZOMBIE) :
    .exit (t'.born i) (t'.proc i).xstate ∈ t'.log := by
  cases hi with
  | kept hi hborn hkept =>
    rw [hborn, hkept.xstate]
    exact hd.log_mono (h.exited i (hkept.zombie.mp hz))
  | alloc hi' => cases hz.symm.trans hi'
  | ready _ _ _ hi' => cases hz.symm.trans hi'
  | exit status hp hip hi hi' hstatus hpid hborn hlog =>
    rw [hborn, hstatus, hlog]
    exact mem_cons_self ..

end Records

section Step
variable [DecidableEq P] [DecidableEq Ch] {init : P} {table : List P} {p : P} {s s' : St C P L Ch}

theorem Effect.deed (h : Family init table s) (he : Effect init table s s') :
    ∃ p, Deed p s.tbl s'.tbl ∧ Kin init table p s.tbl s'.tbl := by
  cases he with
  | idle htbl | timer _ _ _ _ _ htbl =>
    rw [htbl]
    exact ⟨init, .quiet rfl rfl rfl fun _ => .refl _, .same (fun _ => rfl) fun _ => Iff.rfl⟩
  | pick c j hlock hj htbl =>
    rw [htbl]
    exact ⟨init, .quiet rfl rfl rfl fun i => .set fun _ => ⟨rfl, rfl, by simp [hj], by simp [hj], by simp [hj]⟩,
      .of_set rfl rfl (by simp [hj])⟩
  | move c p js t' k' hth hnext htbl =>
    rw [htbl]
    have hruns := (h.inv.runs hth).2
    exact ⟨p, hnext.deed hruns.running (h.inv.used p), hnext.kin hruns.running (h.inv.used p) (h.tree.making p)⟩

variable {k : Code P L Ch}

theorem Exits.place (h : Exits k) : .wait ∈ locks p k ∧ k.strip = k := by
  cases k with
  | wake ch js k | wakeIn ch j js k => rcases h with ⟨_, _, rfl⟩ | ⟨_, rfl⟩ <;> exact ⟨by simp [locks], rfl⟩
  | reparent | exitLk | exitSet => exact ⟨by simp [locks], rfl⟩
  | _ => exact h.elim

variable {t : Tbl P L Ch}

theorem Exits.active (h : Exits (t.code p)) (hp : AllPlaced t) : Active (t.proc p).state := by
  have hplaced := hp p
  rw [(h.place (p := p)).2] at hplaced
  cases hk : t.code p <;> rw [hk] at h hplaced
  case wake | wakeIn | reparent | exitLk | exitSet => exact hplaced
  all_goals exact h.elim

variable {t' : Tbl P L Ch}

theorem Next.exits {k' : Code P L Ch} (h : Next init table p t k t' k') (hk : Exits k) :
    Exits k' ∨ ∃ status, k = .exitSet status ∧ t' = t.exit p status := by
  cases h with
  | wakeEnd => rcases hk with ⟨_, _, rfl⟩ | ⟨_, rfl⟩ <;> exact .inl trivial
  | wakeSelf | wakeLk | wakeIn => exact .inl hk
  | reparentEnd status => exact .inl (.inr ⟨status, rfl⟩)
  | adopt status j js hj => exact .inl (.inl ⟨status, js, rfl⟩)
  | reparentSkip | exitLk => exact .inl trivial
  | exitSet status => exact .inr ⟨status, rfl, rfl⟩
  | _ => exact hk.elim

/-- A process that exits gets into the log. -/
theorem Effect.exits (h : Family init table s) (he : Effect init table s s') {r : P} (hr : Exits (s.tbl.code r)) :
    Exits (s'.tbl.code r) ∨ ∃ status, .exit (s.tbl.born r) status ∈ s'.tbl.log := by
  cases he with
  | idle htbl | pick _ _ _ _ htbl =>
    rw [htbl]
    exact .inl hr
  | timer c p js hth hlocks htbl =>
    rw [htbl, goto_of_ne]
    · exact .inl hr
    · rintro rfl
      have hwait := (hr.place (p := r)).1
      rw [hlocks] at hwait
      cases hwait
  | move c p js t' k' hth hnext htbl =>
    rw [htbl]
    rcases eq_or_ne r p with rfl | hrp
    · rw [goto_self]
      rcases hnext.exits hr with hk' | ⟨status, _, rfl⟩
      · exact .inl hk'
      · exact .inr ⟨status, mem_cons_self ..⟩
    · rw [goto_of_ne hrp]
      rcases hnext.code_other (i := r) with hsame | ⟨hfree, _⟩
      · rw [hsame]
        exact .inl hr
      · have hact := hr.active h.placed
        rw [hfree] at hact
        rcases hact with h | h <;> cases h

theorem Alive.used {st : ProcState} (h : Alive st) : st ≠ .UNUSED ∧ st ≠ .USED ∧ st ≠ .ZOMBIE := by
  rcases h with rfl | rfl | rfl <;> exact ⟨nofun, nofun, nofun⟩

theorem Effect.from_kept (h : Family init table s) (he : Effect init table s s') (hd : Deed p s.tbl s'.tbl) {forker : Nat} {q : P}
    (hq : Alive (s.tbl.proc q).state) (hf : From init s.tbl forker q) : From init s'.tbl forker q := by
  rcases hf with hborn | ⟨hinit, ⟨status, hlog⟩ | ⟨r, hborn, hr⟩⟩
  · exact .inl ((hd.born hq.used.1).trans hborn)
  · exact .inr ⟨hinit, .inl ⟨status, hd.log_mono hlog⟩⟩
  · have hr' : (s.tbl.proc r).state ≠ .UNUSED := (Alive.used (.inr (hr.active h.placed))).1
    rcases he.exits h hr with hk | ⟨status, hlog⟩
    · exact .inr ⟨hinit, .inr ⟨r, (hd.born hr').trans hborn, hk⟩⟩
    · exact .inr ⟨hinit, .inl ⟨status, hborn ▸ hlog⟩⟩

/-- The parent of a process after the step. -/
theorem Effect.from_parent (h : Family init table s) (he : Effect init table s s') (hd : Deed p s.tbl s'.tbl)
    (hkin : Kin init table p s.tbl s'.tbl) {forker : Nat} (hj : (s.tbl.proc j).state ≠ .USED)
    (hf : ∀ q, (s.tbl.proc j).parent = some q → From init s.tbl forker q) (q : P) (hq : (s'.tbl.proc j).parent = some q) :
    From init s'.tbl forker q := by
  rcases hkin.parent_some hq with hold | ⟨_, pid, hp⟩ | ⟨rfl, hold, status, js, hp⟩
  · exact he.from_kept h hd (h.tree.alive j q hold) (hf q hold)
  · exact absurd (h.inv.used p j (by rw [hp]; rfl)) hj
  · -- `init` takes over from a process that exits
    have hok := h.inv.ok (q := p)
    rw [hp] at hok
    have hexits : Exits (s.tbl.code p) := by rw [hp]; trivial
    rcases hf p hold with hborn | ⟨hinit, _⟩
    · have hused := (h.tree.alive j p hold).used.1
      rcases he.exits h hexits with hk | ⟨status, hlog⟩
      · exact .inr ⟨rfl, .inr ⟨p, (hd.born hused).trans hborn, hk⟩⟩
      · exact .inr ⟨rfl, .inl ⟨status, hborn ▸ hlog⟩⟩
    · exact absurd hinit hok

theorem Effect.forked (h : Family init table s) (hr : Records init s.tbl) (he : Effect init table s s') (hd : Deed p s.tbl s'.tbl)
    (hkin : Kin init table p s.tbl s'.tbl) (j : P) (hj : j ≠ init) (hunused : (s'.tbl.proc j).state ≠ .UNUSED)
    (hused : (s'.tbl.proc j).state ≠ .USED) :
    ∃ forker, .fork forker (s'.tbl.born j) (s'.tbl.proc j).pid ∈ s'.tbl.log ∧
      ∀ q, (s'.tbl.proc j).parent = some q → From init s'.tbl forker q := by
  have hold : (s.tbl.proc j).state ≠ .UNUSED → (s.tbl.proc j).state ≠ .USED → s'.tbl.born j = s.tbl.born j →
      (s'.tbl.proc j).pid = (s.tbl.proc j).pid → ∃ forker, .fork forker (s'.tbl.born j) (s'.tbl.proc j).pid ∈ s'.tbl.log ∧
      ∀ q, (s'.tbl.proc j).parent = some q → From init s'.tbl forker q := fun hunused hused hborn hpid => by
    obtain ⟨forker, hlog, hfrom⟩ := hr.forked j hj hunused hused
    rw [hborn, hpid]
    exact ⟨forker, hd.log_mono hlog, he.from_parent h hd hkin hused hfrom⟩
  cases hd.fate hr j hunused with
  | kept hi hborn hkept => exact hold hi (mt hkept.used.mpr hused) hborn hkept.pid
  | alloc hi' => exact absurd hi' hused
  | ready pid hp hi hi' hpid hborn hlog =>
    have hmakes := hr.making p
    rw [hp] at hmakes
    refine ⟨s.tbl.born p, ?_, fun q hq => .inl ?_⟩
    · rw [hpid, hmakes.1, hborn, hlog]
      exact mem_cons_self ..
    · rw [hborn]
      rcases hkin.parent_some hq with hold | ⟨_, _, hp'⟩ | ⟨_, _, _, _, hp'⟩
      · rw [Option.some.inj (hold.symm.trans hmakes.2)]
      · cases hp.symm.trans hp'
      · cases hp.symm.trans hp'
  | exit status hp hip hi hi' hstatus hpid hborn hlog => exact hold (by rw [hi]; nofun) (by rw [hi]; nofun) hborn hpid

theorem Makes.congr {q : P} (h : Makes t q k)
    (hj : ∀ j, forks k = some j → (t'.proc j).pid = (t.proc j).pid ∧ ((t.proc j).parent = some q → (t'.proc j).parent = some q)) :
    Makes t' q k := by
  cases k with
  | forkParent j pid | forkParentIn j pid => exact (hj j rfl).1.trans h
  | forkReady j pid | forkReadyIn j pid => exact ⟨(hj j rfl).1.trans h.1, (hj j rfl).2 h.2⟩
  | _ => trivial

theorem Next.makes_self {k' : Code P L Ch} (h : Next init table p t k t' k') (hok : Ok init table p k)
    (hk : Makes t p k.strip) : Makes t' p k'.strip := by
  cases h with
  | sleepLk => rcases hok with ⟨_, _, rfl⟩ | ⟨_, _, _, _, rfl⟩ <;> trivial
  | wakeEnd => rcases hok with ⟨_, rfl⟩ | ⟨_, ⟨_, _, _, rfl⟩ | ⟨_, rfl⟩⟩ <;> trivial
  | sched | yieldAcq | yieldOut | forkParent | forkReady => exact hk
  | yieldSet k =>
    refine Makes.congr hk fun j _ => ?_
    rcases eq_or_ne j p with rfl | hjp
    · rw [set_self]
      exact ⟨rfl, id⟩
    · rw [set_of_ne hjp]
      exact ⟨rfl, id⟩
  | forkMem => rfl
  | setParent j pid =>
    refine ⟨?_, ?_⟩ <;> rw [set_self]
    exact hk
  | _ => trivial

theorem forks_strip (k : Code P L Ch) : forks k.strip = forks k := by
  induction k with
  | yieldAcq k ih | yieldSet k ih | yieldOut k ih | sched k ih => exact ih
  | _ => rfl

theorem not_wait_of_forks (h : forks k = some j) (hk : unset k ≠ some j) : .wait ∉ locks p k := by
  cases k with
  | forkParentIn => exact absurd h hk
  | forkMem | forkParent | forkReady | forkReadyIn | yieldAcq | yieldSet | yieldOut | sched => simp [locks]
  | _ => cases h

theorem Effect.making (h : Family init table s) (hr : Records init s.tbl) (he : Effect init table s s') (q : P) :
    Makes s'.tbl q (s'.tbl.code q).strip := by
  cases he with
  | idle htbl =>
    rw [htbl]
    exact hr.making q
  | pick c j hlock hj htbl =>
    rw [htbl]
    refine (hr.making q).congr fun i _ => ?_
    rcases eq_or_ne i j with rfl | hij
    · rw [set_self]
      exact ⟨rfl, id⟩
    · rw [set_of_ne hij]
      exact ⟨rfl, id⟩
  | timer c p js hth hlocks htbl =>
    rw [htbl]
    rcases eq_or_ne q p with rfl | hqp
    · rw [goto_self]
      exact (hr.making q).congr fun _ _ => ⟨rfl, id⟩
    · rw [goto_of_ne hqp]
      exact (hr.making q).congr fun _ _ => ⟨rfl, id⟩
  | move c p js t' k' hth hnext htbl =>
    rw [htbl]
    have hruns := (h.inv.runs hth).2
    rcases eq_or_ne q p with rfl | hqp
    · rw [goto_self]
      exact (hnext.makes_self hruns.ok (hr.making q)).congr fun _ _ => ⟨rfl, id⟩
    · rw [goto_of_ne hqp]
      rcases hnext.code_other (i := q) with hsame | ⟨_, hfork⟩
      · rw [hsame]
        refine (hr.making q).congr fun j hj => ?_
        rw [forks_strip] at hj
        have hp : forks (s.tbl.code p) ≠ some j := fun hp => hqp (h.inv.maker q p j hj hp)
        refine ⟨((hnext.deed hruns.running (h.inv.used p)).kept_of_used (h.inv.used q j hj) hp).pid, fun hparent => ?_⟩
        refine (hnext.kin hruns.running (h.inv.used p) (h.tree.making p)).child_kept (h.knows p) (h.tree.making p) ?_ hparent
        refine not_wait_of_forks hj fun hunset => ?_
        cases (h.tree.making q j hunset).symm.trans hparent
      · rw [hfork]
        trivial

theorem Records.legit_step (h : Family init table s) (hr : Records init s.tbl) (hd : Deed p s.tbl t') :
    Legit init t'.log := by
  cases hd with
  | quiet _ _ hlog | alloc _ _ _ _ _ hlog | unalloc _ _ _ _ _ hlog =>
    rw [hlog]
    exact hr.legit
  | ready j pid hp hj hj' hpid hborn hbirths hlog =>
    rw [hlog]
    exact ⟨fun forker pid hmem => hr.suits j (by rw [hj]; nofun) _ hmem rfl hj, hr.legit⟩
  | exit status hp hrunning hp' hstatus hpid hborn hbirths hlog =>
    rw [hlog]
    refine ⟨fun status hmem => ?_, hr.legit⟩
    cases hrunning.symm.trans (hr.suits p (by rw [hrunning]; nofun) _ hmem rfl).1
  | reap j js hp hj hj' hborn hbirths hlog =>
    rw [hlog]
    have hknows := h.knows p
    rw [hp] at hknows
    have hinit : j ≠ init := by
      rintro rfl
      exact h.tree.root.used.2.2 hj
    obtain ⟨forker, hfork, hfrom⟩ := hr.forked j hinit (by rw [hj]; nofun) (by rw [hj]; nofun)
    refine ⟨⟨hknows.1, fun _ _ _ _ _ hmem => hr.suits j (by rw [hj]; nofun) _ hmem rfl, hr.exited j hj, forker, hfork, ?_⟩, hr.legit⟩
    rcases hfrom p hknows.1 with hborn | ⟨rfl, hexit | ⟨r, _, hexits⟩⟩
    · exact .inl hborn
    · exact .inr ⟨rfl, hexit⟩
    · -- whoever exits has the lock
      have hwait : .wait ∈ locks p (s.tbl.code p) := by rw [hp]; simp [locks]
      obtain rfl := h.inv.wait_unique hexits.place.1 hwait
      rw [hp] at hexits
      exact hexits.elim

theorem Effect.records (h : Family init table s) (hr : Records init s.tbl) (he : Effect init table s s') : Records init s'.tbl := by
  obtain ⟨p, hd, hkin⟩ := he.deed h
  exact {
    legit := hr.legit_step h hd
    lt := hd.lt hr
    past := hd.past hr
    distinct := hd.distinct hr
    suits := fun j hj => (hd.fate hr j hj).suits hr
    exited := fun j hj => (hd.fate hr j (by rw [hj]; nofun)).exited hr hd hj
    forked := he.forked h hr hd hkin
    making := he.making h hr }

end Step

/-! ### Histories -/

section Legit
variable {init : P}

/-- Both entries are about the birth, the exit or the reaping of one process. -/
def Event.Same : Event P → Event P → Prop
  | .fork _ child _, .fork _ child' _ => child = child'
  | .exit child _, .exit child' _ => child = child'
  | .reap _ _ _ child _ _, .reap _ _ _ child' _ _ => child = child'
  | _, _ => False

theorem Event.Follows.not_same {e e' : Event P} {older : List (Event P)} (h : e.Follows init older) (he' : e' ∈ older) :
    ¬ e.Same e' := by
  intro hsame
  cases e <;> cases e' <;> try exact hsame
  · obtain rfl : _ = _ := hsame
    exact h _ _ he'
  · obtain rfl : _ = _ := hsame
    exact h _ he'
  · obtain rfl : _ = _ := hsame
    exact h.2.1 _ _ _ _ _ he'

/-- Each happens once. -/
theorem Legit.once : ∀ {log : List (Event P)}, Legit init log → log.Pairwise fun e e' => ¬ e.Same e'
  | [], _ => List.Pairwise.nil
  | _ :: _, h => pairwise_cons.mpr ⟨fun _ he' => h.1.not_same he', h.2.once⟩

theorem Legit.follows : ∀ {newer older : List (Event P)} {e : Event P}, Legit init (newer ++ e :: older) → e.Follows init older
  | [], _, _, h => h.1
  | _ :: _, _, _, h => Legit.follows h.2

theorem Event.Same.symm {e e' : Event P} (h : e.Same e') : e'.Same e := by
  cases e <;> cases e' <;> first | exact h.elim | exact Eq.symm h

theorem Legit.unique {log : List (Event P)} {e e' : Event P} (h : Legit init log) (he : e ∈ log) (he' : e' ∈ log) (hsame : e.Same e') :
    e = e' := by
  have : Std.Symm fun e e' : Event P => ¬ e.Same e' := ⟨fun _ _ h => mt Event.Same.symm h⟩
  by_contra hne
  exact h.once.forall he he' hne hsame

theorem Legit.reaped {newer older : List (Event P)} {p : P} {parent : Option P} {waiter child : Nat} {pid status : Int32}
    (h : Legit init (newer ++ .reap p parent waiter child pid status :: older)) :
    parent = some p ∧ (∀ p' parent' waiter' pid' status', .reap p' parent' waiter' child pid' status' ∉ newer ++ older) ∧
    (.exit child status ∈ older ∧ ∀ status', .exit child status' ∈ newer ++ older → status' = status) ∧
    ∃ forker, (.fork forker child pid ∈ older ∧
        ∀ forker' pid', .fork forker' child pid' ∈ newer ++ older → forker' = forker ∧ pid' = pid) ∧
      (waiter = forker ∨ p = init ∧ ∃ status, .exit forker status ∈ older) := by
  have hmem : ∀ {e : Event P}, e ∈ newer ++ older → e ∈ newer ++ .reap p parent waiter child pid status :: older := fun he =>
    (mem_append.mp he).elim (mem_append_left _) fun he => mem_append_right _ (mem_cons_of_mem _ he)
  obtain ⟨hparent, hno, hexit, forker, hfork, hwaiter⟩ := h.follows
  refine ⟨hparent, fun p' parent' waiter' pid' status' he => ?_, ⟨hexit, fun status' he => ?_⟩, forker,
    ⟨hfork, fun forker' pid' he => ?_⟩, hwaiter⟩
  · rcases mem_append.mp he with he | he
    · exact (pairwise_append.mp h.once).2.2 _ he _ (mem_cons_self ..) rfl
    · exact hno _ _ _ _ _ he
  · cases h.unique (hmem he) (hmem (mem_append_right _ hexit)) rfl
    rfl
  · cases h.unique (hmem he) (hmem (mem_append_right _ hfork)) rfl
    exact ⟨rfl, rfl⟩

end Legit

section Run
variable [DecidableEq C] [DecidableEq P] [DecidableEq L] [DecidableEq Ch] {init : P} {table : List P} {s s' : St C P L Ch}
  {as : List (Act C L Ch)}

theorem records_boot : Records init (boot init : St C P L Ch).tbl := by
  have hproc : ∀ i ≠ init, (boot init : St C P L Ch).tbl.proc i = .free := fun i hi => by simp [boot, hi]
  have hunused : ∀ i, ((boot init : St C P L Ch).tbl.proc i).state ≠ .UNUSED → i = init := fun i hi => by
    by_contra hne
    rw [hproc i hne] at hi
    exact hi rfl
  refine ⟨trivial, fun _ => Nat.one_pos, by rintro _ ⟨⟩, fun i j hi hj _ => (hunused i hi).trans (hunused j hj).symm, fun _ _ => (by rintro _ ⟨⟩), fun j hj => ?_,
    fun j hj hst => absurd (hunused j hst) hj, fun _ => trivial⟩
  exact absurd hj (placed_boot (C := C) (L := L) j).2

theorem records_run (htable : ∀ j, j ∈ table) (hrun : Run.run (step init table) (boot init) as = some s) :
    Family init table s ∧ Records init s.tbl := by
  refine Run.run_invariant (I := fun s => Family init table s ∧ Records init s.tbl) (fun s a s' h hs => ?_)
    ⟨family_boot, records_boot⟩ hrun
  have he := h.1.inv.effect hs
  exact ⟨he.family htable h.1 (h.1.inv.step hs), he.records h.1 h.2⟩

/-- A zombie that `wait` has found, when its status cannot be copied out and when it can. -/
theorem copyout_cases (h : Inv init table s) {c : C} {p : P} {ps js : List P} (hth : s.thread c = .away p ps)
    (hp : s.tbl.code p = .waitIn j js) (hj : (s.tbl.proc j).state = .ZOMBIE) :
    (∀ x s', x ≠ .ok true → step init table s (.cpu c x) = some s' →
      s'.tbl.code p = .waitRet ∧ s'.tbl.proc = s.tbl.proc ∧ s'.tbl.log = s.tbl.log) ∧
    ∃ s', step init table s (.cpu c (.ok true)) = some s' ∧ s'.tbl = (s.tbl.reap p j).goto p .waitRet := by
  have howner : s.owner (.proc j) = some c := by
    refine (h.held.owner c _).mpr (((h.runs hth).2.locks (.proc j) trivial).mpr ?_)
    rw [hp]
    exact mem_cons_self ..
  refine ⟨fun x s' hx hs => ?_, ?_⟩
  · have hs : s.exec c p ps (.unlock (.proc j) s.tbl .waitRet) = some s' := by
      cases x with
      | ok b =>
        cases b with
        | true => exact absurd rfl hx
        | false => simpa only [step, hth, hp, fetch, if_pos hj] using hs
      | _ => simpa only [step, hth, hp, fetch, if_pos hj] using hs
    obtain ⟨s₁, _, rfl⟩ := Option.map_eq_some_iff.mp hs
    exact ⟨goto_self, rfl, rfl⟩
  · simp [step, hth, hp, fetch, hj, St.exec, St.release, howner]

/-- THE PROCESS TREE, AND EVERY EXIT IS REAPED ONCE. In every state of every run:

    The parent of a process is neither free nor a zombie; only `init` and a child whose `fork` has not come
    to set it have none.

    A `wait` that has returned a child was made by its parent at that time: the process that has forked it,
    or `init` after that process has exited. The pid is the one its only `fork` has returned, the status the
    one of its only `exit`, and no other `wait` has returned that child.

    A `wait` whose copyout fails changes no process; one whose copyout succeeds reaps the zombie. -/
theorem children_reaped (htable : ∀ j, j ∈ table) (hrun : Run.run (step init table) (boot init) as = some s) :
    (∀ j, j ≠ init → (s.tbl.proc j).state ≠ .UNUSED →
      (∃ q, (s.tbl.proc j).parent = some q ∧ (s.tbl.proc q).state ≠ .UNUSED ∧ (s.tbl.proc q).state ≠ .ZOMBIE) ∨
      (s.tbl.proc j).parent = none ∧ ∃ q, unset (s.tbl.code q) = some j) ∧
    (∀ newer older p parent waiter child pid status, s.tbl.log = newer ++ .reap p parent waiter child pid status :: older →
      parent = some p ∧ (∀ p' parent' waiter' pid' status', .reap p' parent' waiter' child pid' status' ∉ newer ++ older) ∧
      (.exit child status ∈ older ∧ ∀ status', .exit child status' ∈ newer ++ older → status' = status) ∧
      ∃ forker, (.fork forker child pid ∈ older ∧
          ∀ forker' pid', .fork forker' child pid' ∈ newer ++ older → forker' = forker ∧ pid' = pid) ∧
        (waiter = forker ∨ p = init ∧ ∃ status, .exit forker status ∈ older)) ∧
    ∀ c p ps j js, s.thread c = .away p ps → s.tbl.code p = .waitIn j js → (s.tbl.proc j).state = .ZOMBIE →
      (∀ x s', x ≠ .ok true → step init table s (.cpu c x) = some s' →
        s'.tbl.code p = .waitRet ∧ s'.tbl.proc = s.tbl.proc ∧ s'.tbl.log = s.tbl.log) ∧
      ∃ s', step init table s (.cpu c (.ok true)) = some s' ∧ (s'.tbl.proc j).state = .UNUSED ∧
        s'.tbl.log = .reap p (some p) (s.tbl.born p) (s.tbl.born j) (s.tbl.proc j).pid (s.tbl.proc j).xstate :: s.tbl.log := by
  obtain ⟨hf, hr⟩ := records_run htable hrun
  refine ⟨fun j hj hused => ?_, fun newer older p parent waiter child pid status hlog => ?_, fun c p ps j js hth hp hj => ?_⟩
  · cases hparent : (s.tbl.proc j).parent with
    | some q =>
      have halive := (hf.tree.alive j q hparent).used
      exact .inl ⟨q, rfl, halive.1, halive.2.2⟩
    | none => exact .inr ⟨rfl, hf.tree.orphan j hj hused hparent⟩
  · exact Legit.reaped (hlog ▸ hr.legit)
  · obtain ⟨hfails, s', hs', htbl⟩ := copyout_cases hf.inv hth hp hj
    have hknows := hf.knows p
    rw [hp] at hknows
    refine ⟨hfails, s', hs', ?_, ?_⟩ <;> rw [htbl]
    · exact congrArg Proc.state set_self
    · exact hknows.1 ▸ rfl

end Run

attribute [local instance] neZero_two in
/-- `init` forks a process, which exits with status 7 on CPU 1 and is then waited for. -/
def initReaps : List (Act (Fin 2) Unit Unit) :=
  startInit ++ .cpu 0 .fork :: replicate 9 (.cpu 0 (.ok true)) ++ replicate 8 (.cpu 1 (.ok true)) ++
    .cpu 1 (.exit 7) :: replicate 17 (.cpu 1 (.ok true)) ++ .cpu 0 .wait :: replicate 5 (.cpu 0 (.ok true))

theorem children_reaped_initReaps : ∃ s : St (Fin 2) (Fin 3) Unit Unit,
    Run.run (step 0 [0, 1, 2]) (boot 0) initReaps = some s ∧
    ∃ older, s.tbl.log = .reap 0 (some 0) 0 1 2 7 :: older ∧ .exit 1 7 ∈ older ∧
      ∃ forker, .fork forker 1 2 ∈ older ∧ (0 = forker ∨ ∃ status, .exit forker status ∈ older) := by
  have hrun : (Run.run (step 0 [0, 1, 2]) (boot 0 : St (Fin 2) (Fin 3) Unit Unit) initReaps).map (fun s => s.tbl.log) =
      some [.reap 0 (some 0) 0 1 2 7, .exit 1 7, .fork 0 1 2] := rfl
  obtain ⟨s, hs, hlog⟩ := Option.map_eq_some_iff.mp hrun
  obtain ⟨_, _, hexit, forker, hfork, hwaiter⟩ := (children_reaped (by decide) hs).2.1 [] _ _ _ _ _ _ _ hlog
  exact ⟨s, hs, _, hlog, hexit.1, forker, hfork.1, hwaiter.imp id fun h => h.2⟩

end Xv6.Process.Kernel
