import Xv6.Process.Kernel

/-! What a kernel thread does next.

    At every place of its code a thread holds the locks that `locks` says; while it is not on a CPU it is
    `Parked` at a place where it expects its own lock, which the scheduler takes for it and gives back for
    it. `fetch_spec` says once what the next instruction of a thread can be, where it goes, and what it
    does to the states of the processes. -/

namespace Xv6.Process.Kernel

variable {C P L Ch : Type}

/-- A lock of `proc.c`. -/
def Lock.Core : Lock P L → Prop
  | .other _ => False
  | _ => True

def Lock.core : Lock P L → List (Lock P L)
  | .other _ => []
  | l => [l]

/-- The locks of `proc.c` that process `p` holds. -/
def locks (p : P) : Code P L Ch → List (Lock P L)
  | .sleepAcq _ lk _ => lk.core
  | .sleepRel _ lk _ => .proc p :: lk.core
  | .sleepSet _ _ _ | .sleepOut _ _ _ | .sched _ | .yieldSet _ | .yieldOut _ | .forkret | .zombie => [.proc p]
  | .wake _ _ k => locks p k
  | .wakeIn _ j _ k => .proc j :: locks p k
  | .killIn _ j _ | .forkIn j _ | .forkMem j | .forkReadyIn j _ => [.proc j]
  | .forkParentIn _ _ | .reparent _ _ | .exitLk _ | .waitScan _ _ | .waitLk _ _ | .waitRet | .waitKilled => [.wait]
  | .exitSet _ | .exitRel | .waitKilledIn => [.proc p, .wait]
  | .waitIn j _ => [.proc j, .wait]
  | _ => []

/-- The thread has changed its state and has not switched away yet. -/
def mid : Code P L Ch → Bool
  | .sched _ | .exitRel => true
  | _ => false

/-- The slot in which the thread makes a child. -/
def forks : Code P L Ch → Option P
  | .forkMem j | .forkParent j _ | .forkParentIn j _ | .forkReady j _ | .forkReadyIn j _ => some j
  | .yieldAcq k | .yieldSet k | .yieldOut k | .sched k => forks k
  | _ => none

section Places
variable (init : P) (table : List P)

/-- A call of `sleep`: by `wait`, or by the rest of the kernel. -/
def Sleeps (p : P) (ch : Chan P Ch) (lk : Lock P L) (k : Code P L Ch) : Prop :=
  (ch = .proc p ∧ lk = .wait ∧ k = .waitScan table false) ∨ ∃ ch' l, ch = .other ch' ∧ lk = .other l ∧ k = .user

/-- A call of `wakeup`: by the rest of the kernel, or by `exit`. -/
def Wakes (p : P) (ch : Option (Chan P Ch)) (k : Code P L Ch) : Prop :=
  ((∃ ch', ch = some (.other ch')) ∧ k = .user) ∨
    p ≠ init ∧ ((ch = some (.proc init) ∧ ∃ status js, k = .reparent status js) ∨ ∃ status, k = .exitLk status)

/-- A place that threads get to. -/
def Ok (p : P) : Code P L Ch → Prop
  | .sleepAcq ch lk k | .sleepRel ch lk k | .sleepSet ch lk k | .sleepOut ch lk k | .sleepLk ch lk k => Sleeps table p ch lk k
  | .sched (.sleepOut ch lk k) => Sleeps table p ch lk k
  | .sched (.yieldOut k) => locks p k = [] ∧ Ok p k
  | .sched .zombie => p ≠ init
  | .sched _ => False
  | .yieldAcq k | .yieldSet k | .yieldOut k => locks p k = [] ∧ Ok p k
  | .wake ch _ k => Wakes init p ch k
  | .wakeIn ch j _ k => j ≠ p ∧ Wakes init p ch k
  | .reparent _ _ | .exitLk _ | .exitSet _ | .exitRel | .zombie => p ≠ init
  | _ => True

/-- A place at which a thread waits for the scheduler. -/
def Parked (p : P) : Code P L Ch → Prop
  | .sleepOut ch lk k => Sleeps table p ch lk k
  | .yieldOut k => locks p k = [] ∧ Ok init table p k
  | .forkret => True
  | .zombie => p ≠ init
  | _ => False

end Places

variable {init : P} {table : List P} {p : P} {k k' : Code P L Ch} {l : Lock P L} {t t' : Tbl P L Ch} {x : Input L Ch}

theorem Parked.ok (h : Parked init table p k) : Ok init table p k := by
  cases k with
  | sleepOut | yieldOut | zombie => exact h
  | forkret => trivial
  | _ => exact h.elim

theorem Parked.locks (h : Parked init table p k) : locks p k = [.proc p] ∧ mid k = false := by
  cases k with
  | sleepOut | yieldOut | zombie | forkret => exact ⟨rfl, rfl⟩
  | _ => exact h.elim

theorem parked_of_sched (h : Ok init table p (.sched k)) : Parked init table p k := by
  cases k with
  | sleepOut | yieldOut | zombie => exact h
  | _ => exact h.elim

theorem own_of_mid (h : mid k = true) : .proc p ∈ locks p k := by
  cases k with
  | sched | exitRel => exact List.mem_cons_self ..
  | _ => cases h

attribute [local simp] locks

theorem other_not_mem {l : L} (k : Code P L Ch) : .other l ∉ locks p k := by
  induction k with
  | wake ch js k ih => exact ih
  | wakeIn ch j js k ih => simp [ih]
  | sleepAcq ch lk k _ => cases lk <;> simp [Lock.core]
  | sleepRel ch lk k _ => cases lk <;> simp [Lock.core]
  | _ => simp

theorem core_of_mem (h : l ∈ locks p k) : l.Core := by
  cases l with
  | other l => exact absurd h (other_not_mem k)
  | _ => trivial

theorem mid_of_locks (h : locks p k = []) : mid k = false := by
  cases k with
  | sched | exitRel => cases h
  | _ => rfl

theorem Wakes.place (table : List P) {ch : Option (Chan P Ch)} (h : Wakes init p ch k) :
    Ok init table p k ∧ mid k = false ∧ forks k = none ∧ ∀ j, .proc j ∉ locks p k := by
  rcases h with ⟨_, rfl⟩ | ⟨hp, ⟨_, status, js, rfl⟩ | ⟨status, rfl⟩⟩
  · exact ⟨trivial, rfl, rfl, nofun⟩
  · exact ⟨hp, rfl, rfl, fun j => by simp⟩
  · exact ⟨hp, rfl, rfl, fun j => by simp⟩

theorem Sleeps.place (init : P) {ch : Chan P Ch} (h : Sleeps table p ch l k) :
    Ok init table p k ∧ mid k = false ∧ forks k = none ∧ l ≠ .proc p ∧ ∀ l' : Lock P L, l'.Core → (l' ∈ locks p k ↔ l' ∈ l.core) ∧
      (l' ∈ l.core ↔ l' = l) := by
  rcases h with ⟨_, rfl, rfl⟩ | ⟨_, _, _, rfl, rfl⟩
  · exact ⟨trivial, rfl, rfl, nofun, fun l' _ => ⟨Iff.rfl, List.mem_singleton⟩⟩
  · refine ⟨trivial, rfl, rfl, nofun, fun l' hl' => ⟨Iff.rfl, iff_of_false nofun ?_⟩⟩
    rintro rfl
    exact hl'

/-- What a change of the table by process `p`, on its way from `k` to `k'`, does to the states. -/
structure Moves (p : P) (k : Code P L Ch) (t t' : Tbl P L Ch) (k' : Code P L Ch) : Prop where
  stays : mid k' = false → mid k = false ∧ (t'.proc p).state = (t.proc p).state
  leaves : mid k' = true → (t'.proc p).state ≠ .RUNNING ∨ mid k = true ∧ (t'.proc p).state = (t.proc p).state
  running : ∀ i ≠ p, (t'.proc i).state = .RUNNING ↔ (t.proc i).state = .RUNNING
  code : ∀ i ≠ p, t'.code i = t.code i ∨ (t.proc i).state = .UNUSED ∧ .proc i ∈ locks p k ∧ t'.code i = .forkret
  used : ∀ i, (t.proc i).state = .USED → (t'.proc i).state = .USED ∨ forks k = some i
  fork : ∀ i, forks k' = some i → (t'.proc i).state = .USED ∧ (forks k = some i ∨ (t.proc i).state = .UNUSED)

/-- The states of the process that moves and whether others are `RUNNING`, `UNUSED` or `USED` stay the same. -/
theorem Moves.of_iff (hmid : mid k' = mid k) (hforks : ∀ i, forks k' = some i → forks k = some i)
    (hfork : ∀ j, forks k = some j → (t.proc j).state = .USED) (hcode : t'.code = t.code)
    (hself : (t'.proc p).state = (t.proc p).state)
    (hstate : ∀ i, ∀ st, st ≠ .SLEEPING → st ≠ .RUNNABLE → ((t'.proc i).state = st ↔ (t.proc i).state = st)) :
    Moves p k t t' k' where
  stays := fun h => ⟨hmid ▸ h, hself⟩
  leaves := fun h => .inr ⟨hmid ▸ h, hself⟩
  running := fun i _ => hstate i .RUNNING nofun nofun
  code := fun i _ => .inl (by rw [hcode])
  used := fun i h => .inl ((hstate i .USED nofun nofun).mpr h)
  fork := fun i h => ⟨(hstate i .USED nofun nofun).mpr (hfork i (hforks i h)), .inl (hforks i h)⟩

theorem Moves.of_eq (hmid : mid k' = mid k) (hforks : ∀ i, forks k' = some i → forks k = some i)
    (hfork : ∀ j, forks k = some j → (t.proc j).state = .USED) (hcode : t'.code = t.code)
    (hstate : ∀ i, (t'.proc i).state = (t.proc i).state) : Moves p k t t' k' :=
  .of_iff hmid hforks hfork hcode (hstate p) fun i _ _ _ => by rw [hstate i]

variable [DecidableEq P]

attribute [local simp] Tbl.set

theorem state_set (i j : P) (q : Proc P (Chan P Ch)) :
    ((t.set j q).proc i).state = if i = j then q.state else (t.proc i).state := by
  rcases eq_or_ne i j with rfl | hne
  · simp
  · simp [hne]

/-- The process changes its own state and is about to switch away. -/
theorem Moves.of_leave {q : Proc P (Chan P Ch)} (hmid : mid k' = true) (hforks : ∀ i, forks k' = some i → forks k = some i)
    (hfork : ∀ j, forks k = some j → (t.proc j).state = .USED) (hp : (t.proc p).state = .RUNNING)
    (hcode : t'.code = t.code) (hproc : t'.proc = (t.set p q).proc) (hrunning : q.state ≠ .RUNNING) : Moves p k t t' k' := by
  have hstate : ∀ i, (t'.proc i).state = if i = p then q.state else (t.proc i).state := fun i => by rw [hproc, state_set]
  have hne : ∀ i, (t.proc i).state = .USED → i ≠ p := by
    rintro i hi rfl
    rw [hp] at hi
    cases hi
  refine ⟨fun h => absurd (hmid.symm.trans h) nofun, fun _ => .inl (by rw [hstate, if_pos rfl]; exact hrunning), fun i hi => ?_,
    fun i _ => .inl (by rw [hcode]), fun i hi => .inl ?_, fun i hi => ⟨?_, .inl (hforks i hi)⟩⟩
  · rw [hstate, if_neg hi]
  · rw [hstate, if_neg (hne i hi), hi]
  · rw [hstate, if_neg (hne i (hfork i (hforks i hi))), hfork i (hforks i hi)]

/-- The process fills or empties the slot of another one that is not `RUNNING`, before or after. -/
theorem Moves.of_slot {j : P} {q : Proc P (Chan P Ch)} (hj : j ≠ p) (hmid : mid k' = mid k) (hcode : t'.code = t.code)
    (hproc : t'.proc = (t.set j q).proc) (hold : (t.proc j).state ≠ .RUNNING) (hnew : q.state ≠ .RUNNING)
    (hused : (t.proc j).state = .USED → forks k = some j) (hforks : ∀ i, forks k' ≠ some i) : Moves p k t t' k' := by
  have hstate : ∀ i, (t'.proc i).state = if i = j then q.state else (t.proc i).state := fun i => by rw [hproc, state_set]
  have hself : (t'.proc p).state = (t.proc p).state := by rw [hstate, if_neg hj.symm]
  refine ⟨fun h => ⟨hmid ▸ h, hself⟩, fun h => .inr ⟨hmid ▸ h, hself⟩, fun i _ => ?_, fun i _ => .inl (by rw [hcode]),
    fun i hi => ?_, fun i hi => absurd hi (hforks i)⟩ <;> rw [hstate] <;> split
  · rename_i h
    rw [h]
    exact iff_of_false hnew hold
  · exact Iff.rfl
  · rename_i h
    rw [h] at hi ⊢
    exact .inr (hused hi)
  · exact .inl hi

/-- `allocproc`. -/
theorem Moves.of_alloc {j : P} (hj : (t.proc j).state = .UNUSED) (hp : (t.proc p).state = .RUNNING) (hlock : .proc j ∈ locks p k)
    (hmid : mid k = false) (hmid' : mid k' = false) (hforks : forks k' = some j) : Moves p k t (t.alloc j) k' := by
  have hne : p ≠ j := by
    rintro rfl
    rw [hj] at hp
    cases hp
  have hstate : ∀ i, ((t.alloc j).proc i).state = if i = j then .USED else (t.proc i).state := fun i =>
    state_set i j { t.proc j with pid := t.nextpid, state := .USED }
  refine ⟨fun _ => ⟨hmid, by rw [hstate, if_neg hne]⟩, fun h => absurd (hmid'.symm.trans h) nofun, fun i _ => ?_, fun i _ => ?_,
    fun i hi => .inl ?_, fun i hi => ?_⟩
  · rw [hstate]
    split
    · rename_i h
      rw [h, hj]
      exact iff_of_false nofun nofun
    · exact Iff.rfl
  · rcases eq_or_ne i j with rfl | hij
    · exact .inr ⟨hj, hlock, Function.update_self ..⟩
    · exact .inl (Function.update_of_ne hij ..)
  · rw [hstate]
    split
    · rfl
    · exact hi
  · obtain rfl : j = i := Option.some.inj (hforks.symm.trans hi)
    exact ⟨by rw [hstate, if_pos rfl], .inr hj⟩

/-- What the next instruction of process `p` at `k` can be. -/
def Spec (init : P) (table : List P) (p : P) (t : Tbl P L Ch) (k : Code P L Ch) : Instr P L Ch → Prop
  | .lock l k' => (∀ l' : Lock P L, l'.Core → (l' ∈ locks p k' ↔ l' = l ∨ l' ∈ locks p k)) ∧ Ok init table p k' ∧ Moves p k t t k'
  | .unlock l t' k' => (∀ l' : Lock P L, l'.Core → (l' ∈ locks p k' ↔ l' ≠ l ∧ l' ∈ locks p k)) ∧ Ok init table p k' ∧
      Moves p k t t' k'
  | .act t' k' => (∀ l' : Lock P L, l'.Core → (l' ∈ locks p k' ↔ l' ∈ locks p k)) ∧ Ok init table p k' ∧ Moves p k t t' k'
  | .sched k' => k = .sched k'
  | .halt => True

theorem kill_proc (i j : P) : (t.kill j).proc i = if i = j then (t.proc j).kill else t.proc i := by
  rcases eq_or_ne i j with rfl | hne
  · simp [Tbl.kill]
  · simp [Tbl.kill, hne]

section Wakeup
variable [DecidableEq Ch] {ch : Option (Chan P Ch)}

theorem wakeup_proc (i j : P) : (t.wakeup j ch).proc i = if i = j then (t.proc j).wake ch else t.proc i := by
  unfold Tbl.wakeup
  rcases eq_or_ne i j with rfl | hne
  · split
    · simp
    · rename_i h
      simp [Proc.wake, h]
  · split <;> simp [hne]

theorem wakeup_code {j : P} : (t.wakeup j ch).code = t.code := by
  unfold Tbl.wakeup
  split <;> rfl

end Wakeup

theorem fetch_spec [DecidableEq L] [DecidableEq Ch] (hok : Ok init table p k) (hstate : mid k = false → (t.proc p).state = .RUNNING)
    (hfork : ∀ j, forks k = some j → (t.proc j).state = .USED) : Spec init table p t k (fetch init table p x t k) := by
  have hsame : ∀ k', mid k' = mid k → (∀ i, forks k' = some i → forks k = some i) → Moves p k t t k' := fun k' hmid hforks =>
    .of_eq hmid hforks hfork rfl fun _ => rfl
  -- a slot that a thread makes a child in is not its own
  have hchild : mid k = false → ∀ j, forks k = some j → j ≠ p := by
    rintro hmid j hj rfl
    cases (hstate hmid).symm.trans (hfork j hj)
  cases k with
  | user =>
    cases x with
    | acquire l =>
      refine ⟨fun l' hl' => ?_, trivial, hsame _ rfl nofun⟩
      cases l' <;> simp_all [Lock.Core]
    | release l =>
      refine ⟨fun l' hl' => ?_, trivial, hsame _ rfl nofun⟩
      cases l' <;> simp_all [Lock.Core]
    | sleep ch l => exact ⟨fun _ _ => Iff.rfl, .inr ⟨ch, l, rfl, rfl, rfl⟩, hsame _ rfl nofun⟩
    | wakeup ch => exact ⟨fun _ _ => Iff.rfl, .inl ⟨⟨ch, rfl⟩, rfl⟩, hsame _ rfl nofun⟩
    | fork | exit | wait | kill | ok => exact ⟨fun _ _ => Iff.rfl, trivial, hsame _ rfl nofun⟩
  | sleepAcq ch lk k => exact ⟨fun _ _ => by simp, hok, hsame _ rfl nofun⟩
  | sleepRel ch lk k =>
    obtain ⟨_, _, _, hne, hlocks⟩ := Sleeps.place init hok
    refine ⟨fun l' hl' => ?_, hok, .of_eq rfl nofun hfork rfl fun _ => rfl⟩
    change l' ∈ [Lock.proc p] ↔ l' ≠ lk ∧ l' ∈ Lock.proc p :: lk.core
    rw [List.mem_singleton, List.mem_cons, (hlocks l' hl').2]
    refine ⟨?_, fun h => h.2.resolve_right h.1⟩
    rintro rfl
    exact ⟨hne.symm, .inl rfl⟩
  | sleepSet ch lk k =>
    exact ⟨fun _ _ => Iff.rfl, hok, .of_leave rfl nofun hfork (hstate rfl) rfl rfl nofun⟩
  | sleepOut ch lk k =>
    refine ⟨fun l' _ => ?_, hok, .of_eq rfl nofun hfork rfl fun i => ?_⟩
    · simp
    · rw [state_set]; split <;> simp_all
  | sleepLk ch lk k =>
    obtain ⟨hk, hmid, hforks, _, hlocks⟩ := Sleeps.place init hok
    refine ⟨fun l' hl' => ?_, hk, hsame _ hmid (by simp [hforks])⟩
    rw [(hlocks l' hl').1, (hlocks l' hl').2]
    simp
  | sched k => rfl
  | yieldAcq k => exact ⟨fun _ _ => by simp, hok, hsame _ rfl fun _ => id⟩
  | yieldSet k => exact ⟨fun _ _ => Iff.rfl, hok, .of_leave rfl (fun _ => id) hfork (hstate rfl) rfl rfl nofun⟩
  | yieldOut k =>
    refine ⟨fun l' _ => ?_, hok.2, hsame _ (mid_of_locks hok.1) fun _ => id⟩
    rw [hok.1]
    simp
  | wake ch js k =>
    cases js with
    | nil =>
      obtain ⟨hk, hmid, hforks, _⟩ := Wakes.place table hok
      exact ⟨fun _ _ => Iff.rfl, hk, hsame _ hmid (by simp [hforks])⟩
    | cons j js =>
      simp only [fetch]
      split
      · exact ⟨fun _ _ => Iff.rfl, hok, hsame _ rfl nofun⟩
      · exact ⟨fun _ _ => by simp, ⟨‹_›, hok⟩, hsame _ rfl nofun⟩
  | wakeIn ch j js k =>
    obtain ⟨hj, hwakes⟩ := hok
    obtain ⟨_, _, _, hno⟩ := Wakes.place table hwakes
    refine ⟨fun l' _ => ?_, hwakes, ?_⟩
    · rw [locks, locks, List.mem_cons]
      refine ⟨fun h => ⟨?_, .inr h⟩, fun h => h.2.resolve_left h.1⟩
      rintro rfl
      exact hno j h
    · refine .of_iff rfl nofun hfork wakeup_code ?_ fun i st hs hr => ?_
      · rw [wakeup_proc, if_neg hj.symm]
      · rw [wakeup_proc]
        split
        · rename_i hij
          rw [hij]
          exact Proc.state_wake hs hr
        · exact Iff.rfl
  | kill pid js =>
    cases js with
    | nil => exact ⟨fun _ _ => Iff.rfl, trivial, hsame _ rfl nofun⟩
    | cons j js => exact ⟨fun _ _ => by simp, trivial, hsame _ rfl nofun⟩
  | killIn pid j js =>
    simp only [fetch]
    split
    · refine ⟨fun _ _ => by simp, trivial, .of_iff rfl nofun hfork rfl ?_ fun i st hs hr => ?_⟩
      · rw [kill_proc]
        split
        · rename_i hpj
          rw [← hpj, Proc.kill, if_neg (by rw [hstate rfl]; nofun)]
        · rfl
      · rw [kill_proc]
        split
        · rename_i hij
          rw [hij]
          exact Proc.state_kill hs hr
        · exact Iff.rfl
    · exact ⟨fun _ _ => by simp, trivial, hsame _ rfl nofun⟩
  | fork js =>
    cases js with
    | nil => exact ⟨fun _ _ => Iff.rfl, trivial, hsame _ rfl nofun⟩
    | cons j js => exact ⟨fun _ _ => by simp, trivial, hsame _ rfl nofun⟩
  | forkIn j js =>
    simp only [fetch]
    split
    · exact ⟨fun _ _ => Iff.rfl, trivial, .of_alloc ‹_› (hstate rfl) (List.mem_cons_self ..) rfl rfl rfl⟩
    · exact ⟨fun _ _ => by simp, trivial, hsame _ rfl nofun⟩
  | forkMem j =>
    have hfail : Spec init table p t (.forkMem j) (.unlock (.proc j) (t.set j .free) .user) := by
      refine ⟨fun _ _ => by simp, trivial, ?_⟩
      exact .of_slot (hchild rfl j rfl) rfl rfl rfl (by rw [hfork j rfl]; nofun) nofun (fun _ => rfl) nofun
    cases x with
    | ok b =>
      cases b with
      | true => exact ⟨fun _ _ => by simp, trivial, hsame _ rfl fun _ => id⟩
      | false => exact hfail
    | _ => exact hfail
  | forkParent j pid => exact ⟨fun _ _ => by simp, trivial, hsame _ rfl fun _ => id⟩
  | forkParentIn j pid =>
    refine ⟨fun _ _ => by simp, trivial, .of_eq rfl (fun _ => id) hfork rfl fun i => ?_⟩
    rw [state_set]; split <;> simp_all
  | forkReady j pid => exact ⟨fun _ _ => by simp, trivial, hsame _ rfl fun _ => id⟩
  | forkReadyIn j pid =>
    refine ⟨fun _ _ => by simp, trivial, ?_⟩
    exact .of_slot (hchild rfl j rfl) rfl rfl rfl (by rw [hfork j rfl]; nofun) nofun (fun _ => rfl) nofun
  | forkret => exact ⟨fun _ _ => by simp, trivial, hsame _ rfl nofun⟩
  | exit status =>
    simp only [fetch]
    split
    · trivial
    · exact ⟨fun _ _ => by simp, ‹_›, hsame _ rfl nofun⟩
  | reparent status js =>
    cases js with
    | nil => exact ⟨fun _ _ => Iff.rfl, .inr ⟨hok, .inr ⟨status, rfl⟩⟩, hsame _ rfl nofun⟩
    | cons j js =>
      simp only [fetch]
      split
      · refine ⟨fun _ _ => Iff.rfl, .inr ⟨hok, .inl ⟨rfl, status, js, rfl⟩⟩, .of_eq rfl nofun hfork rfl fun i => ?_⟩
        rw [state_set]; split <;> simp_all
      · exact ⟨fun _ _ => Iff.rfl, hok, hsame _ rfl nofun⟩
  | exitLk status => exact ⟨fun _ _ => by simp, hok, hsame _ rfl nofun⟩
  | exitSet status => exact ⟨fun _ _ => Iff.rfl, hok, .of_leave rfl nofun hfork (hstate rfl) rfl rfl nofun⟩
  | exitRel =>
    refine ⟨fun l' _ => ?_, hok, hsame _ rfl nofun⟩
    cases l' <;> simp
  | zombie => trivial
  | wait => exact ⟨fun _ _ => by simp, trivial, hsame _ rfl nofun⟩
  | waitScan js havekids =>
    cases js with
    | nil => cases havekids <;> exact ⟨fun _ _ => Iff.rfl, trivial, hsame _ rfl nofun⟩
    | cons j js =>
      simp only [fetch]
      split <;> exact ⟨fun _ _ => Iff.rfl, trivial, hsame _ rfl nofun⟩
  | waitLk j js => exact ⟨fun _ _ => by simp, trivial, hsame _ rfl nofun⟩
  | waitIn j js =>
    have hlocks : ∀ l' : Lock P L, l' ∈ [Lock.wait] ↔ l' ≠ .proc j ∧ l' ∈ [Lock.proc j, .wait] := fun l' => by
      cases l' <;> simp
    simp only [fetch]
    split
    · rename_i hz
      have hfail : Spec init table p t (.waitIn j js) (.unlock (.proc j) t .waitRet) :=
        ⟨fun l' _ => hlocks l', trivial, hsame _ rfl nofun⟩
      have hj : j ≠ p := by
        rintro rfl
        cases (hstate rfl).symm.trans hz
      cases x with
      | ok b =>
        cases b with
        | true =>
          refine ⟨fun l' _ => hlocks l', trivial, ?_⟩
          exact .of_slot hj rfl rfl rfl (by rw [hz]; nofun) nofun (by rw [hz]; nofun) nofun
        | false => exact hfail
      | _ => exact hfail
    · exact ⟨fun l' _ => hlocks l', trivial, hsame _ rfl nofun⟩
  | waitRet => exact ⟨fun _ _ => by simp, trivial, hsame _ rfl nofun⟩
  | waitKilled => exact ⟨fun _ _ => by simp, trivial, hsame _ rfl nofun⟩
  | waitKilledIn =>
    have hlocks : ∀ l' : Lock P L, l' ∈ [Lock.wait] ↔ l' ≠ .proc p ∧ l' ∈ [Lock.proc p, .wait] := fun l' => by
      cases l' <;> simp
    simp only [fetch]
    split
    · exact ⟨fun l' _ => hlocks l', trivial, hsame _ rfl nofun⟩
    · exact ⟨fun l' _ => hlocks l', .inl ⟨rfl, rfl, rfl⟩, hsame _ rfl nofun⟩

end Xv6.Process.Kernel
