import Xv6.Process.Sleep

/-! Parents and children: `fork`, `exit` and `wait` under `wait_lock`.

    A step of a thread changes who is whose parent, or who is a zombie, in four ways only (`Kin`), and in
    each the thread holds `wait_lock`. So what a thread has found out about its children while it holds that lock
    (`Knows`) stays true: `wait` that its children looked at so far are no zombies, `exit` that those looked
    at are handed over. -/

namespace Xv6.Process.Kernel
open Option

variable {C P L Ch : Type}

/-- The slot of a child that has no parent yet. -/
def unset : Code P L Ch → Option P
  | .forkMem j | .forkParent j _ | .forkParentIn j _ => some j
  | .yieldAcq k | .yieldSet k | .yieldOut k | .sched k => unset k
  | _ => none

/-- What process `p` knows about its children at a place at which it holds `wait_lock`. -/
def Knows (t : Tbl P L Ch) (p : P) : Code P L Ch → Prop
  | .waitScan js havekids =>
    (∀ j, (t.proc j).parent = some p → (t.proc j).state = .ZOMBIE → j ∈ js) ∧
      (havekids = true → ∃ j, (t.proc j).parent = some p)
  | .waitLk j js | .waitIn j js =>
    (t.proc j).parent = some p ∧ ∀ i, (t.proc i).parent = some p → (t.proc i).state = .ZOMBIE → i ∈ j :: js
  | .waitKilled | .waitKilledIn | .sleepAcq (.proc _) _ _ | .sleepRel (.proc _) _ _ =>
    (∃ j, (t.proc j).parent = some p) ∧ ∀ j, (t.proc j).parent = some p → (t.proc j).state ≠ .ZOMBIE
  | .reparent _ js | .wake _ _ (.reparent _ js) | .wakeIn _ _ _ (.reparent _ js) => ∀ j, (t.proc j).parent = some p → j ∈ js
  | .wake _ _ (.exitLk _) | .wakeIn _ _ _ (.exitLk _) | .exitLk _ | .exitSet _ => ∀ j, (t.proc j).parent ≠ some p
  | _ => True

variable {k : Code P L Ch}

/-- It depends on the parents and on who is a zombie. -/
theorem Knows.congr {t t' : Tbl P L Ch} {p : P} (h : Knows t p k)
    (hparent : ∀ i, (t'.proc i).parent = (t.proc i).parent)
    (hzombie : ∀ i, (t'.proc i).state = .ZOMBIE ↔ (t.proc i).state = .ZOMBIE) : Knows t' p k := by
  unfold Knows at h ⊢
  simp only [hparent, ne_eq, hzombie]
  exact h

theorem knows_of_not_wait {init : P} {table : List P} {t : Tbl P L Ch} {p : P} (hok : Ok init table p k)
    (hk : .wait ∉ locks p k) : Knows t p k := by
  cases k with
  | sleepAcq ch lk k | sleepRel ch lk k =>
    rcases hok with ⟨_, rfl, _⟩ | ⟨_, _, rfl, _⟩
    · exact absurd (by simp [locks, Lock.core]) hk
    · trivial
  | wake ch js k | wakeIn ch j js k => 
    cases k with
    | reparent | exitLk => exact absurd (by simp [locks]) hk
    | _ => trivial
  | waitScan | waitLk | waitIn | waitKilled | waitKilledIn | reparent | exitLk | exitSet => exact absurd (by simp [locks]) hk
  | _ => trivial

section Kin
variable [DecidableEq P] {init : P} {table : List P} {p : P} {k' : Code P L Ch} {t t' : Tbl P L Ch}

/-- How a step of process `p` changes who is whose parent and who is a zombie. -/
inductive Kin (init : P) (table : List P) (p : P) (t t' : Tbl P L Ch) : Prop
  | same (hparent : ∀ i, (t'.proc i).parent = (t.proc i).parent)
      (hzombie : ∀ i, (t'.proc i).state = .ZOMBIE ↔ (t.proc i).state = .ZOMBIE)
  | bear (j : P) (pid : Int32) (hp : t.code p = .forkParentIn j pid)
      (hparent : ∀ i, (t'.proc i).parent = if i = j then some p else (t.proc i).parent)
      (hzombie : ∀ i, (t'.proc i).state = .ZOMBIE ↔ (t.proc i).state = .ZOMBIE)
  | adopt (status : Int32) (j : P) (js : List P) (hp : t.code p = .reparent status (j :: js))
      (hp' : t'.code p = .wake (some (.proc init)) table (.reparent status js)) (hj : (t.proc j).parent = some p)
      (hparent : ∀ i, (t'.proc i).parent = if i = j then some init else (t.proc i).parent)
      (hzombie : ∀ i, (t'.proc i).state = .ZOMBIE ↔ (t.proc i).state = .ZOMBIE)
  | exit (status : Int32) (hp : t.code p = .exitSet status) (hparent : ∀ i, (t'.proc i).parent = (t.proc i).parent)
      (hzombie : ∀ i, (t'.proc i).state = .ZOMBIE ↔ i = p ∨ (t.proc i).state = .ZOMBIE)
  | reap (j : P) (js : List P) (hp : t.code p = .waitIn j js)
      (hparent : ∀ i, (t'.proc i).parent = if i = j then none else (t.proc i).parent)
      (hzombie : ∀ i, (t'.proc i).state = .ZOMBIE ↔ i ≠ j ∧ (t.proc i).state = .ZOMBIE)

theorem parent_set (i j : P) (q : Proc P (Chan P Ch)) :
    ((t.set j q).proc i).parent = if i = j then q.parent else (t.proc i).parent := by
  rcases eq_or_ne i j with rfl | hij
  · rw [set_self, if_pos rfl]
  · rw [set_of_ne hij, if_neg hij]

/-- A slot is written with the same parent, and with a zombie for a zombie. -/
theorem Kin.of_set {j : P} {q : Proc P (Chan P Ch)} (hproc : t'.proc = (t.set j q).proc)
    (hparent : q.parent = (t.proc j).parent) (hzombie : q.state = .ZOMBIE ↔ (t.proc j).state = .ZOMBIE) :
    Kin init table p t t' := by
  refine .same (fun i => ?_) fun i => ?_
  · rw [hproc, parent_set]
    split
    · rename_i hij
      rw [hparent, hij]
    · rfl
  · rw [hproc, state_set]
    split
    · rename_i hij
      rw [hzombie, hij]
    · exact Iff.rfl

variable {i : P}

theorem Kin.parent_none (h : Kin init table p t t') (hi : (t.proc i).parent = none) :
    (t'.proc i).parent = none ∨ ∃ pid, t.code p = .forkParentIn i pid := by
  cases h with
  | same hparent | exit _ _ hparent => exact .inl ((hparent i).trans hi)
  | bear j pid hp hparent =>
    rcases eq_or_ne i j with rfl | hij
    · exact .inr ⟨pid, hp⟩
    · exact .inl ((hparent i).trans ((if_neg hij).trans hi))
  | adopt status j js hp hp' hj hparent =>
    refine .inl ((hparent i).trans ((if_neg ?_).trans hi))
    rintro rfl
    cases hi.symm.trans hj
  | reap j js hp hparent =>
    refine .inl ((hparent i).trans ?_)
    split
    · rfl
    · exact hi

/-- A child is new, is handed over to `init`, or had this parent before. -/
theorem Kin.parent_some {q : P} (h : Kin init table p t t') (hi : (t'.proc i).parent = some q) :
    (t.proc i).parent = some q ∨ (q = p ∧ ∃ pid, t.code p = .forkParentIn i pid) ∨
      q = init ∧ (t.proc i).parent = some p ∧ ∃ status js, t.code p = .reparent status js := by
  cases h with
  | same hparent | exit _ _ hparent => exact .inl ((hparent i).symm.trans hi)
  | bear j pid hp hparent =>
    rw [hparent] at hi
    split at hi
    · rename_i hij
      exact .inr (.inl ⟨(some.inj hi).symm, pid, hij ▸ hp⟩)
    · exact .inl hi
  | adopt status j js hp hp' hj hparent =>
    rw [hparent] at hi
    split at hi
    · rename_i hij
      exact .inr (.inr ⟨(some.inj hi).symm, hij ▸ hj, status, _, hp⟩)
    · exact .inl hi
  | reap j js hp hparent =>
    rw [hparent] at hi
    split at hi
    · cases hi
    · exact .inl hi

/-- Whoever changes the family holds `wait_lock`. -/
theorem Kin.cases (h : Kin init table p t t') :
    ((∀ i, (t'.proc i).parent = (t.proc i).parent) ∧ ∀ i, (t'.proc i).state = .ZOMBIE ↔ (t.proc i).state = .ZOMBIE) ∨
      .wait ∈ locks p (t.code p) := by
  cases h with
  | same hparent hzombie => exact .inl ⟨hparent, hzombie⟩
  | bear j pid hp | adopt status j js hp | exit status hp | reap j js hp =>
    rw [hp]
    exact .inr (by simp [locks])

/-- A process that does not hold `wait_lock` keeps its children. -/
theorem Kin.child_kept {q j : P} (h : Kin init table q t t') (hknows : Knows t q (t.code q))
    (hmaking : ∀ j, unset (t.code q) = some j → (t.proc j).parent = none) (hp : .wait ∉ locks p (t.code p))
    (hj : (t.proc j).parent = some p) : (t'.proc j).parent = some p := by
  have hne : .wait ∈ locks q (t.code q) → p ≠ q := by
    rintro hq rfl
    exact hp hq
  cases h with
  | same hparent | exit _ _ hparent => exact (hparent j).trans hj
  | bear i pid hq hparent =>
    refine (hparent j).trans ((if_neg ?_).trans hj)
    rintro rfl
    cases (hmaking j (by rw [hq]; rfl)).symm.trans hj
  | adopt status i js hq hq' hi hparent =>
    refine (hparent j).trans ((if_neg ?_).trans hj)
    rintro rfl
    exact hne (by rw [hq]; simp [locks]) (some.inj (hj.symm.trans hi))
  | reap i js hq hparent =>
    refine (hparent j).trans ((if_neg ?_).trans hj)
    rintro rfl
    rw [hq] at hknows hne
    exact hne (by simp [locks]) (some.inj (hj.symm.trans hknows.1))

variable [DecidableEq Ch]

theorem Next.kin (h : Next init table p t (t.code p) t' k') (hrun : mid (t.code p) = false → (t.proc p).state = .RUNNING)
    (hused : ∀ j, forks (t.code p) = some j → (t.proc j).state = .USED)
    (hunset : ∀ j, unset (t.code p) = some j → (t.proc j).parent = none) : Kin init table p t (t'.goto p k') := by
  generalize hk : t.code p = k at h hrun hused hunset
  -- a slot gets another parent
  have hparent : ∀ {j : P} {q : Option P} (i : P), ((t.set j { t.proc j with parent := q }).proc i).state = .ZOMBIE ↔
      (t.proc i).state = .ZOMBIE := fun {j q} i => by
    rw [state_set]
    split
    · rename_i hij
      rw [hij]
    · exact Iff.rfl
  cases h with
  | sleepSet => exact .of_set rfl rfl (by simp [hrun rfl])
  | sleepOut => exact .of_set rfl rfl Iff.rfl
  | yieldSet => exact .of_set rfl rfl (by simp [hrun rfl])
  | wakeIn => exact .of_set wakeup_eq_set (Proc.parent_wake ..) (Proc.state_wake nofun nofun)
  | killIn => exact .of_set rfl rfl (Proc.state_kill nofun nofun)
  | alloc j js hj => exact .of_set rfl rfl (by simp [hj])
  | unalloc j => exact .of_set rfl (hunset j rfl).symm (by simp [hused j rfl, Proc.free])
  | setParent j pid => exact .bear j pid hk (fun i => parent_set i j _) hparent
  | ready j pid => exact .of_set rfl rfl (by simp [hused j rfl])
  | adopt status j js hj => exact .adopt status j js hk goto_self hj (fun i => parent_set i j _) hparent
  | exitSet status =>
    refine .exit status hk (fun i => (parent_set i p _).trans ?_) fun i => ?_
    · split
      · rename_i hip
        rw [hip]
      · rfl
    · change ((t.set p _).proc i).state = _ ↔ _
      rw [state_set]
      split <;> simp_all
  | reap j js hj =>
    refine .reap j js hk (fun i => parent_set i j _) fun i => ?_
    change ((t.set j _).proc i).state = _ ↔ _
    rw [state_set]
    split <;> simp_all [Proc.free]
  | _ => exact .same (fun _ => rfl) fun _ => Iff.rfl

variable {k : Code P L Ch}

/-- What a thread knows at its next place. -/
theorem Next.knows_self (h : Next init table p t k t' k') (htable : ∀ j, j ∈ table)
    (hok : Ok init table p k) (hk : Knows t p k) : Knows t' p k' := by
  cases h with
  | sleepAcq ch lk k =>
    cases ch with
    | proc => exact hk
    | other => trivial
  | sleepLk ch lk k =>
    rcases hok with ⟨_, _, rfl⟩ | ⟨_, _, _, _, rfl⟩
    · exact ⟨fun j _ _ => htable j, nofun⟩
    · trivial
  | sched =>
    cases k' with
    | sleepOut | yieldOut | zombie => trivial
    | _ => exact hok.elim
  | yieldOut k => exact knows_of_not_wait hok.2 (by rw [hok.1]; nofun)
  | wakeEnd ch k | wakeSelf ch js k | wakeLk ch j js k hj =>
    rcases hok with ⟨_, rfl⟩ | ⟨_, ⟨_, _, _, rfl⟩ | ⟨_, rfl⟩⟩ <;> exact hk
  | wakeIn ch j js k =>
    have hsame : Knows t p (.wake ch js k) := by
      rcases hok with ⟨_, ⟨_, rfl⟩ | ⟨_, ⟨_, _, _, rfl⟩ | ⟨_, rfl⟩⟩⟩ <;> exact hk
    refine hsame.congr (fun i => ?_) fun i => ?_ <;> rw [wakeup_proc] <;> split <;> rename_i hij
    · rw [Proc.parent_wake, hij]
    · rfl
    · rw [hij]
      exact Proc.state_wake nofun nofun
    · exact Iff.rfl
  | exit status hp => exact fun j _ => htable j
  | reparentEnd status => exact fun j hj => by cases hk j hj
  | adopt status j js hj =>
    intro i hi
    rw [parent_set] at hi
    split at hi
    · exact absurd (some.inj hi).symm hok
    · exact (List.mem_cons.mp (hk i hi)).resolve_left ‹_›
  | reparentSkip status j js hj =>
    refine fun i hi => (List.mem_cons.mp (hk i hi)).resolve_left ?_
    rintro rfl
    exact hj hi
  | wait => exact ⟨fun j _ _ => htable j, nofun⟩
  | waitEnd => exact ⟨hk.2 rfl, fun j hj hz => by cases hk.1 j hj hz⟩
  | waitHit j js havekids hj => exact ⟨hj, hk.1⟩
  | waitSkip j js havekids hj =>
    refine ⟨fun i hi hz => (List.mem_cons.mp (hk.1 i hi hz)).resolve_left ?_, hk.2⟩
    rintro rfl
    exact hj hi
  | waitOn j js hj =>
    refine ⟨fun i hi hz => (List.mem_cons.mp (hk.2 i hi hz)).resolve_left ?_, fun _ => ⟨j, hk.1⟩⟩
    rintro rfl
    exact hj hz
  | exitLk | waitLk | waitKilled | waitSleep => exact hk
  | _ => trivial

/-- A slot is free because it was, or because it has just been freed. -/
theorem Next.unused (h : Next init table p t k t' k') (hi : (t'.proc i).state = .UNUSED) :
    (t.proc i).state = .UNUSED ∨ t'.proc i = .free := by
  have hwrite := h.write i
  generalize t'.proc i = q at hi hwrite ⊢
  cases hwrite with
  | same | tidy | parent | adopt => exact .inl hi
  | wake => exact .inl ((Proc.state_wake nofun nofun : _ = ProcState.UNUSED ↔ _).mp hi)
  | kill => exact .inl ((Proc.state_kill nofun nofun : _ = ProcState.UNUSED ↔ _).mp hi)
  | unalloc | reap => exact .inr rfl
  | _ => cases hi

def Alive (st : ProcState) : Prop := st = .SLEEPING ∨ Active st

section Step
variable (h : Next init table p t k t' k')
include h

/-- A process that lives goes on living until it exits. -/
theorem Next.alive (hused : ∀ j, forks k = some j → (t.proc j).state = .USED) (hi : Alive (t.proc i).state) :
    Alive (t'.proc i).state ∨ i = p ∧ ∃ status, k = .exitSet status := by
  have hdead : ∀ {st : ProcState}, (t.proc i).state = st → st ∈ [.UNUSED, .USED, .ZOMBIE] → False := by
    intro st hst hmem
    rw [hst] at hi
    simp only [List.mem_cons, List.not_mem_nil, or_false] at hmem
    rcases hmem with rfl | rfl | rfl <;> rcases hi with h | h | h <;> cases h
  have hwrite := h.write i
  generalize t'.proc i = q at hwrite ⊢
  cases hwrite with
  | same | tidy | parent | adopt => exact .inl hi
  | sleep => exact .inl (.inl rfl)
  | yield | ready => exact .inl (.inr (.inl rfl))
  | wake ch =>
    rcases (t.proc i).wake_eq ch with h | ⟨_, _, h⟩ <;> rw [h]
    · exact .inl hi
    · exact .inl (.inr (.inl rfl))
  | kill =>
    unfold Proc.kill
    dsimp only
    split
    · exact .inl (.inr (.inl rfl))
    · exact .inl hi
  | alloc js hk hk' hi => exact (hdead hi (by simp)).elim
  | unalloc hk => exact (hdead (hused i (by rw [hk]; rfl)) (by simp)).elim
  | exit status hi hk => exact .inr ⟨hi, status, hk⟩
  | reap js hk hi => exact (hdead hi (by simp)).elim

/-- No parent is set before its turn comes. -/
theorem Next.unset_self {j : P} (hok : Ok init table p k)
    (hfree : (t.proc j).state = .UNUSED → (t.proc j).parent = none) (hk : unset k = some j → (t.proc j).parent = none)
    (hj : unset k' = some j) : (t'.proc j).parent = none := by
  cases h with
  | sleepLk => rcases hok with ⟨_, _, rfl⟩ | ⟨_, _, _, _, rfl⟩ <;> cases hj
  | wakeEnd => rcases hok with ⟨_, rfl⟩ | ⟨_, ⟨_, _, _, rfl⟩ | ⟨_, rfl⟩⟩ <;> cases hj
  | sched | yieldAcq | yieldOut | forkMem | forkParent => exact hk hj
  | yieldSet k =>
    rw [parent_set]
    split
    · rename_i hjp
      exact hjp ▸ hk hj
    · exact hk hj
  | alloc j' js hj' =>
    obtain rfl := some.inj hj
    exact (parent_set _ _ _).trans ((if_pos rfl).trans (hfree hj'))
  | _ => cases hj

/-- A child without a parent gets one, is given up or remains so. -/
theorem Next.unset_lost {j : P} (hk : unset k = some j) :
    unset k' = some j ∨ (t'.proc j).state = .UNUSED ∨ (t'.proc j).parent = some p := by
  cases h with
  | sched | yieldAcq | yieldSet | yieldOut | forkMem | forkParent => exact .inl hk
  | unalloc j' =>
    obtain rfl := some.inj hk
    exact .inr (.inl (by rw [set_self]; rfl))
  | setParent j' pid =>
    obtain rfl := some.inj hk
    exact .inr (.inr (by rw [set_self]))
  | _ => cases hk

/-- Only a slot that is freed loses its parent. -/
theorem Next.parent_lost (hi : (t'.proc i).parent = none) :
    (t.proc i).parent = none ∨ (t'.proc i).state = .UNUSED := by
  have hwrite := h.write i
  generalize t'.proc i = q at hi hwrite ⊢
  cases hwrite with
  | wake => exact .inl (Proc.parent_wake.symm.trans hi)
  | parent | adopt => cases hi
  | unalloc | reap => exact .inr rfl
  | _ => exact .inl hi

/-- A slot that gets used is that of a child without a parent. -/
theorem Next.unused_lost (hrun : mid k = false → (t.proc p).state = .RUNNING) (hused : ∀ j, forks k = some j → (t.proc j).state = .USED)
    (hi : (t.proc i).state = .UNUSED) : (t'.proc i).state = .UNUSED ∨ unset k' = some i := by
  have hwrite := h.write i
  generalize t'.proc i = q at hwrite ⊢
  cases hwrite with
  | same | tidy | parent | adopt => exact .inl hi
  | wake => exact .inl ((Proc.state_wake nofun nofun : _ = ProcState.UNUSED ↔ _).mpr hi)
  | kill => exact .inl ((Proc.state_kill nofun nofun : _ = ProcState.UNUSED ↔ _).mpr hi)
  | sleep _ _ _ hip hk | yield _ hip hk | exit _ hip hk =>
    subst hip
    cases hi.symm.trans (hrun (by rw [hk]; rfl))
  | alloc js hk hk' => exact .inr (by rw [hk']; rfl)
  | ready pid hk => cases hi.symm.trans (hused i (by rw [hk]; rfl))
  | unalloc | reap => exact .inl rfl

end Step

end Kin

/-- The process tree. -/
structure Tree (init : P) (t : Tbl P L Ch) : Prop where
  free : ∀ j, (t.proc j).state = .UNUSED → (t.proc j).parent = none
  making : ∀ q j, unset (t.code q) = some j → (t.proc j).parent = none
  alive : ∀ j q, (t.proc j).parent = some q → Alive (t.proc q).state
  root : Alive (t.proc init).state
  orphan : ∀ j, j ≠ init → (t.proc j).state ≠ .UNUSED → (t.proc j).parent = none → ∃ q, unset (t.code q) = some j

/-- The tree depends on the parents, on who is free and who lives, and on the children without a parent. -/
theorem Tree.congr {init : P} {t t' : Tbl P L Ch} (h : Tree init t) (hparent : ∀ i, (t'.proc i).parent = (t.proc i).parent)
    (hunused : ∀ i, (t'.proc i).state = .UNUSED ↔ (t.proc i).state = .UNUSED)
    (halive : ∀ i, Alive (t.proc i).state → Alive (t'.proc i).state) (hunset : ∀ q, unset (t'.code q) = unset (t.code q)) :
    Tree init t' where
  free := fun j hj => (hparent j).trans (h.free j ((hunused j).mp hj))
  making := fun q j hj => (hparent j).trans (h.making q j ((hunset q).symm.trans hj))
  alive := fun j q hj => halive q (h.alive j q ((hparent j).symm.trans hj))
  root := halive init h.root
  orphan := fun j hj hst hp => by
    obtain ⟨q, hq⟩ := h.orphan j hj (mt (hunused j).mpr hst) ((hparent j).symm.trans hp)
    exact ⟨q, (hunset q).trans hq⟩

theorem forks_of_unset {j : P} (h : unset k = some j) : forks k = some j := by
  induction k with
  | forkMem | forkParent | forkParentIn => exact h
  | yieldAcq k ih | yieldSet k ih | yieldOut k ih | sched k ih => exact ih h
  | _ => cases h

theorem unset_strip (k : Code P L Ch) : unset k.strip = unset k := by
  induction k with
  | yieldAcq k ih | yieldSet k ih | yieldOut k ih | sched k ih => exact ih
  | _ => rfl

/-- A process that makes a child is not free. -/
theorem Placed.used_of_unset {r : Proc P (Chan P Ch)} {w : Option (Cause P Ch)} {j : P} (h : Placed r w k)
    (hk : unset k = some j) : r.state ≠ .UNUSED := by
  intro hr
  rcases h.cases with hact | ⟨_, _, _, _, rfl, _⟩ | ⟨rfl, _⟩ | ⟨rfl | rfl, _⟩
  · rw [hr] at hact
    rcases hact with h | h <;> cases h
  all_goals cases hk

section Tree
variable [DecidableEq P] [DecidableEq Ch] {init : P} {table : List P} {s s' : St C P L Ch}

/-- The table as `fork`, `exit` and `wait` rely on it. -/
structure Family (init : P) (table : List P) (s : St C P L Ch) : Prop where
  inv : Inv init table s
  placed : AllPlaced s.tbl
  tree : Tree init s.tbl
  knows : ∀ q, Knows s.tbl q (s.tbl.code q)

theorem Effect.kin (h : Family init table s) (he : Effect init table s s') : ∃ p, Kin init table p s.tbl s'.tbl := by
  cases he with
  | idle htbl | timer _ _ _ _ _ htbl =>
    rw [htbl]
    exact ⟨init, .same (fun _ => rfl) fun _ => Iff.rfl⟩
  | pick c j hlock hj htbl =>
    rw [htbl]
    exact ⟨init, .of_set rfl rfl (by simp [hj])⟩
  | move c p js t' k' hth hnext htbl =>
    rw [htbl]
    exact ⟨p, hnext.kin (h.inv.runs hth).2.running (h.inv.used p) (h.tree.making p)⟩

theorem Effect.knows (h : Family init table s) (htable : ∀ j, j ∈ table) (he : Effect init table s s') (q : P) :
    Knows s'.tbl q (s'.tbl.code q) := by
  cases he with
  | idle htbl =>
    rw [htbl]
    exact h.knows q
  | pick c j hlock hj htbl =>
    rw [htbl]
    refine (h.knows q).congr (fun i => ?_) fun i => ?_
    · rw [parent_set]
      split <;> simp_all
    · rw [state_set]
      split <;> simp_all
  | timer c p js hth hlocks htbl =>
    rw [htbl]
    rcases eq_or_ne q p with rfl | hqp
    · rw [goto_self]
      trivial
    · rw [goto_of_ne hqp]
      exact (h.knows q).congr (fun _ => rfl) fun _ => Iff.rfl
  | move c p js t' k' hth hnext htbl =>
    rw [htbl]
    have hruns := (h.inv.runs hth).2
    rcases eq_or_ne q p with rfl | hqp
    · rw [goto_self]
      exact (hnext.knows_self htable hruns.ok (h.knows q)).congr (fun _ => rfl) fun _ => Iff.rfl
    · rw [goto_of_ne hqp]
      rcases hnext.code_other (i := q) with hsame | ⟨_, hfork⟩
      · rw [hsame]
        by_cases hwait : .wait ∈ locks q (s.tbl.code q)
        · rcases (hnext.kin hruns.running (h.inv.used p) (h.tree.making p)).cases with ⟨hparent, hzombie⟩ | hp
          · exact (h.knows q).congr hparent hzombie
          · exact absurd (h.inv.wait_unique hwait hp) hqp
        · exact knows_of_not_wait h.inv.ok hwait
      · rw [hfork]
        trivial

theorem Effect.tree (h : Family init table s) (he : Effect init table s s') : Tree init s'.tbl := by
  cases he with
  | idle htbl =>
    rw [htbl]
    exact h.tree
  | pick c j hlock hj htbl =>
    rw [htbl]
    refine h.tree.congr (fun i => ?_) (fun i => ?_) (fun i hi => ?_) fun q => rfl
    · rw [parent_set]
      split <;> simp_all
    · rw [state_set]
      split <;> simp_all
    · rw [state_set]
      split
      · exact .inr (.inr rfl)
      · exact hi
  | timer c p js hth hlocks htbl =>
    rw [htbl]
    refine h.tree.congr (fun _ => rfl) (fun _ => Iff.rfl) (fun _ => id) fun q => ?_
    rcases eq_or_ne q p with rfl | hqp
    · rw [goto_self]
      rfl
    · rw [goto_of_ne hqp]
  | move c p js t' k' hth hnext htbl =>
    rw [htbl]
    have hruns := (h.inv.runs hth).2
    have hkin := hnext.kin hruns.running (h.inv.used p) (h.tree.making p)
    -- the codes of other processes that make a child
    have hother : ∀ q ≠ p, ∀ j, unset (t'.code q) = some j → unset (s.tbl.code q) = some j := fun q _ j hj => by
      rcases hnext.code_other (i := q) with hsame | ⟨_, hfork⟩
      · exact hsame ▸ hj
      · rw [hfork] at hj
        cases hj
    have hnone : ∀ q ≠ p, ∀ j, unset (s.tbl.code q) = some j → ((t'.goto p k').proc j).parent = none := fun q hqp j hj => by
      refine (hkin.parent_none (h.tree.making q j hj)).resolve_right fun ⟨pid, hp⟩ => hqp ?_
      exact h.inv.maker q p j (forks_of_unset hj) (by rw [hp]; rfl)
    have hlives : ∀ i, Alive (s.tbl.proc i).state → (∀ status, s.tbl.code i ≠ .exitSet status) → Alive (t'.proc i).state :=
      fun i hi hexit => (hnext.alive (h.inv.used p) hi).resolve_right fun ⟨hip, status, hk⟩ => hexit status (hip ▸ hk)
    refine ⟨fun j hj => ?_, fun q j hj => ?_, fun j q hj => ?_, ?_, fun j hj hst hpar => ?_⟩
    · rcases hnext.unused hj with hunused | hfree
      · refine (hkin.parent_none (h.tree.free j hunused)).resolve_right fun ⟨pid, hp⟩ => ?_
        cases (h.inv.used p j (by rw [hp]; rfl)).symm.trans hunused
      · exact congrArg Proc.parent hfree
    · rcases eq_or_ne q p with rfl | hqp
      · rw [goto_self] at hj
        exact hnext.unset_self hruns.ok (h.tree.free j) (h.tree.making q j) hj
      · rw [goto_of_ne hqp] at hj
        exact hnone q hqp j (hother q hqp j hj)
    · rcases hkin.parent_some hj with hold | ⟨rfl, pid, hp⟩ | ⟨rfl, _, status, js, hp⟩
      · refine (hnext.alive (h.inv.used p) (h.tree.alive j q hold)).resolve_right ?_
        rintro ⟨rfl, status, hk⟩
        have hknows := h.knows q
        rw [hk] at hknows
        exact hknows j hold
      · exact hlives q (.inr (.inr (hruns.running (by rw [hp]; rfl)))) (by rw [hp]; nofun)
      · refine (hnext.alive (h.inv.used p) h.tree.root).resolve_right ?_
        rintro ⟨_, status', hk⟩
        cases hp.symm.trans hk
    · refine (hnext.alive (h.inv.used p) h.tree.root).resolve_right ?_
      rintro ⟨hip, status, hk⟩
      have hok := hruns.ok
      rw [hk] at hok
      exact hok hip.symm
    · -- a slot that is in use and has no parent
      by_cases hunused : (s.tbl.proc j).state = .UNUSED
      · have hk' := (hnext.unused_lost hruns.running (h.inv.used p) hunused).resolve_left hst
        exact ⟨p, by rw [goto_self]; exact hk'⟩
      · cases hold : (s.tbl.proc j).parent with
        | some q => exact absurd ((hnext.parent_lost hpar).resolve_left (by rw [hold]; nofun)) hst
        | none =>
          obtain ⟨q, hq⟩ := h.tree.orphan j hj hunused hold
          rcases eq_or_ne q p with rfl | hqp
          · refine ⟨q, ?_⟩
            rw [goto_self]
            refine (hnext.unset_lost hq).resolve_right ?_
            rintro (h | h)
            · exact hst h
            · cases hpar.symm.trans h
          · refine ⟨q, ?_⟩
            rw [goto_of_ne hqp]
            rcases hnext.code_other (i := q) with hsame | ⟨hfree, _⟩
            · rw [hsame]
              exact hq
            · exact absurd hfree ((h.placed q).used_of_unset ((unset_strip _).trans hq))

theorem Effect.family (htable : ∀ j, j ∈ table) (h : Family init table s) (hinv : Inv init table s')
    (he : Effect init table s s') : Family init table s' :=
  ⟨hinv, he.placed h.inv h.placed, he.tree h, he.knows h htable⟩

variable [DecidableEq C] [DecidableEq L] {as : List (Act C L Ch)}

omit [DecidableEq C] [DecidableEq L] [DecidableEq Ch] in
theorem family_boot : Family init table (boot init : St C P L Ch) := by
  have hproc : ∀ i ≠ init, (boot init : St C P L Ch).tbl.proc i = .free := fun i hi => by simp [boot, hi]
  have hparent : ∀ i, ((boot init : St C P L Ch).tbl.proc i).parent = none := fun i => by
    rcases eq_or_ne i init with rfl | hi
    · simp [boot, Proc.free]
    · rw [hproc i hi]
      rfl
  refine ⟨inv_boot, placed_boot, ⟨fun j _ => hparent j, by rintro _ _ ⟨⟩, fun j q hj => ?_, .inr (.inl (by simp [boot])), fun j hj hst => ?_⟩,
    fun q => trivial⟩
  · cases (hparent j).symm.trans hj
  · rw [hproc j hj] at hst
    exact absurd rfl hst

end Tree

end Xv6.Process.Kernel
