import Xv6.Process.Family

/-! `wait` never misses an exit.

    A process that rests in `wait` has looked at all its children under `wait_lock` and has found no zombie. A
    child that exits wakes it under the same lock before it becomes a zombie; a child that is handed over to
    `init` may be a zombie already, and then `init` is woken before the lock is given back. So as long as a
    process rests and has a zombie child, the holder of `wait_lock` is on its way to wake it. -/

namespace Xv6.Process.Kernel

variable {C P L Ch : Type}

/-- In `exit`, from the wakeup of the parent to the change of state. -/
def Leaving : Code P L Ch → Prop
  | .wake _ _ k | .wakeIn _ _ _ k => ∃ status, k = .exitLk status
  | .exitLk _ | .exitSet _ => True
  | _ => False

structure Rests (t : Tbl P L Ch) : Prop where
  child : ∀ p, Resting t p (.proc p) → ∃ j, (t.proc j).parent = some p
  zombie : ∀ p j, Resting t p (.proc p) → (t.proc j).parent = some p → (t.proc j).state = .ZOMBIE →
    ∃ q, Scans (.proc p) p (t.code q).strip
  leave : ∀ q p, Leaving (t.code q) → (t.proc q).parent = some p → Resting t p (.proc p) →
    Scans (.proc p) p (t.code q).strip

attribute [local simp] locks

section Places
variable {init : P} {table : List P} {p q : P} {k : Code P L Ch}

/-- Only `exit` wakes up processes by name. -/
theorem wait_of_scans (hok : Ok init table q k) (h : Scans (.proc p) p k.strip) : .wait ∈ locks q k := by
  induction k with
  | wake ch js k =>
    rcases hok with ⟨⟨_, rfl⟩, _⟩ | ⟨_, ⟨_, _, _, rfl⟩ | ⟨_, rfl⟩⟩
    · cases h.1
    all_goals simp
  | wakeIn ch j js k =>
    rcases hok with ⟨_, ⟨⟨_, rfl⟩, _⟩ | ⟨_, ⟨_, _, _, rfl⟩ | ⟨_, rfl⟩⟩⟩
    · cases h.1
    all_goals simp
  | yieldAcq k ih | yieldSet k ih | yieldOut k ih =>
    have := ih hok.2 h
    rw [hok.1] at this
    cases this
  | sched k ih =>
    have hparked := parked_of_sched hok
    have := ih hparked.ok h
    rw [hparked.locks.1] at this
    simp at this
  | _ => exact h.elim

theorem wait_of_leaving (h : Leaving k) : .wait ∈ locks q k ∧ k.strip = k := by
  cases k with
  | wake ch js k | wakeIn ch j js k =>
    obtain ⟨status, rfl⟩ := h
    exact ⟨by simp, rfl⟩
  | exitLk | exitSet => exact ⟨by simp, rfl⟩
  | _ => exact h.elim

theorem not_wait_of_sleepOut {ch : Chan P Ch} {lk : Lock P L} {k₀ : Code P L Ch} (h : k.strip = .sleepOut ch lk k₀) :
    .wait ∉ locks p k := by
  cases k with
  | sleepOut | yieldAcq | yieldSet | yieldOut | sched => simp
  | _ => cases h

theorem Resting.not_wait {t : Tbl P L Ch} {ch : Chan P Ch} (h : Resting t p ch) (hp : AllPlaced t) : .wait ∉ locks p (t.code p) := by
  rcases h with ⟨lk, k, hk⟩ | ⟨hs, _⟩
  · rw [hk]
    simp
  · obtain ⟨ch, lk, k, hk, _⟩ := (hp p).sleeping hs
    exact not_wait_of_sleepOut hk

end Places

section Step
variable [DecidableEq P] [DecidableEq Ch] {init : P} {table : List P} {p : P} {k k' : Code P L Ch} {t t' : Tbl P L Ch}

/-- How a process comes to wake its parent. -/
theorem Next.leaving (h : Next init table p t k t' k') (hok : Ok init table p k) (hk' : Leaving k') :
    Leaving k ∨ t' = t ∧ (∃ status, k = .reparent status []) ∧
      ∃ status, k' = .wake ((t.proc p).parent.map .proc) table (.exitLk status) := by
  cases h with
  | sleepLk => rcases hok with ⟨_, _, rfl⟩ | ⟨_, _, _, _, rfl⟩ <;> exact hk'.elim
  | sched =>
    cases k' with
    | sleepOut | yieldOut | zombie => exact hk'.elim
    | _ => exact hok.elim
  | yieldOut =>
    have := (wait_of_leaving (q := p) hk').1
    rw [hok.1] at this
    cases this
  | wakeEnd =>
    rcases hok with ⟨_, rfl⟩ | ⟨_, ⟨_, _, _, rfl⟩ | ⟨_, rfl⟩⟩
    · exact hk'.elim
    · exact hk'.elim
    · exact .inl ⟨_, rfl⟩
  | wakeSelf | wakeLk => exact .inl hk'
  | wakeIn ch j js k => exact .inl hk'
  | reparentEnd status => exact .inr ⟨rfl, ⟨status, rfl⟩, status, rfl⟩
  | exitLk => exact .inl trivial
  | callWakeup | adopt => cases hk'.choose_spec
  | _ => exact hk'.elim

end Step

section Run
variable [DecidableEq P] [DecidableEq Ch] {init : P} {table : List P} {s s' : St C P L Ch} {p q : P}

omit [DecidableEq P] [DecidableEq Ch] in
/-- While another process holds `wait_lock` and wakes nobody, no process that rests has a zombie child. -/
theorem Rests.no_zombie (h : Rests s.tbl) (hinv : Inv init table s) (hq : .wait ∈ locks q (s.tbl.code q))
    (hscan : ¬ Scans (.proc p) p (s.tbl.code q).strip) (hp : Resting s.tbl p (.proc p)) (j : P)
    (hj : (s.tbl.proc j).parent = some p) : (s.tbl.proc j).state ≠ .ZOMBIE := fun hz => by
  obtain ⟨q', hq'⟩ := h.zombie p j hp hj hz
  obtain rfl := hinv.wait_unique hq (wait_of_scans hinv.ok hq')
  exact hscan hq'

theorem Effect.rests_zombie (hf : Family init table s) (h : Rests s.tbl) (htable : ∀ j, j ∈ table) (he : Effect init table s s')
    (hp : Resting s.tbl p (.proc p)) (hp' : Resting s'.tbl p (.proc p)) (j : P) (hj : (s'.tbl.proc j).parent = some p)
    (hz : (s'.tbl.proc j).state = .ZOMBIE) : ∃ q, Scans (.proc p) p (s'.tbl.code q).strip := by
  obtain ⟨q, hkin⟩ := he.kin hf
  have hnot := hp.not_wait hf.placed
  cases hkin with
  | same hparent hzombie =>
    rw [hparent] at hj
    obtain ⟨r, hr⟩ := h.zombie p j hp hj ((hzombie j).mp hz)
    exact ⟨r, he.scans hf.inv hf.placed hp hp' hr⟩
  | bear i pid hq hparent hzombie =>
    have hwait : .wait ∈ locks q (s.tbl.code q) := by rw [hq]; simp
    rw [hparent] at hj
    split at hj
    · exact absurd (Option.some.inj hj ▸ hwait) hnot
    · exact absurd ((hzombie j).mp hz) (h.no_zombie hf.inv hwait (by rw [hq]; exact id) hp j hj)
  | adopt status i js hq hq' hi hparent hzombie =>
    have hwait : .wait ∈ locks q (s.tbl.code q) := by rw [hq]; simp
    rw [hparent] at hj
    split at hj
    · -- the child of another process becomes one of `init`
      obtain rfl := Option.some.inj hj
      exact ⟨q, by rw [hq']; exact ⟨rfl, htable _⟩⟩
    · exact absurd ((hzombie j).mp hz) (h.no_zombie hf.inv hwait (by rw [hq]; exact id) hp j hj)
  | exit status hq hparent hzombie =>
    have hwait : .wait ∈ locks q (s.tbl.code q) := by rw [hq]; simp
    rw [hparent] at hj
    rcases (hzombie j).mp hz with rfl | hz
    · -- the parent of a process that exits does not rest any more
      have hscan := h.leave j p (by rw [hq]; trivial) hj hp
      rw [hq] at hscan
      exact hscan.elim
    · exact absurd hz (h.no_zombie hf.inv hwait (by rw [hq]; exact id) hp j hj)
  | reap i js hq hparent hzombie =>
    have hwait : .wait ∈ locks q (s.tbl.code q) := by rw [hq]; simp
    obtain ⟨hji, hz⟩ := (hzombie j).mp hz
    rw [hparent, if_neg hji] at hj
    exact absurd hz (h.no_zombie hf.inv hwait (by rw [hq]; exact id) hp j hj)

theorem Effect.leaving (h : Inv init table s) (he : Effect init table s s') (hq : Leaving (s'.tbl.code q)) :
    Leaving (s.tbl.code q) ∨ s'.tbl.proc = s.tbl.proc ∧
      ∃ status, s'.tbl.code q = .wake ((s.tbl.proc q).parent.map .proc) table (.exitLk status) := by
  cases he with
  | idle htbl | pick _ _ _ _ htbl =>
    rw [htbl] at hq
    exact .inl hq
  | timer c p js hth hlocks htbl =>
    rw [htbl] at hq
    rcases eq_or_ne q p with rfl | hqp
    · rw [goto_self] at hq
      exact hq.elim
    · rw [goto_of_ne hqp] at hq
      exact .inl hq
  | move c p js t' k' hth hnext htbl =>
    rw [htbl] at hq ⊢
    rcases eq_or_ne q p with rfl | hqp
    · rw [goto_self] at hq ⊢
      rcases hnext.leaving (h.runs hth).2.ok hq with hold | ⟨rfl, _, hk'⟩
      · exact .inl hold
      · exact .inr ⟨rfl, hk'⟩
    · rw [goto_of_ne hqp] at hq
      rcases hnext.code_other (i := q) with hsame | ⟨_, hfork⟩
      · exact .inl (hsame ▸ hq)
      · rw [hfork] at hq
        exact hq.elim

theorem Effect.rests (hf : Family init table s) (htable : ∀ j, j ∈ table) (he : Effect init table s s') (h : Rests s.tbl) :
    Rests s'.tbl := by
  obtain ⟨m, hkin⟩ := he.kin hf
  -- a process that begins to rest has looked at its children
  have hnew : ∀ p lk k, s.tbl.code p = .sleepRel (.proc p) lk k → .wait ∈ locks p (s.tbl.code p) ∧
      (∃ j, (s.tbl.proc j).parent = some p) ∧ ∀ j, (s.tbl.proc j).parent = some p → (s.tbl.proc j).state ≠ .ZOMBIE :=
    fun p lk k hk => by
      have hknows := hf.knows p
      have hok := hf.inv.ok (q := p)
      rw [hk] at hknows hok ⊢
      rcases hok with ⟨_, rfl, _⟩ | ⟨_, _, hch, _⟩
      · exact ⟨by simp [Lock.core], hknows⟩
      · cases hch
  refine ⟨fun p hp => ?_, fun p j hp hj hz => ?_, fun q p hq hpar hp => ?_⟩
  · rcases he.resting hf.inv hp with ⟨hp, _⟩ | ⟨_, hproc, lk, k, hk⟩
    · obtain ⟨j, hj⟩ := h.child p hp
      exact ⟨j, hkin.child_kept (hf.knows m) (hf.tree.making m) (hp.not_wait hf.placed) hj⟩
    · rw [hproc]
      exact (hnew p lk k hk).2.1
  · rcases he.resting hf.inv hp with ⟨hold, _⟩ | ⟨_, hproc, lk, k, hk⟩
    · exact he.rests_zombie hf h htable hold hp j hj hz
    · rw [hproc] at hj hz
      exact absurd hz ((hnew p lk k hk).2.2 j hj)
  · rcases he.leaving hf.inv hq with hold | ⟨hproc, status, hcode⟩
    · have hwait := (wait_of_leaving (q := q) hold).1
      rcases he.resting hf.inv hp with ⟨hrest, _⟩ | ⟨_, _, lk, k, hk⟩
      · refine he.scans hf.inv hf.placed hrest hp (h.leave q p hold ?_ hrest)
        cases hkin with
        | same hparent | exit _ _ hparent => exact (hparent q).symm.trans hpar
        | bear _ _ hm | adopt _ _ _ hm | reap _ _ hm =>
          have hwait' : .wait ∈ locks m (s.tbl.code m) := by rw [hm]; simp
          obtain rfl := hf.inv.wait_unique hwait hwait'
          rw [hm] at hold
          exact hold.elim
      · obtain rfl := hf.inv.wait_unique hwait (hnew p lk k hk).1
        rw [hk] at hold
        exact hold.elim
    · rw [hproc] at hpar
      rw [hcode, hpar]
      exact ⟨rfl, htable p⟩

variable [DecidableEq C] [DecidableEq L] {as : List (Act C L Ch)}

theorem rests_run (htable : ∀ j, j ∈ table) (hrun : Run.run (step init table) (boot init) as = some s) :
    Family init table s ∧ Rests s.tbl := by
  refine Run.run_invariant (I := fun s => Family init table s ∧ Rests s.tbl) (fun s a s' h hs => ?_) ⟨family_boot, ?_⟩ hrun
  · have he := h.1.inv.effect hs
    exact ⟨he.family htable h.1 (h.1.inv.step hs), he.rests h.1 htable h.2⟩
  · have hrest : ∀ (p : P) (ch : Chan P Ch), ¬ Resting (boot init : St C P L Ch).tbl p ch := fun p ch h => by
      rcases h with ⟨_, _, hk⟩ | ⟨hs, _⟩
      · cases hk
      · exact (placed_boot (C := C) (L := L) p).1 hs
    exact ⟨fun p hp => absurd hp (hrest p _), fun p _ hp => absurd hp (hrest p _), fun _ p _ _ hp => absurd hp (hrest p _)⟩

/-- `wait` NEVER MISSES AN EXIT: in every state of every run in which `wait_lock` is free, a process that sleeps
    on itself, inside `wait`, has a child, and none of its children is a zombie. -/
theorem wait_misses_nothing (htable : ∀ j, j ∈ table) (hrun : Run.run (step init table) (boot init) as = some s)
    (hfree : s.owner .wait = none) :
    ∀ p, (s.tbl.proc p).state = .SLEEPING → (s.tbl.proc p).chan = some (.proc p) →
      (∃ j, (s.tbl.proc j).parent = some p) ∧ ∀ j, (s.tbl.proc j).parent = some p → (s.tbl.proc j).state ≠ .ZOMBIE := by
  intro p hs hc
  obtain ⟨hf, h⟩ := rests_run htable hrun
  have hp : Resting s.tbl p (.proc p) := .inr ⟨hs, hc⟩
  refine ⟨h.child p hp, fun j hj hz => ?_⟩
  obtain ⟨q, hq⟩ := h.zombie p j hp hj hz
  exact hf.inv.wait_free hfree q (wait_of_scans hf.inv.ok hq)

end Run

attribute [local instance] neZero_two in
/-- `init` forks a process and waits for it. -/
def initWaits : List (Act (Fin 2) Unit Unit) :=
  startInit ++ .cpu 0 .fork :: List.replicate 9 (.cpu 0 (.ok true)) ++ .cpu 0 .wait :: List.replicate 13 (.cpu 0 (.ok true))

theorem wait_misses_nothing_initWaits : ∃ s : St (Fin 2) (Fin 3) Unit Unit,
    Run.run (step 0 [0, 1, 2]) (boot 0) initWaits = some s ∧
    (s.tbl.proc 0).state = .SLEEPING ∧ ∀ j, (s.tbl.proc j).parent = some 0 → (s.tbl.proc j).state ≠ .ZOMBIE := by
  have hrun : (Run.run (step 0 [0, 1, 2]) (boot 0 : St (Fin 2) (Fin 3) Unit Unit) initWaits).map
      (fun s => (s.owner .wait, (s.tbl.proc 0).state, (s.tbl.proc 0).chan)) = some (none, .SLEEPING, some (.proc 0)) := rfl
  obtain ⟨s, hs, hstate⟩ := Option.map_eq_some_iff.mp hrun
  simp only [Prod.mk.injEq] at hstate
  obtain ⟨hfree, hsleep, hchan⟩ := hstate
  exact ⟨s, hs, hsleep, (wait_misses_nothing (by decide) hs hfree 0 hsleep hchan).2⟩

end Xv6.Process.Kernel
