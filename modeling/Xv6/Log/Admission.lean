import Xv6.Log.Group

/-! `kernel/log.c` and `mkfs/mkfs.c`: does `begin_op` admit only what `log_write` can take?

    `begin_op` reserves `MAXOPBLOCKS` of `LOGSIZE` blocks for each operation, and `mkfs` writes
    `nlog = LOGSIZE`, so `log.size = LOGSIZE` blocks hold the header and `LOGSIZE - 1` data blocks.
    `log_write` stops the machine as soon as `log.size - 1` blocks are in the log, before it looks
    whether the block is already there. Three full operations need one block more than that.

    What decides is the sequence of `log_write` calls between two commits (a group): no call panics
    exactly when the calls before the last one name at most `LOGSIZE - 2` different blocks. -/

namespace Xv6.Log
open Run

variable {P : Type} [DecidableEq P]

/-- The blocks passed to `log_write`, in order, split where commits end; `g` is the group so far. -/
def groupsFrom (g : List Nat) : List (P × Act) → List (List Nat)
  | [] => [g]
  | (_, .logWrite b) :: as => groupsFrom (g ++ [b]) as
  | (_, .endCommit) :: as => g :: groupsFrom [] as
  | (_, .beginOp) :: as | (_, .endOp) :: as | (_, .commit) :: as => groupsFrom g as

/-- Every call of the group but its last finds room when `log.size = size`. -/
def Fits (size : Nat) (g : List Nat) : Prop := g.dropLast.toFinset.card < size - 1

instance (size : Nat) (g : List Nat) : Decidable (Fits size g) := inferInstanceAs (Decidable (_ < _))

/-- Each operation passes at most `MAXOPBLOCKS` different blocks to `log_write`; `cur p` are those of
    the operation that `p` runs. -/
def OpsBounded (cur : P → List Nat) : List (P × Act) → Bool
  | [] => true
  | (p, .beginOp) :: as => OpsBounded (Function.update cur p []) as
  | (p, .logWrite b) :: as =>
    decide ((b :: cur p).dedup.length ≤ MAXOPBLOCKS) &&
      OpsBounded (Function.update cur p (b :: cur p)) as
  | _ :: as => OpsBounded cur as

variable {size b : Nat} {g : List Nat}

omit [DecidableEq P] in
theorem fits_of_append :
    Fits size (g ++ [b]) ↔ g.toFinset.card < size - 1 := by
  rw [Fits, List.dropLast_concat]

theorem run_panicked {s s' : St P} {as : List (P × Act)} (hs : s.panic.isSome)
    (h : run (step size) s as = some s') : as = [] ∧ s' = s := by
  cases as with
  | nil => exact ⟨rfl, (Option.some.inj h).symm⟩
  | cons a as =>
    obtain ⟨s₁, h₁, _⟩ := run_cons h
    simp [step, hs] at h₁

theorem commitStep_frame {s s' : St P} {p : P} (h : commitStep s p = some s') :
    (s.pc p).committer = true ∧ s'.panic = s.panic ∧ s'.committing = s.committing := by
  unfold commitStep at h
  split at h <;> (try split at h) <;> simp only [Option.some.injEq, reduceCtorEq] at h <;> subst h <;>
    exact ⟨by simp_all [Pc.committer], rfl, rfl⟩

variable [Fintype P]

/-- A step that is neither `log_write` nor the end of a commit leaves the logged blocks alone, as far
    as anyone outside a commit can see. -/
theorem step_other {s s' : St P} {p : P} {a : Act} (hinv : Inv s)
    (ha : a = .beginOp ∨ a = .endOp ∨ a = .commit) (h : step size s (p, a) = some s') :
    s'.panic = none ∧ (s'.committing = false → s.committing = false ∧ s'.block = s.block) := by
  obtain ⟨hrun, heff⟩ := step_effect h
  rcases ha with rfl | rfl | rfl
  · obtain ⟨_, rfl⟩ := heff
    unfold beginOp
    split <;> [skip; split] <;> exact ⟨hrun, fun hc => ⟨hc, rfl⟩⟩
  · obtain ⟨hp, rfl⟩ := heff
    have hquiet := hinv.quiet_of_inOp hp
    rw [endOp, if_neg (by simp [hquiet])]
    split <;> exact ⟨hrun, fun _ => ⟨hquiet, rfl⟩⟩
  · obtain ⟨hcom, hpanic, hsame⟩ := commitStep_frame heff
    refine ⟨hpanic.trans hrun, fun hc => ?_⟩
    rw [hsame, hinv.committing_of_committer hcom] at hc
    cases hc

/-- `log_write` panics exactly when the group already fills the log. -/
theorem step_logWrite {s s' : St P} {p : P} (hinv : Inv s)
    (hg : s.committing = false → s.block.toFinset = g.toFinset)
    (h : step LOGSIZE s (p, .logWrite b) = some s') :
    (s'.panic = some .tooBig ∧ ¬ Fits LOGSIZE (g ++ [b])) ∨
    (s'.panic = none ∧ Fits LOGSIZE (g ++ [b]) ∧ s'.block.toFinset = (g ++ [b]).toFinset) := by
  obtain ⟨hrun, hp, rfl⟩ := step_effect h
  have hblock := hg (hinv.quiet_of_inOp hp)
  have hlen : g.toFinset.card = s.block.length := by
    rw [← hblock, List.toFinset_card_of_nodup hinv.nodup]
  rw [fits_of_append, hlen, logWrite]
  split
  · rename_i hfull
    have hsize : LOGSIZE = 30 := rfl
    exact Or.inl ⟨rfl, by omega⟩
  · rename_i hroom
    have hone := hinv.one_le_outstanding hp
    rw [if_neg (by omega)]
    refine Or.inr ⟨hrun, by omega, ?_⟩
    rw [List.toFinset_append, ← hblock]
    by_cases hb : b ∈ s.block
    · simp [hb]
    · simp [hb, List.toFinset_append]

theorem admission_from : ∀ {as : List (P × Act)} {s s' : St P} {g : List Nat}, Inv s →
    s.panic = none → (s.committing = false → s.block.toFinset = g.toFinset) → Fits LOGSIZE g →
    run (step LOGSIZE) s as = some s' →
    (s'.panic ≠ some .tooBig ↔ ∀ g' ∈ groupsFrom g as, Fits LOGSIZE g')
  | [], s, s', g, _, hrun, _, hfit, h => by
    obtain rfl := Option.some.inj h
    simp [groupsFrom, hrun, hfit]
  | (p, .logWrite b) :: as, s, s', g, hinv, _, hg, _, h => by
    obtain ⟨s₁, h₁, hrest⟩ := run_cons h
    rcases step_logWrite hinv hg h₁ with ⟨hpanic, hnot⟩ | ⟨hrun₁, hfit₁, hg₁⟩
    · obtain ⟨rfl, rfl⟩ := run_panicked (by simp [hpanic]) hrest
      simp [groupsFrom, hpanic, hnot]
    · rw [groupsFrom]
      exact admission_from (hinv.step h₁) hrun₁ (fun _ => hg₁) hfit₁ hrest
  | (p, .endCommit) :: as, s, s', g, hinv, hrun, _, hfit, h => by
    obtain ⟨s₁, h₁, hrest⟩ := run_cons h
    obtain ⟨_, hp, rfl⟩ := step_effect h₁
    have hblock : (endCommit s p).block = [] := hinv.cleared p (Or.inr hp)
    have ih := admission_from (hinv.step h₁) (g := []) hrun (fun _ => by rw [hblock]) (by decide) hrest
    rw [ih, groupsFrom, List.forall_mem_cons]
    exact (and_iff_right hfit).symm
  | (p, .beginOp) :: as, s, s', g, hinv, _, hg, hfit, h
  | (p, .endOp) :: as, s, s', g, hinv, _, hg, hfit, h
  | (p, .commit) :: as, s, s', g, hinv, _, hg, hfit, h => by
    obtain ⟨s₁, h₁, hrest⟩ := run_cons h
    obtain ⟨hrun₁, hsame⟩ := step_other hinv (by simp) h₁
    rw [groupsFrom]
    exact admission_from (hinv.step h₁) hrun₁ (fun hc => (hsame hc).2 ▸ hg (hsame hc).1) hfit hrest

/-- ADMISSION: with the log `mkfs` lays out, a run stops with "too big a transaction" unless, in every
    group of operations that share a commit, the `log_write` calls but the last name at most
    `LOGSIZE - 2` different blocks. -/
theorem admission_iff {as : List (P × Act)} {s : St P}
    (h : run (step LOGSIZE) St.init as = some s) :
    s.panic ≠ some .tooBig ↔ ∀ g ∈ groupsFrom [] as, Fits LOGSIZE g :=
  admission_from inv_init rfl (fun _ => rfl) (by decide) h

/-- Three operations at once, each logging its `MAXOPBLOCKS` blocks. -/
def threeFullOps : List (Fin 3 × Act) :=
  [(0, .beginOp), (1, .beginOp), (2, .beginOp)] ++
    (List.range 30).map fun k => (Fin.ofNat 3 k, .logWrite (100 + k))

/-- Three admitted operations that keep to `MAXOPBLOCKS` blocks each stop the machine. -/
theorem admission_threeFullOps :
    ∃ (as : List (Fin 3 × Act)) (s : St (Fin 3)), OpsBounded (fun _ => []) as = true ∧
      run (step LOGSIZE) St.init as = some s ∧ s.panic = some .tooBig := by
  have hrun : (run (step LOGSIZE) (St.init : St (Fin 3)) threeFullOps).map St.panic =
      some (some .tooBig) := by decide +kernel
  obtain ⟨s, hs, hpanic⟩ := Option.map_eq_some_iff.mp hrun
  exact ⟨threeFullOps, s, by decide +kernel, hs, hpanic⟩

attribute [local instance] neZero_one in
/-- One operation logs a block and commits it. -/
def oneOp : List (Fin 1 × Act) :=
  [(0, .beginOp), (0, .logWrite 100), (0, .endOp), (0, .commit), (0, .commit), (0, .commit),
    (0, .commit), (0, .commit), (0, .commit), (0, .commit), (0, .endCommit)]

theorem admission_oneOp :
    ∃ s : St (Fin 1), run (step LOGSIZE) St.init oneOp = some s ∧ s.panic ≠ some .tooBig := by
  have hrun : (run (step LOGSIZE) (St.init : St (Fin 1)) oneOp).isSome := by decide +kernel
  obtain ⟨s, hs⟩ := Option.isSome_iff_exists.mp hrun
  exact ⟨s, hs, (admission_iff hs).mpr (by decide +kernel)⟩

end Xv6.Log
