import Xv6.Param
import Xv6.Lib.Run

/-! `kernel/log.c`: `begin_op`, `log_write`, `end_op` and `commit` run by any number of processes.

    A step of the system is one critical section of `log.lock`, or one block write of `commit`, which
    runs without the lock. Between two steps of one process any other may move.

        user ──begin_op──▶ inOp ──end_op (last)──▶ commit ▶ writeLog ▶ writeHead ▶ install
          ▲   │ ▲                                     │                               │
          │   ▼ │ wakeup                              ▼ n = 0                         ▼
          │  asleep                              endCommit ◀──────────────────── clearHead
          └────────────────────────────────────────┘

    The fields below the line in `St` are history only: which operation each process runs, which
    calls of `log_write` were made, how many commits had ended by then, and what each commit has
    written to its home location. No step looks at them. -/

namespace Xv6.Log
set_option linter.unusedSectionVars false
open Function List Option

/-- Where `log.c` can stop the machine. -/
inductive Panic where
  | tooBig       -- log_write: "too big a transaction"
  | outside      -- log_write: "log_write outside of trans"
  | committing   -- end_op: "log.committing"
  deriving DecidableEq

/-- Where a process is. -/
inductive Pc where
  | user | asleep | woken | inOp
  | commit | writeLog (tail : Nat) | writeHead | install (tail : Nat) | clearHead | endCommit
  deriving DecidableEq

/-- One call of `log_write`: by which operation, on which block, after how many commits. -/
structure Call where
  op : Nat
  block : Nat
  gen : Nat
  deriving DecidableEq

/-- `struct log` and the processes. -/
structure St (P : Type) where
  block : List Nat      -- log.lh.block[0..n)
  outstanding : Int
  committing : Bool
  pc : P → Pc
  panic : Option Panic
  -- history
  opId : P → Nat
  nextOp : Nat
  gen : Nat
  calls : List Call
  installed : List (Nat × Nat)

/-- What a process can do next. -/
inductive Act where
  | beginOp | logWrite (b : Nat) | endOp | commit | endCommit
  deriving DecidableEq

variable {P : Type} [DecidableEq P]

def St.init : St P where
  block := []
  outstanding := 0
  committing := false
  pc := fun _ => .user
  panic := none
  opId := fun _ => 0
  nextOp := 0
  gen := 0
  calls := []
  installed := []

/-- `wakeup(&log)`. -/
def wakeup (pc : P → Pc) : P → Pc := fun q => if pc q = .asleep then .woken else pc q

/-- One turn of the loop in `begin_op`. -/
def beginOp (s : St P) (p : P) : St P :=
  if s.committing then { s with pc := update s.pc p .asleep }
  else if (s.block.length : Int) + (s.outstanding + 1) * MAXOPBLOCKS > LOGSIZE then
    { s with pc := update s.pc p .asleep }
  else
    { s with outstanding := s.outstanding + 1, pc := update s.pc p .inOp,
             opId := update s.opId p s.nextOp, nextOp := s.nextOp + 1 }

/-- `log_write` of block `b`, with `log.size = size`. -/
def logWrite (size : Nat) (s : St P) (p : P) (b : Nat) : St P :=
  if s.block.length ≥ LOGSIZE ∨ s.block.length ≥ size - 1 then { s with panic := some .tooBig }
  else if s.outstanding < 1 then { s with panic := some .outside }
  else
    { s with block := if b ∈ s.block then s.block else s.block ++ [b],   -- log absorption
             calls := ⟨s.opId p, b, s.gen⟩ :: s.calls }

/-- The first critical section of `end_op`. -/
def endOp (s : St P) (p : P) : St P :=
  if s.committing then
    { s with outstanding := s.outstanding - 1, panic := some .committing }
  else if s.outstanding - 1 = 0 then
    { s with outstanding := s.outstanding - 1, committing := true,
             pc := update s.pc p .commit }
  else
    { s with outstanding := s.outstanding - 1, pc := update (wakeup s.pc) p .user }

/-- One step of `commit`: each bwrite is a step of its own. -/
def commitStep (s : St P) (p : P) : Option (St P) :=
  match s.pc p with
  | .commit =>
    some { s with pc := update s.pc p (if 0 < s.block.length then .writeLog 0 else .endCommit) }
  | .writeLog tail =>
    some { s with
      pc := update s.pc p (if tail < s.block.length then .writeLog (tail + 1) else .writeHead) }
  | .writeHead => some { s with pc := update s.pc p (.install 0) }
  | .install tail =>
    match s.block[tail]? with
    | some b => some { s with pc := update s.pc p (.install (tail + 1)),
                              installed := (s.gen, b) :: s.installed }
    | none => some { s with pc := update s.pc p .clearHead, block := [] }
  | .clearHead => some { s with pc := update s.pc p .endCommit }
  | _ => none

/-- The second critical section of `end_op`. -/
def endCommit (s : St P) (p : P) : St P :=
  { s with committing := false, pc := update (wakeup s.pc) p .user, gen := s.gen + 1 }

/-- A step of process `p`, if it is at the right place and the machine has not stopped. -/
def step (size : Nat) (s : St P) (l : P × Act) : Option (St P) :=
  if s.panic.isSome then none
  else match l.2 with
    | .beginOp => if s.pc l.1 = .user ∨ s.pc l.1 = .woken then some (beginOp s l.1) else none
    | .logWrite b => if s.pc l.1 = .inOp then some (logWrite size s l.1 b) else none
    | .endOp => if s.pc l.1 = .inOp then some (endOp s l.1) else none
    | .commit => commitStep s l.1
    | .endCommit => if s.pc l.1 = .endCommit then some (endCommit s l.1) else none

/-- What a step of process `p` amounts to. -/
def Effect (size : Nat) (s : St P) (p : P) (s' : St P) : Act → Prop
  | .beginOp => (s.pc p = .user ∨ s.pc p = .woken) ∧ s' = beginOp s p
  | .logWrite b => s.pc p = .inOp ∧ s' = logWrite size s p b
  | .endOp => s.pc p = .inOp ∧ s' = endOp s p
  | .commit => commitStep s p = some s'
  | .endCommit => s.pc p = .endCommit ∧ s' = endCommit s p

variable {size : Nat} {s' : St P}

theorem step_effect {s : St P} {p : P} {a : Act} (h : step size s (p, a) = some s') :
    s.panic = none ∧ Effect size s p s' a := by
  have hrun : s.panic = none := by
    by_contra hp
    simp [step, isSome_iff_ne_none.mpr hp] at h
  refine ⟨hrun, ?_⟩
  simp only [step, hrun, isSome_none, Bool.false_eq_true, if_false] at h
  cases a with
  | commit => exact h
  | _ =>
    simp only at h
    split at h
    · exact ⟨‹_›, (some.inj h).symm⟩
    · cases h

/-! ### The invariant -/

/-- Whether the process counts in `log.outstanding`. -/
def Pc.active : Pc → Nat
  | .inOp => 1
  | _ => 0

/-- Whether the process is inside `commit`, up to its last critical section. -/
def Pc.committer : Pc → Bool
  | .commit | .writeLog _ | .writeHead | .install _ | .clearHead | .endCommit => true
  | _ => false

attribute [local simp] Pc.active Pc.committer St.init

section
variable [Fintype P]
omit [DecidableEq P]

/-- What holds between any two steps. -/
structure Inv (s : St P) : Prop where
  panic : s.panic = none ∨ s.panic = some .tooBig
  out : s.outstanding = ((∑ p, (s.pc p).active : Nat) : Int)
  quiet : s.committing = true → s.outstanding = 0
  noCommitter : s.committing = false → ∀ p, (s.pc p).committer = false
  oneCommitter : ∀ p q, (s.pc p).committer = true → (s.pc q).committer = true → p = q
  nodup : s.block.Nodup
  cleared : ∀ p, s.pc p = .clearHead ∨ s.pc p = .endCommit → s.block = []
  opId_lt : ∀ p, s.pc p = .inOp → s.opId p < s.nextOp
  op_lt : ∀ c ∈ s.calls, c.op < s.nextOp
  gen_le : ∀ c ∈ s.calls, c.gen ≤ s.gen
  current : ∀ p, s.pc p = .inOp → ∀ c ∈ s.calls, c.op = s.opId p → c.gen = s.gen
  oneGen : ∀ c ∈ s.calls, ∀ c' ∈ s.calls, c.op = c'.op → c.gen = c'.gen
  logged : ∀ b ∈ s.block, ∃ c ∈ s.calls, c.gen = s.gen ∧ c.block = b
  covered : ∀ c ∈ s.calls, c.gen = s.gen → c.block ∈ s.block ∨ (s.gen, c.block) ∈ s.installed
  progress : ∀ p tail, s.pc p = .install tail → ∀ b ∈ s.block.take tail, (s.gen, b) ∈ s.installed
  done : ∀ c ∈ s.calls, c.gen < s.gen → (c.gen, c.block) ∈ s.installed
  origin : ∀ g b, (g, b) ∈ s.installed → ∃ c ∈ s.calls, c.gen = g ∧ c.block = b

theorem inv_init : Inv (St.init : St P) where
  panic := Or.inl rfl
  out := by simp
  quiet := by simp
  noCommitter := by simp
  oneCommitter := by simp
  nodup := nodup_nil
  cleared := by simp
  opId_lt := by simp
  op_lt := by simp
  gen_le := by simp
  current := by simp
  oneGen := by simp
  logged := by simp
  covered := by simp
  progress := by simp
  done := by simp
  origin := by simp

/-- Nobody is between `begin_op` and `end_op` while a commit runs. -/
theorem Inv.not_inOp {s : St P} (h : Inv s) (hc : s.committing = true) (p : P) : s.pc p ≠ .inOp := by
  intro hp
  have hsum : ∑ q, (s.pc q).active = 0 := by
    have := h.out; rw [h.quiet hc] at this; exact_mod_cast this.symm
  have hp0 := Finset.sum_eq_zero_iff.mp hsum p (Finset.mem_univ p)
  rw [hp] at hp0
  exact absurd hp0 (by decide)

theorem Inv.committing_of_committer {s : St P} (h : Inv s) {p : P} (hp : (s.pc p).committer = true) :
    s.committing = true := by
  by_contra hc
  rw [h.noCommitter (by simpa using hc) p] at hp
  exact absurd hp (by decide)

/-- `wakeup` is invisible to the invariant. -/
theorem Inv.wakeup {s : St P} (h : Inv s) : Inv { s with pc := wakeup s.pc } := by
  have hact : ∀ q, (Log.wakeup s.pc q).active = (s.pc q).active := by
    intro q; by_cases hq : s.pc q = .asleep <;> simp [Log.wakeup, hq]
  have hcom : ∀ q, (Log.wakeup s.pc q).committer = (s.pc q).committer := by
    intro q; by_cases hq : s.pc q = .asleep <;> simp [Log.wakeup, hq]
  have heq : ∀ q x, x ≠ .woken → Log.wakeup s.pc q = x → s.pc q = x := by
    intro q x hx hq
    by_cases ha : s.pc q = .asleep
    · simp only [Log.wakeup, ha, if_true] at hq; exact absurd hq.symm hx
    · simpa only [Log.wakeup, ha, if_false] using hq
  exact { h with
    out := by simpa only [hact] using h.out
    noCommitter := by simpa only [hcom] using h.noCommitter
    oneCommitter := by simpa only [hcom] using h.oneCommitter
    cleared := fun p hp => h.cleared p (hp.imp (heq p _ (by decide)) (heq p _ (by decide)))
    opId_lt := fun p hp => h.opId_lt p (heq p _ (by decide) hp)
    current := fun p hp => h.current p (heq p _ (by decide) hp)
    progress := fun p tail hp => h.progress p tail (heq p _ (by simp) hp) }

end

section
variable [Fintype P]
variable {s : St P}

/-- A process that moves within its role changes nothing else. -/
theorem Inv.move (h : Inv s) (p : P) {x : Pc} (hact : x.active = (s.pc p).active)
    (hcom : x.committer = (s.pc p).committer) (hop : x = .inOp → s.pc p = .inOp)
    (hclr : x = .clearHead ∨ x = .endCommit → s.block = [])
    (hinst : ∀ tail, x = .install tail → ∀ b ∈ s.block.take tail, (s.gen, b) ∈ s.installed) :
    Inv { s with pc := update s.pc p x } := by
  have hcom' : ∀ q, (update s.pc p x q).committer = (s.pc q).committer :=
    (forall_update_iff s.pc fun q y => y.committer = (s.pc q).committer).mpr
      ⟨hcom, fun _ _ => rfl⟩
  have hinOp : ∀ q, update s.pc p x q = .inOp → s.pc q = .inOp :=
    (forall_update_iff s.pc fun q y => y = .inOp → s.pc q = .inOp).mpr
      ⟨hop, fun _ _ hq => hq⟩
  have hsum : ∑ q, (update s.pc p x q).active = ∑ q, (s.pc q).active := by
    have := Run.sum_update Pc.active s.pc p x; omega
  exact { h with
    out := h.out.trans (by rw [hsum])
    noCommitter := fun hc q => (hcom' q).trans (h.noCommitter hc q)
    oneCommitter := fun q r hq hr =>
      h.oneCommitter q r ((hcom' q).symm.trans hq) ((hcom' r).symm.trans hr)
    cleared := (forall_update_iff s.pc fun _ y =>
      y = .clearHead ∨ y = .endCommit → s.block = []).mpr ⟨hclr, fun q _ => h.cleared q⟩
    opId_lt := fun q hq => h.opId_lt q (hinOp q hq)
    current := fun q hq => h.current q (hinOp q hq)
    progress := (forall_update_iff s.pc fun _ y => ∀ tail, y = .install tail →
      ∀ b ∈ s.block.take tail, (s.gen, b) ∈ s.installed).mpr ⟨hinst, fun q _ => h.progress q⟩ }

variable {p : P}

theorem Inv.beginOp (h : Inv s) (hp : s.pc p = .user ∨ s.pc p = .woken) :
    Inv (beginOp s p) := by
  have hact : (s.pc p).active = 0 := by rcases hp with hp | hp <;> rw [hp] <;> rfl
  have hcom : (s.pc p).committer = false := by rcases hp with hp | hp <;> rw [hp] <;> rfl
  have hsleep : Inv { s with pc := update s.pc p .asleep } :=
    h.move p (by rw [hact]; rfl) (by rw [hcom]; rfl) (by simp) (by simp) (by simp)
  unfold Log.beginOp
  split
  · exact hsleep
  split
  · exact hsleep
  rename_i hcommitting _
  have hquiet : s.committing = false := by simpa using hcommitting
  have hnone : ∀ q, (update s.pc p .inOp q).committer = false :=
    (forall_update_iff s.pc fun _ y => y.committer = false).mpr
      ⟨rfl, fun q _ => h.noCommitter hquiet q⟩
  have hsum : ∑ q, (update s.pc p .inOp q).active = ∑ q, (s.pc q).active + 1 := by
    have := Run.sum_update Pc.active s.pc p .inOp
    simp only [hact] at this
    exact this
  exact { h with
    out := by simp only [hsum, h.out]; push_cast; rfl
    quiet := fun hc => absurd (hquiet.symm.trans hc) (by decide)
    noCommitter := fun _ => hnone
    oneCommitter := fun q r hq _ => absurd ((hnone q).symm.trans hq) (by decide)
    cleared := (forall_update_iff s.pc fun _ y =>
      y = .clearHead ∨ y = .endCommit → s.block = []).mpr ⟨by simp, fun q _ => h.cleared q⟩
    opId_lt := by
      intro q hq
      by_cases hqp : q = p
      · subst hqp; simp
      · have hlt := h.opId_lt q ((update_of_ne hqp ..).symm.trans hq)
        simp only [update_of_ne hqp]; omega
    op_lt := fun c hc => Nat.lt_succ_of_lt (h.op_lt c hc)
    current := by
      intro q hq c hc hop
      by_cases hqp : q = p
      · -- the fresh operation has made no call yet
        subst hqp
        simp only [update_self] at hop
        have := h.op_lt c hc; omega
      · simp only [update_of_ne hqp] at hq hop
        exact h.current q hq c hc hop
    progress := (forall_update_iff s.pc fun _ y => ∀ tail, y = .install tail →
      ∀ b ∈ s.block.take tail, (s.gen, b) ∈ s.installed).mpr ⟨by simp, fun q _ => h.progress q⟩ }

section Inside
variable (h : Inv s) (hp : s.pc p = .inOp)
include h hp

theorem Inv.one_le_outstanding :
    1 ≤ s.outstanding := by
  have hle := Finset.single_le_sum (f := fun q => (s.pc q).active) (fun _ _ => Nat.zero_le _)
    (Finset.mem_univ p)
  simp only [hp, Pc.active] at hle
  rw [h.out]; exact_mod_cast hle

theorem Inv.quiet_of_inOp :
    s.committing = false := by
  by_contra hc; exact h.not_inOp (by simpa using hc) p hp

theorem Inv.logWrite {b : Nat} :
    Inv (logWrite size s p b) := by
  have hquiet := h.quiet_of_inOp hp
  have hone := h.one_le_outstanding hp
  unfold Log.logWrite
  split
  · exact { h with panic := Or.inr rfl }
  rw [if_neg (by omega)]
  have hmem : ∀ x, x ∈ (if b ∈ s.block then s.block else s.block ++ [b]) ↔ x ∈ s.block ∨ x = b := by
    intro x; split <;> simp_all
  have hnone : ∀ q, (s.pc q).committer = false := h.noCommitter hquiet
  exact { h with
    nodup := by
      split
      · exact h.nodup
      · rename_i hb; exact h.nodup.append (nodup_singleton b) (by simpa using hb)
    cleared := fun q hq => by
      have := hnone q; rcases hq with hq | hq <;> rw [hq] at this <;> cases this
    op_lt := forall_mem_cons.mpr ⟨h.opId_lt p hp, h.op_lt⟩
    gen_le := forall_mem_cons.mpr ⟨le_rfl, h.gen_le⟩
    current := fun q hq => forall_mem_cons.mpr ⟨fun _ => rfl, h.current q hq⟩
    oneGen := by
      refine forall_mem_cons.mpr ⟨forall_mem_cons.mpr ⟨fun _ => rfl, ?_⟩, fun c hc => ?_⟩
      · exact fun c hc hop => (h.current p hp c hc hop.symm).symm
      · exact forall_mem_cons.mpr ⟨fun hop => h.current p hp c hc hop, h.oneGen c hc⟩
    logged := by
      intro x hx
      rcases (hmem x).mp hx with hx | rfl
      · obtain ⟨c, hc, hg, hb⟩ := h.logged x hx
        exact ⟨c, mem_cons_of_mem _ hc, hg, hb⟩
      · exact ⟨_, mem_cons_self .., rfl, rfl⟩
    covered := by
      refine forall_mem_cons.mpr ⟨fun _ => Or.inl ((hmem b).mpr (Or.inr rfl)), fun c hc hg => ?_⟩
      exact (h.covered c hc hg).imp_left fun hb => (hmem _).mpr (Or.inl hb)
    progress := fun q tail hq => by
      have := hnone q; rw [hq] at this; cases this
    done := forall_mem_cons.mpr ⟨fun hlt => absurd hlt (lt_irrefl _), h.done⟩
    origin := fun g x hx => by
      obtain ⟨c, hc, hg, hb⟩ := h.origin g x hx
      exact ⟨c, mem_cons_of_mem _ hc, hg, hb⟩ }

/-- A process leaves its operation, into `commit` only if it was the last. -/
theorem Inv.leave {x : Pc}
    (hx : x = .user ∨ x = .commit) (hlast : x.committer = true → s.outstanding - 1 = 0) :
    Inv { s with outstanding := s.outstanding - 1, committing := x.committer,
                 pc := update s.pc p x } := by
  have hquiet := h.quiet_of_inOp hp
  have hnone : ∀ q, (s.pc q).committer = false := h.noCommitter hquiet
  have hxop : x ≠ .inOp := by rcases hx with rfl | rfl <;> decide
  have hinOp : ∀ q, update s.pc p x q = .inOp → s.pc q = .inOp :=
    (forall_update_iff s.pc fun q y => y = .inOp → s.pc q = .inOp).mpr
      ⟨fun hq => absurd hq hxop, fun _ _ hq => hq⟩
  have hcom : ∀ q, (update s.pc p x q).committer = true → q = p :=
    (forall_update_iff s.pc fun q y => y.committer = true → q = p).mpr
      ⟨fun _ => rfl, fun q _ hq => absurd ((hnone q).symm.trans hq) (by decide)⟩
  have hsum : ∑ q, (update s.pc p x q).active + 1 = ∑ q, (s.pc q).active := by
    have := Run.sum_update Pc.active s.pc p x
    rw [hp] at this
    rcases hx with rfl | rfl <;> exact this
  exact { h with
    out := by simp only [h.out, ← hsum]; push_cast; omega
    quiet := hlast
    noCommitter := fun hc => (forall_update_iff s.pc fun _ y => y.committer = false).mpr
      ⟨hc, fun q _ => hnone q⟩
    oneCommitter := fun q r hq hr => (hcom q hq).trans (hcom r hr).symm
    cleared := (forall_update_iff s.pc fun _ y =>
      y = .clearHead ∨ y = .endCommit → s.block = []).mpr
        ⟨by rcases hx with rfl | rfl <;> simp, fun q _ => h.cleared q⟩
    opId_lt := fun q hq => h.opId_lt q (hinOp q hq)
    current := fun q hq => h.current q (hinOp q hq)
    progress := (forall_update_iff s.pc fun _ y => ∀ tail, y = .install tail →
      ∀ b ∈ s.block.take tail, (s.gen, b) ∈ s.installed).mpr
        ⟨by rcases hx with rfl | rfl <;> simp, fun q _ => h.progress q⟩ }

theorem Inv.endOp : Inv (endOp s p) := by
  have hquiet := h.quiet_of_inOp hp
  rw [Log.endOp, if_neg (by simp [hquiet])]
  split
  · rename_i hlast
    exact h.leave hp (Or.inr rfl) fun _ => hlast
  · have hp' : Log.wakeup s.pc p = .inOp := by simp [Log.wakeup, hp]
    have := h.wakeup.leave hp' (Or.inl rfl) (by simp)
    simpa only [Pc.committer, ← hquiet] using this

end Inside

/-- A logged block reaches its home location. -/
theorem Inv.record (h : Inv s) {b : Nat} (hb : b ∈ s.block) :
    Inv { s with installed := (s.gen, b) :: s.installed } :=
  { h with
    covered := fun c hc hg => (h.covered c hc hg).imp_right (mem_cons_of_mem _)
    progress := fun p tail hp x hx => mem_cons_of_mem _ (h.progress p tail hp x hx)
    done := fun c hc hg => mem_cons_of_mem _ (h.done c hc hg)
    origin := by
      intro g x hx
      rcases mem_cons.mp hx with heq | hx
      · obtain ⟨rfl, rfl⟩ := Prod.mk.inj heq
        exact h.logged x hb
      · exact h.origin g x hx }

/-- `log.lh.n = 0` once every logged block is home. -/
theorem Inv.clear (h : Inv s) (hall : ∀ b ∈ s.block, (s.gen, b) ∈ s.installed) :
    Inv { s with block := [] } :=
  { h with
    nodup := nodup_nil
    cleared := fun _ _ => rfl
    logged := by simp
    covered := fun c hc hg => Or.inr ((h.covered c hc hg).elim (hall _) id)
    progress := by simp }

theorem Inv.commitStep (h : Inv s) (hs : commitStep s p = some s') :
    Inv s' := by
  unfold Log.commitStep at hs
  split at hs
  · -- the test `log.lh.n > 0`
    rename_i hp
    obtain rfl := some.inj hs
    refine h.move p ?_ ?_ ?_ ?_ ?_ <;> split <;> simp_all
  · rename_i hp
    obtain rfl := some.inj hs
    refine h.move p ?_ ?_ ?_ ?_ ?_ <;> split <;> simp_all
  · rename_i hp
    obtain rfl := some.inj hs
    refine h.move p ?_ ?_ ?_ ?_ ?_ <;> simp_all
  · rename_i tail hp
    split at hs
    · rename_i b hb
      obtain rfl := some.inj hs
      obtain ⟨hlt, hget⟩ := List.getElem?_eq_some_iff.mp hb
      have hrec := h.record (b := b) (mem_of_getElem? hb)
      refine hrec.move p (by simp [hp]) (by simp [hp]) (by simp) (by simp) ?_
      rintro _ ⟨⟩ x hx
      rw [take_succ_eq_append_getElem hlt, hget, mem_append, mem_singleton] at hx
      rcases hx with hx | rfl
      · exact mem_cons_of_mem _ (h.progress p tail hp x hx)
      · exact mem_cons_self ..
    · rename_i hb
      obtain rfl := some.inj hs
      have hall : ∀ b ∈ s.block, (s.gen, b) ∈ s.installed := by
        intro b hmem
        refine h.progress p tail hp b ?_
        rwa [take_of_length_le (getElem?_eq_none_iff.mp hb)]
      exact (h.clear hall).move p (by simp [hp]) (by simp [hp]) (by simp)
        (fun _ => rfl) (by simp)
  · rename_i hp
    obtain rfl := some.inj hs
    refine h.move p ?_ ?_ ?_ ?_ ?_ <;> simp_all
    exact h.cleared p (Or.inl hp)
  · cases hs

theorem Inv.endCommit (h : Inv s) (hp : s.pc p = .endCommit) :
    Inv (endCommit s p) := by
  have hcom : (s.pc p).committer = true := by rw [hp]; rfl
  have hcommitting := h.committing_of_committer hcom
  have hblock : s.block = [] := h.cleared p (Or.inr hp)
  have hp' : Log.wakeup s.pc p = .endCommit := by simp [Log.wakeup, hp]
  have hw := h.wakeup
  have hnone : ∀ q, (update (Log.wakeup s.pc) p .user q).committer = false := by
    refine (forall_update_iff (Log.wakeup s.pc) fun _ y => y.committer = false).mpr
      ⟨rfl, fun q hq => ?_⟩
    by_contra hc
    exact hq (hw.oneCommitter q p (by simpa using hc) (congrArg Pc.committer hp'))
  have hidle : ∀ q, update (Log.wakeup s.pc) p .user q ≠ .inOp :=
    (forall_update_iff (Log.wakeup s.pc) fun _ y => y ≠ .inOp).mpr
      ⟨by decide, fun q _ => hw.not_inOp hcommitting q⟩
  have hsum : ∑ q, (update (Log.wakeup s.pc) p .user q).active =
      ∑ q, (Log.wakeup s.pc q).active := by
    have := Run.sum_update Pc.active (Log.wakeup s.pc) p .user
    rw [hp'] at this
    exact this
  exact { h with
    out := hw.out.trans (by rw [← hsum]; rfl)
    quiet := fun hc => by cases hc
    noCommitter := fun _ => hnone
    oneCommitter := fun q r hq _ => absurd ((hnone q).symm.trans hq) (by decide)
    cleared := fun _ _ => hblock
    opId_lt := fun q hq => absurd hq (hidle q)
    gen_le := fun c hc => Nat.le_succ_of_le (h.gen_le c hc)
    current := fun q hq => absurd hq (hidle q)
    logged := fun b hb => absurd hb (by rw [show (Log.endCommit s p).block = [] from hblock]; simp)
    covered := fun c hc hg => by
      have hg' : c.gen = s.gen + 1 := hg
      have := h.gen_le c hc; omega
    progress := fun q tail hq => absurd ((hnone q).symm.trans (congrArg Pc.committer hq)) (by simp)
    done := by
      intro c hc hg
      rcases Nat.lt_succ_iff_lt_or_eq.mp hg with hlt | heq
      · exact h.done c hc hlt
      · have := h.covered c hc heq
        rw [hblock] at this
        rw [heq]
        exact this.resolve_left (not_mem_nil) }

theorem Inv.step {l : P × Act} (h : Inv s) (hs : step size s l = some s') :
    Inv s' := by
  obtain ⟨p, a⟩ := l
  obtain ⟨_, heff⟩ := step_effect hs
  cases a with
  | beginOp => obtain ⟨hp, rfl⟩ := heff; exact h.beginOp hp
  | logWrite b => obtain ⟨hp, rfl⟩ := heff; exact h.logWrite hp
  | endOp => obtain ⟨hp, rfl⟩ := heff; exact h.endOp hp
  | commit => exact h.commitStep heff
  | endCommit => obtain ⟨hp, rfl⟩ := heff; exact h.endCommit hp

theorem inv_reach (h : Run.Reach (step size) St.init s) : Inv s :=
  Run.reach_invariant (fun _ _ _ hs hstep => hs.step hstep) inv_init h

/-- Commit number `g` has written home the block of call `c`, which was made for it. -/
def Installs (s : St P) (g : Nat) (c : Call) : Prop := c.gen = g ∧ (g, c.block) ∈ s.installed

/-- GROUP COMMIT: in every reachable state a commit runs only with no operation outstanding, so no
    `log_write` can be the next step of anyone; the logged blocks are distinct; neither panic of the
    protocol has happened; and a finished commit has installed, for each operation, all of the blocks
    it passed to `log_write` or none, and nothing that was not passed to `log_write` for it. -/
theorem group_commit {size : Nat} {s : St P} (h : Run.Reach (step size) St.init s) :
    (s.committing = true → s.outstanding = 0 ∧ ∀ p b, step size s (p, .logWrite b) = none) ∧
    s.block.Nodup ∧
    (∀ g < s.gen, ∀ op, (∀ c ∈ s.calls, c.op = op → Installs s g c) ∨
      (∀ c ∈ s.calls, c.op = op → ¬ Installs s g c)) ∧
    (∀ c ∈ s.calls, c.gen < s.gen → Installs s c.gen c) ∧
    (∀ g b, (g, b) ∈ s.installed → ∃ c ∈ s.calls, c.block = b ∧ Installs s g c) ∧
    s.panic ≠ some .committing ∧ s.panic ≠ some .outside := by
  have hinv := inv_reach h
  refine ⟨fun hc => ⟨hinv.quiet hc, fun p b => ?_⟩, hinv.nodup, fun g hg op => ?_, ?_, ?_, ?_, ?_⟩
  · have hp := hinv.not_inOp hc p
    simp [step, hp]
  · by_cases hex : ∃ c ∈ s.calls, c.op = op ∧ c.gen = g
    · -- one call of the operation falls to commit `g`, so all of them do
      obtain ⟨c, hc, hop, hcg⟩ := hex
      left
      intro c' hc' hop'
      have hg' : c'.gen = g := (hinv.oneGen c' hc' c hc (hop'.trans hop.symm)).trans hcg
      exact ⟨hg', hg' ▸ hinv.done c' hc' (hg' ▸ hg)⟩
    · right
      exact fun c hc hop hinst => hex ⟨c, hc, hop, hinst.1⟩
  · exact fun c hc hg => ⟨rfl, hinv.done c hc hg⟩
  · intro g b hgb
    obtain ⟨c, hc, hcg, rfl⟩ := hinv.origin g b hgb
    exact ⟨c, hc, rfl, hcg, hgb⟩
  · rcases hinv.panic with hp | hp <;> simp [hp]
  · rcases hinv.panic with hp | hp <;> simp [hp]

end

/-- Two operations share a commit: the second ends last and installs the blocks of both. -/
theorem group_commit_shared : ∃ s : St (Fin 2), Run.Reach (step LOGSIZE) St.init s ∧ s.gen = 1 ∧
    s.calls.length = 2 ∧ ∀ c ∈ s.calls, Installs s c.gen c := by
  have hrun : ((Run.run (step LOGSIZE) (St.init : St (Fin 2))
      [(0, .beginOp), (1, .beginOp), (0, .logWrite 50), (1, .logWrite 60), (0, .endOp), (1, .endOp),
        (1, .commit), (1, .commit), (1, .commit), (1, .commit), (1, .commit), (1, .commit),
        (1, .commit), (1, .commit), (1, .commit), (1, .endCommit)]).map
      fun s => (s.gen, s.calls)) = some (1, [⟨1, 60, 0⟩, ⟨0, 50, 0⟩]) := by decide +kernel
  obtain ⟨s, hs, heq⟩ := map_eq_some_iff.mp hrun
  obtain ⟨hgen, hcalls⟩ := Prod.mk.inj heq
  refine ⟨s, ⟨_, hs⟩, hgen, by rw [hcalls]; rfl, fun c hc => ?_⟩
  refine (group_commit ⟨_, hs⟩).2.2.2.1 c hc ?_
  rw [hcalls] at hc
  rw [hgen]
  revert c
  decide

end Xv6.Log
