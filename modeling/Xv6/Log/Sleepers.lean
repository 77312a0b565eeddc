import Xv6.Param
import Xv6.Lib.Monitor

/-! `kernel/log.c` once more, with every lock operation a step of its own: who sleeps in `begin_op`, and who
    will wake them.

    `begin_op`, `log_write` and `end_op` run under `log.lock`, `commit` does not. A process may be put to
    sleep for lack of space or because of a commit, and the reason may change while it sleeps; what
    does not change is that somebody is in an operation or commits. `ops` and `committer` are history:
    which processes are in an operation, and which one commits. -/

namespace Xv6.Log.Sleepers
set_option linter.unusedSectionVars false
open Monitor List

variable {P : Type}

/-- `struct log`. -/
structure St (P : Type) where
  block : List Nat      -- log.lh.block[0..n)
  outstanding : Int
  committing : Bool
  -- history
  ops : List P
  committer : Option P

inductive Input where
  | beginOp | logWrite (b : Nat) | endOp

/-- Places in `log.c`. -/
inductive Label where
  | idle
  -- begin_op
  | begin_ | bloop | bsleep | brel
  -- between begin_op and end_op, and log_write
  | inOp | write (b : Nat) | writeIn (b : Nat) | writeRel
  -- end_op
  | «end» | endIn | endWake | endRel (commit : Bool)
  -- commit, and the rest of end_op
  | commit | clear | finish | finishIn | finishWake | finishRel
  | panic

/-- `log_write` with `log.size = size`; the machine stops if there is no room or no operation. -/
def logWrite (size : Nat) (d : St P) (b : Nat) : Option (St P) :=
  if d.block.length ≥ LOGSIZE ∨ d.block.length ≥ size - 1 then none
  else if d.outstanding < 1 then none
  else some { d with block := if b ∈ d.block then d.block else d.block ++ [b] }

variable [DecidableEq P]

def instr (size : Nat) (p : P) : Label → Instr (St P) Unit Input Label
  | .idle => .access fun x d => (d, match x with
    | .beginOp => .begin_
    | _ => .idle)
  | .begin_ => .acquire .bloop
  | .bloop => .access fun _ d =>
    if d.committing then (d, .bsleep)
    else if (d.block.length : Int) + (d.outstanding + 1) * MAXOPBLOCKS > LOGSIZE then (d, .bsleep)
    else ({ d with outstanding := d.outstanding + 1, ops := p :: d.ops }, .brel)
  | .bsleep => .sleep () .bloop
  | .brel => .release .inOp
  | .inOp => .access fun x d => (d, match x with
    | .logWrite b => .write b
    | .endOp => .end
    | .beginOp => .inOp)
  | .write b => .acquire (.writeIn b)
  | .writeIn b => .access fun _ d =>
    match logWrite size d b with
    | some d' => (d', .writeRel)
    | none => (d, .panic)
  | .writeRel => .release .inOp
  | .end => .acquire .endIn
  | .endIn => .access fun _ d =>
    let d := { d with outstanding := d.outstanding - 1, ops := d.ops.erase p }
    if d.committing then (d, .panic)
    else if d.outstanding = 0 then ({ d with committing := true, committer := some p }, .endRel true)
    else (d, .endWake)
  | .endWake => .wakeup () (.endRel false)
  | .endRel commit => .release (if commit then .commit else .idle)
  -- write_log, write_head and install_trans do not change `struct log`
  | .commit => .access fun _ d => (d, if 0 < d.block.length then .clear else .finish)
  | .clear => .access fun _ d => ({ d with block := [] }, .finish)
  | .finish => .acquire .finishIn
  | .finishIn => .access fun _ d => ({ d with committing := false, committer := none }, .finishWake)
  | .finishWake => .wakeup () .finishRel
  | .finishRel => .release .idle
  | .panic => .access fun _ d => (d, .panic)

def program (size : Nat) (procs : List P) : Program P (St P) Unit Input Empty Label where
  procs := procs
  instr := instr size
  env := fun e => e.elim

def init : State P (St P) Unit Label := State.init ⟨[], 0, false, [], none⟩ .idle

/-! ### The outline -/

/-- The books of `struct log`. -/
structure Books (d : St P) : Prop where
  outstanding : d.outstanding = d.ops.length
  alone : d.committing = true → d.ops = []
  block : d.block ≠ [] → d.committing = true ∨ d.ops ≠ []

/-- Somebody will wake those who sleep. -/
def Reason (d : St P) : Prop := d.committing = true ∨ 0 < d.outstanding

/-- Process `p` commits. -/
structure Commits (p : P) (d : St P) : Prop where
  committer : d.committer = some p
  committing : d.committing = true
  ops : d.ops = []

def Locked : Label → Prop
  | .idle | .begin_ | .inOp | .write _ | .end | .commit | .clear | .finish => False
  | _ => True

/-- What process `p` knows at all times. -/
def Own (p : P) (d : St P) : Label → Prop
  | .brel | .inOp | .write _ | .writeIn _ | .writeRel | .end | .endIn => p ∈ d.ops
  | .endRel true | .commit | .clear => Commits p d
  | .finish | .finishIn => Commits p d ∧ d.block = []
  | _ => True

/-- What it knows while it holds the lock. -/
def Here (d : St P) : Label → Prop
  | .bsleep => Books d ∧ Reason d
  | .panic => True
  | _ => Books d

def outline : Outline P (St P) Unit Label where
  locked := Locked
  inv := Books
  own := fun p k d => Own p d k
  pre := fun _ k d => Here d k
  wait := fun _ d => Reason d
  may := fun _ k d _ => Reason d ∨ k = .finishWake ∨ k = .panic
  sees := fun _ _ _ => True

variable {size : Nat} {p q : P} {k k' : Label} {d d' : St P}

/-- A step under the lock. -/
theorem goes (hk : Locked k) (hk' : Locked k') (hown : Own p d' k') (hpre : Here d' k')
    (hmay : Reason d → Reason d' ∨ k' = .finishWake ∨ k' = .panic) (hno : k ≠ .finishWake ∧ k ≠ .panic)
    (hothers : ∀ q, q ≠ p → ∀ k, Own q d k → Own q d' k) : outline.Goes p k d d' k' where
  own := hown
  locked := iff_of_true hk hk'
  pre := fun _ => hpre
  may := fun _ _ h => hmay (h.resolve_right (by simp [hno]))
  others := hothers
  calm := fun hl => absurd hk hl

theorem enters (hk : Locked k) (hpre : ∀ d : St P, Books d → Here d k) :
    outline.Enters p k :=
  ⟨hk, fun d _ hinv => ⟨hpre d hinv, fun _ => .inl⟩⟩

/-- `begin_op` sleeps for lack of space only if there are operations. -/
theorem reason_of_full (h : Books d) (hno : d.committing ≠ true)
    (hfull : (d.block.length : Int) + (d.outstanding + 1) * MAXOPBLOCKS > LOGSIZE) : Reason d := by
  refine .inr ?_
  by_cases hblock : d.block = []
  · rw [hblock] at hfull
    change (0 : Int) + (d.outstanding + 1) * 10 > 30 at hfull
    omega
  · have hops := (h.block hblock).resolve_left hno
    rw [h.outstanding]
    exact Int.natCast_pos.mpr (length_pos_iff.mpr hops)

/-- What another process owns is kept by a step that keeps its operation and its commit. -/
theorem own_mono {q : P} {d d' : St P} (hops : q ∈ d.ops → q ∈ d'.ops)
    (hcommits : Commits q d → Commits q d' ∧ (d.block = [] → d'.block = [])) : Own q d k → Own q d' k := by
  intro hown
  cases k with
  | brel | inOp | write b | writeIn b | writeRel | «end» | endIn => exact hops hown
  | endRel c =>
    cases c with
    | true => exact (hcommits hown).1
    | false => trivial
  | commit | clear => exact (hcommits hown).1
  | finish | finishIn => exact ⟨(hcommits hown.1).1, (hcommits hown.1).2 hown.2⟩
  | _ => trivial

theorem respects_bloop : outline.Respects p .bloop (instr size p .bloop) := by
  intro x d _ hpre
  have hd : Books d := hpre trivial
  dsimp only
  split
  · rename_i hc
    exact goes trivial trivial trivial ⟨hd, .inl hc⟩ .inl ⟨nofun, nofun⟩ fun _ _ _ => id
  rename_i hc
  split
  · rename_i hfull
    exact goes trivial trivial trivial ⟨hd, reason_of_full hd hc hfull⟩ .inl ⟨nofun, nofun⟩ fun _ _ _ => id
  · have hout : d.outstanding + 1 = ((p :: d.ops).length : Int) := by rw [hd.outstanding]; rfl
    have hpos : 0 < d.outstanding + 1 := by rw [hout]; exact Int.natCast_pos.mpr (Nat.succ_pos _)
    have hne : p :: d.ops ≠ [] := nofun
    exact goes trivial trivial (mem_cons_self ..) ⟨hout, fun h => absurd h hc, fun _ => .inr hne⟩
      (fun _ => .inl (.inr hpos)) ⟨nofun, nofun⟩ fun q _ k =>
        own_mono (mem_cons_of_mem _) fun h => absurd h.committing hc

theorem respects_writeIn (b : Nat) :
    outline.Respects p (.writeIn b) (instr size p (.writeIn b)) := by
  intro x d hown hpre
  have hd : Books d := hpre trivial
  have hops : d.ops ≠ [] := ne_nil_of_mem hown
  dsimp only
  cases hw : logWrite size d b with
  | none => exact goes trivial trivial trivial trivial (fun _ => .inr (.inr rfl)) ⟨nofun, nofun⟩ fun _ _ _ => id
  | some d' =>
    unfold logWrite at hw
    split at hw
    · cases hw
    split at hw
    · cases hw
    obtain rfl := Option.some.inj hw
    exact goes trivial trivial hown ⟨hd.outstanding, hd.alone, fun _ => .inr hops⟩ .inl ⟨nofun, nofun⟩ fun q _ k =>
      own_mono id fun h => absurd h.ops hops

theorem respects_endIn : outline.Respects p .endIn (instr size p .endIn) := by
  intro x d hown hpre
  have hd : Books d := hpre trivial
  have hops : d.ops ≠ [] := ne_nil_of_mem hown
  have hlen : d.outstanding - 1 = ((d.ops.erase p).length : Int) := by
    have := length_erase_of_mem hown
    have := length_pos_iff.mpr hops
    rw [hd.outstanding]
    omega
  dsimp only
  split
  · rename_i hc
    exact absurd (hd.alone hc) hops
  rename_i hc
  split
  · rename_i h0
    have hnil : d.ops.erase p = [] := length_eq_zero_iff.mp (by omega)
    exact goes trivial trivial ⟨rfl, rfl, hnil⟩ ⟨hlen, fun _ => hnil, fun _ => .inl rfl⟩ (fun _ => .inl (.inl rfl))
      ⟨nofun, nofun⟩ fun q hq k => own_mono (mem_erase_of_ne hq).mpr fun h => absurd h.ops hops
  · rename_i h0
    have hpos : 0 < (d.ops.erase p).length := by omega
    exact goes trivial trivial trivial ⟨hlen, fun h => absurd h hc, fun _ => .inr (length_pos_iff.mp hpos)⟩
      (fun _ => .inl (.inr (by rw [hlen]; exact Int.natCast_pos.mpr hpos))) ⟨nofun, nofun⟩
      fun q hq k => own_mono (mem_erase_of_ne hq).mpr fun h => absurd h.ops hops

theorem respects_clear : outline.Respects p .clear (instr size p .clear) := by
  intro x d hown _
  have hbooks : Books d → Books { d with block := [] } := fun h => ⟨h.outstanding, h.alone, fun h => absurd rfl h⟩
  have hcommits : ∀ {q}, Commits q d → Commits q { d with block := [] } := fun h => ⟨h.committer, h.committing, h.ops⟩
  refine ⟨⟨hcommits hown, rfl⟩, Iff.rfl, False.elim, False.elim,
    fun q _ k => own_mono id fun h => ⟨hcommits h, fun _ => rfl⟩,
    fun _ => ⟨hbooks, fun _ => id, fun _ _ k hk => ?_, fun _ _ _ _ => id⟩⟩
  cases k with
  | bsleep => exact ⟨hbooks hk.1, hk.2⟩
  | panic => trivial
  | _ => exact hbooks hk

theorem respects_finishIn : outline.Respects p .finishIn (instr size p .finishIn) := by
  intro x d hown hpre
  have hd : Books d := hpre trivial
  obtain ⟨hcommits, hblock⟩ := hown
  -- the commit is this process's
  have hno : ∀ {q}, q ≠ p → ¬Commits q d := fun hq h =>
    hq (Option.some.inj (h.committer.symm.trans hcommits.committer))
  exact goes trivial trivial trivial ⟨hd.outstanding, nofun, fun h => absurd hblock h⟩ (fun _ => .inr (.inl rfl))
    ⟨nofun, nofun⟩ fun q hq k => own_mono id fun h => absurd h (hno hq)

theorem respects_wakeup (hk : Locked k) (hk' : Locked k') (hown : ∀ d : St P, Own p d k → Own p d k')
    (hhere : ∀ d : St P, Here d k → Here d k') :
    outline.Respects (X := Input) p k (.wakeup () k') :=
  ⟨iff_of_true hk hk', fun d h => ⟨hown d h, fun _ hpre => ⟨hhere d hpre, fun _ hne => absurd rfl hne⟩⟩⟩

theorem respects : ∀ k, outline.Respects p k (instr size p k)
  | .idle => fun x d _ _ => by
    cases x with
    | beginOp => exact .wander id id trivial
    | logWrite b => exact .wander id id trivial
    | endOp => exact .wander id id trivial
  | .begin_ => ⟨id, fun _ _ => trivial, enters trivial fun _ => id⟩
  | .bloop => respects_bloop
  | .bsleep => ⟨trivial, fun _ _ hpre => ⟨trivial, hpre.1, hpre.2, fun _ _ => hpre.2⟩, enters trivial fun _ => id⟩
  | .brel | .writeRel => ⟨trivial, id, fun _ hown hpre => ⟨hown, hpre, fun _ hmay => hmay.resolve_right (by simp)⟩⟩
  | .inOp => fun x d hown _ => by
    cases x with
    | beginOp => exact .wander id id hown
    | logWrite b => exact .wander id id hown
    | endOp => exact .wander id id hown
  | .write _ => ⟨id, fun _ hown => hown, enters trivial fun _ => id⟩
  | .writeIn b => respects_writeIn b
  | .end => ⟨id, fun _ hown => hown, enters trivial fun _ => id⟩
  | .endIn => respects_endIn
  | .endWake => respects_wakeup trivial trivial (fun _ => id) fun _ => id
  | .endRel true => ⟨trivial, id, fun _ hown hpre => ⟨hown, hpre, fun _ hmay => hmay.resolve_right (by simp)⟩⟩
  | .endRel false => ⟨trivial, id, fun _ _ hpre => ⟨trivial, hpre, fun _ hmay => hmay.resolve_right (by simp)⟩⟩
  | .commit => fun x d hown _ => by
    dsimp only
    split
    · exact .wander id id hown
    · rename_i hblock
      exact .wander id id ⟨hown, length_eq_zero_iff.mp (by omega)⟩
  | .clear => respects_clear
  | .finish => ⟨id, fun _ hown => hown, enters trivial fun _ => id⟩
  | .finishIn => respects_finishIn
  | .finishWake => respects_wakeup trivial trivial (fun _ _ => trivial) fun _ => id
  | .finishRel => ⟨trivial, id, fun _ _ hpre => ⟨trivial, hpre, fun _ hmay => hmay.resolve_right (by simp)⟩⟩
  | .panic => fun _ _ _ _ =>
    ⟨trivial, Iff.rfl, fun _ => trivial, fun _ _ _ => .inr (.inr rfl), fun _ _ _ => id, fun h => absurd trivial h⟩

variable {procs : List P}

theorem valid (hall : ∀ p, p ∈ procs) : outline.Valid (program size procs) where
  all := hall
  instr := fun _ k => respects k
  env := fun e => e.elim

theorem good_init : (outline : Outline P (St P) Unit Label).Good init :=
  .init id (fun _ => trivial) ⟨rfl, nofun, fun h => absurd rfl h⟩

variable {as : List (Monitor.Act P Input Empty)} {s : State P (St P) Unit Label}

/-- A SLEEPING `begin_op` CAN ALWAYS BE WOKEN: while `log.lock` is free, there is an operation or a commit
    if anybody sleeps; and if there is neither, the log is empty. -/
theorem begin_op_wakeable (hall : ∀ p, p ∈ procs) (hrun : Run.run (program size procs).step init as = some s)
    (hfree : s.lock = none) :
    (∀ p, s.asleep p = some () → s.data.committing = true ∨ 0 < s.data.outstanding) ∧
      (s.data.outstanding = 0 → s.data.committing = false → s.data.block.length = 0) := by
  have hsees : Run.Along (program size procs).step outline.Sees init as :=
    Run.along_of (Outline.sees_of fun _ _ _ => trivial) _ _
  have hgood := good_init.run (valid hall) hsees hrun
  refine ⟨fun p hp => hgood.reason hfree hp, fun hout hcommitting => ?_⟩
  have hbooks : Books s.data := hgood.free hfree
  have hops : s.data.ops = [] := by
    have := hbooks.outstanding
    exact length_eq_zero_iff.mp (by omega)
  by_contra hblock
  rcases hbooks.block fun h => hblock (by rw [h]; rfl) with hc | ho
  · rw [hcommitting] at hc
    cases hc
  · exact ho hops

/-- Four processes begin an operation, and there is no room for the fourth. -/
def fourthSleeps : List (Monitor.Act (Fin 4) Input Empty) :=
  (replicate 4 (.step 0 .beginOp)) ++ replicate 4 (.step 1 .beginOp) ++ replicate 4 (.step 2 .beginOp) ++
    replicate 7 (.step 3 .beginOp)

theorem begin_op_wakeable_fourthSleeps : ∃ s, Run.run (program 30 [0, 1, 2, 3]).step init fourthSleeps = some s ∧
    s.asleep 3 = some () ∧ (s.data.committing = true ∨ 0 < s.data.outstanding) := by
  have hrun : (Run.run (program 30 [0, 1, 2, 3]).step init fourthSleeps).any fun s =>
      decide (s.asleep 3 = some () ∧ s.lock = none) := by decide
  obtain ⟨s, hs, hasleep⟩ := (Option.any_eq_true _ _).mp hrun
  obtain ⟨hasleep, hfree⟩ := of_decide_eq_true hasleep
  exact ⟨s, hs, hasleep, (begin_op_wakeable (by decide) hs hfree).1 3 hasleep⟩

end Xv6.Log.Sleepers
