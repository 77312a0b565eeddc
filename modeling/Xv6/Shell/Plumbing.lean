import Xv6.Shell.Run

/-! Every command gets the descriptors that the constructs around it say.

    What a process holds is given by its next system call and the constructs around the part that it runs (`Local`);
    no process changes the descriptors of another, so this holds whatever the order of the system calls
    (`reached_local`). -/

namespace Xv6.Shell
open Descriptors List Option

variable {W : Type}

/-! ### The trees of the parser -/

/-- Every redirection is one of the descriptors 0 and 1. -/
def Cmd.Std : Cmd W → Prop
  | .exec _ => True
  | .redir c _ _ fd => c.Std ∧ (fd = 0 ∨ fd = 1)
  | .pipe l r => l.Std ∧ r.Std
  | .list l r => l.Std ∧ r.Std
  | .back c => c.Std

variable {c : Cmd W}

theorem std_redir (hc : c.Std) (tok : Tok W) (w : W) : (tok.redir c w).Std := by
  cases tok with
  | lt => exact ⟨hc, .inl rfl⟩
  | gt => exact ⟨hc, .inr rfl⟩
  | gtgt => exact ⟨hc, .inr rfl⟩
  | _ => exact hc

theorem std_wrap (hc : c.Std) (rs : List (Tok W × W)) : (wrap c rs).Std := by
  induction rs generalizing c with
  | nil => exact hc
  | cons r rs ih => exact ih (std_redir hc r.1 r.2)

theorem std_back (hc : c.Std) (n : Nat) : (Cmd.back^[n] c).Std := by
  induction n generalizing c with
  | zero => exact hc
  | succ n ih => exact ih (c := .back c) hc

theorem Derives.std {k : Nonterm} {ts : List (Tok W)} (h : Derives k ts c) : c.Std := by
  induction h with
  | line n _ ih => exact std_back ih n
  | list n _ _ ih ih' => exact ⟨std_back ih n, ih'⟩
  | exec _ ih => exact ih
  | pipe _ _ ih ih' => exact ⟨ih, ih'⟩
  | block _ _ ih => exact std_wrap ih _
  | simple => exact std_wrap (c := .exec _) trivial _

variable {π : List Frame}

theorem At.std {root : Cmd W} (h : At root π c) (hroot : root.Std) : c.Std := by
  induction h with
  | root => exact hroot
  | redir _ _ ih => exact ih.1
  | pipeL _ _ ih => exact ih.1
  | pipeR _ _ ih => exact ih.2
  | listL _ ih => exact ih.1
  | listR _ ih => exact ih.2
  | back _ ih => exact ih

/-! ### One process -/

/-- The descriptors 0, 1 and 2, and both ends of the `i`-th pipe. -/
def plugged (π : List Frame) (i : Nat) : List (Option Desc) :=
  table (some (stdin π)) (some (stdout π)) (some (.inherited 2)) (some (.pipeR i)) (some (.pipeW i))

/-- The descriptors 0, 1 and 2, and the write end of the `i`-th pipe. -/
def halfPlugged (π : List Frame) (i : Nat) : List (Option Desc) :=
  table (some (stdin π)) (some (stdout π)) (some (.inherited 2)) none (some (.pipeW i))

/-- Nothing but what the constructs around it have set, or a program has opened itself. -/
def Within (p : Proc W) : Prop :=
  ∀ d, some d ∈ p.fds → d = stdin p.ctx ∨ d = stdout p.ctx ∨ d = .inherited 2 ∨ d = .own

def Local (root : Cmd W) (p : Proc W) : Prop :=
  match p.pc with
  | .exec argv => At root p.ctx (.exec argv) ∧ p.fds = stdio p.ctx
  | .redirClose c file mode fd => At root p.ctx (.redir c file mode fd) ∧ p.fds = stdio p.ctx
  | .redirOpen c file mode fd => At root p.ctx (.redir c file mode fd) ∧ p.fds = Descriptors.close (stdio p.ctx) fd
  | .listFork l r => At root p.ctx (.list l r) ∧ p.fds = stdio p.ctx
  | .listWait r => (∃ l, At root p.ctx (.list l r)) ∧ p.fds = stdio p.ctx
  | .pipe l r => At root p.ctx (.pipe l r) ∧ p.fds = stdio p.ctx
  | .forkLeft l r => At root p.ctx (.pipe l r) ∧ p.p = (3, 4) ∧ p.fds = plugged p.ctx p.obj
  | .forkRight r => (∃ l, At root p.ctx (.pipe l r)) ∧ p.p = (3, 4) ∧ p.fds = plugged p.ctx p.obj
  | .close0 => p.p = (3, 4) ∧ p.fds = plugged p.ctx p.obj
  | .close1 => p.p = (3, 4) ∧ p.fds = halfPlugged p.ctx p.obj
  | .wait1 | .wait2 => p.fds = stdio p.ctx
  | .childClose side c => At root p.ctx c ∧ p.p = (3, 4) ∧
      ∃ π, p.ctx = side.frame p.obj :: π ∧ p.fds = plugged π p.obj
  | .childDup side c => At root p.ctx c ∧ p.p = (3, 4) ∧
      ∃ π, p.ctx = side.frame p.obj :: π ∧ p.fds = Descriptors.close (plugged π p.obj) side.fd
  | .childClose0 _ c => At root p.ctx c ∧ p.p = (3, 4) ∧ p.fds = plugged p.ctx p.obj
  | .childClose1 _ c => At root p.ctx c ∧ p.p = (3, 4) ∧ p.fds = halfPlugged p.ctx p.obj
  | .backFork c => At root p.ctx (.back c) ∧ p.fds = stdio p.ctx
  | .program | .exit => Within p
  | .exited => p.fds = []

section Local
variable {root c : Cmd W} {w w' : World W} {k : Nat} {p p' child : Proc W} {ch : Choice}
variable {d : Desc}

theorem mem_stdio : some d ∈ stdio π ↔ d = stdin π ∨ d = stdout π ∨ d = .inherited 2 := by
  simp [stdio, table]

theorem Within.of_stdio (h : p.fds = stdio p.ctx) : Within p := by
  intro d hd
  rw [h, mem_stdio] at hd
  tauto

/-- A process that has only the descriptors 0, 1 and 2 runs a part of the command. -/
theorem Local.runcmd (hc : At root p.ctx c) (hfds : p.fds = stdio p.ctx) (hpc : p.pc = Shell.runcmd c) : Local root p := by
  unfold Local
  rw [hpc]
  cases c with
  | exec argv =>
    cases argv with
    | nil => exact Within.of_stdio hfds
    | cons a argv => exact ⟨hc, hfds⟩
  | _ => exact ⟨hc, hfds⟩

variable {t : List (Option Desc)}

theorem mem_close {fd : Int} (h : some d ∈ Descriptors.close t fd) : some d ∈ t := by
  unfold Descriptors.close at h
  split at h
  · exact h
  · exact (mem_or_eq_of_mem_set h).resolve_right nofun

theorem mem_alloc {e : Desc} {r : Int × List (Option Desc)} (hr : alloc t e = some r)
    (h : some d ∈ r.2) : some d ∈ t ∨ d = e := by
  obtain ⟨i, -, rfl⟩ := map_eq_some_iff.mp hr
  rcases mem_or_eq_of_mem_set h with h | h
  · exact .inl h
  · exact .inr (some.inj h)

theorem mem_of_get {fd : Int} (h : get t fd = some d) : some d ∈ t := by
  unfold Descriptors.get at h
  split at h
  · cases h
  · exact mem_of_getElem? (join_eq_some_iff.mp h)

theorem mem_dup {fd : Int} (h : some d ∈ (dup t fd).2) : some d ∈ t := by
  unfold dup at h
  split at h
  · exact h
  next e he =>
    cases hr : alloc t e with
    | none =>
      rw [hr] at h
      exact h
    | some r =>
      rw [hr] at h
      rcases mem_alloc hr h with h | rfl
      · exact h
      · exact mem_of_get he

/-! ### One step -/

def Inv (root : Cmd W) (w : World W) : Prop := ∀ k < w.n, Local root (w.procs k)

theorem Inv.set (hI : Inv root w) (hp' : Local root p') : Inv root (w.set k p') := by
  intro i hi
  rcases eq_or_ne i k with rfl | hne
  · simpa [World.set] using hp'
  · simpa [World.set, hne] using hI i hi

theorem Inv.spawn (hI : Inv root w) (hchild : Local root child) : Inv root (w.spawn child) := by
  intro i hi
  rcases lt_or_eq_of_le (Nat.le_of_lt_succ hi) with hlt | rfl
  · have hne : i ≠ w.n := ne_of_lt hlt
    simpa [World.spawn, hne] using hI i hlt
  · simpa [World.spawn] using hchild

theorem Inv.fork (hI : Inv root w) (hp' : Local root p') (hchild : Local root child) :
    Inv root ((w.set k p').spawn child) := (hI.set hp').spawn hchild

theorem Inv.waitChild (hI : Inv root w) (h : w.waitChild k = some w') : Inv root w' := by
  unfold World.waitChild at h
  dsimp only at h
  split at h
  next i hfind =>
    cases h
    have hi : i < w.n := mem_range.mp (mem_filter.mp (mem_of_find?_eq_some hfind)).1
    exact hI.set (hI i hi)
  next =>
    split at h
    · cases h
      exact hI
    · cases h

/-- What a program does leaves it within its descriptors. -/
theorem Inv.program (hI : Inv root w) (hp : Within p) (hpc : p.pc = .program) (act : Act) :
    Inv root (program k p w act) := by
  have hlocal : ∀ {p' : Proc W}, p'.pc = .program ∨ p'.pc = .exit → p'.ctx = p.ctx →
      (∀ d, some d ∈ p'.fds → some d ∈ p.fds ∨ d = .own) → Local root p' := by
    intro p' hpc' hctx hfds
    have hw : Within p' := by
      intro d hd
      rw [hctx]
      rcases hfds d hd with h | h
      · exact hp d h
      · exact .inr (.inr (.inr h))
    rcases hpc' with hpc' | hpc' <;> (rw [Local, hpc']; exact hw)
  cases act with
  | close fd => exact hI.set (hlocal (.inl hpc) rfl fun d h => .inl (mem_close h))
  | dup fd => exact hI.set (hlocal (.inl hpc) rfl fun d h => .inl (mem_dup h))
  | «open» =>
    refine hI.set (hlocal (.inl hpc) rfl fun d h => ?_)
    cases hr : alloc p.fds .own with
    | none =>
      simp only [hr] at h
      exact .inl h
    | some r =>
      simp only [hr] at h
      exact mem_alloc hr h
  | fork => exact hI.spawn (hlocal (.inl hpc) rfl fun d h => .inl h)
  | exit => exact hI.set (hlocal (.inr rfl) rfl fun d h => .inl h)

/-- A SYSTEM CALL KEEPS THE DESCRIPTORS RIGHT. -/
theorem Inv.step (hroot : root.Std) (hI : Inv root w) (h : step ch k w = some w') : Inv root w' := by
  unfold Shell.step at h
  split at h
  case isFalse => cases h
  case isTrue hk =>
  have hL := hI k hk
  generalize w.procs k = p at h hL
  unfold syscall at h
  cases hpc : p.pc <;> simp only [hpc] at h <;> simp only [Local, hpc] at hL
  case exec argv =>
    cases h
    refine hI.set ?_
    cases ch.fails <;> exact Within.of_stdio hL.2
  case redirClose cmd file mode fd =>
    cases h
    refine hI.set ⟨hL.1, ?_⟩
    simp only [Proc.close]
    rw [hL.2]
  case redirOpen cmd file mode fd =>
    obtain ⟨hat, hfds⟩ := hL
    have hopen : alloc p.fds (.file w.m) = some ((fd : Int), stdio (.redir fd w.m :: p.ctx)) := by
      rw [hfds]
      rcases (hat.std hroot).2 with rfl | rfl <;> rfl
    rw [hopen] at h
    cases h
    exact Inv.set (w := { w with m := w.m + 1 }) hI (Local.runcmd (hat.redir w.m) rfl rfl)
  case listFork l r =>
    cases h
    exact hI.fork ⟨⟨l, hL.1⟩, hL.2⟩ (Local.runcmd hL.1.listL hL.2 rfl)
  case listWait r =>
    obtain ⟨w₁, hwait, rfl⟩ := map_eq_some_iff.mp h
    obtain ⟨⟨l, hat⟩, hfds⟩ := hL
    exact (hI.waitChild hwait).set (Local.runcmd hat.listR hfds rfl)
  case pipe l r =>
    obtain ⟨hat, hfds⟩ := hL
    have hopen : p.openPipe w.m = some ((3, 4), plugged p.ctx w.m) := by
      rw [Proc.openPipe, hfds]
      rfl
    rw [hopen] at h
    cases h
    exact Inv.set (w := { w with m := w.m + 1 }) hI ⟨hat, rfl, rfl⟩
  case forkLeft l r =>
    cases h
    obtain ⟨hat, hp, hfds⟩ := hL
    exact hI.fork ⟨⟨l, hat⟩, hp, hfds⟩ ⟨hat.pipeL _, hp, p.ctx, rfl, hfds⟩
  case forkRight r =>
    cases h
    obtain ⟨⟨l, hat⟩, hp, hfds⟩ := hL
    exact hI.fork ⟨hp, hfds⟩ ⟨hat.pipeR _, hp, p.ctx, rfl, hfds⟩
  case close0 =>
    cases h
    refine hI.set ⟨hL.1, ?_⟩
    simp only [Proc.close]
    rw [hL.1, hL.2]
    rfl
  case close1 =>
    cases h
    refine hI.set ?_
    simp only [Local, Proc.close]
    rw [hL.1, hL.2]
    rfl
  case wait1 =>
    obtain ⟨w₁, hwait, rfl⟩ := map_eq_some_iff.mp h
    exact (hI.waitChild hwait).set hL
  case wait2 =>
    obtain ⟨w₁, hwait, rfl⟩ := map_eq_some_iff.mp h
    exact (hI.waitChild hwait).set (Within.of_stdio hL)
  case childClose side cmd =>
    cases h
    obtain ⟨hat, hp, π, hctx, hfds⟩ := hL
    refine hI.set ⟨hat, hp, π, hctx, ?_⟩
    simp only [Proc.close]
    rw [hfds]
  case childDup side cmd =>
    cases h
    obtain ⟨hat, hp, π, hctx, hfds⟩ := hL
    refine hI.set ⟨hat, hp, ?_⟩
    simp only
    rw [hfds, hp, hctx]
    cases side <;> rfl
  case childClose0 side cmd =>
    cases h
    refine hI.set ⟨hL.1, hL.2.1, ?_⟩
    simp only [Proc.close]
    rw [hL.2.1, hL.2.2]
    rfl
  case childClose1 side cmd =>
    cases h
    refine hI.set (Local.runcmd hL.1 ?_ rfl)
    simp only [Proc.close]
    rw [hL.2.1, hL.2.2]
    rfl
  case backFork cmd =>
    cases h
    exact hI.fork (Within.of_stdio hL.2) (Local.runcmd hL.1.back hL.2 rfl)
  case program =>
    cases h
    exact hI.program hL hpc _
  case exit =>
    cases h
    exact hI.set rfl
  case exited => cases h

theorem reached_local (hroot : root.Std) (hw : Reached root w) : Inv root w := by
  obtain ⟨w₀, hstart, hrun⟩ := hw
  induction hrun with
  | refl =>
    intro k hk
    rw [hstart.n] at hk
    obtain rfl : k = 0 := by omega
    refine Local.runcmd ?_ ?_ hstart.pc
    · rw [hstart.ctx]
      exact .root
    · rw [hstart.fds, hstart.ctx]
  | tail _ hstep ih =>
    obtain ⟨c, k, hstep⟩ := hstep
    exact ih.step hroot hstep

/-! ### The ends of the pipes -/

theorem stdin_ne_pipeW (π : List Frame) (i : Nat) : stdin π ≠ .pipeW i := by
  induction π using stdin.induct with
  | case1 => exact nofun
  | case2 => exact nofun
  | case3 => exact nofun
  | case4 f π h1 h2 ih => rwa [stdin] <;> assumption

theorem stdout_ne_pipeR (π : List Frame) (i : Nat) : stdout π ≠ .pipeR i := by
  induction π using stdout.induct with
  | case1 => exact nofun
  | case2 => exact nofun
  | case3 => exact nofun
  | case4 f π h1 h2 ih => rwa [stdout] <;> assumption

variable {i : Nat}

theorem pipeR_mem_of_stdin (h : stdin π = .pipeR i) : .pipeR i ∈ π := by
  induction π using stdin.induct with
  | case1 => cases h
  | case2 => cases h
  | case3 j π =>
    cases h
    exact mem_cons_self ..
  | case4 f π h1 h2 ih =>
    rw [stdin] at h <;> try assumption
    exact mem_cons_of_mem _ (ih h)

theorem pipeL_mem_of_stdout (h : stdout π = .pipeW i) : .pipeL i ∈ π := by
  induction π using stdout.induct with
  | case1 => cases h
  | case2 => cases h
  | case3 j π =>
    cases h
    exact mem_cons_self ..
  | case4 f π h1 h2 ih =>
    rw [stdout] at h <;> try assumption
    exact mem_cons_of_mem _ (ih h)

/-- What a process can hold. -/
theorem Local.mem (hL : Local root p) (hd : some d ∈ p.fds) :
    (∃ π, π <:+ p.ctx ∧ (d = stdin π ∨ d = stdout π)) ∨ d = .inherited 2 ∨ d = .own ∨
      Plumbs p.obj p ∧ (d = .pipeR p.obj ∨ d = .pipeW p.obj) := by
  have hwithin : Within p → (∃ π, π <:+ p.ctx ∧ (d = stdin π ∨ d = stdout π)) ∨ d = .inherited 2 ∨ d = .own ∨
      Plumbs p.obj p ∧ (d = .pipeR p.obj ∨ d = .pipeW p.obj) := by
    intro hw
    rcases hw d hd with h | h | h | h
    · exact .inl ⟨_, suffix_rfl, .inl h⟩
    · exact .inl ⟨_, suffix_rfl, .inr h⟩
    · exact .inr (.inl h)
    · exact .inr (.inr (.inl h))
  have hplugged : ∀ {π : List Frame}, π <:+ p.ctx → Plumbs p.obj p → some d ∈ plugged π p.obj →
      (∃ π, π <:+ p.ctx ∧ (d = stdin π ∨ d = stdout π)) ∨ d = .inherited 2 ∨ d = .own ∨
        Plumbs p.obj p ∧ (d = .pipeR p.obj ∨ d = .pipeW p.obj) := by
    intro π hπ hplumbs h
    simp only [plugged, table, mem_cons, mem_replicate, some.injEq, reduceCtorEq, and_false, or_false] at h
    rcases h with h | h | h | h | h
    · exact .inl ⟨π, hπ, .inl h⟩
    · exact .inl ⟨π, hπ, .inr h⟩
    · exact .inr (.inl h)
    · exact .inr (.inr (.inr ⟨hplumbs, .inl h⟩))
    · exact .inr (.inr (.inr ⟨hplumbs, .inr h⟩))
  have hhalf : ∀ {π : List Frame}, some d ∈ halfPlugged π p.obj → some d ∈ plugged π p.obj := by
    intro π h
    simp only [halfPlugged, plugged, table, mem_cons, reduceCtorEq, false_or] at h ⊢
    tauto
  cases hpc : p.pc <;> simp only [Local, hpc] at hL
  case exec | redirClose | listFork | listWait | pipe | backFork => exact hwithin (Within.of_stdio hL.2)
  case wait1 | wait2 => exact hwithin (Within.of_stdio hL)
  case program | exit => exact hwithin hL
  case exited =>
    rw [hL] at hd
    cases hd
  case redirOpen =>
    refine hwithin fun e he => ?_
    rw [hL.2] at he
    exact (mem_stdio.mp (mem_close he)).imp_right fun h => h.imp_right .inl
  case forkLeft | forkRight => exact hplugged suffix_rfl (by simp [Plumbs, hpc]) (hL.2.2 ▸ hd)
  case close0 => exact hplugged suffix_rfl (by simp [Plumbs, hpc]) (hL.2 ▸ hd)
  case close1 => exact hplugged suffix_rfl (by simp [Plumbs, hpc]) (hhalf (hL.2 ▸ hd))
  case childClose =>
    obtain ⟨-, -, π, hctx, hfds⟩ := hL
    exact hplugged (hctx ▸ suffix_cons ..) (by simp [Plumbs, hpc]) (hfds ▸ hd)
  case childDup =>
    obtain ⟨-, -, π, hctx, hfds⟩ := hL
    exact hplugged (hctx ▸ suffix_cons ..) (by simp [Plumbs, hpc]) (mem_close (hfds ▸ hd))
  case childClose0 => exact hplugged suffix_rfl (by simp [Plumbs, hpc]) (hL.2.2 ▸ hd)
  case childClose1 => exact hplugged suffix_rfl (by simp [Plumbs, hpc]) (hhalf (hL.2.2 ▸ hd))

theorem Local.pipeR (hL : Local root p) (hd : some (.pipeR i) ∈ p.fds) : .pipeR i ∈ p.ctx ∨ Plumbs i p := by
  rcases hL.mem hd with ⟨π, hπ, h | h⟩ | h | h | ⟨hplumbs, h | h⟩
  · exact .inl (hπ.subset (pipeR_mem_of_stdin h.symm))
  · exact absurd h.symm (stdout_ne_pipeR π i)
  · cases h
  · cases h
  · cases h
    exact .inr hplumbs
  · cases h

theorem Local.pipeW (hL : Local root p) (hd : some (.pipeW i) ∈ p.fds) : .pipeL i ∈ p.ctx ∨ Plumbs i p := by
  rcases hL.mem hd with ⟨π, hπ, h | h⟩ | h | h | ⟨hplumbs, h | h⟩
  · exact absurd h.symm (stdin_ne_pipeW π i)
  · exact .inl (hπ.subset (pipeL_mem_of_stdout h.symm))
  · cases h
  · cases h
  · cases h
  · cases h
    exact .inr hplumbs

/-- Plugging in a pipe never has to wait. -/
theorem Plumbs.step (h : Plumbs i (w.procs k)) (hk : k < w.n) : ∃ w', step ch k w = some w' := by
  rw [Shell.step, if_pos hk, syscall]
  cases hpc : (w.procs k).pc <;> simp only [Plumbs, hpc, and_false] at h <;> exact ⟨_, rfl⟩

end Local

theorem held_iff {w : World W} {d : Desc} : w.held d = true ↔ ∃ k < w.n, some d ∈ (w.procs k).fds := by
  simp [World.held]

/-- THE DESCRIPTORS OF A COMMAND LINE, whatever the order of the system calls, the outcome of `exec` and the doings of
    the programs: a command that is part of a tree of the parser is executed with exactly the descriptors 0, 1 and 2,
    set by the innermost construct around it that sets them; a process that holds an end of a pipe runs the branch of
    the pipe that uses this end, or is still plugging it in, for which it never has to wait; so the write end is closed
    when nobody plugs in the pipe and all processes of its left branch have exited. -/
theorem command_descriptors (s : List UInt8) (root : Cmd (List UInt8)) (h0 : 0 ∉ s) (hs : parsecmd s = .ok root)
    (w : World (List UInt8)) (hw : Reached root w) :
    (∀ k < w.n, ∀ argv, (w.procs k).pc = .exec argv →
      At root (w.procs k).ctx (.exec argv) ∧ (w.procs k).fds = stdio (w.procs k).ctx) ∧
    (∀ k < w.n, ∀ i, (some (.pipeR i) ∈ (w.procs k).fds → .pipeR i ∈ (w.procs k).ctx ∨ Plumbs i (w.procs k)) ∧
      (some (.pipeW i) ∈ (w.procs k).fds → .pipeL i ∈ (w.procs k).ctx ∨ Plumbs i (w.procs k))) ∧
    (∀ k < w.n, ∀ i, Plumbs i (w.procs k) → ∀ ch, ∃ w', step ch k w = some w') ∧
    ∀ i, (∀ k < w.n, ¬ Plumbs i (w.procs k)) → (∀ k < w.n, .pipeL i ∈ (w.procs k).ctx → w.gone k = true) →
      w.held (.pipeW i) = false := by
  have hstd : root.Std := by
    have := parsecmd_sound h0
    rw [hs] at this
    exact Derives.std this
  have hI := reached_local hstd hw
  refine ⟨fun k hk argv hpc => ?_, fun k hk i => ⟨(hI k hk).pipeR, (hI k hk).pipeW⟩, fun k hk i h _ => h.step hk,
    fun i hplumbs hleft => ?_⟩
  · have hL := hI k hk
    rwa [Local, hpc] at hL
  · refine Bool.eq_false_iff.mpr fun hheld => ?_
    obtain ⟨k, hk, hd⟩ := held_iff.mp hheld
    have hL := hI k hk
    rcases hL.pipeW hd with hmem | h
    · have hgone := hleft k hk hmem
      unfold World.gone at hgone
      split at hgone
      next hpc =>
        rw [Local, hpc] at hL
        rw [hL] at hd
        cases hd
      · cases hgone
    · exact hplumbs k hk h

/-- The processes in turn. -/
def runs : List Nat → World W → Option (World W)
  | [], w => some w
  | k :: ks, w => (step ⟨false, .exit⟩ k w).bind (runs ks)

theorem runs_steps : ∀ {ks : List Nat} {w w' : World W}, runs ks w = some w' → Relation.ReflTransGen Step w w'
  | [], _, _, h => by cases h; exact .refl
  | k :: ks, w, w', h => by
    obtain ⟨w₁, hstep, hrest⟩ := bind_eq_some_iff.mp h
    exact .head ⟨_, k, hstep⟩ (runs_steps hrest)

/-- A process that has been forked to run `root`. -/
def fresh (root : Cmd W) : World W := ⟨1, fun _ => ⟨runcmd root, stdio [], (0, 0), none, false, [], 0⟩, 0⟩

theorem fresh_start (root : Cmd W) : Start root (fresh root) := ⟨rfl, rfl, rfl, rfl⟩

/-- The tree of `a|b>c`. -/
def pipeline : Cmd (List UInt8) := .pipe (.exec [[97]]) (.redir (.exec [[98]]) [99] 0x601 1)

/-- In `a|b>c` the right command reads from the pipe and writes to the file. -/
theorem command_descriptors_pipeline : parsecmd [97, 124, 98, 62, 99] = .ok pipeline ∧
    ∃ w, Reached pipeline w ∧ (w.procs 2).pc = .exec [[98]] ∧
      (w.procs 2).fds = table (some (.pipeR 0)) (some (.file 1)) (some (.inherited 2)) none none := by
  have hparse : parsecmd [97, 124, 98, 62, 99] = .ok pipeline := by decide +kernel
  have hrun : ((runs ([0, 0, 0] ++ replicate 6 2) (fresh pipeline)).any fun w =>
      decide (w.n = 3 ∧ (w.procs 2).pc = .exec [[98]] ∧ (w.procs 2).ctx = [.redir 1 1, .pipeR 0])) = true := by
    decide +kernel
  obtain ⟨w, hw, hfacts⟩ := (any_eq_true _ _).mp hrun
  obtain ⟨hn, hpc, hctx⟩ := of_decide_eq_true hfacts
  have hreached : Reached pipeline w := ⟨_, fresh_start pipeline, runs_steps hw⟩
  obtain ⟨hexec, -⟩ := command_descriptors _ pipeline (by decide) hparse w hreached
  refine ⟨hparse, w, hreached, hpc, ?_⟩
  rw [(hexec 2 (by omega) _ hpc).2, hctx]
  rfl

end Xv6.Shell
