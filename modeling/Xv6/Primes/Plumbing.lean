import Xv6.Primes.Code

/-! The descriptors of the chain.

    Process 0 is the feeder, and process `j + 1` reads from pipe `j`, which process `j` has made. Besides the
    console a process has at most three descriptors, 3, 4 and 5 (`slots`), and what they stand for is given by the
    system call that comes next (`Local`). Only the last process of the chain can make a pipe or fork (`Inv.fresh`,
    `Inv.forking`), so the numbers of processes and pipes stay in step. -/

namespace Xv6.Primes
open Descriptors Option

/-- The console, and the descriptors 3, 4 and 5. -/
def slots (a b c : Option Desc) : List (Option Desc) :=
  some .console :: some .console :: some .console :: a :: b :: c :: List.replicate 10 none

section Slots
variable {a b c : Option Desc} {x y d : Desc}

@[simp] theorem get_three : get (slots a b c) 3 = a := by cases a <;> rfl
@[simp] theorem get_four : get (slots a b c) 4 = b := by cases b <;> rfl
@[simp] theorem get_five : get (slots a b c) 5 = c := by cases c <;> rfl
@[simp] theorem close_three : Descriptors.close (slots (some x) b c) 3 = slots none b c := rfl
@[simp] theorem close_four : Descriptors.close (slots a (some x) c) 4 = slots a none c := rfl
@[simp] theorem close_five : Descriptors.close (slots a b (some x)) 5 = slots a b none := rfl
@[simp] theorem alloc_three : alloc (slots none b c) d = some (3, slots (some d) b c) := rfl
@[simp] theorem alloc_four : alloc (slots (some x) none c) d = some (4, slots (some x) (some d) c) := rfl
@[simp] theorem alloc_five : alloc (slots (some x) (some y) none) d = some (5, slots (some x) (some y) (some d)) := rfl

theorem mem_slots {d : Desc} (hd : d ≠ .console) : some d ∈ slots a b c ↔ a = some d ∨ b = some d ∨ c = some d := by
  simp only [slots, List.mem_cons, List.mem_replicate, some.injEq, hd, reduceCtorEq, and_false, false_or, or_false]
  simp only [eq_comm (a := some d)]

theorem count_slots_le : count (slots a b c) ≤ 6 := by
  cases a <;> cases b <;> cases c <;> exact Nat.le_of_ble_eq_true rfl

end Slots

/-! ### One process -/

/-- The feeder. -/
def Feeder (p : Proc) : Prop :=
  match p.pc with
  | .pipe0 | .wait | .panic | .exit => p.fds = slots none none none
  | .fork0 | .feedClose => p.pip0 = (3, 4) ∧ p.fds = slots (some (.read 0)) (some (.write 0)) none
  | .feed | .feedDone => p.pip0.2 = 4 ∧ p.fds = slots none (some (.write 0)) none
  | .exited => p.fds = []
  | _ => False

/-- The read end of pipe `j`, and besides it `x`. -/
def Reads (j : Nat) (x : Option Desc) (p : Proc) : Prop :=
  p.pip0.1 = 3 ∧ p.fds = slots (some (.read j)) none x ∨ p.pip0.1 = 4 ∧ p.fds = slots none (some (.read j)) x

/-- Both ends of pipe `j` in `pip_1`, and the read end of another one in `pip_0[0]`. -/
def Inherits (j : Nat) (p : Proc) : Prop :=
  ∃ i, p.pip0.1 = 5 ∧ p.pip1 = (3, 4) ∧ p.fds = slots (some (.read j)) (some (.write j)) (some (.read i)) ∨
    p.pip0.1 = 3 ∧ p.pip1 = (4, 5) ∧ p.fds = slots (some (.read i)) (some (.read j)) (some (.write j)) ∨
    p.pip0.1 = 4 ∧ p.pip1 = (3, 5) ∧ p.fds = slots (some (.read j)) (some (.read i)) (some (.write j))

/-- Both ends of pipe `j` in `pip_0`. -/
def Both (j : Nat) (p : Proc) : Prop :=
  p.pip0 = (3, 4) ∧ p.fds = slots (some (.read j)) (some (.write j)) none ∨
    p.pip0 = (4, 5) ∧ p.fds = slots none (some (.read j)) (some (.write j)) ∨
    p.pip0 = (3, 5) ∧ p.fds = slots (some (.read j)) none (some (.write j))

/-- The read end of pipe `j` in `pip_0[0]`, and both ends of pipe `j + 1` in `pip_1`. -/
def Creates (j : Nat) (p : Proc) : Prop :=
  p.pip0.1 = 3 ∧ p.pip1 = (4, 5) ∧ p.fds = slots (some (.read j)) (some (.read (j + 1))) (some (.write (j + 1))) ∨
    p.pip0.1 = 4 ∧ p.pip1 = (3, 5) ∧ p.fds = slots (some (.read (j + 1))) (some (.read j)) (some (.write (j + 1)))

/-- The write end of pipe `j + 1`, once the right neighbour has been created. -/
def outEnd (j : Nat) (created : Bool) : Option Desc := if created then some (.write (j + 1)) else none

/-- A prime process that reads from pipe `j`. -/
def Stage (j : Nat) (p : Proc) : Prop :=
  match p.pc with
  | .dup => j = 0 ∧ p.pip1 = (3, 4) ∧ p.fds = slots (some (.read 0)) (some (.write 0)) none
  | .print _ | .close0 => Inherits j p
  | .close1 => Both j p
  | .read | .closeIn => Reads j (outEnd j p.rightCreated) p ∧ (p.rightCreated = true → p.pip1.2 = 5)
  | .pipe1 | .panic => Reads j none p ∧ p.rightCreated = false
  | .fork1 | .closeR => Creates j p
  | .write => Reads j (some (.write (j + 1))) p ∧ p.rightCreated = true ∧ p.pip1.2 = 5
  | .closeOut => p.rightCreated = true ∧ p.pip1.2 = 5 ∧ p.fds = slots none none (some (.write (j + 1)))
  | .wait => p.fds = slots none none none
  | .exit => p.fds = slots none none none ∨ Reads j none p
  | .exited => p.fds = []
  | _ => False

def Local : Nat → Proc → Prop
  | 0 => Feeder
  | j + 1 => Stage j

/-- The process has not made its pipe yet, and may still do so. -/
def Fresh (p : Proc) : Prop :=
  match p.pc with
  | .pipe0 | .dup | .print _ | .close0 | .close1 | .pipe1 => True
  | .read => p.rightCreated = false
  | _ => False

/-- The process has made its pipe, and forks next. -/
def Forking (p : Proc) : Prop := p.pc = .fork0 ∨ p.pc = .fork1

structure Inv (w : World) : Prop where
  locals : ∀ k < w.n, Local k (w.procs k)
  fresh : ∀ k < w.n, Fresh (w.procs k) → k + 1 = w.n ∧ w.m = k
  forking : ∀ k < w.n, Forking (w.procs k) → k + 1 = w.n ∧ w.m = k + 1

/-! ### One step -/

attribute [local simp] Forking Fresh World.spawn

section Step
variable {w w' : World} {k j : Nat} {p p' child : Proc} {N : Int} {c : Choice}

attribute [local simp] World.set

/-- A process goes on without making a pipe or forking. -/
theorem Inv.set (hI : Inv w) (hk : k < w.n) (hlocal : Local k p') (hfresh : Fresh p' → Fresh (w.procs k))
    (hforking : ¬ Forking p') : Inv (w.set k p') := by
  refine ⟨fun i hi => ?_, fun i hi h => ?_, fun i hi h => ?_⟩ <;> rcases eq_or_ne i k with rfl | hne
  · simpa using hlocal
  · simpa [hne] using hI.locals i hi
  · exact hI.fresh i hi (hfresh (by simpa using h))
  · exact hI.fresh i hi (by simpa [hne] using h)
  · exact absurd (by simpa using h) hforking
  · exact hI.forking i hi (by simpa [hne] using h)

/-- Only one process can make a pipe or fork. -/
theorem Inv.last (hI : Inv w) {i : Nat} (hi : i < w.n) (hk : k + 1 = w.n) (h : Fresh (w.procs i) ∨ Forking (w.procs i)) :
    i = k := by
  rcases h with h | h
  · have := (hI.fresh i hi h).1
    omega
  · have := (hI.forking i hi h).1
    omega

/-- The last process makes its pipe. -/
theorem Inv.pipe (hI : Inv w) (hk : k < w.n) (h : Fresh (w.procs k)) (hlocal : Local k p') (hfresh : ¬ Fresh p') :
    Inv ({ w with m := w.m + 1, pipes := Function.update w.pipes w.m [] }.set k p') := by
  obtain ⟨hlast, hm⟩ := hI.fresh k hk h
  refine ⟨fun i hi => ?_, fun i hi h => ?_, fun i hi h => ?_⟩ <;> rcases eq_or_ne i k with rfl | hne
  · simpa using hlocal
  · simpa [hne] using hI.locals i hi
  · exact absurd (by simpa using h) hfresh
  · exact absurd (hI.last hi hlast (.inl (by simpa [hne] using h))) hne
  · exact ⟨hlast, congrArg (· + 1) hm⟩
  · exact absurd (hI.last hi hlast (.inr (by simpa [hne] using h))) hne

/-- The last process forks. -/
theorem Inv.fork (hI : Inv w) (hk : k < w.n) (h : Forking (w.procs k)) (hlocal : Local k p') (hfresh : ¬ Fresh p')
    (hforking : ¬ Forking p') (hchild : Local (k + 1) child) (hchild' : ¬ Forking child) :
    Inv ((w.set k p').spawn child) := by
  obtain ⟨hlast, hm⟩ := hI.forking k hk h
  have hset := hI.set hk hlocal (fun h => absurd h hfresh) hforking
  refine ⟨fun i hi => ?_, fun i hi h => ?_, fun i hi h => ?_⟩ <;>
    rcases lt_or_eq_of_le (Nat.le_of_lt_succ hi) with hlt | rfl
  · have hne : i ≠ w.n := ne_of_lt hlt
    simpa [hne] using hset.locals i hlt
  · simpa [← hlast] using hchild
  · have hne : i ≠ w.n := ne_of_lt hlt
    have hi := hset.last hlt hlast (.inl (by simpa [hne] using h))
    subst hi
    exact absurd (by simpa [hne] using h) hfresh
  · exact ⟨rfl, by simp only [World.set, World.spawn]; omega⟩
  · have hne : i ≠ w.n := ne_of_lt hlt
    have hi := hset.last hlt hlast (.inr (by simpa [hne] using h))
    subst hi
    exact absurd (by simpa [hne] using h) hforking
  · exact absurd (by simpa using h) hchild'

/-- What is in the pipes and on the console does not matter. -/
theorem Inv.congr (hI : Inv w) (hn : w'.n = w.n) (hprocs : w'.procs = w.procs) (hm : w'.m = w.m) : Inv w' := by
  obtain ⟨n, procs, m, pipes, out⟩ := w'
  subst hn hprocs hm
  exact ⟨hI.locals, hI.fresh, hI.forking⟩

theorem writeInt_eq {fd x : Int} (h : w.writeInt p fd x = some w') : w'.n = w.n ∧ w'.procs = w.procs ∧ w'.m = w.m := by
  unfold World.writeInt at h
  repeat' split at h
  all_goals first | (cases h; exact ⟨rfl, rfl, rfl⟩) | cases h

theorem readInt_eq {fd : Int} {r : Int × Option Int} (h : w.readInt p fd = some (w', r)) :
    w'.n = w.n ∧ w'.procs = w.procs ∧ w'.m = w.m := by
  unfold World.readInt at h
  repeat' split at h
  all_goals first | (cases h; exact ⟨rfl, rfl, rfl⟩) | cases h

theorem local_reaped {b : Bool} (h : Local k p) : Local k { p with reaped := b } := by
  cases k with
  | zero => exact h
  | succ j => exact h

/-- `wait` changes nothing but who has been waited for. -/
theorem Inv.waitChild (hI : Inv w) {b : Bool} (h : w.waitChild k = some (w', b)) :
    Inv w' ∧ w'.n = w.n ∧ w'.procs k = w.procs k := by
  unfold World.waitChild at h
  dsimp only at h
  split at h
  next i hfind =>
    cases h
    have hmem := List.mem_filter.mp (List.mem_of_find?_eq_some hfind)
    have hi : i < w.n := List.mem_range.mp hmem.1
    have hne : k ≠ i := by
      have := of_decide_eq_true hmem.2
      exact Ne.symm this.1
    refine ⟨?_, rfl, by simp [hne]⟩
    have hexited : (w.procs i).pc = .exited := by simpa using List.find?_some hfind
    refine hI.set hi (local_reaped (hI.locals i hi)) (fun h => h) fun h => ?_
    rcases h with h | h
    · exact nomatch hexited.symm.trans h
    · exact nomatch hexited.symm.trans h
  next =>
    split at h
    · cases h
      exact ⟨hI, rfl, rfl⟩
    · cases h

theorem feedTest_ok (hpip : p.pip0.2 = 4) (hfds : p.fds = slots none (some (.write 0)) none) :
    Feeder (p.feedTest N) ∧ ¬ Fresh (p.feedTest N) ∧ ¬ Forking (p.feedTest N) := by
  by_cases hle : p.i ≤ N
  · simp [Proc.feedTest, hle, Feeder, hpip, hfds]
  · simp [Proc.feedTest, hle, Feeder, hpip, hfds]

/-- THE FEEDER'S STEP. -/
theorem feeder_step (hI : Inv w) (hk : 0 < w.n) (h : syscall N c 0 (w.procs 0) w = some w') : Inv w' := by
  have hL : Feeder (w.procs 0) := hI.locals 0 hk
  have hfresh := hI.fresh 0 hk
  generalize hp : w.procs 0 = p at h hL hfresh
  have hset : ∀ {w₁ : World} {p'}, w₁.n = w.n → w₁.procs = w.procs → w₁.m = w.m → Feeder p' → ¬ Fresh p' → ¬ Forking p' →
      Inv (w₁.set 0 p') := fun hn hprocs hm hlocal hfr hfo =>
    (hI.congr hn hprocs hm).set (by rw [hn]; exact hk) hlocal (fun h => absurd h hfr) hfo
  unfold syscall at h
  cases hpc : p.pc <;> simp only [hpc] at h <;> simp only [Feeder, hpc] at hL
  case pipe0 =>
    have hm : w.m = 0 := (hfresh (by simp [hpc])).2
    split at h
    · cases h
      exact hset rfl rfl rfl hL (by simp) (by simp)
    next pip fds heq =>
      cases h
      split at heq
      · cases heq
      · rw [Proc.openPipe, hL, hm] at heq
        cases heq
        refine hI.pipe hk (by simp [hp, hpc]) ?_ (by simp)
        exact ⟨rfl, rfl⟩
  case fork0 =>
    split at h
    · cases h
      exact hset rfl rfl rfl hL (by simp) (by simp)
    · cases h
      refine hI.fork hk (.inl (by rw [hp, hpc])) hL (by simp) (by simp) ⟨rfl, hL.1, hL.2⟩ (by simp)
  case feedClose =>
    cases h
    have hclose : (p.close p.pip0.1).fds = slots none (some (.write 0)) none := by rw [Proc.close, hL.1, hL.2]; rfl
    have hpip : (p.close p.pip0.1).pip0.2 = 4 := congrArg Prod.snd hL.1
    obtain ⟨h1, h2, h3⟩ := feedTest_ok (p := { p.close p.pip0.1 with i := 2 }) (N := N) hpip hclose
    exact hset rfl rfl rfl h1 h2 h3
  case feed =>
    obtain ⟨w₁, hwrite, rfl⟩ := map_eq_some_iff.mp h
    obtain ⟨hn, hprocs, hm⟩ := writeInt_eq hwrite
    obtain ⟨h1, h2, h3⟩ := feedTest_ok (p := { p with i := toInt (p.i + 1) }) (N := N) hL.1 hL.2
    exact hset hn hprocs hm h1 h2 h3
  case feedDone =>
    cases h
    refine hset rfl rfl rfl ?_ (by simp) (by simp)
    change Descriptors.close p.fds p.pip0.2 = _
    rw [hL.1, hL.2]
    rfl
  case wait =>
    obtain ⟨r, hwait, rfl⟩ := map_eq_some_iff.mp h
    obtain ⟨hI', hn, hprocs⟩ := hI.waitChild hwait
    refine hI'.set (by rw [hn]; exact hk) ?_ (fun h => ?_) fun h => ?_
    · cases r.2 <;> exact hL
    · cases hr : r.2 <;> simp [hr] at h
    · cases hr : r.2 <;> simp [hr] at h
  case panic =>
    cases h
    exact hset rfl rfl rfl hL (by simp) (by simp)
  case exit =>
    cases h
    exact hset rfl rfl rfl rfl (by simp) (by simp)
  case exited => cases h

/-- What follows a step within the loop. -/
theorem loopEnd_ok (hL : Reads j (outEnd j p.rightCreated) p) (hpip : p.rightCreated = true → p.pip1.2 = 5) :
    Stage j p.loopEnd ∧ (Fresh p.loopEnd → p.rightCreated = false) ∧ ¬ Forking p.loopEnd := by
  by_cases hmore : p.noMoreInput = 0
  · rw [show p.loopEnd = { p with pc := .closeIn } by simp [Proc.loopEnd, hmore]]
    exact ⟨⟨hL, hpip⟩, False.elim, by simp⟩
  · rw [show p.loopEnd = { p with pc := .read } by simp [Proc.loopEnd, hmore]]
    exact ⟨⟨hL, hpip⟩, fun h => h, by simp⟩

theorem afterRead_ok (hL : Reads j (outEnd j p.rightCreated) p) (hpip : p.rightCreated = true → p.pip1.2 = 5) :
    Stage j p.afterRead ∧ (Fresh p.afterRead → p.rightCreated = false) ∧ ¬ Forking p.afterRead := by
  unfold Proc.afterRead
  split
  · cases hc : p.rightCreated with
    | true =>
      rw [hc] at hL
      exact ⟨⟨hL, rfl, hpip hc⟩, False.elim, by simp⟩
    | false =>
      rw [hc] at hL
      exact ⟨⟨hL, rfl⟩, fun _ => rfl, by simp⟩
  · exact loopEnd_ok hL hpip

theorem Reads.close {x : Option Desc} (h : Reads j x p) : Descriptors.close p.fds p.pip0.1 = slots none none x := by
  rcases h with ⟨hpip, hfds⟩ | ⟨hpip, hfds⟩
  · rw [hpip, hfds]; rfl
  · rw [hpip, hfds]; rfl

/-- A PRIME PROCESS'S STEP. -/
theorem stage_step (hI : Inv w) (hk : j + 1 < w.n) (h : syscall N c (j + 1) (w.procs (j + 1)) w = some w') : Inv w' := by
  have hL : Stage j (w.procs (j + 1)) := hI.locals (j + 1) hk
  have hfresh := hI.fresh (j + 1) hk
  generalize hp : w.procs (j + 1) = p at h hL hfresh
  have hset : ∀ {w₁ : World} {p'}, w₁.n = w.n → w₁.procs = w.procs → w₁.m = w.m → Stage j p' → (Fresh p' → Fresh p) →
      ¬ Forking p' → Inv (w₁.set (j + 1) p') := fun hn hprocs hm hlocal hfr hfo =>
    (hI.congr hn hprocs hm).set (by rw [hn]; exact hk) hlocal (by rw [hprocs, hp]; exact hfr) hfo
  unfold syscall at h
  cases hpc : p.pc <;> simp only [hpc] at h <;> simp only [Stage, hpc] at hL
  case dup =>
    cases h
    obtain ⟨rfl, hpip, hfds⟩ := hL
    refine hset rfl rfl rfl ⟨0, .inl ⟨?_, hpip, ?_⟩⟩ (fun _ => by simp [hpc]) (by simp [Proc.primeStart])
    · simp only [Proc.primeStart]
      rw [hpip, hfds]; rfl
    · simp only [Proc.primeStart]
      rw [hpip, hfds]; rfl
  case print cs =>
    have hfr : Fresh p := by simp [hpc]
    cases cs with
    | nil =>
      cases h
      exact hset rfl rfl rfl hL (fun _ => hfr) (by simp)
    | cons ch cs =>
      cases h
      cases cs with
      | nil => exact hset rfl rfl rfl hL (fun _ => hfr) (by simp)
      | cons ch' cs => exact hset rfl rfl rfl hL (fun _ => hfr) (by simp)
  case close0 =>
    cases h
    refine hset rfl rfl rfl ?_ (fun _ => by simp [hpc]) (by simp)
    obtain ⟨i, ⟨h1, h2, h3⟩ | ⟨h1, h2, h3⟩ | ⟨h1, h2, h3⟩⟩ := hL
    · exact .inl ⟨h2, by simp only [Proc.close]; rw [h1, h3]; rfl⟩
    · exact .inr (.inl ⟨h2, by simp only [Proc.close]; rw [h1, h3]; rfl⟩)
    · exact .inr (.inr ⟨h2, by simp only [Proc.close]; rw [h1, h3]; rfl⟩)
  case close1 =>
    cases h
    refine hset rfl rfl rfl ⟨?_, by exact nofun⟩ (fun _ => by simp [hpc]) (by simp)
    rcases hL with ⟨h1, h2⟩ | ⟨h1, h2⟩ | ⟨h1, h2⟩
    · exact .inl ⟨congrArg Prod.fst h1, by simp only [Proc.close]; rw [h1, h2]; rfl⟩
    · exact .inr ⟨congrArg Prod.fst h1, by simp only [Proc.close]; rw [h1, h2]; rfl⟩
    · exact .inl ⟨congrArg Prod.fst h1, by simp only [Proc.close]; rw [h1, h2]; rfl⟩
  case read =>
    obtain ⟨⟨w₁, r⟩, hread, rfl⟩ := map_eq_some_iff.mp h
    obtain ⟨hn, hprocs, hm⟩ := readInt_eq hread
    obtain ⟨h1, h2, h3⟩ := afterRead_ok (p := { p with noMoreInput := r.1, num := r.2.getD p.num }) hL.1 hL.2
    exact hset hn hprocs hm h1 (fun h => by rw [Fresh, hpc]; exact h2 h) h3
  case pipe1 =>
    have hfr : Fresh p := by simp [hpc]
    have hm : w.m = j + 1 := (hfresh hfr).2
    split at h
    · cases h
      exact hset rfl rfl rfl hL (fun _ => hfr) (by simp)
    next pip fds heq =>
      cases h
      split at heq
      · cases heq
      · refine hI.pipe hk (by rw [hp]; exact hfr) ?_ (by simp)
        rcases hL.1 with ⟨h1, h2⟩ | ⟨h1, h2⟩
        · rw [Proc.openPipe, h2, hm] at heq
          cases heq
          exact .inl ⟨h1, rfl, rfl⟩
        · rw [Proc.openPipe, h2, hm] at heq
          cases heq
          exact .inr ⟨h1, rfl, rfl⟩
  case fork1 =>
    split at h
    · cases h
      exact hset rfl rfl rfl hL (by simp) (by simp)
    · cases h
      refine hI.fork hk (.inr (by rw [hp, hpc])) hL (by simp) (by simp) ?_ (by simp [Proc.primeStart])
      exact ⟨j, .inr hL⟩
  case closeR =>
    cases h
    have hreads : Reads j (outEnd j true) (p.close p.pip1.1) := by
      rcases hL with ⟨h1, h2, h3⟩ | ⟨h1, h2, h3⟩
      · exact .inl ⟨h1, by simp only [Proc.close]; rw [h2, h3]; rfl⟩
      · exact .inr ⟨h1, by simp only [Proc.close]; rw [h2, h3]; rfl⟩
    have hpip : p.pip1.2 = 5 := by rcases hL with ⟨-, h2, -⟩ | ⟨-, h2, -⟩ <;> exact congrArg Prod.snd h2
    obtain ⟨h1, h2, h3⟩ := loopEnd_ok (p := { p.close p.pip1.1 with rightCreated := true }) hreads (fun _ => hpip)
    exact hset rfl rfl rfl h1 (fun h => nomatch h2 h) h3
  case write =>
    obtain ⟨w₁, hwrite, rfl⟩ := map_eq_some_iff.mp h
    obtain ⟨hn, hprocs, hm⟩ := writeInt_eq hwrite
    obtain ⟨hreads, hc, hpip⟩ := hL
    have hreads : Reads j (outEnd j p.rightCreated) p := by rw [hc]; exact hreads
    obtain ⟨h1, h2, h3⟩ := loopEnd_ok hreads (fun _ => hpip)
    exact hset hn hprocs hm h1 (fun h => by rw [hc] at h2; exact nomatch h2 h) h3
  case closeIn =>
    cases h
    have hclose := hL.1.close
    cases hc : p.rightCreated with
    | true =>
      rw [hc] at hclose
      exact hset rfl rfl rfl ⟨hc, hL.2 hc, hclose⟩ (by simp) (by simp)
    | false =>
      rw [hc] at hclose
      exact hset rfl rfl rfl (.inl hclose) (by simp) (by simp)
  case closeOut =>
    cases h
    refine hset rfl rfl rfl ?_ (by simp) (by simp)
    change Descriptors.close p.fds p.pip1.2 = _
    rw [hL.2.1, hL.2.2]
    rfl
  case wait =>
    obtain ⟨r, hwait, rfl⟩ := map_eq_some_iff.mp h
    obtain ⟨hI', hn, hprocs⟩ := hI.waitChild hwait
    refine hI'.set (by rw [hn]; exact hk) ?_ (fun h => ?_) fun h => ?_
    · cases r.2
      · exact .inl hL
      · exact hL
    · cases hr : r.2 <;> simp [hr] at h
    · cases hr : r.2 <;> simp [hr] at h
  case panic =>
    cases h
    exact hset rfl rfl rfl (.inr hL.1) (by simp) (by simp)
  case exit =>
    cases h
    exact hset rfl rfl rfl rfl (by simp) (by simp)
  case exited => cases h

end Step

/-! ### Every run -/

/-- Some process makes a system call. -/
def Step (N : Int) (w w' : World) : Prop := ∃ c k, step N c k w = some w'

def Reached (N : Int) (w : World) : Prop := ∃ w₀, Start w₀ ∧ Relation.ReflTransGen (Step N) w₀ w

theorem Start.inv {w : World} (h : Start w) : Inv w := by
  have hzero : ∀ k < w.n, k = 0 := fun k hk => by rw [h.n] at hk; omega
  refine ⟨fun k hk => ?_, fun k hk _ => ?_, fun k hk hf => ?_⟩ <;> obtain rfl := hzero k hk
  · change Feeder (w.procs 0)
    rw [Feeder, h.pc]
    exact h.fds
  · exact ⟨h.n.symm, h.m⟩
  · rcases hf with hf | hf <;> exact nomatch h.pc.symm.trans hf

theorem step_inv {N : Int} {w w' : World} (hI : Inv w) (hstep : Step N w w') : Inv w' := by
  obtain ⟨c, k, hstep⟩ := hstep
  unfold step at hstep
  split at hstep
  next hk =>
    cases k with
    | zero => exact feeder_step hI hk hstep
    | succ j => exact stage_step hI hk hstep
  next => cases hstep

theorem reached_inv {N : Int} {w : World} (h : Reached N w) : Inv w := by
  obtain ⟨w₀, hstart, hrun⟩ := h
  induction hrun with
  | refl => exact hstart.inv
  | tail _ hstep ih => exact step_inv ih hstep

/-- The process has reached its read loop. -/
def InLoop (p : Proc) : Prop :=
  match p.pc with
  | .dup | .print _ | .close0 | .close1 => False
  | _ => True

/-- The process is about to create its right neighbour: it has made the pipe, and not yet closed its read end. -/
def Creating (p : Proc) : Prop := p.pc = .fork1 ∨ p.pc = .closeR

section Ends
variable {w : World} {j k : Nat} {p : Proc} {d : Desc}

theorem Reads.mem {x : Option Desc} (h : Reads j x p) (hd : d ≠ .console) : some d ∈ p.fds ↔ d = .read j ∨ x = some d := by
  rcases h with ⟨-, hfds⟩ | ⟨-, hfds⟩
  · rw [hfds, mem_slots hd]
    simp [eq_comm]
  · rw [hfds, mem_slots hd]
    simp [eq_comm]

theorem outEnd_eq {created : Bool} : outEnd j created = some d ↔ d = .write (j + 1) ∧ created = true := by
  cases created <;> simp [outEnd, eq_comm]

/-- What a prime process holds once it has reached its loop, apart from the time in which it creates its right
    neighbour. -/
theorem Stage.ends (hL : Stage j p) (hloop : InLoop p) (hnot : ¬ Creating p) (hd : d ≠ .console) (hmem : some d ∈ p.fds) :
    d = .read j ∨ d = .write (j + 1) ∧ p.rightCreated = true := by
  cases hpc : p.pc <;> simp only [Stage, hpc] at hL <;> simp only [InLoop, hpc] at hloop
  case read => exact ((hL.1.mem hd).mp hmem).imp_right outEnd_eq.mp
  case closeIn => exact ((hL.1.mem hd).mp hmem).imp_right outEnd_eq.mp
  case pipe1 => exact ((hL.1.mem hd).mp hmem).imp_right nofun
  case panic => exact ((hL.1.mem hd).mp hmem).imp_right nofun
  case fork1 => exact absurd (.inl hpc) hnot
  case closeR => exact absurd (.inr hpc) hnot
  case write => exact ((hL.1.mem hd).mp hmem).imp_right fun h => ⟨(some.inj h).symm, hL.2.1⟩
  case closeOut =>
    rw [hL.2.2, mem_slots hd] at hmem
    simp only [reduceCtorEq, false_or, some.injEq] at hmem
    exact .inr ⟨hmem.symm, hL.1⟩
  case wait =>
    rw [hL, mem_slots hd] at hmem
    simp at hmem
  case exit =>
    rcases hL with hL | hL
    · rw [hL, mem_slots hd] at hmem
      simp at hmem
    · exact ((hL.mem hd).mp hmem).imp_right nofun
  case exited =>
    rw [hL] at hmem
    cases hmem

/-- What it holds while it creates its right neighbour. -/
theorem Stage.creating (hL : Stage j p) (hcreate : Creating p) (hd : d ≠ .console) (hmem : some d ∈ p.fds) :
    d = .read j ∨ d = .read (j + 1) ∨ d = .write (j + 1) := by
  have hfds : Creates j p := by rcases hcreate with hpc | hpc <;> simpa only [Stage, hpc] using hL
  rcases hfds with ⟨-, -, hfds⟩ | ⟨-, -, hfds⟩
  · rw [hfds, mem_slots hd] at hmem
    simp only [some.injEq] at hmem
    tauto
  · rw [hfds, mem_slots hd] at hmem
    simp only [some.injEq] at hmem
    tauto

/-- While it reads, a prime process has the read end of the pipe from its left, and the write end of the one to its
    right if it has created it. -/
theorem Stage.reading (hL : Stage j p) (hpc : p.pc = .read) (hd : d ≠ .console) :
    some d ∈ p.fds ↔ d = .read j ∨ d = .write (j + 1) ∧ p.rightCreated = true := by
  rw [Stage, hpc] at hL
  rw [hL.1.mem hd, outEnd_eq]

/-- The write ends of a process are those of its own pipe and, before its loop, of its left neighbour's. -/
theorem Local.write_mem (hL : Local k p) (hmem : some (.write j) ∈ p.fds) : k = j ∨ k = j + 1 ∧ ¬ InLoop p := by
  have hd : Desc.write j ≠ .console := nofun
  cases k with
  | zero =>
    change Feeder p at hL
    cases hpc : p.pc <;> simp only [Feeder, hpc] at hL
    case exited => rw [hL] at hmem; cases hmem
    case fork0 | feedClose | feed | feedDone =>
      rw [hL.2, mem_slots hd] at hmem
      simp only [reduceCtorEq, some.injEq, Desc.write.injEq, false_or, or_false] at hmem
      exact .inl hmem
    all_goals
      rw [hL, mem_slots hd] at hmem
      simp at hmem
  | succ i =>
    change Stage i p at hL
    by_cases hloop : InLoop p
    · by_cases hcreate : Creating p
      · left
        rcases hL.creating hcreate hd hmem with h | h | h
        · cases h
        · cases h
        · exact (Desc.write.inj h).symm
      · rcases hL.ends hloop hcreate hd hmem with h | ⟨h, -⟩
        · cases h
        · exact .inl (Desc.write.inj h).symm
    · right
      refine ⟨?_, hloop⟩
      cases hpc : p.pc <;> simp only [InLoop, hpc, not_true_eq_false] at hloop <;> simp only [Stage, hpc] at hL
      case dup =>
        rw [hL.2.2, mem_slots hd] at hmem
        simp only [reduceCtorEq, some.injEq, Desc.write.injEq, false_or, or_false] at hmem
        rw [hL.1, hmem]
      case close1 =>
        rcases hL with ⟨-, hfds⟩ | ⟨-, hfds⟩ | ⟨-, hfds⟩ <;> rw [hfds, mem_slots hd] at hmem <;> simpa using hmem
      case print | close0 =>
        obtain ⟨i', ⟨-, -, hfds⟩ | ⟨-, -, hfds⟩ | ⟨-, -, hfds⟩⟩ := hL <;> rw [hfds, mem_slots hd] at hmem <;>
          simpa using hmem

theorem Local.fds (hL : Local k p) : (∃ a b c, p.fds = slots a b c) ∨ p.fds = [] := by
  have hreads : ∀ {i x}, Reads i x p → (∃ a b c, p.fds = slots a b c) ∨ p.fds = [] := by
    intro i x h
    rcases h with ⟨-, h⟩ | ⟨-, h⟩ <;> exact .inl ⟨_, _, _, h⟩
  cases k with
  | zero =>
    change Feeder p at hL
    cases hpc : p.pc <;> simp only [Feeder, hpc] at hL
    case fork0 | feedClose | feed | feedDone => exact .inl ⟨_, _, _, hL.2⟩
    case exited => exact .inr hL
    all_goals exact .inl ⟨_, _, _, hL⟩
  | succ i =>
    change Stage i p at hL
    cases hpc : p.pc <;> simp only [Stage, hpc] at hL
    case dup => exact .inl ⟨_, _, _, hL.2.2⟩
    case print | close0 =>
      obtain ⟨i', ⟨-, -, h⟩ | ⟨-, -, h⟩ | ⟨-, -, h⟩⟩ := hL <;> exact .inl ⟨_, _, _, h⟩
    case close1 => rcases hL with ⟨-, h⟩ | ⟨-, h⟩ | ⟨-, h⟩ <;> exact .inl ⟨_, _, _, h⟩
    case read | closeIn | pipe1 | panic | write => exact hreads hL.1
    case fork1 | closeR => rcases hL with ⟨-, -, h⟩ | ⟨-, -, h⟩ <;> exact .inl ⟨_, _, _, h⟩
    case closeOut => exact .inl ⟨_, _, _, hL.2.2⟩
    case wait => exact .inl ⟨_, _, _, hL⟩
    case exit =>
      rcases hL with hL | hL
      · exact .inl ⟨_, _, _, hL⟩
      · exact hreads hL
    case exited => exact .inr hL

theorem Local.count_le (hL : Local k p) : count p.fds ≤ 6 := by
  rcases hL.fds with ⟨a, b, c, h⟩ | h
  · rw [h]
    exact count_slots_le
  · rw [h]
    exact Nat.zero_le 6

theorem Reads.get {x : Option Desc} (h : Reads j x p) : Descriptors.get p.fds p.pip0.1 = some (.read j) := by
  rcases h with ⟨hpip, hfds⟩ | ⟨hpip, hfds⟩
  · rw [hpip, hfds, get_three]
  · rw [hpip, hfds, get_four]

theorem held_iff : w.held d = true ↔ ∃ k < w.n, some d ∈ (w.procs k).fds := by
  simp [World.held]

/-- The pipe that a process in its loop reads has no writer but its left neighbour. -/
theorem Inv.writer (hI : Inv w) (hloop : InLoop (w.procs (j + 1))) {i : Nat} (hi : i < w.n)
    (hmem : some (.write j) ∈ (w.procs i).fds) : i = j := by
  rcases (hI.locals i hi).write_mem hmem with h | ⟨rfl, h⟩
  · exact h
  · exact absurd hloop h

theorem Inv.held_write (hI : Inv w) (hj : j < w.n) (hloop : InLoop (w.procs (j + 1))) :
    w.held (.write j) = true ↔ some (.write j) ∈ (w.procs j).fds := by
  rw [held_iff]
  constructor
  · rintro ⟨i, hi, hmem⟩
    rwa [hI.writer hloop hi hmem] at hmem
  · exact fun hmem => ⟨j, hj, hmem⟩

/-- `read` returns 0 when the pipe is empty and the left neighbour has closed it. -/
theorem Inv.read_zero (hI : Inv w) (hj : j + 1 < w.n) (hpc : (w.procs (j + 1)).pc = .read) :
    (w.readInt (w.procs (j + 1)) (w.procs (j + 1)).pip0.1).map (fun r => r.2.1) = some 0 ↔
      w.pipes j = [] ∧ some (.write j) ∉ (w.procs j).fds := by
  have hL : Stage j (w.procs (j + 1)) := hI.locals (j + 1) hj
  have hreads := hL
  rw [Stage, hpc] at hreads
  have hloop : InLoop (w.procs (j + 1)) := by rw [InLoop, hpc]; trivial
  have hheld := hI.held_write (by omega) hloop
  unfold World.readInt
  rw [hreads.1.get]
  dsimp only
  cases hpipe : w.pipes j with
  | cons x b => simp
  | nil =>
    dsimp only
    cases hw : w.held (.write j) with
    | true => simp [hheld.mp hw]
    | false =>
      have : some (.write j) ∉ (w.procs j).fds := fun h => by simp [hheld.mpr h] at hw
      simp [this]

end Ends

/-- THE DESCRIPTORS OF THE CHAIN, in every state of every run, `pipe` and `fork` failing or not: a prime process that
    has reached its loop and is not creating its right neighbour holds the read end of the pipe from its left and, if
    it has created a right neighbour, the write end of the pipe to it; nobody but the left neighbour can write to the
    pipe it reads, so its `read` returns 0 exactly when the left neighbour has closed the pipe and all has been read;
    and no process has more than six descriptors. -/
theorem chain_descriptors (N : Int) (w : World) (hw : Reached N w) :
    (∀ j, j + 1 < w.n → InLoop (w.procs (j + 1)) →
      (¬ Creating (w.procs (j + 1)) → ∀ d, d ≠ .console → some d ∈ (w.procs (j + 1)).fds →
        d = .read j ∨ d = .write (j + 1) ∧ (w.procs (j + 1)).rightCreated = true) ∧
      (Creating (w.procs (j + 1)) → ∀ d, d ≠ .console → some d ∈ (w.procs (j + 1)).fds →
        d = .read j ∨ d = .read (j + 1) ∨ d = .write (j + 1)) ∧
      (∀ i < w.n, some (.write j) ∈ (w.procs i).fds → i = j) ∧
      ((w.procs (j + 1)).pc = .read →
        (∀ d, d ≠ .console → (some d ∈ (w.procs (j + 1)).fds ↔
          d = .read j ∨ d = .write (j + 1) ∧ (w.procs (j + 1)).rightCreated = true)) ∧
        ((w.readInt (w.procs (j + 1)) (w.procs (j + 1)).pip0.1).map (fun r => r.2.1) = some 0 ↔
          w.pipes j = [] ∧ some (.write j) ∉ (w.procs j).fds))) ∧
    ∀ k < w.n, count (w.procs k).fds ≤ 6 := by
  have hI := reached_inv hw
  refine ⟨fun j hj hloop => ?_, fun k hk => (hI.locals k hk).count_le⟩
  have hL : Stage j (w.procs (j + 1)) := hI.locals (j + 1) hj
  exact ⟨fun hnot d hd hmem => hL.ends hloop hnot hd hmem, fun hcreate d hd hmem => hL.creating hcreate hd hmem,
    fun i hi hmem => hI.writer hloop hi hmem, fun hpc => ⟨fun d hd => hL.reading hpc hd, hI.read_zero hj hpc⟩⟩

/-! ### A run -/

/-- The processes in turn, with `pipe` and `fork` succeeding. -/
def runs (N : Int) : List Nat → World → Option World
  | [], w => some w
  | k :: ks, w => (step N ⟨false, none⟩ k w).bind (runs N ks)

theorem runs_steps {N : Int} : ∀ {ks : List Nat} {w w' : World}, runs N ks w = some w' → Relation.ReflTransGen (Step N) w w'
  | [], _, _, h => by cases h; exact .refl
  | k :: ks, w, w', h => by
    obtain ⟨w₁, hstep, hrest⟩ := bind_eq_some_iff.mp h
    exact .head ⟨_, k, hstep⟩ (runs_steps hrest)

def blank : World where
  n := 1
  procs _ := ⟨.pipe0, slots none none none, none, false, (0, 0), (0, 0), -1, -1, false, 0, 0, 0⟩
  m := 0
  pipes _ := []
  out := []

theorem blank_start : Start blank := ⟨rfl, rfl, rfl, rfl, rfl, rfl⟩

/-- The feeder writes 2 and 3, and the first prime process goes on until it is about to fork. -/
def untilFork : List Nat := List.replicate 5 0 ++ List.replicate 14 1

/-- The first prime process has read 2, and reads on. -/
theorem chain_descriptors_reading : ∃ w, Reached 280 w ∧ 1 < w.n ∧ InLoop (w.procs 1) ∧
    (∀ i < w.n, some (.write 0) ∈ (w.procs i).fds → i = 0) ∧ ∀ k < w.n, count (w.procs k).fds ≤ 6 := by
  have hrun : ((runs 280 (List.replicate 5 0 ++ List.replicate 12 1) blank).any fun w =>
      decide (1 < w.n ∧ (w.procs 1).pc = .read)) = true := by decide +kernel
  obtain ⟨w, hw, hfacts⟩ := (any_eq_true _ _).mp hrun
  obtain ⟨hn, hpc⟩ := of_decide_eq_true hfacts
  have hloop : InLoop (w.procs 1) := by rw [InLoop, hpc]; trivial
  have hreached : Reached 280 w := ⟨blank, blank_start, runs_steps hw⟩
  obtain ⟨hends, hcount⟩ := chain_descriptors 280 w hreached
  exact ⟨w, hreached, hn, hloop, (hends 0 hn hloop).2.2.1, hcount⟩

/-- While it creates its right neighbour a process holds the read end of the pipe to it, too. -/
theorem creating_holds_read : ∃ w, Reached 280 w ∧ w.n = 2 ∧ InLoop (w.procs 1) ∧ some (.read 1) ∈ (w.procs 1).fds := by
  have hrun : ((runs 280 untilFork blank).any fun w =>
      decide (w.n = 2 ∧ (w.procs 1).pc = .fork1 ∧ some (.read 1) ∈ (w.procs 1).fds)) = true := by decide +kernel
  obtain ⟨w, hw, hfacts⟩ := (any_eq_true _ _).mp hrun
  obtain ⟨hn, hpc, hmem⟩ := of_decide_eq_true hfacts
  exact ⟨w, ⟨blank, blank_start, runs_steps hw⟩, hn, by rw [InLoop, hpc]; trivial, hmem⟩

end Xv6.Primes
