import Xv6.Primes.Plumbing

/-! How the processes of the chain stand to each other, when `pipe` and `fork` succeed.

    All processes but the last have a right neighbour (`Forked`), which is the one child that they wait for. A process
    that has read the end of its input (`Finishing`) has a left neighbour that has closed the pipe between them and
    waits for it (`Tidy.closed`). So a process never waits in vain, and somebody can go on until all have exited
    (`Tidy.progress`), whatever the numbers in the pipes. -/

namespace Xv6.Primes
open Descriptors Function List

/-- The process has no right neighbour yet. -/
def unforked (p : Proc) : Bool :=
  match p.pc with
  | .feedClose | .feed | .feedDone | .closeR | .write | .closeOut | .wait => false
  | .read | .closeIn => !p.rightCreated
  | _ => true

/-- The process has a right neighbour, or has exited. -/
def Forked (p : Proc) : Prop := unforked p = false ∨ p.pc = .exit ∨ p.pc = .exited

/-- The process has read the end of its input. -/
def Finishing (p : Proc) : Prop :=
  match p.pc with
  | .pipe1 | .fork1 | .closeR | .write => p.noMoreInput = 0
  | .closeIn | .closeOut | .wait | .exit | .exited => True
  | _ => False

/-- The process waits for its child, or has done so. -/
def Waiting (p : Proc) : Prop := p.pc = .wait ∨ p.pc = .exit ∨ p.pc = .exited

structure Tidy (w : World) : Prop where
  inv : Inv w
  pos : 0 < w.n
  forked : ∀ k, k + 1 < w.n → Forked (w.procs k)
  last : ∀ k, k + 1 = w.n → unforked (w.procs k) = true
  orphan : (w.procs 0).parent = none
  parent : ∀ k, k + 1 < w.n → (w.procs (k + 1)).parent = some k
  reaped : ∀ k, k + 1 < w.n → (w.procs (k + 1)).reaped = true → Waiting (w.procs k)
  closed : ∀ k, k + 1 < w.n → Finishing (w.procs (k + 1)) → Waiting (w.procs k) ∧ w.pipes k = []
  empty : ∀ k < w.n, Forking (w.procs k) → w.pipes k = []
  calm : ∀ k < w.n, (w.procs k).pc ≠ .panic
  handed : ∀ k < w.n, (w.procs k).pc = .fork1 → (w.procs k).yourPr = (w.procs k).num

/-! ### Steps -/

variable {i : Nat}

section Move
variable {w w' : World} {cs : List Char} {k : Nat} {p' child : Proc} {ws : List Int}

/-- What a step of process `k` other than a fork does: it becomes `p'`, writes `ws` to its right neighbour and prints
    `cs`. -/
structure Move (w w' : World) (k : Nat) (p' : Proc) (ws : List Int) (cs : List Char) : Prop where
  n : w'.n = w.n
  procs : w'.procs = update w.procs k p'
  out : w'.out = w.out ++ cs
  pipes : ∀ i, i ≠ k → i + 1 ≠ k → w'.pipes i = w.pipes i
  left : ∀ j, j + 1 = k → w.pipes j = [] → w'.pipes j = []
  right : k + 1 < w.n → w'.pipes k = w.pipes k ++ ws
  same : p'.parent = (w.procs k).parent ∧ p'.reaped = (w.procs k).reaped
  forked : Forked (w.procs k) → Forked p'
  unforked : unforked (w.procs k) = true → unforked p' = true
  waiting : Waiting (w.procs k) → Waiting p' ∧ ws = []
  finishing : Finishing p' → ∀ j, j + 1 = k → Waiting (w.procs j) ∧ w'.pipes j = []
  empty : Forking p' → w'.pipes k = []
  calm : p'.pc ≠ .panic
  handed : p'.pc = .fork1 → p'.yourPr = p'.num

namespace Move

theorem self (h : Move w w' k p' ws cs) : w'.procs k = p' := by rw [h.procs, update_self]

theorem other (h : Move w w' k p' ws cs) (hi : i ≠ k) : w'.procs i = w.procs i := by
  rw [h.procs, update_of_ne hi]

theorem parent (h : Move w w' k p' ws cs) (i : Nat) : (w'.procs i).parent = (w.procs i).parent := by
  rcases eq_or_ne i k with rfl | hi
  · rw [h.self, h.same.1]
  · rw [h.other hi]

theorem reaped (h : Move w w' k p' ws cs) (i : Nat) : (w'.procs i).reaped = (w.procs i).reaped := by
  rcases eq_or_ne i k with rfl | hi
  · rw [h.self, h.same.2]
  · rw [h.other hi]

theorem still_waiting (h : Move w w' k p' ws cs) (hi : Waiting (w.procs i)) : Waiting (w'.procs i) := by
  rcases eq_or_ne i k with rfl | hne
  · rw [h.self]; exact (h.waiting hi).1
  · rwa [h.other hne]

end Move

theorem Tidy.move (hT : Tidy w) (hI : Inv w') (h : Move w w' k p' ws cs) : Tidy w' := by
  have hn := h.n
  constructor
  case inv => exact hI
  case pos => rw [hn]; exact hT.pos
  case forked =>
    intro i hi
    rcases eq_or_ne i k with rfl | hne
    · rw [h.self]; exact h.forked (hT.forked i (by omega))
    · rw [h.other hne]; exact hT.forked i (by omega)
  case last =>
    intro i hi
    rcases eq_or_ne i k with rfl | hne
    · rw [h.self]; exact h.unforked (hT.last i (by omega))
    · rw [h.other hne]; exact hT.last i (by omega)
  case orphan => rw [h.parent]; exact hT.orphan
  case parent => exact fun i hi => by rw [h.parent]; exact hT.parent i (by omega)
  case reaped => exact fun i hi hr => h.still_waiting (hT.reaped i (by omega) (by rwa [h.reaped] at hr))
  case closed =>
    intro i hi hf
    rcases eq_or_ne (i + 1) k with heq | hne
    · rw [heq, h.self] at hf
      obtain ⟨hwait, hpipe⟩ := h.finishing hf i heq
      exact ⟨h.still_waiting hwait, hpipe⟩
    · rw [h.other hne] at hf
      obtain ⟨hwait, hpipe⟩ := hT.closed i (by omega) hf
      refine ⟨h.still_waiting hwait, ?_⟩
      rcases eq_or_ne i k with rfl | hik
      · rw [h.right (by omega), hpipe, (h.waiting hwait).2]; rfl
      · rw [h.pipes i hik hne]; exact hpipe
  case empty =>
    intro i hi hf
    rcases eq_or_ne i k with rfl | hne
    · exact h.empty (h.self ▸ hf)
    · rw [h.other hne] at hf
      have hpipe := hT.empty i (by omega) hf
      rcases eq_or_ne (i + 1) k with heq | hik
      · exact h.left i heq hpipe
      · rw [h.pipes i hne hik]; exact hpipe
  case calm =>
    intro i hi
    rcases eq_or_ne i k with rfl | hne
    · rw [h.self]; exact h.calm
    · rw [h.other hne]; exact hT.calm i (by omega)
  case handed =>
    intro i hi hpc
    rcases eq_or_ne i k with rfl | hne
    · rw [h.self] at hpc ⊢; exact h.handed hpc
    · rw [h.other hne] at hpc ⊢; exact hT.handed i (by omega) hpc

/-- What a fork of the last process does: it becomes `p'`, and the new last process is `child`. -/
structure Fork (w : World) (k : Nat) (p' child : Proc) : Prop where
  last : k + 1 = w.n
  forking : Forking (w.procs k)
  unforked : unforked p' = false
  same : p'.parent = (w.procs k).parent ∧ p'.reaped = (w.procs k).reaped
  finishing : Finishing p' → Finishing (w.procs k)
  quiet : p'.pc ≠ .panic ∧ ¬ Forking p'
  born : child.parent = some k ∧ child.reaped = false
  born_pc : child.pc = .dup ∨ ∃ cs, child.pc = .print cs

/-- The processes of a world with one more. -/
structure Forks (w w' : World) (k : Nat) (p' child : Proc) : Prop where
  fork : Fork w k p' child
  n : w'.n = w.n + 1
  pipes : w'.pipes = w.pipes
  out : w'.out = w.out
  child : w'.procs w.n = child
  self : w'.procs k = p'
  other : ∀ i, i < k → w'.procs i = w.procs i

theorem Fork.forks (h : Fork w k p' child) : Forks w ((w.set k p').spawn child) k p' child where
  fork := h
  n := rfl
  pipes := rfl
  out := rfl
  child := by simp [World.spawn, World.set]
  self := by
    have hk : k ≠ w.n := by have := h.last; omega
    simp [World.spawn, World.set, hk]
  other i hi := by
    have hn : i ≠ w.n := by have := h.last; omega
    simp [World.spawn, World.set, hn, ne_of_lt hi]

theorem Forks.cases (h : Forks w w' k p' child) (hi : i < w'.n) : i < k ∨ i = k ∨ i = w.n := by
  have := h.n
  have := h.fork.last
  omega

theorem Forks.reaped (h : Forks w w' k p' child) (hi : i ≤ k) : (w'.procs i).reaped = (w.procs i).reaped := by
  rcases lt_or_eq_of_le hi with hlt | rfl
  · rw [h.other i hlt]
  · rw [h.self, h.fork.same.2]

theorem Tidy.fork (hT : Tidy w) (hI : Inv w') (h : Forks w w' k p' child) : Tidy w' := by
  have hn := h.n
  have hlast := h.fork.last
  have hborn : unforked child = true ∧ ¬ Finishing child ∧ ¬ Forking child ∧ child.pc ≠ .panic := by
    rcases h.fork.born_pc with hpc | ⟨cs, hpc⟩ <;> simp [Primes.unforked, Finishing, Forking, hpc]
  constructor
  case inv => exact hI
  case pos => omega
  case forked =>
    intro i hi
    rcases h.cases (i := i) (by omega) with hlt | rfl | rfl
    · rw [h.other i hlt]; exact hT.forked i (by omega)
    · rw [h.self]; exact .inl h.fork.unforked
    · omega
  case last =>
    intro i hi
    obtain rfl : i = w.n := by omega
    rw [h.child]
    exact hborn.1
  case orphan =>
    rcases eq_zero_or_pos k with rfl | hpos
    · rw [h.self, h.fork.same.1]; exact hT.orphan
    · rw [h.other 0 hpos]; exact hT.orphan
  case parent =>
    intro i hi
    rcases h.cases hi with hlt | heq | heq
    · rw [h.other _ hlt]; exact hT.parent i (by omega)
    · rw [heq, h.self, h.fork.same.1, ← heq]; exact hT.parent i (by omega)
    · obtain rfl : i = k := by omega
      rw [heq, h.child]; exact h.fork.born.1
  case reaped =>
    intro i hi hr
    rcases lt_or_eq_of_le (show i + 1 ≤ w.n by omega) with hlt | heq
    · rw [h.reaped (by omega)] at hr
      rw [h.other i (by omega)]
      exact hT.reaped i hlt hr
    · rw [heq, h.child, h.fork.born.2] at hr
      cases hr
  case closed =>
    intro i hi hf
    rcases h.cases hi with hlt | heq | heq
    · rw [h.other _ hlt] at hf
      rw [h.other i (by omega), h.pipes]
      exact hT.closed i (by omega) hf
    · rw [heq, h.self] at hf
      rw [h.other i (by omega), h.pipes]
      exact hT.closed i (by omega) (heq ▸ h.fork.finishing hf)
    · rw [heq, h.child] at hf
      exact absurd hf hborn.2.1
  case empty =>
    intro i hi hf
    rcases h.cases hi with hlt | rfl | rfl
    · rw [h.other i hlt] at hf
      rw [h.pipes]; exact hT.empty i (by omega) hf
    · rw [h.self] at hf
      exact absurd hf h.fork.quiet.2
    · rw [h.child] at hf
      exact absurd hf hborn.2.2.1
  case calm =>
    intro i hi
    rcases h.cases hi with hlt | rfl | rfl
    · rw [h.other i hlt]; exact hT.calm i (by omega)
    · rw [h.self]; exact h.fork.quiet.1
    · rw [h.child]; exact hborn.2.2.2
  case handed =>
    intro i hi hpc
    rcases h.cases hi with hlt | rfl | rfl
    · rw [h.other i hlt] at hpc ⊢; exact hT.handed i (by omega) hpc
    · rw [h.self] at hpc; exact absurd (.inr hpc) h.fork.quiet.2
    · rw [h.child] at hpc; exact absurd (.inr hpc) hborn.2.2.1

/-- `wait` has found the child. -/
structure Reap (w : World) (k : Nat) : Prop where
  lt : k + 1 < w.n
  pc : (w.procs k).pc = .wait
  unreaped : (w.procs (k + 1)).reaped = false

def World.reap (w : World) (k : Nat) : World := w.set (k + 1) { w.procs (k + 1) with reaped := true }

theorem reap_other (hne : i ≠ k + 1) : (w.reap k).procs i = w.procs i := update_of_ne hne ..

theorem reap_procs (i : Nat) : (w.reap k).procs i = { w.procs i with reaped := ((w.reap k).procs i).reaped } := by
  rcases eq_or_ne i (k + 1) with rfl | hne
  · simp [World.reap, World.set]
  · rw [reap_other hne]

theorem Tidy.reap (hT : Tidy w) (hI : Inv (w.reap k)) (h : Reap w k) : Tidy (w.reap k) := by
  constructor
  case inv => exact hI
  case pos => exact hT.pos
  case forked => exact fun i hi => by rw [reap_procs]; exact hT.forked i hi
  case last => exact fun i hi => by rw [reap_procs]; exact hT.last i hi
  case orphan => rw [reap_procs]; exact hT.orphan
  case parent => exact fun i hi => by rw [reap_procs]; exact hT.parent i hi
  case reaped =>
    intro i hi hr
    rw [reap_procs]
    rcases eq_or_ne i k with rfl | hne
    · exact .inl h.pc
    · rw [reap_other (by omega)] at hr
      exact hT.reaped i hi hr
  case closed => exact fun i hi hf => by rw [reap_procs] at hf ⊢; exact hT.closed i hi hf
  case empty => exact fun i hi hf => by rw [reap_procs] at hf; exact hT.empty i hi hf
  case calm => exact fun i hi => by rw [reap_procs]; exact hT.calm i hi
  case handed => exact fun i hi hpc => by rw [reap_procs] at hpc ⊢; exact hT.handed i hi hpc

end Move

/-! ### Nobody waits in vain -/

section Progress
variable {w : World} {N : Int} {j k : Nat} {p : Proc}

/-- A process with a right neighbour has the write end of the pipe to it until it waits. -/
theorem Local.write_held (hL : Local k p) (hf : Forked p) (hw : ¬ Waiting p) : some (.write k) ∈ p.fds := by
  have hd : Desc.write k ≠ .console := nofun
  cases k with
  | zero =>
    change Feeder p at hL
    cases hpc : p.pc <;> simp only [Feeder, hpc] at hL <;> simp [Forked, unforked, Waiting, hpc] at hf hw <;>
      rw [hL.2, mem_slots hd] <;> simp
  | succ j =>
    change Stage j p at hL
    cases hpc : p.pc <;> simp only [Stage, hpc] at hL <;> simp [Forked, unforked, Waiting, hpc] at hf hw
    case read | closeIn =>
      rw [hL.1.mem hd, hf]
      exact .inr rfl
    case closeR => rcases hL with ⟨-, -, hfds⟩ | ⟨-, -, hfds⟩ <;> rw [hfds, mem_slots hd] <;> simp
    case write =>
      rw [hL.1.mem hd]
      exact .inr rfl
    case closeOut =>
      rw [hL.2.2, mem_slots hd]
      simp

theorem Local.write_closed (hL : Local k p) (hw : Waiting p) : some (.write k) ∉ p.fds := by
  have hd : Desc.write k ≠ .console := nofun
  intro hmem
  cases k with
  | zero =>
    change Feeder p at hL
    rcases hw with hpc | hpc | hpc <;> simp only [Feeder, hpc] at hL <;> rw [hL] at hmem
    · simp [mem_slots hd] at hmem
    · simp [mem_slots hd] at hmem
    · cases hmem
  | succ j =>
    change Stage j p at hL
    rcases hw with hpc | hpc | hpc <;> simp only [Stage, hpc] at hL
    · rw [hL] at hmem
      simp [mem_slots hd] at hmem
    · rcases hL with hL | hL
      · rw [hL] at hmem
        simp [mem_slots hd] at hmem
      · rcases (hL.mem hd).mp hmem with h | h <;> cases h
    · rw [hL] at hmem
      cases hmem

/-- Until it has read the end of its input, a process has the read end of its pipe. -/
theorem Stage.read_held (hL : Stage j p) (hf : ¬ Finishing p) : some (.read j) ∈ p.fds := by
  have hd : Desc.read j ≠ .console := nofun
  cases hpc : p.pc <;> simp only [Stage, hpc] at hL <;> simp only [Finishing, hpc, not_true_eq_false] at hf
  case dup =>
    obtain ⟨rfl, -, hfds⟩ := hL
    rw [hfds, mem_slots hd]
    simp
  case print | close0 =>
    obtain ⟨i, ⟨-, -, hfds⟩ | ⟨-, -, hfds⟩ | ⟨-, -, hfds⟩⟩ := hL <;> rw [hfds, mem_slots hd] <;> simp
  case close1 => rcases hL with ⟨-, hfds⟩ | ⟨-, hfds⟩ | ⟨-, hfds⟩ <;> rw [hfds, mem_slots hd] <;> simp
  case read | pipe1 | write | panic => exact (hL.1.mem hd).mpr (.inl rfl)
  case fork1 | closeR => rcases hL with ⟨-, -, hfds⟩ | ⟨-, -, hfds⟩ <;> rw [hfds, mem_slots hd] <;> simp

/-- A `write` to the right neighbour is not lost: the neighbour can read it. -/
theorem Tidy.writeInt (hT : Tidy w) (hk : k + 1 < w.n) (hw : ¬ Waiting (w.procs k)) {fd x : Int}
    (hget : get (w.procs k).fds fd = some (.write k)) :
    w.writeInt (w.procs k) fd x =
      if (w.pipes k).length < capacity then some (w.setPipe k (w.pipes k ++ [x])) else none := by
  have hread : w.held (.read k) = true := by
    refine held_iff.mpr ⟨k + 1, hk, Stage.read_held (hT.inv.locals (k + 1) hk) fun hf => hw ?_⟩
    exact (hT.closed k hk hf).1
  rw [World.writeInt, hget]
  exact if_pos hread

/-- A `read` waits while its pipe is empty and its left neighbour can still write. -/
theorem Tidy.readInt (hT : Tidy w) (hj : j + 1 < w.n) (hpc : (w.procs (j + 1)).pc = .read) :
    w.readInt (w.procs (j + 1)) (w.procs (j + 1)).pip0.1 =
      match w.pipes j with
      | x :: b => some (w.setPipe j b, 4, some x)
      | [] => if some (.write j) ∈ (w.procs j).fds then none else some (w, 0, none) := by
  have hL : Stage j (w.procs (j + 1)) := hT.inv.locals (j + 1) hj
  simp only [Stage, hpc] at hL
  have hheld := hT.inv.held_write (Nat.lt_of_succ_lt hj) (by rw [InLoop, hpc]; trivial)
  cases hpipe : w.pipes j with
  | nil => simp only [World.readInt, hL.1.get, hpipe, hheld]
  | cons x b => simp only [World.readInt, hL.1.get, hpipe]

/-- The one child to wait for is the right neighbour. -/
theorem Tidy.kid (hT : Tidy w) (hk : k + 1 < w.n) :
    i ∈ (range w.n).filter (fun i => i ≠ k ∧ (w.procs i).parent = some k ∧ (w.procs i).reaped = false) ↔
      i = k + 1 ∧ (w.procs (k + 1)).reaped = false := by
  rw [mem_filter, mem_range, decide_eq_true_iff]
  constructor
  · rintro ⟨hi, -, hparent, hr⟩
    cases i with
    | zero => rw [hT.orphan] at hparent; cases hparent
    | succ i =>
      rw [hT.parent i hi] at hparent
      obtain rfl := Option.some.inj hparent
      exact ⟨rfl, hr⟩
  · rintro ⟨rfl, hr⟩
    exact ⟨hk, by omega, hT.parent k hk, hr⟩

theorem Tidy.waitChild (hT : Tidy w) (hk : k + 1 < w.n) :
    w.waitChild k = if (w.procs (k + 1)).reaped then some (w, false)
      else if (w.procs (k + 1)).pc = .exited then some (w.reap k, true) else none := by
  have hkid := fun i => hT.kid hk (i := i)
  unfold World.waitChild
  dsimp only
  generalize (range w.n).filter _ = kids at hkid
  cases hr : (w.procs (k + 1)).reaped with
  | true =>
    obtain rfl : kids = [] := eq_nil_iff_forall_not_mem.mpr fun i hi => by
      have := ((hkid i).mp hi).2
      rw [hr] at this
      cases this
    rfl
  | false =>
    have hmem : k + 1 ∈ kids := (hkid _).mpr ⟨rfl, hr⟩
    cases hfind : kids.find? fun i => (w.procs i).pc = .exited with
    | none =>
      have hpc : (w.procs (k + 1)).pc ≠ .exited := by simpa using find?_eq_none.mp hfind _ hmem
      simp [hpc, ne_nil_of_mem hmem]
    | some i =>
      obtain ⟨rfl, -⟩ := (hkid i).mp (mem_of_find?_eq_some hfind)
      have hpc : (w.procs (k + 1)).pc = .exited := by simpa using find?_some hfind
      simp [hpc, World.reap]

/-- Why process `k` cannot make its system call. -/
inductive Blocked (w : World) : Nat → Prop
  | exited {k : Nat} (hpc : (w.procs k).pc = .exited) : Blocked w k
  | child {k : Nat} (hlt : k + 1 < w.n) (hw : Waiting (w.procs k)) (hpc : (w.procs (k + 1)).pc ≠ .exited) : Blocked w k
  | input {j : Nat} (hpc : (w.procs (j + 1)).pc = .read) (hempty : w.pipes j = [])
      (hwrite : some (.write j) ∈ (w.procs j).fds) : Blocked w (j + 1)
  | output {k : Nat} (hlt : k + 1 < w.n) (hpc : (w.procs k).pc = .feed ∨ (w.procs k).pc = .write)
      (hfull : w.pipes k ≠ []) : Blocked w k

theorem Tidy.right (hT : Tidy w) (hk : k < w.n) (h : unforked (w.procs k) = false) : k + 1 < w.n := by
  rcases lt_or_eq_of_le (Nat.succ_le_of_lt hk) with hlt | heq
  · exact hlt
  · rw [hT.last k heq] at h
    cases h

theorem Tidy.blocked_write (hT : Tidy w) (hk : k < w.n) (hpc : (w.procs k).pc = .feed ∨ (w.procs k).pc = .write)
    {fd x : Int} (hget : get (w.procs k).fds fd = some (.write k)) (h : w.writeInt (w.procs k) fd x = none) :
    Blocked w k := by
  have hlt : k + 1 < w.n := hT.right hk (by rcases hpc with hpc | hpc <;> simp [unforked, hpc])
  have hw : ¬ Waiting (w.procs k) := by rcases hpc with hpc | hpc <;> simp [Waiting, hpc]
  refine .output hlt hpc fun hempty => ?_
  rw [hT.writeInt hlt hw hget, hempty] at h
  cases h

theorem Tidy.blocked (hT : Tidy w) (hk : k < w.n) {c : Choice} (h : syscall N c k (w.procs k) w = none) : Blocked w k := by
  have hL := hT.inv.locals k hk
  generalize hp : w.procs k = p at h hL
  unfold syscall at h
  cases hpc : p.pc <;> simp only [hpc] at h
  case exited => exact .exited (by rw [hp, hpc])
  case print cs => cases cs <;> cases h
  case wait =>
    have hlt := hT.right hk (by simp [unforked, hp, hpc])
    rw [Option.map_eq_none_iff, hT.waitChild hlt] at h
    refine .child hlt (by rw [hp]; exact .inl hpc) fun hex => ?_
    rw [hex] at h
    split at h <;> cases h
  case read =>
    cases k with
    | zero =>
      change Feeder p at hL
      simp only [Feeder, hpc] at hL
    | succ j =>
      rw [Option.map_eq_none_iff, ← hp, hT.readInt hk (by rw [hp, hpc])] at h
      split at h
      · cases h
      · split at h
        next hempty hwrite => exact .input (by rw [hp, hpc]) hempty hwrite
        · cases h
  case feed =>
    cases k with
    | zero =>
      change Feeder p at hL
      simp only [Feeder, hpc] at hL
      rw [Option.map_eq_none_iff, ← hp] at h
      refine hT.blocked_write hk (.inl (by rw [hp, hpc])) ?_ h
      rw [hp, hL.1, hL.2, get_four]
    | succ j =>
      change Stage j p at hL
      simp only [Stage, hpc] at hL
  case write =>
    cases k with
    | zero =>
      change Feeder p at hL
      simp only [Feeder, hpc] at hL
    | succ j =>
      change Stage j p at hL
      simp only [Stage, hpc] at hL
      rw [Option.map_eq_none_iff, ← hp] at h
      refine hT.blocked_write hk (.inr (by rw [hp, hpc])) ?_ h
      rw [hp, hL.2.2]
      rcases hL.1 with ⟨-, hfds⟩ | ⟨-, hfds⟩ <;> rw [hfds, get_five]
  all_goals first | cases h | (split at h <;> cases h)

/-- If nobody can go on, nobody waits for input: the leftmost of those who do has a left neighbour that could write. -/
theorem Tidy.no_read (hT : Tidy w) (h : ∀ k < w.n, Blocked w k) : ∀ k < w.n, (w.procs k).pc ≠ .read := by
  intro k hk
  induction k with
  | zero =>
    intro hpc
    have hL : Feeder (w.procs 0) := hT.inv.locals 0 hk
    simp only [Feeder, hpc] at hL
  | succ j ih =>
    intro hpc
    have hj : j < w.n := Nat.lt_of_succ_lt hk
    have hL := hT.inv.locals j hj
    obtain ⟨hempty, hwrite⟩ : w.pipes j = [] ∧ some (.write j) ∈ (w.procs j).fds := by
      cases h (j + 1) hk with
      | exited hpc' => cases hpc.symm.trans hpc'
      | child _ hw => rcases hw with hpc' | hpc' | hpc' <;> cases hpc.symm.trans hpc'
      | input _ hempty hwrite => exact ⟨hempty, hwrite⟩
      | output _ hpc' => rcases hpc' with hpc' | hpc' <;> cases hpc.symm.trans hpc'
    cases h j hj with
    | exited hpc' => exact hL.write_closed (.inr (.inr hpc')) hwrite
    | child _ hw => exact hL.write_closed hw hwrite
    | input hpc' => exact ih hj hpc'
    | output _ _ hfull => exact hfull hempty

/-- SOMEBODY CAN GO ON, unless all have exited. -/
theorem Tidy.progress (hT : Tidy w) (h : ∀ k < w.n, Blocked w k) : ∀ k < w.n, (w.procs k).pc = .exited := by
  have hread := hT.no_read h
  -- From the last process to the first: a process whose right neighbour has exited waits neither for it nor for room.
  suffices hd : ∀ d k, k + d + 1 = w.n → (w.procs k).pc = .exited from fun k hk => hd (w.n - (k + 1)) k (by omega)
  intro d
  induction d with
  | zero =>
    intro k hk
    cases h k (by omega) with
    | exited hpc => exact hpc
    | child hlt => omega
    | input hpc => exact absurd hpc (hread _ (by omega))
    | output hlt => omega
  | succ d ih =>
    intro k hk
    have hnext := ih (k + 1) (by omega)
    cases h k (by omega) with
    | exited hpc => exact hpc
    | child _ _ hpc => exact absurd hnext hpc
    | input hpc => exact absurd hpc (hread _ (by omega))
    | output hlt hpc =>
      have hw := (hT.closed k hlt (by simp [Finishing, hnext])).1
      rcases hpc with hpc | hpc <;> simp [Waiting, hpc] at hw

end Progress

end Xv6.Primes
