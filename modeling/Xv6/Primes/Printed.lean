import Xv6.Primes.Pipeline

/-! Every system call is a move, a fork or a reap (`Effect`), so the chain prints the primes.

    One inversion lemma for the feeder and one for the prime processes say what a system call does, for any bound `N`.
    Only the feeder's counter needs more: it must not overflow (`Exact`). -/

namespace Xv6.Primes
open Descriptors Function List

attribute [local simp] Finishing Forked Forking Waiting cost sends text todo

attribute [local simp] beforeFeed unforked

section Effect
variable {N : Int} {w w' w₁ : World} {txt cs : List Char} {t j k : Nat} {p p' child : Proc} {xs ws : List Int}

/-- The feeder's counter is within the bounds, and the bound is below `INT_MAX`. -/
structure Exact (N : Int) (w : World) : Prop where
  bound : N + 1 < 2 ^ 31
  counter : (w.procs 0).pc = .feed → 2 ≤ (w.procs 0).i ∧ (w.procs 0).i ≤ N

/-- What a system call of process `k` does. -/
inductive Effect (N : Int) (w : World) (k : Nat) : World → Prop
  | move {w' : World} {p' : Proc} {ws : List Int} {cs : List Char} (h : Move w w' k p' ws cs)
      (ha : Exact N w → Act N (w.procs (k + 1)).reaped (w.procs k) p' (pending N w k) (pending N w' k) ws cs) :
      Effect N w k w'
  | fork {p' child : Proc} {q : Int} {ys : List Int} (h : Fork w k p' child)
      (hb : Birth N (w.procs k) p' child (pending N w k) q ys) : Effect N w k ((w.set k p').spawn child)
  | reap (h : Reap w k) : Effect N w k (w.reap k)

/-- What a process keeps when it goes on. -/
structure Keeps (p p' : Proc) : Prop where
  same : p'.parent = p.parent ∧ p'.reaped = p.reaped
  forked : Forked p → Forked p'
  unforked : unforked p = true → unforked p' = true
  waiting : Waiting p → Waiting p'
  calm : p'.pc ≠ .panic
  handed : p'.pc = .fork1 → p'.yourPr = p'.num

/-- A step that touches no pipe but the one to the right. -/
theorem Effect.ahead (hp : w.procs k = p) (hn : w₁.n = w.n) (hprocs : w₁.procs = w.procs)
    (hout : w₁.out = w.out ++ cs) (hpipes : ∀ i, i ≠ k → w₁.pipes i = w.pipes i)
    (hright : k + 1 < w.n → w₁.pipes k = w.pipes k ++ ws) (hempty : Forking p' → w₁.pipes k = [])
    (hkeeps : Keeps p p') (hfin : ∀ j, j + 1 = k → Finishing p' → Waiting (w.procs j) ∧ w.pipes j = [])
    (hws : Waiting p → ws = [])
    (ha : Exact N w → Act N (w.procs (k + 1)).reaped p p' (pending N w k) (pending N w k) ws cs) :
    Effect N w k (w₁.set k p') := by
  have hmove : Move w (w₁.set k p') k p' ws cs := {
    n := hn
    procs := by rw [World.set, hprocs]
    out := hout
    pipes := fun i hi _ => hpipes i hi
    left := fun j hj h => (hpipes j (by omega)).trans h
    right := hright
    same := hp ▸ hkeeps.same
    forked := hp ▸ hkeeps.forked
    unforked := hp ▸ hkeeps.unforked
    waiting := fun h => ⟨hkeeps.waiting (hp ▸ h), hws (hp ▸ h)⟩
    finishing := fun h j hj => by
      obtain ⟨hw, hempty⟩ := hfin j hj h
      exact ⟨hw, (hpipes j (by omega)).trans hempty⟩
    empty := hempty
    calm := hkeeps.calm
    handed := hkeeps.handed }
  refine .move hmove fun hexact => ?_
  rw [pending_self (fun i hi => hmove.other (ne_of_lt hi)) fun i hi => hpipes i (ne_of_lt hi), hp]
  exact ha hexact

theorem Tidy.still_closed (hT : Tidy w) (hk : k < w.n) (hp : w.procs k = p)
    (hfin : ∀ j, j + 1 = k → Finishing p' → Finishing p) :
    ∀ j, j + 1 = k → Finishing p' → Waiting (w.procs j) ∧ w.pipes j = [] := by
  rintro j rfl h
  exact hT.closed j hk (hp ▸ hfin j rfl h)

/-- A step that touches no pipe. -/
theorem Effect.silent (hT : Tidy w) (hk : k < w.n) (hp : w.procs k = p) (hkeeps : Keeps p p') (hforking : ¬ Forking p')
    (hfin : ∀ j, j + 1 = k → Finishing p' → Finishing p)
    (ha : Act N (w.procs (k + 1)).reaped p p' (pending N w k) (pending N w k) [] []) : Effect N w k (w.set k p') :=
  .ahead hp rfl rfl (append_nil _).symm (fun _ _ => rfl) (fun _ => (append_nil _).symm)
    (fun h => absurd h hforking) hkeeps (hT.still_closed hk hp hfin) (fun _ => rfl) fun _ => ha

/-- The last process makes its pipe. -/
theorem Effect.pipe (hT : Tidy w) (hk : k < w.n) (hp : w.procs k = p) (hfresh : Fresh p) (hkeeps : Keeps p p')
    (hfin : ∀ j, j + 1 = k → Finishing p' → Finishing p)
    (ha : Act N (w.procs (k + 1)).reaped p p' (pending N w k) (pending N w k) [] []) :
    Effect N w k ({ w with m := w.m + 1, pipes := update w.pipes w.m [] }.set k p') := by
  obtain ⟨hlast, rfl⟩ := hT.inv.fresh k hk (hp ▸ hfresh)
  exact .ahead hp rfl rfl (append_nil _).symm (fun _ hi => update_of_ne hi ..) (fun h => by omega)
    (fun _ => update_self ..) hkeeps (hT.still_closed hk hp hfin) (fun _ => rfl) fun _ => ha

variable {x : Int}

/-- A process writes to its right neighbour. -/
theorem Effect.write (hT : Tidy w) (hk : k < w.n) (hp : w.procs k = p) (hkeeps : Keeps p p')
    (hforking : ¬ Forking p') (hfin : ∀ j, j + 1 = k → Finishing p' → Finishing p) (hw : ¬ Waiting p)
    (ha : Exact N w → Act N (w.procs (k + 1)).reaped p p' (pending N w k) (pending N w k) [x] []) :
    Effect N w k ((w.setPipe k (w.pipes k ++ [x])).set k p') :=
  .ahead hp rfl rfl (append_nil _).symm (fun _ hi => update_of_ne hi ..)
    (fun _ => update_self ..) (fun h => absurd h hforking) hkeeps (hT.still_closed hk hp hfin) (fun h => absurd h hw) ha

/-- A process takes a number from the pipe. -/
theorem Effect.read (hk : j + 1 < w.n) (hp : w.procs (j + 1) = p) {b : List Int} (hpipe : w.pipes j = x :: b)
    (hkeeps : Keeps p p') (hforking : ¬ Forking p') (hfin : ¬ Finishing p')
    (ha : ∀ xs, Act N (w.procs (j + 1 + 1)).reaped p p' (x :: xs) xs [] []) :
    Effect N w (j + 1) ((w.setPipe j b).set (j + 1) p') := by
  have hpipes : ∀ i, i ≠ j → (w.setPipe j b).pipes i = w.pipes i := fun i hi => update_of_ne hi ..
  have hmove : Move w ((w.setPipe j b).set (j + 1) p') (j + 1) p' [] [] := {
    n := rfl
    procs := rfl
    out := (append_nil _).symm
    pipes := fun i _ hi => hpipes i (by omega)
    left := fun i hi h => by
      obtain rfl : i = j := by omega
      rw [hpipe] at h
      cases h
    right := fun _ => by rw [append_nil]; exact hpipes _ (by omega)
    same := hp ▸ hkeeps.same
    forked := hp ▸ hkeeps.forked
    unforked := hp ▸ hkeeps.unforked
    waiting := fun h => ⟨hkeeps.waiting (hp ▸ h), rfl⟩
    finishing := fun h => absurd h hfin
    empty := fun h => absurd h hforking
    calm := hkeeps.calm
    handed := hkeeps.handed }
  refine .move hmove fun _ => ?_
  have hpending : pending N w (j + 1) = x :: pending N ((w.setPipe j b).set (j + 1) p') (j + 1) := by
    have hleft : pending N ((w.setPipe j b).set (j + 1) p') j = pending N w j :=
      pending_self (fun i hi => hmove.other (by omega)) fun i hi => hpipes i (ne_of_lt hi)
    rw [pending, pending, hpipe, hleft, hmove.other (by omega)]
    simp [World.set, World.setPipe]
  rw [hpending, hp]
  exact ha _

theorem Tidy.unreaped (hT : Tidy w) (hk : k + 1 < w.n) (hw : ¬ Waiting (w.procs k)) :
    (w.procs (k + 1)).reaped = false := by
  cases hr : (w.procs (k + 1)).reaped with
  | false => rfl
  | true => exact absurd (hT.reaped k hk hr) hw

theorem Effect.wait (hT : Tidy w) (hk : k < w.n) (hp : w.procs k = p) (hpc : p.pc = .wait) {r : World × Bool}
    (h : w.waitChild k = some r) : Effect N w k (r.1.set k { p with pc := if r.2 then .wait else .exit }) := by
  have hlt := hT.right hk (by simp [hp, hpc])
  rw [hT.waitChild hlt] at h
  split at h
  next hr =>
    cases h
    refine .silent hT hk hp ⟨⟨rfl, rfl⟩, ?_, ?_, ?_, ?_, nofun⟩ ?_ ?_ ?_
    · exact fun _ => .inr (.inl rfl)
    · simp [hpc]
    · exact fun _ => .inr (.inl rfl)
    · simp
    · simp
    · simp [hpc]
    · constructor <;> simp [hpc, hr]
  next hr =>
    split at h
    next hex =>
      cases h
      have hself : (w.reap k).set k { p with pc := .wait } = w.reap k := by
        have hpk : { p with pc := .wait } = (w.reap k).procs k := by
          rw [reap_other (by omega), hp, ← hpc]
        rw [hpk, World.set, update_eq_self]
      simp only [if_true]
      rw [hself]
      exact .reap ⟨hlt, by rw [hp, hpc], by simpa using hr⟩
    · cases h

/-- A process closes the pipe to its right neighbour. -/
theorem Effect.hangUp (hT : Tidy w) (hk : k < w.n) (hp : w.procs k = p) (hpc : p.pc = .feedDone ∨ p.pc = .closeOut)
    (hfin : ∀ j, j + 1 = k → Finishing p) (fd : Int) : Effect N w k (w.set k { p.close fd with pc := .wait }) := by
  have hlt := hT.right hk (by rcases hpc with hpc | hpc <;> simp [hp, hpc])
  have hr := hT.unreaped hlt (by rcases hpc with hpc | hpc <;> simp [hp, hpc])
  refine .silent hT hk hp ⟨⟨rfl, rfl⟩, ?_, ?_, ?_, ?_, by rintro ⟨⟩⟩ ?_ (fun j hj _ => hfin j hj) ?_
  all_goals rcases hpc with hpc | hpc
  all_goals first | simp [hpc]; done | constructor <;> simp [hpc, hr]

theorem Effect.exit (hT : Tidy w) (hk : k < w.n) (hp : w.procs k = p) (hpc : p.pc = .exit) :
    Effect N w k (w.set k { p with pc := .exited, fds := [] }) := by
  refine .silent hT hk hp ⟨⟨rfl, rfl⟩, fun _ => .inr (.inr rfl), ?_, fun _ => .inr (.inr rfl), ?_, by rintro ⟨⟩⟩ ?_ ?_ ?_
  · simp
  · simp
  · simp
  · simp [hpc]
  · constructor <;> simp [hpc]

variable {reaped : Bool}

/-- The loop test of the feeder, after `ws` has been written. -/
theorem feedTest_act (hpc : p.pc = .feedClose ∨ p.pc = .feed) (h2 : 2 ≤ p'.i)
    (htodo : todo N p xs = ws ++ nums N p'.i) (hcost : cost N reaped p xs = (nums N p'.i).length + 5) :
    Act N reaped p (p'.feedTest N) xs xs ws [] := by
  have hsends : sends N p xs = ws ++ nums N p'.i := by
    rw [sends, show unforked p = false by rcases hpc with hpc | hpc <;> simp [hpc], htodo]
    rfl
  have hfeed : unforked p = false ∧ beforeFeed p = false ∧ text p = [] := by
    rcases hpc with hpc | hpc <;> simp [hpc]
  rcases lt_or_ge N p'.i with hlt | hge
  · rw [nums_nil hlt] at hsends hcost
    rw [show p'.feedTest N = { p' with pc := .feedDone } by simp [Proc.feedTest, Int.not_le.mpr hlt]]
    exact ⟨by rw [hsends]; rfl, by rw [hfeed.1]; rintro ⟨⟩, hfeed.2.2, fun _ => rfl,
      ⟨hfeed.2.1.symm, by rw [hfeed.2.1]; rintro ⟨⟩⟩, by rintro ⟨⟩, by rw [hcost]; rfl⟩
  · rw [show p'.feedTest N = { p' with pc := .feed } by simp [Proc.feedTest, hge]]
    exact ⟨by rw [hsends]; rfl, by rw [hfeed.1]; rintro ⟨⟩, hfeed.2.2, fun _ => rfl, ⟨hfeed.2.1.symm, by rw [hfeed.2.1]; rintro ⟨⟩⟩,
      fun _ => ⟨h2, hge⟩, by rw [hcost]; rfl⟩

theorem feedTest_keeps (N : Int) (p p' : Proc) (hpc : p.pc = .feedClose ∨ p.pc = .feed)
    (hsame : p'.parent = p.parent ∧ p'.reaped = p.reaped) :
    Keeps p (p'.feedTest N) ∧ ¬ Forking (p'.feedTest N) ∧ ¬ Finishing (p'.feedTest N) := by
  have hp : unforked p = false ∧ ¬ Waiting p := by rcases hpc with hpc | hpc <;> simp [hpc]
  unfold Proc.feedTest
  split
  · exact ⟨⟨hsame, by simp, by rw [hp.1]; nofun, fun h => absurd h hp.2, by simp, by simp⟩, by simp, by simp⟩
  · exact ⟨⟨hsame, by simp, by rw [hp.1]; nofun, fun h => absurd h hp.2, by simp, by simp⟩, by simp, by simp⟩

theorem toInt_eq (h0 : 0 ≤ x) (h : x < 2 ^ 31) : toInt x = x := by
  rw [toInt, Int.bmod_def]
  omega

/-- THE FEEDER'S SYSTEM CALLS. -/
theorem Tidy.feeder (hT : Tidy w) (h : syscall N ⟨false, none⟩ 0 (w.procs 0) w = some w') : Effect N w 0 w' := by
  have hk := hT.pos
  have hL : Feeder (w.procs 0) := hT.inv.locals 0 hk
  generalize hp : w.procs 0 = p at h hL
  unfold syscall at h
  cases hpc : p.pc <;> simp only [hpc] at h <;> simp only [Feeder, hpc] at hL
  case pipe0 =>
    have hopen : p.openPipe w.m = some ((3, 4), slots (some (.read w.m)) (some (.write w.m)) none) := by
      rw [Proc.openPipe, hL]
      rfl
    rw [if_neg Bool.false_ne_true, hopen] at h
    cases h
    refine .pipe hT hk hp (by simp [Fresh, hpc]) ⟨⟨rfl, rfl⟩, ?_, ?_, ?_, ?_, by rintro ⟨⟩⟩ ?_ ?_
    · simp [hpc]
    · simp
    · simp [hpc]
    · simp
    · simp
    · constructor <;> simp [hpc]
  case fork0 =>
    cases h
    refine Effect.fork ?_ (show Birth N (w.procs 0) _ _ _ 2 (nums N 2) from ?_)
    · have hlast := (hT.inv.forking 0 hk (.inl (by rw [hp, hpc]))).1
      refine ⟨hlast, .inl (by rw [hp, hpc]), ?_, by rw [hp]; exact ⟨rfl, rfl⟩, ?_, ?_, ⟨rfl, rfl⟩, .inl rfl⟩
      · simp
      · simp
      · simp
    · rw [hp]
      constructor <;> simp [hpc]
      omega
  case feedClose =>
    cases h
    obtain ⟨hkeeps, hforking, hfin⟩ := feedTest_keeps N p { p.close p.pip0.1 with i := 2 } (.inl hpc) ⟨rfl, rfl⟩
    refine .silent hT hk hp hkeeps hforking (by simp) (feedTest_act (.inl hpc) (Int.le_refl 2) ?_ ?_)
    · simp [hpc]
    · simp [hpc]
  case feed =>
    obtain ⟨w₁, hwrite, rfl⟩ := Option.map_eq_some_iff.mp h
    have hlt := hT.right hk (by simp [hp, hpc])
    rw [← hp, hT.writeInt hlt (by simp [hp, hpc]) (by rw [hp, hL.1, hL.2, get_four])] at hwrite
    split at hwrite
    · cases hwrite
      obtain ⟨hkeeps, hforking, hfin⟩ :=
        feedTest_keeps N p { p with i := toInt (p.i + 1) } (.inr hpc) ⟨rfl, rfl⟩
      rw [hp]
      refine .write hT hk hp hkeeps hforking (by simp) (by simp [hpc]) fun hexact => ?_
      have hcounter := hexact.counter (by rw [hp, hpc])
      rw [hp] at hcounter
      have hbound := hexact.bound
      have hi : toInt (p.i + 1) = p.i + 1 := toInt_eq (by omega) (by omega)
      rw [hi]
      refine feedTest_act (.inr hpc) ?_ ?_ ?_
      · change 2 ≤ p.i + 1
        omega
      · simp [hpc, nums_cons hcounter.2]
      · simp [hpc, nums_cons hcounter.2]
    · cases hwrite
  case feedDone =>
    cases h
    exact .hangUp hT hk hp (.inl hpc) (by simp) _
  case wait =>
    obtain ⟨r, hwait, rfl⟩ := Option.map_eq_some_iff.mp h
    exact .wait hT hk hp hpc hwait
  case panic => exact absurd (by rw [hp, hpc]) (hT.calm 0 hk)
  case exit =>
    cases h
    exact .exit hT hk hp hpc
  case exited => cases h

/-! ### The prime processes -/

theorem line_pos : 1 ≤ (line x).length := by simp [line]

@[simp] theorem unforked_loopEnd : unforked p.loopEnd = !p.rightCreated := by
  unfold Proc.loopEnd
  split <;> rfl

@[simp] theorem todo_loopEnd : todo N p.loopEnd xs = rest p xs := by
  unfold Proc.loopEnd rest
  split <;> rfl

@[simp] theorem cost_loopEnd :
    cost N reaped p.loopEnd xs = readsLeft p xs + closing p.rightCreated (rest p xs) := by
  unfold Proc.loopEnd readsLeft rest
  split
  · rfl
  · simp

theorem finishing_loopEnd : Finishing p.loopEnd ↔ p.noMoreInput = 0 := by
  unfold Proc.loopEnd
  split <;> simp_all

/-- Where the loop goes on. -/
theorem loopEnd_pc : p.loopEnd.pc = .read ∨ p.loopEnd.pc = .closeIn := by
  unfold Proc.loopEnd
  split
  · exact .inl rfl
  · exact .inr rfl

/-- The number that has just been read, if it is passed on. -/
def passed (p : Proc) : List Int := if passes p.myPr p.num then [p.num] else []

theorem afterRead_eq (p : Proc) : p.afterRead =
    if passes p.myPr p.num then { p with pc := if p.rightCreated then .write else .pipe1 } else p.loopEnd := by
  simp [Proc.afterRead, passes]

@[simp] theorem unforked_afterRead : unforked p.afterRead = !p.rightCreated := by
  rw [afterRead_eq]
  split
  · cases h : p.rightCreated <;> simp
  · exact unforked_loopEnd

@[simp] theorem todo_afterRead : todo N p.afterRead xs = passed p ++ rest p xs := by
  rw [afterRead_eq, passed]
  split
  · cases h : p.rightCreated <;> simp [rest]
  · exact todo_loopEnd

@[simp] theorem cost_afterRead :
    cost N reaped p.afterRead xs = readsLeft p xs + closing p.rightCreated (passed p ++ rest p xs) := by
  rw [afterRead_eq, passed]
  split
  · cases h : p.rightCreated <;> simp [rest, readsLeft]
  · exact cost_loopEnd

theorem finishing_afterRead : Finishing p.afterRead ↔ p.noMoreInput = 0 := by
  rw [afterRead_eq]
  split
  · cases h : p.rightCreated <;> simp
  · exact finishing_loopEnd

theorem afterRead_pc : p.afterRead.pc = .read ∨ p.afterRead.pc = .closeIn ∨ p.afterRead.pc = .write ∨ p.afterRead.pc = .pipe1 := by
  rw [afterRead_eq]
  split
  · cases h : p.rightCreated <;> simp
  · rcases loopEnd_pc (p := p) with h | h <;> simp [h]

theorem afterRead_same : p.afterRead.parent = p.parent ∧ p.afterRead.reaped = p.reaped := by
  rw [afterRead_eq]
  split <;> exact ⟨rfl, rfl⟩

/-- A step within the loop: the process goes on with a system call that prints nothing and makes no process. -/
theorem Act.loop {xs' : List Int} (hp : Primes.text p = [] ∧ beforeFeed p = false)
    (hpc : p'.pc = .read ∨ p'.pc = .closeIn ∨ p'.pc = .write ∨ p'.pc = .pipe1)
    (hunforked : unforked p' = unforked p) (htodo : Primes.todo N p xs = ws ++ Primes.todo N p' xs')
    (hws : unforked p = true → ws = []) (hcost : Primes.cost N reaped p xs = Primes.cost N reaped p' xs' + 1) :
    Act N reaped p p' xs xs' ws [] := by
  have hp' : Primes.text p' = [] ∧ beforeFeed p' = false ∧ p'.pc ≠ .feed := by
    rcases hpc with hpc | hpc | hpc | hpc <;> simp [Primes.text, hpc]
  refine ⟨?_, fun h => ?_, ?_, fun _ => rfl, ?_, fun h => absurd h hp'.2.2, hcost⟩
  · unfold Primes.sends
    rw [hunforked, htodo]
    cases h : unforked p with
    | true => rw [hws h]; rfl
    | false => rfl
  · rw [htodo, hws h]; rfl
  · rw [hp.1, hp'.1]; rfl
  · rw [hp.2, hp'.2.1]
    exact ⟨rfl, nofun⟩

theorem Keeps.loop (p p' : Proc) (hpc : p'.pc = .read ∨ p'.pc = .closeIn ∨ p'.pc = .write ∨ p'.pc = .pipe1)
    (hunforked : Primes.unforked p' = Primes.unforked p) (hw : ¬ Waiting p)
    (hsame : p'.parent = p.parent ∧ p'.reaped = p.reaped) : Keeps p p' ∧ ¬ Forking p' := by
  refine ⟨⟨hsame, fun h => .inl ?_, fun h => hunforked.trans h, fun h => absurd h hw, ?_, ?_⟩, ?_⟩
  · rcases h with h | h
    · exact hunforked.trans h
    · exact absurd (.inr h) hw
  all_goals rcases hpc with hpc | hpc | hpc | hpc <;> simp [hpc]

theorem rest_more (h : p.noMoreInput ≠ 0) : passed p ++ rest p xs = forwards p.myPr x (p.num :: xs) := by
  rw [passed, rest, if_pos h, forwards]
  split <;> rfl

theorem rest_eof (h : p.noMoreInput = 0) : passed p ++ rest p xs = forwards p.myPr p.num [] := by
  rw [passed, rest, if_neg (not_not.mpr h), append_nil, forwards]

theorem unforked_read (hpc : p.pc = .read) : unforked p = !p.rightCreated := by rw [unforked, hpc]

theorem read_more {p₁ : Proc} (hpc : p.pc = .read) (hpr : p₁.myPr = p.myPr)
    (hrc : p₁.rightCreated = p.rightCreated) (hmore : p₁.noMoreInput ≠ 0) :
    Act N reaped p p₁.afterRead (p₁.num :: xs) xs [] [] := by
  refine Act.loop (by simp [hpc]) afterRead_pc (by rw [unforked_afterRead, unforked_read hpc, hrc]) ?_ (fun _ => rfl) ?_
  · rw [todo_afterRead, rest_more (x := p.num) hmore, todo, hpc, hpr]
    rfl
  · rw [cost_afterRead, rest_more (x := p.num) hmore, readsLeft, if_pos hmore, cost, todo, hpc, hpr, hrc, length_cons]
    dsimp only
    omega

theorem read_eof {p₁ : Proc} (hpc : p.pc = .read) (hpr : p₁.myPr = p.myPr)
    (hrc : p₁.rightCreated = p.rightCreated) (heof : p₁.noMoreInput = 0) (hnum : p₁.num = p.num) :
    Act N reaped p p₁.afterRead [] [] [] [] := by
  refine Act.loop (by simp [hpc]) afterRead_pc (by rw [unforked_afterRead, unforked_read hpc, hrc]) ?_ (fun _ => rfl) ?_
  · rw [todo_afterRead, rest_eof heof, todo, hpc, hpr, hnum]
    rfl
  · rw [cost_afterRead, rest_eof heof, readsLeft, if_neg (not_not.mpr heof), cost, todo, hpc, hpr, hrc, hnum]
    dsimp only [length_nil]
    omega

theorem sends_waiting (hw : Waiting p) : sends N p xs = [] := by
  rcases hw with hpc | hpc | hpc <;> simp [hpc]

/-- The calls of `read`. -/
theorem Tidy.stage_read (hT : Tidy w) (hk : j + 1 < w.n) (hp : w.procs (j + 1) = p) (hpc : p.pc = .read)
    {r : World × Int × Option Int} (h : w.readInt p p.pip0.1 = some r) :
    Effect N w (j + 1) (r.1.set (j + 1) { p with noMoreInput := r.2.1, num := r.2.2.getD p.num }.afterRead) := by
  have hkeeps : ∀ p₁ : Proc, p₁.rightCreated = p.rightCreated → p₁.parent = p.parent ∧ p₁.reaped = p.reaped →
      Keeps p p₁.afterRead ∧ ¬ Forking p₁.afterRead := fun p₁ hrc hsame =>
    Keeps.loop p p₁.afterRead afterRead_pc (by rw [unforked_afterRead, unforked_read hpc, hrc]) (by simp [hpc])
      ⟨afterRead_same.1.trans hsame.1, afterRead_same.2.trans hsame.2⟩
  rw [← hp, hT.readInt hk (by rw [hp, hpc])] at h
  split at h
  next x b hpipe =>
    cases h
    obtain ⟨hkeep, hforking⟩ := hkeeps { p with noMoreInput := 4, num := x } rfl ⟨rfl, rfl⟩
    exact .read hk hp hpipe hkeep hforking (fun h => absurd (finishing_afterRead.mp h) four_ne_zero) fun xs =>
      read_more hpc rfl rfl four_ne_zero
  next hempty =>
    split at h
    · cases h
    next hwrite =>
      cases h
      -- The left neighbour has closed the pipe, and so it waits.
      have hleft : Waiting (w.procs j) := by
        by_contra hnot
        exact hwrite ((hT.inv.locals j (by omega)).write_held (hT.forked j hk) hnot)
      have hpending : pending N w (j + 1) = [] := by rw [pending, hempty, sends_waiting hleft]; rfl
      obtain ⟨hkeep, hforking⟩ := hkeeps { p with noMoreInput := 0 } rfl ⟨rfl, rfl⟩
      refine .ahead hp rfl rfl (append_nil _).symm (fun _ _ => rfl) (fun _ => (append_nil _).symm)
        (fun h => absurd h hforking) hkeep (fun i hi _ => ?_) (fun _ => rfl) fun _ => ?_
      · obtain rfl : i = j := by omega
        exact ⟨hleft, hempty⟩
      · rw [hpending]
        exact read_eof hpc rfl rfl rfl rfl

/-- A step before the loop. -/
theorem Keeps.early (p p' : Proc) (hp : Primes.unforked p = true ∧ ¬ Waiting p)
    (hpc : p'.pc = .close0 ∨ p'.pc = .close1 ∨ (∃ cs, p'.pc = .print cs) ∨ p'.pc = .read ∧ p'.rightCreated = false)
    (hsame : p'.parent = p.parent ∧ p'.reaped = p.reaped) : Keeps p p' ∧ ¬ Forking p' ∧ ¬ Finishing p' := by
  have hforked : ¬ Forked p := by
    rintro (h | h)
    · rw [hp.1] at h; cases h
    · exact hp.2 (.inr h)
  refine ⟨⟨hsame, fun h => absurd h hforked, fun _ => ?_, fun h => absurd h hp.2, ?_, ?_⟩, ?_, ?_⟩
  all_goals rcases hpc with hpc | hpc | ⟨cs, hpc⟩ | ⟨hpc, hrc⟩ <;> simp_all [Primes.unforked]

/-- A PRIME PROCESS'S SYSTEM CALLS. -/
theorem Tidy.stage (hT : Tidy w) (hk : j + 1 < w.n) (h : syscall N ⟨false, none⟩ (j + 1) (w.procs (j + 1)) w = some w') :
    Effect N w (j + 1) w' := by
  have hL : Stage j (w.procs (j + 1)) := hT.inv.locals (j + 1) hk
  generalize hp : w.procs (j + 1) = p at h hL
  have hearly : ∀ {p' : Proc}, unforked p = true ∧ ¬ Waiting p →
      (p'.pc = .close0 ∨ p'.pc = .close1 ∨ (∃ cs, p'.pc = .print cs) ∨ p'.pc = .read ∧ p'.rightCreated = false) →
      p'.parent = p.parent ∧ p'.reaped = p.reaped →
      Act N (w.procs (j + 1 + 1)).reaped p p' (pending N w (j + 1)) (pending N w (j + 1)) [] [] →
      Effect N w (j + 1) (w.set (j + 1) p') := fun hp' hpc hsame ha => by
    obtain ⟨hkeeps, hforking, hfin⟩ := Keeps.early p _ hp' hpc hsame
    exact .silent hT hk hp hkeeps hforking (fun _ _ h => absurd h hfin) ha
  unfold syscall at h
  cases hpc : p.pc <;> simp only [hpc] at h <;> simp only [Stage, hpc] at hL
  case dup =>
    cases h
    have hline := line_pos (x := p.yourPr)
    refine hearly (by simp [hpc]) (.inr (.inr (.inl ⟨_, rfl⟩))) ⟨rfl, rfl⟩ ?_
    constructor <;> simp [hpc, Proc.primeStart]
    omega
  case print cs =>
    cases cs with
    | nil =>
      cases h
      refine hearly (by simp [hpc]) (.inl rfl) ⟨rfl, rfl⟩ ?_
      constructor <;> simp [hpc]
      omega
    | cons ch cs =>
      cases h
      obtain ⟨hkeeps, hforking, hfin⟩ := Keeps.early p { p with pc := if cs = [] then .close0 else .print cs }
        (by simp [hpc]) (by cases cs <;> simp) ⟨rfl, rfl⟩
      refine .ahead hp rfl rfl rfl (fun _ _ => rfl) (fun _ => (append_nil _).symm) (fun h => absurd h hforking) hkeeps
        (fun _ _ h => absurd h hfin) (fun _ => rfl) fun _ => ?_
      cases cs <;> constructor <;> simp [hpc]
      all_goals omega
  case close0 =>
    cases h
    refine hearly (by simp [hpc]) (.inr (.inl rfl)) ⟨rfl, rfl⟩ ?_
    constructor <;> simp [hpc, Proc.close]
    omega
  case close1 =>
    cases h
    refine hearly (by simp [hpc]) (.inr (.inr (.inr ⟨rfl, rfl⟩))) ⟨rfl, rfl⟩ ?_
    constructor <;> simp [hpc, Proc.close]
    omega
  case read =>
    obtain ⟨r, hread, rfl⟩ := Option.map_eq_some_iff.mp h
    exact hT.stage_read hk hp hpc hread
  case pipe1 =>
    obtain ⟨pip, fds, hopen⟩ : ∃ pip fds, p.openPipe w.m = some (pip, fds) := by
      rcases hL.1 with ⟨-, hfds⟩ | ⟨-, hfds⟩
      · exact ⟨_, _, by rw [Proc.openPipe, hfds]; rfl⟩
      · exact ⟨_, _, by rw [Proc.openPipe, hfds]; rfl⟩
    rw [if_neg Bool.false_ne_true, hopen] at h
    cases h
    refine .pipe hT hk hp (by simp [Fresh, hpc]) ⟨⟨rfl, rfl⟩, ?_, ?_, ?_, ?_, fun _ => rfl⟩ ?_ ?_
    · simp [hpc]
    · simp
    · simp [hpc]
    · simp
    · simp [hpc]
    · constructor <;> simp [hpc, rest, readsLeft, closing]
      omega
  case fork1 =>
    cases h
    have hnum : p.yourPr = p.num := by
      have := hT.handed (j + 1) hk (by rw [hp, hpc])
      rwa [hp] at this
    refine Effect.fork ?_ (show Birth N (w.procs (j + 1)) _ _ _ p.num (rest p (pending N w (j + 1))) from ?_)
    · have hlast := (hT.inv.forking (j + 1) hk (.inr (by rw [hp, hpc]))).1
      refine ⟨hlast, .inr (by rw [hp, hpc]), ?_, by rw [hp]; exact ⟨rfl, rfl⟩, ?_, ?_, ⟨rfl, rfl⟩, .inr ⟨_, rfl⟩⟩
      · simp
      · rw [hp]; simp [hpc]
      · simp
    · rw [hp]
      constructor <;> simp [hpc, rest, readsLeft, Proc.primeStart, hnum]
      exact line_pos
  case closeR =>
    cases h
    obtain ⟨hkeeps, hforking⟩ := Keeps.loop p { p.close p.pip1.1 with rightCreated := true }.loopEnd
      (loopEnd_pc.imp_right .inl) (by rw [unforked_loopEnd]; simp [hpc]) (by simp [hpc]) ⟨rfl, rfl⟩
    refine .silent hT hk hp hkeeps hforking (fun _ _ h => ?_) (Act.loop ?_ (loopEnd_pc.imp_right .inl) ?_ ?_ (fun _ => rfl) ?_)
    · rw [Finishing, hpc]
      exact finishing_loopEnd.mp h
    · simp [hpc]
    · rw [unforked_loopEnd]; simp [hpc]
    · rw [todo_loopEnd, todo, hpc]; rfl
    · rw [cost_loopEnd, cost, hpc]; rfl
  case write =>
    obtain ⟨w₁, hwrite, rfl⟩ := Option.map_eq_some_iff.mp h
    obtain ⟨hreads, hrc, hpip⟩ := hL
    have hlt := hT.right hk (by simp [hp, hpc])
    have hget : get (w.procs (j + 1)).fds p.pip1.2 = some (.write (j + 1)) := by
      rw [hp, hpip]
      rcases hreads with ⟨-, hfds⟩ | ⟨-, hfds⟩ <;> rw [hfds, get_five]
    rw [← hp, hT.writeInt hlt (by simp [hp, hpc]) (by rw [hp]; exact hp ▸ hget)] at hwrite
    split at hwrite
    · cases hwrite
      obtain ⟨hkeeps, hforking⟩ := Keeps.loop p p.loopEnd (loopEnd_pc.imp_right .inl)
        (by rw [unforked_loopEnd, hrc]; simp [hpc]) (by simp [hpc]) ⟨rfl, rfl⟩
      rw [hp]
      refine .write hT hk hp hkeeps hforking (fun _ _ h => ?_) (by simp [hpc]) fun _ =>
        Act.loop ?_ (loopEnd_pc.imp_right .inl) ?_ ?_ ?_ ?_
      · simpa [hpc] using finishing_loopEnd.mp h
      · simp [hpc]
      · rw [unforked_loopEnd, hrc]; simp [hpc]
      · rw [todo_loopEnd, todo, hpc]; rfl
      · simp [hpc]
      · rw [cost_loopEnd, cost, todo, hpc, hrc]; rfl
    · cases hwrite
  case closeIn =>
    cases h
    cases hrc : p.rightCreated with
    | true =>
      refine .silent hT hk hp ⟨⟨rfl, rfl⟩, ?_, ?_, ?_, ?_, by rintro ⟨⟩⟩ ?_ ?_ ?_
      · simp
      · simp [hpc, hrc]
      · simp [hpc]
      · simp
      · simp
      · simp [hpc]
      · constructor <;> simp [hpc, hrc, closing]
    | false =>
      refine .silent hT hk hp ⟨⟨rfl, rfl⟩, ?_, ?_, ?_, ?_, by rintro ⟨⟩⟩ ?_ ?_ ?_
      · simp
      · simp
      · simp
      · simp
      · simp
      · simp [hpc]
      · constructor <;> simp [hpc, hrc, closing]
  case closeOut =>
    cases h
    exact .hangUp hT hk hp (.inr hpc) (by simp [hpc]) _
  case wait =>
    obtain ⟨r, hwait, rfl⟩ := Option.map_eq_some_iff.mp h
    exact .wait hT hk hp hpc hwait
  case panic => exact absurd (by rw [hp, hpc]) (hT.calm (j + 1) hk)
  case exit =>
    cases h
    exact .exit hT hk hp hpc
  case exited => cases h

/-! ### Runs -/

/-- EVERY SYSTEM CALL IS A MOVE, A FORK OR A REAP. -/
theorem Tidy.effect (hT : Tidy w) (h : step N ⟨false, none⟩ k w = some w') : k < w.n ∧ Inv w' ∧ Effect N w k w' := by
  have hI := step_inv hT.inv ⟨_, k, h⟩
  unfold step at h
  split at h
  next hk =>
    cases k with
    | zero => exact ⟨hk, hI, hT.feeder h⟩
    | succ j => exact ⟨hk, hI, hT.stage hk h⟩
  next => cases h

theorem Tidy.step (hT : Tidy w) (h : step N ⟨false, none⟩ k w = some w') : Tidy w' := by
  obtain ⟨-, hI, heffect⟩ := hT.effect h
  cases heffect with
  | move hmove => exact hT.move hI hmove
  | fork hfork => exact hT.fork hI hfork.forks
  | reap hreap => exact hT.reap hI hreap

theorem Good.step (hG : Good N w txt t) (hN : N + 1 < 2 ^ 31) (h : step N ⟨false, none⟩ k w = some w') :
    ∃ txt' t', Good N w' txt' t' ∧ t = t' + 1 ∧ w.out ++ txt = w'.out ++ txt' := by
  obtain ⟨hk, hI, heffect⟩ := hG.tidy.effect h
  cases heffect with
  | move hmove ha => exact hG.move hk hI hmove (ha ⟨hN, hG.counter⟩)
  | fork hfork hb =>
    obtain ⟨t', hG', ht⟩ := hG.fork hI hfork.forks hb
    exact ⟨txt, t', hG', ht, rfl⟩
  | reap hreap =>
    obtain ⟨t', hG', ht⟩ := hG.reap hI hreap
    exact ⟨txt, t', hG', ht, rfl⟩

theorem Good.runs (hN : N + 1 < 2 ^ 31) : ∀ {ks : List Nat} {w : World} {txt : List Char} {t : Nat}, Good N w txt t →
    runs N ks w = some w' → ∃ txt' t', Good N w' txt' t' ∧ t = t' + ks.length ∧ w.out ++ txt = w'.out ++ txt'
  | [], _, txt, t, hG, h => by
    cases h
    exact ⟨txt, t, hG, rfl, rfl⟩
  | k :: ks, _, _, _, hG, h => by
    obtain ⟨w₁, hstep, hrest⟩ := Option.bind_eq_some_iff.mp h
    obtain ⟨txt₁, t₁, hG₁, ht₁, hout₁⟩ := hG.step hN hstep
    obtain ⟨txt', t', hG', ht', hout'⟩ := hG₁.runs hN hrest
    exact ⟨txt', t', hG', by rw [ht₁, ht', length_cons, add_assoc], hout₁.trans hout'⟩

/-- When nobody can go on, all have exited. -/
theorem Tidy.final (hT : Tidy w) (h : ∀ k, Primes.step N ⟨false, none⟩ k w = none) : ∀ k < w.n, (w.procs k).pc = .exited :=
  hT.progress fun k hk => hT.blocked hk (by
    have := h k
    rwa [Primes.step, if_pos hk] at this)

theorem Good.final (hG : Good N w txt t) (h : ∀ k, Primes.step N ⟨false, none⟩ k w = none) : txt = [] := by
  obtain ⟨k, hk⟩ : ∃ k, k + 1 = w.n := ⟨w.n - 1, by have := hG.tidy.pos; omega⟩
  obtain ⟨r, hrest, -⟩ := hG.future
  have hpc := hG.tidy.final h k (by omega)
  have hrest := hrest k hk
  simp only [todo, hpc] at hrest
  rw [hrest.1, text, hpc]

theorem Start.tidy (h : Start w) : Tidy w where
  inv := h.inv
  pos := by rw [h.n]; exact one_pos
  forked k hk := by rw [h.n] at hk; omega
  last k hk := by
    rw [h.n] at hk
    obtain rfl : k = 0 := by omega
    rw [unforked, h.pc]
  orphan := h.parent
  parent k hk := by rw [h.n] at hk; omega
  reaped k hk := by rw [h.n] at hk; omega
  closed k hk := by rw [h.n] at hk; omega
  empty k hk hf := by
    rw [h.n] at hk
    obtain rfl : k = 0 := by omega
    rcases hf with hf | hf <;> exact nomatch h.pc.symm.trans hf
  calm k hk := by
    rw [h.n] at hk
    obtain rfl : k = 0 := by omega
    rw [h.pc]
    exact nofun
  handed k hk hpc := by
    rw [h.n] at hk
    obtain rfl : k = 0 := by omega
    exact nomatch h.pc.symm.trans hpc

/-- The chain will print `ps`. -/
theorem Start.good (h : Start w) {ps : List Int} {n : Nat} (hruns : Runs 2 (w.procs 0).num (nums N 2) ps n) :
    ∃ t, Good N w (lines ps) t := by
  refine ⟨_, h.tidy, (fun hpc => nomatch h.pc.symm.trans hpc), n + 1, fun k hk => ?_, rfl⟩
  rw [h.n] at hk
  obtain rfl : k = 0 := by omega
  have hfeed : beforeFeed (w.procs 0) = true := by simp [h.pc]
  rw [todo, h.pc]
  refine ⟨ps, n, ?_, ?_, ?_⟩
  · rw [hfeed]; exact hruns
  · rw [text, h.pc]; rfl
  · rw [hfeed]; rfl

end Effect

/-- `prime p` for every prime up to `N`, in increasing order. -/
def primeLines (N : Nat) : List Char := ((range (N + 1)).filter Nat.Prime).flatMap fun p : Nat => line p

theorem nums_two (N : Nat) : nums N 2 = ((range (N - 1)).map (· + 2)).map (↑) := by
  have hlen : ((N : Int) + 1 - 2).toNat = N - 1 := by omega
  rw [nums, hlen, map_map]
  refine map_congr_left fun d _ => ?_
  simp only [comp_apply, Int.natCast_add]
  omega

/-- The sieve of the first prime process prints the primes. -/
theorem runs_primes {N : Nat} (hN : 2 ≤ N) (num : Int) : ∃ ps n, Runs 2 num (nums N 2) ps n ∧ lines ps = primeLines N := by
  have hne : (range (N - 1)).map (· + 2) ≠ [] := by
    simp only [ne_eq, map_eq_nil_iff, range_eq_nil]
    omega
  obtain ⟨ps, n, hruns, hsorted, hmem⟩ := Stream.runs (stream_two hN) (show _ ∨ passes (2 : Nat) num = false from .inl hne)
  refine ⟨ps.map ((↑) : Nat → Int), n, by rw [nums_two]; exact hruns, ?_⟩
  have hps : ps = (range (N + 1)).filter Nat.Prime := by
    refine hsorted.eq_of_mem_iff (pairwise_lt_range.filter _) fun q => ?_
    rw [hmem, mem_filter, mem_range, decide_eq_true_iff]
    constructor
    · rintro ⟨hq, -, hle⟩
      exact ⟨by omega, hq⟩
    · rintro ⟨hlt, hq⟩
      exact ⟨hq, hq.two_le, by omega⟩
  rw [lines, primeLines, flatMap_map, hps]

/-- THE CHAIN PRINTS THE PRIMES: for any bound from 2 to `INT_MAX - 1` and any interleaving, `pipe` and `fork`
    succeeding and `num` keeping its value, no run is longer than some number of system calls, what has been printed is
    always the beginning of the lines of the primes, and when nobody can go on it is all of them. -/
theorem prints_primes (N : Nat) (h2 : 2 ≤ N) (hN : N + 1 < 2 ^ 31) (w₀ : World) (hstart : Start w₀) :
    (∃ t, ∀ ks w, runs N ks w₀ = some w → ks.length ≤ t) ∧
    ∀ ks w, runs N ks w₀ = some w → w.out <+: primeLines N ∧
      ((∀ k, step N ⟨false, none⟩ k w = none) → w.out = primeLines N ∧ ∀ k < w.n, (w.procs k).pc = .exited) := by
  obtain ⟨ps, n, hruns, hlines⟩ := runs_primes h2 (w₀.procs 0).num
  obtain ⟨t, hG⟩ := hstart.good hruns
  have hN' : (N : Int) + 1 < 2 ^ 31 := by exact_mod_cast hN
  rw [hlines] at hG
  refine ⟨⟨t, fun ks w hrun => ?_⟩, fun ks w hrun => ?_⟩
  · obtain ⟨-, t', -, ht, -⟩ := hG.runs hN' hrun
    omega
  · obtain ⟨txt, t', hG', -, hout⟩ := hG.runs hN' hrun
    rw [hstart.out, nil_append] at hout
    refine ⟨⟨txt, hout.symm⟩, fun hstuck => ⟨?_, hG'.tidy.final hstuck⟩⟩
    rw [hout, hG'.final hstuck, append_nil]

/-- A run to the end, for the bound 3: the feeder, the process for 2, the one for 3, and back. -/
def toEnd : List Nat :=
  replicate 6 0 ++ replicate 20 1 ++ replicate 14 2 ++ replicate 3 1 ++ replicate 3 0

theorem prints_primes_three : (2 ≤ 3 ∧ 3 + 1 < 2 ^ 31 ∧ Start blank) ∧
    ∃ w, runs 3 toEnd blank = some w ∧ w.out = primeLines 3 := by
  have hrun : ((runs 3 toEnd blank).any fun w => decide (w.n = 3) &&
      (range 3).all fun k => decide ((w.procs k).pc = .exited)) = true := by decide +kernel
  obtain ⟨w, hw, hfacts⟩ := (Option.any_eq_true _ _).mp hrun
  simp only [Bool.and_eq_true, decide_eq_true_eq, all_eq_true, mem_range] at hfacts
  obtain ⟨hn, hpc⟩ := hfacts
  refine ⟨⟨by decide, by decide, blank_start⟩, w, hw, ?_⟩
  refine (((prints_primes 3 (by decide) (by decide) blank blank_start).2 toEnd w hw).2 fun k => ?_).1
  unfold step
  split
  next hk => rw [syscall, hpc k (hn ▸ hk)]
  next => rfl

/-! ### The bound `INT_MAX` -/

/-- The feeder has not left its loop. -/
def Feeding (p : Proc) : Prop := p.pc = .pipe0 ∨ p.pc = .fork0 ∨ p.pc = .feedClose ∨ p.pc = .feed

theorem toInt_le (x : Int) : toInt x ≤ 2 ^ 31 - 1 := by
  have := Int.bmod_lt (x := x) (m := 2 ^ 32) (by decide)
  unfold toInt
  omega

theorem feedTest_feeding {p : Proc} (h : p.i ≤ 2 ^ 31 - 1) : Feeding (p.feedTest (2 ^ 31 - 1)) := by
  rw [Proc.feedTest, if_pos h]
  exact .inr (.inr (.inr rfl))

/-- No counter is above `INT_MAX`, so the feeder goes on. -/
theorem feeding_step {w w' : World} {k : Nat} (hT : Tidy w) (hf : Feeding (w.procs 0))
    (h : step (2 ^ 31 - 1) ⟨false, none⟩ k w = some w') : Feeding (w'.procs 0) := by
  rcases eq_zero_or_pos k with rfl | hk
  · have hcalm := (hT.step h).calm 0 (hT.step h).pos
    rw [step, if_pos hT.pos] at h
    generalize hp : w.procs 0 = p at h hf
    unfold syscall at h
    rcases hf with hpc | hpc | hpc | hpc <;> simp only [hpc] at h
    · split at h
      · cases h
        exact absurd (by simp [World.set]) hcalm
      · cases h
        exact .inr (.inl (by simp [World.set]))
    · cases h
      have hn : 0 ≠ w.n := ne_of_lt hT.pos
      exact .inr (.inr (.inl (by simp [World.set, World.spawn, hn])))
    · cases h
      simp only [World.set, update_self]
      exact feedTest_feeding (p := { p.close p.pip0.1 with i := 2 }) (show (2 : Int) ≤ 2 ^ 31 - 1 by decide)
    · obtain ⟨w₁, -, rfl⟩ := Option.map_eq_some_iff.mp h
      simp only [World.set, update_self]
      exact feedTest_feeding (toInt_le _)
  · obtain ⟨-, -, heffect⟩ := hT.effect h
    cases heffect with
    | move hmove => rwa [hmove.other (by omega)]
    | fork hfork => rwa [hfork.forks.other 0 hk]
    | reap => rw [reap_procs]; exact hf

theorem feeding_runs : ∀ {ks : List Nat} {w w' : World}, Tidy w → Feeding (w.procs 0) →
    runs (2 ^ 31 - 1) ks w = some w' → Tidy w' ∧ Feeding (w'.procs 0)
  | [], _, _, hT, hf, h => by
    cases h
    exact ⟨hT, hf⟩
  | _ :: _, _, _, hT, hf, h => by
    obtain ⟨w₁, hstep, hrest⟩ := Option.bind_eq_some_iff.mp h
    exact feeding_runs (hT.step hstep) (feeding_step hT hf hstep) hrest

theorem runs_append {N : Int} {ks ks' : List Nat} {w w' : World} (h : runs N ks w = some w') :
    runs N (ks ++ ks') w = runs N ks' w' := by
  induction ks generalizing w with
  | nil =>
    cases h
    rfl
  | cons k ks ih =>
    obtain ⟨w₁, hstep, hrest⟩ := Option.bind_eq_some_iff.mp h
    rw [cons_append, runs, hstep]
    exact ih hrest

/-- WITH THE BOUND `INT_MAX` the program never ends: somebody can go on in every state of every run, and there are runs
    of every length. -/
theorem int_max_never_ends :
    (∀ ks w, runs (2 ^ 31 - 1) ks blank = some w → ∃ k w', step (2 ^ 31 - 1) ⟨false, none⟩ k w = some w') ∧
    ∀ t, ∃ ks w, runs (2 ^ 31 - 1) ks blank = some w ∧ ks.length = t := by
  have hmore : ∀ ks w, runs (2 ^ 31 - 1) ks blank = some w → ∃ k w', step (2 ^ 31 - 1) ⟨false, none⟩ k w = some w' := by
    intro ks w hrun
    obtain ⟨hT, hf⟩ := feeding_runs blank_start.tidy (.inl rfl) hrun
    by_contra hnot
    have hstuck : ∀ k, step (2 ^ 31 - 1) ⟨false, none⟩ k w = none := fun k =>
      Option.eq_none_iff_forall_ne_some.mpr fun w' h => hnot ⟨k, w', h⟩
    have hexited := hT.final hstuck 0 hT.pos
    rcases hf with hpc | hpc | hpc | hpc <;> exact nomatch hexited.symm.trans hpc
  refine ⟨hmore, fun t => ?_⟩
  induction t with
  | zero => exact ⟨[], blank, rfl, rfl⟩
  | succ t ih =>
    obtain ⟨ks, w, hrun, hlen⟩ := ih
    obtain ⟨k, w', hstep⟩ := hmore ks w hrun
    refine ⟨ks ++ [k], w', ?_, by rw [length_append, hlen]; rfl⟩
    rw [runs_append hrun, runs, hstep]
    rfl

end Xv6.Primes
