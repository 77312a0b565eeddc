import Xv6.Primes.Chain
import Xv6.Primes.Sieve

/-! The processes of the chain compute the sieve, however they are interleaved.

    In every state it is settled what each process will still do. `pending w k` is all the input that process `k` will
    still get: what is in the pipe from its left, and what its left neighbour will still send. From it follow the
    numbers that the process will still pass on (`todo`) and the system calls that it will still make (`cost`). A step
    of one process changes none of this for the others, makes the number of system calls to come smaller by one, and
    moves what is printed from the text to come to the console (`Good.step`). So every run ends, and since somebody can
    always go on (`Good.progress`) it ends when everything has been printed. -/

namespace Xv6.Primes
open Descriptors List

/-! ### What is still to come -/

/-- The numbers `i`, …, `N`. -/
def nums (N i : Int) : List Int := (range (N + 1 - i).toNat).map fun d : Nat => i + d

theorem nums_cons {N i : Int} (h : i ≤ N) : nums N i = i :: nums N (i + 1) := by
  obtain ⟨d, hd⟩ : ∃ d : Nat, (N + 1 - i).toNat = d + 1 := ⟨(N - i).toNat, by omega⟩
  have hd' : (N + 1 - (i + 1)).toNat = d := by omega
  rw [nums, nums, hd, hd', range_succ_eq_map, map_cons, map_map]
  congr 1
  · simp
  · refine map_congr_left fun e _ => ?_
    simp only [Function.comp_apply, Nat.succ_eq_add_one, Int.natCast_add, Int.natCast_one]
    omega

theorem nums_nil {N i : Int} (h : N < i) : nums N i = [] := by
  rw [nums, show (N + 1 - i).toNat = 0 by omega]
  rfl

/-- What is passed on after this round of the loop. -/
def rest (p : Proc) (xs : List Int) : List Int := if p.noMoreInput ≠ 0 then forwards p.myPr p.num xs else []

/-- The calls of `read` after this round of the loop. -/
def readsLeft (p : Proc) (xs : List Int) : Nat := if p.noMoreInput ≠ 0 then xs.length + 1 else 0

/-- The numbers that a process will pass on, the one for which it creates its right neighbour included. -/
def todo (N : Int) (p : Proc) (xs : List Int) : List Int :=
  match p.pc with
  | .pipe0 | .fork0 => 2 :: nums N 2
  | .feedClose => nums N 2
  | .feed => nums N p.i
  | .dup => forwards p.yourPr p.num xs
  | .print _ | .close0 | .close1 | .read => forwards p.myPr p.num xs
  | .pipe1 | .fork1 | .write => p.num :: rest p xs
  | .closeR => rest p xs
  | _ => []

/-- What it will write to its right neighbour. -/
def sends (N : Int) (p : Proc) (xs : List Int) : List Int :=
  if unforked p then (todo N p xs).tail else todo N p xs

/-- All the input that process `k` will still get. -/
def pending (N : Int) (w : World) : Nat → List Int
  | 0 => []
  | k + 1 => w.pipes k ++ sends N (w.procs k) (pending N w k)

/-- The system calls that a process will still make, `reaped` telling whether it has waited for its child. -/
def cost (N : Int) (reaped : Bool) (p : Proc) (xs : List Int) : Nat :=
  match p.pc with
  | .pipe0 => (nums N 2).length + 7
  | .fork0 => (nums N 2).length + 6
  | .feedClose => (nums N 2).length + 5
  | .feed => (nums N p.i).length + 4
  | .feedDone => 4
  | .dup => (line p.yourPr).length + 3 + (xs.length + 1) + closing false (todo N p xs)
  | .print cs => max cs.length 1 + 2 + (xs.length + 1) + closing false (todo N p xs)
  | .close0 => 2 + (xs.length + 1) + closing false (todo N p xs)
  | .close1 => 1 + (xs.length + 1) + closing false (todo N p xs)
  | .read => xs.length + 1 + closing p.rightCreated (todo N p xs)
  | .pipe1 => readsLeft p xs + closing false (todo N p xs)
  | .fork1 => readsLeft p xs + (rest p xs).length + 7
  | .closeR => readsLeft p xs + (rest p xs).length + 6
  | .write => readsLeft p xs + closing true (todo N p xs)
  | .closeIn => closing p.rightCreated []
  | .closeOut => 4
  | .wait => if reaped then 2 else 3
  | .exit => 1
  | .panic | .exited => 0

/-- The characters that a process is about to print. -/
def text (p : Proc) : List Char :=
  match p.pc with
  | .dup => line p.yourPr
  | .print cs => cs
  | _ => []

def lines (ps : List Int) : List Char := ps.flatMap line

/-- The process is the feeder, before its fork. -/
def beforeFeed (p : Proc) : Bool := p.pc = .pipe0 ∨ p.pc = .fork0

/-- What the last process and those that will come after it print, and the system calls of the latter. -/
def Rest (p : Proc) : List Int → List Char → Nat → Prop
  | [], txt, r => txt = text p ∧ r = 0
  | q :: ys, txt, r => ∃ ps n, Runs q (if beforeFeed p then p.num else q) ys ps n ∧ txt = text p ++ lines ps ∧
      r = n + if beforeFeed p then 1 else 0

/-- All the system calls that the processes will make. -/
def total (N : Int) (w : World) : Nat :=
  ∑ k ∈ Finset.range w.n, cost N (w.procs (k + 1)).reaped (w.procs k) (pending N w k)

/-- The chain will print `txt`, and make `t` more system calls. -/
structure Good (N : Int) (w : World) (txt : List Char) (t : Nat) : Prop where
  tidy : Tidy w
  counter : (w.procs 0).pc = .feed → 2 ≤ (w.procs 0).i ∧ (w.procs 0).i ≤ N
  future : ∃ r, (∀ k, k + 1 = w.n → Rest (w.procs k) (todo N (w.procs k) (pending N w k)) txt r) ∧ t = total N w + r

/-! ### Steps -/

section Move
variable {N : Int} {w w' : World} {txt cs : List Char} {t k : Nat} {p' : Proc} {ws : List Int}

/-- The processes to the left of `k` do not depend on it. -/
theorem pending_lt (hprocs : ∀ i < k, w'.procs i = w.procs i) (hpipes : ∀ i, i + 1 < k → w'.pipes i = w.pipes i) :
    ∀ i < k, pending N w' i = pending N w i := by
  intro i hi
  induction i with
  | zero => rfl
  | succ i ih => rw [pending, pending, hprocs i (by omega), hpipes i hi, ih (by omega)]

/-- Nor do those to its right, if they get the same input. -/
theorem pending_gt (hprocs : ∀ i, k < i → w'.procs i = w.procs i) (hpipes : ∀ i, k < i → w'.pipes i = w.pipes i)
    (hnext : pending N w' (k + 1) = pending N w (k + 1)) : ∀ i, k < i → pending N w' i = pending N w i := by
  intro i hi
  induction i with
  | zero => omega
  | succ i ih =>
    rcases lt_or_eq_of_le (Nat.le_of_lt_succ hi) with hlt | rfl
    · rw [pending, pending, hprocs i hlt, hpipes i hlt, ih hlt]
    · exact hnext

theorem sum_step {f g : Nat → Nat} {n : Nat} (hk : k < n) (hne : ∀ i < n, i ≠ k → f i = g i) (hdec : f k = g k + 1) :
    ∑ i ∈ Finset.range n, f i = ∑ i ∈ Finset.range n, g i + 1 := by
  rw [← Finset.add_sum_erase _ f (Finset.mem_range.mpr hk), ← Finset.add_sum_erase _ g (Finset.mem_range.mpr hk), hdec]
  have : ∑ i ∈ (Finset.range n).erase k, f i = ∑ i ∈ (Finset.range n).erase k, g i := by
    refine Finset.sum_congr rfl fun i hi => ?_
    obtain ⟨hik, hi⟩ := Finset.mem_erase.mp hi
    exact hne i (Finset.mem_range.mp hi) hik
  omega

theorem pending_self (hprocs : ∀ i < k, w'.procs i = w.procs i) (hpipes : ∀ i < k, w'.pipes i = w.pipes i) :
    pending N w' k = pending N w k := by
  cases k with
  | zero => rfl
  | succ j =>
    rw [pending, pending, hprocs j (by omega), hpipes j (by omega),
      pending_lt (fun i hi => hprocs i (by omega)) (fun i hi => hpipes i (by omega)) j (Nat.lt_succ_self j)]

theorem Move.pending (h : Move w w' k p' ws cs)
    (hsends : k + 1 < w.n → sends N (w.procs k) (pending N w k) = ws ++ sends N p' (pending N w' k)) :
    ∀ i < w.n, i ≠ k → pending N w' i = pending N w i := by
  intro i hi hne
  rcases Nat.lt_or_gt_of_ne hne with hlt | hgt
  · exact pending_lt (fun i hi => h.other (by omega)) (fun i hi => h.pipes i (by omega) (by omega)) i hlt
  · refine pending_gt (fun i hi => h.other (by omega)) (fun i hi => h.pipes i (by omega) (by omega)) ?_ i hgt
    rw [Primes.pending, Primes.pending, h.right (by omega), h.self, hsends (by omega), append_assoc]

/-- What a process does in such a step: its input to come was `xs` and is `xs'`. -/
structure Act (N : Int) (reaped : Bool) (p p' : Proc) (xs xs' ws : List Int) (cs : List Char) : Prop where
  sends : sends N p xs = ws ++ sends N p' xs'
  todo : unforked p = true → todo N p xs = todo N p' xs'
  text : text p = cs ++ text p'
  quiet : Forked p → cs = []
  feed : beforeFeed p' = beforeFeed p ∧ (beforeFeed p = true → p'.num = p.num)
  counter : p'.pc = .feed → 2 ≤ p'.i ∧ p'.i ≤ N
  cost : cost N reaped p xs = cost N reaped p' xs' + 1

/-- The text to come, when the last process goes on. -/
theorem Rest.act {p : Proc} {xs xs' : List Int} {r : Nat} {reaped : Bool} (h : Rest p (todo N p xs) txt r)
    (ha : Act N reaped p p' xs xs' ws cs) (hp : unforked p = true) :
    ∃ txt', Rest p' (todo N p' xs') txt' r ∧ txt = cs ++ txt' := by
  rw [ha.todo hp] at h
  generalize todo N p' xs' = l at h
  cases l with
  | nil => exact ⟨text p', ⟨rfl, h.2⟩, by rw [h.1, ha.text]⟩
  | cons q ys =>
    obtain ⟨ps, n, hruns, htxt, hr⟩ := h
    refine ⟨text p' ++ lines ps, ⟨ps, n, ?_, rfl, by rw [ha.feed.1]; exact hr⟩, ?_⟩
    · rw [ha.feed.1]
      cases hb : beforeFeed p with
      | true => rw [hb] at hruns; rw [ha.feed.2 hb]; exact hruns
      | false => rw [hb] at hruns; exact hruns
    · rw [htxt, ha.text, append_assoc]

/-- A MOVE KEEPS THE CHAIN GOOD. -/
theorem Good.move (hG : Good N w txt t) (hk : k < w.n) (hI : Inv w') (h : Move w w' k p' ws cs)
    (ha : Act N (w.procs (k + 1)).reaped (w.procs k) p' (pending N w k) (pending N w' k) ws cs) :
    ∃ txt' t', Good N w' txt' t' ∧ t = t' + 1 ∧ w.out ++ txt = w'.out ++ txt' := by
  have hn := h.n
  have hpending := h.pending fun _ => ha.sends
  obtain ⟨r, hrest, ht⟩ := hG.future
  have htotal : total N w = total N w' + 1 := by
    rw [total, total, h.n]
    refine sum_step hk (fun i hi hne => ?_) ?_
    · rw [h.reaped, h.other hne, hpending i hi hne]
    · rw [h.reaped, h.self, ha.cost]
  obtain ⟨txt', hrest', hout⟩ : ∃ txt', (∀ i, i + 1 = w'.n → Rest (w'.procs i) (todo N (w'.procs i) (Primes.pending N w' i)) txt' r) ∧
      txt = cs ++ txt' := by
    rcases lt_or_eq_of_le (Nat.succ_le_of_lt hk) with hlt | heq
    · obtain rfl := ha.quiet (hG.tidy.forked k hlt)
      refine ⟨txt, fun i hi => ?_, rfl⟩
      have hne : i ≠ k := by omega
      rw [h.other hne, hpending i (by omega) hne]
      exact hrest i (by omega)
    · obtain ⟨txt', hp', htxt⟩ := (hrest k heq).act ha (hG.tidy.last k heq)
      refine ⟨txt', fun i hi => ?_, htxt⟩
      obtain rfl : i = k := by omega
      rwa [h.self]
  refine ⟨txt', total N w' + r, ⟨hG.tidy.move hI h, fun hpc => ?_, r, hrest', rfl⟩, by omega, ?_⟩
  · rcases eq_or_ne 0 k with rfl | hne
    · rw [h.self] at hpc ⊢; exact ha.counter hpc
    · rw [h.other hne] at hpc ⊢; exact hG.counter hpc
  · rw [h.out, hout, append_assoc]

/-- What the last process and its new child do in a fork: the child has the prime `q` and reads `ys`. -/
structure Birth (N : Int) (p p' child : Proc) (xs : List Int) (q : Int) (ys : List Int) : Prop where
  todo : todo N p xs = q :: ys
  todo' : Primes.todo N p' xs = ys
  cost : ∀ b, cost N b p xs = cost N false p' xs + 1
  quiet : text p = [] ∧ p'.pc ≠ .feed
  text : text child = line q
  feed : beforeFeed child = false
  todo_child : Primes.todo N child ys = forwards q (if beforeFeed p then p.num else q) ys
  cost_child : ∀ b, Primes.cost N b child ys = (line q).length + 2 + (ys.length + 1) +
    closing false (Primes.todo N child ys) + if beforeFeed p then 1 else 0

/-- The child's system calls have been counted among those to come. -/
theorem Rest.birth {p child : Proc} {xs ys : List Int} {q : Int} {r : Nat} (h : Rest p (todo N p xs) txt r)
    (hb : Birth N p p' child xs q ys) (b : Bool) :
    ∃ r', Rest child (todo N child ys) txt r' ∧ r = r' + cost N b child ys := by
  rw [hb.todo] at h
  obtain ⟨ps, n, hruns, htxt, hr⟩ := h
  rw [hb.quiet.1, nil_append] at htxt
  rw [hb.cost_child, hb.todo_child]
  cases hruns with
  | last hnil =>
    rw [hnil]
    refine ⟨0, ⟨?_, rfl⟩, by omega⟩
    rw [htxt, hb.text]
    exact append_nil _
  | more hcons hmore =>
    rw [hcons]
    refine ⟨_, ⟨_, _, by rw [hb.feed]; exact hmore, ?_, rfl⟩, ?_⟩
    · rw [htxt, hb.text]
      rfl
    · rw [hb.feed]
      simp only [Bool.false_eq_true, if_false]
      omega

/-- A FORK KEEPS THE CHAIN GOOD. -/
theorem Good.fork {child : Proc} {q : Int} {ys : List Int} (hG : Good N w txt t) (hI : Inv w')
    (h : Forks w w' k p' child) (hb : Birth N (w.procs k) p' child (pending N w k) q ys) :
    ∃ t', Good N w' txt t' ∧ t = t' + 1 := by
  have hn := h.n
  have hlast := h.fork.last
  have hk : k < w.n := by omega
  have hpending : ∀ i ≤ k, pending N w' i = pending N w i := fun i hi =>
    pending_self (fun i hi => h.other i (by omega)) fun i _ => by rw [h.pipes]
  have hpending_child : pending N w' w.n = ys := by
    rw [← hlast, pending, h.pipes, h.self, hpending k (le_refl k), hG.tidy.empty k hk h.fork.forking, sends,
      h.fork.unforked, hb.todo']
    rfl
  obtain ⟨r, hrest, ht⟩ := hG.future
  obtain ⟨r', hrest', hr⟩ := (hrest k hlast).birth hb (w'.procs (w.n + 1)).reaped
  have htotal : total N w + r = total N w' + r' + 1 := by
    rw [total, total, hn, Finset.sum_range_succ, h.child, hpending_child]
    have hsum := sum_step (f := fun i => cost N (w.procs (i + 1)).reaped (w.procs i) (pending N w i))
      (g := fun i => cost N (w'.procs (i + 1)).reaped (w'.procs i) (pending N w' i)) hk (fun i hi hne => ?_) ?_
    · omega
    · rw [h.other i (by omega), hpending i (by omega), h.reaped (by omega)]
    · rw [h.self, hpending k (le_refl k), hb.cost, hlast, h.child, h.fork.born.2]
  refine ⟨total N w' + r', ⟨hG.tidy.fork hI h, fun hpc => ?_, r', fun i hi => ?_, rfl⟩, by omega⟩
  · rcases eq_zero_or_pos k with rfl | hpos
    · rw [h.self] at hpc; exact absurd hpc hb.quiet.2
    · rw [h.other 0 hpos] at hpc ⊢; exact hG.counter hpc
  · obtain rfl : i = w.n := by omega
    rwa [h.child, hpending_child]

/-- A `wait` THAT FINDS THE CHILD KEEPS THE CHAIN GOOD. -/
theorem Good.reap (hG : Good N w txt t) (hI : Inv (w.reap k)) (h : Reap w k) :
    ∃ t', Good N (w.reap k) txt t' ∧ t = t' + 1 := by
  have hpending : ∀ i, pending N (w.reap k) i = pending N w i := by
    intro i
    induction i with
    | zero => rfl
    | succ i ih =>
      rw [pending, pending, ih, reap_procs]
      rfl
  obtain ⟨r, hrest, ht⟩ := hG.future
  have htotal : total N w = total N (w.reap k) + 1 := by
    have hk : k < w.n := Nat.lt_of_succ_lt h.lt
    refine sum_step hk (fun i hi hne => ?_) ?_
    · rw [hpending, reap_other (show i + 1 ≠ k + 1 by omega), reap_procs i]
      rfl
    · have hr : ((w.reap k).procs (k + 1)).reaped = true := by simp [World.reap, World.set]
      rw [h.unreaped, hr, reap_procs k, cost, cost, h.pc]
      rfl
  refine ⟨total N (w.reap k) + r, ⟨hG.tidy.reap hI h, ?_, r, fun i hi => ?_, rfl⟩, by omega⟩
  · rw [reap_procs]; exact hG.counter
  · rw [hpending, reap_procs]; exact hrest i hi

end Move

end Xv6.Primes
