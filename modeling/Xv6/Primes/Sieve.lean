import Xv6.Primes.Code

/-! What the chain computes: the sieve as a function of streams.

    A process with prime `p` passes on the numbers that `p` does not divide; when its input ends it tests the number
    that it read last once more (`forwards`). The first number passed on is the prime of its right neighbour, and the
    others are that neighbour's input: `Runs p num xs ps n` says that a process with prime `p` and input `xs` and those
    to its right print `ps`, in `n` system calls. Whatever is repeated at the end of a stream is repeated by a stage
    that has a right neighbour already, or divided by the prime of that neighbour, so the primes come out
    (`Stream.runs`). -/

namespace Xv6.Primes
open List

def passes (p x : Int) : Bool := x.tmod p ≠ 0

/-- The numbers that a process passes on: it has read `num` last, and `xs` are still to come. -/
def forwards (p : Int) : Int → List Int → List Int
  | num, [] => if passes p num then [num] else []
  | _, x :: xs => if passes p x then x :: forwards p x xs else forwards p x xs

theorem forwards_eq (p : Int) : ∀ (num : Int) (xs : List Int),
    forwards p num xs = xs.filter (passes p) ++ if passes p (xs.getLastD num) then [xs.getLastD num] else []
  | _, [] => rfl
  | num, x :: xs => by
    rw [forwards, forwards_eq p x xs, getLastD_cons, filter_cons]
    split
    · rfl
    · rfl

/-- How many system calls come after the input has ended and the numbers `t` have been passed on. -/
def closing : Bool → List Int → Nat
  | true, t => t.length + 5
  | false, [] => 2
  | false, _ :: t => t.length + 8

/-- A process with prime `p` and input `xs`, with those to its right: the primes printed, and the system calls made. -/
inductive Runs : Int → Int → List Int → List Int → Nat → Prop
  | last {p num : Int} {xs : List Int} (h : forwards p num xs = []) :
      Runs p num xs [p] ((line p).length + 2 + (xs.length + 1) + closing false [])
  | more {p num q : Int} {xs t ps : List Int} {n : Nat} (h : forwards p num xs = q :: t) (hq : Runs q q t ps n) :
      Runs p num xs (p :: ps) ((line p).length + 2 + (xs.length + 1) + closing false (q :: t) + n)

/-! ### Primes -/

theorem passes_iff (p n : Nat) : passes p n = true ↔ ¬ p ∣ n := by
  rw [passes, decide_eq_true_iff, ← Int.ofNat_tmod, ne_eq, Nat.dvd_iff_mod_eq_zero]
  exact not_congr Int.natCast_eq_zero

/-- The input of the process with prime `p`: the numbers up to `N` that no smaller prime divides, from `p` or from
    the next one on, possibly with repetitions. -/
structure Stream (N p : Nat) (ns : List Nat) : Prop where
  prime : p.Prime
  le : p ≤ N
  sorted : ns.Pairwise (· ≤ ·)
  mem : ∀ n ∈ ns, p ≤ n ∧ n ≤ N ∧ ∀ r, r.Prime → r < p → ¬ r ∣ n
  complete : ∀ n, p < n → n ≤ N → (∀ r, r.Prime → r < p → ¬ r ∣ n) → n ∈ ns

/-- The input of the first prime process. -/
theorem stream_two {N : Nat} (hN : 2 ≤ N) : Stream N 2 ((range (N - 1)).map (· + 2)) where
  prime := Nat.prime_two
  le := hN
  sorted := (pairwise_le_range).map _ fun _ _ h => Nat.add_le_add_right h 2
  mem n hn := by
    obtain ⟨i, hi, rfl⟩ := mem_map.mp hn
    have := mem_range.mp hi
    exact ⟨by omega, by omega, fun r hr hlt => absurd hr.two_le (by omega)⟩
  complete n hlt hle _ := mem_map.mpr ⟨n - 2, mem_range.mpr (by omega), by omega⟩

section Stream
variable {N p : Nat} {ns : List Nat}

/-- A prime above `p` is in the stream. -/
theorem Stream.prime_mem (h : Stream N p ns) {q : Nat} (hq : q.Prime) (hlt : p < q) (hle : q ≤ N) : q ∈ ns := by
  refine h.complete q hlt hle fun r hr hrp hdvd => ?_
  have := (Nat.prime_dvd_prime_iff_eq hr hq).mp hdvd
  omega

theorem not_dvd_of_prime_lt {q : Nat} (hp : p.Prime) (hq : q.Prime) (hlt : p < q) : ¬ p ∣ q := by
  intro hdvd
  have := (Nat.prime_dvd_prime_iff_eq hp hq).mp hdvd
  omega

/-- If `p` divides everything, there is no prime above it. -/
theorem Stream.last (h : Stream N p ns) (hall : ns.filter (¬ p ∣ ·) = []) : ∀ q, q.Prime → p ≤ q → q ≤ N → q = p := by
  intro q hq hle hN
  by_contra hne
  have hlt : p < q := lt_of_le_of_ne hle (Ne.symm hne)
  have hmem : q ∈ ns.filter (¬ p ∣ ·) :=
    mem_filter.mpr ⟨h.prime_mem hq hlt hN, by simpa using not_dvd_of_prime_lt h.prime hq hlt⟩
  rw [hall] at hmem
  cases hmem

/-- The first number that `p` does not divide is the next prime, and the others are its stream. -/
theorem Stream.next (h : Stream N p ns) {q : Nat} {qs rest : List Nat} (hfilter : ns.filter (¬ p ∣ ·) = q :: qs)
    (hrest : ∀ n ∈ rest, n ∈ q :: qs ∧ ∀ m ∈ q :: qs, m ≤ n) (hsorted : rest.Pairwise (· ≤ ·)) :
    Stream N q (qs ++ rest) ∧ p < q ∧ ∀ r, r.Prime → p < r → r ≤ N → q ≤ r := by
  have hmem : ∀ n, n ∈ q :: qs ↔ n ∈ ns ∧ ¬ p ∣ n := fun n => by rw [← hfilter]; simp
  have hpw : (q :: qs).Pairwise (· ≤ ·) := hfilter ▸ h.sorted.filter _
  obtain ⟨hmin, hqs⟩ := pairwise_cons.mp hpw
  obtain ⟨hq, hqp⟩ := (hmem q).mp (mem_cons_self ..)
  obtain ⟨hle, hN, hsmall⟩ := h.mem q hq
  have hlt : p < q := lt_of_le_of_ne hle fun heq => hqp (heq ▸ Nat.dvd_refl p)
  have hmin' : ∀ r, r.Prime → p < r → r ≤ N → q ≤ r := by
    intro r hr hpr hrN
    rcases mem_cons.mp ((hmem r).mpr ⟨h.prime_mem hr hpr hrN, not_dvd_of_prime_lt h.prime hr hpr⟩) with rfl | hr
    · exact le_refl r
    · exact hmin r hr
  -- A prime factor of `q` is above `p`, so it is at least `q`.
  have hprime : q.Prime := by
    have hne : q ≠ 1 := by have := h.prime.two_le; omega
    obtain ⟨r, hr, hdvd⟩ := Nat.exists_prime_and_dvd hne
    have hrq : r ≤ q := Nat.le_of_dvd (by omega) hdvd
    have hpr : p < r := by
      by_contra hge
      rcases Nat.lt_or_eq_of_le (Nat.le_of_not_lt hge) with hlt | rfl
      · exact hsmall r hr hlt hdvd
      · exact hqp hdvd
    have := hmin' r hr hpr (le_trans hrq hN)
    rwa [← le_antisymm hrq this]
  have hdvd : ∀ n, n ∈ q :: qs → ∀ r, r.Prime → r < q → ¬ r ∣ n := by
    intro n hn r hr hrq
    obtain ⟨hn, hnp⟩ := (hmem n).mp hn
    rcases lt_trichotomy r p with hlt | rfl | hgt
    · exact (h.mem n hn).2.2 r hr hlt
    · exact hnp
    · have := hmin' r hr hgt (by omega)
      omega
  refine ⟨⟨hprime, hN, ?_, ?_, ?_⟩, hlt, hmin'⟩
  · exact pairwise_append.mpr ⟨hqs, hsorted, fun a ha b hb => (hrest b hb).2 a (mem_cons_of_mem _ ha)⟩
  · intro n hn
    have hn' : n ∈ q :: qs := by
      rcases mem_append.mp hn with hn | hn
      · exact mem_cons_of_mem _ hn
      · exact (hrest n hn).1
    refine ⟨?_, (h.mem n ((hmem n).mp hn').1).2.1, hdvd n hn'⟩
    rcases mem_cons.mp hn' with rfl | hn'
    · exact le_refl n
    · exact hmin n hn'
  · intro n hqn hnN hn
    have hmem' : n ∈ q :: qs :=
      (hmem n).mpr ⟨h.complete n (lt_trans hlt hqn) hnN fun r hr hrp => hn r hr (lt_trans hrp hlt), hn p h.prime hlt⟩
    rcases mem_cons.mp hmem' with rfl | hmem'
    · exact absurd hqn (lt_irrefl n)
    · exact mem_append_left _ hmem'

/-- The number that is tested once more when the input has ended, if it is passed on. -/
def repeated (p : Nat) (ns : List Nat) : List Nat := (ns.getLast?.filter (¬ p ∣ ·)).toList

theorem mem_repeated {n : Nat} : n ∈ repeated p ns ↔ ns.getLast? = some n ∧ ¬ p ∣ n := by
  simp [repeated, Option.mem_toList, Option.filter_eq_some_iff]

theorem forwards_cast {num : Int} (hnum : ns ≠ [] ∨ passes p num = false) :
    forwards p num (ns.map (↑)) = (ns.filter (¬ p ∣ ·) ++ repeated p ns).map (↑) := by
  have hfilter : (ns.map ((↑) : Nat → Int)).filter (passes p) = (ns.filter (¬ p ∣ ·)).map (↑) := by
    rw [filter_map]
    congr 1
    refine filter_congr fun n _ => ?_
    rw [Function.comp_apply, Bool.eq_iff_iff, passes_iff, decide_eq_true_iff]
  rw [forwards_eq, hfilter, map_append]
  congr 1
  cases hlast : ns.getLast? with
  | none =>
    obtain rfl := getLast?_eq_none_iff.mp hlast
    simpa [repeated] using hnum
  | some l =>
    have hlastD : (ns.map ((↑) : Nat → Int)).getLastD num = l := by
      rw [getLastD_eq_getLast?, getLast?_map, hlast]; rfl
    rw [hlastD, repeated, hlast]
    by_cases hdvd : p ∣ l
    · have hp : passes p l = false := by
        rw [Bool.eq_false_iff, ne_eq, passes_iff]
        exact not_not.mpr hdvd
      simp [hp, hdvd]
    · have hp : passes p l = true := (passes_iff p l).mpr hdvd
      simp [hp, Option.filter, hdvd]

end Stream

/-- THE PRIMES COME OUT: a process with prime `p` and those to its right print the primes from `p` to `N`. -/
theorem Stream.runs {N p : Nat} {ns : List Nat} {num : Int} (h : Stream N p ns) (hnum : ns ≠ [] ∨ passes p num = false) :
    ∃ (ps : List Nat) (n : Nat), Runs p num (ns.map (↑)) (ps.map (↑)) n ∧ ps.Pairwise (· < ·) ∧
      ∀ q, q ∈ ps ↔ q.Prime ∧ p ≤ q ∧ q ≤ N := by
  have hfwd := forwards_cast hnum
  cases hfilter : ns.filter (¬ p ∣ ·) with
  | nil =>
    have hrep : repeated p ns = [] := by
      refine eq_nil_iff_forall_not_mem.mpr fun n hn => ?_
      obtain ⟨hlast, hdvd⟩ := mem_repeated.mp hn
      have hmem : n ∈ ns.filter (¬ p ∣ ·) := mem_filter.mpr ⟨mem_of_getLast? hlast, by simpa using hdvd⟩
      rw [hfilter] at hmem
      cases hmem
    rw [hfilter, hrep] at hfwd
    refine ⟨[p], _, .last hfwd, pairwise_singleton .., fun q => ?_⟩
    rw [mem_singleton]
    constructor
    · rintro rfl
      exact ⟨h.prime, le_refl q, h.le⟩
    · rintro ⟨hq, hle, hN⟩
      exact h.last hfilter q hq hle hN
  | cons q qs =>
    rw [hfilter, cons_append, map_cons] at hfwd
    have hrest : ∀ n ∈ repeated p ns, n ∈ q :: qs ∧ ∀ m ∈ q :: qs, m ≤ n := by
      intro n hn
      obtain ⟨hlast, hdvd⟩ := mem_repeated.mp hn
      obtain ⟨ns', rfl⟩ := getLast?_eq_some_iff.mp hlast
      rw [← hfilter]
      refine ⟨mem_filter.mpr ⟨by simp, by simpa using hdvd⟩, fun m hm => ?_⟩
      rcases mem_append.mp (mem_filter.mp hm).1 with hm | hm
      · exact (pairwise_append.mp h.sorted).2.2 m hm n (mem_singleton_self n)
      · exact le_of_eq (mem_singleton.mp hm)
    have hsorted : (repeated p ns).Pairwise (· ≤ ·) := by
      unfold repeated
      cases ns.getLast?.filter (¬ p ∣ ·) with
      | none => exact .nil
      | some l => exact pairwise_singleton ..
    obtain ⟨hstream, hlt, hmin⟩ := h.next hfilter hrest hsorted
    have hself : passes q (q : Int) = false := by
      rw [Bool.eq_false_iff, ne_eq, passes_iff]
      exact not_not.mpr (Nat.dvd_refl q)
    have hdec : N - q < N - p := by have := hstream.le; omega
    obtain ⟨ps, n, hruns, hpw, hmem⟩ := hstream.runs (.inr hself)
    refine ⟨p :: ps, _, .more hfwd hruns, pairwise_cons.mpr ⟨fun r hr => ?_, hpw⟩, fun r => ?_⟩
    · have := ((hmem r).mp hr).2.1
      omega
    · rw [mem_cons, hmem]
      constructor
      · rintro (rfl | ⟨hr, hle, hN⟩)
        · exact ⟨h.prime, le_refl r, h.le⟩
        · exact ⟨hr, by omega, hN⟩
      · rintro ⟨hr, hle, hN⟩
        rcases lt_or_eq_of_le hle with hlt | rfl
        · exact .inr ⟨hr, hmin r hr hlt hN, hN⟩
        · exact .inl rfl
termination_by N - p

end Xv6.Primes
