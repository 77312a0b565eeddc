import Xv6.Vm.Table

/-! Rules for the code of `vm.c`.

    `must p s Q` says that `p`, run from `s`, ends in `Q`: it does not panic, whatever `kalloc` answers. -/

namespace Xv6.Vm
open Bytes Prog Function

variable {kend : Nat} {fails : Nat → Bool} {α β : Type} {s : Kmem}

/-- Run from `s`, the program ends in `Q`. -/
def must (kend : Nat) (fails : Nat → Bool) (p : VmM α) (s : Kmem) (Q : α → Kmem → Prop) : Prop :=
  Prog.wp (total (Kmem.step kend fails) fun _ => False) p s Q

theorem must_run {p : VmM α} {Q : α → Kmem → Prop} (h : must kend fails p s Q) :
    ∃ a s', run (Kmem.step kend fails) p s = .done (a, s') ∧ Q a s' := by
  have hsat := wp_total.mp h
  cases hr : run (Kmem.step kend fails) p s with
  | done r => rw [hr] at hsat; exact ⟨r.1, r.2, rfl, hsat⟩
  | blocked => rw [hr] at hsat; exact hsat.elim
  | panic e => rw [hr] at hsat; exact hsat.elim

theorem total_mono : (total (Kmem.step kend fails) fun _ => False).Mono := by
  intro op s Q Q' h hq
  unfold total at *
  cases hs : Kmem.step kend fails op s with
  | done r => rw [hs] at hq; exact h _ _ hq
  | blocked => rw [hs] at hq; exact hq
  | panic e => rw [hs] at hq; exact hq

section Structure
variable {Q Q' : α → Kmem → Prop} {R : β → Kmem → Prop} {U : Unit → Kmem → Prop}

@[simp] theorem must_pure {a : α} : must kend fails (pure a) s Q ↔ Q a s := Iff.rfl

@[simp] theorem must_bind {p : VmM α} {f : α → VmM β} :
    must kend fails (p >>= f) s R ↔ must kend fails p s fun a s' => must kend fails (f a) s' R :=
  (Prog.wp_bind p f s R).to_iff

theorem must_mono {p : VmM α} (hp : must kend fails p s Q) (h : ∀ a s', Q a s' → Q' a s') : must kend fails p s Q' :=
  Prog.wp_mono total_mono h hp

theorem must_ite {c : Prop} [Decidable c] {p q : VmM α} :
    must kend fails (if c then p else q) s Q ↔ (c → must kend fails p s Q) ∧ (¬c → must kend fails q s Q) := by
  split <;> simp [*]

theorem must_when {c : Prop} [Decidable c] {p : VmM Unit} :
    must kend fails (when c p) s U ↔ (c → must kend fails p s U) ∧ (¬c → U () s) := by
  unfold when
  split <;> simp [*]

end Structure

section Operations
variable {p o n v : Nat} {i : Fin 512} {bs : List UInt8} {b : UInt8} {U : Unit → Kmem → Prop}

@[simp] theorem must_load {Q : Nat → Kmem → Prop} : must kend fails (load p i) s Q ↔ Q (pteAt s.mem p i) s := Iff.rfl

@[simp] theorem must_store : must kend fails (store p i v) s U ↔ U () { s with mem := setPte s.mem p i v } := Iff.rfl

@[simp] theorem must_memset :
    must kend fails (memset p b) s U ↔ U () { s with mem := update s.mem p (filled b) } := Iff.rfl

@[simp] theorem must_read {Q : List UInt8 → Kmem → Prop} :
    must kend fails (read p o n) s Q ↔ Q (getBytes (s.mem p) o n) s := Iff.rfl

@[simp] theorem must_write : must kend fails (write p o bs) s U ↔
    U () { s with mem := update s.mem p (setBytes (s.mem p) o bs) } := Iff.rfl

theorem must_kfree (h : kend ≤ p * PGSIZE ∧ p * PGSIZE < PHYSTOP) : must kend fails (kfree p) s U ↔
    U () { s with mem := update s.mem p (filled 1), free := p :: s.free } := by
  change Outcome.Sat _ _ (Kmem.step kend fails (.kfree p) s) ↔ _
  rw [Kmem.step, if_neg (by omega)]
  rfl

theorem must_kalloc {Q : Option Nat → Kmem → Prop} (hnone : Q none { s with calls := s.calls + 1 })
    (hsome : ∀ p ps, s.free = p :: ps →
      Q (some p) { mem := update s.mem p (filled 5), free := ps, calls := s.calls + 1 }) :
    must kend fails kalloc s Q := by
  change Outcome.Sat _ (fun r => Q r.1 r.2) (Kmem.step kend fails .kalloc s)
  rw [Kmem.step]
  cases h : (if fails s.calls then [] else s.free) with
  | nil => exact hnone
  | cons p ps =>
    refine hsome p ps ?_
    split at h
    · cases h
    · exact h

end Operations

/-! ### Looking up -/

section Lookup
variable {t va : Nat}

/-- One level without allocation. -/
theorem must_walkFrom {Q : Option (Nat × Fin 512) → Kmem → Prop} {level : Nat} :
    must kend fails (walkFrom va false (level + 1) t) s Q ↔
      match child s.mem t (ix (level + 1) (va / PGSIZE)) with
      | none => Q none s
      | some q => must kend fails (walkFrom va false level q) s Q := by
  rw [walkFrom, must_bind, must_load, PX_eq, child]
  by_cases h : pteAt s.mem t (ix (level + 1) (va / PGSIZE)) &&& PTE_V ≠ 0
  · rw [if_pos h, if_pos h]
    rfl
  · rw [if_neg h, if_neg h]
    rfl

/-- Without allocation, `walk` changes nothing and finds the PTE unless a page table page is missing. -/
theorem must_walk {Q : Option (Nat × Fin 512) → Kmem → Prop} (hva : va < MAXVA) :
    must kend fails (walk t va false) s Q ↔
      Q ((tableAt s.mem t (leafPos (va / PGSIZE))).map fun p => (p, ix 0 (va / PGSIZE))) s := by
  rw [walk, if_neg (by omega), must_walkFrom, tableAt]
  cases child s.mem t (ix 2 (va / PGSIZE)) with
  | none => rfl
  | some q =>
    dsimp only [Option.bind_some]
    rw [must_walkFrom]
    cases child s.mem q (ix 1 (va / PGSIZE)) with
    | none => rfl
    | some q' =>
      change Q (some (q', PX 0 va)) s ↔ _
      rw [PX_eq]
      rfl

/-- The user may access the page. -/
def UserPage (m : Nat → Buf) (t v : Nat) : Prop :=
  v * PGSIZE < MAXVA ∧ lookup m t v &&& PTE_V ≠ 0 ∧ lookup m t v &&& PTE_U ≠ 0

instance (m : Nat → Buf) (t v : Nat) : Decidable (UserPage m t v) := inferInstanceAs (Decidable (_ ∧ _))

end Lookup

end Xv6.Vm
