import Mathlib

/-! Runs of a labelled transition system given by a partial step function.

    `run step s as` takes the labels `as` in order and fails when one of them is not enabled. An
    invariant of one step is an invariant of a run; `Along` restricts the labels by the states they
    are taken in. `run_refines` is forward simulation along a run. `sum_move` is the bookkeeping rule
    for a quantity summed over processes when one process moves. -/

namespace Run
open Function

variable {S A : Type} {step : S → A → Option S}

/-- The state after the labels `as`, if each is enabled when its turn comes. -/
def run (step : S → A → Option S) : S → List A → Option S
  | s, [] => some s
  | s, a :: as => (step s a).bind fun s' => run step s' as

theorem run_cons {s s' : S} {a : A} {as : List A} (h : run step s (a :: as) = some s') :
    ∃ s₁, step s a = some s₁ ∧ run step s₁ as = some s' :=
  Option.bind_eq_some_iff.mp h

/-- What every step preserves, every run preserves. -/
theorem run_invariant {I : S → Prop} (hstep : ∀ s a s', I s → step s a = some s' → I s') :
    ∀ {as : List A} {s s' : S}, I s → run step s as = some s' → I s'
  | [], _, _, hs, h => by
    obtain rfl : _ = _ := Option.some.inj h
    exact hs
  | _ :: _, _, _, hs, h => by
    obtain ⟨s₁, h₁, hrest⟩ := run_cons h
    exact run_invariant hstep (hstep _ _ _ hs h₁) hrest

theorem run_append {as bs : List A} : ∀ {s s₁ s₂ : S}, run step s as = some s₁ →
    run step s₁ bs = some s₂ → run step s (as ++ bs) = some s₂ := by
  induction as with
  | nil => intro s s₁ s₂ h h'; obtain rfl : s = s₁ := Option.some.inj h; exact h'
  | cons a as ih =>
    intro s s₁ s₂ h h'
    obtain ⟨s₀, h₀, hrest⟩ := run_cons h
    rw [List.cons_append, run, h₀, Option.bind_some]
    exact ih hrest h'

/-- Every label of the run finds the state it starts from in `P`. -/
def Along (step : S → A → Option S) (P : S → A → Prop) : S → List A → Prop
  | _, [] => True
  | s, a :: as => P s a ∧ (step s a).elim True fun s' => Along step P s' as

instance decidableAlong {P : S → A → Prop} [∀ s a, Decidable (P s a)] : ∀ s as, Decidable (Along step P s as)
  | _, [] => isTrue trivial
  | s, a :: as =>
    have : Decidable ((step s a).elim True fun s' => Along step P s' as) :=
      match step s a with
      | none => isTrue trivial
      | some s' => decidableAlong s' as
    inferInstanceAs (Decidable (_ ∧ _))

theorem along_of_mem {P : S → A → Prop} : ∀ {as : List A} (s : S), (∀ a ∈ as, ∀ s, P s a) → Along step P s as
  | [], _, _ => trivial
  | a :: as, s, h => by
    refine ⟨h a (List.mem_cons_self ..) s, ?_⟩
    cases step s a with
    | none => trivial
    | some s' => exact along_of_mem s' fun b hb => h b (List.mem_cons_of_mem _ hb)

theorem along_of {P : S → A → Prop} (h : ∀ s a, P s a) (s : S) (as : List A) : Along step P s as :=
  along_of_mem s fun a _ s => h s a

theorem along_mono {P Q : S → A → Prop} (h : ∀ s a, P s a → Q s a) : ∀ {as : List A} {s : S},
    Along step P s as → Along step Q s as
  | [], _, _ => trivial
  | a :: as, s, hall => by
    refine ⟨h s a hall.1, ?_⟩
    have hnext := hall.2
    cases hs : step s a with
    | none => trivial
    | some s' =>
      rw [hs] at hnext
      exact along_mono h hnext

/-- What a step preserves under a condition, a run preserves that meets the condition all along. -/
theorem run_along {I : S → Prop} {P : S → A → Prop} (hstep : ∀ s a s', I s → P s a → step s a = some s' → I s') :
    ∀ {as : List A} {s s' : S}, I s → Along step P s as → run step s as = some s' → I s'
  | [], _, _, hs, _, h => by
    obtain rfl : _ = _ := Option.some.inj h
    exact hs
  | _ :: _, _, _, hs, hall, h => by
    obtain ⟨s₁, h₁, hrest⟩ := run_cons h
    have hnext := hall.2
    rw [h₁] at hnext
    exact run_along hstep (hstep _ _ _ hs hall.1 h₁) hnext hrest

/-- Runs of a system whose steps are a relation. -/
inductive Runs {B : Type} (R : B → A → B → Prop) : B → List A → B → Prop
  | nil (b : B) : Runs R b [] b
  | cons {b b₁ b₂ : B} {a : A} {as : List A} : R b a b₁ → Runs R b₁ as b₂ → Runs R b (a :: as) b₂

/-- If every step, seen through `v`, is one of `R`, then so is every run. -/
theorem run_refines {B : Type} {R : B → A → B → Prop} {v : S → B} {I : S → Prop} {P : S → A → Prop}
    (hstep : ∀ s a s', I s → P s a → step s a = some s' → I s' ∧ R (v s) a (v s')) :
    ∀ {as : List A} {s s' : S}, I s → Along step P s as → run step s as = some s' → Runs R (v s) as (v s')
  | [], s, s', _, _, h => by
    obtain rfl : s = s' := Option.some.inj h
    exact .nil _
  | _ :: _, _, _, hs, hall, h => by
    obtain ⟨s₁, h₁, hrest⟩ := run_cons h
    have hnext := hall.2
    rw [h₁] at hnext
    obtain ⟨hs₁, hR⟩ := hstep _ _ _ hs hall.1 h₁
    exact .cons hR (run_refines hstep hs₁ hnext hrest)

/-- The states that some run reaches from `s`. -/
def Reach (step : S → A → Option S) (s s' : S) : Prop := ∃ as, run step s as = some s'

theorem reach_invariant {I : S → Prop} (hstep : ∀ s a s', I s → step s a = some s' → I s')
    {s s' : S} (hs : I s) (h : Reach step s s') : I s' :=
  h.elim fun _ h => run_invariant hstep hs h

section Sum
variable {P β : Type} [DecidableEq P]

/-- When only one summand moves, the sum changes by it only. -/
theorem sum_move_on {s : Finset P} {f g : P → Nat} {p : P} (hp : p ∈ s) (h : ∀ q, q ≠ p → g q = f q) :
    ∑ q ∈ s, g q + f p = ∑ q ∈ s, f q + g p := by
  have hrest : ∑ q ∈ s.erase p, g q = ∑ q ∈ s.erase p, f q :=
    Finset.sum_congr rfl fun q hq => h q (Finset.ne_of_mem_erase hq)
  rw [← Finset.add_sum_erase _ g hp, ← Finset.add_sum_erase _ f hp, hrest]
  omega

variable [Fintype P]

/-- When only process `p` moves, a sum over all processes changes by its own summand only. -/
theorem sum_move {f g : P → Nat} (p : P) (h : ∀ q, q ≠ p → g q = f q) : ∑ q, g q + f p = ∑ q, f q + g p :=
  sum_move_on (Finset.mem_univ p) h

theorem sum_update (f : β → Nat) (g : P → β) (p : P) (x : β) :
    (∑ q, f (update g p x q)) + f (g p) = (∑ q, f (g q)) + f x := by
  have := sum_move (f := fun q => f (g q)) (g := fun q => f (update g p x q)) p
    fun q hq => by rw [update_of_ne hq]
  simpa only [update_self] using this

end Sum

end Run
