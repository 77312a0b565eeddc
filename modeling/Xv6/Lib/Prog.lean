import Mathlib

/-! Programs over a signature of atomic operations, and two ways to give them a meaning.

    `Prog Op Ret α` is a tree: ask for an operation, go on with its answer. One text of a program then
    serves several semantics. A *handler* answers one operation in one state, or blocks, or panics, and
    `run` folds it over a program. A *transformer* says of one operation what has to hold before it so
    that a condition holds after it, and `wp` folds that over a program. `wp_run` links the two:
    when the transformer is sound for the handler one operation at a time, it is sound for programs. The
    handler itself gives a transformer, `total`, under which programs also have to end. -/

universe u

/-- A program that performs operations `op : Op`, each answered by a `Ret op`. -/
inductive Prog (Op : Type) (Ret : Op → Type) (α : Type u) : Type u where
  | ret (a : α)
  | step (op : Op) (k : Ret op → Prog Op Ret α)

namespace Prog

variable {Op : Type} {Ret : Op → Type} {α β : Type} {S C Err : Type}

def bind : Prog Op Ret α → (α → Prog Op Ret β) → Prog Op Ret β
  | .ret a, f => f a
  | .step op k, f => .step op fun r => (k r).bind f

instance : Monad (Prog Op Ret) where
  pure := .ret
  bind := bind

/-- The program that performs one operation. -/
def perform (op : Op) : Prog Op Ret (Ret op) := .step op .ret

/-- Perform `p` if `c` holds. -/
def when (c : Prop) [Decidable c] (p : Prog Op Ret Unit) : Prog Op Ret Unit :=
  if c then p else pure ()

/-! ### Predicate transformers -/

/-- What must hold of the state before `op` so that `Q` holds of its answer and of the state after. -/
abbrev Transformer (Op : Type) (Ret : Op → Type) (S : Type) :=
  (op : Op) → S → (Ret op → S → Prop) → Prop

/-- A transformer under which a weaker aim asks for less. -/
def Transformer.Mono (T : Transformer Op Ret S) : Prop :=
  ∀ op s (Q Q' : Ret op → S → Prop), (∀ r s', Q r s' → Q' r s') → T op s Q → T op s Q'

variable (T : Transformer Op Ret S)

/-- Weakest precondition of a program. -/
def wp : Prog Op Ret α → S → (α → S → Prop) → Prop
  | .ret a, s, Q => Q a s
  | .step op k, s, Q => T op s fun r s' => wp (k r) s' Q

variable {T}

@[simp] theorem wp_pure (a : α) (s : S) (Q : α → S → Prop) :
    wp T (pure a : Prog Op Ret α) s Q = Q a s := rfl

@[simp] theorem wp_perform (op : Op) (s : S) (Q : Ret op → S → Prop) :
    wp T (perform op) s Q = T op s Q := rfl

@[simp] theorem wp_bind (p : Prog Op Ret α) (f : α → Prog Op Ret β) (s : S) (Q : β → S → Prop) :
    wp T (p >>= f) s Q = wp T p s fun a s' => wp T (f a) s' Q := by
  induction p generalizing s with
  | ret a => rfl
  | step op k ih => exact congrArg (T op s) (funext fun r => funext fun s' => ih r s')

theorem wp_when {c : Prop} [Decidable c] {p : Prog Op Ret Unit} {s : S} {Q : Unit → S → Prop}
    (hp : c → wp T p s Q) (hs : ¬c → Q () s) : wp T (when c p) s Q := by
  unfold when
  split
  · exact hp ‹_›
  · exact hs ‹_›

/-- Consequence rule. -/
theorem wp_mono (hT : T.Mono) {p : Prog Op Ret α} {s : S} {Q Q' : α → S → Prop}
    (h : ∀ a s', Q a s' → Q' a s') (hp : wp T p s Q) : wp T p s Q' := by
  induction p generalizing s with
  | ret a => exact h a s hp
  | step op k ih => exact hT op s _ _ (fun r s' => ih r) hp

/-! ### Handlers -/

/-- How a computation ends. -/
inductive Outcome (Err : Type) (α : Type) where
  | done (a : α)
  | blocked
  | panic (e : Err)

def Outcome.map {α β : Type} (f : α → β) : Outcome Err α → Outcome Err β
  | .done a => .done (f a)
  | .blocked => .blocked
  | .panic e => .panic e

/-- Whether the outcome is an answer and a state that pass a test. -/
def Outcome.ends (o : Outcome Err (α × C)) (q : α → C → Bool) : Bool :=
  match o with
  | .done (a, c) => q a c
  | _ => false

theorem Outcome.ends_iff {o : Outcome Err (α × C)} {q : α → C → Bool} :
    o.ends q = true ↔ ∃ a c, o = .done (a, c) ∧ q a c = true := by
  constructor
  · intro h
    cases o with
    | done ac => exact ⟨ac.1, ac.2, rfl, h⟩
    | blocked => cases h
    | panic e => cases h
  · rintro ⟨a, c, rfl, h⟩
    exact h

/-- Answer one operation. -/
abbrev Handler (Op : Type) (Ret : Op → Type) (C Err : Type) :=
  (op : Op) → C → Outcome Err (Ret op × C)

/-- Perform a program from a state. -/
def run (H : Handler Op Ret C Err) : Prog Op Ret α → C → Outcome Err (α × C)
  | .ret a, c => .done (a, c)
  | .step op k, c =>
    match H op c with
    | .done (r, c') => run H (k r) c'
    | .blocked => .blocked
    | .panic e => .panic e

/-- The transformer speaks the truth about the handler, through the view `v` of its states: an
    operation that ends leaves what was asked, one that panics does so with an error in `E`. -/
def Sound (T : Transformer Op Ret S) (H : Handler Op Ret C Err) (v : C → S) (E : Err → Prop) : Prop :=
  ∀ op c (Q : Ret op → S → Prop), T op (v c) Q →
    (∀ r c', H op c = .done (r, c') → Q r (v c')) ∧ ∀ e, H op c = .panic e → E e

/-- A program that starts under its weakest precondition ends with the aim or panics with an error
    in `E`. -/
theorem wp_run {H : Handler Op Ret C Err} {v : C → S} {E : Err → Prop} (hS : Sound T H v E)
    {p : Prog Op Ret α} {c : C} {Q : α → S → Prop} (hp : wp T p (v c) Q) :
    (∀ a c', run H p c = .done (a, c') → Q a (v c')) ∧ ∀ e, run H p c = .panic e → E e := by
  induction p generalizing c with
  | ret a => exact ⟨by rintro _ _ ⟨⟩; exact hp, by rintro _ ⟨⟩⟩
  | step op k ih =>
    obtain ⟨hdone, hpanic⟩ := hS op c _ hp
    unfold run
    cases hop : H op c with
    | done rc => exact ih rc.1 (hdone rc.1 rc.2 hop)
    | blocked => exact ⟨by rintro _ _ ⟨⟩, by rintro _ ⟨⟩⟩
    | panic e => exact ⟨by rintro _ _ ⟨⟩, by rintro _ ⟨⟩; exact hpanic e hop⟩

/-! ### Programs that end -/

/-- The outcome is an answer with `Q` or a panic in `E`. -/
def Outcome.Sat (E : Err → Prop) (Q : α → Prop) : Outcome Err α → Prop
  | .done a => Q a
  | .blocked => False
  | .panic e => E e

/-- The transformer that asks for all that the handler does: not to block, and to panic in `E` only. -/
def total (H : Handler Op Ret C Err) (E : Err → Prop) : Transformer Op Ret C := fun op c Q =>
  (H op c).Sat E fun r => Q r.1 r.2

theorem wp_total {H : Handler Op Ret C Err} {E : Err → Prop} {p : Prog Op Ret α} {c : C} {Q : α → C → Prop} :
    wp (total H E) p c Q ↔ (run H p c).Sat E fun r => Q r.1 r.2 := by
  induction p generalizing c with
  | ret a => rfl
  | step op k ih =>
    unfold run
    change (H op c).Sat E _ ↔ _
    cases hop : H op c with
    | done rc => exact ih rc.1
    | blocked => rfl
    | panic e => rfl

/-! ### Programs that stay within a set of operations -/

/-- Every operation the program can ask for satisfies `P`. -/
def Only (P : Op → Prop) : Prog Op Ret α → Prop
  | .ret _ => True
  | .step op k => P op ∧ ∀ r, Only P (k r)

section Only
variable {P : Op → Prop}

theorem Only.step {op : Op} {f : Ret op → Prog Op Ret α} (h : P op) (hf : ∀ r, Only P (f r)) : Only P (perform op >>= f) :=
  ⟨h, hf⟩

theorem Only.pure (a : α) : Only P (pure a : Prog Op Ret α) := trivial

theorem Only.perform {op : Op} (h : P op) : Only P (perform op : Prog Op Ret (Ret op)) := ⟨h, fun _ => trivial⟩

theorem Only.bind {p : Prog Op Ret α} {f : α → Prog Op Ret β} (hp : Only P p) (hf : ∀ a, Only P (f a)) :
    Only P (p >>= f) := by
  induction p with
  | ret a => exact hf a
  | step op k ih => exact ⟨hp.1, fun r => ih r (hp.2 r)⟩

theorem Only.ite {c : Prop} [Decidable c] {p q : Prog Op Ret α} (hp : Only P p) (hq : Only P q) :
    Only P (if c then p else q) := by
  split
  · exact hp
  · exact hq

/-- Frame rule: what the operations of a program do not see may be changed beforehand instead of
    afterwards. -/
theorem wp_frame {φ : S → S}
    (hφ : ∀ op, P op → ∀ s (Q : Ret op → S → Prop), T op s (fun r s' => Q r (φ s')) → T op (φ s) Q)
    (hT : T.Mono) {p : Prog Op Ret α} (hp : Only P p) {s : S} {Q : α → S → Prop}
    (h : wp T p s fun a s' => Q a (φ s')) : wp T p (φ s) Q := by
  induction p generalizing s with
  | ret a => exact h
  | step op k ih => exact hφ op hp.1 s _ (hT op s _ _ (fun r s' => ih r (hp.2 r)) h)

end Only

end Prog
