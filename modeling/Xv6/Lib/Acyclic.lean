import Mathlib

/-! Relations without cycles. Removing edges and adding leaves makes none. -/

/-- No vertex is reached from itself. -/
def Acyclic {V : Type} (r : V → V → Prop) : Prop := ∀ x, ¬Relation.TransGen r x x

namespace Acyclic

variable {V : Type} {r r' : V → V → Prop}

theorem mono (h : Acyclic r) (hle : ∀ x y, r' x y → r x y) : Acyclic r' :=
  fun x hx => h x (Relation.TransGen.mono hle _ _ hx)

/-- Paths that do not end in a vertex without outgoing edges do not go through it. -/
theorem avoid_leaf {v : V} (hleaf : ∀ y, ¬r' v y) (hnew : ∀ x y, r' x y → y ≠ v → r x y) {x y : V}
    (hxy : Relation.TransGen r' x y) (hy : y ≠ v) : Relation.TransGen r x y := by
  induction hxy with
  | single h => exact .single (hnew _ _ h hy)
  | @tail b z _ h ih =>
    have hb : b ≠ v := by
      rintro rfl
      exact hleaf _ h
    exact (ih hb).tail (hnew _ _ h hy)

/-- New edges lead to a vertex without outgoing edges only. -/
theorem leaf (h : Acyclic r) {v : V} (hleaf : ∀ y, ¬r' v y) (hnew : ∀ x y, r' x y → y ≠ v → r x y) : Acyclic r' := by
  intro x hx
  have hne : x ≠ v := by
    rintro rfl
    obtain ⟨y, hy, _⟩ := Relation.TransGen.head'_iff.mp hx
    exact hleaf y hy
  exact h x (avoid_leaf hleaf hnew hx hne)

end Acyclic
