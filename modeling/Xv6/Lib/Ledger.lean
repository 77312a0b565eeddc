import Mathlib

/-! Ownership of numbered resources.

    A ledger assigns to each *place* the number of the resource written there, 0 meaning none, beside
    a set of resources marked as *used*. It balances when no resource of the area stands in two places
    and the used ones are exactly those that stand somewhere. `assign` writes an unused resource into
    an empty place and marks it; `clear` empties a place and takes the mark away. -/

variable {P : Type} {addr addr' : P → Nat} {area used used' : Nat → Prop}

/-- Every resource of the area is marked as used exactly when it stands in some place, and it stands
    in at most one. -/
structure Ledger (addr : P → Nat) (area used : Nat → Prop) : Prop where
  pos : ∀ b, area b → b ≠ 0
  inside : ∀ p, addr p ≠ 0 → area (addr p)
  inj : ∀ p q, addr p = addr q → addr p ≠ 0 → p = q
  used_iff : ∀ b, area b → (used b ↔ ∃ p, addr p = b)

namespace Ledger
open Function

theorem congr (h : Ledger addr area used) (ha : ∀ p, addr' p = addr p)
    (hu : ∀ b, area b → (used' b ↔ used b)) : Ledger addr' area used' := by
  obtain rfl : addr' = addr := funext ha
  exact ⟨h.pos, h.inside, h.inj, fun b hb => (hu b hb).trans (h.used_iff b hb)⟩

/-- What stands somewhere is used. -/
theorem used_of_place (h : Ledger addr area used) {p : P} (hp : addr p ≠ 0) : used (addr p) :=
  (h.used_iff _ (h.inside p hp)).mpr ⟨p, rfl⟩

/-- Unused resources come and go: of the area only what is used must stay, and only that may be used. -/
theorem rebase {area' : Nat → Prop} (h : Ledger addr area used) (hpos : ∀ b, area' b → b ≠ 0)
    (hkeep : ∀ b, area b → used b → area' b ∧ used' b) (hback : ∀ b, area' b → used' b → area b ∧ used b) :
    Ledger addr area' used' := by
  refine ⟨hpos, fun p hp => (hkeep _ (h.inside p hp) (h.used_of_place hp)).1, h.inj, fun b hb => ⟨fun hu => ?_, ?_⟩⟩
  · obtain ⟨ha, hu⟩ := hback b hb hu
    exact (h.used_iff b ha).mp hu
  · rintro ⟨p, rfl⟩
    have hp := hpos _ hb
    exact (hkeep _ (h.inside p hp) (h.used_of_place hp)).2

/-- An unused resource stands nowhere. -/
theorem ne_of_unused (h : Ledger addr area used) {b : Nat} (hb : area b) (hu : ¬used b) (p : P) :
    addr p ≠ b :=
  fun hp => hu ((h.used_iff b hb).mpr ⟨p, hp⟩)

/-- A resource is used exactly when it stands in exactly one place. -/
theorem used_iff_existsUnique (h : Ledger addr area used) {b : Nat} (hb : area b) :
    used b ↔ ∃! p, addr p = b := by
  rw [h.used_iff b hb]
  constructor
  · rintro ⟨p, rfl⟩
    exact ⟨p, rfl, fun q hq => h.inj q p hq (hq ▸ h.pos _ hb)⟩
  · exact fun ⟨p, hp, _⟩ => ⟨p, hp⟩

variable [DecidableEq P]

theorem assign (h : Ledger addr area used) {p : P} {b : Nat} (hp : addr p = 0) (hb : area b)
    (hu : ¬used b) : Ledger (update addr p b) area (fun x => x = b ∨ used x) := by
  have hfresh := h.ne_of_unused hb hu
  refine ⟨h.pos, ?_, ?_, ?_⟩
  · exact (forall_update_iff addr fun _ a => a ≠ 0 → area a).mpr
      ⟨fun _ => hb, fun q _ => h.inside q⟩
  · intro q r hqr hq0
    by_cases hq : q = p <;> by_cases hr : r = p
    · rw [hq, hr]
    · rw [hq, update_self, update_of_ne hr] at hqr
      exact absurd hqr.symm (hfresh r)
    · rw [hr, update_self, update_of_ne hq] at hqr
      exact absurd hqr (hfresh q)
    · rw [update_of_ne hq] at hqr hq0
      rw [update_of_ne hr] at hqr
      exact h.inj q r hqr hq0
  · intro x hx
    constructor
    · rintro (rfl | hux)
      · exact ⟨p, update_self ..⟩
      · obtain ⟨q, rfl⟩ := (h.used_iff x hx).mp hux
        have hq : q ≠ p := by rintro rfl; exact h.pos _ hx hp
        exact ⟨q, update_of_ne hq ..⟩
    · rintro ⟨q, hq⟩
      rcases eq_or_ne q p with rfl | hqp
      · rw [update_self] at hq
        exact .inl hq.symm
      · rw [update_of_ne hqp] at hq
        exact .inr ((h.used_iff x hx).mpr ⟨q, hq⟩)

theorem clear (h : Ledger addr area used) {p : P} (hp : addr p ≠ 0) :
    Ledger (update addr p 0) area (fun x => x ≠ addr p ∧ used x) := by
  refine ⟨h.pos, ?_, ?_, ?_⟩
  · exact (forall_update_iff addr fun _ a => a ≠ 0 → area a).mpr
      ⟨fun h0 => absurd rfl h0, fun q _ => h.inside q⟩
  · intro q r hqr hq0
    have hq : q ≠ p := by rintro rfl; rw [update_self] at hq0; exact hq0 rfl
    rw [update_of_ne hq] at hqr hq0
    have hr : r ≠ p := by rintro rfl; rw [update_self] at hqr; exact hq0 hqr
    rw [update_of_ne hr] at hqr
    exact h.inj q r hqr hq0
  · intro x hx
    rw [h.used_iff x hx]
    constructor
    · rintro ⟨hne, q, rfl⟩
      exact ⟨q, update_of_ne (fun hqp => hne (by rw [hqp])) ..⟩
    · rintro ⟨q, hq⟩
      have hqp : q ≠ p := by rintro rfl; rw [update_self] at hq; exact h.pos _ hx hq.symm
      rw [update_of_ne hqp] at hq
      exact ⟨fun hxp => hqp (h.inj q p (hq.trans hxp) (hq ▸ h.pos _ hx)), q, hq⟩

/-- A resource moves to an empty place. -/
theorem move (h : Ledger addr area used) {p q : P} (hp : addr p ≠ 0) (hq : addr q = 0) :
    Ledger (update (update addr p 0) q (addr p)) area used := by
  have hne : q ≠ p := by rintro rfl; exact hp hq
  have hempty : update addr p 0 q = 0 := by rw [update_of_ne hne, hq]
  refine ((h.clear hp).assign hempty (h.inside p hp) fun hx => hx.1 rfl).congr (fun _ => rfl) fun x _ => ?_
  constructor
  · intro hx
    by_cases hxp : x = addr p
    · exact .inl hxp
    · exact .inr ⟨hxp, hx⟩
  · rintro (rfl | ⟨-, hx⟩)
    · exact h.used_of_place hp
    · exact hx

end Ledger
