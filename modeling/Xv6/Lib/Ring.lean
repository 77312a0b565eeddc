import Mathlib

/-! Ring buffers indexed by counters that only ever grow, and wrap.

    A ring of `N` places whose counters run modulo `M` works across the wrap if `N` divides `M`: then the
    place of a counter does not depend on whether it has wrapped. `contents` lists what the ring holds,
    from the oldest on. -/

namespace Ring
open Function List

variable {α : Type} {N M r len n : Nat} {buf : Nat → α} {x : α}

/-- The `len` elements of the ring from counter `r` on. -/
def contents (N : Nat) (buf : Nat → α) (r len : Nat) : List α :=
  (range len).map fun i => buf ((r + i) % N)

@[simp] theorem length_contents : (contents N buf r len).length = len := by simp [contents]

@[simp] theorem contents_zero : contents N buf r 0 = [] := rfl

theorem contents_succ : contents N buf r (len + 1) = contents N buf r len ++ [buf ((r + len) % N)] := by
  simp [contents, range_succ]

theorem contents_cons : contents N buf r (len + 1) = buf (r % N) :: contents N buf (r + 1) len := by
  simp only [contents, range_succ_eq_map, map_cons, map_map, Nat.add_zero]
  refine congrArg _ (map_congr_left fun i _ => ?_)
  simp only [comp_apply, Nat.succ_eq_add_one, Nat.add_assoc, Nat.add_comm 1 i]

theorem contents_add {m : Nat} : contents N buf r (len + m) = contents N buf r len ++ contents N buf (r + len) m := by
  simp only [contents, range_add, map_append, map_map, Nat.add_assoc, comp_def]

/-- Two of `N` consecutive counters do not share a place. -/
theorem place_ne {i j : Nat} (hij : i < j) (hj : j < i + N) : (r + i) % N ≠ (r + j) % N := by
  intro heq
  have hdvd : N ∣ r + j - (r + i) := Nat.dvd_of_mod_eq_zero (Nat.sub_mod_eq_zero_of_mod_eq heq.symm)
  have := Nat.le_of_dvd (by omega) hdvd
  omega

/-- An element stored behind the last one, or further on within the ring, changes none of them. -/
theorem contents_update (h : len ≤ n) (hn : n < N) :
    contents N (update buf ((r + n) % N) x) r len = contents N buf r len := by
  refine map_congr_left fun i hi => update_of_ne (place_ne ?_ ?_) ..
  · exact Nat.lt_of_lt_of_le (mem_range.mp hi) h
  · omega

/-- Storing behind the last element. -/
theorem contents_push (h : len < N) :
    contents N (update buf ((r + len) % N) x) r (len + 1) = contents N buf r len ++ [x] := by
  rw [contents_succ, contents_update (Nat.le_refl len) h, update_self]

/-- The counter may have wrapped. -/
theorem contents_mod (h : N ∣ M) : contents N buf (r % M) len = contents N buf r len := by
  refine map_congr_left fun i _ => ?_
  rw [Nat.add_mod, Nat.mod_mod_of_dvd r h, ← Nat.add_mod]

section Counter
variable {a b : Nat}

theorem dist_of_le (hb : b < M) (h : a ≤ b) : (M - a + b) % M = b - a := by
  rw [show M - a + b = b - a + M by omega, Nat.add_mod_right, Nat.mod_eq_of_lt (by omega)]

theorem dist_of_lt (ha : a < M) (h : b < a) : (M - a + b) % M = M - a + b :=
  Nat.mod_eq_of_lt (by omega)

theorem dist_succ (ha : a < M) (hb : b < M) (h : (M - a + b) % M < M - 1) :
    (M - a + (b + 1) % M) % M = (M - a + b) % M + 1 := by
  rcases Nat.lt_or_ge b a with hlt | hle
  · rw [dist_of_lt ha hlt] at h ⊢
    rw [Nat.mod_eq_of_lt (show b + 1 < M by omega), Nat.mod_eq_of_lt (by omega), Nat.add_assoc]
  · rw [dist_of_le hb hle] at h ⊢
    rcases Nat.lt_or_ge (b + 1) M with hM | hM
    · rw [Nat.mod_eq_of_lt hM, dist_of_le hM (by omega)]
      omega
    · rw [show b + 1 = M by omega, Nat.mod_self, Nat.add_zero, Nat.mod_eq_of_lt (by omega)]
      omega

theorem dist_eq_zero (ha : a < M) (hb : b < M) : (M - a + b) % M = 0 ↔ a = b := by
  rcases Nat.lt_or_ge b a with hlt | hle
  · rw [dist_of_lt ha hlt]
    omega
  · rw [dist_of_le hb hle]
    omega

theorem dist_pred (ha : a < M) (hb : b < M) (h : a ≠ b) : (M - (a + 1) % M + b) % M + 1 = (M - a + b) % M := by
  rcases Nat.lt_or_ge (a + 1) M with hM | hM
  · rw [Nat.mod_eq_of_lt hM]
    rcases Nat.lt_or_ge b a with hlt | hle
    · rw [dist_of_lt ha hlt, dist_of_lt hM (by omega)]
      omega
    · rw [dist_of_le hb hle, dist_of_le hb (by omega)]
      omega
  · rw [show a + 1 = M by omega, Nat.mod_self, Nat.sub_zero, Nat.add_mod_left, Nat.mod_eq_of_lt hb,
      dist_of_lt ha (by omega)]
    omega

/-- The place of a counter is where the distance from an earlier one says. -/
theorem place_dist (ha : a < M) (hN : N ∣ M) : b % N = (a + (M - a + b) % M) % N := by
  rw [Nat.add_mod, Nat.mod_mod_of_dvd _ hN, ← Nat.add_mod, show a + (M - a + b) = b + M by omega, Nat.add_mod,
    Nat.mod_eq_zero_of_dvd hN, Nat.add_zero, Nat.mod_mod]

end Counter

section UInt32
variable {a b : UInt32}

theorem toNat_dist_succ (h : (b - a).toNat < 2 ^ 32 - 1) : (b + 1 - a).toNat = (b - a).toNat + 1 :=
  dist_succ a.toNat_lt b.toNat_lt h

theorem toNat_dist_eq_zero : (b - a).toNat = 0 ↔ a = b :=
  (dist_eq_zero a.toNat_lt b.toNat_lt).trans UInt32.toNat_inj

theorem toNat_dist_pred (h : a ≠ b) : (b - (a + 1)).toNat + 1 = (b - a).toNat :=
  dist_pred a.toNat_lt b.toNat_lt fun heq => h (UInt32.toNat_inj.mp heq)

theorem toNat_dist_add {c : UInt32} (h : (b - a).toNat + (c - b).toNat < 2 ^ 32) :
    (c - a).toNat = (b - a).toNat + (c - b).toNat := by
  have ha := a.toNat_lt
  have hb := b.toNat_lt
  have hc := c.toNat_lt
  simp only [UInt32.toNat_sub] at h ⊢
  omega

theorem place_eq (hN : N ∣ 2 ^ 32) : b.toNat % N = (a.toNat + (b - a).toNat) % N :=
  place_dist a.toNat_lt hN

/-- Counting on from an earlier counter. -/
theorem contents_counter (hN : N ∣ 2 ^ 32) :
    contents N buf b.toNat len = contents N buf (a.toNat + (b - a).toNat) len := by
  have hb : b = a + (b - a) := by rw [UInt32.add_comm, UInt32.sub_add_cancel]
  have := congrArg UInt32.toNat hb
  rw [UInt32.toNat_add] at this
  rw [this, contents_mod hN]

theorem contents_succ_counter (hN : N ∣ 2 ^ 32) :
    contents N buf (a + 1).toNat len = contents N buf (a.toNat + 1) len := by
  rw [UInt32.toNat_add]
  exact contents_mod hN

end UInt32

section UInt16
variable {a b : UInt16}

theorem toNat_dist_succ16 (h : (b - a).toNat < 2 ^ 16 - 1) : (b + 1 - a).toNat = (b - a).toNat + 1 :=
  dist_succ a.toNat_lt b.toNat_lt h

theorem toNat_dist_eq_zero16 : (b - a).toNat = 0 ↔ a = b :=
  (dist_eq_zero a.toNat_lt b.toNat_lt).trans UInt16.toNat_inj

theorem toNat_dist_pred16 (h : a ≠ b) : (b - (a + 1)).toNat + 1 = (b - a).toNat :=
  dist_pred a.toNat_lt b.toNat_lt fun heq => h (UInt16.toNat_inj.mp heq)

theorem place_eq16 (hN : N ∣ 2 ^ 16) : b.toNat % N = (a.toNat + (b - a).toNat) % N :=
  place_dist a.toNat_lt hN

theorem contents_succ_counter16 (hN : N ∣ 2 ^ 16) :
    contents N buf (a + 1).toNat len = contents N buf (a.toNat + 1) len := by
  rw [UInt16.toNat_add]
  exact contents_mod hN

end UInt16

end Ring
