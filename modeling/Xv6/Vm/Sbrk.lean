import Xv6.Vm.Free

/-! `growproc` and `sys_sbrk`: move the end of user memory by `n` bytes.

    The size is a uint64 and `n` an int, so the new size is computed modulo 2^64. `uvmalloc` and `uvmdealloc` answer a
    request in the wrong direction with the old size. As long as `n` does not take away more than there is, neither
    happens: the size moves by exactly `n`, or nothing changes. -/

namespace Xv6.Vm
open Bytes Prog

variable {kend : Nat} {fails : Nat → Bool} {A : Nat → Prop} {s : Kmem} {t sz : Nat}

/-- `sz + n`, a uint64. -/
def addInt (sz : Nat) (n : Int32) : Nat := (((sz : Int) + n.toInt) % 2 ^ 64).toNat

/-- Grow or shrink user memory by `n` bytes: the result, and `p->sz` afterwards. -/
def growproc (t sz : Nat) (n : Int32) : VmM (Int × Nat) :=
  if n > 0 then do
    let sz' ← uvmalloc t sz (addInt sz n) PTE_W
    if sz' = 0 then pure (-1, sz) else pure (0, sz')
  else if n < 0 then do
    let sz' ← uvmdealloc t sz (addInt sz n)
    pure (0, sz')
  else pure (0, sz)

/-- `sys_sbrk`: the address of the new memory or -1, and `p->sz` afterwards. -/
def sysSbrk (t sz : Nat) (n : Int32) : VmM (Int × Nat) := do
  let (r, sz') ← growproc t sz n
  if r < 0 then pure (-1, sz') else pure (sz, sz')

/-- The sum is exact if the size stays at or above 0. -/
theorem addInt_eq {n : Int32} (hsz : sz < 2 ^ 63) (h : 0 ≤ (sz : Int) + n.toInt) : (addInt sz n : Int) = sz + n.toInt := by
  have h1 := n.toInt_lt
  rw [addInt, Int.toNat_of_nonneg (Int.emod_nonneg _ (by decide)), Int.emod_eq_of_lt h (by omega)]

/-- `growproc` moves the size by exactly `n`, or fails and changes nothing. -/
theorem must_growproc {n : Int32} (hS : Space kend A s t 0) (hZ : Sized t (pages sz) s) (h : 0 ≤ (sz : Int) + n.toInt) :
    must kend fails (growproc t sz n) s fun x s' => Space kend A s' t 0 ∧
      ((x.1 = 0 ∧ (x.2 : Int) = sz + n.toInt ∧ Sized t (pages x.2) s') ∨
        (x = (-1, sz) ∧ 0 < n ∧ SameMap t s s' ∧ Grown t s s')) := by
  have hsz : sz < 2 ^ 63 := by
    have := pages_le.mp (hZ.le_phys hS)
    unfold PHYSTOP PGSIZE at this
    omega
  have hadd := addInt_eq hsz h
  rw [growproc, must_ite]
  refine ⟨fun hpos => ?_, fun hpos => must_ite.mpr ⟨fun hneg => ?_, fun hneg => ?_⟩⟩
  · have hn : 0 < n.toInt := by simpa using Int32.lt_iff_toInt_lt.mp hpos
    rw [must_bind]
    refine must_mono (must_uvmalloc hS hZ (by decide)) fun x s' ⟨hS', hx⟩ => ?_
    obtain ⟨hlt, -⟩ | ⟨hle, rfl, hU, hA⟩ | ⟨-, rfl, hG, hM⟩ := hx
    · omega
    · rw [if_neg (by omega)]
      exact ⟨hS', .inl ⟨rfl, hadd, hZ.added hA (pages_mono hle) hU⟩⟩
    · exact ⟨hS', .inr ⟨rfl, hpos, hM, hG⟩⟩
  · have hn : n.toInt < 0 := by simpa using Int32.lt_iff_toInt_lt.mp hneg
    rw [must_bind]
    refine must_mono (must_uvmdealloc hS hZ) fun x s' ⟨hx, hS', _, hC⟩ => ?_
    have hmin : x = addInt sz n := by omega
    exact ⟨hS', .inl ⟨rfl, by rw [hmin]; exact hadd, by rw [hmin]; exact hZ.cleared hC (pages_mono (by omega))⟩⟩
  · have hn : n.toInt = 0 := by
      have h1 := Int32.lt_iff_toInt_lt.not.mp hpos
      have h2 := Int32.lt_iff_toInt_lt.not.mp hneg
      have h0 : (0 : Int32).toInt = 0 := by decide
      omega
    exact ⟨hS, .inl ⟨rfl, by rw [hn, Int.add_zero], hZ⟩⟩

/-- Taking away more than there is takes nothing: the new size wraps to one above the old. -/
theorem must_growproc_wrap {n : Int32} (hS : Space kend A s t 0) (hZ : Sized t (pages sz) s) (h : (sz : Int) + n.toInt < 0) :
    must kend fails (growproc t sz n) s fun x s' => x = (0, sz) ∧ Space kend A s' t 0 ∧ Sized t (pages sz) s' := by
  have hlow := n.le_toInt
  have hsz : sz < 2 ^ 63 := by
    have := pages_le.mp (hZ.le_phys hS)
    unfold PHYSTOP PGSIZE at this
    omega
  have hadd : sz ≤ addInt sz n := by
    rw [addInt, ← Int.add_emod_right, Int.emod_eq_of_lt (by omega) (by omega)]
    omega
  have hn : n < 0 := Int32.lt_iff_toInt_lt.mpr (by change n.toInt < 0; omega)
  have hpos : ¬n > 0 := fun hpos => Int32.lt_irrefl (Int32.lt_trans hn hpos)
  rw [growproc, if_neg hpos, if_pos hn, must_bind]
  refine must_mono (must_uvmdealloc hS hZ) fun x s' ⟨hx, hS', _, hC⟩ => ?_
  obtain rfl : x = sz := by omega
  refine ⟨rfl, hS', hZ.congr fun v hv => ?_⟩
  rw [hC v hv, if_neg (by have := pages_mono hadd; omega)]

end Xv6.Vm
