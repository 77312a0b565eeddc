import Xv6.Vm.SpaceSpec

/-! `uvmalloc` and `uvmdealloc`: user memory is the pages `0 ... n - 1`, and grows and shrinks at its end.

    The pages are all different pages of physical memory, so there are never more than `PHYSTOP / PGSIZE` of them. User
    memory never comes near the trapframe, whatever size the code asks for: `kalloc` fails long before that. -/

namespace Xv6.Vm
open Bytes Prog

variable {kend : Nat} {fails : Nat → Bool} {A : Nat → Prop} {s s' s₀ : Kmem} {r n : Nat}

/-- The number of pages that `sz` bytes take. -/
def pages (sz : Nat) : Nat := (sz + PGSIZE - 1) / PGSIZE

theorem PGROUNDUP_eq {sz : Nat} (h : sz + PGSIZE ≤ 2 ^ 64) : PGROUNDUP sz = pages sz * PGSIZE := by
  unfold PGROUNDUP pages PGSIZE at *
  omega

theorem pages_mul (n : Nat) : pages (n * PGSIZE) = n := by
  unfold pages PGSIZE
  omega

theorem pages_mono {a b : Nat} (h : a ≤ b) : pages a ≤ pages b := by
  unfold pages
  exact Nat.div_le_div_right (by omega)

theorem pages_le {sz : Nat} : pages sz ≤ n ↔ sz ≤ n * PGSIZE := by
  unfold pages PGSIZE
  omega

/-- The user pages that are mapped are `0 ... n - 1`. -/
structure Sized (r n : Nat) (s : Kmem) : Prop where
  le : n ≤ USERTOP
  iff : ∀ w, w < USERTOP → (lookup s.mem r w ≠ 0 ↔ w < n)

theorem Sized.congr (h : Sized r n s) (hM : SameMap r s s') : Sized r n s' :=
  ⟨h.le, fun w hw => by rw [hM w (lt_trans hw (by decide))]; exact h.iff w hw⟩

/-- Different user pages take different pages of physical memory. -/
theorem Sized.le_phys {h : Nat} (hZ : Sized r n s) (hS : Space kend A s r h) : n ≤ PHYSTOP / PGSIZE := by
  have hmaps : ∀ w ∈ Finset.range n, ppn (lookup s.mem r w) ∈ Finset.range (PHYSTOP / PGSIZE) := fun w hw => by
    have hw := Finset.mem_range.mp hw
    have hU := lt_of_lt_of_le hw hZ.le
    have hlt := (hS.valid _ (hS.user hU ((hZ.iff w hU).mpr hw)).1).2
    rw [Finset.mem_range]
    unfold PHYSTOP PGSIZE at *
    omega
  have hinj : ∀ v ∈ Finset.range n, ∀ w ∈ Finset.range n, ppn (lookup s.mem r v) = ppn (lookup s.mem r w) → v = w := by
    intro v hv w hw he
    have hv := Finset.mem_range.mp hv
    have hvU := lt_of_lt_of_le hv hZ.le
    have hwU := lt_of_lt_of_le (Finset.mem_range.mp hw) hZ.le
    exact hS.user_inj hvU hwU ((hZ.iff v hvU).mpr hv) he
  have := Finset.card_le_card_of_injOn _ hmaps hinj
  simpa using this

/-! ### `uvmdealloc` -/

/-- Back to fewer pages. -/
theorem Sized.cleared {lo : Nat} (hZ : Sized r n s) (hC : Cleared r s s' lo n) (hlo : lo ≤ n) : Sized r lo s' := by
  refine ⟨le_trans hlo hZ.le, fun w hw => ?_⟩
  rw [hC w (lt_trans hw (by decide))]
  by_cases hr : lo ≤ w ∧ w < n
  · rw [if_pos hr]
    exact ⟨fun hne => absurd rfl hne, fun hlt => absurd hlt (by omega)⟩
  · rw [if_neg hr, hZ.iff w hw]
    omega

/-- A small number as an int, and as an argument of type uint64. -/
theorem toNat_int {k : Nat} (hk : k < 2 ^ 31) : ((k : Int).bmod (2 ^ 32) % 2 ^ 64).toNat = k := by
  rw [Int.bmod_eq_of_le (by omega) (by omega), Int.emod_eq_of_lt (by omega) (by omega), Int.toNat_natCast]

theorem must_uvmdealloc {oldsz newsz : Nat} (hS : Space kend A s r 0) (hZ : Sized r (pages oldsz) s) :
    must kend fails (uvmdealloc r oldsz newsz) s fun x s' => x = min oldsz newsz ∧ Space kend A s' r 0 ∧ Shrunk r s s' ∧
      Cleared r s s' (pages newsz) (pages oldsz) := by
  have hphys := hZ.le_phys hS
  have hold : oldsz ≤ _ * PGSIZE := pages_le.mp hphys
  have hnone : ∀ {lo hi}, hi ≤ lo → Cleared r s s lo hi := fun hle w _ => (if_neg (by omega)).symm
  unfold uvmdealloc
  by_cases hge : newsz ≥ oldsz
  · rw [if_pos hge]
    exact ⟨by omega, hS, Shrunk.refl r s, hnone (pages_mono hge)⟩
  · have hle := pages_mono (show newsz ≤ oldsz by omega)
    have hU := hZ.le
    unfold PHYSTOP PGSIZE at hphys hold
    rw [if_neg hge, PGROUNDUP_eq (by unfold PGSIZE; omega), PGROUNDUP_eq (by unfold PGSIZE; omega), must_bind, must_when]
    constructor
    · intro hlt
      have hnp : (pages oldsz * PGSIZE - pages newsz * PGSIZE) / PGSIZE = pages oldsz - pages newsz := by
        unfold PGSIZE; omega
      have hsum : pages newsz + (pages oldsz - pages newsz) = pages oldsz := by omega
      have hmod : pages oldsz * PGSIZE % 2 ^ 64 = pages oldsz * PGSIZE := Nat.mod_eq_of_lt (by unfold PGSIZE; omega)
      dsimp only
      rw [hnp, toNat_int (by omega), uvmunmap, if_neg (by simp), ← Nat.add_mul, hsum, hmod]
      refine must_mono (unmapFrom_must hS (by omega) (by rw [hsum]) fun w h1 h2 => (hZ.iff w (by omega)).mpr (by omega)) ?_
      rintro - s' ⟨hS', hSh, hC⟩
      rw [hsum] at hC
      exact ⟨by omega, hS', hSh, hC⟩
    · intro hlt
      have : pages oldsz ≤ pages newsz := by unfold PGSIZE at hlt; omega
      exact ⟨by omega, hS, Shrunk.refl r s, hnone this⟩

/-- Pages that have been added and then freed again leave the address space with page table pages at most. -/
theorem Grown.undo (hS₀ : Space kend A s₀ r 0) (hS' : Space kend A s' r 0) (hG : Grown r s₀ s) (hSh : Shrunk r s s')
    (hM : SameMap r s₀ s') : Grown r s₀ s' := by
  have hfree : s'.free ⊆ s₀.free := fun p hp => by
    by_contra hn
    have hA := hS'.area p hp
    -- what was in use before is in the same place now
    rcases hS₀.cases_used hA hn with ⟨a, ha⟩ | ⟨v, hv, hl, rfl⟩
    · exact (hS'.table ⟨a, (hSh.same a).trans (hG.kept ha)⟩).2 hp
    · rw [← hM v (lt_trans hv (by decide))] at hl hp
      exact (hS'.user hv hl).2.1 hp
  refine ⟨fun {a p} ha => (hSh.same a).trans (hG.kept ha), fun {p} ⟨a, ha⟩ => hG.fresh ⟨a, (hSh.same a).symm.trans ha⟩, hfree,
    fun {p} hp hT => ?_⟩
  rw [hSh.bytes (fun hp' => hp (hfree hp')) fun hT' => (hG.fresh hT').elim hT hp, hG.bytes hp hT]

/-! ### `uvmalloc` -/

/-- The flags of the pages that `uvmalloc` maps. -/
abbrev allocFlags (xperm : Nat) : Nat := PTE_R ||| PTE_U ||| xperm ||| PTE_V

theorem leafFlags_alloc {xperm : Nat} (hperm : xperm < 1024) : LeafFlags (allocFlags xperm) := by
  have hlt : PTE_R ||| PTE_U ||| xperm < 2 ^ 10 := Nat.or_lt_two_pow (by decide) hperm
  refine ⟨Nat.or_lt_two_pow hlt (by decide), fun h0 => ?_, fun hV => ?_⟩
  · have := congrArg (Nat.testBit · 0) h0
    simp [allocFlags, PTE_V] at this
  · have := congrArg (Nat.testBit · 1) hV
    simp only [allocFlags, Nat.testBit_or] at this
    rw [show PTE_R.testBit 1 = true by decide, show PTE_V.testBit 1 = false by decide] at this
    simp at this

/-- Up to more pages. -/
theorem Sized.added {lo : Nat} {flags : Nat → Nat} {data : Nat → Buf} (hZ : Sized r lo s)
    (hA : Added r s s' lo n flags data) (hlo : lo ≤ n) (hn : n ≤ USERTOP) : Sized r n s' := by
  refine ⟨hn, fun w hw => ?_⟩
  by_cases hr : lo ≤ w ∧ w < n
  · exact ⟨fun _ => hr.2, fun _ => hA.ne_zero hr.1 hr.2⟩
  · rw [hA.outside w (lt_trans hw (by decide)) hr, hZ.iff w hw]
    omega

section Alloc
variable {newsz xperm lo v : Nat} {s₁ : Kmem}

/-- No more memory: what has been allocated is freed again. -/
theorem uvmalloc_fail (hS₀ : Space kend A s₀ r 0) (hZ : Sized r lo s₀) {flags : Nat → Nat} {data : Nat → Buf}
    (hA : Added r s₀ s lo v flags data) (hlo : lo ≤ v) (hv : v ≤ USERTOP)
    (hS₁ : Space kend A s₁ r 0) (hG : Grown r s s₁) (hM : SameMap r s s₁) :
    must kend fails (uvmdealloc r (v * PGSIZE) (lo * PGSIZE)) s₁ fun _ s' =>
      Space kend A s' r 0 ∧ Grown r s₀ s' ∧ SameMap r s₀ s' := by
  have hZ₁ : Sized r v s₁ := (hZ.added hA hlo hv).congr hM
  refine must_mono (must_uvmdealloc hS₁ (by rwa [pages_mul])) fun _ s' ⟨_, hS', hSh, hC⟩ => ?_
  rw [pages_mul, pages_mul] at hC
  have hM' : SameMap r s₀ s' := fun w hw => by
    rw [hC w hw]
    by_cases hr : lo ≤ w ∧ w < v
    · have h0 := (hZ.iff w (by omega)).not.mpr (by omega)
      rw [if_pos hr, not_not.mp h0]
    · rw [if_neg hr, hM w hw, hA.outside w hw hr]
  exact ⟨hS', Grown.undo hS₀ hS' (hA.grown.trans hG) hSh hM', hM'⟩

/-- The loop of `uvmalloc` from page `v` on: all pages or none. -/
theorem uvmallocFrom_must {n : Nat} (hS₀ : Space kend A s₀ r 0) (hZ : Sized r lo s₀) (hperm : xperm < 1024)
    (hS : Space kend A s r 0) (hA : Added r s₀ s lo v (fun _ => allocFlags xperm) fun _ => filled 0) (hlo : lo ≤ v)
    (hv : v ≤ USERTOP) (hnew : v ≤ pages newsz) (hn : newsz ≤ (v + n) * PGSIZE) :
    must kend fails (uvmallocFrom r (lo * PGSIZE) newsz xperm (v * PGSIZE) n) s fun x s' => Space kend A s' r 0 ∧
      ((x = newsz ∧ pages newsz ≤ USERTOP ∧ Added r s₀ s' lo (pages newsz) (fun _ => allocFlags xperm) fun _ => filled 0) ∨
        (x = 0 ∧ Grown r s₀ s' ∧ SameMap r s₀ s')) := by
  have hdone : newsz ≤ v * PGSIZE → pages newsz = v := fun hle => le_antisymm (pages_le.mpr hle) hnew
  induction n generalizing v s with
  | zero =>
    have he := hdone hn
    exact ⟨hS, .inl ⟨rfl, by rwa [he], by rwa [he]⟩⟩
  | succ n ih =>
    rw [uvmallocFrom, must_ite]
    refine ⟨fun hlt => ?_, fun hge => ?_⟩
    · have hZv := hZ.added hA hlo hv
      have hphys := hZv.le_phys hS
      have hvU : v < USERTOP := lt_of_le_of_lt hphys (by decide)
      have hlv : lookup s.mem r v = 0 := not_not.mp ((hZv.iff v hvU).not.mpr (by omega))
      have hsucc : (v * PGSIZE + PGSIZE) % 2 ^ 64 = (v + 1) * PGSIZE := by
        unfold PHYSTOP PGSIZE at *; omega
      rw [must_bind]
      refine must_kalloc ?_ fun p ps hp => ?_
      · -- kalloc fails
        rw [must_bind]
        exact must_mono (uvmalloc_fail hS₀ hZ hA hlo hv (hS.congr rfl fun _ _ => rfl) (Grown.calls r s _) fun _ _ => rfl)
          fun _ _ h => ⟨h.1, .inr ⟨rfl, h.2⟩⟩
      · simp only [must_bind, must_memset, Function.update_idem]
        refine must_mono (must_mappages_fresh hS hp hvU hlv (Nat.or_lt_two_pow (by decide : _ < 2 ^ 10) hperm)
          (leafFlags_alloc hperm)) fun x s' hx => ?_
        obtain ⟨rfl, hfree⟩ | ⟨rfl, hS', hA'⟩ := hx
        · -- mappages fails
          rw [if_pos (by decide), must_bind]
          refine must_mono hfree fun _ s₁ h₁ => ?_
          obtain ⟨hS₁, hG, hM⟩ := h₁
          rw [must_bind]
          exact must_mono (uvmalloc_fail hS₀ hZ hA hlo hv hS₁ hG hM) fun _ _ h => ⟨h.1, .inr ⟨rfl, h.2⟩⟩
        · rw [if_neg (by decide), hsucc]
          have hnew' : v + 1 ≤ pages newsz := by
            have : pages newsz ≤ v ↔ newsz ≤ v * PGSIZE := pages_le
            omega
          refine ih hS' (hA.trans hS₀ hS hA' hlo (by omega) hv) (by omega) hvU hnew' ?_ ?_
          · rw [show v + 1 + n = v + (n + 1) by omega]; exact hn
          · exact fun hle => le_antisymm (pages_le.mpr hle) hnew'
    · have he := hdone (by omega)
      exact ⟨hS, .inl ⟨rfl, by rwa [he], by rwa [he]⟩⟩

/-- `uvmalloc` adds zeroed pages up to the new size, or nothing if there is not enough memory. -/
theorem must_uvmalloc {oldsz : Nat} (hS : Space kend A s r 0) (hZ : Sized r (pages oldsz) s) (hperm : xperm < 1024) :
    must kend fails (uvmalloc r oldsz newsz xperm) s fun x s' => Space kend A s' r 0 ∧
      ((newsz < oldsz ∧ x = oldsz ∧ s' = s) ∨
       (oldsz ≤ newsz ∧ x = newsz ∧ pages newsz ≤ USERTOP ∧
          Added r s s' (pages oldsz) (pages newsz) (fun _ => allocFlags xperm) fun _ => filled 0) ∨
       (oldsz ≤ newsz ∧ x = 0 ∧ Grown r s s' ∧ SameMap r s s')) := by
  rw [uvmalloc, must_ite]
  refine ⟨fun hlt => ⟨hS, .inl ⟨hlt, rfl, rfl⟩⟩, fun hge => ?_⟩
  have hold := pages_le.mp (hZ.le_phys hS)
  rw [PGROUNDUP_eq (by unfold PHYSTOP PGSIZE at *; omega)]
  refine must_mono (uvmallocFrom_must hS hZ hperm hS (Added.refl r s _) le_rfl hZ.le (pages_mono (by omega)) ?_) ?_
  · unfold PGSIZE; omega
  · rintro x s' ⟨hS', ⟨hx, hU, hA⟩ | ⟨hx, hG, hM⟩⟩
    · exact ⟨hS', .inr (.inl ⟨by omega, hx, hU, hA⟩)⟩
    · exact ⟨hS', .inr (.inr ⟨by omega, hx, hG, hM⟩)⟩

end Alloc

end Xv6.Vm
