import Xv6.Vm.Space

/-! What the code of `vm.c` does to an address space.

    Allocating code adds page table pages and takes them from the free list; all pages that are neither free nor page
    table pages keep their bytes (`Grown`). Freeing code leaves the tree as it is and puts pages on the free list; all
    pages that are not free afterwards keep their bytes, apart from the tree (`Shrunk`). What happens to the map from
    user pages to PTEs is said besides. -/

namespace Xv6.Vm
open Bytes Prog Function List

variable {kend : Nat} {fails : Nat → Bool} {A : Nat → Prop} {s s' s'' : Kmem} {r h va : Nat}

/-- Every page is mapped as before. -/
def SameMap (r : Nat) (s s' : Kmem) : Prop := ∀ v, v < 2 ^ 27 → lookup s'.mem r v = lookup s.mem r v

theorem SameMap.refl (r : Nat) (s : Kmem) : SameMap r s s := fun _ _ => rfl

theorem SameMap.trans (h1 : SameMap r s s') (h2 : SameMap r s' s'') : SameMap r s s'' :=
  fun v hv => (h2 v hv).trans (h1 v hv)

structure Grown (r : Nat) (s s' : Kmem) : Prop where
  kept : ∀ {a p}, tableAt s.mem r a = some p → tableAt s'.mem r a = some p
  fresh : ∀ {p}, IsTable s'.mem r p → IsTable s.mem r p ∨ p ∈ s.free
  free : s'.free ⊆ s.free
  bytes : ∀ {p}, p ∉ s.free → ¬IsTable s.mem r p → s'.mem p = s.mem p

namespace Grown

theorem refl (r : Nat) (s : Kmem) : Grown r s s := ⟨id, .inl, fun _ => id, fun _ _ => rfl⟩

theorem trans (h1 : Grown r s s') (h2 : Grown r s' s'') : Grown r s s'' where
  kept := fun ha => h2.kept (h1.kept ha)
  fresh := fun hp => (h2.fresh hp).elim h1.fresh fun hf => .inr (h1.free hf)
  free := fun _ hp => h1.free (h2.free hp)
  bytes := fun hf hT => by
    rw [h2.bytes (fun hf' => hf (h1.free hf')) fun hT' => (h1.fresh hT').elim hT hf, h1.bytes hf hT]

/-- Nothing but the number of calls of `kalloc` has changed. -/
theorem calls (r : Nat) (s : Kmem) (c : Nat) : Grown r s { s with calls := c } := ⟨id, .inl, fun _ => id, fun _ _ => rfl⟩

end Grown

/-! ### `walk` -/

/-- One level of `walk`: the page table page below is there afterwards, unless there is no memory for it. -/
theorem walkFrom_alloc {level t : Nat} {x y : Pos} {Q : Option (Nat × Fin 512) → Kmem → Prop} (hS : Space kend A s r h)
    (hx : tableAt s.mem r x = some t) (hy : y.parent = some (x, ix (level + 1) (va / PGSIZE)))
    (hnone : ∀ s', Space kend A s' r h → Grown r s s' → SameMap r s s' → Q none s')
    (hsome : ∀ q s', Space kend A s' r h → Grown r s s' → SameMap r s s' → tableAt s'.mem r y = some q →
      must kend fails (walkFrom va true level q) s' Q) :
    must kend fails (walkFrom va true (level + 1) t) s Q := by
  have hchild : tableAt s.mem r y = child s.mem t (ix (level + 1) (va / PGSIZE)) := by
    rw [tableAt_parent hy, hx]
    rfl
  rw [walkFrom, must_bind, must_load, PX_eq, must_ite]
  constructor
  · intro hV
    exact hsome _ s hS (Grown.refl r s) (SameMap.refl r s) (by rw [hchild, child, if_pos hV]; rfl)
  · intro hV
    have hfree : tableAt s.mem r y = none := by rw [hchild, child, if_neg hV]
    rw [if_neg (by decide), must_bind]
    refine must_kalloc ?_ fun q ps hq => ?_
    · exact hnone _ (hS.congr rfl fun _ _ => rfl) (Grown.calls r s _) fun _ _ => rfl
    · have hmem : q ∈ s.free := by rw [hq]; exact mem_cons_self
      have hq44 := hS.lt (hS.area q hmem)
      simp only [must_bind, must_memset, must_store, update_idem, PA2PTE_valid hq44]
      obtain ⟨hS', ht, hl⟩ := hS.hang (c := s.calls + 1) hy hx hfree hq
      refine hsome q _ hS' ⟨fun {a p} ha => ?_, fun {p} hp => ?_, fun p hp => ?_, fun {p} hf hT => ?_⟩ (fun v _ => hl v) ?_
      · rw [ht, if_neg (by rintro rfl; rw [hfree] at ha; cases ha), ha]
      · obtain ⟨a, ha⟩ := hp
        rw [ht] at ha
        split at ha
        · exact .inr (Option.some.inj ha ▸ hmem)
        · exact .inl ⟨a, ha⟩
      · rw [hq]; exact mem_cons_of_mem _ hp
      · have hpt : p ≠ t := by rintro rfl; exact hT ⟨x, hx⟩
        have hpq : p ≠ q := by rintro rfl; exact hf hmem
        exact (setPte_of_ne hpt).trans (update_of_ne hpq ..)
      · rw [ht, if_pos rfl]

/-- With allocation, `walk` leaves the map alone. It fails only for want of memory. -/
theorem must_walk_alloc (hS : Space kend A s r h) (hva : va < MAXVA) :
    must kend fails (walk r va true) s fun x s' => Space kend A s' r h ∧ Grown r s s' ∧ SameMap r s s' ∧
      ∀ p i, x = some (p, i) → i = ix 0 (va / PGSIZE) ∧ tableAt s'.mem r (leafPos (va / PGSIZE)) = some p := by
  rw [walk, if_neg (by omega)]
  refine walkFrom_alloc (x := .root) (y := .mid (ix 2 (va / PGSIZE))) hS rfl rfl ?_ ?_
  · exact fun s' hS' hG hM => ⟨hS', hG, hM, by simp⟩
  · intro q s₁ hS₁ hG₁ hM₁ hq
    refine walkFrom_alloc (y := leafPos (va / PGSIZE)) hS₁ hq rfl ?_ ?_
    · exact fun s' hS' hG hM => ⟨hS', hG₁.trans hG, hM₁.trans hM, by simp⟩
    · intro q' s₂ hS₂ hG₂ hM₂ hq'
      refine ⟨hS₂, hG₁.trans hG₂, hM₁.trans hM₂, fun p i hx => ?_⟩
      obtain ⟨rfl, rfl⟩ := Prod.mk.inj (Option.some.inj hx)
      exact ⟨PX_eq 0 va, hq'⟩

/-! ### `mappages` -/

namespace Grown
variable {p : Nat} {ps : List Nat} {b : Buf} {c : Nat}

/-- `kalloc`. -/
theorem take (hS : Space kend A s r h) (hp : s.free = p :: ps) : Grown r s ⟨update s.mem p b, ps, c⟩ := by
  have hmem : p ∈ s.free := by rw [hp]; exact mem_cons_self
  have ht : ∀ a, tableAt (update s.mem p b) r a = tableAt s.mem r a := tableAt_congr fun q => hS.free_congr hmem
  refine ⟨fun {a q} ha => (ht a).trans ha, fun {q} ⟨a, ha⟩ => .inl ⟨a, (ht a).symm.trans ha⟩, fun q hq => ?_,
    fun {q} hq _ => ?_⟩
  · rw [hp]; exact mem_cons_of_mem _ hq
  · exact update_of_ne (by rintro rfl; exact hq hmem) ..

/-- `kfree` of a page that was free before and is in hand now. -/
theorem give (hG : Grown r s s') (hS : Space kend A s' r p) (hp : p ≠ 0) (hmem : p ∈ s.free) :
    Grown r s ⟨update s'.mem p b, p :: s'.free, c⟩ := by
  have ht : ∀ a, tableAt (update s'.mem p b) r a = tableAt s'.mem r a := tableAt_congr fun q hq =>
    update_of_ne (by rintro rfl; exact (hS.hand hp).2.2.1 hq) ..
  refine ⟨fun {a q} ha => (ht a).trans (hG.kept ha), fun {q} ⟨a, ha⟩ => hG.fresh ⟨a, (ht a).symm.trans ha⟩,
    fun q hq => ?_, fun {q} hq hT => ?_⟩
  · rcases mem_cons.mp hq with rfl | hq
    · exact hmem
    · exact hG.free hq
  · exact (update_of_ne (by rintro rfl; exact hq hmem) ..).trans (hG.bytes hq hT)

/-- A store to a PTE of the lowest level. -/
theorem setLeaf (hS : Space kend A s r h) {v t e : Nat} (ht : tableAt s.mem r (leafPos v) = some t) :
    Grown r s { s with mem := setPte s.mem t (ix 0 v) e } := by
  have hT := hS.tree.tableAt_setLeaf (e := e) ht
  refine ⟨fun {a q} ha => (hT a).trans ha, fun {q} ⟨a, ha⟩ => .inl ⟨a, (hT a).symm.trans ha⟩, fun _ => id, fun {q} _ hq => ?_⟩
  exact setPte_of_ne (by rintro rfl; exact hq ⟨_, ht⟩)

end Grown

/-- Flags with which a page may be mapped. -/
def LeafFlags (f : Nat) : Prop := f < 1024 ∧ f &&& PTE_V ≠ 0 ∧ f ≠ PTE_V

theorem LeafFlags.mkPte_ne_zero {f p : Nat} (hf : LeafFlags f) : mkPte p f ≠ 0 := by
  have : f ≠ 0 := by rintro rfl; exact hf.2.1 rfl
  unfold mkPte
  omega

/-- Mapping one page: one PTE is stored, unless there is no memory for page table pages. -/
theorem must_mappages_page {v q perm : Nat} {Q : Int → Kmem → Prop} (hS : Space kend A s r h) (hv : v < 2 ^ 26)
    (hq : q < 2 ^ 44) (hperm : perm < 1024) (hl : lookup s.mem r v = 0)
    (hfail : ∀ s', Space kend A s' r h → Grown r s s' → SameMap r s s' → Q (-1) s')
    (hdone : ∀ s' t, Space kend A s' r h → Grown r s s' → SameMap r s s' → tableAt s'.mem r (leafPos v) = some t →
      Q 0 { s' with mem := setPte s'.mem t (ix 0 v) (mkPte q (perm ||| PTE_V)) }) :
    must kend fails (mappages r (v * PGSIZE) PGSIZE (q * PGSIZE) perm) s Q := by
  have hva : v * PGSIZE < MAXVA := by unfold MAXVA PGSIZE; omega
  have hlast : (v * PGSIZE + PGSIZE - PGSIZE) % 2 ^ 64 = v * PGSIZE := by unfold PGSIZE; omega
  have hdiv : v * PGSIZE / PGSIZE = v := Nat.mul_div_cancel _ (by decide)
  rw [mappages, if_neg (by simp), if_neg (by simp), if_neg (by decide), hlast, Nat.div_self (by decide), mapFrom,
    must_bind]
  refine must_mono (must_walk_alloc hS hva) fun x s' ⟨hS', hG, hM, hx⟩ => ?_
  cases x with
  | none => exact hfail s' hS' hG hM
  | some y =>
    obtain ⟨hi, ht⟩ := hx y.1 y.2 rfl
    rw [hdiv] at hi ht
    have hpte : pteAt s'.mem y.1 y.2 = 0 := by
      have := hM v (lt_trans hv (by decide))
      rwa [lookup, ht, hl, ← hi] at this
    rw [must_bind, must_load, hpte, if_neg (by decide), must_bind, must_store, if_pos rfl, must_pure, or_valid hq hperm, hi]
    exact hdone s' y.1 hS' hG hM ht

/-- Fresh pages have been mapped at `lo ... hi - 1`, with the given flags and bytes. -/
structure Added (r : Nat) (s s' : Kmem) (lo hi : Nat) (flags : Nat → Nat) (data : Nat → Buf) : Prop where
  grown : Grown r s s'
  outside : ∀ w, w < 2 ^ 27 → ¬(lo ≤ w ∧ w < hi) → lookup s'.mem r w = lookup s.mem r w
  inside : ∀ w, lo ≤ w → w < hi → LeafFlags (flags w) ∧
    ∃ p ∈ s.free, lookup s'.mem r w = mkPte p (flags w) ∧ s'.mem p = data w

section Added
variable {flags : Nat → Nat} {data : Nat → Buf} {lo mid hi : Nat}

theorem Added.refl (r : Nat) (s : Kmem) (lo : Nat) : Added r s s lo lo flags data :=
  ⟨Grown.refl r s, fun _ _ _ => rfl, fun w h1 h2 => absurd h2 (by omega)⟩

/-- What has been mapped is mapped. -/
theorem Added.ne_zero (h1 : Added r s s' lo hi flags data) {w : Nat} (hlo : lo ≤ w) (hhi : w < hi) :
    lookup s'.mem r w ≠ 0 := by
  obtain ⟨hf, p, -, hl, -⟩ := h1.inside w hlo hhi
  rw [hl]
  exact hf.mkPte_ne_zero

theorem Added.trans (hS₀ : Space kend A s r 0) (hS : Space kend A s' r h) (h1 : Added r s s' lo mid flags data)
    (h2 : Added r s' s'' mid hi flags data) (hlo : lo ≤ mid) (hmid : mid ≤ hi) (hhi : mid ≤ USERTOP) :
    Added r s s'' lo hi flags data where
  grown := h1.grown.trans h2.grown
  outside := fun w hw hout => by rw [h2.outside w hw (by omega), h1.outside w hw (by omega)]
  inside := fun w hlo' hhi' => by
    by_cases hw : w < mid
    · obtain ⟨hf, p, hp, hl, hb⟩ := h1.inside w hlo' hw
      have hwU : w < USERTOP := by omega
      have hw27 : w < 2 ^ 27 := lt_trans hwU (by decide)
      obtain ⟨-, hfree, hT⟩ := hS.user hwU (h1.ne_zero hlo' hw)
      rw [hl, ppn_mkPte (hS₀.lt (hS₀.area p hp)) hf.1] at hfree hT
      exact ⟨hf, p, hp, by rw [h2.outside w hw27 (by omega), hl], by rw [h2.grown.bytes hfree hT, hb]⟩
    · obtain ⟨hf, p, hp, hl, hb⟩ := h2.inside w (by omega) hhi'
      exact ⟨hf, p, h1.grown.free hp, hl, hb⟩

/-- A page from the free list is filled and mapped as user page `v`. If that fails, `kfree` undoes it. -/
theorem must_mappages_fresh {v p c perm : Nat} {ps : List Nat} {b : Buf} (hS : Space kend A s r 0) (hp : s.free = p :: ps)
    (hv : v < USERTOP) (hl : lookup s.mem r v = 0) (hperm : perm < 1024) (hf : LeafFlags (perm ||| PTE_V)) :
    must kend fails (mappages r (v * PGSIZE) PGSIZE (p * PGSIZE) perm) ⟨update s.mem p b, ps, c⟩ fun x s' =>
      (x = -1 ∧ must kend fails (kfree p) s' fun _ s'' => Space kend A s'' r 0 ∧ Grown r s s'' ∧ SameMap r s s'') ∨
      (x = 0 ∧ Space kend A s' r 0 ∧ Added r s s' v (v + 1) (fun _ => perm ||| PTE_V) fun _ => b) := by
  have hmem : p ∈ s.free := by rw [hp]; exact mem_cons_self
  have hA := hS.area p hmem
  have hne := hS.books.pos p hA
  have hp44 := hS.lt hA
  have hv27 : v < 2 ^ 27 := lt_trans hv (by decide)
  have hS₁ : Space kend A ⟨update s.mem p b, ps, c⟩ r p := hS.take hp
  have hG₁ : Grown r s ⟨update s.mem p b, ps, c⟩ := Grown.take hS hp
  have hM₁ : SameMap r s ⟨update s.mem p b, ps, c⟩ := fun w _ => lookup_congr (fun q => hS.free_congr hmem) w
  refine must_mappages_page hS₁ (lt_trans hv (by decide)) hp44 hperm (by rw [hM₁ v hv27, hl]) ?_ ?_
  · intro s' hS' hG hM
    refine .inl ⟨rfl, (must_kfree (hS.valid p hA)).mpr ⟨hS'.give hne, (hG₁.trans hG).give hS' hne hmem, fun w hw => ?_⟩⟩
    rw [← hM₁ w hw, ← hM w hw]
    exact lookup_congr (fun q hq => update_of_ne (by rintro rfl; exact (hS'.hand hne).2.2.1 hq) ..) w
  · intro s' t hS' hG hM ht
    have hlv : lookup s'.mem r v = 0 := by rw [hM v hv27, hM₁ v hv27, hl]
    have hset : ∀ w, w < 2 ^ 27 → lookup (setPte s'.mem t (ix 0 v) (mkPte p (perm ||| PTE_V))) r w =
        if w = v then mkPte p (perm ||| PTE_V) else lookup s'.mem r w :=
      fun w hw => hS'.tree.lookup_setLeaf ht (mkPte_lt hp44 hf.1) hv27 hw
    refine .inr ⟨rfl, hS'.map hne hv ht hlv hf.1 hf.2, (hG₁.trans hG).trans (Grown.setLeaf hS' ht), fun w hw hout => ?_,
      fun w hlo hhi => ?_⟩
    · rw [hset w hw, if_neg (by omega), hM w hw, hM₁ w hw]
    · obtain rfl : w = v := by omega
      refine ⟨hf, p, hmem, by rw [hset w hv27, if_pos rfl], ?_⟩
      have hpt : p ≠ t := by rintro rfl; exact (hS'.hand hne).2.2.1 ⟨_, ht⟩
      have hfree : p ∉ ps := (hS₁.hand hne).2.1
      calc setPte s'.mem t (ix 0 w) (mkPte p (perm ||| PTE_V)) p
        _ = s'.mem p := setPte_of_ne hpt
        _ = update s.mem p b p := hG.bytes hfree (hS₁.hand hne).2.2.1
        _ = b := update_self ..

end Added

/-! ### `uvmunmap` -/

structure Shrunk (r : Nat) (s s' : Kmem) : Prop where
  same : ∀ a, tableAt s'.mem r a = tableAt s.mem r a
  free : s.free ⊆ s'.free
  bytes : ∀ {p}, p ∉ s'.free → ¬IsTable s.mem r p → s'.mem p = s.mem p

theorem Shrunk.refl (r : Nat) (s : Kmem) : Shrunk r s s := ⟨fun _ => rfl, fun _ => id, fun _ _ => rfl⟩

theorem Shrunk.trans (h1 : Shrunk r s s') (h2 : Shrunk r s' s'') : Shrunk r s s'' where
  same := fun a => (h2.same a).trans (h1.same a)
  free := fun _ hp => h2.free (h1.free hp)
  bytes := fun {p} hf hT => by
    have hT' : ¬IsTable s'.mem r p := fun ⟨a, ha⟩ => hT ⟨a, (h1.same a).symm.trans ha⟩
    rw [h2.bytes hf hT', h1.bytes (fun hf' => hf (h2.free hf')) hT]

/-- The pages `lo ... hi - 1` are no longer mapped. -/
def Cleared (r : Nat) (s s' : Kmem) (lo hi : Nat) : Prop :=
  ∀ w, w < 2 ^ 27 → lookup s'.mem r w = if lo ≤ w ∧ w < hi then 0 else lookup s.mem r w

/-- A PTE that is not empty. -/
theorem table_of_lookup {m : Nat → Buf} {v : Nat} (hl : lookup m r v ≠ 0) :
    ∃ t, tableAt m r (leafPos v) = some t ∧ lookup m r v = pteAt m t (ix 0 v) := by
  cases ht : tableAt m r (leafPos v) with
  | none => rw [lookup, ht] at hl; exact absurd rfl hl
  | some t => exact ⟨t, rfl, by rw [lookup, ht]⟩

/-- One round of `uvmunmap`. -/
theorem unmapFrom_step {v n stop : Nat} {doFree : Bool} {U : Unit → Kmem → Prop} (hS : Space kend A s r h) (hv : v < 2 ^ 26)
    (hstop : v * PGSIZE < stop) (hl : lookup s.mem r v ≠ 0)
    (hnext : ∀ t, tableAt s.mem r (leafPos v) = some t →
      must kend fails (when (doFree = true) (kfree (ppn (lookup s.mem r v)))) s fun _ s' =>
        must kend fails (unmapFrom r stop doFree ((v + 1) * PGSIZE) n) { s' with mem := setPte s'.mem t (ix 0 v) 0 } U) :
    must kend fails (unmapFrom r stop doFree (v * PGSIZE) (n + 1)) s U := by
  have hva : v * PGSIZE < MAXVA := by unfold MAXVA PGSIZE; omega
  have hdiv : v * PGSIZE / PGSIZE = v := Nat.mul_div_cancel _ (by decide)
  have hsucc : (v * PGSIZE + PGSIZE) % 2 ^ 64 = (v + 1) * PGSIZE := by unfold PGSIZE; omega
  obtain ⟨t, ht, hpte⟩ := table_of_lookup hl
  obtain h0 | ⟨hV, hf, -⟩ := hS.leaf v (lt_trans hv (by decide))
  · exact absurd h0 hl
  rw [unmapFrom, if_pos hstop, must_bind, must_walk hva, hdiv, ht]
  dsimp only [Option.map_some]
  rw [must_bind, must_load, ← hpte, if_neg hV, if_neg hf, must_bind]
  refine must_mono (hnext t ht) fun _ s' hs => ?_
  rw [must_bind, must_store, hsucc]
  exact hs

/-- `uvmunmap` of user pages that are all mapped frees them. -/
theorem unmapFrom_must {stop n v : Nat} (hS : Space kend A s r 0) (hn : v + n ≤ USERTOP) (hstop : stop = (v + n) * PGSIZE)
    (hl : ∀ w, v ≤ w → w < v + n → lookup s.mem r w ≠ 0) :
    must kend fails (unmapFrom r stop true (v * PGSIZE) n) s fun _ s' =>
      Space kend A s' r 0 ∧ Shrunk r s s' ∧ Cleared r s s' v (v + n) := by
  induction n generalizing v s with
  | zero => exact ⟨hS, Shrunk.refl r s, fun w _ => (if_neg (by omega)).symm⟩
  | succ n ih =>
    have hvU : v < USERTOP := by omega
    have hv27 : v < 2 ^ 27 := lt_trans hvU (by decide)
    have hlv := hl v le_rfl (by omega)
    obtain ⟨hA, hfree, hT⟩ := hS.user hvU hlv
    refine unmapFrom_step hS (lt_trans hvU (by decide)) (by rw [hstop]; unfold PGSIZE; omega) hlv fun t ht => ?_
    have htp : t ≠ ppn (lookup s.mem r v) := by rintro rfl; exact hT ⟨_, ht⟩
    rw [must_when]
    refine ⟨fun _ => (must_kfree (hS.valid _ hA)).mpr ?_, fun hfalse => absurd rfl hfalse⟩
    -- the page has been freed and its PTE cleared
    have hm : ∀ p, IsTable s.mem r p → update s.mem (ppn (lookup s.mem r v)) (filled 1) p = s.mem p := fun p hp =>
      update_of_ne (by rintro rfl; exact hT hp) ..
    have htree := hS.tree.congr hm
    have ht' : tableAt (update s.mem (ppn (lookup s.mem r v)) (filled 1)) r (leafPos v) = some t := by
      rw [tableAt_congr hm, ht]
    have hclear : Cleared r s ⟨setPte (update s.mem (ppn (lookup s.mem r v)) (filled 1)) t (ix 0 v) 0,
        ppn (lookup s.mem r v) :: s.free, s.calls⟩ v (v + 1) := fun w hw => by
      rw [htree.lookup_setLeaf ht' (Nat.two_pow_pos 64) hv27 hw, lookup_congr hm]
      by_cases hwv : w = v
      · rw [if_pos hwv, if_pos (by omega)]
      · rw [if_neg hwv, if_neg (by omega)]
    have hshrunk : Shrunk r s ⟨setPte (update s.mem (ppn (lookup s.mem r v)) (filled 1)) t (ix 0 v) 0,
        ppn (lookup s.mem r v) :: s.free, s.calls⟩ := by
      refine ⟨fun a => ?_, fun p hp => mem_cons_of_mem _ hp, fun {p} hp hTp => ?_⟩
      · rw [htree.tableAt_setLeaf ht', tableAt_congr hm]
      · have hpt : p ≠ t := by rintro rfl; exact hTp ⟨_, ht⟩
        exact (setPte_of_ne hpt).trans (update_of_ne (ne_of_not_mem_cons hp) ..)
    refine must_mono (ih (hS.unmap hvU ht hlv) (by omega) (by rw [hstop]; congr 1; omega) fun w hlo hhi => ?_)
      fun _ s' ⟨hS', hSh, hC⟩ => ⟨hS', hshrunk.trans hSh, fun w hw => ?_⟩
    · rw [hclear w (by unfold USERTOP TRAPFRAME TRAMPOLINE MAXVA PGSIZE at hn; omega), if_neg (by omega)]
      exact hl w (by omega) (by omega)
    · rw [hC w hw, hclear w hw]
      by_cases hr : v ≤ w ∧ w < v + (n + 1)
      · rw [if_pos hr]
        by_cases hwv : w = v
        · rw [if_neg (by omega), if_pos (by omega)]
        · rw [if_pos (by omega)]
      · rw [if_neg hr, if_neg (by omega), if_neg (by omega)]

end Xv6.Vm
