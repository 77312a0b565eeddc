import Xv6.Vm.Grow

/-! `freewalk`, `uvmfree` and `proc_freepagetable`: everything that an address space owns goes back to the allocator.

    `freewalk` frees the pages below a page before the page itself, so it works on memory in which the upper part of the
    tree refers to pages that are already free. What it frees is a list, `subPages`, computed before it starts. -/

namespace Xv6.Vm
open Bytes Prog Function List

variable {kend : Nat} {fails : Nat → Bool} {A : Nat → Prop} {s s' : Kmem} {r n t d : Nat} {m m' : Nat → Buf}

/-! ### `freewalk` -/

theorem nodup_indices : indices.Nodup := by
  delta indices
  exact nodup_finRange 512

theorem mem_indices (i : Fin 512) : i ∈ indices := by
  delta indices
  exact mem_finRange i

/-- The pages that hang at some of the PTEs of page `t`; `sub` are those of one subtree. -/
def below (m : Nat → Buf) (sub : Nat → List Nat) (t : Nat) (is : List (Fin 512)) : List Nat :=
  is.flatMap fun i => (child m t i).elim [] sub

/-- The pages of `d` levels of page tables from page `t` on, in the order in which `freewalk` frees them. -/
def subPages (m : Nat → Buf) : Nat → Nat → List Nat
  | 0, _ => []
  | d + 1, t => below m (subPages m d) t indices ++ [t]

/-- Page tables of at most `d` levels from page `t` on, with nothing mapped. -/
def Bare (m : Nat → Buf) : Nat → Nat → Prop
  | 0, _ => False
  | d + 1, t => ∀ i, pteAt m t i = 0 ∨ ∃ q, q < 2 ^ 44 ∧ pteAt m t i = mkPte q PTE_V ∧ Bare m d q

variable {is : List (Fin 512)} {p : Nat}

theorem mem_below {sub : Nat → List Nat} :
    p ∈ below m sub t is ↔ ∃ i ∈ is, ∃ q, child m t i = some q ∧ p ∈ sub q := by
  rw [below, mem_flatMap]
  refine exists_congr fun i => and_congr_right fun _ => ?_
  cases child m t i <;> simp

theorem mem_subPages :
    p ∈ subPages m (d + 1) t ↔ p = t ∨ ∃ i q, child m t i = some q ∧ p ∈ subPages m d q := by
  rw [subPages, mem_append, mem_below, mem_singleton, or_comm]
  simp [mem_indices]

theorem subPages_congr (h : ∀ p ∈ subPages m d t, m' p = m p) : subPages m' d t = subPages m d t := by
  induction d generalizing t with
  | zero => rw [subPages, subPages]
  | succ d ih =>
    have ht : m' t = m t := h t (mem_subPages.mpr (.inl rfl))
    have hb : below m' (subPages m' d) t indices = below m (subPages m d) t indices := by
      rw [below, below]
      refine flatMap_congr fun i _ => ?_
      rw [child_congr ht]
      cases hc : child m t i with
      | none => rw [Option.elim_none, Option.elim_none]
      | some q => exact ih fun p hp => h p (mem_subPages.mpr (.inr ⟨i, q, hc, hp⟩))
    rw [subPages, subPages, hb]

theorem child_of_mkPte {i : Fin 512} {q : Nat} (hq : q < 2 ^ 44) (h : pteAt m t i = mkPte q PTE_V) : child m t i = some q := by
  rw [child_of_pte h, if_pos (Tree.valid_mkPte q), ppn_mkPte hq (by decide)]

theorem Bare.congr (hB : Bare m d t) (h : ∀ p ∈ subPages m d t, m' p = m p) : Bare m' d t := by
  induction d generalizing t with
  | zero => exact hB
  | succ d ih =>
    have ht : m' t = m t := h t (mem_subPages.mpr (.inl rfl))
    intro i
    rw [pteAt, ht]
    rcases hB i with h0 | ⟨q, hq, he, hBq⟩
    · exact .inl h0
    · exact .inr ⟨q, hq, he, ih hBq fun p hp => h p (mem_subPages.mpr (.inr ⟨i, q, child_of_mkPte hq he, hp⟩))⟩

/-- The part of the loop of `freewalk` over the PTEs `is`, given what the recursive call does. -/
theorem freewalkFrom_must {s : Kmem} (hrec : ∀ {q : Nat} {s : Kmem}, Bare s.mem d q → (subPages s.mem d q).Nodup →
      (∀ p ∈ subPages s.mem d q, kend ≤ p * PGSIZE ∧ p * PGSIZE < PHYSTOP) →
      must kend fails (freewalk d q) s fun _ s' => s'.free = (subPages s.mem d q).reverse ++ s.free ∧
        ∀ p, p ∉ subPages s.mem d q → s'.mem p = s.mem p)
    (his : is.Nodup)
    (hB : ∀ i ∈ is, pteAt s.mem t i = 0 ∨ ∃ q, q < 2 ^ 44 ∧ pteAt s.mem t i = mkPte q PTE_V ∧ Bare s.mem d q)
    (hnd : (below s.mem (subPages s.mem d) t is).Nodup) (ht : t ∉ below s.mem (subPages s.mem d) t is)
    (hval : ∀ p ∈ below s.mem (subPages s.mem d) t is, kend ≤ p * PGSIZE ∧ p * PGSIZE < PHYSTOP) :
    must kend fails (freewalkFrom (freewalk d) t is) s fun _ s' =>
      s'.free = (below s.mem (subPages s.mem d) t is).reverse ++ s.free ∧
        ∀ p, p ≠ t → p ∉ below s.mem (subPages s.mem d) t is → s'.mem p = s.mem p := by
  induction is generalizing s with
  | nil => exact ⟨rfl, fun _ _ _ => rfl⟩
  | cons i is ih =>
    obtain ⟨hi, his⟩ := nodup_cons.mp his
    rw [freewalkFrom, must_bind, must_load]
    have hsplit : below s.mem (subPages s.mem d) t (i :: is) =
        (child s.mem t i).elim [] (subPages s.mem d) ++ below s.mem (subPages s.mem d) t is := flatMap_cons
    rw [hsplit] at hnd ht hval ⊢
    obtain ⟨hnd₁, hnd₂, hdisj⟩ := nodup_append'.mp hnd
    rw [mem_append, not_or] at ht
    rcases hB i mem_cons_self with h0 | ⟨q, hq, hpte, hBq⟩
    · -- an empty PTE
      have hc : child s.mem t i = none := by rw [child_of_pte h0]; rfl
      rw [h0, if_neg (by decide), if_neg (by decide), hc]
      exact ih his (fun j hj => hB j (mem_cons_of_mem _ hj)) hnd₂ ht.2 fun p hp => hval p (mem_append_right _ hp)
    · -- a page table page: free what is below it, and clear the PTE
      have hc := child_of_mkPte hq hpte
      rw [hc] at hnd₁ hdisj ht hval ⊢
      have hV : mkPte q PTE_V &&& (PTE_R ||| PTE_W ||| PTE_X) = 0 := by rw [mkPte_and (by decide) (by decide)]; rfl
      rw [hpte, if_pos ⟨Tree.valid_mkPte q, hV⟩, must_bind]
      have hppn : PTE2PA (mkPte q PTE_V) / PGSIZE = q := ppn_mkPte hq (by decide)
      rw [hppn]
      refine must_mono (hrec hBq hnd₁ fun p hp => hval p (mem_append_left _ hp)) fun _ s₁ ⟨hfree, hmem⟩ => ?_
      rw [must_bind, must_store]
      -- the rest of the tree is still as it was
      have hkeep : ∀ p ∈ below s.mem (subPages s.mem d) t is, setPte s₁.mem t i 0 p = s.mem p := fun p hp => by
        have hpt : p ≠ t := by rintro rfl; exact ht.2 hp
        rw [setPte_of_ne hpt, hmem p fun hp' => hdisj hp' hp]
      have hpt : ∀ j ∈ is, pteAt (setPte s₁.mem t i 0) t j = pteAt s.mem t j := fun j hj => by
        have hji : j ≠ i := by rintro rfl; exact hi hj
        rw [pteAt_setPte (Nat.two_pow_pos 64), if_neg (by tauto), pteAt, hmem t ht.1, pteAt]
      have hsub : ∀ j ∈ is, ∀ q', child s.mem t j = some q' → ∀ p ∈ subPages s.mem d q', setPte s₁.mem t i 0 p = s.mem p :=
        fun j hj q' hq' p hp => hkeep p (mem_below.mpr ⟨j, hj, q', hq', hp⟩)
      have hbelow : below (setPte s₁.mem t i 0) (subPages (setPte s₁.mem t i 0) d) t is = below s.mem (subPages s.mem d) t is := by
        refine flatMap_congr fun j hj => ?_
        have hcj : child (setPte s₁.mem t i 0) t j = child s.mem t j := by rw [child_of_pte (hpt j hj), child]
        rw [hcj]
        cases hq' : child s.mem t j with
        | none => rw [Option.elim_none, Option.elim_none]
        | some q' => exact subPages_congr (hsub j hj q' hq')
      refine must_mono (ih his (fun j hj => ?_) (by rwa [hbelow]) (by rw [hbelow]; exact ht.2) fun p hp => ?_) ?_
      · rw [hpt j hj]
        rcases hB j (mem_cons_of_mem _ hj) with h0 | ⟨q', hq', he, hBq'⟩
        · exact .inl h0
        · exact .inr ⟨q', hq', he, hBq'.congr (hsub j hj q' (child_of_mkPte hq' he))⟩
      · rw [hbelow] at hp
        exact hval p (mem_append_right _ hp)
      · rintro - s₂ ⟨hfree₂, hmem₂⟩
        rw [hbelow] at hfree₂ hmem₂
        refine ⟨?_, fun p hp hpb => ?_⟩
        · rw [hfree₂]
          change _ ++ s₁.free = _
          rw [hfree, reverse_append, append_assoc]
          rfl
        · rw [mem_append, not_or] at hpb
          exact (hmem₂ p hp hpb.2).trans ((setPte_of_ne hp).trans (hmem p hpb.1))

/-- `freewalk` frees all of the page table pages, and touches no other page. -/
theorem must_freewalk {s : Kmem} (hB : Bare s.mem d t) (hnd : (subPages s.mem d t).Nodup)
    (hval : ∀ p ∈ subPages s.mem d t, kend ≤ p * PGSIZE ∧ p * PGSIZE < PHYSTOP) :
    must kend fails (freewalk d t) s fun _ s' => s'.free = (subPages s.mem d t).reverse ++ s.free ∧
      ∀ p, p ∉ subPages s.mem d t → s'.mem p = s.mem p := by
  induction d generalizing t s with
  | zero => exact hB.elim
  | succ d ih =>
    rw [subPages] at hnd hval ⊢
    rw [freewalk, must_bind]
    obtain ⟨hnd₁, -, hdisj⟩ := nodup_append'.mp hnd
    have ht : t ∉ below s.mem (subPages s.mem d) t indices := fun hp => hdisj hp (mem_singleton_self t)
    refine must_mono (freewalkFrom_must ih nodup_indices (fun i _ => hB i) hnd₁ ht
      fun p hp => hval p (mem_append_left _ hp)) fun _ s' ⟨hfree, hmem⟩ => ?_
    refine (must_kfree (hval t (mem_append_right _ (mem_singleton_self t)))).mpr ⟨?_, fun p hp => ?_⟩
    · rw [reverse_append, reverse_singleton, append_assoc, hfree]
      rfl
    · rw [mem_append, not_or, mem_singleton] at hp
      exact (update_of_ne hp.2 ..).trans (hmem p hp.2 hp.1)

/-! ### Trees -/

theorem nodup_subPages (hnd : ∀ i q, child m t i = some q → (subPages m d q).Nodup ∧ t ∉ subPages m d q)
    (hdisj : ∀ i j q q' p, child m t i = some q → child m t j = some q' → p ∈ subPages m d q → p ∈ subPages m d q' → i = j) :
    (subPages m (d + 1) t).Nodup := by
  rw [subPages]
  refine nodup_append'.mpr ⟨?_, nodup_singleton t, disjoint_singleton.mpr fun ht => ?_⟩
  · rw [below, nodup_flatMap]
    constructor
    · intro i _
      cases hc : child m t i with
      | none => exact nodup_nil
      | some q => exact (hnd i q hc).1
    · refine nodup_indices.imp fun {i j} hij p hpi hpj => ?_
      dsimp only at hpi hpj
      cases hc : child m t i with
      | none => rw [hc] at hpi; cases hpi
      | some q =>
        cases hc' : child m t j with
        | none => rw [hc'] at hpj; cases hpj
        | some q' =>
          rw [hc] at hpi
          rw [hc'] at hpj
          exact hij (hdisj i j q q' p hc hc' hpi hpj)
  · obtain ⟨i, -, q, hc, hq⟩ := mem_below.mp ht
    exact (hnd i q hc).2 hq

theorem mem_subPages_one : p ∈ subPages m 1 t ↔ p = t := by
  rw [mem_subPages]
  simp [subPages]

theorem nodup_subPages_one (t : Nat) : (subPages m 1 t).Nodup := by
  refine nodup_subPages (fun i q _ => ?_) fun i j q q' p _ _ hp _ => ?_
  · rw [subPages]
    exact ⟨nodup_nil, not_mem_nil⟩
  · rw [subPages] at hp
    exact absurd hp not_mem_nil

theorem mem_subPages_two : p ∈ subPages m 2 t ↔ p = t ∨ ∃ j, child m t j = some p := by
  rw [mem_subPages]
  refine or_congr Iff.rfl (exists_congr fun j => ?_)
  simp [mem_subPages_one]

namespace Tree

/-- The pages that `freewalk` frees are the page table pages. -/
theorem mem_subPages_iff : p ∈ subPages m 3 r ↔ IsTable m r p := by
  rw [mem_subPages]
  constructor
  · rintro (rfl | ⟨i, q, hq, hp⟩)
    · exact ⟨.root, rfl⟩
    · rcases mem_subPages_two.mp hp with rfl | ⟨j, hj⟩
      · exact ⟨.mid i, hq⟩
      · exact ⟨.low i j, by rw [tableAt, hq]; exact hj⟩
  · rintro ⟨a, ha⟩
    cases a with
    | root => exact .inl (Option.some.inj ha).symm
    | mid i => exact .inr ⟨i, p, ha, mem_subPages_two.mpr (.inl rfl)⟩
    | low i j =>
      obtain ⟨q, hq, hp⟩ := Option.bind_eq_some_iff.mp ha
      exact .inr ⟨i, q, hq, mem_subPages_two.mpr (.inr ⟨j, hp⟩)⟩

theorem nodup (h : Tree m r) : (subPages m 3 r).Nodup := by
  have hlow : ∀ {i j q p}, child m r i = some q → child m q j = some p → tableAt m r (.low i j) = some p :=
    fun hq hp => by rw [tableAt, hq]; exact hp
  refine nodup_subPages (fun i q hq => ⟨nodup_subPages (fun j p hp => ⟨?_, ?_⟩) ?_, ?_⟩) ?_
  · exact nodup_subPages_one p
  · intro hqp
    have he := mem_subPages_one.mp hqp
    subst he
    cases h.inj (a := .mid i) hq (hlow hq hp)
  · intro j j' p p' x hp hp' hx hx'
    have e := mem_subPages_one.mp hx
    have e' := mem_subPages_one.mp hx'
    subst e e'
    cases h.inj (hlow hq hp) (hlow hq hp')
    rfl
  · intro hr
    rcases mem_subPages_two.mp hr with rfl | ⟨j, hj⟩
    · cases h.inj (a := .root) (b := .mid i) rfl hq
    · cases h.inj (a := .root) rfl (hlow hq hj)
  · intro i i' q q' p hq hq' hp hp'
    rcases mem_subPages_two.mp hp with rfl | ⟨j, hj⟩ <;> rcases mem_subPages_two.mp hp' with rfl | ⟨j', hj'⟩
    · cases h.inj (a := .mid i) (b := .mid i') hq hq'
      rfl
    · cases h.inj (a := .mid i) hq (hlow hq' hj')
    · cases h.inj (a := .mid i') hq' (hlow hq hj)
    · cases h.inj (hlow hq hj) (hlow hq' hj')
      rfl

/-- Every combination of indices is that of a page. -/
theorem exists_page (i j k : Fin 512) : ∃ v, v < 2 ^ 27 ∧ ix 2 v = i ∧ ix 1 v = j ∧ ix 0 v = k := by
  refine ⟨i * 512 ^ 2 + j * 512 + k, by omega, Fin.ext ?_, Fin.ext ?_, Fin.ext ?_⟩ <;> simp only [ix, Fin.val_ofNat] <;> omega

theorem bare (h : Tree m r) (h0 : ∀ v, v < 2 ^ 27 → lookup m r v = 0) : Bare m 3 r := by
  intro i
  refine (h.inner (a := .root) rfl trivial i).imp_right fun ⟨q, hq, hqe⟩ => ⟨q, hq, hqe, fun j => ?_⟩
  have hmid : tableAt m r (.mid i) = some q := child_of_mkPte hq hqe
  refine (h.inner hmid trivial j).imp_right fun ⟨p, hp, hpe⟩ => ⟨p, hp, hpe, fun k => .inl ?_⟩
  obtain ⟨v, hv, rfl, rfl, rfl⟩ := exists_page i j k
  have hlow : tableAt m r (leafPos v) = some p := by
    rw [tableAt_parent rfl, hmid]
    exact child_of_mkPte hp hpe
  have := h0 v hv
  rwa [lookup, hlow] at this

end Tree

/-! ### `uvmfree` -/

/-- All pages of the area are free, and the other pages have not been touched. -/
structure Freed (A : Nat → Prop) (s s' : Kmem) : Prop where
  nodup : s'.free.Nodup
  all : ∀ p, p ∈ s'.free ↔ A p
  bytes : ∀ p, ¬A p → s'.mem p = s.mem p

theorem Freed.after {s₁ : Kmem} (hF : Freed A s₁ s') (h : ∀ p, ¬A p → s₁.mem p = s.mem p) : Freed A s s' :=
  ⟨hF.nodup, hF.all, fun p hp => (hF.bytes p hp).trans (h p hp)⟩

theorem Shrunk.outside {h h' : Nat} (hSh : Shrunk r s s') (hS : Space kend A s r h) (hS' : Space kend A s' r h')
    (hp : ¬A p) : s'.mem p = s.mem p :=
  hSh.bytes (fun hf => hp (hS'.area p hf)) fun hT => hp (hS.table hT).1

theorem Grown.outside {h : Nat} (hG : Grown r s s') (hS : Space kend A s r h) (hp : ¬A p) : s'.mem p = s.mem p :=
  hG.bytes (fun hf => hp (hS.area p hf)) fun hT => hp (hS.table hT).1

/-- The page table pages that were not free are all that was missing. -/
theorem Freed.of_tables (hS : Space kend A s r 0) (h0 : ∀ v, v < 2 ^ 27 → lookup s.mem r v = 0) {ps : List Nat}
    (hnd : ps.Nodup) (hps : ∀ p, p ∈ ps ↔ IsTable s.mem r p) (hfree : s'.free = ps.reverse ++ s.free)
    (hbytes : ∀ p, p ∉ ps → s'.mem p = s.mem p) : Freed A s s' := by
  refine ⟨?_, fun p => ?_, fun p hp => hbytes p fun hT => hp (hS.table ((hps p).mp hT)).1⟩
  · rw [hfree]
    refine nodup_append'.mpr ⟨nodup_reverse.mpr hnd, hS.nodup, fun p hp hf => ?_⟩
    exact hS.not_table_of_free hf ((hps p).mp (mem_reverse.mp hp))
  · rw [hfree, mem_append, mem_reverse, hps]
    constructor
    · rintro (hT | hf)
      · exact (hS.table hT).1
      · exact hS.area p hf
    · intro hA
      by_contra hn
      rw [not_or] at hn
      rcases hS.cases_used hA hn.2 with hT | ⟨v, hv, hl, -⟩
      · exact hn.1 hT
      · exact hl (h0 v (lt_trans hv (by decide)))

/-- A page table with nothing mapped. -/
theorem must_freewalk_bare (hS : Space kend A s r 0) (h0 : ∀ v, v < 2 ^ 27 → lookup s.mem r v = 0) :
    must kend fails (freewalk 3 r) s fun _ s' => Freed A s s' :=
  must_mono (must_freewalk (hS.tree.bare h0) hS.tree.nodup fun p hp => hS.valid p (hS.table (Tree.mem_subPages_iff.mp hp)).1)
    fun _ _ h => Freed.of_tables hS h0 hS.tree.nodup (fun _ => Tree.mem_subPages_iff) h.1 h.2

/-- `uvmfree` of an address space that maps nothing but user memory. -/
theorem must_uvmfree {sz : Nat} (hS : Space kend A s r 0) (hZ : Sized r (pages sz) s)
    (hhigh : ∀ v, USERTOP ≤ v → v < 2 ^ 27 → lookup s.mem r v = 0) :
    must kend fails (uvmfree r sz) s fun _ s' => Freed A s s' := by
  have hold := pages_le.mp (hZ.le_phys hS)
  have hphys := hZ.le_phys hS
  have hzero : ∀ {s₁ : Kmem}, Cleared r s s₁ 0 (pages sz) → ∀ v, v < 2 ^ 27 → lookup s₁.mem r v = 0 := fun hC v hv => by
    rw [hC v hv]
    by_cases hr : 0 ≤ v ∧ v < pages sz
    · rw [if_pos hr]
    · rw [if_neg hr]
      by_cases hU : v < USERTOP
      · exact not_not.mp ((hZ.iff v hU).not.mpr (by omega))
      · exact hhigh v (by omega) hv
  rw [uvmfree, must_bind, must_when]
  constructor
  · intro _
    have hmod : pages sz * PGSIZE % 2 ^ 64 = pages sz * PGSIZE := Nat.mod_eq_of_lt (by unfold PHYSTOP PGSIZE at *; omega)
    rw [PGROUNDUP_eq (by unfold PHYSTOP PGSIZE at *; omega), Nat.mul_div_cancel _ (by decide), uvmunmap, if_neg (by decide),
      zero_add, hmod, ← zero_mul PGSIZE]
    refine must_mono (unmapFrom_must hS (by rw [zero_add]; exact hZ.le) (by rw [zero_add])
      fun w _ hw => (hZ.iff w (by have := hZ.le; omega)).mpr (by omega)) fun _ s₁ h₁ => ?_
    obtain ⟨hS₁, hSh, hC⟩ := h₁
    rw [zero_add] at hC
    exact must_mono (must_freewalk_bare hS₁ (hzero hC)) fun _ _ hF => hF.after fun p hp => hSh.outside hS hS₁ hp
  · intro hsz
    obtain rfl : sz = 0 := by omega
    exact must_freewalk_bare hS (hzero fun w _ => (if_neg (by simp [pages, PGSIZE])).symm)

/-! ### The page table of a process -/

/-- Unmapping a page above user memory frees nothing. -/
theorem must_unmapFixed {v h : Nat} (hS : Space kend A s r h) (hv : USERTOP ≤ v) (hv26 : v < 2 ^ 26)
    (hl : lookup s.mem r v ≠ 0) : must kend fails (uvmunmap r (v * PGSIZE) 1 false) s fun _ s' =>
      Space kend A s' r h ∧ Shrunk r s s' ∧ Cleared r s s' v (v + 1) := by
  have hmod : (v * PGSIZE + 1 * PGSIZE) % 2 ^ 64 = (v + 1) * PGSIZE := by unfold PGSIZE; omega
  have hv27 : v < 2 ^ 27 := lt_trans hv26 (by decide)
  rw [uvmunmap, if_neg (by simp), hmod]
  refine unmapFrom_step hS hv26 (by unfold PGSIZE; omega) hl fun t ht => ?_
  rw [must_when]
  refine ⟨fun hfree => absurd hfree (by decide), fun _ => ⟨hS.unmapFixed hv hv26 ht, ⟨fun a => ?_, fun _ => id,
    fun {p} _ hT => ?_⟩, fun w hw => ?_⟩⟩
  · exact hS.tree.tableAt_setLeaf ht a
  · exact setPte_of_ne (by rintro rfl; exact hT ⟨_, ht⟩)
  · have hset := hS.tree.lookup_setLeaf (e := 0) ht (Nat.two_pow_pos 64) hv27 hw
    refine hset.trans ?_
    by_cases hwv : w = v
    · rw [if_pos hwv, if_pos (by omega)]
    · rw [if_neg hwv, if_neg (by omega)]

/-- The allocator has pages of its own memory, each of them once. -/
structure Pool (kend : Nat) (s : Kmem) : Prop where
  nodup : s.free.Nodup
  pos : 0 < kend
  valid : ∀ p ∈ s.free, kend ≤ p * PGSIZE ∧ p * PGSIZE < PHYSTOP

theorem Pool.ne_zero (hP : Pool kend s) (hp : p ∈ s.free) : p ≠ 0 := by
  rintro rfl
  have h1 := (hP.valid 0 hp).1
  have h2 := hP.pos
  omega

/-- The address space of a process with `n` user pages, below the trapframe and the trampoline. -/
structure ProcSpace (kend : Nat) (A : Nat → Prop) (s : Kmem) (r n tp tf : Nat) : Prop where
  space : Space kend A s r 0
  sized : Sized r n s
  trapframe : lookup s.mem r USERTOP = mkPte tf (PTE_R ||| PTE_W ||| PTE_V)
  trampoline : lookup s.mem r (USERTOP + 1) = mkPte tp (PTE_R ||| PTE_X ||| PTE_V)

/-- Others allocate and free pages. -/
theorem ProcSpace.rebase {tp tf : Nat} (h : ProcSpace kend A s r n tp tf) (hP : Pool kend s')
    (hkeep : ∀ p, A p → p ∉ s.free → p ∉ s'.free ∧ s'.mem p = s.mem p) :
    ProcSpace kend (Space.Rest A s s') s' r n tp tf := by
  have hl : ∀ v, lookup s'.mem r v = lookup s.mem r v := lookup_congr fun p hp =>
    (hkeep p (h.space.table hp).1 (h.space.table hp).2).2
  exact ⟨h.space.rebase hP.nodup (fun p hp => ⟨hP.ne_zero hp, hP.valid p hp⟩) hkeep,
    ⟨h.sized.le, fun w hw => by rw [hl]; exact h.sized.iff w hw⟩, by rw [hl, h.trapframe], by rw [hl, h.trampoline]⟩

/-- The allocator's part of an address space. -/
theorem Space.pool {h : Nat} (hS : Space kend A s r h) (hk : 0 < kend) : Pool kend s :=
  ⟨hS.nodup, hk, fun p hp => hS.valid p (hS.area p hp)⟩

/-- `uvmcreate`: a page table of one page. -/
theorem Space.fresh {ps : List Nat} {c : Nat} (hP : Pool kend s) (hr : s.free = r :: ps) :
    Space kend (· ∈ s.free) ⟨update s.mem r (filled 0), ps, c⟩ r 0 := by
  have hmem : r ∈ s.free := by rw [hr]; exact mem_cons_self
  have hnd := hP.nodup
  rw [hr, nodup_cons] at hnd
  have hpos : ∀ p ∈ s.free, p ≠ 0 := fun p hp => hP.ne_zero hp
  have hz : update s.mem r (filled 0) r = filled 0 := update_self ..
  have hempty : Ledger (fun _ : Place => 0) (· ∈ s.free) (fun p => p ∉ s.free) :=
    ⟨hpos, fun _ hne => absurd rfl hne, fun _ _ _ hne => absurd rfl hne,
      fun p hp => ⟨fun hn => absurd hp hn, fun ⟨_, h0⟩ => absurd h0.symm (hpos p hp)⟩⟩
  refine ⟨Tree.zero hz, ?_, hnd.2, fun p hp => ?_, hP.valid, ?_, fun v _ => .inl (lookup_zero hz v), fun v _ _ => lookup_zero hz v⟩
  · refine (hempty.assign (p := .table .root) rfl hmem fun hn => hn hmem).congr (fun x => ?_) fun p _ => ?_
    · cases x with
      | table a =>
        rw [place, tableAt_zero hz]
        by_cases ha : a = .root
        · rw [if_pos ha, ha, update_self]; rfl
        · rw [if_neg ha, update_of_ne (by simpa using ha)]; rfl
      | user v =>
        rw [update_of_ne (by simp), place, lookup_zero hz]
        exact ite_self 0
      | hand => rw [update_of_ne (by simp)]; rfl
    · exact Space.not_mem_tail hr hnd.1
  · rw [hr]
    exact mem_cons_of_mem _ hp
  · rintro ⟨a, ha⟩
    rw [tableAt_zero hz] at ha
    split at ha
    · exact hpos r hmem (Option.some.inj ha)
    · cases ha

/-- Mapping a page above user memory. -/
theorem must_mapFixed {v q h perm : Nat} (hS : Space kend A s r h) (hv : USERTOP ≤ v) (hv26 : v < 2 ^ 26) (hq : q < 2 ^ 44)
    (hperm : perm < 1024) (hf : LeafFlags (perm ||| PTE_V)) (hl : lookup s.mem r v = 0) :
    must kend fails (mappages r (v * PGSIZE) PGSIZE (q * PGSIZE) perm) s fun x s' =>
      Space kend A s' r h ∧ Grown r s s' ∧ ((x = -1 ∧ SameMap r s s') ∨
        (x = 0 ∧ ∀ w, w < 2 ^ 27 → lookup s'.mem r w = if w = v then mkPte q (perm ||| PTE_V) else lookup s.mem r w)) := by
  have hv27 : v < 2 ^ 27 := lt_trans hv26 (by decide)
  refine must_mappages_page hS hv26 hq hperm hl (fun s' hS' hG hM => ⟨hS', hG, .inl ⟨rfl, hM⟩⟩) fun s' t hS' hG hM ht => ?_
  refine ⟨hS'.mapFixed hv hv26 ht hq hf.1 hf.2, hG.trans (Grown.setLeaf hS' ht), .inr ⟨rfl, fun w hw => ?_⟩⟩
  rw [← hM w hw]
  exact hS'.tree.lookup_setLeaf ht (mkPte_lt hq hf.1) hv27 hw

/-- `proc_pagetable`: an address space without user memory, or nothing at all. -/
theorem must_procPagetable {tp tf : Nat} (hP : Pool kend s) (htp : tp < 2 ^ 44) (htf : tf < 2 ^ 44) :
    must kend fails (procPagetable tp tf) s fun x s' =>
      (x = none ∧ Freed (· ∈ s.free) s s') ∨
      ∃ r, x = some r ∧ ProcSpace kend (· ∈ s.free) s' r 0 tp tf ∧ ∀ p, p ∉ s.free → s'.mem p = s.mem p := by
  have hU : USERTOP + 1 < 2 ^ 26 := by decide
  have htop : TRAMPOLINE = (USERTOP + 1) * PGSIZE := by decide
  have hframe : TRAPFRAME = USERTOP * PGSIZE := by decide
  have hsized : ∀ {r : Nat} {s : Kmem}, (∀ w, w < USERTOP → lookup s.mem r w = 0) → Sized r (pages 0) s := fun h =>
    ⟨by decide, fun w hw => ⟨fun hne => absurd (h w hw) hne, fun h0 => absurd h0 (Nat.not_lt_zero w)⟩⟩
  unfold procPagetable uvmcreate
  simp only [must_bind]
  refine must_kalloc ?_ fun r ps hr => ?_
  · exact .inl ⟨rfl, hP.nodup, fun _ => Iff.rfl, fun _ _ => rfl⟩
  simp only [must_bind, must_memset, must_pure, update_idem, htop, hframe]
  have hS : Space kend (· ∈ s.free) ⟨update s.mem r (filled 0), ps, s.calls + 1⟩ r 0 := Space.fresh hP hr
  have hmem : r ∈ s.free := by rw [hr]; exact mem_cons_self
  have h0 : ∀ v, lookup (update s.mem r (filled 0)) r v = 0 := lookup_zero (update_self ..)
  have hout : ∀ p, p ∉ s.free → update s.mem r (filled 0) p = s.mem p := fun p hp =>
    update_of_ne (by rintro rfl; exact hp hmem) ..
  refine must_mono (must_mapFixed hS (by omega) hU htp (by decide) ⟨by decide, by decide, by decide⟩ (h0 _))
    fun x s₁ h₁ => ?_
  obtain ⟨hS₁, hG₁, hx⟩ := h₁
  have hout₁ : ∀ p, p ∉ s.free → s₁.mem p = s.mem p := fun p hp => (hG₁.outside hS hp).trans (hout p hp)
  obtain ⟨rfl, hM₁⟩ | ⟨rfl, hM₁⟩ := hx
  · -- no memory for the trampoline
    have hz : ∀ v, v < 2 ^ 27 → lookup s₁.mem r v = 0 := fun v hv => (hM₁ v hv).trans (h0 v)
    rw [if_pos (by decide), must_bind]
    exact must_mono (must_uvmfree hS₁ (hsized fun w hw => hz w (lt_trans hw (by decide))) fun v _ h2 => hz v h2)
      fun _ s' hF => .inl ⟨rfl, hF.after hout₁⟩
  have hl₁ : lookup s₁.mem r USERTOP = 0 := by
    rw [hM₁ USERTOP (by decide), if_neg (by omega)]
    exact h0 _
  rw [if_neg (by decide), must_bind]
  refine must_mono (must_mapFixed hS₁ le_rfl (by omega) htf (by decide) ⟨by decide, by decide, by decide⟩ hl₁)
    fun x s₂ h₂ => ?_
  obtain ⟨hS₂, hG₂, hx⟩ := h₂
  have hout₂ : ∀ p, p ∉ s.free → s₂.mem p = s.mem p := fun p hp => (hG₂.outside hS₁ hp).trans (hout₁ p hp)
  obtain ⟨rfl, hM₂⟩ | ⟨rfl, hM₂⟩ := hx
  · -- no memory for the trapframe
    have hl₂ : lookup s₂.mem r (USERTOP + 1) ≠ 0 := by
      rw [hM₂ _ (by decide), hM₁ _ (by decide), if_pos rfl]
      unfold mkPte
      simp [PTE_V, PTE_R, PTE_X]
    rw [if_pos (by decide), must_bind]
    refine must_mono (must_unmapFixed hS₂ (by omega) hU hl₂) fun _ s₃ h₃ => ?_
    obtain ⟨hS₃, hSh, hC⟩ := h₃
    have hz : ∀ v, v < 2 ^ 27 → lookup s₃.mem r v = 0 := fun v hv => by
      rw [hC v hv]
      by_cases he : v = USERTOP + 1
      · rw [if_pos (by omega)]
      · rw [if_neg (by omega), hM₂ v hv, hM₁ v hv, if_neg he]
        exact h0 v
    rw [must_bind]
    exact must_mono (must_uvmfree hS₃ (hsized fun w hw => hz w (lt_trans hw (by decide))) fun v _ h2 => hz v h2)
      fun _ s' hF => .inl ⟨rfl, hF.after fun p hp => (hSh.outside hS₂ hS₃ hp).trans (hout₂ p hp)⟩
  · rw [if_neg (by decide), must_pure]
    refine .inr ⟨r, rfl, ⟨hS₂, hsized fun w hw => ?_, ?_, ?_⟩, hout₂⟩
    · have hw27 : w < 2 ^ 27 := lt_trans hw (by decide)
      rw [hM₂ w hw27, if_neg (by omega), hM₁ w hw27, if_neg (by omega)]
      exact h0 w
    · rw [hM₂ USERTOP (by decide), if_pos rfl]
    · rw [hM₂ (USERTOP + 1) (by decide), if_neg (by omega), hM₁ (USERTOP + 1) (by decide), if_pos rfl]

end Xv6.Vm
