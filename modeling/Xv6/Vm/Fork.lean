import Xv6.Vm.Copy
import Xv6.Vm.Free

/-! `uvmcopy`: the child of a `fork` has the bytes of its parent, in pages of its own.

    The parent's pages lie outside the area that the child shares with the allocator, so the loop is that of `uvmalloc`
    with other flags and other bytes. Afterwards every page that one of the two may write to is unknown to the other:
    stores of the parent and of the child, in any order, leave each of them with the bytes of its own stores
    (`pokes_filter`). -/

namespace Xv6.Vm
open Bytes Prog Function

variable {kend : Nat} {fails : Nat → Bool} {A B : Nat → Prop} {s s' s₀ s₁ : Kmem} {m m₁ m₂ : Nat → Buf} {t t' n v : Nat}

/-! ### Stores -/

/-- A store by the user of page table `t`, or by `copyout`. -/
def poke (m : Nat → Buf) (t a : Nat) (b : UInt8) : Nat → Buf :=
  if WritablePage m t (a / PGSIZE) then
    update m (ppn (lookup m t (a / PGSIZE))) (update (m (ppn (lookup m t (a / PGSIZE)))) (a % PGSIZE) b)
  else m

/-- Stores through `t` (those marked `true`) and through `t'`. -/
def pokes (m : Nat → Buf) (t t' : Nat) : List (Bool × Nat × UInt8) → Nat → Buf
  | [] => m
  | (own, a, b) :: ws => pokes (poke m (if own then t else t') a b) t t' ws

/-- Stores through `t` stay away from both page tables, and from the pages `0 ... n - 1` of `t'`. -/
structure Sealed (m : Nat → Buf) (t t' n : Nat) : Prop where
  tables : ∀ v, WritablePage m t v → ¬IsTable m t (ppn (lookup m t v)) ∧ ¬IsTable m t' (ppn (lookup m t v))
  pages : ∀ v w, WritablePage m t v → w < n → ppn (lookup m t v) ≠ ppn (lookup m t' w)

/-- Memory in which both page tables are as in `m`. -/
def Tables (m : Nat → Buf) (t t' : Nat) (m₁ : Nat → Buf) : Prop := ∀ p, IsTable m t p ∨ IsTable m t' p → m₁ p = m p

theorem Tables.poke_eq (hT : Tables m t t' m₁) (a : Nat) (b : UInt8) : poke m₁ t a b =
    if WritablePage m t (a / PGSIZE) then
      update m₁ (ppn (lookup m t (a / PGSIZE))) (update (m₁ (ppn (lookup m t (a / PGSIZE)))) (a % PGSIZE) b)
    else m₁ := by
  have hl : ∀ w, lookup m₁ t w = lookup m t w := lookup_congr fun p hp => hT p (.inl hp)
  have hW := writable_congr hl (a / PGSIZE)
  rw [poke, hl]
  by_cases h : WritablePage m t (a / PGSIZE)
  · rw [if_pos h, if_pos (hW.mpr h)]
  · rw [if_neg h, if_neg (hW.not.mpr h)]

theorem Tables.symm (hT : Tables m t t' m₁) : Tables m t' t m₁ := fun p hp => hT p hp.symm

theorem Tables.poke (hT : Tables m t t' m₁) (hs : Sealed m t t' n) (a : Nat) (b : UInt8) : Tables m t t' (poke m₁ t a b) := by
  intro p hp
  rw [hT.poke_eq]
  split
  · next hW =>
    have hne : p ≠ ppn (lookup m t (a / PGSIZE)) := by
      rintro rfl
      exact hp.elim (hs.tables _ hW).1 (hs.tables _ hW).2
    rw [update_of_ne hne, hT p hp]
  · exact hT p hp

/-- Stores through the other page table are not seen. -/
theorem pokes_agree (hs : Sealed m t t' n) (hs' : Sealed m t' t n) : ∀ (ws : List (Bool × Nat × UInt8)) (m₁ m₂ : Nat → Buf),
    Tables m t t' m₁ → Tables m t t' m₂ → (∀ w, w < n → m₁ (ppn (lookup m t w)) = m₂ (ppn (lookup m t w))) →
    Tables m t t' (pokes m₁ t t' ws) ∧ Tables m t t' (pokes m₂ t t' (ws.filter (·.1))) ∧
      ∀ w, w < n → pokes m₁ t t' ws (ppn (lookup m t w)) = pokes m₂ t t' (ws.filter (·.1)) (ppn (lookup m t w))
  | [], _, _, h1, h2, heq => ⟨h1, h2, heq⟩
  | (true, a, b) :: ws, m₁, m₂, h1, h2, heq => by
    refine pokes_agree hs hs' ws _ _ (h1.poke hs a b) (h2.poke hs a b) fun w hw => ?_
    rw [if_pos rfl, h1.poke_eq, h2.poke_eq]
    split
    · by_cases he : ppn (lookup m t w) = ppn (lookup m t (a / PGSIZE))
      · rw [← he, update_self, update_self, heq w hw]
      · rw [update_of_ne he, update_of_ne he, heq w hw]
    · exact heq w hw
  | (false, a, b) :: ws, m₁, m₂, h1, h2, heq => by
    refine pokes_agree hs hs' ws _ _ (h1.symm.poke hs' a b).symm h2 fun w hw => ?_
    simp only [Bool.false_eq_true, if_false]
    rw [h1.symm.poke_eq]
    split
    · next hW => rw [update_of_ne (hs'.pages _ w hW hw).symm, heq w hw]
    · exact heq w hw

/-- What is read through `t` depends on the stores through `t` only. -/
theorem pokes_filter (hs : Sealed m t t' n) (hs' : Sealed m t' t n) (ws : List (Bool × Nat × UInt8)) {a : Nat}
    (ha : a / PGSIZE < n) : ubyte (pokes m t t' ws) t a = ubyte (pokes m t t' (ws.filter (·.1))) t a := by
  obtain ⟨h1, h2, heq⟩ := pokes_agree hs hs' ws m m (fun _ _ => rfl) (fun _ _ => rfl) fun _ _ => rfl
  unfold ubyte
  rw [lookup_congr (fun p hp => h1 p (.inl hp)), lookup_congr (fun p hp => h2 p (.inl hp)), heq _ ha]

theorem pokes_swap (t t' : Nat) : ∀ (m : Nat → Buf) (ws : List (Bool × Nat × UInt8)),
    pokes m t t' ws = pokes m t' t (ws.map fun w => (!w.1, w.2))
  | _, [] => rfl
  | _, (true, _, _) :: ws => pokes_swap t t' _ ws
  | _, (false, _, _) :: ws => pokes_swap t t' _ ws

/-- And likewise through `t'`. -/
theorem pokes_filter_not (hs : Sealed m t t' n) (hs' : Sealed m t' t n) (ws : List (Bool × Nat × UInt8)) {a : Nat}
    (ha : a / PGSIZE < n) : ubyte (pokes m t t' ws) t' a = ubyte (pokes m t t' (ws.filter (!·.1))) t' a := by
  rw [pokes_swap, pokes_filter hs' hs _ ha, pokes_swap t t' m (ws.filter _), List.filter_map]
  rfl

/-! ### `uvmcopy` -/

/-- What the user may access is user memory. -/
theorem ProcSpace.user_of_page {tp tf : Nat} (h : ProcSpace kend A s t n tp tf) (hv : UserPage s.mem t v) :
    v < USERTOP ∧ lookup s.mem t v ≠ 0 := by
  obtain ⟨hva, hV, hU⟩ := hv
  refine ⟨?_, fun h0 => hV (by rw [h0]; rfl)⟩
  by_contra hge
  have htwo : USERTOP + 2 = 2 ^ 26 := by decide
  have hv26 : v < 2 ^ 26 := by unfold MAXVA PGSIZE at hva; omega
  have hcase : v = USERTOP ∨ v = USERTOP + 1 := by omega
  rcases hcase with rfl | rfl
  · rw [h.trapframe, mkPte_and (by decide) (by decide)] at hU
    exact hU (by decide)
  · rw [h.trampoline, mkPte_and (by decide) (by decide)] at hU
    exact hU (by decide)

theorem or_valid_of_and {f : Nat} (hf : f &&& PTE_V ≠ 0) : f ||| PTE_V = f := by
  have hodd : f % 2 = 1 := by rw [PTE_V, Nat.and_one_is_mod] at hf; omega
  refine Nat.eq_of_testBit_eq fun i => ?_
  rw [Nat.testBit_or]
  cases i with
  | zero => rw [Nat.mod_two_eq_one_iff_testBit_zero.mp hodd, Bool.true_or]
  | succ j => rw [PTE_V, Nat.testBit_add_one 1, Nat.zero_testBit, Bool.or_false]

/-- The flags of a page that is mapped. -/
theorem Space.leafFlags {h : Nat} (hS : Space kend A s t h) (hv : v < 2 ^ 27) (hl : lookup s.mem t v ≠ 0) :
    LeafFlags (PTE_FLAGS (lookup s.mem t v)) ∧ PTE_FLAGS (lookup s.mem t v) ||| PTE_V = PTE_FLAGS (lookup s.mem t v) := by
  obtain h0 | ⟨hV, hf, -⟩ := hS.leaf v hv
  · exact absurd h0 hl
  have hmod : PTE_FLAGS (lookup s.mem t v) &&& PTE_V ≠ 0 := by
    rw [PTE_FLAGS_eq, ← and_flag _ (by decide)]
    exact hV
  refine ⟨⟨by rw [PTE_FLAGS_eq]; exact Nat.mod_lt _ (by decide), hmod, hf⟩, ?_⟩
  exact or_valid_of_and hmod

section Copying
variable {old new sz : Nat}

/-- The flags that the child gets. -/
abbrev copyFlags (s : Kmem) (old : Nat) : Nat → Nat := fun w => PTE_FLAGS (lookup s.mem old w)

/-- The bytes that the child gets, in a page that `kalloc` has filled. -/
abbrev copyData (s : Kmem) (old : Nat) : Nat → Buf :=
  fun w => setBytes (filled 5) 0 (getBytes (s.mem (ppn (lookup s.mem old w))) 0 PGSIZE)

/-- The parent's address space, none of which the child can reach. -/
structure Parent (kend : Nat) (A : Nat → Prop) (s : Kmem) (old n : Nat) : Prop where
  table : ∀ p, IsTable s.mem old p → ¬A p
  user : ∀ w, w < n → lookup s.mem old w ≠ 0 ∧ ¬A (ppn (lookup s.mem old w)) ∧ LeafFlags (copyFlags s old w)
  le : n ≤ USERTOP

/-- It is the same wherever the child's area alone has changed. -/
theorem Parent.lookup (hP : Parent kend A s₀ old n) (hm : ∀ p, ¬A p → s.mem p = s₀.mem p) (w : Nat) :
    lookup s.mem old w = lookup s₀.mem old w := lookup_congr (fun p hp => hm p (hP.table p hp)) w

theorem Added.congr {r lo hi : Nat} {f f' : Nat → Nat} {d d' : Nat → Buf} (h : Added r s s' lo hi f d)
    (he : ∀ w, lo ≤ w → w < hi → f' w = f w ∧ d' w = d w) : Added r s s' lo hi f' d' :=
  ⟨h.grown, h.outside, fun w h1 h2 => by rw [(he w h1 h2).1, (he w h1 h2).2]; exact h.inside w h1 h2⟩

/-- The label `err`: the pages copied so far are freed again. -/
theorem uvmcopyErr_must (hS₀ : Space kend A s₀ new 0) (hZ : Sized new 0 s₀) {flags : Nat → Nat} {data : Nat → Buf}
    (hA : Added new s₀ s 0 v flags data) (hv : v ≤ USERTOP)
    (hS₁ : Space kend A s₁ new 0) (hG : Grown new s s₁) (hM : SameMap new s s₁) :
    must kend fails (uvmcopyErr new (v * PGSIZE)) s₁ fun x s' =>
      x = -1 ∧ Space kend A s' new 0 ∧ Grown new s₀ s' ∧ SameMap new s₀ s' := by
  have hZ₁ : Sized new v s₁ := (hZ.added hA (Nat.zero_le v) hv).congr hM
  have hphys := hZ₁.le_phys hS₁
  have hmod : v * PGSIZE % 2 ^ 64 = v * PGSIZE := Nat.mod_eq_of_lt (by unfold PHYSTOP PGSIZE at *; omega)
  rw [uvmcopyErr, must_bind, Nat.mul_div_cancel _ (by decide), uvmunmap, if_neg (by decide), zero_add, hmod,
    ← zero_mul PGSIZE]
  refine must_mono (unmapFrom_must hS₁ (by rwa [zero_add]) (by rw [zero_add])
    fun w _ hw => (hZ₁.iff w (by omega)).mpr (by omega)) fun _ s' h' => ?_
  obtain ⟨hS', hSh, hC⟩ := h'
  have hM' : SameMap new s₀ s' := fun w hw => by
    rw [hC w hw, zero_add]
    by_cases hr : 0 ≤ w ∧ w < v
    · have h0 := (hZ.iff w (by omega)).not.mpr (Nat.not_lt_zero w)
      rw [if_pos hr, not_not.mp h0]
    · rw [if_neg hr, hM w hw, hA.outside w hw hr]
  exact ⟨rfl, hS', Grown.undo hS₀ hS' (hA.grown.trans hG) hSh hM', hM'⟩

/-- The loop of `uvmcopy` from page `v` on: all pages or none. -/
theorem uvmcopyFrom_must {n : Nat} (hS₀ : Space kend A s₀ new 0) (hZ : Sized new 0 s₀) (hP : Parent kend A s₀ old (pages sz))
    (hS : Space kend A s new 0) (hA : Added new s₀ s 0 v (copyFlags s₀ old) (copyData s₀ old)) (hv : v ≤ pages sz)
    (hn : sz ≤ (v + n) * PGSIZE) :
    must kend fails (uvmcopyFrom old new sz (v * PGSIZE) n) s fun x s' => Space kend A s' new 0 ∧
      ((x = 0 ∧ Added new s₀ s' 0 (pages sz) (copyFlags s₀ old) (copyData s₀ old)) ∨
        (x = -1 ∧ Grown new s₀ s' ∧ SameMap new s₀ s')) := by
  induction n generalizing v s with
  | zero =>
    have he : v = pages sz := le_antisymm hv (pages_le.mpr hn)
    exact ⟨hS, .inl ⟨rfl, he ▸ hA⟩⟩
  | succ n ih =>
    have hvle := hP.le
    rw [uvmcopyFrom, must_ite]
    refine ⟨fun hlt => ?_, fun hge => ?_⟩
    · have hvn : v < pages sz := by
        have : pages sz ≤ v ↔ sz ≤ v * PGSIZE := pages_le
        omega
      have hvU : v < USERTOP := by omega
      have hv26 : v < 2 ^ 26 := lt_trans hvU (by decide)
      have hva : v * PGSIZE < MAXVA := by unfold MAXVA PGSIZE; omega
      have hdiv : v * PGSIZE / PGSIZE = v := Nat.mul_div_cancel _ (by decide)
      have hsucc : (v * PGSIZE + PGSIZE) % 2 ^ 64 = (v + 1) * PGSIZE := by unfold PGSIZE; omega
      have hm : ∀ p, ¬A p → s.mem p = s₀.mem p := fun p hp => hA.grown.outside hS₀ hp
      have hl := hP.lookup hm v
      obtain ⟨hne, hnA, hf⟩ := hP.user v hvn
      obtain ⟨t, ht, hpte⟩ := table_of_lookup (show lookup s.mem old v ≠ 0 by rwa [hl])
      have hV : lookup s₀.mem old v &&& PTE_V ≠ 0 := by
        have := hf.2.1
        rwa [copyFlags, PTE_FLAGS_eq, ← and_flag _ (by decide)] at this
      have hlv : lookup s.mem new v = 0 := not_not.mp
        (((hZ.added hA (Nat.zero_le v) (by omega)).iff v hvU).not.mpr (by omega))
      rw [must_bind, must_walk hva, hdiv, ht]
      dsimp only [Option.map_some]
      rw [must_bind, must_load, ← hpte, hl, if_neg hV, must_bind]
      refine must_kalloc ?_ fun p ps hp => ?_
      · -- kalloc fails
        exact must_mono (uvmcopyErr_must hS₀ hZ hA (by omega) (hS.congr rfl fun _ _ => rfl) (Grown.calls new s _) fun _ _ => rfl)
          fun _ _ h => ⟨h.2.1, .inr ⟨h.1, h.2.2⟩⟩
      · have hpA : A p := hS.area p (by rw [hp]; exact List.mem_cons_self)
        have hpp : ppn (lookup s₀.mem old v) ≠ p := by rintro rfl; exact hnA hpA
        have hread : update s.mem p (filled 5) (ppn (lookup s₀.mem old v)) = s₀.mem (ppn (lookup s₀.mem old v)) :=
          (update_of_ne hpp ..).trans (hm _ hnA)
        have hppn : PTE2PA (lookup s₀.mem old v) / PGSIZE = ppn (lookup s₀.mem old v) := rfl
        have hor : PTE_FLAGS (lookup s₀.mem old v) ||| PTE_V = PTE_FLAGS (lookup s₀.mem old v) := or_valid_of_and hf.2.1
        simp only [must_bind, must_read, must_write, update_idem, update_self, hppn, hread]
        refine must_mono (must_mappages_fresh hS hp hvU hlv hf.1 (by rwa [hor])) fun x s' hx => ?_
        obtain ⟨rfl, hfree⟩ | ⟨rfl, hS', hA'⟩ := hx
        · -- mappages fails
          rw [if_pos (by decide), must_bind]
          refine must_mono hfree fun _ s₁ h₁ => ?_
          obtain ⟨hS₁, hG, hM⟩ := h₁
          exact must_mono (uvmcopyErr_must hS₀ hZ hA (by omega) hS₁ hG hM) fun _ _ h => ⟨h.2.1, .inr ⟨h.1, h.2.2⟩⟩
        · rw [if_neg (by decide), hsucc]
          have hA'' : Added new s s' v (v + 1) (copyFlags s₀ old) (copyData s₀ old) := hA'.congr fun w h1 h2 => by
            obtain rfl : w = v := by omega
            exact ⟨hor.symm, rfl⟩
          refine ih hS' (hA.trans hS₀ hS hA'' (Nat.zero_le v) (by omega) (by omega)) hvn ?_
          rw [show v + 1 + n = v + (n + 1) by omega]
          exact hn
    · have he : v = pages sz := le_antisymm hv (pages_le.mpr (by omega))
      exact ⟨hS, .inl ⟨rfl, he ▸ hA⟩⟩

/-- FORK GIVES AN EQUAL BUT DISJOINT MEMORY: `uvmcopy` ends, and the parent is as before. If it returns 0, the child has
    the parent's bytes and flags at every address, in pages that are pairwise distinct and none of them the parent's, and
    whatever the two then store, neither sees a store of the other. If it returns -1, the child maps no user page, and of
    the pages that were free all are free again but those of its page table. -/
theorem uvmcopy_exact (fails : Nat → Bool) {tp tf tf' : Nat} (hold : ProcSpace kend B s old (pages sz) tp tf)
    (hnew : ProcSpace kend A s new 0 tp tf') (hdisj : ∀ p, A p → B p → p ∈ s.free) :
    ∃ (x : Int) (s' : Kmem), run (Kmem.step kend fails) (uvmcopy old new sz) s = .done (x, s') ∧
      (∀ v, lookup s'.mem old v = lookup s.mem old v) ∧
      (∀ a, a < PGROUNDUP sz → ubyte s'.mem old a = ubyte s.mem old a) ∧
      ((x = 0 ∧
          (∀ a, a < PGROUNDUP sz → ubyte s'.mem new a = ubyte s.mem old a ∧
            PTE_FLAGS (lookup s'.mem new (a / PGSIZE)) = PTE_FLAGS (lookup s.mem old (a / PGSIZE))) ∧
          (∀ v w, v < pages sz → w < pages sz → ppn (lookup s'.mem new v) = ppn (lookup s'.mem new w) → v = w) ∧
          (∀ v w, v < pages sz → w < pages sz → ppn (lookup s'.mem new v) ≠ ppn (lookup s'.mem old w)) ∧
          ∀ ws a, a < PGROUNDUP sz →
            ubyte (pokes s'.mem new old ws) new a = ubyte (pokes s'.mem new old (ws.filter (·.1))) new a ∧
            ubyte (pokes s'.mem new old ws) old a = ubyte (pokes s'.mem new old (ws.filter (!·.1))) old a) ∨
        (x = -1 ∧ (∀ v, v < USERTOP → lookup s'.mem new v = 0) ∧ s'.free.Nodup ∧
          ∀ p ∈ s.free, p ∈ s'.free ∨ IsTable s'.mem new p)) := by
  -- nothing of the parent's is in the child's area
  have hout : ∀ p, B p → p ∉ s.free → ¬A p := fun p hB hf hA => hf (hdisj p hA hB)
  have huserB : ∀ v, v < USERTOP → lookup s.mem old v ≠ 0 → ¬A (ppn (lookup s.mem old v)) := fun v hv hl =>
    have hu := hold.space.user hv hl
    hout _ hu.1 hu.2.1
  have hP : Parent kend A s old (pages sz) := by
    refine ⟨fun p hp => hout p (hold.space.table hp).1 (hold.space.table hp).2, fun w hw => ?_, hold.sized.le⟩
    have hwU := lt_of_lt_of_le hw hold.sized.le
    have hl := (hold.sized.iff w hwU).mpr hw
    exact ⟨hl, huserB w hwU hl, (hold.space.leafFlags (lt_trans hwU (by decide)) hl).1⟩
  have hphys := hold.sized.le_phys hold.space
  have hsz := pages_le.mp hphys
  have hround : ∀ a, a < PGROUNDUP sz → a / PGSIZE < pages sz := fun a ha => by
    rw [PGROUNDUP_eq (by unfold PHYSTOP PGSIZE at *; omega)] at ha
    exact Nat.div_lt_of_lt_mul (by rwa [Nat.mul_comm])
  have hmust : must kend fails (uvmcopyFrom old new sz (0 * PGSIZE) (sz / PGSIZE + 1)) s _ :=
    uvmcopyFrom_must hnew.space hnew.sized hP hnew.space (Added.refl new s 0) (Nat.zero_le _) (by unfold PGSIZE; omega)
  rw [Nat.zero_mul] at hmust
  obtain ⟨x, s', hrun, hS', hx⟩ := must_run hmust
  have hG : Grown new s s' := hx.elim (fun h => h.2.grown) fun h => h.2.1
  have hm : ∀ p, ¬A p → s'.mem p = s.mem p := fun p hp => hG.outside hnew.space hp
  have hl := hP.lookup hm
  refine ⟨x, s', hrun, hl, fun a ha => ?_, ?_⟩
  · unfold ubyte
    rw [hl, hm _ (hP.user _ (hround a ha)).2.1]
  obtain ⟨rfl, hA⟩ | ⟨rfl, -, hM⟩ := hx
  · have hnew' : ProcSpace kend A s' new (pages sz) tp tf' :=
      ⟨hS', hnew.sized.added hA (Nat.zero_le _) hP.le,
        by rw [hA.outside _ (by decide) (by have := hP.le; omega), hnew.trapframe],
        by rw [hA.outside _ (by decide) (by have := hP.le; omega), hnew.trampoline]⟩
    have huserA : ∀ v, v < USERTOP → lookup s'.mem new v ≠ 0 → A (ppn (lookup s'.mem new v)) := fun v hv hl' =>
      (hS'.user hv hl').1
    have hpages : ∀ w, w < pages sz → w < USERTOP ∧ lookup s'.mem new w ≠ 0 := fun w hw =>
      ⟨lt_of_lt_of_le hw hP.le, hA.ne_zero (Nat.zero_le w) hw⟩
    have htabold : ∀ p, IsTable s'.mem old p → ¬A p := fun p ⟨a, ha⟩ => hP.table p
      ⟨a, by rw [← ha]; exact (tableAt_congr (fun q hq => hm q (hP.table q hq)) a).symm⟩
    have hsn : Sealed s'.mem new old (pages sz) := by
      refine ⟨fun v hW => ?_, fun v w hW hw he => ?_⟩
      · obtain ⟨hv, hlv⟩ := hnew'.user_of_page hW.1
        exact ⟨(hS'.user hv hlv).2.2, fun hT => htabold _ hT (huserA v hv hlv)⟩
      · obtain ⟨hv, hlv⟩ := hnew'.user_of_page hW.1
        refine (hP.user w hw).2.1 ?_
        rw [← hl, ← he]
        exact huserA v hv hlv
    have hso : Sealed s'.mem old new (pages sz) := by
      have hWold : ∀ v, WritablePage s'.mem old v → v < USERTOP ∧ lookup s.mem old v ≠ 0 := fun v hW =>
        hold.user_of_page ((writable_congr hl v).mp hW).1
      refine ⟨fun v hW => ?_, fun v w hW hw he => ?_⟩
      · obtain ⟨hv, hlv⟩ := hWold v hW
        rw [hl]
        refine ⟨fun ⟨a, ha⟩ => (hold.space.user hv hlv).2.2
          ⟨a, by rw [← ha]; exact (tableAt_congr (fun q hq => hm q (hP.table q hq)) a).symm⟩, fun hT => ?_⟩
        exact huserB v hv hlv (hS'.table hT).1
      · obtain ⟨hv, hlv⟩ := hWold v hW
        rw [hl] at he
        exact huserB v hv hlv (he ▸ huserA w (hpages w hw).1 (hpages w hw).2)
    refine .inl ⟨rfl, fun a ha => ?_, fun v w hv hw he => ?_, fun v w hv hw he => ?_, fun ws a ha => ?_⟩
    · obtain ⟨hf, p, hp, hlp, hb⟩ := hA.inside (a / PGSIZE) (Nat.zero_le _) (hround a ha)
      rw [hlp, PTE_FLAGS_mkPte hf.1]
      refine ⟨?_, rfl⟩
      have hmod : a % PGSIZE < PGSIZE := Nat.mod_lt _ (by decide)
      unfold ubyte
      rw [hlp, ppn_mkPte (hnew.space.lt (hnew.space.area p hp)) hf.1, hb]
      simp [setBytes, getBytes, hmod]
    · exact hS'.user_inj (hpages v hv).1 (hpages w hw).1 (hpages v hv).2 he
    · refine (hP.user w hw).2.1 ?_
      rw [← hl, ← he]
      exact huserA v (hpages v hv).1 (hpages v hv).2
    · exact ⟨pokes_filter hsn hso ws (hround a ha), pokes_filter_not hsn hso ws (hround a ha)⟩
  · have hz : ∀ v, v < USERTOP → lookup s'.mem new v = 0 := fun v hv => by
      rw [hM v (lt_trans hv (by decide))]
      exact not_not.mp ((hnew.sized.iff v hv).not.mpr (Nat.not_lt_zero v))
    refine .inr ⟨rfl, hz, hS'.nodup, fun p hp => ?_⟩
    by_contra hn
    rw [not_or] at hn
    rcases hS'.cases_used (hnew.space.area p hp) hn.1 with hT | ⟨v, hv, hlv, -⟩
    · exact hn.2 hT
    · exact hlv (hz v hv)

end Copying

/-! ### A process with one page -/

/-- A process with a page of memory, and an empty address space for its child. -/
def parentAndChild : VmM (Option (Nat × Nat)) := do
  match ← procPagetable 1 2 with
  | none => pure none
  | some old => do
    let sz ← uvmalloc old 0 1 PTE_W
    if sz = 0 then pure none
    else do
      match ← procPagetable 1 3 with
      | none => pure none
      | some new => pure (some (old, new))

/-- They are as `fork` finds them. -/
theorem must_parentAndChild (hP : Pool kend s) : must kend fails parentAndChild s fun x s' => ∀ old new, x = some (old, new) →
    ∃ A B, ProcSpace kend B s' old (pages 1) 1 2 ∧ ProcSpace kend A s' new 0 1 3 ∧ ∀ p, A p → B p → p ∈ s'.free := by
  rw [parentAndChild, must_bind]
  refine must_mono (must_procPagetable hP (by decide) (by decide)) fun x s₁ hx => ?_
  obtain ⟨rfl, -⟩ | ⟨old, rfl, h₁, -⟩ := hx
  · exact nofun
  have hp0 : pages 0 = 0 := by decide
  rw [must_bind]
  refine must_mono (must_uvmalloc h₁.space (by rw [hp0]; exact h₁.sized) (by decide)) fun x s₂ ⟨hS₂, hx⟩ => ?_
  rw [must_ite]
  refine ⟨fun _ => nofun, fun hx0 => ?_⟩
  obtain ⟨hlt, -⟩ | ⟨-, -, hU, hA⟩ | ⟨-, rfl, -⟩ := hx
  · exact absurd hlt (by decide)
  · rw [hp0] at hA
    have h₂ : ProcSpace kend (· ∈ s.free) s₂ old (pages 1) 1 2 :=
      ⟨hS₂, h₁.sized.added hA (Nat.zero_le _) hU, by rw [hA.outside _ (by decide) (by omega), h₁.trapframe],
        by rw [hA.outside _ (by decide) (by omega), h₁.trampoline]⟩
    rw [must_bind]
    refine must_mono (must_procPagetable (hS₂.pool hP.pos) (by decide) (by decide)) fun x s₃ hx => ?_
    obtain ⟨rfl, -⟩ | ⟨new, rfl, h₃, hm⟩ := hx
    · exact nofun
    · intro o n he
      obtain ⟨rfl, rfl⟩ := Prod.mk.inj (Option.some.inj he)
      refine ⟨_, _, h₂.rebase (h₃.space.pool hP.pos) (fun p _ hp => ⟨fun hf => hp (h₃.space.area p hf), hm p hp⟩), h₃, fun p hA hB => ?_⟩
      exact hB.elim id fun h => absurd hA h.2
  · exact absurd rfl hx0

/-- A child gets the byte of its parent. -/
theorem uvmcopy_exact_page : ∃ (s s' : Kmem) (old new : Nat),
    run (Kmem.step 1 fun _ => false) (uvmcopy old new 1) s = .done (0, s') ∧ ubyte s'.mem new 0 = ubyte s.mem old 0 := by
  have heval : (run (Kmem.step 1 fun _ => false) parentAndChild ⟨fun _ => filled 0, List.range' 4 12, 0⟩).ends
      (fun x s => match x with
        | none => false
        | some (old, new) => (run (Kmem.step 1 fun _ => false) (uvmcopy old new 1) s).ends fun r _ => r == 0) = true := by
    decide +kernel
  obtain ⟨x, s, hrun, hx⟩ := Outcome.ends_iff.mp heval
  have hP : Pool 1 ⟨fun _ => filled 0, List.range' 4 12, 0⟩ := ⟨by decide, by decide, by decide⟩
  obtain ⟨y, s₁, hrun', hspec⟩ := must_run (must_parentAndChild hP)
  rw [hrun] at hrun'
  obtain ⟨rfl, rfl⟩ := Prod.mk.inj (Outcome.done.inj hrun')
  cases x with
  | none => cases hx
  | some y =>
    obtain ⟨old, new⟩ := y
    obtain ⟨A, B, hold, hnew, hdisj⟩ := hspec old new rfl
    obtain ⟨r, s', hrun₂, hr⟩ := Outcome.ends_iff.mp hx
    obtain ⟨z, s'', hz, -, -, hcase⟩ := uvmcopy_exact (fun _ => false) hold hnew hdisj
    rw [hrun₂] at hz
    obtain ⟨rfl, rfl⟩ := Prod.mk.inj (Outcome.done.inj hz)
    obtain rfl : r = 0 := by simpa using hr
    obtain ⟨-, hbytes, -⟩ | ⟨h1, -⟩ := hcase
    · exact ⟨s, s', old, new, hrun₂, (hbytes 0 (by decide)).1⟩
    · exact absurd h1 (by decide)

end Xv6.Vm
