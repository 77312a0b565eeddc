import Xv6.Lib.Ledger
import Xv6.Vm.Rules

/-! An address space and the pages it owns.

    The pages that the allocator and one page table have between them, `A`, are a ledger: a page is free, or a page of
    the page table, or mapped as user memory, or in the hand of the code that has just allocated it, and it is in one
    of these places only. Above user memory a page table maps the trapframe and the trampoline, which it does not own.

        user pages 0 ... USERTOP - 1    trapframe    trampoline

    `Space` is this ledger together with the tree. Each step of the code moves one page from one place to another. -/

namespace Xv6.Vm
open Bytes Prog Function List

/-- The number of the trapframe's page. User memory lies below it. -/
def USERTOP : Nat := TRAPFRAME / PGSIZE

/-- Where a page can be. -/
inductive Place where
  | table (a : Pos)
  | user (v : Nat)
  | hand
  deriving DecidableEq

/-- The page in a place, 0 if there is none; `h` is the page in hand. -/
def place (m : Nat → Buf) (r h : Nat) : Place → Nat
  | .table a => (tableAt m r a).getD 0
  | .user v => if v < USERTOP then ppn (lookup m r v) else 0
  | .hand => h

/-- A PTE of the lowest level is empty or maps a page. -/
def IsLeaf (v pte : Nat) : Prop :=
  pte = 0 ∨ (pte &&& PTE_V ≠ 0 ∧ PTE_FLAGS pte ≠ PTE_V ∧ (v < USERTOP → ppn pte ≠ 0))

/-- The page table in page `r` and the allocator share the pages `A`; page `h` is in hand. -/
structure Space (kend : Nat) (A : Nat → Prop) (s : Kmem) (r h : Nat) : Prop where
  tree : Tree s.mem r
  books : Ledger (place s.mem r h) A (fun p => p ∉ s.free)
  nodup : s.free.Nodup
  area : ∀ p ∈ s.free, A p
  valid : ∀ p, A p → kend ≤ p * PGSIZE ∧ p * PGSIZE < PHYSTOP
  nonzero : ¬IsTable s.mem r 0
  leaf : ∀ v, v < 2 ^ 27 → IsLeaf v (lookup s.mem r v)
  high : ∀ v, 2 ^ 26 ≤ v → v < 2 ^ 27 → lookup s.mem r v = 0

variable {kend : Nat} {A : Nat → Prop} {s s' : Kmem} {r h : Nat}

namespace Space

theorem lt (hS : Space kend A s r h) {p : Nat} (hp : A p) : p < 2 ^ 44 := by
  have := (hS.valid p hp).2
  unfold PGSIZE PHYSTOP at this
  omega

theorem place_table {m : Nat → Buf} {a : Pos} {p : Nat} (ha : tableAt m r a = some p) : place m r h (.table a) = p := by
  rw [place, ha]
  rfl

theorem place_user {m : Nat → Buf} {v : Nat} (hv : v < USERTOP) : place m r h (.user v) = ppn (lookup m r v) := if_pos hv

section Facts
variable (hS : Space kend A s r h)
include hS

theorem ne_zero {a : Pos} {p : Nat} (ha : tableAt s.mem r a = some p) : p ≠ 0 := by
  rintro rfl
  exact hS.nonzero ⟨a, ha⟩

/-- The pages of the page table are in use. -/
theorem table {p : Nat} (hp : IsTable s.mem r p) : A p ∧ p ∉ s.free := by
  obtain ⟨a, ha⟩ := hp
  have hne : place s.mem r h (.table a) ≠ 0 := by rw [place_table ha]; exact hS.ne_zero ha
  have h1 := hS.books.inside _ hne
  have h2 := hS.books.used_of_place hne
  rw [place_table ha] at h1 h2
  exact ⟨h1, h2⟩

theorem user_ne_zero {v : Nat} (hv : v < USERTOP) (hl : lookup s.mem r v ≠ 0) :
    ppn (lookup s.mem r v) ≠ 0 := by
  have hv27 : v < 2 ^ 27 := lt_trans hv (by decide)
  obtain h0 | ⟨-, -, h0⟩ := hS.leaf v hv27
  · exact absurd h0 hl
  · exact h0 hv

/-- User pages are in use, and hold no page table. -/
theorem user {v : Nat} (hv : v < USERTOP) (hl : lookup s.mem r v ≠ 0) :
    A (ppn (lookup s.mem r v)) ∧ ppn (lookup s.mem r v) ∉ s.free ∧ ¬IsTable s.mem r (ppn (lookup s.mem r v)) := by
  have hne : place s.mem r h (.user v) ≠ 0 := by rw [place_user hv]; exact hS.user_ne_zero hv hl
  have h1 := hS.books.inside _ hne
  have h2 := hS.books.used_of_place hne
  rw [place_user hv] at h1 h2 hne
  refine ⟨h1, h2, fun ⟨a, ha⟩ => ?_⟩
  have := hS.books.inj (.table a) (.user v) (by rw [place_table ha, place_user hv]) (by rwa [place_table ha])
  cases this

/-- Different user pages are at different pages of memory. -/
theorem user_inj {v w : Nat} (hv : v < USERTOP) (hw : w < USERTOP)
    (hl : lookup s.mem r v ≠ 0) (he : ppn (lookup s.mem r v) = ppn (lookup s.mem r w)) : v = w := by
  have := hS.books.inj (.user v) (.user w) (by rw [place_user hv, place_user hw, he])
    (by rw [place_user hv]; exact hS.user_ne_zero hv hl)
  exact Place.user.inj this

/-- The page in hand is in use, and in no other place. -/
theorem hand (hh : h ≠ 0) : A h ∧ h ∉ s.free ∧ ¬IsTable s.mem r h ∧
    ∀ v, v < USERTOP → ppn (lookup s.mem r v) ≠ h := by
  refine ⟨hS.books.inside .hand hh, hS.books.used_of_place (p := .hand) hh, fun ⟨a, ha⟩ => ?_, fun v hv he => ?_⟩
  · cases hS.books.inj (.table a) .hand (place_table ha) (by rwa [place_table ha])
  · have := hS.books.inj (.user v) .hand (by rw [place_user hv, he]; rfl) (by rw [place_user hv, he]; exact hh)
    cases this

/-- What is free holds no page table. -/
theorem not_table_of_free {p : Nat} (hp : p ∈ s.free) : ¬IsTable s.mem r p :=
  fun hT => (hS.table hT).2 hp

end Facts

/-- A page that is in use, with nothing in hand, belongs to the page table or to user memory. -/
theorem cases_used (hS : Space kend A s r 0) {p : Nat} (hA : A p) (hp : p ∉ s.free) :
    IsTable s.mem r p ∨ ∃ v, v < USERTOP ∧ lookup s.mem r v ≠ 0 ∧ ppn (lookup s.mem r v) = p := by
  have hne := hS.books.pos p hA
  obtain ⟨x, hx⟩ := (hS.books.used_iff p hA).mp hp
  cases x with
  | table a =>
    cases ha : tableAt s.mem r a with
    | none => rw [place, ha] at hx; exact absurd hx.symm hne
    | some q =>
      rw [place, ha] at hx
      exact .inl ⟨a, by rw [ha, ← hx]; rfl⟩
  | user v =>
    by_cases hv : v < USERTOP
    · rw [place_user hv] at hx
      exact .inr ⟨v, hv, fun h0 => hne (by rw [← hx, h0]; rfl), hx⟩
    · rw [place, if_neg hv] at hx
      exact absurd hx.symm hne
  | hand => exact absurd hx.symm hne

/-- Other bytes do not matter. -/
theorem congr (hS : Space kend A s r h) (hfree : s'.free = s.free) (hm : ∀ p, IsTable s.mem r p → s'.mem p = s.mem p) :
    Space kend A s' r h where
  tree := hS.tree.congr hm
  books := by
    rw [hfree]
    refine hS.books.congr (fun x => ?_) fun _ _ => Iff.rfl
    cases x with
    | table a => rw [place, place, tableAt_congr hm]
    | user v => rw [place, place, lookup_congr hm]
    | hand => rfl
  nodup := by rw [hfree]; exact hS.nodup
  area := by rw [hfree]; exact hS.area
  valid := hS.valid
  nonzero := fun ⟨a, ha⟩ => hS.nonzero ⟨a, by rwa [tableAt_congr hm] at ha⟩
  leaf := fun v hv => by rw [lookup_congr hm]; exact hS.leaf v hv
  high := fun v h1 h2 => by rw [lookup_congr hm]; exact hS.high v h1 h2

/-- What the area becomes when other pages are free. -/
abbrev Rest (A : Nat → Prop) (s s' : Kmem) (p : Nat) : Prop := p ∈ s'.free ∨ (A p ∧ p ∉ s.free)

/-- Others allocate and free pages: the address space does not notice. -/
theorem rebase (hS : Space kend A s r h) (hnd : s'.free.Nodup)
    (hfree : ∀ p ∈ s'.free, p ≠ 0 ∧ kend ≤ p * PGSIZE ∧ p * PGSIZE < PHYSTOP)
    (hkeep : ∀ p, A p → p ∉ s.free → p ∉ s'.free ∧ s'.mem p = s.mem p) : Space kend (Rest A s s') s' r h := by
  have hS' : Space kend A ⟨s'.mem, s.free, s.calls⟩ r h := hS.congr rfl fun p hp =>
    (hkeep p (hS.table hp).1 (hS.table hp).2).2
  have hpos : ∀ p, Rest A s s' p → p ≠ 0 := fun p hp => hp.elim (fun hf => (hfree p hf).1) fun h => hS.books.pos p h.1
  refine ⟨hS'.tree, hS'.books.rebase hpos (fun p hA hp => ⟨.inr ⟨hA, hp⟩, (hkeep p hA hp).1⟩) (fun p hp hn => hp.resolve_left hn),
    hnd, fun p hp => .inl hp, fun p hp => ?_, hS'.nonzero, hS'.leaf, hS'.high⟩
  exact hp.elim (fun hf => (hfree p hf).2) fun h => hS.valid p h.1

/-! ### One page moves -/

section Moves
variable {p c : Nat} {ps : List Nat} {b : Buf}

/-- What is in use after the first free page has been taken. -/
theorem not_mem_tail {l : List Nat} {q : Nat} (hl : l = p :: ps) (hp : p ∉ ps) : q ∉ ps ↔ q = p ∨ q ∉ l := by
  rw [hl, mem_cons, not_or]
  by_cases hq : q = p
  · exact ⟨fun _ => .inl hq, fun _ => hq ▸ hp⟩
  · simp [hq]

/-- Bytes of a free page do not matter. -/
theorem free_congr (hS : Space kend A s r h) (hp : p ∈ s.free) {q : Nat} (hq : IsTable s.mem r q) :
    update s.mem p b q = s.mem q :=
  update_of_ne (by rintro rfl; exact hS.not_table_of_free hp hq) ..

/-- `kalloc`: a free page comes into the hand. -/
theorem take (hS : Space kend A s r 0) (hp : s.free = p :: ps) : Space kend A ⟨update s.mem p b, ps, c⟩ r p := by
  have hmem : p ∈ s.free := by rw [hp]; exact mem_cons_self
  have hnd := hS.nodup
  rw [hp, nodup_cons] at hnd
  have hm : ∀ q, IsTable s.mem r q → update s.mem p b q = s.mem q := fun q => hS.free_congr hmem
  refine ⟨hS.tree.congr hm, ?_, hnd.2, fun q hq => hS.area q (by rw [hp]; exact mem_cons_of_mem _ hq), hS.valid,
    ?_, fun v hv => ?_, fun v h1 h2 => ?_⟩
  · refine (hS.books.assign (p := .hand) rfl (hS.area p hmem) fun hx => hx hmem).congr (fun x => ?_) fun q _ => ?_
    · cases x with
      | table a => rw [update_of_ne (by simp), place, place, tableAt_congr hm]
      | user v => rw [update_of_ne (by simp), place, place, lookup_congr hm]
      | hand => rw [update_self]; rfl
    · exact not_mem_tail hp hnd.1
  · exact fun ⟨a, ha⟩ => hS.nonzero ⟨a, by rwa [tableAt_congr hm] at ha⟩
  · rw [lookup_congr hm]; exact hS.leaf v hv
  · rw [lookup_congr hm]; exact hS.high v h1 h2

/-- `kfree` of the page in hand. -/
theorem give (hS : Space kend A s r p) (hp : p ≠ 0) :
    Space kend A ⟨update s.mem p b, p :: s.free, c⟩ r 0 := by
  obtain ⟨hA, hfree, hT, -⟩ := hS.hand hp
  have hm : ∀ q, IsTable s.mem r q → update s.mem p b q = s.mem q := fun q hq =>
    update_of_ne (by rintro rfl; exact hT hq) ..
  refine ⟨hS.tree.congr hm, ?_, nodup_cons.mpr ⟨hfree, hS.nodup⟩, ?_, hS.valid, ?_, fun v hv => ?_, fun v h1 h2 => ?_⟩
  · refine (hS.books.clear (p := .hand) hp).congr (fun x => ?_) fun q _ => ?_
    · cases x with
      | table a => rw [update_of_ne (by simp), place, place, tableAt_congr hm]
      | user v => rw [update_of_ne (by simp), place, place, lookup_congr hm]
      | hand => rw [update_self]; rfl
    · rw [mem_cons, not_or]
      rfl
  · intro q hq
    rcases mem_cons.mp hq with rfl | hq
    · exact hA
    · exact hS.area q hq
  · exact fun ⟨a, ha⟩ => hS.nonzero ⟨a, by rwa [tableAt_congr hm] at ha⟩
  · rw [lookup_congr hm]; exact hS.leaf v hv
  · rw [lookup_congr hm]; exact hS.high v h1 h2

/-- A free page, zeroed, becomes a page of the page table. -/
theorem hang (hS : Space kend A s r h) {x y : Pos} {j : Fin 512} {t q : Nat} (hy : y.parent = some (x, j))
    (hx : tableAt s.mem r x = some t) (hfree : tableAt s.mem r y = none) (hq : s.free = q :: ps) :
    Space kend A ⟨setPte (update s.mem q (filled 0)) t j (mkPte q PTE_V), ps, c⟩ r h ∧
      (∀ z, tableAt (setPte (update s.mem q (filled 0)) t j (mkPte q PTE_V)) r z =
        if z = y then some q else tableAt s.mem r z) ∧
      ∀ v, lookup (setPte (update s.mem q (filled 0)) t j (mkPte q PTE_V)) r v = lookup s.mem r v := by
  have hmem : q ∈ s.free := by rw [hq]; exact mem_cons_self
  have hnd := hS.nodup
  rw [hq, nodup_cons] at hnd
  have hA := hS.area q hmem
  have hm : ∀ p, IsTable s.mem r p → update s.mem q (filled 0) p = s.mem p := fun p => hS.free_congr hmem
  have htree := hS.tree.congr hm
  have hx' : tableAt (update s.mem q (filled 0)) r x = some t := by rwa [tableAt_congr hm]
  have hy' : tableAt (update s.mem q (filled 0)) r y = none := by rwa [tableAt_congr hm]
  have hz : update s.mem q (filled 0) q = filled 0 := update_self ..
  have hnew : ¬IsTable (update s.mem q (filled 0)) r q := fun ⟨a, ha⟩ =>
    hS.not_table_of_free hmem ⟨a, by rwa [tableAt_congr hm] at ha⟩
  have ht : ∀ z, tableAt (setPte (update s.mem q (filled 0)) t j (mkPte q PTE_V)) r z =
      if z = y then some q else tableAt s.mem r z := fun z => by
    rw [htree.tableAt_hang hy hx' hy' (hS.lt hA) hz hnew, tableAt_congr hm]
  have hl : ∀ v, lookup (setPte (update s.mem q (filled 0)) t j (mkPte q PTE_V)) r v = lookup s.mem r v :=
    fun v => by rw [htree.lookup_hang hy hx' hy' (hS.lt hA) hz hnew, lookup_congr hm]
  refine ⟨⟨htree.hang hy hx' hy' (hS.lt hA) hz hnew, ?_, hnd.2,
    fun p hp => hS.area p (by rw [hq]; exact mem_cons_of_mem _ hp), hS.valid, ?_, fun v hv => ?_, fun v h1 h2 => ?_⟩, ht, hl⟩
  · have hempty : place s.mem r h (.table y) = 0 := by rw [place, hfree]; rfl
    refine (hS.books.assign hempty hA fun hx => hx hmem).congr (fun w => ?_) fun p _ => ?_
    · cases w with
      | table a =>
        rw [place, ht]
        by_cases ha : a = y
        · rw [if_pos ha, ha, update_self]; rfl
        · rw [if_neg ha, update_of_ne (by simpa using ha)]; rfl
      | user v => rw [update_of_ne (by simp), place, place, hl]
      | hand => rw [update_of_ne (by simp)]; rfl
    · exact not_mem_tail hq hnd.1
  · rintro ⟨a, ha⟩
    rw [ht] at ha
    split at ha
    · exact hS.books.pos q hA (Option.some.inj ha)
    · exact hS.nonzero ⟨a, ha⟩
  · rw [hl]; exact hS.leaf v hv
  · rw [hl]; exact hS.high v h1 h2

/-- The PTE of page `v` becomes `e`, and page `h'` comes into the hand. -/
theorem setLeaf (hS : Space kend A s r h) {v t e h' : Nat} (hv : v < 2 ^ 26) (ht : tableAt s.mem r (leafPos v) = some t)
    (he : e < 2 ^ 64) (hleaf : IsLeaf v e)
    (hbooks : Ledger (update (update (place s.mem r h) .hand h') (.user v)
      (if v < USERTOP then ppn e else 0)) A (fun p => p ∉ s.free)) :
    Space kend A ⟨setPte s.mem t (ix 0 v) e, s.free, c⟩ r h' := by
  have hv27 : v < 2 ^ 27 := lt_trans hv (by decide)
  have hl : ∀ w, w < 2 ^ 27 → lookup (setPte s.mem t (ix 0 v) e) r w = if w = v then e else lookup s.mem r w :=
    fun w hw => hS.tree.lookup_setLeaf ht he hv27 hw
  refine ⟨hS.tree.setLeaf ht, hbooks.congr (fun x => ?_) fun _ _ => Iff.rfl, hS.nodup, hS.area, hS.valid, ?_,
    fun w hw => ?_, fun w h1 h2 => ?_⟩
  · cases x with
    | table a => simp [place, hS.tree.tableAt_setLeaf ht]
    | user w =>
      by_cases hw : w < USERTOP
      · rw [place_user hw, hl w (lt_trans hw (by decide))]
        by_cases hwv : w = v
        · rw [if_pos hwv, hwv, update_self, if_pos (hwv ▸ hw)]
        · rw [if_neg hwv, update_of_ne (by simpa using hwv), update_of_ne (by simp), place_user hw]
      · by_cases hwv : w = v
        · subst hwv
          simp [place, hw]
        · rw [update_of_ne (by simpa using hwv), update_of_ne (by simp)]
          simp [place, hw]
    | hand => rfl
  · rintro ⟨a, ha⟩
    exact hS.nonzero ⟨a, by rwa [hS.tree.tableAt_setLeaf ht] at ha⟩
  · rw [hl w hw]
    split
    · next hwv => rw [hwv]; exact hleaf
    · exact hS.leaf w hw
  · rw [hl w h2, if_neg (by omega)]
    exact hS.high w h1 h2

/-- A PTE that leaves its page where it is. -/
theorem keepPlace {m : Nat → Buf} {v a : Nat} (ha : a = place m r h (.user v)) (x : Place) :
    update (update (place m r h) .hand h) (.user v) a x = place m r h x := by
  have hh : update (place m r h) .hand h = place m r h := update_eq_self Place.hand (place m r h)
  rw [hh, ha, update_eq_self]

/-- The page in hand becomes user memory. -/
theorem map (hS : Space kend A s r p) {v t flags : Nat} (hp : p ≠ 0) (hv : v < USERTOP)
    (ht : tableAt s.mem r (leafPos v) = some t) (hl : lookup s.mem r v = 0) (hf : flags < 1024)
    (hleaf : flags &&& PTE_V ≠ 0 ∧ flags ≠ PTE_V) :
    Space kend A ⟨setPte s.mem t (ix 0 v) (mkPte p flags), s.free, c⟩ r 0 := by
  have hp44 := hS.lt (hS.hand hp).1
  refine hS.setLeaf (lt_trans hv (by decide)) ht (mkPte_lt hp44 hf) (.inr ?_) ?_
  · rw [mkPte_and hf (by decide), PTE_FLAGS_mkPte hf, ppn_mkPte hp44 hf]
    exact ⟨hleaf.1, hleaf.2, fun _ => hp⟩
  · rw [if_pos hv, ppn_mkPte hp44 hf]
    exact hS.books.move (p := .hand) hp (by rw [place_user hv, hl]; rfl)

/-- Above user memory a page is mapped that the page table does not own. -/
theorem mapFixed (hS : Space kend A s r h) {v t q flags : Nat} (hv : USERTOP ≤ v) (hv26 : v < 2 ^ 26)
    (ht : tableAt s.mem r (leafPos v) = some t) (hq : q < 2 ^ 44) (hf : flags < 1024)
    (hleaf : flags &&& PTE_V ≠ 0 ∧ flags ≠ PTE_V) :
    Space kend A ⟨setPte s.mem t (ix 0 v) (mkPte q flags), s.free, c⟩ r h := by
  refine hS.setLeaf hv26 ht (mkPte_lt hq hf) (.inr ?_) ?_
  · rw [mkPte_and hf (by decide), PTE_FLAGS_mkPte hf]
    exact ⟨hleaf.1, hleaf.2, fun hlt => absurd hlt (by omega)⟩
  · refine hS.books.congr (fun x => ?_) fun _ _ => Iff.rfl
    exact keepPlace (by rw [place, if_neg (by omega), if_neg (by omega)]) x

/-- A page of user memory is freed. -/
theorem unmap (hS : Space kend A s r 0) {v t : Nat} (hv : v < USERTOP) (ht : tableAt s.mem r (leafPos v) = some t)
    (hl : lookup s.mem r v ≠ 0) :
    Space kend A ⟨setPte (update s.mem (ppn (lookup s.mem r v)) b) t (ix 0 v) 0,
      ppn (lookup s.mem r v) :: s.free, c⟩ r 0 := by
  have hne := hS.user_ne_zero hv hl
  have htp : t ≠ ppn (lookup s.mem r v) := by
    rintro rfl
    exact (hS.user hv hl).2.2 ⟨_, ht⟩
  -- the page moves from its place to the hand, and from there to the free list
  have hmove : Space kend A ⟨setPte s.mem t (ix 0 v) 0, s.free, c⟩ r (ppn (lookup s.mem r v)) := by
    refine hS.setLeaf (lt_trans hv (by decide)) ht (Nat.two_pow_pos 64) (.inl rfl) ?_
    have hpl : place s.mem r 0 (.user v) = ppn (lookup s.mem r v) := place_user hv
    have := hS.books.move (p := .user v) (q := .hand) (by rwa [hpl]) rfl
    rw [hpl, update_comm (by simp)] at this
    rwa [if_pos hv]
  have hgive := hmove.give (b := b) (c := c) hne
  rwa [show update (setPte s.mem t (ix 0 v) 0) (ppn (lookup s.mem r v)) b =
    setPte (update s.mem (ppn (lookup s.mem r v)) b) t (ix 0 v) 0 by
      rw [setPte, setPte, update_of_ne htp, update_comm htp]] at hgive

/-- Above user memory nothing is freed. -/
theorem unmapFixed (hS : Space kend A s r h) {v t : Nat} (hv : USERTOP ≤ v) (hv26 : v < 2 ^ 26)
    (ht : tableAt s.mem r (leafPos v) = some t) : Space kend A ⟨setPte s.mem t (ix 0 v) 0, s.free, c⟩ r h := by
  refine hS.setLeaf hv26 ht (Nat.two_pow_pos 64) (.inl rfl) (hS.books.congr (fun x => ?_) fun _ _ => Iff.rfl)
  exact keepPlace (by rw [place, if_neg (by omega), if_neg (by omega)]) x

end Moves

end Space

end Xv6.Vm
