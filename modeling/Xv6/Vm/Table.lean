import Xv6.Vm.Code

/-! The map that a page table in memory stands for.

    A page table rooted in page `r` is a tree of pages. Its nodes go by where they hang, `Pos`:

        root ── i ──▶ mid i ── j ──▶ low i j ── k ──▶ PTE of page (i, j, k)

    `lookup m r v` is the PTE of the virtual page `v` in memory `m`, 0 where a node on the way is missing. `Tree` says
    that no page is used twice. Then each store of the code changes one thing: a store to a PTE of a `low` page
    changes the map at one page, and hanging up a zeroed page adds one node and leaves the map alone. -/

namespace Xv6.Vm
open Bytes

/-! ### PTEs -/

/-- The number of the page that a PTE refers to. -/
def ppn (pte : Nat) : Nat := PTE2PA pte / PGSIZE

theorem ppn_eq (pte : Nat) : ppn pte = pte / 1024 % 2 ^ 52 := by
  rw [ppn, PTE2PA, PGSIZE, Nat.shiftRight_eq_div_pow, Nat.shiftLeft_eq]
  omega

theorem PA2PTE_page {p : Nat} (hp : p < 2 ^ 44) : PA2PTE (p * PGSIZE) = p * 1024 := by
  rw [PA2PTE, PGSIZE, Nat.shiftRight_eq_div_pow, Nat.shiftLeft_eq]
  omega

/-- A PTE for page `p` with the given flags. -/
abbrev mkPte (p flags : Nat) : Nat := p * 1024 + flags

theorem ppn_mkPte {p flags : Nat} (hp : p < 2 ^ 44) (hf : flags < 1024) : ppn (mkPte p flags) = p := by
  rw [ppn_eq, mkPte]
  omega

theorem mkPte_lt {p flags : Nat} (hp : p < 2 ^ 44) (hf : flags < 1024) : mkPte p flags < 2 ^ 64 := by
  unfold mkPte
  omega

/-- The low ten bits decide about flags. -/
theorem and_flag {f : Nat} (pte : Nat) (hf : f < 1024) : pte &&& f = pte % 1024 &&& f := by
  have hle : pte &&& f < 2 ^ 10 := lt_of_le_of_lt Nat.and_le_right hf
  have h := Nat.and_mod_two_pow (a := pte) (b := f) (n := 10)
  rwa [Nat.mod_eq_of_lt hle, Nat.mod_eq_of_lt hf] at h

theorem mkPte_and {p flags f : Nat} (hflags : flags < 1024) (hf : f < 1024) : mkPte p flags &&& f = flags &&& f := by
  have hmod : (p * 1024 + flags) % 1024 = flags := by omega
  rw [and_flag _ hf, mkPte, hmod]

theorem PTE_FLAGS_eq (pte : Nat) : PTE_FLAGS pte = pte % 1024 := Nat.and_two_pow_sub_one_eq_mod pte 10

theorem PTE_FLAGS_mkPte {p flags : Nat} (hf : flags < 1024) : PTE_FLAGS (mkPte p flags) = flags := by
  rw [PTE_FLAGS_eq, mkPte]
  omega

theorem or_valid {p perm : Nat} (hp : p < 2 ^ 44) (hperm : perm < 1024) :
    PA2PTE (p * PGSIZE) ||| perm ||| PTE_V = mkPte p (perm ||| PTE_V) := by
  have hlt : perm ||| PTE_V < 2 ^ 10 := Nat.or_lt_two_pow hperm (by decide)
  rw [PA2PTE_page hp, Nat.or_assoc, mkPte, Nat.mul_comm p, ← Nat.two_pow_add_eq_or_of_lt hlt]

theorem PA2PTE_valid {p : Nat} (hp : p < 2 ^ 44) : PA2PTE (p * PGSIZE) ||| PTE_V = mkPte p PTE_V := by
  have h := or_valid hp (show 0 < 1024 by decide)
  rwa [Nat.or_zero, Nat.zero_or] at h

theorem getU64_filled_zero (o : Nat) : getU64 (filled 0) o = 0 := rfl

variable {m m' : Nat → Buf} {r p q : Nat}

theorem pteAt_setPte {v : Nat} (hv : v < 2 ^ 64) (i j : Fin 512) :
    pteAt (setPte m p i v) q j = if q = p ∧ j = i then v else pteAt m q j := by
  unfold pteAt setPte
  by_cases hq : q = p
  · subst hq
    rw [Function.update_self]
    by_cases hj : j = i
    · rw [if_pos ⟨rfl, hj⟩, hj, getU64_setU64 _ _ hv]
    · have hne : j.val ≠ i.val := fun h => hj (Fin.ext h)
      rw [if_neg fun h => hj h.2, getU64_setU64_other (by omega)]
  · rw [if_neg fun h => hq h.1, Function.update_of_ne hq]

theorem setPte_of_ne {v : Nat} {i : Fin 512} (h : q ≠ p) : setPte m p i v q = m q := Function.update_of_ne h ..

/-! ### Nodes -/

/-- Where a page table page hangs. -/
inductive Pos where
  | root
  | mid (i : Fin 512)
  | low (i j : Fin 512)
  deriving DecidableEq

/-- The page table page that a PTE refers to. -/
def child (m : Nat → Buf) (p : Nat) (i : Fin 512) : Option Nat :=
  if pteAt m p i &&& PTE_V ≠ 0 then some (ppn (pteAt m p i)) else none

/-- The page table page that hangs at a position. -/
def tableAt (m : Nat → Buf) (r : Nat) : Pos → Option Nat
  | .root => some r
  | .mid i => child m r i
  | .low i j => (child m r i).bind fun p => child m p j

attribute [local instance] neZero_512 in
/-- The index of page `v` on a level. -/
def ix (level v : Nat) : Fin 512 := Fin.ofNat 512 (v / 512 ^ level)

/-- Where the page table page with the PTE of page `v` hangs. -/
abbrev leafPos (v : Nat) : Pos := .low (ix 2 v) (ix 1 v)

/-- The PTE of page `v`. -/
def lookup (m : Nat → Buf) (r v : Nat) : Nat :=
  match tableAt m r (leafPos v) with
  | none => 0
  | some t => pteAt m t (ix 0 v)

theorem PX_eq (level va : Nat) : PX level va = ix level (va / PGSIZE) := by
  have h : va >>> (12 + 9 * level) = va / PGSIZE / 512 ^ level := by
    rw [Nat.shiftRight_eq_div_pow, Nat.pow_add, Nat.div_div_eq_div_mul, Nat.pow_mul]
    rfl
  rw [PX, ix, h]

/-- The indices tell pages apart. -/
theorem ix_inj {v w : Nat} (hv : v < 2 ^ 27) (hw : w < 2 ^ 27) (h2 : ix 2 v = ix 2 w) (h1 : ix 1 v = ix 1 w)
    (h0 : ix 0 v = ix 0 w) : v = w := by
  have e2 : v / 512 ^ 2 % 512 = w / 512 ^ 2 % 512 := congrArg Fin.val h2
  have e1 : v / 512 ^ 1 % 512 = w / 512 ^ 1 % 512 := congrArg Fin.val h1
  have e0 : v / 512 ^ 0 % 512 = w / 512 ^ 0 % 512 := congrArg Fin.val h0
  omega

/-- Page `p` is a page table page. -/
def IsTable (m : Nat → Buf) (r p : Nat) : Prop := ∃ a, tableAt m r a = some p

theorem child_congr (h : m' p = m p) (i : Fin 512) : child m' p i = child m p i := by
  unfold child pteAt
  rw [h]

/-- The tree depends on its own pages only. -/
theorem tableAt_congr (h : ∀ p, IsTable m r p → m' p = m p) (a : Pos) : tableAt m' r a = tableAt m r a := by
  have hr : ∀ i, child m' r i = child m r i := child_congr (h r ⟨.root, rfl⟩)
  cases a with
  | root => rfl
  | mid i => exact hr i
  | low i j =>
    simp only [tableAt, hr]
    cases hi : child m r i with
    | none => rfl
    | some p => exact child_congr (h p ⟨.mid i, hi⟩) j

theorem lookup_congr (h : ∀ p, IsTable m r p → m' p = m p) (v : Nat) : lookup m' r v = lookup m r v := by
  unfold lookup
  rw [tableAt_congr h]
  cases ht : tableAt m r (leafPos v) with
  | none => rfl
  | some t =>
    dsimp only
    rw [pteAt, pteAt, h t ⟨_, ht⟩]

/-! ### Trees -/

/-- Above the lowest level. -/
def Pos.inner : Pos → Prop
  | .low .. => False
  | _ => True

/-- The page tables of `r` form a tree: no page hangs at two positions, and the PTEs above the lowest level are
    empty or refer to a page table page. -/
structure Tree (m : Nat → Buf) (r : Nat) : Prop where
  inj : ∀ {a b p}, tableAt m r a = some p → tableAt m r b = some p → a = b
  inner : ∀ {a p}, tableAt m r a = some p → a.inner → ∀ j, pteAt m p j = 0 ∨ ∃ q, q < 2 ^ 44 ∧ pteAt m p j = mkPte q PTE_V

theorem child_of_pte {e : Nat} {i : Fin 512} (h : pteAt m p i = e) :
    child m p i = if e &&& PTE_V ≠ 0 then some (ppn e) else none := by rw [child, h]

theorem child_zero (h : m p = filled 0) (i : Fin 512) : child m p i = none := by
  have : pteAt m p i = 0 := by rw [pteAt, h]; exact getU64_filled_zero _
  rw [child_of_pte this]
  rfl

theorem child_setPte_of_ne {v : Nat} {i : Fin 512} (h : q ≠ p) (j : Fin 512) :
    child (setPte m p i v) q j = child m q j := child_congr (setPte_of_ne h) j

/-- A page table page that has been zeroed is a tree by itself, with nothing mapped. -/
theorem tableAt_zero (h : m r = filled 0) (a : Pos) : tableAt m r a = if a = .root then some r else none := by
  cases a with
  | root => rfl
  | mid i => exact child_zero h i
  | low i j => simp [tableAt, child_zero h i]

theorem Tree.zero (h : m r = filled 0) : Tree m r where
  inj := fun {a b p} ha hb => by
    rw [tableAt_zero h] at ha hb
    by_cases h1 : a = .root
    · by_cases h2 : b = .root
      · rw [h1, h2]
      · rw [if_neg h2] at hb; cases hb
    · rw [if_neg h1] at ha; cases ha
  inner := fun {a p} ha _ j => by
    rw [tableAt_zero h] at ha
    by_cases h1 : a = .root
    · rw [if_pos h1] at ha
      obtain rfl := Option.some.inj ha
      exact .inl (by rw [pteAt, h]; exact getU64_filled_zero _)
    · rw [if_neg h1] at ha; cases ha

theorem lookup_zero (h : m r = filled 0) (v : Nat) : lookup m r v = 0 := by
  rw [lookup, tableAt_zero h]
  rfl

namespace Tree

/-- The page table page of a lower level is not the root. -/
theorem ne_root (h : Tree m r) {a : Pos} (ha : tableAt m r a = some p) (hne : a ≠ .root) : p ≠ r := by
  rintro rfl
  exact hne (h.inj ha rfl)

theorem congr (h : Tree m r) (hm : ∀ p, IsTable m r p → m' p = m p) : Tree m' r where
  inj := fun ha hb => by
    rw [tableAt_congr hm] at ha hb
    exact h.inj ha hb
  inner := fun {a p} ha hin j => by
    rw [tableAt_congr hm] at ha
    rw [pteAt, hm p ⟨a, ha⟩]
    exact h.inner ha hin j

/-! ### A store to a PTE of the lowest level -/

section Leaf
variable {v t e : Nat}

theorem tableAt_setLeaf (h : Tree m r) (hleaf : tableAt m r (leafPos v) = some t) (a : Pos) :
    tableAt (setPte m t (ix 0 v) e) r a = tableAt m r a := by
  have hr : ∀ i, child (setPte m t (ix 0 v) e) r i = child m r i :=
    child_setPte_of_ne (h.ne_root hleaf Pos.noConfusion).symm
  cases a with
  | root => rfl
  | mid i => exact hr i
  | low i j =>
    simp only [tableAt, hr]
    cases hi : child m r i with
    | none => rfl
    | some p =>
      have hne : p ≠ t := by
        rintro rfl
        exact Pos.noConfusion (h.inj (a := .mid i) hi hleaf)
      exact child_setPte_of_ne hne j

theorem lookup_setLeaf (h : Tree m r) (hleaf : tableAt m r (leafPos v) = some t) (he : e < 2 ^ 64) (hv : v < 2 ^ 27)
    {w : Nat} (hw : w < 2 ^ 27) :
    lookup (setPte m t (ix 0 v) e) r w = if w = v then e else lookup m r w := by
  rw [lookup, lookup, h.tableAt_setLeaf hleaf]
  by_cases hwv : w = v
  · subst hwv
    rw [hleaf, if_pos rfl]
    dsimp only
    rw [pteAt_setPte he, if_pos ⟨rfl, rfl⟩]
  · rw [if_neg hwv]
    cases hl : tableAt m r (leafPos w) with
    | none => rfl
    | some t' =>
      dsimp only
      rw [pteAt_setPte he, if_neg]
      rintro ⟨rfl, h0⟩
      have hpos := h.inj hl hleaf
      injection hpos with h2 h1
      exact hwv (ix_inj hw hv h2 h1 h0)

theorem setLeaf (h : Tree m r) (hleaf : tableAt m r (leafPos v) = some t) : Tree (setPte m t (ix 0 v) e) r where
  inj := fun ha hb => by
    rw [h.tableAt_setLeaf hleaf] at ha hb
    exact h.inj ha hb
  inner := fun {a p} ha hin j => by
    rw [h.tableAt_setLeaf hleaf] at ha
    have hne : p ≠ t := by
      rintro rfl
      rw [h.inj ha hleaf] at hin
      exact hin
    rw [pteAt, setPte_of_ne hne]
    exact h.inner ha hin j

end Leaf

/-! ### Hanging up and taking down a page table page -/

end Tree

/-- Where the PTE is that refers to the page at a position. -/
def Pos.parent : Pos → Option (Pos × Fin 512)
  | .root => none
  | .mid i => some (.root, i)
  | .low i j => some (.mid i, j)

theorem tableAt_parent {a b : Pos} {j : Fin 512} (h : b.parent = some (a, j)) :
    tableAt m r b = (tableAt m r a).bind fun p => child m p j := by
  cases b with
  | root => cases h
  | mid i => cases h; rfl
  | low i j => cases h; rfl

namespace Tree
variable {a b : Pos} {j : Fin 512}

/-- A PTE above the lowest level, after it has been set, decides about what hangs at its position; what hangs
    below comes from the page that hangs there. -/
theorem tableAt_set (h : Tree m r) (hb : b.parent = some (a, j)) (ha : tableAt m r a = some p) {e : Nat}
    (he : e < 2 ^ 64) (hbelow : ∀ c k, c.parent = some (b, k) → tableAt m r c = none)
    (hnew : ∀ q, e &&& PTE_V ≠ 0 → q = ppn e → q ≠ p ∧ ∀ k, child m q k = none) (x : Pos) :
    tableAt (setPte m p j e) r x = if x = b then (if e &&& PTE_V ≠ 0 then some (ppn e) else none)
      else tableAt m r x := by
  have hself : child (setPte m p j e) p j = if e &&& PTE_V ≠ 0 then some (ppn e) else none :=
    child_of_pte (by rw [pteAt_setPte he, if_pos ⟨rfl, rfl⟩])
  have hother : ∀ q k, ¬(q = p ∧ k = j) → child (setPte m p j e) q k = child m q k := fun q k hqk => by
    rw [child, child, pteAt_setPte he, if_neg hqk]
  cases b with
  | root => cases hb
  | mid i =>
    cases hb
    obtain rfl : r = p := Option.some.inj ha
    cases x with
    | root => rfl
    | mid i' =>
      by_cases hi : i' = j
      · rw [hi, if_pos rfl]; exact hself
      · rw [if_neg fun hx => hi (Pos.mid.inj hx)]
        exact hother _ _ fun hx => hi hx.2
    | low i' j' =>
      rw [if_neg Pos.noConfusion]
      by_cases hi : i' = j
      · subst hi
        rw [hbelow (.low i' j') j' rfl, tableAt, hself]
        split
        · next hV =>
          obtain ⟨hne, hz⟩ := hnew _ hV rfl
          change child (setPte m r i' e) (ppn e) j' = none
          rw [hother _ _ fun hx => hne hx.1, hz]
        · rfl
      · simp only [tableAt, hother r i' fun hx => hi hx.2]
        cases hc : child m r i' with
        | none => rfl
        | some p' => exact hother p' j' fun hx => h.ne_root (a := .mid i') hc Pos.noConfusion hx.1
  | low i j₀ =>
    cases hb
    have hr : ∀ k, child (setPte m p j e) r k = child m r k :=
      child_setPte_of_ne (h.ne_root ha Pos.noConfusion).symm
    cases x with
    | root => rfl
    | mid i' => rw [if_neg Pos.noConfusion]; exact hr i'
    | low i' j' =>
      simp only [tableAt, hr]
      cases hc : child m r i' with
      | none =>
        rw [if_neg]
        · rfl
        · intro hl
          rw [(Pos.low.inj hl).1, show child m r i = some p from ha] at hc
          cases hc
      | some p' =>
        change child (setPte m p j e) p' j' = if _ then _ else child m p' j'
        by_cases hx : i' = i ∧ j' = j
        · obtain ⟨rfl, rfl⟩ := hx
          obtain rfl : p' = p := Option.some.inj (hc.symm.trans ha)
          rw [if_pos rfl, hself]
        · rw [if_neg fun hl => hx ⟨(Pos.low.inj hl).1, (Pos.low.inj hl).2⟩]
          refine hother _ _ fun hy => hx ⟨?_, hy.2⟩
          rw [hy.1] at hc
          exact Pos.mid.inj (h.inj (a := .mid i') (b := .mid i) hc ha)

/-- The PTEs of the lowest level are out of the way. -/
theorem lookup_set (h : Tree m r) (ha : tableAt m r a = some p) (hin : a.inner) {e : Nat} {v : Nat}
    (ht : tableAt (setPte m p j e) r (leafPos v) = tableAt m r (leafPos v)) :
    lookup (setPte m p j e) r v = lookup m r v := by
  rw [lookup, lookup, ht]
  cases hl : tableAt m r (leafPos v) with
  | none => rfl
  | some t =>
    have hne : t ≠ p := by
      rintro rfl
      rw [h.inj ha hl] at hin
      exact hin
    dsimp only
    rw [pteAt, pteAt, setPte_of_ne hne]

theorem inner_of_parent (hb : b.parent = some (a, j)) : a.inner := by
  cases b <;> cases hb <;> trivial

theorem valid_mkPte (q : Nat) : mkPte q PTE_V &&& PTE_V ≠ 0 := by
  rw [mkPte_and (by decide) (by decide)]
  decide

section Hang
variable (h : Tree m r) (hb : b.parent = some (a, j)) (ha : tableAt m r a = some p) (hfree : tableAt m r b = none)
  (hq : q < 2 ^ 44) (hz : m q = filled 0) (hnew : ¬IsTable m r q)
include h hb ha hfree hq hz hnew

/-- A zeroed page is hung up. -/
theorem tableAt_hang (x : Pos) : tableAt (setPte m p j (mkPte q PTE_V)) r x = if x = b then some q else tableAt m r x := by
  rw [h.tableAt_set hb ha (mkPte_lt hq (by decide)), if_pos (valid_mkPte q), ppn_mkPte hq (by decide)]
  · intro c k hc
    rw [tableAt_parent hc, hfree]
    rfl
  · rintro _ _ rfl
    rw [ppn_mkPte hq (by decide)]
    refine ⟨?_, child_zero hz⟩
    rintro rfl
    exact hnew ⟨a, ha⟩

theorem lookup_hang (v : Nat) : lookup (setPte m p j (mkPte q PTE_V)) r v = lookup m r v := by
  have ht := h.tableAt_hang hb ha hfree hq hz hnew (leafPos v)
  by_cases hv : leafPos v = b
  · rw [if_pos hv] at ht
    have hne : q ≠ p := by
      rintro rfl
      exact hnew ⟨a, ha⟩
    rw [lookup, lookup, ht, hv, hfree]
    dsimp only
    rw [pteAt, setPte_of_ne hne, hz]
    exact getU64_filled_zero _
  · rw [if_neg hv] at ht
    exact h.lookup_set ha (inner_of_parent hb) ht

theorem hang : Tree (setPte m p j (mkPte q PTE_V)) r where
  inj := fun {x y s} hx hy => by
    rw [h.tableAt_hang hb ha hfree hq hz hnew] at hx hy
    by_cases h1 : x = b <;> by_cases h2 : y = b
    · rw [h1, h2]
    · rw [if_pos h1] at hx
      rw [if_neg h2] at hy
      exact absurd ⟨y, by rw [hy, hx]⟩ hnew
    · rw [if_neg h1] at hx
      rw [if_pos h2] at hy
      exact absurd ⟨x, by rw [hx, hy]⟩ hnew
    · rw [if_neg h1] at hx
      rw [if_neg h2] at hy
      exact h.inj hx hy
  inner := fun {x s} hx hin k => by
    rw [h.tableAt_hang hb ha hfree hq hz hnew] at hx
    rw [pteAt_setPte (mkPte_lt hq (by decide))]
    split
    · exact .inr ⟨q, hq, rfl⟩
    · by_cases h1 : x = b
      · rw [if_pos h1] at hx
        obtain rfl := Option.some.inj hx
        exact .inl (by rw [pteAt, hz]; exact getU64_filled_zero _)
      · rw [if_neg h1] at hx
        exact h.inner hx hin k

end Hang

section Unhang
variable (h : Tree m r) (hb : b.parent = some (a, j)) (ha : tableAt m r a = some p)
  (hbelow : ∀ c k, c.parent = some (b, k) → tableAt m r c = none)
include h hb ha hbelow

end Unhang

end Tree

end Xv6.Vm
