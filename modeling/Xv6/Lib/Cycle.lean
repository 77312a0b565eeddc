import Mathlib

/-! Circular linked lists.

    The nodes of a circular list are a list `ns` such that `ns ++ [ns.head]` is `Linked`: every node points to
    the one behind it, and the last one to the first. One can start at any node (`exists_rotation`), so a loop
    that goes from node to node reaches every one of them (`search_cycle`). A `Ring` is linked both ways through
    a sentinel; `unlink` and `push` are the two pieces of pointer surgery on it. -/

namespace Cycle
open Function List

variable {α : Type} {next : α → α} {a b : α} {l l₁ l₂ : List α}

/-- Every node points to the one behind it. -/
def Linked (next : α → α) (l : List α) : Prop := l.IsChain fun a b => next a = b

theorem linked_pair : Linked next [a, b] ↔ next a = b := isChain_pair

theorem linked_cons_cons : Linked next (a :: b :: l) ↔ next a = b ∧ Linked next (b :: l) := isChain_cons_cons

theorem linked_split : Linked next (l₁ ++ a :: l₂) ↔ Linked next (l₁ ++ [a]) ∧ Linked next (a :: l₂) := isChain_split

/-- What holds along a list up to its last element depends on the elements before it. -/
theorem isChain_congr {R S : α → α → Prop} (h : (l ++ [b]).IsChain R) (himp : ∀ a ∈ l, ∀ c, R a c → S a c) :
    (l ++ [b]).IsChain S := by
  induction l with
  | nil => exact isChain_singleton b
  | cons a l ih =>
    have ih := fun h => ih h fun x hx => himp x (mem_cons_of_mem a hx)
    have ha := himp a (mem_cons_self ..)
    cases l with
    | nil => exact isChain_pair.mpr (ha _ (isChain_pair.mp h))
    | cons c l =>
      obtain ⟨hac, hrest⟩ := isChain_cons_cons.mp h
      exact isChain_cons_cons.mpr ⟨ha _ hac, ih hrest⟩

/-- The last node's own pointer does not matter. -/
theorem Linked.congr {next' : α → α} (h : Linked next (l ++ [b])) (heq : ∀ a ∈ l, next' a = next a) :
    Linked next' (l ++ [b]) :=
  isChain_congr h fun a ha _ hac => (heq a ha).trans hac

/-- Another node in front, and what is behind it unchanged. -/
theorem Linked.replace_head {next' : α → α} {c : α} (h : Linked next (a :: (l ++ [c]))) (hb : next' b = next a)
    (heq : ∀ x ∈ l, next' x = next x) : Linked next' (b :: (l ++ [c])) := by
  cases l with
  | nil => exact linked_pair.mpr (hb.trans (linked_pair.mp h))
  | cons d l =>
    obtain ⟨had, hrest⟩ := linked_cons_cons.mp h
    exact linked_cons_cons.mpr ⟨hb.trans had, Linked.congr hrest heq⟩

/-- A circular list can be read from any of its nodes on. -/
theorem exists_rotation (h : Linked next (b :: l ++ [b])) (ha : a ∈ b :: l) :
    ∃ l', (a :: l').Perm (b :: l) ∧ Linked next (a :: l' ++ [a]) := by
  rcases mem_cons.mp ha with rfl | ha
  · exact ⟨l, .refl _, h⟩
  · obtain ⟨l₁, l₂, rfl⟩ := append_of_mem ha
    have h : Linked next ((b :: l₁) ++ a :: (l₂ ++ [b])) := by simpa using h
    obtain ⟨hba, hab⟩ := linked_split.mp h
    refine ⟨l₂ ++ b :: l₁, ?_, ?_⟩
    · exact (perm_append_comm : ((a :: l₂) ++ (b :: l₁)).Perm _)
    · have : Linked next ((a :: l₂) ++ b :: (l₁ ++ [a])) := linked_split.mpr ⟨hab, hba⟩
      simpa using this

/-- `for(p = a; !stop(p); p = p->next)`, `n` rounds at most. -/
def search (next : α → α) (stop : α → Bool) : Nat → α → Option α
  | 0, _ => none
  | n + 1, a => if stop a then some a else search next stop n (next a)

variable {stop : α → Bool}

/-- More rounds do not change what is found. -/
theorem search_mono {x : α} : ∀ {n m : Nat} {a : α}, search next stop n a = some x → n ≤ m →
    search next stop m a = some x
  | n + 1, m + 1, a, h, hle => by
    rw [search] at h ⊢
    split at h
    next hs => rwa [if_pos hs]
    next hs => rw [if_neg hs]; exact search_mono h (Nat.le_of_succ_le_succ hle)

/-- A search along a list ends if it ends at one of its nodes. -/
theorem search_linked (h : Linked next (a :: l)) (hstop : ∃ x ∈ a :: l, stop x = true) :
    ∃ x ∈ a :: l, stop x = true ∧ ∀ n ≥ l.length + 1, search next stop n a = some x := by
  induction l generalizing a with
  | nil =>
    obtain ⟨x, hx, hs⟩ := hstop
    obtain rfl := mem_singleton.mp hx
    refine ⟨x, mem_singleton_self x, hs, fun n hn => ?_⟩
    obtain ⟨m, rfl⟩ := Nat.exists_eq_add_one.mpr (show 0 < n from hn)
    rw [search, if_pos hs]
  | cons b l ih =>
    obtain ⟨hab, hrest⟩ := linked_cons_cons.mp h
    cases hs : stop a with
    | true =>
      refine ⟨a, mem_cons_self .., hs, fun n hn => ?_⟩
      obtain ⟨m, rfl⟩ := Nat.exists_eq_add_one.mpr (Nat.zero_lt_of_lt hn)
      rw [search, if_pos hs]
    | false =>
      have hlater : ∃ x ∈ b :: l, stop x = true := by
        obtain ⟨x, hx, hsx⟩ := hstop
        rcases mem_cons.mp hx with rfl | hx
        · rw [hs] at hsx; cases hsx
        · exact ⟨x, hx, hsx⟩
      obtain ⟨x, hx, hsx, hfind⟩ := ih hrest hlater
      refine ⟨x, mem_cons_of_mem a hx, hsx, fun n hn => ?_⟩
      obtain ⟨m, rfl⟩ := Nat.exists_eq_add_one.mpr (Nat.zero_lt_of_lt hn)
      rw [search, hs, if_neg Bool.false_ne_true, hab]
      exact hfind m (by rw [length_cons] at hn; omega)

/-- A search in a circular list ends, wherever it starts. -/
theorem search_cycle (h : Linked next (b :: l ++ [b])) (ha : a ∈ b :: l)
    (hstop : ∃ x ∈ b :: l, stop x = true) :
    ∃ x ∈ b :: l, stop x = true ∧ ∀ n ≥ l.length + 1, search next stop n a = some x := by
  obtain ⟨l', hperm, hlink⟩ := exists_rotation h ha
  obtain ⟨x, hx, hs⟩ := hstop
  have hlink' : Linked next (a :: l') := IsChain.left_of_append hlink
  obtain ⟨y, hy, hsy, hfind⟩ := search_linked hlink' ⟨x, hperm.mem_iff.mpr hx, hs⟩
  have hlen : l'.length + 1 = l.length + 1 := hperm.length_eq
  exact ⟨y, hperm.mem_iff.mp hy, hsy, hlen ▸ hfind⟩

/-- A search up to the node `z` ends at the first node that stops it. -/
theorem search_find {a z : α} (hz : stop z = true) :
    ∀ {l : List α}, Linked next (a :: (l ++ [z])) → ∀ n > l.length,
      search next stop n (next a) = some ((l.find? stop).getD z)
  | [], hl, n + 1, _ => by
    rw [linked_pair.mp hl, search, if_pos hz]
    rfl
  | b :: l, hl, n + 1, hn => by
    obtain ⟨hab, hrest⟩ := linked_cons_cons.mp hl
    rw [hab, search]
    split
    next hs => rw [find?_cons_of_pos hs]; rfl
    next hs => rw [find?_cons_of_neg hs]; exact search_find hz hrest n (Nat.lt_of_succ_lt_succ hn)

/-! ### Lists linked both ways -/

section Doubly

variable [DecidableEq α] {prev : α → α} {h : α}

/-- One circular list through both pointers: `h`, then `l`, then `h` again. -/
structure Ring (next prev : α → α) (h : α) (l : List α) : Prop where
  nodup : (h :: l).Nodup
  next : Linked next (h :: (l ++ [h]))
  prev : Linked prev (h :: (l.reverse ++ [h]))

omit [DecidableEq α] in
/-- The node behind `b` is the last one before it when the list is read backwards. -/
theorem Linked.behind (hl : Linked next (l₁ ++ b :: (l₂ ++ [h]))) : (h :: l₂.reverse).getLast? = some (next b) := by
  have hback := (linked_split.mp hl).2
  cases l₂ with
  | nil => rw [linked_pair.mp hback]; rfl
  | cons q l =>
    rw [(linked_cons_cons.mp hback).1, reverse_cons, getLast?_cons, getLast?_concat, Option.getD_some]

/-- The node in front of `b` is to point behind it. -/
theorem Linked.skip (hl : Linked next (h :: (l₁ ++ b :: (l₂ ++ [h])))) (hnodup : (h :: (l₁ ++ b :: l₂)).Nodup)
    {p : α} (hp : (h :: l₁).getLast? = some p) : Linked (update next p (next b)) (h :: (l₁ ++ (l₂ ++ [h]))) := by
  obtain ⟨L, hL⟩ := getLast?_eq_some_iff.mp hp
  have hsplit : (L ++ p :: b :: l₂).Nodup := by
    have : h :: (l₁ ++ b :: l₂) = (h :: l₁) ++ b :: l₂ := rfl
    rw [this, hL] at hnodup
    simpa using hnodup
  have hl : Linked next (L ++ p :: b :: (l₂ ++ [h])) := by
    have : h :: (l₁ ++ b :: (l₂ ++ [h])) = (h :: l₁) ++ b :: (l₂ ++ [h]) := rfl
    rw [this, hL] at hl
    simpa using hl
  obtain ⟨hfront, hback⟩ := linked_split.mp hl
  have hgoal : h :: (l₁ ++ (l₂ ++ [h])) = L ++ p :: (l₂ ++ [h]) := by
    rw [← cons_append, hL, append_assoc, singleton_append]
  rw [hgoal]
  obtain ⟨-, hnp, hdisj⟩ := nodup_append.mp hsplit
  have hpl : p ∉ b :: l₂ := (nodup_cons.mp hnp).1
  refine linked_split.mpr ⟨hfront.congr fun x hx => update_of_ne (hdisj x hx p (mem_cons_self ..)) _ _, ?_⟩
  refine (linked_cons_cons.mp hback).2.replace_head (update_self ..) fun x hx => update_of_ne ?_ _ _
  rintro rfl
  exact hpl (mem_cons_of_mem b hx)

/-- `b->next->prev = b->prev; b->prev->next = b->next;` -/
theorem Ring.unlink (r : Ring next prev h (l₁ ++ b :: l₂)) :
    Ring (update next (prev b) (next b)) (update prev (next b) (prev b)) h (l₁ ++ l₂) := by
  have hnext : Linked next (h :: (l₁ ++ b :: (l₂ ++ [h]))) := by simpa using r.next
  have hprev : Linked prev (h :: (l₂.reverse ++ b :: (l₁.reverse ++ [h]))) := by simpa using r.prev
  have hrev : (h :: (l₂.reverse ++ b :: l₁.reverse)).Nodup := by
    have : (h :: (l₂.reverse ++ b :: l₁.reverse)).Perm (h :: (l₁ ++ b :: l₂)) := by
      have hr := (reverse_perm (l₁ ++ b :: l₂)).cons h
      simpa using hr
    exact this.nodup_iff.mpr r.nodup
  have hp : (h :: l₁).getLast? = some (prev b) := by
    have hlast := Linked.behind (cons_append .. ▸ hprev)
    rwa [List.reverse_reverse] at hlast
  have hq : (h :: l₂.reverse).getLast? = some (next b) := Linked.behind (cons_append .. ▸ hnext)
  refine ⟨?_, ?_, ?_⟩
  · exact r.nodup.sublist (((List.Sublist.refl l₁).append (sublist_cons_self b l₂)).cons_cons h)
  · simpa using hnext.skip r.nodup hp
  · simpa using hprev.skip hrev hq

/-- `b->next = h.next; b->prev = &h; h.next->prev = b; h.next = b;` -/
theorem Ring.push (r : Ring next prev h l) (hb : b ∉ h :: l) :
    Ring (update (update next b (next h)) h b) (update (update prev b h) (next h) b) h (b :: l) := by
  obtain ⟨hbh, hbl⟩ := not_or.mp (mem_cons.not.mp hb)
  obtain ⟨hhl, hl⟩ := nodup_cons.mp r.nodup
  refine ⟨?_, ?_, ?_⟩
  · refine nodup_cons.mpr ⟨?_, nodup_cons.mpr ⟨hbl, hl⟩⟩
    rintro (_ | ⟨_, hx⟩)
    · exact hbh rfl
    · exact hhl hx
  · refine linked_cons_cons.mpr ⟨update_self .., r.next.replace_head ?_ fun x hx => ?_⟩
    · rw [update_of_ne hbh, update_self]
    · rw [update_of_ne (ne_of_mem_of_not_mem hx hhl), update_of_ne (ne_of_mem_of_not_mem hx hbl)]
  · -- the node `h` pointed to is the last one of the list read backwards
    obtain ⟨L, hL⟩ := getLast?_eq_some_iff.mp (Linked.behind (show Linked next ([] ++ h :: (l ++ [h])) from r.next))
    have hperm : (L ++ [next h]).Perm (h :: l) := hL ▸ (reverse_perm l).cons h
    have hnodup : (L ++ [next h]).Nodup := hperm.nodup_iff.mpr r.nodup
    have hprev : Linked prev (L ++ next h :: [h]) := by
      have := r.prev
      rw [← cons_append, hL] at this
      simpa using this
    have hgoal : h :: ((b :: l).reverse ++ [h]) = L ++ next h :: [b, h] := by
      rw [reverse_cons, append_assoc, ← cons_append, hL]
      simp
    have hnb : ∀ x ∈ L ++ [next h], x ≠ b := by
      rintro x hx rfl
      exact hb (hperm.mem_iff.mp hx)
    rw [hgoal]
    refine linked_split.mpr ⟨(linked_split.mp hprev).1.congr fun x hx => ?_, ?_⟩
    · rw [update_of_ne, update_of_ne (hnb x (mem_append_left _ hx))]
      rintro rfl
      exact (nodup_append.mp hnodup).2.2 _ hx _ (mem_singleton_self _) rfl
    · refine linked_cons_cons.mpr ⟨update_self .., linked_pair.mpr ?_⟩
      rw [update_of_ne (hnb (next h) (mem_append_right _ (mem_singleton_self _))).symm, update_self]

end Doubly

end Cycle
