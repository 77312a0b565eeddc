import Xv6.Lib.Acyclic
import Xv6.Fs.Step

/-! How often the entries of directories name an inode.

    `A.namesIn x i` counts the entries of inode `x` that name `i`, other than `.` and `..`; `A.names i`
    sums this over all `x`, and `A.edge x i` is the same number if `i` is a directory, and 0 otherwise:
    these are the edges of the directory tree. Putting an entry into a directory adds one to one of
    these numbers, and taking it out subtracts one. -/

namespace Xv6.Fs
open List

/-! ### One directory -/

section List
variable {es : List Entry} {j k : Nat} {e : Entry} {q : Entry → Bool}

theorem getElem?_putEntry (hj : j ≤ es.length) : (putEntry es j e)[k]? = if k = j then some e else es[k]? := by
  unfold putEntry
  split
  · rename_i hlt
    rw [getElem?_set]
    rcases eq_or_ne j k with rfl | hne
    · simp [hlt]
    · rw [if_neg hne, if_neg hne.symm]
  · obtain rfl : j = es.length := by omega
    rw [getElem?_append]
    rcases lt_trichotomy k es.length with hlt | rfl | hgt
    · rw [if_pos hlt, if_neg hlt.ne]
    · simp
    · rw [if_neg (by omega), if_neg hgt.ne', getElem?_eq_none (by simp; omega), getElem?_eq_none hgt.le]

/-- Writing one entry changes a count by what was there and what is there now. -/
theorem countP_putEntry (hj : j ≤ es.length) :
    (putEntry es j e).countP q + (es[j]?.elim 0 fun x => if q x then 1 else 0) = es.countP q + if q e then 1 else 0 := by
  unfold putEntry
  split
  · rename_i hlt
    rw [countP_set hlt, getElem?_eq_getElem hlt]
    have : (if q es[j] then 1 else 0) ≤ es.countP q := by
      split
      · exact countP_pos_iff.mpr ⟨_, getElem_mem hlt, ‹_›⟩
      · exact Nat.zero_le _
    simp only [Option.elim_some]
    omega
  · obtain rfl : j = es.length := by omega
    rw [countP_append, getElem?_eq_none le_rfl, countP_singleton]
    rfl

end List

namespace Node
variable {n : Node} {i j x : Nat} {name : Name} {e : Entry}

/-- How often the entries other than `.` and `..` name inode `i`. -/
def names (n : Node) (i : Nat) : Nat := n.ents.countP fun e => e.inum = i ∧ e.name ≠ dot ∧ e.name ≠ dotdot

/-- A new entry in a free place. -/
theorem names_enter (hfree : FreePlace n.ents j) (hname : cname name ≠ dot ∧ cname name ≠ dotdot) (hx : x ≠ 0) :
    (n.enter j i name).names x = n.names x + if x = i then 1 else 0 := by
  have hcount := countP_putEntry (q := fun e => decide (e.inum = x ∧ e.name ≠ dot ∧ e.name ≠ dotdot))
    (e := ⟨i, cname name⟩) hfree.2
  have hold : (n.ents[j]?.elim 0 fun e => if decide (e.inum = x ∧ e.name ≠ dot ∧ e.name ≠ dotdot) then 1 else 0) = 0 := by
    cases he : n.ents[j]? with
    | none => rfl
    | some e =>
      have h0 : e.inum = 0 := by have := hfree.1; rwa [he] at this
      simp only [Option.elim_some, h0]
      rw [if_neg (by simpa using fun h => absurd h hx.symm)]
  rw [hold, add_zero] at hcount
  refine hcount.trans ?_
  simp [names, hname, eq_comm]

/-- An entry is cleared. -/
theorem names_clear (hj : n.ents[j]? = some e) (hname : e.name ≠ dot ∧ e.name ≠ dotdot) (hx : x ≠ 0) :
    (n.enter j 0 []).names x + (if x = e.inum then 1 else 0) = n.names x := by
  have hlt : j < n.ents.length := (List.getElem?_eq_some_iff.mp hj).1
  have hcount := countP_putEntry (q := fun e => decide (e.inum = x ∧ e.name ≠ dot ∧ e.name ≠ dotdot))
    (e := ⟨0, cname []⟩) hlt.le
  rw [hj] at hcount
  simp only [Option.elim_some, hname, ne_eq, not_false_eq_true, and_true, decide_eq_true_eq] at hcount
  rw [if_neg (c := _ ∧ _) (by simpa using fun h => absurd h hx.symm)] at hcount
  simpa [names, enter, eq_comm] using hcount

end Node

/-! ### The whole tree -/

namespace View
variable {A : View} {i x y : Nat} {n m : Node}

/-- How often inode `x` names inode `i`. -/
def namesIn (A : View) (x i : Nat) : Nat := (A.node x).elim 0 fun n => n.names i

/-- How often inode `i` is named. -/
def names (A : View) (i : Nat) : Nat := ∑ x ∈ Finset.range A.ninodes, A.namesIn x i

def IsDir (A : View) (i : Nat) : Prop := (A.node i).map Node.type = some T_DIR

instance (i : Nat) : Decidable (A.IsDir i) := inferInstanceAs (Decidable (_ = _))

/-- How often inode `x` names the directory `y`. -/
def edge (A : View) (x y : Nat) : Nat := if A.IsDir y then A.namesIn x y else 0

/-- How many directories inode `x` names. -/
def subdirs (A : View) (x : Nat) : Nat := ∑ y ∈ Finset.range A.ninodes, A.edge x y

/-- The view without inode `i`. -/
def erase (A : View) (i : Nat) : View := { A with node := Function.update A.node i none }

theorem isDir_iff (hn : A.node i = some n) : A.IsDir i ↔ n.type = T_DIR := by
  rw [IsDir, hn, Option.map_some, Option.some.injEq]

theorem IsDir.exists (h : A.IsDir i) : ∃ n, A.node i = some n ∧ n.type = T_DIR := by
  simpa [IsDir] using h

theorem namesIn_some (hn : A.node x = some n) : A.namesIn x i = n.names i := by rw [namesIn, hn]; rfl

theorem namesIn_none (hn : A.node x = none) : A.namesIn x i = 0 := by rw [namesIn, hn]; rfl

theorem edge_le : A.edge x y ≤ A.namesIn x y := by
  unfold edge
  split
  · exact le_rfl
  · exact Nat.zero_le _

@[simp] theorem namesIn_setNode_self : (A.setNode x n).namesIn x i = n.names i := namesIn_some setNode_node_self

theorem namesIn_setNode_ne (h : y ≠ x) : (A.setNode x n).namesIn y i = A.namesIn y i := by
  rw [namesIn, setNode_node_ne h]; rfl

theorem isDir_setNode (hn : A.node x = some n) (ht : m.type = n.type) : (A.setNode x m).IsDir i ↔ A.IsDir i := by
  unfold IsDir
  rcases eq_or_ne i x with rfl | hne
  · rw [setNode_node_self, hn, Option.map_some, Option.map_some, ht]
  · rw [setNode_node_ne hne]

/-- One node changes: the names of `i` change by what it held and what it holds. -/
theorem names_setNode (hx : x < A.ninodes) : (A.setNode x m).names i + A.namesIn x i = A.names i + m.names i := by
  have := Run.sum_move_on (f := fun y => A.namesIn y i) (g := fun y => (A.setNode x m).namesIn y i)
    (Finset.mem_range.mpr hx) fun y hy => namesIn_setNode_ne hy
  rwa [namesIn_setNode_self] at this

theorem erase_node_self : (A.erase i).node i = none := Function.update_self ..

theorem erase_node_ne (h : x ≠ i) : (A.erase i).node x = A.node x := Function.update_of_ne h ..

theorem namesIn_erase_self : (A.erase x).namesIn x i = 0 := namesIn_none erase_node_self

theorem namesIn_erase_ne (h : y ≠ x) : (A.erase x).namesIn y i = A.namesIn y i := by
  rw [namesIn, erase_node_ne h]; rfl

theorem names_erase (hx : x < A.ninodes) : (A.erase x).names i + A.namesIn x i = A.names i := by
  have := Run.sum_move_on (f := fun y => A.namesIn y i) (g := fun y => (A.erase x).namesIn y i)
    (Finset.mem_range.mpr hx) fun y hy => namesIn_erase_ne hy
  rwa [namesIn_erase_self, add_zero] at this

/-- The part of one directory in the names of an inode. -/
theorem namesIn_le (hbound : ∀ x n, A.node x = some n → x < A.ninodes) : A.namesIn x i ≤ A.names i := by
  cases hx : A.node x with
  | none => rw [namesIn_none hx]; exact Nat.zero_le _
  | some n =>
    exact Finset.single_le_sum (f := fun x => A.namesIn x i) (fun _ _ => Nat.zero_le _)
      (Finset.mem_range.mpr (hbound x n hx))

theorem edge_le_subdirs (hbound : ∀ x n, A.node x = some n → x < A.ninodes) : A.edge x y ≤ A.subdirs x := by
  by_cases hy : A.IsDir y
  · obtain ⟨n, hn, _⟩ := hy.exists
    exact Finset.single_le_sum (f := fun y => A.edge x y) (fun _ _ => Nat.zero_le _)
      (Finset.mem_range.mpr (hbound y n hn))
  · rw [edge, if_neg hy]; exact Nat.zero_le _

/-- One more edge. -/
theorem subdirs_add {B : View} (hi : i < A.ninodes) {k : Nat}
    (h : ∀ y, B.edge x y = A.edge x y + if y = i then k else 0) (hN : B.ninodes = A.ninodes) : B.subdirs x = A.subdirs x + k := by
  rw [subdirs, subdirs, hN, Finset.sum_congr rfl fun y _ => h y, Finset.sum_add_distrib, Finset.sum_ite_eq',
    if_pos (Finset.mem_range.mpr hi)]

theorem subdirs_congr {B : View} (h : ∀ y, B.edge x y = A.edge x y) (hN : B.ninodes = A.ninodes) :
    B.subdirs x = A.subdirs x := by
  rw [subdirs, subdirs, hN, Finset.sum_congr rfl fun y _ => h y]

end View

end Xv6.Fs
