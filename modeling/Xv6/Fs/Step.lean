import Xv6.Fs.Files

/-! What the system calls do to the file system as its users see it.

    `View.Edit me c` and `View.Move me c` are the changes a call `c` of process `me` makes to the view of
    a file system that is in order. They say what the calls are for: `link` and the calls that create
    put one entry into a directory and `unlink` takes one out, these are the edits; `open`, `close`,
    `chdir`, `fork` and `exit` move the pointers to inodes, and an inode that is left without links and
    without users goes. A call makes at most one edit, and makes it first (`View.Steps`). -/

namespace Xv6.Fs
open Prog Function

/-- The node that `create` makes for `open`, `mkdir` and `mknod`. -/
def Node.made (type major minor : Int16) : Node := ⟨type, major, minor, 1, [], []⟩

/-- A new directory: inode `i` in directory `d`. -/
def Node.newDir (i d : Nat) : Node := ((Node.made T_DIR 0 0).enter 0 i dot).enter 1 d dotdot

/-- Directory `m` without the entry in place `j`, which named a node of type `t`. -/
def Node.without (m : Node) (j : Nat) (t : Int16) : Node :=
  { m.enter j 0 [] with nlink := if t = T_DIR then m.nlink - 1 else m.nlink }

/-- The path of a call that creates a file or a device, and what it creates. -/
def Call.makes : Call → Option (Option (List UInt8) × Node)
  | .open path omode => if omode &&& O_CREATE ≠ 0 then some (path, Node.made T_FILE 0 0) else none
  | .mknod path major minor => some (path, Node.made T_DEVICE major minor)
  | _ => none

/-- A call that closes files. -/
def Call.closes : Call → Bool
  | .close _ | .exit => true
  | _ => false

/-- A call that changes the contents of files. -/
def Call.stores : Call → Bool
  | .write .. => true
  | .open _ omode => omode &&& O_TRUNC != 0
  | _ => false

namespace View

/-- The last element of `path` can be entered in directory `d` at place `j`. -/
structure Place (A : View) (me : Pid) (path : Option (List UInt8)) (d : Nat) (m : Node) (name : Name) (j : Nat) :
    Prop where
  parent : (argstr path).bind (A.parent me) = some (d, name)
  node : A.node d = some m
  dir : m.type = T_DIR
  absent : lookupName m.ents (cname name) = none
  free : FreePlace m.ents j

/-- Entry `e` in place `j` of directory `d` is the one that `path` names. -/
structure Names (A : View) (me : Pid) (path : Option (List UInt8)) (d : Nat) (m : Node) (name : Name) (j : Nat)
    (e : Entry) : Prop where
  parent : (argstr path).bind (A.parent me) = some (d, name)
  node : A.node d = some m
  dir : m.type = T_DIR
  found : lookupName m.ents (cname name) = some e
  place : m.ents[j]? = some e
  not_dot : cname name ≠ dot
  not_dotdot : cname name ≠ dotdot

/-- A number for a new inode. -/
structure Fresh (A : View) (i : Nat) : Prop where
  free : A.node i = none
  pos : 0 < i
  lt : i < A.ninodes

/-- Changes to the directory tree. -/
inductive Edit (me : Pid) : Call → View → View → Prop
  | link {A : View} {old new : Option (List UInt8)} {i d j : Nat} {n m : Node} {name : Name} :
    (argstr old).bind (A.resolve me) = some i → A.node i = some n → n.type ≠ T_DIR →
    A.Place me new d m name j →
    Edit me (.link old new) A ((A.setNode i { n with nlink := n.nlink + 1 }).setNode d (m.enter j i name))
  | unlink {A : View} {path : Option (List UInt8)} {d j : Nat} {n m : Node} {name : Name} {e : Entry} :
    A.Names me path d m name j e → e.inum ≠ d → A.node e.inum = some n → 1 ≤ n.nlink.toInt →
    (n.type = T_DIR → noEntries n.ents) →
    Edit me (.unlink path) A
      ((((A.setNode d (m.without j n.type)).reap d).setNode e.inum { n with nlink := n.nlink - 1 }).reap e.inum)
  | create {A : View} {c : Call} {path : Option (List UInt8)} {i d j : Nat} {n m : Node} {name : Name} :
    c.makes = some (path, n) → A.Place me path d m name j → A.Fresh i →
    Edit me c A ((A.setNode i n).setNode d (m.enter j i name))
  | mkdir {A : View} {path : Option (List UInt8)} {i d j : Nat} {m : Node} {name : Name} :
    A.Place me path d m name j → A.Fresh i →
    Edit me (.mkdir path) A
      ((A.setNode i (Node.newDir i d)).setNode d { m.enter j i name with nlink := m.nlink + 1 })

/-- Changes to the contents of files and to the pointers of files and processes. -/
inductive Move (me : Pid) : Call → View → View → Prop
  | store {A : View} {c : Call} {f : FileId} {i : Nat} {n : Node} {data : List UInt8} :
    c.stores → A.file f = some i → A.node i = some n → n.type ≠ T_DIR →
    Move me c A (A.setNode i { n with data := data })
  | open {A : View} {path : Option (List UInt8)} {omode : UInt32} {f : FileId} {i : Nat} :
    A.file f = none → (A.node i).isSome → Move me (.open path omode) A (A.setFile f (some i))
  | close {A : View} {c : Call} {f : FileId} {i : Nat} :
    c.closes → A.file f = some i → Move me c A ((A.setFile f none).reap i)
  | chdir {A : View} {path : Option (List UInt8)} {i i₀ : Nat} {n : Node} :
    (argstr path).bind (A.resolve me) = some i → A.node i = some n → n.type = T_DIR → A.cwd me = some i₀ →
    Move me (.chdir path) A ((A.setCwd me (some i)).reap i₀)
  | fork {A : View} {np : Pid} {i : Nat} :
    A.cwd me = some i → A.cwd np = none → Move me (.fork (some np)) A (A.setCwd np (some i))
  | exit {A : View} {i : Nat} :
    A.cwd me = some i → Move me .exit A ((A.setCwd me none).reap i)

/-- What a call has done so far. -/
inductive Steps (me : Pid) (c : Call) (A : View) : View → Prop
  | refl : Steps me c A A
  | edit {B : View} : Edit me c A B → Steps me c A B
  | move {B C : View} : Steps me c A B → Move me c B C → Steps me c A C

attribute [refl] Steps.refl

/-- In order: inodes without links are in use, and no link count is about to become zero by itself. -/
structure Tame (A : View) : Prop where
  quiet : A.Quiet
  count : ∀ i n, A.node i = some n → n.nlink ≠ -1

variable {A : View} {i : Nat} {n n' : Node}

theorem Quiet.setNode (h : A.Quiet) (hn : n.nlink = 0 → ∃ m, A.node i = some m ∧ m.nlink = 0) :
    (A.setNode i n).Quiet := by
  intro j m hm h0
  change update A.node i (some n) j = some m at hm
  rcases eq_or_ne j i with rfl | hne
  · rw [update_self] at hm
    obtain rfl := Option.some.inj hm
    obtain ⟨m, hm, h0⟩ := hn h0
    exact h j m hm h0
  · rw [update_of_ne hne] at hm
    exact h j m hm h0

theorem isSome_setNode {j : Nat} (h : (A.node j).isSome) : ((A.setNode i n).node j).isSome := by
  change (update A.node i (some n) j).isSome
  rcases eq_or_ne j i with rfl | hne
  · rw [update_self]; rfl
  · rwa [update_of_ne hne]

theorem Closed.setNode (h : A.Closed) (hn : ∀ e ∈ n.ents, e.inum ≠ 0 → (A.node e.inum).isSome) :
    (A.setNode i n).Closed := by
  refine ⟨isSome_setNode h.root, fun d m hm e he h0 => isSome_setNode ?_⟩
  change update A.node i (some n) d = some m at hm
  rcases eq_or_ne d i with rfl | hne
  · rw [update_self] at hm
    obtain rfl := Option.some.inj hm
    exact hn e he h0
  · rw [update_of_ne hne] at hm
    exact h.ents d m hm e he h0

@[simp] theorem setNode_node_self : (A.setNode i n).node i = some n := update_self ..

theorem setNode_node_ne {j : Nat} (h : j ≠ i) : (A.setNode i n).node j = A.node j := update_of_ne h ..

theorem setNode_setNode : (A.setNode i n).setNode i n' = A.setNode i n' := by
  simp only [View.setNode, update_idem]

theorem setNode_self (h : A.node i = some n) : A.setNode i n = A := by
  rw [View.setNode, ← h, update_eq_self]

/-- Paths depend on types and entries only. -/
theorem walk_setNode (hn : A.node i = some n) (ht : n'.type = n.type) (he : n'.ents = n.ents) (p : Bool) :
    ∀ (fuel j : Nat) (path : Name), walk (A.setNode i n').node p j path fuel = walk A.node p j path fuel
  | 0, _, _ => rfl
  | fuel + 1, j, path => by
    rw [walk, walk]
    cases skipelem path with
    | none => rfl
    | some r =>
      dsimp only
      by_cases hji : j = i
      · rw [hji, setNode_node_self, hn, Option.bind_some, Option.bind_some, ht, he]
        simp only [walk_setNode hn ht he p fuel]
      · rw [setNode_node_ne hji]
        simp only [walk_setNode hn ht he p fuel]

theorem parent_setNode (hn : A.node i = some n) (ht : n'.type = n.type) (he : n'.ents = n.ents) (me : Pid)
    (path : Name) : (A.setNode i n').parent me path = A.parent me path := by
  unfold View.parent
  simp only [walk_setNode hn ht he]
  rfl

end View

end Xv6.Fs
