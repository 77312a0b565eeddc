import Xv6.Fs.Order
import Xv6.Fs.Boot

/-! The directory structure along every run.

    A view is `InOrder` if its tree is, with no debts, and every inode has links or users. Calls keep it
    so as long as no link count is raised beyond the largest `short`: each edit is a few steps of
    `Order`, and the moves only take pointers away from inodes that are reaped if it was the last. -/

namespace Xv6.Fs
open Prog Option

namespace View
variable {A B : View} {δ : Nat → Int} {i d x : Nat} {n m : Node} {f : FileId} {p : Pid} {c : Call}

/-- Inode `x` has links or users. -/
def Settled (A : View) (x : Nat) : Prop := ∀ n, A.node x = some n → n.nlink = 0 → A.InUse x

structure InOrder (A : View) : Prop where
  order : A.Order fun _ => 0
  settled : ∀ x, A.Settled x

/-- No link count is raised beyond 32767. -/
def LinkRoom (A : View) (me : Pid) : Call → Prop
  | .link old _ => ∀ i ∈ (argstr old).bind (A.resolve me), ∀ n ∈ A.node i, n.nlink ≠ 32767
  | .mkdir path => ∀ q ∈ (argstr path).bind (A.parent me), ∀ n ∈ A.node q.1, n.nlink ≠ 32767
  | _ => True

instance (me : Pid) : ∀ c, Decidable (A.LinkRoom me c)
  | .link old _ => inferInstanceAs (Decidable (∀ i ∈ (argstr old).bind (A.resolve me), ∀ n ∈ A.node i, n.nlink ≠ 32767))
  | .mkdir path =>
    inferInstanceAs (Decidable (∀ q ∈ (argstr path).bind (A.parent me), ∀ n ∈ A.node q.1, n.nlink ≠ 32767))
  | .dup _ | .read .. | .write .. | .close _ | .fstat .. | .unlink _ | .open .. | .mknod .. | .chdir _ | .exec .. | .pipe ..
  | .fork _ | .exit => isTrue trivial

theorem Order.names_le_nlink (h : A.Order fun _ => 0) (hn : A.node i = some n) : A.names i ≤ n.nlink.toInt := by
  by_cases ht : n.type = T_DIR
  · have := h.dirs i n hn ht
    split at this <;> omega
  · have := h.files i n hn ht
    omega

theorem InOrder.tame (h : A.InOrder) : A.Tame where
  quiet := fun i n hn h0 => by
    refine ⟨h.settled i n hn h0, ?_⟩
    rintro rfl
    have := h.order.dirs _ n hn ((isDir_iff hn).mp h.order.root)
    rw [h0, if_pos rfl] at this
    change (0 : Int) = _ at this
    omega
  count := fun i n hn h1 => by
    have := (Int.natCast_nonneg _).trans (h.order.names_le_nlink hn)
    rw [h1] at this
    exact absurd this (by decide)

/-! ### Reaping -/

theorem reap_cases (A : View) (i : Nat) :
    A.reap i = A ∧ A.Settled i ∨ A.reap i = A.erase i ∧ ∃ n, A.node i = some n ∧ n.nlink = 0 := by
  by_cases h : (∃ n, A.node i = some n ∧ n.nlink = 0) ∧ ¬A.InUse i
  · exact .inr ⟨if_pos h, h.1⟩
  · exact .inl ⟨if_neg h, fun n hn h0 => by_contra fun hno => h ⟨⟨n, hn, h0⟩, hno⟩⟩

theorem Order.reap (h : A.Order δ) (hδ : δ i = 0) : (A.reap i).Order δ := by
  rcases A.reap_cases i with ⟨heq, _⟩ | ⟨heq, n, hn, h0⟩
  · rw [heq]; exact h
  · rw [heq]; exact h.erase hn h0 hδ

theorem settled_reap_self : (A.reap i).Settled i := by
  rcases A.reap_cases i with ⟨heq, h⟩ | ⟨heq, _⟩
  · rw [heq]; exact h
  · rw [heq]
    intro n hn
    rw [erase_node_self] at hn
    cases hn

theorem Settled.reap (h : A.Settled x) : (A.reap i).Settled x := by
  rcases A.reap_cases i with ⟨heq, _⟩ | ⟨heq, _⟩
  · rw [heq]; exact h
  · rw [heq]
    intro n hn h0
    rcases eq_or_ne x i with rfl | hne
    · rw [erase_node_self] at hn
      cases hn
    · rw [erase_node_ne hne] at hn
      exact h n hn h0

theorem Settled.setNode (h : A.Settled x) (hx : x = i → n.nlink = 0 → A.InUse x) : (A.setNode i n).Settled x := by
  intro q hq h0
  rcases eq_or_ne x i with rfl | hne
  · rw [setNode_node_self] at hq
    exact hx rfl (some.inj hq ▸ h0)
  · rw [setNode_node_ne hne] at hq
    exact h q hq h0

/-! ### Arithmetic of link counts -/

theorem toInt_succ {a : Int16} (h : a ≠ 32767) : (a + 1).toInt = a.toInt + 1 := by
  have h1 := a.toInt_lt
  have h2 := a.le_toInt
  have h3 : a.toInt ≠ 32767 := fun heq => h (Int16.toInt_inj.mp heq)
  rw [Int16.toInt_add]
  change (a.toInt + 1).bmod 65536 = _
  rw [Int.bmod_eq_of_le] <;> omega

theorem toInt_pred {a : Int16} (h : 1 ≤ a.toInt) : (a - 1).toInt = a.toInt - 1 := by
  have h1 := a.toInt_lt
  rw [Int16.toInt_sub]
  change (a.toInt - 1).bmod 65536 = _
  rw [Int.bmod_eq_of_le] <;> omega

/-! ### Edits -/

section Edits
variable {path old new : Option (List UInt8)} {name : Name} {j : Nat} {e : Entry}

theorem InOrder.link (h : A.InOrder) (hn : A.node i = some n) (hnt : n.type ≠ T_DIR) (hroom : n.nlink ≠ 32767)
    (hp : A.Place p new d m name j) :
    ((A.setNode i { n with nlink := n.nlink + 1 }).setNode d (m.enter j i name)).InOrder := by
  have hdi : d ≠ i := by
    rintro rfl
    exact hnt (some.inj (hp.node.symm.trans hn) ▸ hp.dir)
  have hnonneg := h.order.names_le_nlink hn
  have hsucc := toInt_succ hroom
  have h1 : (A.setNode i { n with nlink := n.nlink + 1 }).Order fun x => if x = i then 1 else 0 :=
    h.order.setMeta hn rfl rfl hsucc fun x => by simp
  refine ⟨h1.enter (by rw [setNode_node_ne hdi]; exact hp.node) hp.dir hp.free hp.absent setNode_node_self
    (fun ht => absurd ht hnt) fun x => ?_, fun x => ?_⟩
  · rw [if_neg (c := _ ∧ _) fun h => hnt h.2]
    omega
  · refine ((h.settled x).setNode fun _ h0 => ?_).setNode fun hx h0 => ?_
    · dsimp only at h0
      rw [h0] at hsucc
      change (0 : Int) = _ at hsucc
      omega
    · subst hx
      exact h.settled x m hp.node h0

theorem InOrder.unlink (h : A.InOrder) (hp : A.Names p path d m name j e) (hed : e.inum ≠ d) (hn : A.node e.inum = some n)
    (hlink : 1 ≤ n.nlink.toInt) : ((((A.setNode d (m.without j n.type)).reap d).setNode e.inum
      { n with nlink := n.nlink - 1 }).reap e.inum).InOrder := by
  obtain ⟨_, he0, hename⟩ := lookupName_some hp.found
  have hname : e.name ≠ dot ∧ e.name ≠ dotdot := by rw [hename]; exact ⟨hp.not_dot, hp.not_dotdot⟩
  -- the entry goes, and with a directory the link of its `..`
  have h1 : (A.setNode d (m.enter j 0 [])).Order fun x =>
      (if x = e.inum then 1 else 0) + if x = d ∧ n.type = T_DIR then 1 else 0 :=
    h.order.clear hp.node hp.dir hp.place hname hn fun x => by simp
  have h2 : (A.setNode d (m.without j n.type)).Order fun x => if x = e.inum then 1 else 0 := by
    have hset : A.setNode d (m.without j n.type) = (A.setNode d (m.enter j 0 [])).setNode d (m.without j n.type) :=
      setNode_setNode.symm
    rw [hset]
    by_cases hnt : n.type = T_DIR
    · refine h1.setMeta (k := -1) setNode_node_self rfl rfl ?_ fun x => by simp only [hnt, and_true]; split <;> split <;> rfl
      have hedge : 0 < A.edge d e.inum := by
        rw [edge, if_pos ((isDir_iff hn).mpr hnt)]
        exact (h.order.exists_of_name hp.node hp.place he0 hname).1
      have := edge_le_subdirs (x := d) (y := e.inum) h.order.bound
      have hd := h.order.dirs d m hp.node hp.dir
      have hpos : 1 ≤ m.nlink.toInt := by split at hd <;> omega
      rw [Node.without, if_pos hnt]
      exact toInt_pred hpos
    · refine h1.setMeta (k := 0) setNode_node_self rfl rfl ?_ fun x => by simp [hnt]
      rw [Node.without, if_neg hnt]; exact (Int.add_zero _).symm
  have h3 := h2.reap (i := d) (if_neg hed.symm)
  have hn3 : ((A.setNode d (m.without j n.type)).reap d).node e.inum = some n := by
    rw [reap_node_ne hed, setNode_node_ne hed, hn]
  have hpred := toInt_pred hlink
  have h4 : (((A.setNode d (m.without j n.type)).reap d).setNode e.inum { n with nlink := n.nlink - 1 }).Order
      fun _ => 0 := h3.setMeta hn3 rfl rfl (by rw [hpred]; rfl) fun x => by split <;> rfl
  refine ⟨h4.reap rfl, fun x => ?_⟩
  rcases eq_or_ne x e.inum with rfl | hxe
  · exact settled_reap_self
  refine Settled.reap (Settled.setNode ?_ fun hx => absurd hx hxe)
  rcases eq_or_ne x d with rfl | hxd
  · exact settled_reap_self
  · exact Settled.reap ((h.settled x).setNode fun hx => absurd hx hxd)

theorem InOrder.create (h : A.InOrder) (hnt : n.type ≠ T_DIR) (hents : n.ents = []) (hlink : n.nlink = 1)
    (hp : A.Place p path d m name j) (hi : A.Fresh i) : ((A.setNode i n).setNode d (m.enter j i name)).InOrder := by
  have hdi : d ≠ i := by
    rintro rfl
    exact absurd (hp.node.symm.trans hi.free) (some_ne_none m)
  have h1 : (A.setNode i n).Order fun x => if x = i then 1 else 0 :=
    h.order.add hi (fun _ => hents) (fun h => absurd h hnt) (by rw [hlink]; rfl) fun _ => rfl
  refine ⟨h1.enter (by rw [setNode_node_ne hdi]; exact hp.node) hp.dir hp.free hp.absent setNode_node_self
    (fun ht => absurd ht hnt) fun x => ?_, fun x => ?_⟩
  · rw [if_neg (c := _ ∧ _) fun h => hnt h.2]
    omega
  · refine ((h.settled x).setNode fun _ h0 => ?_).setNode fun hx h0 => ?_
    · rw [hlink] at h0
      cases h0
    · subst hx
      exact h.settled x m hp.node h0

theorem newDir_ents (i d : Nat) : (Node.newDir i d).ents = [⟨i, dot⟩, ⟨d, dotdot⟩] := rfl

theorem InOrder.mkdir (h : A.InOrder) (hroom : m.nlink ≠ 32767) (hp : A.Place p path d m name j) (hi : A.Fresh i) :
    ((A.setNode i (Node.newDir i d)).setNode d { m.enter j i name with nlink := m.nlink + 1 }).InOrder := by
  have hdi : d ≠ i := by
    rintro rfl
    exact absurd (hp.node.symm.trans hi.free) (some_ne_none m)
  have hroot : i ≠ ROOTINO := by
    rintro rfl
    obtain ⟨q, hq, _⟩ := h.order.root.exists
    rw [hi.free] at hq
    cases hq
  have hsucc := toInt_succ hroom
  have hnonneg := h.order.names_le_nlink hp.node
  have h1 : (A.setNode i (Node.newDir i d)).Order fun x => if x = i then 1 else 0 :=
    h.order.add hi (fun hno => absurd rfl hno) (fun _ => ⟨d, h.order.pos hp.node, newDir_ents i d⟩) rfl fun _ => rfl
  have hzero := h1.dirs i _ setNode_node_self rfl
  rw [if_neg hroot, if_pos rfl] at hzero
  change (1 : Int) = _ at hzero
  have h2 : ((A.setNode i (Node.newDir i d)).setNode d (m.enter j i name)).Order fun x => if x = d then -1 else 0 :=
    h1.enter (by rw [setNode_node_ne hdi]; exact hp.node) hp.dir hp.free hp.absent setNode_node_self
      (fun _ => ⟨by omega, by omega, hroot, hdi.symm⟩) fun x => by
        simp only [show (Node.newDir i d).type = T_DIR from rfl, and_true]
        split <;> split <;> omega
  have h3 : ((A.setNode i (Node.newDir i d)).setNode d { m.enter j i name with nlink := m.nlink + 1 }).Order
      fun _ => 0 := by
    rw [← setNode_setNode (n := m.enter j i name)]
    exact h2.setMeta setNode_node_self rfl rfl hsucc fun x => by split <;> rfl
  refine ⟨h3, fun x => ((h.settled x).setNode fun _ h0 => ?_).setNode fun _ h0 => ?_⟩
  · cases h0
  · dsimp only at h0
    rw [h0] at hsucc
    change (0 : Int) = _ at hsucc
    omega

/-- What `open` and `mknod` create has one link and no entries. -/
theorem Call.makes_file (h : c.makes = some (path, n)) : n.type ≠ T_DIR ∧ n.ents = [] ∧ n.nlink = 1 := by
  unfold Call.makes at h
  split at h
  · split at h
    · obtain ⟨_, rfl⟩ := Prod.mk.inj (some.inj h)
      exact ⟨by decide, rfl, rfl⟩
    · cases h
  · obtain ⟨_, rfl⟩ := Prod.mk.inj (some.inj h)
    exact ⟨by change T_DEVICE ≠ T_DIR; decide, rfl, rfl⟩
  · cases h

theorem InOrder.edit (h : A.InOrder) (hroom : A.LinkRoom p c) (he : Edit p c A B) : B.InOrder := by
  cases he with
  | link hold hn hnt hplace => exact h.link hn hnt (hroom _ hold _ hn) hplace
  | unlink hnames hne hn hlink _ => exact h.unlink hnames hne hn hlink
  | create hmakes hplace hfresh =>
    obtain ⟨hnt, hents, hlink⟩ := Call.makes_file hmakes
    exact h.create hnt hents hlink hplace hfresh
  | mkdir hplace hfresh => exact h.mkdir (hroom _ hplace.parent _ hplace.node) hplace hfresh

end Edits

/-! ### Moves -/

theorem Order.setPointers (h : A.Order δ) (file : FileId → Option Nat) (cwd : Pid → Option Nat) :
    ({ A with file := file, cwd := cwd } : View).Order δ :=
  ⟨h.zero, h.bound, h.root, h.leaf, h.dots, h.differ, h.free, h.once, h.rootFree, h.acyclic, h.dirs, h.files⟩

theorem InUse.setFile (h : A.InUse x) (hx : A.file f ≠ some x) (y : Option Nat) : (A.setFile f y).InUse x := by
  rcases h with ⟨g, hg⟩ | hcwd
  · have hgf : g ≠ f := by
      rintro rfl
      exact hx hg
    exact .inl ⟨g, (Function.update_of_ne hgf ..).trans hg⟩
  · exact .inr hcwd

theorem InUse.setCwd (h : A.InUse x) (hx : A.cwd p ≠ some x) (y : Option Nat) : (A.setCwd p y).InUse x := by
  rcases h with hfile | ⟨q, hq⟩
  · exact .inl hfile
  · have hqp : q ≠ p := by
      rintro rfl
      exact hx hq
    exact .inr ⟨q, (Function.update_of_ne hqp ..).trans hq⟩

/-- Process `p` leaves its directory. -/
theorem InOrder.leave (h : A.InOrder) (hi : A.cwd p = some i) (y : Option Nat) : ((A.setCwd p y).reap i).InOrder := by
  refine ⟨(h.order.setPointers A.file _).reap rfl, fun x => ?_⟩
  rcases eq_or_ne x i with rfl | hne
  · exact settled_reap_self
  · refine Settled.reap fun n hn h0 => (h.settled x n hn h0).setCwd ?_ y
    rw [hi]; exact fun heq => hne (some.inj heq).symm

theorem InOrder.move (h : A.InOrder) (hm : Move p c A B) : B.InOrder := by
  cases hm with
  | @store _ _ f i n data _ _ hn _ =>
    refine ⟨h.order.setMeta (k := 0) hn rfl rfl (Int.add_zero _).symm fun x => by simp, fun x => ?_⟩
    refine (h.settled x).setNode fun hx h0 => ?_
    subst hx
    exact h.settled x n hn h0
  | «open» hfile _ =>
    refine ⟨h.order.setPointers _ A.cwd, fun x n hn h0 => (h.settled x n hn h0).setFile ?_ _⟩
    rw [hfile]; exact (some_ne_none x).symm
  | @close _ _ f i _ hi =>
    refine ⟨(h.order.setPointers _ A.cwd).reap rfl, fun x => ?_⟩
    rcases eq_or_ne x i with rfl | hne
    · exact settled_reap_self
    · refine Settled.reap fun n hn h0 => (h.settled x n hn h0).setFile ?_ none
      rw [hi]; exact fun heq => hne (some.inj heq).symm
  | chdir _ _ _ hi => exact h.leave hi _
  | fork _ hnp =>
    refine ⟨h.order.setPointers A.file _, fun x n hn h0 => (h.settled x n hn h0).setCwd ?_ _⟩
    rw [hnp]; exact (some_ne_none x).symm
  | exit hi => exact h.leave hi none

theorem InOrder.steps (h : A.InOrder) (hroom : A.LinkRoom p c) (hs : Steps p c A B) : B.InOrder := by
  induction hs with
  | refl => exact h
  | edit he => exact h.edit hroom he
  | move _ hm ih => exact ih.move hm

end View

variable {sb : Super} {disk : Nat → Block} {s : St} {σ σ' : Sys} {p : Pid} {call : Call} {calls : List (Pid × Call)}

/-! ### Runs -/

/-- The state between two calls with its tree in order. -/
structure Orderly (sb : Super) (s : St) : Prop where
  rest : Rest sb s
  tree : (view sb s).InOrder

/-- An image as `mkfs` makes it. -/
structure Consistent (sb : Super) (c : Nat → Block) : Prop extends Image sb c where
  tree : (view sb (boot c).fs).InOrder

theorem Consistent.orderly (h : Consistent sb disk) : Orderly sb (boot disk).fs := ⟨h.toImage.rest, h.tree⟩

theorem Orderly.syscall (h : Orderly sb σ.fs) (hroom : (view sb σ.fs).LinkRoom p call)
    (hcall : syscall sb σ (p, call) = some σ') : Orderly sb σ'.fs := by
  obtain ⟨hready, r, hrun⟩ := syscall_eq_some hcall
  have hserved := (h.rest.served hready).1 r σ' hrun
  exact ⟨hserved.inv.rest, h.tree.steps hroom (hserved.steps h.tree.tame)⟩

/-- Along the run no inode is given more than 32767 links. -/
abbrev LinksBounded (sb : Super) (σ : Sys) (calls : List (Pid × Call)) : Prop :=
  Run.Along (syscall sb) (fun σ pc => (view sb σ.fs).LinkRoom pc.1 pc.2) σ calls

theorem run_orderly (h : Orderly sb σ.fs) (hroom : LinksBounded sb σ calls)
    (hrun : Run.run (syscall sb) σ calls = some σ') : Orderly sb σ'.fs :=
  Run.run_along (I := fun σ => Orderly sb σ.fs) (fun _ _ _ h hroom hcall => h.syscall hroom hcall) h hroom hrun

/-- What directories look like. -/
structure Directories (sb : Super) (s : St) : Prop where
  size : ∀ i < sb.ninodes, (dinode sb s.cache i).type = T_DIR → (dinode sb s.cache i).size.toNat % direntSize = 0
  dots : ∀ i n, tree sb s.cache i = some n → n.type = T_DIR →
    n.ents[0]? = some ⟨i, dot⟩ ∧ ∃ q, n.ents[1]? = some ⟨q, dotdot⟩
  differ : ∀ i n, tree sb s.cache i = some n → NamesDiffer n.ents
  once : ∀ i, (view sb s).IsDir i → i ≠ ROOTINO → (view sb s).names i ≤ 1
  acyclic : Acyclic fun x y => 0 < (view sb s).edge x y
  readonly : ∀ f, (s.file f).type.hasIno → (s.file f).writable = true →
    (dinode sb s.cache (s.inum (s.file f).ip)).type ≠ T_DIR

theorem Orderly.directories (h : Orderly sb s) : Directories sb s where
  size := fun i hi ht => h.rest.dirSize i ⟨hi, by rw [ht]; decide⟩ ht
  dots := fun i n hn ht => by
    obtain ⟨q, es, _, hents⟩ := h.tree.order.dots i n hn ht
    rw [hents]; exact ⟨rfl, q, rfl⟩
  differ := h.tree.order.differ
  once := fun i hi _ => h.tree.order.once i hi
  acyclic := h.tree.order.acyclic
  readonly := h.rest.readonly

/-- DIRECTORIES KEEP THEIR STRUCTURE: after every run from an image in order in which no inode is given
    more than 32767 links, every directory consists of whole entries, starts with `.` and `..`, has
    different names and, but for the root, at most one name; directories form no cycle, and none is open
    for writing. -/
theorem directories_sound (h : Consistent sb disk) (hroom : LinksBounded sb (boot disk) calls)
    (hrun : Run.run (syscall sb) (boot disk) calls = some σ) : Directories sb σ.fs :=
  (run_orderly h.orderly hroom hrun).directories

/-- A file system that consists of its root directory. -/
theorem View.InOrder.of_root {A : View} {n : Node} (hN : ROOTINO < A.ninodes) (hn : A.node ROOTINO = some n)
    (hother : ∀ i, i ≠ ROOTINO → A.node i = none) (hdir : n.type = T_DIR) (hlink : n.nlink = 1)
    (hents : n.ents = [⟨ROOTINO, dot⟩, ⟨ROOTINO, dotdot⟩]) : A.InOrder := by
  have hnode : ∀ i q, A.node i = some q → i = ROOTINO ∧ q = n := fun i q hq => by
    rcases eq_or_ne i ROOTINO with rfl | hne
    · exact ⟨rfl, (some.inj (hn.symm.trans hq)).symm⟩
    · exact absurd ((hother i hne).symm.trans hq) (some_ne_none q).symm
  have hin : ∀ x y, A.namesIn x y = 0 := fun x y => by
    cases hx : A.node x with
    | none => exact View.namesIn_none hx
    | some q =>
      obtain ⟨_, rfl⟩ := hnode x q hx
      rw [View.namesIn_some hx]
      simp [Node.names, hents]
  have hnames : ∀ x, A.names x = 0 := fun x => Finset.sum_eq_zero fun y _ => hin y x
  have hedge : ∀ x y, A.edge x y = 0 := fun x y => Nat.le_zero.mp (View.edge_le.trans (hin x y).le)
  have hsub : ∀ x, A.subdirs x = 0 := fun x => Finset.sum_eq_zero fun y _ => hedge x y
  refine ⟨⟨hother 0 (by decide), fun i q hq => ?_, ?_, fun i q hq ht => ?_, fun i q hq _ => ?_, fun i q hq => ?_,
    fun i _ _ => hnames i, fun i _ => (hnames i).le.trans (Nat.zero_le 1), hnames _, fun x hx => ?_, fun i q hq _ => ?_,
    fun i q hq ht => ?_⟩, fun i q hq h0 => ?_⟩
  · rw [(hnode i q hq).1]; exact hN
  · exact (View.isDir_iff hn).mpr hdir
  · exact absurd ((hnode i q hq).2 ▸ hdir) ht
  · obtain ⟨rfl, rfl⟩ := hnode i q hq
    exact ⟨ROOTINO, [], by decide, hents⟩
  · obtain ⟨rfl, rfl⟩ := hnode i q hq
    rw [hents]; exact View.Order.differ_dots
  · obtain ⟨y, hy, _⟩ := Relation.TransGen.head'_iff.mp hx
    rw [hedge] at hy
    exact absurd hy (lt_irrefl 0)
  · obtain ⟨rfl, rfl⟩ := hnode i q hq
    rw [hnames, hsub, if_pos rfl, hlink]; rfl
  · exact absurd ((hnode i q hq).2 ▸ hdir) ht
  · rw [(hnode i q hq).2, hlink] at h0
    cases h0

theorem consistent_emptyDisk : Consistent small emptyDisk where
  toImage := image_emptyDisk
  tree := by
    have htype : ∀ i < small.ninodes, i ≠ ROOTINO → (dinode small emptyDisk i).type = 0 := by decide +kernel
    have hroot : tree small emptyDisk ROOTINO = some (nodeOf emptyDisk (dinode small emptyDisk ROOTINO)) :=
      tree_live ⟨small.root_lt, by decide +kernel⟩
    refine View.InOrder.of_root small.root_lt hroot (fun i hi => ?_) ?_ ?_ ?_
    · by_cases hlt : i < small.ninodes
      · exact tree_free (htype i hlt hi)
      · exact if_neg fun h => hlt h.1
    · decide +kernel
    · decide +kernel
    · decide +kernel

theorem directories_sound_mkdir : ∃ σ,
    Run.run (syscall small) (boot emptyDisk) [(initproc, .mkdir (some [47, 97]))] = some σ ∧ Directories small σ.fs := by
  have hrun : (Run.run (syscall small) (boot emptyDisk) [(initproc, .mkdir (some [47, 97]))]).isSome := by decide +kernel
  have hroom : LinksBounded small (boot emptyDisk) [(initproc, .mkdir (some [47, 97]))] := by decide +kernel
  obtain ⟨σ, hσ⟩ := isSome_iff_exists.mp hrun
  exact ⟨σ, hσ, directories_sound consistent_emptyDisk hroom hσ⟩

/-! ### Refinement, link counts and panics -/

/-- What has a name in use has a link. -/
theorem Orderly.linked (h : Orderly sb s) {path : Option (List UInt8)} {d j : Nat} {n m : Node} {name : Name} {e : Entry}
    (hN : (view sb s).Names p path d m name j e) (hn : (view sb s).node e.inum = some n) : 1 ≤ n.nlink.toInt := by
  obtain ⟨-, h0, hname⟩ := lookupName_some hN.found
  obtain ⟨hpos, -⟩ := h.tree.order.exists_of_name hN.node hN.place h0 ⟨hname ▸ hN.not_dot, hname ▸ hN.not_dotdot⟩
  have hle := View.namesIn_le (x := d) (i := e.inum) h.tree.order.bound
  have := h.tree.order.names_le_nlink hn
  omega

/-- The panics of a full inode table, of `init` exiting and of a `..` that leads nowhere. -/
def tight (e : Panic) : Prop := e = .igetNoInodes ∨ e = .initExiting ∨ e = .ilockNoType

theorem Orderly.serves (h : Orderly sb s) (hready : ready s p call) : Serves sb (tolerant tight p) call s where
  inv := h.rest.serve fun _ hb => hb.elim
  running := running_of_ready hready
  full := .inl rfl
  exiting := .inr (.inl rfl)
  strict := fun hno => absurd (.inr (.inr rfl)) hno
  nlinks := fun _ => ⟨h.tree.tame, fun _ _ _ _ _ _ _ hN hn => h.linked hN hn⟩
  atEnd := fun _ _ _ _ _ _ => trivial
  atFault := fun _ _ _ _ _ _ _ _ => trivial

/-- `mkdir("/a")`. -/
def mkdirA : List (Pid × Call) := [(initproc, .mkdir (some [47, 97]))]

theorem mkdirA_run : ∃ σ, Run.run (syscall small) (boot emptyDisk) mkdirA = some σ ∧
    LinksBounded small (boot emptyDisk) mkdirA ∧ (view small σ.fs).resolve initproc [47, 97] = some 2 := by
  have hrun : (Run.run (syscall small) (boot emptyDisk) mkdirA).any (fun σ =>
      decide ((view small σ.fs).resolve initproc [47, 97] = some 2)) = true := by decide +kernel
  obtain ⟨σ, hσ, hsome⟩ := (any_eq_true _ _).mp hrun
  exact ⟨σ, hσ, by decide +kernel, of_decide_eq_true hsome⟩

section Runs
variable (h : Consistent sb disk) (hroom : LinksBounded sb (boot disk) calls)
  (hrun : Run.run (syscall sb) (boot disk) calls = some σ)
include h hroom hrun

/-- THE SYSTEM CALLS REFINE THE OPERATIONS ON THE TREE: seen through `view`, a run of system calls is a run in
    which every call makes the changes that `View.Steps` has for it, and no others. -/
theorem syscalls_refine :
    Run.Runs (fun A pc B => View.Steps pc.1 pc.2 A B) (view sb (boot disk).fs) calls (view sb σ.fs) := by
  refine Run.run_refines (I := fun σ => Orderly sb σ.fs) (v := fun σ : Sys => view sb σ.fs) ?_ h.orderly hroom hrun
  intro σ pc σ' hσ hroom hcall
  obtain ⟨hready, r, hdone⟩ := syscall_eq_some hcall
  exact ⟨hσ.syscall hroom hcall, ((hσ.rest.served hready).1 r σ' hdone).steps hσ.tree.tame⟩

/-- LINK COUNTS COVER THE NAMES, in every run: a directory counts its own names and the directories named in it, a
    file has no more names than links, and what has a name other than `.` and `..` is allocated. -/
theorem links_cover :
    (∀ i n, tree sb σ.fs.cache i = some n → n.type = T_DIR → n.nlink.toInt =
      (view sb σ.fs).names i + (view sb σ.fs).subdirs i + if i = ROOTINO then 1 else 0) ∧
    (∀ i n, tree sb σ.fs.cache i = some n → n.type ≠ T_DIR → (view sb σ.fs).names i ≤ n.nlink.toInt) ∧
    ∀ d m e, tree sb σ.fs.cache d = some m → e ∈ m.ents → e.inum ≠ 0 → e.name ≠ dot → e.name ≠ dotdot →
      (tree sb σ.fs.cache e.inum).isSome := by
  have hO := (run_orderly h.orderly hroom hrun).tree.order
  refine ⟨fun i n hn ht => ?_, fun i n hn ht => ?_, fun d m e hm he h0 hdot hdotdot => ?_⟩
  · have := hO.dirs i n hn ht
    omega
  · have := hO.files i n hn ht
    omega
  · obtain ⟨j, hj⟩ := List.mem_iff_getElem?.mp he
    obtain ⟨-, n, hn⟩ := hO.exists_of_name hm hj h0 ⟨hdot, hdotdot⟩
    exact isSome_iff_exists.mpr ⟨n, hn⟩

/-- INODES ARE ACCOUNTED FOR, in every run: a copy in the inode table is what the disk has, what is referred to is
    allocated, and what is allocated has a link or is the current directory of a process or an open file. -/
theorem inodes_accounted :
    (∀ k, 0 < σ.fs.ref k → σ.fs.valid k = true → σ.fs.node k = dinode sb σ.fs.cache (σ.fs.inum k)) ∧
    (∀ k, 0 < σ.fs.ref k → (tree sb σ.fs.cache (σ.fs.inum k)).isSome) ∧
    ∀ i n, tree sb σ.fs.cache i = some n → n.nlink = 0 → (view sb σ.fs).InUse i := by
  have hO := run_orderly h.orderly hroom hrun
  refine ⟨hO.rest.mem, fun k hk => hO.rest.held_isSome ?_, fun i n hn h0 => (hO.tree.tame.quiet i n hn h0).1⟩
  rwa [hO.rest.refs k, Multiset.count_zero, Nat.add_zero] at hk

/-- FEW PANICS ARE LEFT: in every state of every run a system call panics only when the inode table is full, when
    `init` exits, when it follows the `..` of a directory without a name to an inode that is gone, or in the log and
    the buffer cache. -/
theorem syscall_panics (hready : ready σ.fs p call) : ∀ e, run (handle sb p) (call.prog sb p) σ = .panic e →
    e ∈ [.igetNoInodes, .initExiting, .ilockNoType, .brelse, .tooBig, .outsideTrans] := by
  intro e he
  have hwp := Call.prog_wp ((run_orderly h.orderly hroom hrun).serves hready) hready
  rcases (Ctx.sound sb (fun _ => id) hwp).2 e he with (rfl | rfl | rfl) | hide
  · decide
  · decide
  · decide
  · cases e <;> first | decide | cases hide

end Runs

theorem syscalls_refine_mkdirA : ∃ A B, Run.Runs (fun A pc B => View.Steps pc.1 pc.2 A B) A mkdirA B ∧
    A.resolve initproc [47, 97] = none ∧ B.resolve initproc [47, 97] = some 2 := by
  obtain ⟨σ, hσ, hroom, hsome⟩ := mkdirA_run
  exact ⟨_, _, syscalls_refine consistent_emptyDisk hroom hσ, by decide +kernel, hsome⟩

theorem links_cover_mkdirA : ∃ σ : Sys, (view small σ.fs).resolve initproc [47, 97] = some 2 ∧
    ∀ i n, tree small σ.fs.cache i = some n → n.type ≠ T_DIR → (view small σ.fs).names i ≤ n.nlink.toInt := by
  obtain ⟨σ, hσ, hroom, hsome⟩ := mkdirA_run
  exact ⟨σ, hsome, (links_cover consistent_emptyDisk hroom hσ).2.1⟩

theorem inodes_accounted_mkdirA : ∃ σ : Sys, (view small σ.fs).resolve initproc [47, 97] = some 2 ∧
    ∀ i n, tree small σ.fs.cache i = some n → n.nlink = 0 → (view small σ.fs).InUse i := by
  obtain ⟨σ, hσ, hroom, hsome⟩ := mkdirA_run
  exact ⟨σ, hsome, (inodes_accounted consistent_emptyDisk hroom hσ).2.2⟩

/-- `init` must not exit. -/
theorem syscall_panics_exit : ∃ e, run (handle small initproc) (Call.prog small initproc .exit) (boot emptyDisk) = .panic e ∧
    e ∈ [.igetNoInodes, .initExiting, .ilockNoType, .brelse, .tooBig, .outsideTrans] := by
  have hrun : run (handle small initproc) (Call.prog small initproc .exit) (boot emptyDisk) = .panic .initExiting := rfl
  have hroom : LinksBounded small (boot emptyDisk) [] := trivial
  exact ⟨_, hrun, syscall_panics consistent_emptyDisk hroom rfl (by decide) _ hrun⟩

/-! ### Calls that fail -/

end Xv6.Fs
