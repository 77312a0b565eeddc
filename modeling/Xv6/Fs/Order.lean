import Xv6.Fs.Names

/-! The directory tree in order.

    `A.Order δ` says what the entries of directories look like, that directories form a forest, and how
    link counts relate to names: a directory has one link for its name and one for each directory it
    names, and a file has at least one link for each name. In the middle of a call the count of inode
    `i` is off by `δ i`; the steps a call takes pay this debt (`Order.setMeta`, `Order.enter`,
    `Order.clear`, `Order.add`, `Order.erase`), and between calls there is none. -/

namespace Xv6.Fs
open Option

/-- Entries in use have different names. -/
def NamesDiffer (es : List Entry) : Prop :=
  ∀ (j k : Nat) (e f : Entry), es[j]? = some e → es[k]? = some f → e.inum ≠ 0 → f.inum ≠ 0 → e.name = f.name → j = k

structure View.Order (A : View) (δ : Nat → Int) : Prop where
  zero : A.node 0 = none
  bound : ∀ i n, A.node i = some n → i < A.ninodes
  root : A.IsDir ROOTINO
  leaf : ∀ i n, A.node i = some n → n.type ≠ T_DIR → n.ents = []
  dots : ∀ i n, A.node i = some n → n.type = T_DIR → ∃ p es, p ≠ 0 ∧ n.ents = ⟨i, dot⟩ :: ⟨p, dotdot⟩ :: es
  differ : ∀ i n, A.node i = some n → NamesDiffer n.ents
  free : ∀ i, i ≠ 0 → A.node i = none → A.names i = 0
  once : ∀ i, A.IsDir i → A.names i ≤ 1
  rootFree : A.names ROOTINO = 0
  acyclic : Acyclic fun x y => 0 < A.edge x y
  dirs : ∀ i n, A.node i = some n → n.type = T_DIR →
    n.nlink.toInt = A.names i + A.subdirs i + (if i = ROOTINO then 1 else 0) + δ i
  files : ∀ i n, A.node i = some n → n.type ≠ T_DIR → A.names i + δ i ≤ n.nlink.toInt

namespace View.Order
variable {A B : View} {δ δ' : Nat → Int} {i d j x y : Nat} {n m : Node} {name : Name} {e : Entry}

theorem pos (h : A.Order δ) (hn : A.node i = some n) : i ≠ 0 := by
  rintro rfl
  exact absurd (h.zero.symm.trans hn) (some_ne_none n).symm

theorem setNode_cases (hm : (A.setNode i n).node x = some m) : x = i ∧ m = n ∨ x ≠ i ∧ A.node x = some m := by
  rcases eq_or_ne x i with rfl | hne
  · rw [setNode_node_self] at hm
    exact .inl ⟨rfl, (some.inj hm).symm⟩
  · rw [setNode_node_ne hne] at hm
    exact .inr ⟨hne, hm⟩

/-- What is still free was free. -/
theorem free_of_setNode (h : (A.setNode i n).node x = none) : A.node x = none := by
  have hne : x ≠ i := by
    rintro rfl
    rw [setNode_node_self] at h
    cases h
  rwa [setNode_node_ne hne] at h

/-! ### A node keeps its entries -/

theorem names_setMeta (hn : A.node i = some n) (he : m.ents = n.ents) (x : Nat) :
    (A.setNode i m).names x = A.names x := by
  refine Finset.sum_congr rfl fun y _ => ?_
  rcases eq_or_ne y i with rfl | hne
  · rw [namesIn_setNode_self, namesIn_some hn, Node.names, Node.names, he]
  · exact namesIn_setNode_ne hne

theorem edge_setMeta (hn : A.node i = some n) (ht : m.type = n.type) (he : m.ents = n.ents) (x y : Nat) :
    (A.setNode i m).edge x y = A.edge x y := by
  unfold edge
  simp only [isDir_setNode hn ht]
  rcases eq_or_ne x i with rfl | hne
  · rw [namesIn_setNode_self, namesIn_some hn, Node.names, Node.names, he]
  · rw [namesIn_setNode_ne hne]

/-- Link counts and contents of files change. -/
theorem setMeta (h : A.Order δ) (hn : A.node i = some n) (ht : m.type = n.type) (he : m.ents = n.ents) {k : Int}
    (hk : m.nlink.toInt = n.nlink.toInt + k) (hδ : ∀ x, δ' x = δ x + if x = i then k else 0) :
    (A.setNode i m).Order δ' := by
  have hdir : ∀ x, (A.setNode i m).IsDir x ↔ A.IsDir x := fun x => isDir_setNode hn ht
  have hnames := names_setMeta hn he
  have hedge := edge_setMeta hn ht he
  have hsub : ∀ x, (A.setNode i m).subdirs x = A.subdirs x := fun x => subdirs_congr (hedge x) rfl
  have hnode : ∀ x q, (A.setNode i m).node x = some q → ∃ q', A.node x = some q' ∧ q.type = q'.type ∧ q.ents = q'.ents ∧
      q.nlink.toInt + δ x = q'.nlink.toInt + δ' x := fun x q hq => by
    rcases setNode_cases hq with ⟨rfl, rfl⟩ | ⟨hne, hq⟩
    · have := hδ x
      rw [if_pos rfl] at this
      exact ⟨n, hn, ht, he, by omega⟩
    · have := hδ x
      rw [if_neg hne] at this
      exact ⟨q, hq, rfl, rfl, by omega⟩
  exact {
    zero := by rw [setNode_node_ne (h.pos hn).symm]; exact h.zero
    bound := fun x q hq => (hnode x q hq).elim fun q' hq' => h.bound x q' hq'.1
    root := (hdir _).mpr h.root
    leaf := fun x q hq hqt => by
      obtain ⟨q', hq', ht', he', _⟩ := hnode x q hq
      rw [he']; exact h.leaf x q' hq' (ht' ▸ hqt)
    dots := fun x q hq hqt => by
      obtain ⟨q', hq', ht', he', _⟩ := hnode x q hq
      rw [he']; exact h.dots x q' hq' (ht' ▸ hqt)
    differ := fun x q hq => by
      obtain ⟨q', hq', _, he', _⟩ := hnode x q hq
      rw [he']; exact h.differ x q' hq'
    free := fun x hx hq => by rw [hnames]; exact h.free x hx (free_of_setNode hq)
    once := fun x hx => by rw [hnames]; exact h.once x ((hdir x).mp hx)
    rootFree := by rw [hnames]; exact h.rootFree
    acyclic := h.acyclic.mono fun x y hxy => by rwa [hedge] at hxy
    dirs := fun x q hq hqt => by
      obtain ⟨q', hq', ht', _, hcount⟩ := hnode x q hq
      have := h.dirs x q' hq' (ht' ▸ hqt)
      rw [hnames, hsub]; omega
    files := fun x q hq hqt => by
      obtain ⟨q', hq', ht', _, hcount⟩ := hnode x q hq
      have := h.files x q' hq' (ht' ▸ hqt)
      rw [hnames]; omega }

/-! ### An entry comes or goes -/

section Directory
variable (h : A.Order δ) (hm : A.node d = some m) (hdir : m.type = T_DIR)
include h hm hdir

theorem two_le_of_freePlace (hj : FreePlace m.ents j) :
    2 ≤ j := by
  obtain ⟨p, es, hp, hents⟩ := h.dots d m hm hdir
  have hfree := hj.1
  rw [hents] at hfree
  rcases j with _ | _ | j
  · exact absurd hfree (h.pos hm)
  · exact absurd hfree hp
  · omega

theorem name_of_absent (habs : lookupName m.ents (cname name) = none) : cname name ≠ dot ∧ cname name ≠ dotdot := by
  obtain ⟨p, es, hp, hents⟩ := h.dots d m hm hdir
  rw [lookupName_none, hents] at habs
  exact ⟨(habs ⟨d, dot⟩ (by simp) (h.pos hm)).symm, (habs ⟨p, dotdot⟩ (by simp) hp).symm⟩

theorem two_le_of_name (hj : m.ents[j]? = some e)
    (hname : e.name ≠ dot ∧ e.name ≠ dotdot) : 2 ≤ j := by
  obtain ⟨p, es, hp, hents⟩ := h.dots d m hm hdir
  rw [hents] at hj
  rcases j with _ | _ | j
  · obtain rfl := some.inj hj
    exact absurd rfl hname.1
  · obtain rfl := some.inj hj
    exact absurd rfl hname.2
  · omega

end Directory

/-- Entries after the first two come and go. -/
theorem dots_putEntry {p : Nat} {es : List Entry} (hj : 2 ≤ j) :
    putEntry (⟨d, dot⟩ :: ⟨p, dotdot⟩ :: es) j e = ⟨d, dot⟩ :: ⟨p, dotdot⟩ :: putEntry es (j - 2) e := by
  obtain ⟨j, rfl⟩ := Nat.exists_eq_add_of_le' hj
  unfold putEntry
  simp only [List.length_cons, Nat.add_sub_cancel, Nat.add_lt_add_iff_right]
  split <;> rfl

theorem differ_putEntry {es : List Entry} (h : NamesDiffer es) (hj : j ≤ es.length)
    (he : e.inum ≠ 0 → ∀ f ∈ es, f.inum ≠ 0 → f.name ≠ e.name) : NamesDiffer (putEntry es j e) := by
  intro k l f g hf hg hf0 hg0 hname
  rw [getElem?_putEntry hj] at hf hg
  split at hf <;> split at hg
  · omega
  · obtain rfl := some.inj hf
    exact absurd hname.symm (he hf0 g (List.mem_of_getElem? hg) hg0)
  · obtain rfl := some.inj hg
    exact absurd hname (he hg0 f (List.mem_of_getElem? hf) hf0)
  · exact h k l f g hf hg hf0 hg0 hname

theorem differ_dots {p : Nat} : NamesDiffer [⟨i, dot⟩, ⟨p, dotdot⟩] := by
  intro j k e f he hf _ _ hname
  rcases j with _ | _ | j <;> rcases k with _ | _ | k
  · rfl
  · obtain rfl := some.inj he
    obtain rfl := some.inj hf
    cases hname
  · cases hf
  · obtain rfl := some.inj he
    obtain rfl := some.inj hf
    cases hname
  · rfl
  · cases hf
  · cases he
  · cases he
  · cases he

/-- What does not depend on the counts when directory `d` gets other entries. -/
theorem setEnts (h : A.Order δ) (hm : A.node d = some m) (hdir : m.type = T_DIR) (hj : 2 ≤ j) (hle : j ≤ m.ents.length)
    (he : cname name = e.name) (hdiff : e.inum ≠ 0 → ∀ f ∈ m.ents, f.inum ≠ 0 → f.name ≠ e.name)
    (hfree : ∀ x, x ≠ 0 → A.node x = none → (A.setNode d (m.enter j e.inum name)).names x = 0)
    (honce : ∀ x, A.IsDir x → (A.setNode d (m.enter j e.inum name)).names x ≤ 1)
    (hroot : (A.setNode d (m.enter j e.inum name)).names ROOTINO = 0)
    (hacyc : Acyclic fun x y => 0 < (A.setNode d (m.enter j e.inum name)).edge x y)
    (hdirs : ∀ x q, A.node x = some q → q.type = T_DIR →
      (A.setNode d (m.enter j e.inum name)).names x + (A.setNode d (m.enter j e.inum name)).subdirs x + δ' x =
        A.names x + A.subdirs x + δ x)
    (hfiles : ∀ x q, A.node x = some q → q.type ≠ T_DIR →
      (A.setNode d (m.enter j e.inum name)).names x + δ' x = A.names x + δ x) :
    (A.setNode d (m.enter j e.inum name)).Order δ' := by
  have hisdir : ∀ x, (A.setNode d (m.enter j e.inum name)).IsDir x ↔ A.IsDir x := fun x => isDir_setNode hm rfl
  exact {
    zero := by rw [setNode_node_ne (h.pos hm).symm]; exact h.zero
    bound := fun x q hq => by
      rcases setNode_cases hq with ⟨rfl, _⟩ | ⟨_, hq⟩
      · exact h.bound x m hm
      · exact h.bound x q hq
    root := (hisdir _).mpr h.root
    leaf := fun x q hq hqt => by
      rcases setNode_cases hq with ⟨rfl, rfl⟩ | ⟨_, hq⟩
      · exact absurd hdir hqt
      · exact h.leaf x q hq hqt
    dots := fun x q hq hqt => by
      rcases setNode_cases hq with ⟨rfl, rfl⟩ | ⟨_, hq⟩
      · obtain ⟨p, es, hp, hents⟩ := h.dots x m hm hdir
        refine ⟨p, putEntry es (j - 2) ⟨e.inum, cname name⟩, hp, ?_⟩
        change putEntry m.ents j _ = _
        rw [hents, dots_putEntry hj]
      · exact h.dots x q hq hqt
    differ := fun x q hq => by
      rcases setNode_cases hq with ⟨rfl, rfl⟩ | ⟨_, hq⟩
      · exact differ_putEntry (h.differ x m hm) hle (by rw [he]; exact hdiff)
      · exact h.differ x q hq
    free := fun x hx hq => hfree x hx (free_of_setNode hq)
    once := fun x hx => honce x ((hisdir x).mp hx)
    rootFree := hroot
    acyclic := hacyc
    dirs := fun x q hq hqt => by
      rcases setNode_cases hq with ⟨rfl, rfl⟩ | ⟨_, hq⟩
      · have h1 := h.dirs x m hm hdir
        have h2 := hdirs x m hm hdir
        change m.nlink.toInt = _
        omega
      · have h1 := h.dirs x q hq hqt
        have h2 := hdirs x q hq hqt
        omega
    files := fun x q hq hqt => by
      rcases setNode_cases hq with ⟨rfl, rfl⟩ | ⟨_, hq⟩
      · exact absurd hdir hqt
      · have h1 := h.files x q hq hqt
        have h2 := hfiles x q hq hqt
        omega }

theorem not_isDir_zero (h : A.Order δ) : ¬A.IsDir 0 := by
  rw [IsDir, h.zero]; exact (some_ne_none _).symm

/-- One view names inode `i` once more than another, in directory `d`. -/
theorem edge_count (hdir : ∀ y, B.IsDir y ↔ A.IsDir y) (h0 : ¬A.IsDir 0) (hi : A.IsDir i ↔ n.type = T_DIR)
    (hin : ∀ x y, y ≠ 0 → B.namesIn x y = A.namesIn x y + if x = d ∧ y = i then 1 else 0) (x y : Nat) :
    B.edge x y = A.edge x y + if y = i then if x = d ∧ n.type = T_DIR then 1 else 0 else 0 := by
  unfold edge
  by_cases hy : A.IsDir y
  · have hy0 : y ≠ 0 := by
      rintro rfl
      exact h0 hy
    rw [if_pos ((hdir y).mpr hy), if_pos hy, hin x y hy0]
    rcases eq_or_ne y i with rfl | hne
    · simp [hi.mp hy]
    · simp [hne]
  · rw [if_neg (mt (hdir y).mp hy), if_neg hy]
    rcases eq_or_ne y i with rfl | hne
    · simp [mt hi.mpr hy]
    · simp [hne]

section Enter
variable (h : A.Order δ) (hm : A.node d = some m) (hdir : m.type = T_DIR) (hj : FreePlace m.ents j)
  (habs : lookupName m.ents (cname name) = none)
include h hm hdir hj habs

theorem names_enter (hx : x ≠ 0) :
    (A.setNode d (m.enter j i name)).names x = A.names x + if x = i then 1 else 0 := by
  have := names_setNode (m := m.enter j i name) (i := x) (h.bound d m hm)
  rw [Node.names_enter hj (h.name_of_absent hm hdir habs) hx, namesIn_some hm] at this
  omega

theorem edge_enter (hn : A.node i = some n) (x y : Nat) : (A.setNode d (m.enter j i name)).edge x y =
    A.edge x y + if y = i then if x = d ∧ n.type = T_DIR then 1 else 0 else 0 := by
  refine edge_count (fun _ => isDir_setNode (m := m.enter j i name) hm rfl) h.not_isDir_zero (isDir_iff hn) (fun x y hy => ?_) x y
  rcases eq_or_ne x d with rfl | hne
  · rw [namesIn_setNode_self, Node.names_enter hj (h.name_of_absent hm hdir habs) hy, namesIn_some hm]
    simp
  · rw [namesIn_setNode_ne hne]
    simp [hne]

end Enter

/-- Directory `d` names inode `i` once more. A directory that gets a name has none and is empty. -/
theorem enter (h : A.Order δ) (hm : A.node d = some m) (hdir : m.type = T_DIR) (hj : FreePlace m.ents j)
    (habs : lookupName m.ents (cname name) = none) (hn : A.node i = some n)
    (hnew : n.type = T_DIR → A.names i = 0 ∧ A.subdirs i = 0 ∧ i ≠ ROOTINO ∧ i ≠ d)
    (hδ : ∀ x, δ' x = δ x - (if x = i then 1 else 0) - if x = d ∧ n.type = T_DIR then 1 else 0) :
    (A.setNode d (m.enter j i name)).Order δ' := by
  have hnames : ∀ x, x ≠ 0 → (A.setNode d (m.enter j i name)).names x = A.names x + if x = i then 1 else 0 :=
    fun _ => h.names_enter hm hdir hj habs
  have hedge := h.edge_enter hm hdir hj habs hn
  have hsub : ∀ x, (A.setNode d (m.enter j i name)).subdirs x =
      A.subdirs x + if x = d ∧ n.type = T_DIR then 1 else 0 := fun x =>
    subdirs_add (h.bound i n hn) (hedge x) rfl
  refine h.setEnts (e := ⟨i, cname name⟩) hm hdir (h.two_le_of_freePlace hm hdir hj) hj.2 rfl
    (fun _ => lookupName_none.mp habs) (fun x hx hq => ?_) (fun x hx => ?_) ?_ ?_ (fun x q hq hqt => ?_) fun x q hq hqt => ?_
  · have hne : x ≠ i := by
      rintro rfl
      rw [hn] at hq
      cases hq
    rw [hnames x hx, h.free x hx hq, if_neg hne]
  · have hx0 : x ≠ 0 := by
      rintro rfl
      exact h.not_isDir_zero hx
    have := h.once x hx
    rw [hnames x hx0]
    split
    · rename_i heq
      subst heq
      have := (hnew ((isDir_iff hn).mp hx)).1
      omega
    · exact this
  · have hne : ROOTINO ≠ i := by
      intro heq
      exact (hnew ((isDir_iff hn).mp (heq ▸ h.root))).2.2.1 heq.symm
    rw [hnames _ (by decide), h.rootFree, if_neg hne]
  · -- a directory that gets a name has no edges of its own
    by_cases hnt : n.type = T_DIR
    · obtain ⟨_, hsub0, _, hid⟩ := hnew hnt
      refine h.acyclic.leaf (v := i) (fun y hy => ?_) fun x y hxy hy => ?_
      · have := edge_le_subdirs (x := i) (y := y) h.bound
        have hno : ¬(i = d ∧ n.type = T_DIR) := fun h => hid h.1
        rw [hedge, if_neg hno, ite_self, add_zero] at hy
        omega
      · rwa [hedge, if_neg hy, add_zero] at hxy
    · refine h.acyclic.mono fun x y hxy => ?_
      have hno : ¬(x = d ∧ n.type = T_DIR) := fun h => hnt h.2
      rwa [hedge, if_neg hno, ite_self, add_zero] at hxy
  · have hx0 := h.pos hq
    rw [hnames x hx0, hsub, hδ x]
    push_cast
    omega
  · have hno : ¬(x = d ∧ n.type = T_DIR) := by
      rintro ⟨rfl, _⟩
      rw [hm] at hq
      exact hqt (some.inj hq ▸ hdir)
    rw [hnames x (h.pos hq), hδ x, if_neg hno]
    push_cast
    omega

/-- A name in use is the name of an inode. -/
theorem exists_of_name (h : A.Order δ) (hm : A.node d = some m) (hj : m.ents[j]? = some e) (he : e.inum ≠ 0)
    (hname : e.name ≠ dot ∧ e.name ≠ dotdot) : 0 < A.namesIn d e.inum ∧ ∃ n, A.node e.inum = some n := by
  have hpos : 0 < A.namesIn d e.inum := by
    rw [namesIn_some hm]
    exact List.countP_pos_iff.mpr ⟨e, List.mem_of_getElem? hj, by simp [hname]⟩
  refine ⟨hpos, ne_none_iff_exists'.mp fun hnone => ?_⟩
  have := h.free e.inum he hnone
  have := namesIn_le (x := d) (i := e.inum) h.bound
  omega

section Clear
variable (h : A.Order δ) (hm : A.node d = some m) (hj : m.ents[j]? = some e) (hname : e.name ≠ dot ∧ e.name ≠ dotdot)
include h hm hj hname

theorem names_clear (hx : x ≠ 0) :
    (A.setNode d (m.enter j 0 [])).names x + (if x = e.inum then 1 else 0) = A.names x := by
  have := names_setNode (m := m.enter j 0 []) (i := x) (h.bound d m hm)
  rw [namesIn_some hm, ← Node.names_clear hj hname hx] at this
  omega

theorem edge_clear (hn : A.node e.inum = some n) (x y : Nat) : A.edge x y = (A.setNode d (m.enter j 0 [])).edge x y +
    if y = e.inum then if x = d ∧ n.type = T_DIR then 1 else 0 else 0 := by
  have hisdir : ∀ y, (A.setNode d (m.enter j 0 [])).IsDir y ↔ A.IsDir y := fun y => isDir_setNode hm rfl
  refine edge_count (fun y => (hisdir y).symm) (mt (hisdir 0).mp h.not_isDir_zero) ((hisdir _).trans (isDir_iff hn))
    (fun x y hy => ?_) x y
  rcases eq_or_ne x d with rfl | hne
  · rw [namesIn_setNode_self, namesIn_some hm, ← Node.names_clear hj hname hy]
    simp
  · rw [namesIn_setNode_ne hne]
    simp [hne]

end Clear

/-- Directory `d` names the inode of entry `e` once less. -/
theorem clear (h : A.Order δ) (hm : A.node d = some m) (hdir : m.type = T_DIR) (hj : m.ents[j]? = some e)
    (hname : e.name ≠ dot ∧ e.name ≠ dotdot) (hn : A.node e.inum = some n)
    (hδ : ∀ x, δ' x = δ x + (if x = e.inum then 1 else 0) + if x = d ∧ n.type = T_DIR then 1 else 0) :
    (A.setNode d (m.enter j 0 [])).Order δ' := by
  have hnames : ∀ x, x ≠ 0 → (A.setNode d (m.enter j 0 [])).names x + (if x = e.inum then 1 else 0) = A.names x :=
    fun _ => h.names_clear hm hj hname
  have hedge := h.edge_clear hm hj hname hn
  have hsub : ∀ x, A.subdirs x = (A.setNode d (m.enter j 0 [])).subdirs x + if x = d ∧ n.type = T_DIR then 1 else 0 :=
    fun x => subdirs_add (A := A.setNode d (m.enter j 0 [])) (h.bound _ n hn) (hedge x) rfl
  have hle : ∀ x, x ≠ 0 → (A.setNode d (m.enter j 0 [])).names x ≤ A.names x := fun x hx => by
    rw [← hnames x hx]; exact Nat.le_add_right _ _
  have hlt : j < m.ents.length := (List.getElem?_eq_some_iff.mp hj).1
  refine h.setEnts (e := ⟨0, cname []⟩) hm hdir (h.two_le_of_name hm hdir hj hname) hlt.le rfl
    (fun h0 => absurd rfl h0) (fun x hx hq => ?_) (fun x hx => ?_) ?_ ?_ (fun x q hq hqt => ?_) fun x q hq hqt => ?_
  · exact Nat.le_zero.mp ((hle x hx).trans (h.free x hx hq).le)
  · have hx0 : x ≠ 0 := by
      rintro rfl
      exact h.not_isDir_zero hx
    exact (hle x hx0).trans (h.once x hx)
  · exact Nat.le_zero.mp ((hle _ (by decide)).trans h.rootFree.le)
  · exact h.acyclic.mono fun x y hxy => by rw [hedge]; exact Nat.lt_of_lt_of_le hxy (Nat.le_add_right _ _)
  · rw [← hnames x (h.pos hq), hsub, hδ x]
    push_cast
    omega
  · have hno : ¬(x = d ∧ n.type = T_DIR) := by
      rintro ⟨rfl, _⟩
      rw [hm] at hq
      exact hqt (some.inj hq ▸ hdir)
    rw [← hnames x (h.pos hq), hδ x, if_neg hno]
    push_cast
    omega

/-! ### A node comes or goes -/

theorem names_add (hi : A.Fresh i) (hzero : ∀ y, n.names y = 0) (x : Nat) : (A.setNode i n).names x = A.names x := by
  refine Finset.sum_congr rfl fun y _ => ?_
  rcases eq_or_ne y i with rfl | hne
  · rw [namesIn_setNode_self, hzero, namesIn_none hi.free]
  · exact namesIn_setNode_ne hne

theorem edge_add (h : A.Order δ) (hi : A.Fresh i) (hzero : ∀ y, n.names y = 0) (x y : Nat) :
    (A.setNode i n).edge x y = A.edge x y := by
  have hin : (A.setNode i n).namesIn x y = A.namesIn x y := by
    rcases eq_or_ne x i with rfl | hne
    · rw [namesIn_setNode_self, hzero, namesIn_none hi.free]
    · exact namesIn_setNode_ne hne
  rcases eq_or_ne y i with rfl | hne
  · have h0 := h.free y hi.pos.ne' hi.free
    have h1 := edge_le (A := A.setNode y n) (x := x) (y := y)
    have h2 := edge_le (A := A) (x := x) (y := y)
    have h3 := namesIn_le (x := x) (i := y) h.bound
    omega
  · have hdir : (A.setNode i n).IsDir y ↔ A.IsDir y := by rw [IsDir, IsDir, setNode_node_ne hne]
    rw [edge, edge, hin]; simp only [hdir]

/-- A new node, which names nothing but itself and its parent and is not named yet. -/
theorem add (h : A.Order δ) (hi : A.Fresh i) (hleaf : n.type ≠ T_DIR → n.ents = [])
    (hdots : n.type = T_DIR → ∃ p, p ≠ 0 ∧ n.ents = [⟨i, dot⟩, ⟨p, dotdot⟩]) (hlink : n.nlink.toInt = 1)
    (hδ : ∀ x, δ' x = if x = i then 1 else δ x) : (A.setNode i n).Order δ' := by
  have hi0 : i ≠ 0 := hi.pos.ne'
  have hzero : ∀ y, n.names y = 0 := fun y => by
    by_cases hnt : n.type = T_DIR
    · obtain ⟨p, _, hents⟩ := hdots hnt
      simp [Node.names, hents]
    · simp [Node.names, hleaf hnt]
  have hnames := names_add hi hzero
  have hnamesi : A.names i = 0 := h.free i hi0 hi.free
  have hedge := h.edge_add hi hzero
  have hsub : ∀ x, (A.setNode i n).subdirs x = A.subdirs x := fun x => subdirs_congr (hedge x) rfl
  have hsubi : A.subdirs i = 0 := Finset.sum_eq_zero fun y _ =>
    Nat.le_zero.mp (edge_le.trans (namesIn_none hi.free).le)
  have hroot : ROOTINO ≠ i := by
    intro heq
    obtain ⟨q, hq, _⟩ := h.root.exists
    rw [heq, hi.free] at hq
    cases hq
  exact {
    zero := by rw [setNode_node_ne hi0.symm]; exact h.zero
    bound := fun x q hq => by
      rcases setNode_cases hq with ⟨rfl, _⟩ | ⟨_, hq⟩
      · exact hi.lt
      · exact h.bound x q hq
    root := by rw [IsDir, setNode_node_ne hroot]; exact h.root
    leaf := fun x q hq hqt => by
      rcases setNode_cases hq with ⟨rfl, rfl⟩ | ⟨_, hq⟩
      · exact hleaf hqt
      · exact h.leaf x q hq hqt
    dots := fun x q hq hqt => by
      rcases setNode_cases hq with ⟨rfl, rfl⟩ | ⟨_, hq⟩
      · obtain ⟨p, hp, hents⟩ := hdots hqt
        exact ⟨p, [], hp, hents⟩
      · exact h.dots x q hq hqt
    differ := fun x q hq => by
      rcases setNode_cases hq with ⟨rfl, rfl⟩ | ⟨_, hq⟩
      · by_cases hnt : q.type = T_DIR
        · obtain ⟨p, hp, hents⟩ := hdots hnt
          rw [hents]; exact differ_dots
        · rw [hleaf hnt]
          exact fun j k e f he => by simp at he
      · exact h.differ x q hq
    free := fun x hx hq => by rw [hnames]; exact h.free x hx (free_of_setNode hq)
    once := fun x hx => by
      rw [hnames]
      rcases eq_or_ne x i with rfl | hne
      · rw [hnamesi]; exact Nat.zero_le 1
      · rw [IsDir, setNode_node_ne hne] at hx
        exact h.once x hx
    rootFree := by rw [hnames]; exact h.rootFree
    acyclic := h.acyclic.mono fun x y hxy => by rwa [hedge] at hxy
    dirs := fun x q hq hqt => by
      rw [hnames, hsub, hδ]
      rcases setNode_cases hq with ⟨rfl, rfl⟩ | ⟨hne, hq⟩
      · rw [if_neg hroot.symm, if_pos rfl, hnamesi, hsubi, hlink]; rfl
      · rw [if_neg (c := x = i) hne]; exact h.dirs x q hq hqt
    files := fun x q hq hqt => by
      rw [hnames, hδ]
      rcases setNode_cases hq with ⟨rfl, rfl⟩ | ⟨hne, hq⟩
      · rw [if_pos rfl, hnamesi, hlink]; rfl
      · rw [if_neg hne]; exact h.files x q hq hqt }

/-- A node without links goes. No directory is named in it. -/
theorem erase (h : A.Order δ) (hn : A.node i = some n) (h0 : n.nlink = 0) (hδ : δ i = 0) : (A.erase i).Order δ := by
  have hlt := h.bound i n hn
  have hcount : A.names i = 0 ∧ (n.type = T_DIR → A.subdirs i = 0 ∧ i ≠ ROOTINO) := by
    have hz : n.nlink.toInt = 0 := by rw [h0]; rfl
    by_cases hnt : n.type = T_DIR
    · have := h.dirs i n hn hnt
      split at this
      · omega
      · exact ⟨by omega, fun _ => ⟨by omega, ‹_›⟩⟩
    · have := h.files i n hn hnt
      exact ⟨by omega, fun h => absurd h hnt⟩
  have hroot : ROOTINO ≠ i := by
    rintro rfl
    exact (hcount.2 ((isDir_iff hn).mp h.root)).2 rfl
  have hrow : ∀ y, A.edge i y = 0 := fun y => by
    by_cases hnt : n.type = T_DIR
    · have := edge_le_subdirs (x := i) (y := y) h.bound
      have := (hcount.2 hnt).1
      omega
    · have := edge_le (A := A) (x := i) (y := y)
      rw [namesIn_some hn, Node.names, h.leaf i n hn hnt] at this
      simpa using this
  have hin : ∀ x y, (A.erase i).namesIn x y = if x = i then 0 else A.namesIn x y := fun x y => by
    rcases eq_or_ne x i with rfl | hne
    · rw [namesIn_erase_self, if_pos rfl]
    · rw [namesIn_erase_ne hne, if_neg hne]
  have hnames : ∀ x, (A.erase i).names x + A.namesIn i x = A.names x := fun x => names_erase hlt
  have hle : ∀ x, (A.erase i).names x ≤ A.names x := fun x => by have := hnames x; omega
  have hisdir : ∀ x, x ≠ i → ((A.erase i).IsDir x ↔ A.IsDir x) := fun x hx => by rw [IsDir, IsDir, erase_node_ne hx]
  have hdirnames : ∀ x, A.IsDir x → (A.erase i).names x = A.names x := fun x hx => by
    have h1 := hnames x
    have h2 := hrow x
    rw [edge, if_pos hx] at h2
    omega
  have hedge : ∀ x y, (A.erase i).edge x y = A.edge x y := fun x y => by
    rcases eq_or_ne y i with rfl | hne
    · have h1 : (A.erase y).edge x y = 0 := if_neg (by rw [IsDir, erase_node_self]; exact (some_ne_none _).symm)
      have h2 := edge_le (A := A) (x := x) (y := y)
      have h3 := namesIn_le (x := x) (i := y) h.bound
      rw [h1]; omega
    · rcases eq_or_ne x i with rfl | hx
      · have := edge_le (A := A.erase x) (x := x) (y := y)
        rw [namesIn_erase_self] at this
        rw [hrow]; omega
      · rw [edge, edge, namesIn_erase_ne hx]; simp only [hisdir y hne]
  have hsub : ∀ x, (A.erase i).subdirs x = A.subdirs x := fun x => subdirs_congr (hedge x) rfl
  have hnode : ∀ x q, (A.erase i).node x = some q → x ≠ i ∧ A.node x = some q := fun x q hq => by
    rcases eq_or_ne x i with rfl | hne
    · rw [erase_node_self] at hq
      cases hq
    · rw [erase_node_ne hne] at hq
      exact ⟨hne, hq⟩
  exact {
    zero := by rw [erase_node_ne (h.pos hn).symm]; exact h.zero
    bound := fun x q hq => h.bound x q (hnode x q hq).2
    root := (hisdir _ hroot).mpr h.root
    leaf := fun x q hq => h.leaf x q (hnode x q hq).2
    dots := fun x q hq => h.dots x q (hnode x q hq).2
    differ := fun x q hq => h.differ x q (hnode x q hq).2
    free := fun x hx hq => by
      rcases eq_or_ne x i with rfl | hne
      · exact Nat.le_zero.mp ((hle x).trans hcount.1.le)
      · rw [erase_node_ne hne] at hq
        exact Nat.le_zero.mp ((hle x).trans (h.free x hx hq).le)
    once := fun x hx => by
      rcases eq_or_ne x i with rfl | hne
      · exact (hle x).trans (hcount.1.le.trans (Nat.zero_le 1))
      · exact (hle x).trans (h.once x ((hisdir x hne).mp hx))
    rootFree := Nat.le_zero.mp ((hle _).trans h.rootFree.le)
    acyclic := h.acyclic.mono fun x y hxy => by rwa [hedge] at hxy
    dirs := fun x q hq hqt => by
      obtain ⟨_, hq⟩ := hnode x q hq
      rw [hdirnames x ((isDir_iff hq).mpr hqt), hsub]; exact h.dirs x q hq hqt
    files := fun x q hq hqt => by
      have h1 := h.files x q (hnode x q hq).2 hqt
      have h2 := hle x
      omega }

end View.Order

end Xv6.Fs
