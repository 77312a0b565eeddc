import Xv6.Fs.DirSpec

/-! The file system as its users see it, and path lookup on it.

    A `View` is the map of nodes, the inode each open file refers to and each process's current
    directory; `view` reads it off a state. An inode without links lives only as long as it is in use,
    and while that holds (`Quiet`) looking up a path changes nothing and finds what `walk` finds. -/

namespace Xv6.Fs
open Prog hiding wp_bind wp_pure wp_when wp_mono
open Ctx Option

structure View where
  ninodes : Nat
  node : Nat → Option Node
  file : FileId → Option Nat
  cwd : Pid → Option Nat

def view (sb : Super) (s : St) : View where
  ninodes := sb.ninodes
  node := tree sb s.cache
  file := fun f => if (s.file f).type.hasIno then some (s.inum (s.file f).ip) else none
  cwd := fun p => (s.cwd p).map s.inum

namespace View

/-- An open file or a process refers to inode `i`. -/
def InUse (A : View) (i : Nat) : Prop := (∃ f, A.file f = some i) ∨ ∃ p, A.cwd p = some i

/-- Inodes without links are in use, and the root is not one of them. -/
def Quiet (A : View) : Prop := ∀ i n, A.node i = some n → n.nlink = 0 → A.InUse i ∧ i ≠ ROOTINO

/-- The root exists, and every entry names an inode that exists. -/
structure Closed (A : View) : Prop where
  root : (A.node ROOTINO).isSome
  ents : ∀ d n, A.node d = some n → ∀ e ∈ n.ents, e.inum ≠ 0 → (A.node e.inum).isSome

end View

/-- Follow a path from inode `i`: the inode it leads to, or with `parent` the directory of its last
    element and that element. -/
def walk (t : Nat → Option Node) (parent : Bool) : Nat → Name → Nat → Option (Nat × Name)
  | _, _, 0 => none
  | i, path, fuel + 1 =>
    match skipelem path with
    | none => if parent then none else some (i, [])
    | some (name, path) =>
      (t i).bind fun n =>
        if n.type ≠ T_DIR then none
        else if parent ∧ path = [] then some (i, name)
        else (lookupName n.ents (cname name)).bind fun e => walk t parent e.inum path fuel

namespace View

/-- Where process `me` starts to look for a path. -/
def start (A : View) (me : Pid) (path : Name) : Option Nat :=
  if path.head? = some 47 then some ROOTINO else A.cwd me

/-- The inode a path leads to. -/
def resolve (A : View) (me : Pid) (path : Name) : Option Nat :=
  (A.start me path).bind fun i => (walk A.node false i path (path.length + 1)).map Prod.fst

/-- The directory of a path's last element, and the element. -/
def parent (A : View) (me : Pid) (path : Name) : Option (Nat × Name) :=
  (A.start me path).bind fun i => walk A.node true i path (path.length + 1)

end View

variable {sb : Super} {Γ : Ctx} {s s' : St} {T L : Multiset Slot} {F : Multiset FileId} {k : Slot} {i : Nat}
  {name : Name} {n : Node}

/-! ### Users of an inode -/

theorem held_pos {file : FileId → File} {cwd : Pid → Option Slot} :
    0 < held file cwd k ↔ (∃ f, (file f).type.hasIno ∧ (file f).ip = k) ∨ ∃ p, cwd p = some k := by
  constructor
  · intro h
    by_contra hno
    rw [not_or, not_exists, not_exists] at hno
    have h1 : (∑ f, if (file f).type.hasIno ∧ (file f).ip = k then 1 else 0) = 0 :=
      Finset.sum_eq_zero fun f _ => if_neg (hno.1 f)
    have h2 : (∑ p, if cwd p = some k then 1 else 0) = 0 := Finset.sum_eq_zero fun p _ => if_neg (hno.2 p)
    unfold held at h
    omega
  · rintro (⟨f, hf, rfl⟩ | ⟨p, hp⟩)
    · exact held_of_file hf
    · exact held_of_cwd hp

theorem inUse_view : (view sb s).InUse i ↔ ∃ k, 0 < held s.file s.cwd k ∧ s.inum k = i := by
  simp only [View.InUse, view, held_pos, map_eq_some_iff]
  constructor
  · rintro (⟨f, hf⟩ | ⟨p, k, hp, hk⟩)
    · by_cases hi : (s.file f).type.hasIno
      · rw [if_pos hi] at hf
        exact ⟨_, .inl ⟨f, hi, rfl⟩, some.inj hf⟩
      · rw [if_neg hi] at hf
        cases hf
    · exact ⟨k, .inr ⟨p, hp⟩, hk⟩
  · rintro ⟨k, ⟨f, hf, rfl⟩ | ⟨p, hp⟩, hk⟩
    · exact .inl ⟨f, by rw [if_pos hf, hk]⟩
    · exact .inr ⟨p, k, hp, hk⟩

/-- The view depends on the disk through the tree, and on table entries that are pinned. -/
theorem Keep.view_node (h : Keep T s s') : view sb s' = { view sb s with node := tree sb s'.cache } := by
  unfold Fs.view
  rw [h.file, h.cwd]
  dsimp only
  congr 1
  · funext f
    split
    · rw [h.inum _ (Nat.add_pos_left (held_of_file ‹_›) _)]
    · rfl
  · funext p
    cases hp : s.cwd p with
    | none => rfl
    | some k => rw [map_some, map_some, h.inum k (Nat.add_pos_left (held_of_cwd hp) _)]

theorem Keep.view (h : Keep T s s') (ht : tree sb s'.cache = tree sb s.cache) : view sb s' = view sb s := by
  rw [h.view_node, ht]; rfl

/-- In a quiet state, an inode without links that has a table entry is held by more than tokens, and has
    been read. -/
theorem Inv.held_of_quiet (h : Inv sb Γ s T F L) (hq : (view sb s).Quiet) (hk : 0 < s.ref k)
    (hn : tree sb s.cache (s.inum k) = some n) (h0 : n.nlink = 0) : 0 < held s.file s.cwd k ∧ s.valid k = true := by
  obtain ⟨huse, hroot⟩ := hq _ _ hn h0
  obtain ⟨l, hl, hlk⟩ := inUse_view.mp huse
  obtain rfl := h.uniq l k (h.ref_pos (Nat.add_pos_left hl _)) hk hlk
  exact ⟨hl, (h.loaded l hl).resolve_right hroot⟩

/-- In a quiet state, dropping a token changes nothing. -/
theorem iput_quiet_wp [Γ.Writes] {U : Unit → St → Prop} (h : Inv sb Γ s (k ::ₘ T) F L) (hL : Pinned s T L)
    (hU : ∀ s', Inv sb Γ s' T F L → Keep T s s' → ((view sb s).Quiet → view sb s' = view sb s) → U () s') :
    Γ.wp (iput sb k) s U := by
  refine iput_wp h hL (fun _ s' hI hkeep hc => ?_) fun hv hn h0 s' hI hkeep _ => ?_
  · exact hU s' hI hkeep fun _ => hkeep.view (by rw [hc])
  · refine hU s' hI hkeep fun hq => ?_
    have hk := h.ref_pos_of_mem (Multiset.mem_cons_self k T)
    have := (h.held_of_quiet hq hk (tree_live (h.live hk hv)) hn).1
    omega

theorem iunlockput_quiet_wp [Γ.Writes] {U : Unit → St → Prop} (h : Inv sb Γ s (k ::ₘ T) F (k ::ₘ L))
    (hU : ∀ s', Inv sb Γ s' T F L → Keep T s s' → ((view sb s).Quiet → view sb s' = view sb s) → U () s') :
    Γ.wp (iunlockput sb k) s U := by
  rw [iunlockput, wp_bind]
  refine iunlock_wp h fun hI => iput_quiet_wp hI h.pinned_unlock fun s' hI' hkeep hv => ?_
  exact hU s' hI' ⟨hkeep.file, hkeep.cwd, hkeep.ofile, hkeep.inum, hkeep.valid⟩ hv

/-! ### `namex` -/

theorem length_dropWhile_le {α : Type} (p : α → Bool) (l : List α) : (l.dropWhile p).length ≤ l.length :=
  (List.dropWhile_suffix p).length_le

/-- Each element taken shortens the path. -/
theorem skipelem_length {path rest : Name} (h : skipelem path = some (name, rest)) : rest.length < path.length := by
  unfold skipelem at h
  dsimp only at h
  split at h
  · cases h
  · rename_i hne
    obtain ⟨-, rfl⟩ := Prod.mk.inj (some.inj h)
    obtain ⟨c, p, hp⟩ := List.exists_cons_of_ne_nil hne
    have hc : (c == 47) = false := by
      have := List.head_dropWhile_not (fun x : UInt8 => x == 47) hne
      simpa [hp] using this
    have h1 := length_dropWhile_le (fun x : UInt8 => x == 47) path
    have h2 := length_dropWhile_le (fun x : UInt8 => x == 47) (p.dropWhile (· != 47))
    have h3 := length_dropWhile_le (fun x : UInt8 => x != 47) p
    rw [hp] at h1 ⊢
    rw [List.dropWhile_cons_of_pos (by simp [bne, hc])]
    rw [List.length_cons] at h1
    omega

section Namex
variable {Q : Option (Slot × Name) → St → Prop} {nameiparent : Bool}

theorem namexFrom_wp [Γ.Writes] (hfull : Γ.allows .igetNoInodes) : ∀ {fuel : Nat} {path : Name} {k : Slot} {s : St},
    path.length < fuel → Inv sb Γ s (k ::ₘ T) F L → Pinned s T L →
    (¬Γ.allows .ilockNoType → (view sb s).Quiet ∧ (view sb s).Closed ∧ (tree sb s.cache (s.inum k)).isSome) →
    (∀ s', Inv sb Γ s' T F L → Keep T s s' → ((view sb s).Quiet → view sb s' = view sb s ∧
      walk (tree sb s.cache) nameiparent (s.inum k) path fuel = none) → Q none s') →
    (∀ ip name s', Inv sb Γ s' (ip ::ₘ T) F L → Keep T s s' →
      (nameiparent = true → ∃ n, tree sb s'.cache (s'.inum ip) = some n ∧ n.type = T_DIR) →
      ((view sb s).Quiet → view sb s' = view sb s ∧
        walk (tree sb s.cache) nameiparent (s.inum k) path fuel = some (s'.inum ip, name)) → Q (some (ip, name)) s') →
    Γ.wp (namexFrom sb nameiparent k path fuel) s Q
  | 0, _, _, _, hlen, _, _, _, _, _ => absurd hlen (Nat.not_lt_zero _)
  | fuel + 1, path, k, s, hlen, h, hLT, hE, hnone, hsome => by
    have hmem := Multiset.mem_cons_self k T
    rw [namexFrom]
    cases hskip : skipelem path with
    | none =>
      dsimp only
      cases nameiparent with
      | true =>
        rw [if_pos rfl, wp_bind]
        refine iput_quiet_wp h hLT fun s' hI hkeep hview => hnone s' hI hkeep fun hq => ⟨hview hq, ?_⟩
        simp [walk, hskip]
      | false =>
        refine hsome k [] s h (Keep.refl T s) (fun hp => absurd hp Bool.false_ne_true) fun _ => ⟨rfl, ?_⟩
        simp [walk, hskip]
    | some r =>
      obtain ⟨name, rest⟩ := r
      have hrest := skipelem_length hskip
      dsimp only
      rw [wp_bind]
      refine lock_wp h (h.ref_pos_of_mem hmem) (fun h0 => ?_) fun n hI hL => ?_
      · by_contra hno
        have := (hE hno).2.2
        rw [h0] at this
        cases this
      have hnode : tree sb s.cache (s.inum k) = some n := hL.node
      have htype : ((s.load sb Γ.me k).node k).type = n.type := by rw [hL.mem hI, hL.type]
      have hview : view sb (s.load sb Γ.me k) = view sb s := (Keep.load T s k).view rfl
      simp only [wp_bind, wp_getNode, htype]
      rw [wp_ite]
      constructor
      · intro hdir
        rw [wp_bind]
        refine iunlockput_quiet_wp hI fun s' hI' hkeep hv => ?_
        refine hnone s' hI' ((Keep.load T s k).trans hkeep) fun hq => ⟨(hv (by rwa [hview])).trans hview, ?_⟩
        simp [walk, hskip, hnode, hdir]
      intro hdir
      rw [not_not] at hdir
      rw [wp_ite]
      constructor
      · rintro ⟨hp, hr⟩
        rw [wp_bind]
        refine iunlock_wp hI fun hI' => ?_
        refine hsome k name _ hI' ((Keep.load T s k).trans (Keep.setLock ..)) (fun _ => ⟨n, hnode, hdir⟩)
          fun _ => ⟨hview, ?_⟩
        simp [walk, hskip, hnode, hdir, hp, hr]; rfl
      intro hpr
      rw [wp_bind]
      refine dirlookup_wp hI hL hdir hfull (fun hl => ?_) fun j e next s₂ _ hl hI₂ hkeep₂ hc₂ hinum _ => ?_
      · rw [wp_bind]
        refine iunlockput_quiet_wp hI fun s' hI' hkeep hv => ?_
        refine hnone s' hI' ((Keep.load T s k).trans hkeep) fun hq => ⟨(hv (by rwa [hview])).trans hview, ?_⟩
        simp [walk, hskip, hnode, hdir, hpr, hl]
      · have hview₂ : view sb s₂ = view sb s := (hkeep₂.view (by rw [hc₂])).trans hview
        dsimp only
        rw [Multiset.cons_swap] at hI₂
        rw [wp_bind]
        refine iunlockput_quiet_wp hI₂ fun s₃ hI₃ hkeep₃ hv₃ => ?_
        rw [hview₂] at hv₃
        have hkeep : Keep T s s₃ := ((Keep.load T s k).trans (hkeep₂.weaken (Multiset.le_cons_self T k))).trans
          (hkeep₃.weaken (Multiset.le_cons_self T next))
        have hnext : s₃.inum next = e.inum := by
          rw [hkeep₃.inum next (Nat.add_pos_right _ (Multiset.count_pos.mpr (Multiset.mem_cons_self next T))), hinum]
        have hwalk : walk (tree sb s.cache) nameiparent (s.inum k) path (fuel + 1) =
            walk (tree sb s.cache) nameiparent e.inum rest fuel := by
          simp [walk, hskip, hnode, hdir, hpr, hl]
        have htree : (view sb s).Quiet → tree sb s₃.cache = tree sb s.cache := fun hq => congrArg View.node (hv₃ hq)
        refine namexFrom_wp hfull (by omega) hI₃ (hLT.keep hkeep) (fun hno => ?_) (fun s' hI' hkeep' hw => ?_)
          fun ip nm s' hI' hkeep' hd hw => ?_
        · obtain ⟨hq, hclosed, _⟩ := hE hno
          rw [hv₃ hq, htree hq, hnext]
          obtain ⟨hmem, hne, _⟩ := lookupName_some hl
          exact ⟨hq, hclosed, hclosed.ents _ _ hnode e hmem hne⟩
        · refine hnone s' hI' (hkeep.trans hkeep') fun hq => ?_
          have hw := hw (by rwa [hv₃ hq])
          rw [hv₃ hq, htree hq, hnext] at hw
          exact ⟨hw.1, by rw [hwalk]; exact hw.2⟩
        · refine hsome ip nm s' hI' (hkeep.trans hkeep') hd fun hq => ?_
          have hw := hw (by rwa [hv₃ hq])
          rw [hv₃ hq, htree hq, hnext] at hw
          exact ⟨hw.1, by rw [hwalk]; exact hw.2⟩

/-- Paths lead to inodes that exist. -/
theorem walk_isSome {A : View} (hA : A.Closed) {j : Nat} {nm : Name} : ∀ {fuel i : Nat} {path : Name},
    (A.node i).isSome → walk A.node nameiparent i path fuel = some (j, nm) → (A.node j).isSome
  | 0, _, _, _, h => by cases h
  | fuel + 1, i, path, hi, h => by
    rw [walk] at h
    cases hskip : skipelem path with
    | none =>
      rw [hskip] at h
      cases nameiparent with
      | true => cases h
      | false => cases h; exact hi
    | some r =>
      obtain ⟨n, hn⟩ := isSome_iff_exists.mp hi
      rw [hskip] at h
      dsimp only at h
      rw [hn, bind_some] at h
      split at h
      · cases h
      split at h
      · cases h; exact hi
      · obtain ⟨e, he, hw⟩ := bind_eq_some_iff.mp h
        obtain ⟨hmem, hne, _⟩ := lookupName_some he
        exact walk_isSome hA (hA.ents _ _ hn e hmem hne) hw

/-- What is held is in the tree. -/
theorem Inv.held_isSome (h : Inv sb Γ s T F L) (hk : 0 < held s.file s.cwd k) :
    (tree sb s.cache (s.inum k)).isSome := by
  rw [tree_live ⟨h.range k (h.ref_pos (Nat.add_pos_left hk _)), h.alloc k hk⟩]; rfl

/-- `namex` starts at the root or at the current directory. -/
theorem startDir_wp {path : Name} {R : Slot → St → Prop} (h : Inv sb Γ s T F L) (hfull : Γ.allows .igetNoInodes)
    (hR : ∀ k s', Inv sb Γ s' (k ::ₘ T) F L → Keep T s s' → s'.cache = s.cache →
      (view sb s).start Γ.me path = some (s'.inum k) →
      ((view sb s).Closed → (tree sb s.cache (s'.inum k)).isSome) → R k s') :
    Γ.wp (startDir path) s R := by
  rw [startDir, wp_ite]
  constructor
  · intro hroot
    refine iget_wp h sb.root_lt hfull fun k s' hI hkeep hc hinum _ => hR k s' hI hkeep hc ?_ fun hC => ?_
    · rw [View.start, if_pos hroot, hinum]
    · rw [hinum]; exact hC.root
  · intro hroot
    rw [wp_bind]
    refine wp_getCwd fun k hk => ?_
    have hheld : 0 < held s.file s.cwd k := held_of_cwd hk
    rw [wp_bind, wp_idup, wp_pure]
    refine hR k _ (h.idup (h.ref_pos (Nat.add_pos_left hheld _))) ⟨rfl, rfl, rfl, fun _ _ => rfl, fun _ _ => id⟩ rfl ?_
      fun _ => h.held_isSome hheld
    rw [View.start, if_neg hroot]
    change (s.cwd Γ.me).map s.inum = some (s.inum k)
    rw [hk]; rfl

/-- `namex` follows the path. -/
theorem namex_wp [Γ.Writes] {path : Name} (h : Inv sb Γ s T F L) (hfull : Γ.allows .igetNoInodes)
    (hE : ¬Γ.allows .ilockNoType → (view sb s).Quiet ∧ (view sb s).Closed)
    (hnone : ∀ s', Inv sb Γ s' T F L → Keep T s s' → ((view sb s).Quiet → view sb s' = view sb s ∧
      ((view sb s).start Γ.me path).bind (walk (view sb s).node nameiparent · path (path.length + 1)) = none) →
      Q none s')
    (hsome : ∀ ip name s', Inv sb Γ s' (ip ::ₘ T) F L → Keep T s s' →
      (nameiparent = true → ∃ n, tree sb s'.cache (s'.inum ip) = some n ∧ n.type = T_DIR) →
      (¬Γ.allows .ilockNoType → (tree sb s'.cache (s'.inum ip)).isSome) →
      ((view sb s).Quiet → view sb s' = view sb s ∧
        ((view sb s).start Γ.me path).bind (walk (view sb s).node nameiparent · path (path.length + 1)) =
          some (s'.inum ip, name)) → Q (some (ip, name)) s') :
    Γ.wp (namex sb path nameiparent) s Q := by
  rw [namex, wp_bind]
  refine startDir_wp h hfull fun k s₁ hI₁ hkeep₁ hc hstart hex => ?_
  have hview : view sb s₁ = view sb s := hkeep₁.view (by rw [hc])
  have hnode : tree sb s₁.cache = (view sb s).node := by rw [hc]; rfl
  refine namexFrom_wp hfull (Nat.lt_succ_self _) hI₁ (h.pinned.keep hkeep₁) (fun hno => ?_) (fun s' hI hkeep hw => ?_)
    fun ip nm s' hI hkeep hd hw => ?_
  · obtain ⟨hq, hC⟩ := hE hno
    rw [hview, hnode]
    exact ⟨hq, hC, hex hC⟩
  · rw [hview, hnode] at hw
    exact hnone s' hI (hkeep₁.trans hkeep) fun hq => ⟨(hw hq).1, by rw [hstart]; exact (hw hq).2⟩
  · rw [hview, hnode] at hw
    refine hsome ip nm s' hI (hkeep₁.trans hkeep) hd (fun hno => ?_) fun hq => ⟨(hw hq).1, by rw [hstart]; exact (hw hq).2⟩
    obtain ⟨hq, hC⟩ := hE hno
    have htree : tree sb s'.cache = (view sb s).node := congrArg View.node (hw hq).1
    rw [htree]
    exact walk_isSome hC (hex hC) (hw hq).2

end Namex

theorem namei_wp [Γ.Writes] {path : Name} {Q : Option Slot → St → Prop} (h : Inv sb Γ s T F L)
    (hfull : Γ.allows .igetNoInodes) (hE : ¬Γ.allows .ilockNoType → (view sb s).Quiet ∧ (view sb s).Closed)
    (hnone : ∀ s', Inv sb Γ s' T F L → Keep T s s' →
      ((view sb s).Quiet → view sb s' = view sb s ∧ (view sb s).resolve Γ.me path = none) → Q none s')
    (hsome : ∀ ip s', Inv sb Γ s' (ip ::ₘ T) F L → Keep T s s' →
      (¬Γ.allows .ilockNoType → (tree sb s'.cache (s'.inum ip)).isSome) →
      ((view sb s).Quiet → view sb s' = view sb s ∧ (view sb s).resolve Γ.me path = some (s'.inum ip)) →
      Q (some ip) s') : Γ.wp (namei sb path) s Q := by
  have hres : (view sb s).resolve Γ.me path = (((view sb s).start Γ.me path).bind
      (walk (view sb s).node false · path (path.length + 1))).map Prod.fst := by
    rw [View.resolve, map_bind]; rfl
  rw [namei, wp_bind]
  refine namex_wp h hfull hE (fun s' hI hkeep hw => ?_) fun ip nm s' hI hkeep _ hex hw => ?_
  · exact hnone s' hI hkeep fun hq => ⟨(hw hq).1, by rw [hres, (hw hq).2]; rfl⟩
  · exact hsome ip s' hI hkeep hex fun hq => ⟨(hw hq).1, by rw [hres, (hw hq).2]; rfl⟩

end Xv6.Fs
