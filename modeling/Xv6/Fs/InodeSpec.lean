import Xv6.Fs.Inv

/-! What the inode layer does to the invariant and to the tree: `ilock` loads, `iupdate` and `writei`
    replace a node, `ialloc` adds an empty one, and `iput` drops a token and, if it was the last
    reference to an inode without links, removes the node. -/

namespace Xv6.Fs
open Prog hiding wp_bind wp_pure wp_when wp_mono
open Ctx Bytes Function Multiset

variable {sb : Super} {Γ : Ctx} {s s' : St} {T L : Multiset Slot} {F : Multiset FileId} {k : Slot} {i : Nat}
  {c c' : Nat → Block} {D : Nat → Dinode} {m : Dinode}

theorem Blocks.congrNodes {D' : Nat → Dinode} (h : Blocks sb c D) (hD : ∀ i, i < sb.ninodes → D' i = D i) :
    Blocks sb c D' := by
  have hlive : ∀ i, Live sb D' i → Live sb D i := fun i hi => by
    have := hD i hi.1
    exact ⟨hi.1, by rw [← this]; exact hi.2⟩
  refine ⟨h.toBooks.congrNodes hD, fun i hi => ?_, fun i hi => ?_⟩
  · rw [hD i hi.1]; exact h.small i (hlive i hi)
  · rw [hD i hi.1]; exact h.full i (hlive i hi)

/-- The disk after a change of one inode, seen through its own inodes. -/
theorem Written.blocks' (h : Written sb (dinode sb c) i c c' m) : Blocks sb c' (dinode sb c') :=
  h.blocks.congrNodes fun j hj => by
    rw [h.disk j hj]
    by_cases hji : j = i
    · rw [if_pos hji, hji, update_self]
    · rw [if_neg hji, update_of_ne hji]

/-! ### Locking -/

/-- The state after `ilock`. -/
def St.load (sb : Super) (me : Pid) (s : St) (k : Slot) : St :=
  { s with
    ilk := update s.ilk k (some me)
    node := update s.node k (dinode sb s.cache (s.inum k))
    valid := update s.valid k true }

section Load
variable {me : Pid}
@[simp] theorem St.load_node : (s.load sb me k).node k = dinode sb s.cache (s.inum k) := update_self ..
@[simp] theorem St.load_valid : (s.load sb me k).valid k = true := update_self ..
@[simp] theorem St.load_cache : (s.load sb me k).cache = s.cache := rfl
@[simp] theorem St.load_inum : (s.load sb me k).inum = s.inum := rfl
@[simp] theorem St.load_ref : (s.load sb me k).ref = s.ref := rfl
@[simp] theorem St.load_dev : (s.load sb me k).dev = s.dev := rfl

theorem Keep.load (T : Multiset Slot) (s : St) (k : Slot) : Keep T s (s.load sb me k) := by
  refine ⟨rfl, rfl, rfl, fun _ _ => rfl, fun l _ hv => ?_⟩
  change update s.valid k true l = true
  rcases eq_or_ne l k with rfl | hne
  · exact update_self ..
  · rw [update_of_ne hne]; exact hv

end Load

theorem Inv.load (h : Inv sb Γ s T F L) (hk : 0 < s.ref k) (hfree : s.ilk k = none)
    (ht : (dinode sb s.cache (s.inum k)).type ≠ 0) : Inv sb Γ (s.load sb Γ.me k) T F (k ::ₘ L) := by
  have hL : k ∉ L := fun hmem => by
    have := h.locks k
    rw [if_pos hmem, hfree] at this
    cases this
  refine { h with
    mem := fun l hl hv => ?_, typed := fun l hl hv => ?_, locks := fun l => ?_, locked := fun l hl => ?_,
    loaded := fun l hl => ?_, once := nodup_cons.mpr ⟨hL, h.once⟩ }
  · rcases eq_or_ne l k with rfl | hne
    · exact St.load_node
    · change update s.valid k true l = true at hv
      rw [update_of_ne hne] at hv
      change update s.node k _ l = _
      rw [update_of_ne hne]
      exact h.mem l hl hv
  · rcases eq_or_ne l k with rfl | hne
    · exact ht
    · change update s.valid k true l = true at hv
      rw [update_of_ne hne] at hv
      exact h.typed l hl hv
  · change update s.ilk k (some Γ.me) l = _
    rcases eq_or_ne l k with rfl | hne
    · rw [update_self, if_pos (mem_cons_self l L)]
    · rw [update_of_ne hne, h.locks l]
      simp only [mem_cons, hne, false_or]
  · rcases mem_cons.mp hl with rfl | hl
    · exact hk
    · exact h.locked l hl
  · exact (h.loaded l hl).imp_left ((Keep.load T s k).valid l (Nat.add_pos_left hl _))

variable {U : Unit → St → Prop}

theorem ilock_wp (h : Inv sb Γ s T F L) (href : 0 < s.ref k)
    (hE : (dinode sb s.cache (s.inum k)).type = 0 → Γ.allows .ilockNoType)
    (hU : Inv sb Γ (s.load sb Γ.me k) T F (k ::ₘ L) → Live sb (dinode sb s.cache) (s.inum k) →
      U () (s.load sb Γ.me k)) :
    Γ.wp (ilock sb k) s U := by
  rw [ilock, wp_bind]
  refine wp_acquire href fun hfree => ?_
  rw [wp_bind, wp_getValid]
  change Γ.wp (if s.valid k then _ else _) _ _
  cases hv : s.valid k with
  | true =>
    have hsame : s.load sb Γ.me k = s.setLock k (some Γ.me) := by
      rw [St.load, St.setLock, ← h.mem k href hv, update_eq_self, ← hv, update_eq_self]
    have hend := hU (h.load href hfree (h.typed k href hv)) (h.live href hv)
    rw [hsame] at hend
    simpa using hend
  | false =>
    simp only [Bool.false_eq_true, if_false, wp_bind, wp_getIno, wp_bread, wp_setNode,
      wp_brelse, wp_setValid, wp_getNode, update_self, wp_ite, wp_panic, wp_pure]
    refine ⟨hE, fun ht => ?_⟩
    exact hU (h.load href hfree ht) ⟨h.range k href, ht⟩

theorem Inv.unlock (h : Inv sb Γ s T F (k ::ₘ L)) : Inv sb Γ (s.setLock k none) T F L := by
  have hL : k ∉ L := (nodup_cons.mp h.once).1
  refine { h with
    locks := fun l => ?_, locked := fun l hl => h.locked l (mem_cons_of_mem hl),
    once := (nodup_cons.mp h.once).2 }
  change update s.ilk k none l = _
  rcases eq_or_ne l k with rfl | hne
  · rw [update_self, if_neg hL]
  · rw [update_of_ne hne, h.locks l]
    simp only [mem_cons, hne, false_or]

theorem iunlock_wp (h : Inv sb Γ s T F (k ::ₘ L))
    (hU : Inv sb Γ (s.setLock k none) T F L → U () (s.setLock k none)) : Γ.wp (iunlock k) s U := by
  have hmem := mem_cons_self k L
  have hlock := h.locks k
  rw [if_pos hmem] at hlock
  rw [wp_iunlock (h.locked k hmem) hlock]
  exact hU h.unlock

/-! ### Changing an inode -/

/-- The locked inode changes, in memory and on disk. -/
theorem Inv.written (h : Inv sb Γ s T F L) (hk : 0 < s.ref k) (hv : s.valid k = true) (hinum : s.inum k = i)
    (hW : Written sb (dinode sb s.cache) i s.cache c' m) (ht : m.type = (dinode sb s.cache i).type)
    (hsize : m.type = T_DIR → m.size.toNat % direntSize = 0)
    (hents : ∀ e ∈ entries c' m, e.inum < sb.ninodes)
    (hfresh : m.type = T_DIR → ∀ q, slotAddr c' m q ≠ 0 → Γ.avoid (slotAddr c' m q) →
      slotAddr s.cache (dinode sb s.cache i) q = slotAddr c' m q) : Inv sb Γ (s.put k c' m) T F L := by
  have hi : Live sb (dinode sb s.cache) i := hinum ▸ h.live hk hv
  have htype : ∀ j, j < sb.ninodes → (dinode sb c' j).type = (dinode sb s.cache j).type := by
    intro j hj
    rw [hW.disk j hj]
    split
    · subst j; exact ht
    · rfl
  have hother : ∀ l, l ≠ k → 0 < s.ref l → dinode sb c' (s.inum l) = dinode sb s.cache (s.inum l) := by
    intro l hl hpos
    rw [hW.disk _ (h.range l hpos), if_neg fun he => hl (h.uniq l k hpos hk (he.trans hinum.symm))]
  refine { h with
    mem := fun l hl hvl => ?_, typed := fun l hl hvl => ?_, alloc := fun l hl => ?_, readonly := fun f hf hw => ?_,
    blocks := hW.blocks', dirSize := fun j hj hdir => ?_, dirEnts := ?_, clean := fun b hb hmem => ?_ }
  · rcases eq_or_ne l k with rfl | hne
    · change update s.node l m l = dinode sb c' (s.inum l)
      rw [update_self, hinum, hW.disk i hi.1, if_pos rfl]
    · change update s.node k m l = dinode sb c' (s.inum l)
      rw [update_of_ne hne, hother l hne hl]
      exact h.mem l hl hvl
  · change (dinode sb c' (s.inum l)).type ≠ 0
    rw [htype _ (h.range l hl)]; exact h.typed l hl hvl
  · change (dinode sb c' (s.inum l)).type ≠ 0
    rw [htype _ (h.range l (h.ref_pos (Nat.add_pos_left hl _)))]; exact h.alloc l hl
  · change (dinode sb c' (s.inum (s.file f).ip)).type ≠ T_DIR
    have hheld : 0 < held s.file s.cwd (s.file f).ip := held_of_file hf
    rw [htype _ (h.range _ (h.ref_pos (Nat.add_pos_left hheld _)))]
    exact h.readonly f hf hw
  · change (dinode sb c' j).type = T_DIR at hdir
    change (dinode sb c' j).size.toNat % direntSize = 0
    have hj' : Live sb (dinode sb c') j := hj
    rw [hW.disk j hj'.1] at hdir ⊢
    by_cases hji : j = i
    · rw [if_pos hji] at hdir ⊢; exact hsize hdir
    · rw [if_neg hji] at hdir ⊢
      exact h.dirSize j ⟨hj'.1, by rw [hdir]; decide⟩ hdir
  · change ∀ j n, tree sb c' j = some n → _
    rw [tree_written h.blocks hi.1 hW (by rw [ht]; exact hi.2)]
    exact (forall_update_iff (tree sb s.cache)
      fun _ o => ∀ n, o = some n → ∀ e ∈ n.ents, e.inum < sb.ninodes).mpr
      ⟨by rintro _ ⟨⟩; exact hents, fun j _ => h.dirEnts j⟩
  · refine h.clean b hb (mem_Dirs_of_written hW hi ht hmem fun hd q hq => ?_)
    subst hq
    exact hfresh hd q hmem.1 hb

theorem Keep.put (T : Multiset Slot) (s : St) (k : Slot) (c : Nat → Block) (m : Dinode) : Keep T s (s.put k c m) :=
  ⟨rfl, rfl, rfl, fun _ _ => rfl, fun _ _ => id⟩

/-- `iupdate` after fields other than type, size and `addrs` have changed. -/
theorem Written.of_meta (hB : Blocks sb c (dinode sb c)) (hi : Live sb (dinode sb c) i)
    (ha : m.addrs = (dinode sb c i).addrs) (hs : m.size = (dinode sb c i).size)
    (ht : m.type = (dinode sb c i).type) : Written sb (dinode sb c) i c (putDinode sb c i m) m :=
  Written.of_wrote (Wrote.refl hB) hi ha ht (by rw [hs]; exact hB.small i hi) fun bn hbn => by
    rw [slotAddr_of_addrs ha]
    exact hB.full i hi bn (by rwa [hs] at hbn)

theorem nodeOf_meta (hB : Blocks sb c (dinode sb c)) (hi : Live sb (dinode sb c) i)
    (ha : m.addrs = (dinode sb c i).addrs) (hs : m.size = (dinode sb c i).size)
    (ht : m.type = (dinode sb c i).type) :
    nodeOf (putDinode sb c i m) m =
      { nodeOf c (dinode sb c i) with major := m.major, minor := m.minor, nlink := m.nlink } := by
  have hgrow : Grow sb (fun _ => True) (dinode sb c) i c c (dinode sb c i) := Grow.refl hB
  have hc := ((hgrow.stored 0).putDinode hB hi ha).contents_self (hB.full i hi) hs
  rw [nodeOf, hc, entries_congr ht hs hc, ht]
  rfl

/-- `iupdate` of a locked inode whose link count or device numbers have changed. -/
theorem Inv.setMeta (h : Inv sb Γ s T F L) (hk : 0 < s.ref k) (hv : s.valid k = true) (hinum : s.inum k = i)
    (ha : m.addrs = (dinode sb s.cache i).addrs) (hs : m.size = (dinode sb s.cache i).size)
    (ht : m.type = (dinode sb s.cache i).type) :
    Inv sb Γ (s.put k (putDinode sb s.cache i m) m) T F L ∧
      tree sb (putDinode sb s.cache i m) = update (tree sb s.cache) i
        (some { nodeOf s.cache (dinode sb s.cache i) with
          major := m.major, minor := m.minor, nlink := m.nlink }) := by
  have hi : Live sb (dinode sb s.cache) i := hinum ▸ h.live hk hv
  have hW := Written.of_meta h.blocks hi ha hs ht
  have hnode := nodeOf_meta h.blocks hi ha hs ht
  refine ⟨h.written hk hv hinum hW ht (fun hd => ?_) ?_ (fun _ q _ _ => ?_), ?_⟩
  · rw [hs]; exact h.dirSize i hi (by rw [← ht]; exact hd)
  · have : entries (putDinode sb s.cache i m) m = (nodeOf s.cache (dinode sb s.cache i)).ents :=
      congrArg Node.ents hnode
    rw [this]; exact h.dirEnts i _ (tree_live hi)
  · rw [slotAddr_of_addrs ha, (h.blocks.same_data hi fun x hx => putDinode_data hi.1 hx m).addr]
  · rw [tree_written h.blocks hi.1 hW (by rw [ht]; exact hi.2), hnode]

/-! ### Changes to inodes that nobody has loaded -/

/-- The disk changes under no table entry that is valid or held. -/
theorem Inv.onDisk (h : Inv sb Γ s T F L) (hB : Blocks sb c' (dinode sb c'))
    (hd : ∀ l, 0 < s.ref l → s.valid l = true ∨ 0 < held s.file s.cwd l →
      dinode sb c' (s.inum l) = dinode sb s.cache (s.inum l))
    (hsize : ∀ j, Live sb (dinode sb c') j → (dinode sb c' j).type = T_DIR →
      (dinode sb c' j).size.toNat % direntSize = 0)
    (hents : ∀ j n, tree sb c' j = some n → ∀ e ∈ n.ents, e.inum < sb.ninodes)
    (hclean : Dirs sb c' ⊆ Dirs sb s.cache) : Inv sb Γ { s with cache := c' } T F L := by
  refine { h with
    mem := fun l hl hv => ?_, typed := fun l hl hv => ?_, alloc := fun l hl => ?_, readonly := fun f hf hw => ?_,
    blocks := hB, dirSize := hsize, dirEnts := hents, clean := fun b hb hmem => h.clean b hb (hclean hmem) }
  · rw [h.mem l hl hv]; exact (hd l hl (.inl hv)).symm
  · change (dinode sb c' (s.inum l)).type ≠ 0
    rw [hd l hl (.inl hv)]; exact h.typed l hl hv
  · change (dinode sb c' (s.inum l)).type ≠ 0
    rw [hd l (h.ref_pos (Nat.add_pos_left hl _)) (.inr hl)]; exact h.alloc l hl
  · change (dinode sb c' (s.inum (s.file f).ip)).type ≠ T_DIR
    have hheld : 0 < held s.file s.cwd (s.file f).ip := held_of_file hf
    rw [hd _ (h.ref_pos (Nat.add_pos_left hheld _)) (.inr hheld)]
    exact h.readonly f hf hw

theorem slotAddr_of_zero (h : ∀ j, m.addrs j = 0) (q : Nat) : slotAddr c m q = 0 := by
  rcases lt_or_ge q (NDIRECT + 1) with hq | hq
  · rw [slotAddr_direct hq, h]; rfl
  · exact slotAddr_of_no_indirect (h _) hq

/-- An inode without contents becomes free. -/
theorem Blocks.free (h : Blocks sb c D) (hi : Live sb D i) (haddrs : ∀ j, (D i).addrs j = 0) (hm : m.type = 0) :
    Blocks sb c (update D i m) := by
  have hzero : ∀ q, slotAddr c (D i) q = 0 := slotAddr_of_zero haddrs
  have hlive : ∀ j, Live sb (update D i m) j → j ≠ i := by
    rintro j hj rfl
    rw [Live, update_self] at hj
    exact hj.2 hm
  refine ⟨⟨h.ledger.congr (fun p => ?_) fun _ _ => Iff.rfl, h.reserved⟩, fun j hj => ?_, fun j hj => ?_⟩
  · unfold addrOf
    by_cases hp : p.1 = i
    · rw [hp, if_pos hi, hzero, if_neg fun hl => hlive i hl rfl]
    · simp only [Live, update_of_ne hp]
  · have hne := hlive j hj
    rw [Live, update_of_ne hne] at hj
    rw [update_of_ne hne]; exact h.small j hj
  · have hne := hlive j hj
    rw [Live, update_of_ne hne] at hj
    rw [update_of_ne hne]; exact h.full j hj

/-- Inode `i` is free, all other inodes and their contents are as before. -/
structure Freed (sb : Super) (i : Nat) (c c' : Nat → Block) : Prop where
  blocks : Blocks sb c' (dinode sb c')
  disk : ∀ j, j < sb.ninodes → j ≠ i → dinode sb c' j = dinode sb c j
  others : ∀ j, j ≠ i → Live sb (dinode sb c) j → Same c c' (dinode sb c j)
  free : i < sb.ninodes → (dinode sb c' i).type = 0

/-- `itrunc`, then `type = 0` and `iupdate`. -/
theorem Freed.of_truncated (hi : Live sb (dinode sb c) i)
    (hW : Written sb (dinode sb c) i c c' (dinode sb c i).truncated) :
    Freed sb i c (putDinode sb c' i { (dinode sb c i).truncated with type := 0 }) := by
  have hD : update (dinode sb c) i (dinode sb c i).truncated i = (dinode sb c i).truncated :=
    update_self ..
  have hlive : Live sb (update (dinode sb c) i (dinode sb c i).truncated) i := by
    rw [Live, hD]; exact hi
  have hB := hW.blocks.free hlive (m := { (dinode sb c i).truncated with type := 0 })
    (by rw [hD]; exact fun _ => rfl) rfl
  rw [update_idem] at hB
  refine ⟨(hB.putDinode hi.1 _).congrNodes fun j hj => ?_, fun j hj hji => ?_, fun j hji hj => ?_, fun _ => ?_⟩
  · rw [dinode_putDinode]
    by_cases hji : j = i
    · rw [if_pos hji, hji, update_self]
    · rw [if_neg hji, update_of_ne hji, hW.disk j hj, if_neg hji]
  · rw [dinode_putDinode, if_neg hji, hW.disk j hj, if_neg hji]
  · refine (hW.others j hji hj).trans ?_
    have hlive : Live sb (update (dinode sb c) i (dinode sb c i).truncated) j := by rwa [Live, update_of_ne hji]
    have := hW.blocks.same_data hlive fun x hx => putDinode_data hi.1 hx { (dinode sb c i).truncated with type := 0 }
    rwa [update_of_ne hji] at this
  · rw [dinode_putDinode, if_pos rfl]

theorem Freed.tree (h : Freed sb i c c') (hB : Blocks sb c (dinode sb c)) :
    tree sb c' = update (tree sb c) i none := by
  funext j
  rcases eq_or_ne j i with rfl | hj
  · rw [update_self]
    exact if_neg fun hl => hl.2 (h.free hl.1)
  · rw [update_of_ne hj, Fs.tree, Fs.tree]
    by_cases hlt : j < sb.ninodes
    · simp only [Live, h.disk j hlt hj]
      split
      · rw [nodeOf_same (h.others j hj ‹_›) (hB.full j ‹_›)]
      · rfl
    · rw [if_neg (fun h => hlt h.1), if_neg (fun h => hlt h.1)]

/-- The node of a free inode goes. -/
theorem Inv.freed (h : Inv sb Γ s T F L) (hF : Freed sb i s.cache c') (hi : ∀ l, 0 < s.ref l → s.inum l ≠ i) :
    Inv sb Γ { s with cache := c' } T F L := by
  have htree := hF.tree h.blocks
  refine h.onDisk hF.blocks (fun l hl _ => hF.disk _ (h.range l hl) (hi l hl)) (fun j hj hdir => ?_) ?_ ?_
  · have hji : j ≠ i := by rintro rfl; exact hj.2 (hF.free hj.1)
    rw [Live, hF.disk j hj.1 hji] at hj
    rw [hF.disk j hj.1 hji] at hdir ⊢
    exact h.dirSize j hj hdir
  · rw [htree]
    exact (forall_update_iff (tree sb s.cache)
      fun _ o => ∀ n, o = some n → ∀ e ∈ n.ents, e.inum < sb.ninodes).mpr ⟨by rintro _ ⟨⟩, fun j _ => h.dirEnts j⟩
  · rintro b ⟨h0, j, q, hj, hdir, hq⟩
    have hji : j ≠ i := by rintro rfl; exact hj.2 (hF.free hj.1)
    rw [hF.disk j hj.1 hji] at hdir hq
    have hlive : Live sb (dinode sb s.cache) j := ⟨hj.1, by rw [hdir]; decide⟩
    exact ⟨h0, j, q, hlive, hdir, by rw [← (hF.others j hji hlive).addr]; exact hq⟩

/-- The copy in a free table entry does not matter. -/
theorem Inv.setDead (h : Inv sb Γ s T F L) (hk : s.ref k = 0) (d : Dinode) (v : Bool) :
    Inv sb Γ { s with node := update s.node k d, valid := update s.valid k v } T F L := by
  have hne : ∀ l, 0 < s.ref l → l ≠ k := by rintro l hl rfl; omega
  refine { h with mem := fun l hl hv => ?_, typed := fun l hl hv => ?_, loaded := fun l hl => ?_ }
  · change update s.valid k v l = true at hv
    change update s.node k d l = _
    rw [update_of_ne (hne l hl)] at hv ⊢
    exact h.mem l hl hv
  · change update s.valid k v l = true at hv
    rw [update_of_ne (hne l hl)] at hv
    exact h.typed l hl hv
  · change update s.valid k v l = true ∨ _
    rw [update_of_ne (hne l (h.ref_pos (Nat.add_pos_left hl _)))]; exact h.loaded l hl

/-! ### `iput` -/

/-- `iput` drops a token. If that was the last reference to an inode without links, its node goes. -/
theorem iput_wp [Γ.Writes] (h : Inv sb Γ s (k ::ₘ T) F L) (hL : Pinned s T L)
    (hmore : ¬s.Last k → ∀ s', Inv sb Γ s' T F L → Keep T s s' → s'.cache = s.cache → U () s')
    (hlast : s.valid k = true → (dinode sb s.cache (s.inum k)).nlink = 0 → held s.file s.cwd k + T.count k = 0 →
      ∀ s', Inv sb Γ s' T F L → Keep T s s' → Freed sb (s.inum k) s.cache s'.cache → U () s') :
    Γ.wp (iput sb k) s U := by
  have hrefs := h.refs k
  rw [count_cons_self] at hrefs
  rw [iput, wp_bind]
  refine wp_iputTest (fun ⟨href, hv, hn⟩ => ?_) fun hnot => ?_
  · have hk : 0 < s.ref k := by omega
    have hzero : held s.file s.cwd k + T.count k = 0 := by omega
    -- nobody has the entry locked: there is no other reference
    have hnot : k ∉ L := fun hmem => absurd (hL.pos k hmem) (by omega)
    have hfree : s.ilk k = none := by rw [h.locks k, if_neg hnot]
    refine ⟨hfree, ?_⟩
    have hlive := h.live hk hv
    rw [h.mem k hk hv] at hn
    rw [if_pos rfl, wp_bind]
    refine itrunc_wp (s := s.setLock k (some Γ.me)) h.blocks hlive (h.mem k hk hv) rfl fun c₁ hW => ?_
    have hF := Freed.of_truncated hlive hW
    simp only [wp_bind, wp_getNode, St.put_node, wp_setNode, wp_iupdate, wp_setValid,
      wp_releasesleep, wp_iputDrop, update_self]
    have hdrop : Inv sb Γ (s.setRef k 0) T F L :=
      h.setRef hk hzero.symm (fun l hl => (count_cons_of_ne hl _).symm) fun h => absurd h hnot
    have hdead := (hdrop.setDead (k := k) (by simp) { (dinode sb s.cache (s.inum k)).truncated with type := 0 } false).freed hF
      fun l hl he => by
        change 0 < update s.ref k 0 l at hl
        change s.inum l = s.inum k at he
        have hne : l ≠ k := by rintro rfl; simp at hl
        rw [update_of_ne hne] at hl
        exact hne (h.uniq l k hl hk he)
    have hpin : ∀ l, 0 < held s.file s.cwd l + T.count l → l ≠ k := by rintro l hl rfl; omega
    have hend := hlast hv hn hzero _ hdead ⟨rfl, rfl, rfl, fun _ _ => rfl, fun l hl hvl => ?_⟩ hF
    · simpa [St.put, St.setRef, St.setLock, href, ← hfree] using hend
    · change update s.valid k false l = true
      rw [update_of_ne (hpin l hl)]; exact hvl
  · have hk : 0 < s.ref k := by omega
    rw [if_neg Bool.false_ne_true, wp_pure]
    exact hmore hnot _ (h.setRef hk (by omega) (fun l hl => (count_cons_of_ne hl _).symm)
      fun hmem => by have := hL.pos k hmem; omega)
      ⟨rfl, rfl, rfl, fun _ _ => rfl, fun _ _ => id⟩ rfl

/-- The lock goes first, then the token. -/
theorem Inv.pinned_unlock (h : Inv sb Γ s (k ::ₘ T) F (k ::ₘ L)) : Pinned (s.setLock k none) T L := ⟨fun l hl => by
  have hne : l ≠ k := fun he => (nodup_cons.mp h.once).1 (he ▸ hl)
  have := h.pinned.pos l (mem_cons_of_mem hl)
  rwa [count_cons_of_ne hne] at this⟩

theorem Inv.idup (h : Inv sb Γ s T F L) (hk : 0 < s.ref k) : Inv sb Γ (s.setRef k (s.ref k + 1)) (k ::ₘ T) F L := by
  refine h.setRef hk ?_ (fun l hl => count_cons_of_ne hl _) fun _ => Nat.succ_pos _
  rw [count_cons_self, h.refs]; omega

/-! ### `ialloc` -/

/-- A fresh inode of type `type`. -/
def Dinode.fresh (type : Int16) : Dinode := { Dinode.zero with type := type }

variable {type : Int16}

theorem Written.of_fresh (hB : Blocks sb c (dinode sb c)) (hi : i < sb.ninodes) (hfree : (dinode sb c i).type = 0) (ht : type ≠ 0) :
    Written sb (dinode sb c) i c (putDinode sb c i (Dinode.fresh type)) (Dinode.fresh type) where
  blocks := (hB.new hi hfree (m := Dinode.fresh type) ht rfl fun _ => rfl).putDinode hi _
  others := fun _ _ hl => hB.same_data hl fun _ hx => putDinode_data hi hx _
  disk := fun _ _ => dinode_putDinode ..

/-- What `ialloc` makes. -/
def Node.fresh (type : Int16) : Node := ⟨type, 0, 0, 0, [], []⟩

theorem nodeOf_fresh (type : Int16) : nodeOf c (Dinode.fresh type) = Node.fresh type := by
  have hents : entries c (Dinode.fresh type) = [] := by
    simp [entries, Dinode.fresh, Dinode.zero]
  rw [nodeOf, hents]; rfl

theorem Inv.new (h : Inv sb Γ s T F L) (hi : i < sb.ninodes) (hfree : (dinode sb s.cache i).type = 0) (ht : type ≠ 0) :
    Inv sb Γ { s with cache := putDinode sb s.cache i (Dinode.fresh type) } T F L ∧
      tree sb (putDinode sb s.cache i (Dinode.fresh type)) =
        update (tree sb s.cache) i (some (Node.fresh type)) := by
  have hW := Written.of_fresh h.blocks hi hfree ht
  have htree := tree_written h.blocks hi hW ht
  rw [nodeOf_fresh] at htree
  refine ⟨h.onDisk hW.blocks' (fun l hl hor => ?_) (fun j hj hdir => ?_) ?_ ?_, htree⟩
  · rw [dinode_putDinode, if_neg]
    rintro rfl
    rcases hor with hv | hheld
    · exact h.typed l hl hv hfree
    · exact h.alloc l hheld hfree
  · rw [dinode_putDinode] at hdir ⊢
    by_cases hji : j = i
    · rw [if_pos hji]; rfl
    · rw [Live, dinode_putDinode] at hj
      rw [if_neg hji] at hj hdir ⊢
      exact h.dirSize j hj hdir
  · rw [htree]
    exact (forall_update_iff (tree sb s.cache)
      fun _ o => ∀ n, o = some n → ∀ e ∈ n.ents, e.inum < sb.ninodes).mpr
      ⟨by rintro _ ⟨⟩ e he; exact absurd he List.not_mem_nil, fun j _ => h.dirEnts j⟩
  · rintro b ⟨h0, j, q, hj, hdir, hq⟩
    rw [dinode_putDinode] at hdir hq
    by_cases hji : j = i
    · rw [if_pos hji, slotAddr_of_zero fun _ => rfl] at hq
      exact absurd hq.symm h0
    · rw [if_neg hji] at hdir hq
      have hlive : Live sb (dinode sb s.cache) j := ⟨hj.1, by rw [hdir]; decide⟩
      exact ⟨h0, j, q, hlive, hdir, by rw [← (hW.others j hji hlive).addr]; exact hq⟩

section Ialloc
variable [Γ.Writes] {Q : Option Slot → St → Prop} (h : Inv sb Γ s T F L) (ht : type ≠ 0)
  (hfull : Γ.allows .igetNoInodes) (hnone : Q none s)
  (hsome : ∀ k i s', 0 < i → tree sb s.cache i = none → Inv sb Γ s' (k ::ₘ T) F L → Keep T s s' →
    tree sb s'.cache = update (tree sb s.cache) i (some (Node.fresh type)) → s'.inum k = i → Q (some k) s')
include h ht hfull hnone hsome

theorem iallocFrom_wp : ∀ {n inum : Nat}, 0 < inum → Γ.wp (iallocFrom sb ROOTDEV type inum n) s Q
  | 0, _, _ => hnone
  | n + 1, inum, hpos => by
    rw [iallocFrom, wp_ite]
    refine ⟨fun hlt => ?_, fun _ => hnone⟩
    simp only [wp_bind, wp_bread]
    rw [wp_ite]
    constructor
    · intro hfree
      obtain ⟨hnew, htree⟩ := h.new hlt hfree ht
      simp only [wp_bind, wp_bmod, wp_logWrite, wp_brelse]
      refine iget_wp hnew hlt hfull fun k s' hI hkeep hc hinum _ => ?_
      exact hsome k inum s' hpos (tree_free hfree) hI ⟨hkeep.file, hkeep.cwd, hkeep.ofile, hkeep.inum, hkeep.valid⟩
        (by rw [hc]; exact htree) hinum
    · intro _
      simp only [wp_bind, wp_brelse]
      exact iallocFrom_wp (Nat.succ_pos _)

/-- `ialloc` finds nothing, or gives a token for an inode that was free. -/
theorem ialloc_wp : Γ.wp (ialloc sb ROOTDEV type) s Q := iallocFrom_wp h ht hfull hnone hsome one_pos

end Ialloc

end Xv6.Fs
