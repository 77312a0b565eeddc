import Xv6.Fs.InodeSpec
import Xv6.Fs.Sysfile

/-! What the directory functions do, in terms of the list of entries: `dirlookup` finds the first entry
    with the name, `dirlink` puts a new entry into a free place or at the end provided the name is not
    there, and `isdirempty` looks past the first two.

    `Locked sb s k n`: the inode in table entry `k` is locked and its node is `n`. -/

namespace Xv6.Fs
open Prog hiding wp_bind wp_pure wp_when wp_mono
open Ctx Bytes List

/-- The entry a name refers to: the first one in use with that name. -/
def lookupName (es : List Entry) (name : Name) : Option Entry :=
  es.find? fun e => e.inum != 0 && e.name == name

/-- Place `j` is one that `dirlink` uses: a free entry, or the end. -/
def FreePlace (es : List Entry) (j : Nat) : Prop := (es[j]?.elim True fun e => e.inum = 0) ∧ j ≤ es.length

/-- The directory has no entries but the first two. -/
def noEntries (es : List Entry) : Bool := (es.drop 2).all fun e => e.inum == 0

variable {sb : Super} {Γ : Ctx} {s s' : St} {T L : Multiset Slot} {F : Multiset FileId} {k : Slot}
  {i : Nat} {name : Name} {n : Node}

theorem lookupName_none {es : List Entry} :
    lookupName es name = none ↔ ∀ e ∈ es, e.inum ≠ 0 → e.name ≠ name := by
  simp [lookupName, find?_eq_none]

theorem lookupName_some {es : List Entry} {e : Entry} (h : lookupName es name = some e) :
    e ∈ es ∧ e.inum ≠ 0 ∧ e.name = name := by
  have := find?_some h
  simp only [Bool.and_eq_true, bne_iff_ne, beq_iff_eq] at this
  exact ⟨mem_of_find?_eq_some h, this⟩

/-! ### A locked inode -/

structure Locked (sb : Super) (s : St) (k : Slot) (n : Node) : Prop where
  ref : 0 < s.ref k
  valid : s.valid k = true
  node : tree sb s.cache (s.inum k) = some n

namespace Locked

section Facts
variable (hL : Locked sb s k n)
include hL

theorem eq : n = nodeOf s.cache (dinode sb s.cache (s.inum k)) :=
  (tree_eq_some hL.node).2

theorem live : Live sb (dinode sb s.cache) (s.inum k) := (tree_eq_some hL.node).1

theorem type : (dinode sb s.cache (s.inum k)).type = n.type := by rw [hL.eq]; rfl

theorem nlink : (dinode sb s.cache (s.inum k)).nlink = n.nlink := by rw [hL.eq]; rfl

theorem ents : entries s.cache (dinode sb s.cache (s.inum k)) = n.ents := by rw [hL.eq]; rfl

theorem mem (h : Inv sb Γ s T F L) : s.node k = dinode sb s.cache (s.inum k) :=
  h.mem k hL.ref hL.valid

/-- The lock is still there after other code has run. -/
theorem keep {n' : Node} (h : Table s' T F) (hkeep : Keep T s s') (hk : k ∈ T)
    (htree : tree sb s'.cache (s.inum k) = some n') : Locked sb s' k n' := by
  have hpin : 0 < held s.file s.cwd k + T.count k := Nat.add_pos_right _ (Multiset.count_pos.mpr hk)
  exact ⟨h.ref_pos_of_mem hk, hkeep.valid k hpin hL.valid, by rw [hkeep.inum k hpin]; exact htree⟩

/-- The size of a directory in terms of its entries. -/
theorem length (h : Inv sb Γ s T F L) (hdir : n.type = T_DIR) :
    direntSize * n.ents.length = (dinode sb s.cache (s.inum k)).size.toNat := by
  have hd := hL.type.trans hdir
  rw [← hL.ents, entries_length hd]
  exact Nat.mul_div_cancel' (Nat.dvd_of_mod_eq_zero (h.dirSize _ hL.live hd))

theorem off_lt (h : Inv sb Γ s T F L) (hdir : n.type = T_DIR) (j : Nat) :
    direntSize * j < (s.node k).size.toNat ↔ j < n.ents.length := by
  rw [hL.mem h, ← hL.length h hdir]
  exact Nat.mul_lt_mul_left (by decide)

theorem length_lt (h : Inv sb Γ s T F L) (hdir : n.type = T_DIR) :
    n.ents.length < (s.node k).size.toNat + 1 := by
  have hlen := hL.length h hdir
  rw [hL.mem h]
  change 16 * _ = _ at hlen
  omega

/-- Reading entry `j`. -/
theorem readDirent_wp {Q : Dirent → St → Prop} {e : Panic} {j : Nat}
    (h : Inv sb Γ s T F L) (hdir : n.type = T_DIR) (hj : j < n.ents.length)
    (hQ : ∀ de, entryOf de = n.ents[j] → Q de s) : Γ.wp (readDirent sb k (direntSize * j) e) s Q := by
  have hlen := hL.length h hdir
  have hend : direntSize * j + direntSize ≤ (dinode sb s.cache (s.inum k)).size.toNat := by
    rw [← hlen]
    change 16 * j + 16 ≤ 16 * _
    omega
  rw [wp_readDirent (by rw [hL.mem h]; exact h.blocks.full _ hL.live)
    (by rw [hL.mem h]; exact h.blocks.small _ hL.live) (Nat.mul_mod_right ..) (by rwa [hL.mem h])]
  refine hQ _ ?_
  have hj' : j < (entries s.cache (dinode sb s.cache (s.inum k))).length := by rwa [hL.ents]
  rw [hL.mem h, ← entries_getElem hj']
  simp only [hL.ents]

end Facts

end Locked

/-- `ilock` of an allocated inode. -/
theorem lock_wp {U : Unit → St → Prop} (h : Inv sb Γ s T F L) (hk : 0 < s.ref k)
    (hE : tree sb s.cache (s.inum k) = none → Γ.allows .ilockNoType)
    (hU : ∀ n, Inv sb Γ (s.load sb Γ.me k) T F (k ::ₘ L) → Locked sb (s.load sb Γ.me k) k n →
      U () (s.load sb Γ.me k)) :
    Γ.wp (ilock sb k) s U := by
  refine ilock_wp h hk (fun h0 => hE (tree_free h0)) fun hI hlive => ?_
  exact hU _ hI ⟨hk, St.load_valid, tree_live hlive⟩

/-! ### `dirlookup` -/

theorem entryOf_inum (de : Dirent) : (entryOf de).inum ≠ 0 ↔ de.inum ≠ 0 :=
  not_congr (UInt16.toNat_inj (b := 0))

/-- The test that `dirlookup` makes on an entry. -/
theorem dirent_matches (de : Dirent) : (de.inum ≠ 0 ∧ namecmp (cstr name) (cstr de.name) = 0) ↔
    ((entryOf de).inum ≠ 0 ∧ (entryOf de).name = cname name) := by
  rw [entryOf_inum, namecmp_eq_zero, eq_comm (a := cname name)]; rfl

section Lookup
variable {Q : Option (Slot × Nat) → St → Prop} (h : Inv sb Γ s T F L) (hL : Locked sb s k n) (hdir : n.type = T_DIR)
  (hfull : Γ.allows .igetNoInodes) (hnone : lookupName n.ents (cname name) = none → Q none s)
  (hsome : ∀ j e ip s', n.ents[j]? = some e → lookupName n.ents (cname name) = some e →
    Inv sb Γ s' (ip ::ₘ T) F L → Keep T s s' → s'.cache = s.cache → s'.inum ip = e.inum →
    (s'.valid ip = true → 0 < held s.file s.cwd ip + T.count ip) → Q (some (ip, direntSize * j)) s')
include h hL hdir hfull hnone hsome

theorem dirlookupFrom_wp : ∀ {fuel j : Nat}, n.ents.length < j + fuel →
    (∀ l (hl : l < n.ents.length), l < j → ¬(n.ents[l].inum ≠ 0 ∧ n.ents[l].name = cname name)) →
    Γ.wp (dirlookupFrom sb k name (direntSize * j) fuel) s Q
  | 0, j, hlen, hbefore => by
    refine hnone (lookupName_none.mpr fun e he hne hnm => ?_)
    obtain ⟨l, hl, rfl⟩ := mem_iff_getElem.mp he
    exact hbefore l hl (by omega) ⟨hne, hnm⟩
  | fuel + 1, j, hlen, hbefore => by
    simp only [dirlookupFrom, wp_bind, wp_getNode]
    rw [wp_ite, hL.off_lt h hdir]
    constructor
    · intro hj
      rw [wp_bind]
      refine hL.readDirent_wp h hdir hj fun de hde => ?_
      rw [wp_ite, dirent_matches, hde]
      constructor
      · intro hm
        have hin : de.inum.toNat = n.ents[j].inum := by rw [← hde]; rfl
        simp only [wp_bind, wp_getIno, h.dev k hL.ref, hin]
        have hlookup : lookupName n.ents (cname name) = some n.ents[j] := by
          rw [lookupName, find?_eq_some_iff_getElem]
          refine ⟨by simpa using hm, j, hj, rfl, fun l hl => ?_⟩
          simpa [imp_iff_not_or] using hbefore l (by omega) hl
        refine iget_wp h (h.dirEnts _ _ hL.node _ (getElem_mem hj)) hfull fun ip s' hI hkeep hc hinum hval => ?_
        exact hsome j _ ip s' (getElem?_eq_getElem hj) hlookup hI hkeep hc hinum hval
      · intro hm
        have hnext : direntSize * j + direntSize = direntSize * (j + 1) := (Nat.mul_succ ..).symm
        rw [hnext]
        refine dirlookupFrom_wp (by omega) fun l hl hlt => ?_
        rcases Nat.lt_succ_iff_lt_or_eq.mp hlt with hlj | rfl
        · exact hbefore l hl hlj
        · exact hm
    · intro hj
      refine hnone (lookupName_none.mpr fun e he hne hnm => ?_)
      obtain ⟨l, hl, rfl⟩ := mem_iff_getElem.mp he
      exact hbefore l hl (by omega) ⟨hne, hnm⟩

/-- `dirlookup` finds the entry the name refers to and gives a token for its inode. -/
theorem dirlookup_wp : Γ.wp (dirlookup sb k name) s Q := by
  have hd : (s.node k).type = T_DIR := by rw [hL.mem h, hL.type, hdir]
  simp only [dirlookup, wp_bind, wp_getNode, hd, ne_eq, not_true_eq_false, if_false]
  refine dirlookupFrom_wp (j := 0) h hL hdir hfull hnone hsome ?_ fun _ _ h0 => absurd h0 (Nat.not_lt_zero _)
  rw [zero_add]; exact hL.length_lt h hdir

end Lookup

/-! ### Writing an entry -/

theorem mem_putEntry {es : List Entry} {j : Nat} {e x : Entry} (h : x ∈ putEntry es j e) : x ∈ es ∨ x = e := by
  unfold putEntry at h
  split at h
  · exact mem_or_eq_of_mem_set h
  · exact (mem_append.mp h).imp_right mem_singleton.mp

/-- Writing an entry into a locked directory: it is put in place, or there is no room at the end. -/
theorem Locked.enter_wp [Γ.Links] {Q : Int → St → Prop} {j inum : Nat} (hL : Locked sb s k n)
    (h : Inv sb Γ s T F L) (hdir : n.type = T_DIR) (hj : j ≤ n.ents.length) (hin : inum < sb.ninodes)
    (hfail : j = n.ents.length → ∀ (r : Int) s', r ≠ direntSize → Inv sb Γ s' T F L → Keep T s s' →
      tree sb s'.cache = tree sb s.cache → Q r s')
    (hok : ∀ s', Inv sb Γ s' T F L → Keep T s s' → tree sb s'.cache = Function.update (tree sb s.cache)
      (s.inum k) (some (n.enter j inum name)) → Q direntSize s') :
    Γ.wp (writei sb k (.kernel (direntBytes name inum)) (direntSize * j) direntSize) s Q := by
  have hsize := hL.length h hdir
  have hd := hL.type.trans hdir
  have h16 := h.dirSize _ hL.live hd
  have hB := h.blocks
  have hge : (dinode sb s.cache (s.inum k)).size.toNat ≤ direntSize * j → j = n.ents.length := by
    rw [← hsize]
    change 16 * _ ≤ 16 * j → _
    omega
  refine writeDirent_wp hB hL.live (hL.mem h) rfl (direntBytes_length ..) (Nat.mul_mod_right ..) ?_ ?_ ?_ ?_
  · rw [← hsize]; exact Nat.mul_le_mul_left _ hj
  · intro hmax
    refine hfail (hge ?_) (-1) s (by decide) h (Keep.refl T s) rfl
    have hsmall := hB.small _ hL.live
    rw [← hsize] at hsmall ⊢
    change MAXFILE * BSIZE < 16 * j + 16 at hmax
    change 16 * _ ≤ MAXFILE * BSIZE at hsmall
    change 16 * _ ≤ 16 * j
    omega
  · intro hfull c' m hU
    have ht : m.type = (dinode sb s.cache (s.inum k)).type := by rw [hU.fields]
    have hnode := hU.nodeOf (hB.full _ hL.live)
    have hents : entries c' m = n.ents := (congrArg Node.ents hnode).trans hL.ents
    refine hfail (hge hfull) 0 _ (by decide) (h.written hL.ref hL.valid rfl hU.toWritten ht (fun _ => ?_) ?_
      fun _ q h0 hav => hU.fresh q h0 (Ctx.Links.avoids _ hav)) (Keep.put ..) ?_
    · rw [hU.fields]; exact h16
    · rw [hents]; exact h.dirEnts _ _ hL.node
    · change tree sb c' = _
      rw [tree_written hB hL.live.1 hU.toWritten (by rw [ht]; exact hL.live.2), hnode, ← hL.eq, ← hL.node,
        Function.update_eq_self]
  · intro c' m hE
    have ht : m.type = (dinode sb s.cache (s.inum k)).type := by rw [hE.fields]
    have hnode := hE.nodeOf (hin.trans_le sb.ninodes_le) (hB.full _ hL.live) hd h16 (by rwa [hL.ents])
    rw [← hL.eq] at hnode
    have hents : entries c' m = putEntry n.ents j ⟨inum, cname name⟩ := congrArg Node.ents hnode
    refine hok _ (h.written hL.ref hL.valid rfl hE.toWritten ht (fun _ => ?_) ?_
      fun _ q h0 hav => hE.fresh q h0 (Ctx.Links.avoids _ hav)) (Keep.put ..) ?_
    · rw [hE.size]
      change _ % 16 = 0 at h16
      change max _ (16 * j + 16) % 16 = 0
      omega
    · rw [hents]
      intro e he
      rcases mem_putEntry he with he | rfl
      · exact h.dirEnts _ _ hL.node e he
      · exact hin
    · change tree sb c' = _
      rw [tree_written hB hL.live.1 hE.toWritten (by rw [ht]; exact hL.live.2), hnode]

/-! ### `dirlink` -/

section Scan
variable (h : Inv sb Γ s T F L) (hL : Locked sb s k n) (hdir : n.type = T_DIR)
include h hL hdir

theorem emptyDirentFrom_wp {Q : Nat → St → Prop} (hQ : ∀ j, FreePlace n.ents j → Q (direntSize * j) s) :
    ∀ {fuel j : Nat}, j ≤ n.ents.length → n.ents.length < j + fuel →
      Γ.wp (emptyDirentFrom sb k (direntSize * j) fuel) s Q
  | 0, j, hj, hlen => absurd hlen (by omega)
  | fuel + 1, j, hj, hlen => by
    simp only [emptyDirentFrom, wp_bind, wp_getNode]
    rw [wp_ite, hL.off_lt h hdir]
    constructor
    · intro hlt
      rw [wp_bind]
      refine hL.readDirent_wp h hdir hlt fun de hde => ?_
      rw [wp_ite]
      constructor
      · intro h0
        refine hQ j ⟨?_, hj⟩
        rw [getElem?_eq_getElem hlt, ← hde]
        exact not_not.mp (mt (entryOf_inum de).mp (not_not.mpr h0))
      · intro _
        have hnext : direntSize * j + direntSize = direntSize * (j + 1) := (Nat.mul_succ ..).symm
        rw [hnext]
        exact emptyDirentFrom_wp hQ hlt (by omega)
    · intro hge
      refine hQ j ⟨?_, hj⟩
      rw [getElem?_eq_none (by omega)]; trivial

theorem isdiremptyFrom_wp {Q : Bool → St → Prop} (hQ : Q (noEntries n.ents) s) :
    ∀ {fuel j : Nat}, 2 ≤ j → n.ents.length < j + fuel → (∀ e ∈ (n.ents.take j).drop 2, e.inum = 0) →
      Γ.wp (isdiremptyFrom sb k (direntSize * j) fuel) s Q
  | 0, j, _, hlen, hz => by
    have hall : noEntries n.ents = true := by
      rw [take_of_length_le (by omega)] at hz
      simpa [noEntries] using hz
    rw [hall] at hQ
    exact hQ
  | fuel + 1, j, hj, hlen, hz => by
    simp only [isdiremptyFrom, wp_bind, wp_getNode]
    rw [wp_ite, hL.off_lt h hdir]
    constructor
    · intro hlt
      rw [wp_bind]
      refine hL.readDirent_wp h hdir hlt fun de hde => ?_
      rw [wp_ite]
      constructor
      · intro hne
        have hsome : noEntries n.ents = false := by
          refine Bool.eq_false_iff.mpr fun hall => ?_
          have := all_eq_true.mp hall n.ents[j]
            (mem_iff_getElem.mpr ⟨j - 2, by rw [length_drop]; omega, by
              rw [getElem_drop]; congr 1; omega⟩)
          exact (entryOf_inum de).mpr hne (by rw [hde]; exact beq_iff_eq.mp this)
        rw [hsome] at hQ
        exact hQ
      · intro h0
        have hnext : direntSize * j + direntSize = direntSize * (j + 1) := (Nat.mul_succ ..).symm
        rw [hnext]
        refine isdiremptyFrom_wp hQ (by omega) (by omega) fun e he => ?_
        rw [take_succ_eq_append_getElem hlt, drop_append_of_le_length (by
          rw [length_take]; omega)] at he
        rcases mem_append.mp he with he | he
        · exact hz e he
        · rw [mem_singleton.mp he, ← hde]
          exact not_not.mp (mt (entryOf_inum de).mp h0)
    · intro hge
      have hall : noEntries n.ents = true := by
        rw [take_of_length_le (by omega)] at hz
        simpa [noEntries] using hz
      rw [hall] at hQ
      exact hQ

/-- `isdirempty` says whether there are entries past the first two. -/
theorem isdirempty_wp {Q : Bool → St → Prop} (hQ : Q (noEntries n.ents) s) : Γ.wp (isdirempty sb k) s Q := by
  simp only [isdirempty, wp_bind, wp_getNode]
  rw [mul_comm]
  refine isdiremptyFrom_wp h hL hdir hQ (le_refl 2) ?_ fun e he => ?_
  · have := hL.length_lt h hdir
    omega
  · rw [drop_eq_nil_of_le (length_take_le ..)] at he
    exact absurd he not_mem_nil

end Scan

/-- `dirlink` puts the entry in a free place if the name is not there yet; otherwise, or if there is no
    room, nothing changes. -/
theorem dirlink_wp [Γ.Links] {Q : Bool → St → Prop} {inum : Nat} (h : Inv sb Γ s T F L) (hL : Locked sb s k n)
    (hdir : n.type = T_DIR) (hin : inum < sb.ninodes) (hfull : Γ.allows .igetNoInodes)
    (hfail : ∀ s', Inv sb Γ s' T F L → Keep T s s' → tree sb s'.cache = tree sb s.cache → Q false s')
    (hok : ∀ j s', lookupName n.ents (cname name) = none → FreePlace n.ents j → Inv sb Γ s' T F L →
      Keep T s s' → tree sb s'.cache = Function.update (tree sb s.cache) (s.inum k)
        (some (n.enter j inum name)) → Q true s') :
    Γ.wp (dirlink sb k name inum) s Q := by
  rw [dirlink, wp_bind]
  refine dirlookup_wp h hL hdir hfull (fun hnone => ?_) fun j e ip s₁ _ _ hI hkeep hc _ hval => ?_
  · simp only [wp_bind, wp_getNode]
    refine emptyDirentFrom_wp (j := 0) h hL hdir (fun j hfree => ?_) (Nat.zero_le _) (by
      rw [zero_add]; exact hL.length_lt h hdir)
    refine hL.enter_wp h hdir hfree.2 hin ?_ ?_
    · intro _ r s' hr hI hkeep htree
      rw [wp_pure, decide_eq_false hr]
      exact hfail s' hI hkeep htree
    · intro s' hI hkeep htree
      rw [wp_pure, decide_eq_true rfl]
      exact hok j s' hnone hfree hI hkeep htree
  · -- the name is there: its token goes back, and it was not the last one
    rw [wp_bind]
    refine iput_wp hI (h.pinned.keep hkeep) (fun _ s' hI' hkeep' hc' => ?_) fun hv _ h0 => ?_
    · exact hfail s' hI' (hkeep.trans hkeep') (by rw [hc', hc])
    · have := hval hv
      rw [hkeep.file, hkeep.cwd] at h0
      omega

end Xv6.Fs
