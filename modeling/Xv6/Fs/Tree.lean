import Xv6.Fs.TruncSpec

/-! A disk as a map of nodes.

    `tree sb c i` is what inode `i` means in the file system: nothing if it is free, else its type, its
    device numbers, its link count, its contents and, for a directory, the entries these contents spell.
    Names are cut at the first NUL, which is how `namecmp` compares them (`namecmp_eq_zero`). The lemmas
    say what each change of the disk does to the map: a write to one inode replaces one node, a
    directory entry written is one entry put in place or appended, and everything about blocks and the
    free map is invisible. -/

namespace Xv6.Fs
open Bytes List

/-! ### Names -/

/-- The string in a buffer of `DIRSIZ` bytes. -/
def cname (s : List UInt8) : Name := (s.take DIRSIZ).takeWhile (· != 0)

/-- The string of at most `n` characters from position `i` of a buffer on. -/
def text (p : Buf) : Nat → Nat → Name
  | _, 0 => []
  | i, n + 1 => if p i = 0 then [] else p i :: text p (i + 1) n

theorem strncmp_eq_zero (p q : Buf) : ∀ (n i : Nat), strncmp p q i n = 0 ↔ text p i n = text q i n
  | 0, _ => by simp [strncmp, text]
  | n + 1, i => by
    have ih := strncmp_eq_zero p q n (i + 1)
    have hsub : ((p i).toNat : Int) - (q i).toNat = 0 ↔ p i = q i := by
      rw [← UInt8.toNat_inj]; omega
    rw [strncmp, text, text]
    by_cases hp : p i = 0 <;> by_cases hq : q i = 0 <;> by_cases hpq : p i = q i <;> simp_all

theorem text_cstr (s : Name) : ∀ (n i : Nat), text (cstr s) i n = ((s.drop i).take n).takeWhile (· != 0)
  | 0, _ => by simp [text]
  | n + 1, i => by
    rw [text, text_cstr s n (i + 1)]
    rcases lt_or_ge i s.length with hi | hi
    · rw [drop_eq_getElem_cons hi, take_succ_cons, takeWhile_cons, cstr,
        getD_eq_getElem?_getD, getElem?_eq_getElem hi, Option.getD_some]
      by_cases h0 : s[i] = 0 <;> simp [h0]
    · have hnone : cstr s i = 0 := by simp [cstr, getD_eq_getElem?_getD, getElem?_eq_none hi]
      rw [if_pos hnone, drop_eq_nil_of_le hi]; rfl

theorem cname_eq_text (s : Name) : cname s = text (cstr s) 0 DIRSIZ := by rw [text_cstr]; rfl

theorem namecmp_eq_zero (a b : Name) : namecmp (cstr a) (cstr b) = 0 ↔ cname a = cname b := by
  rw [namecmp, strncmp_eq_zero, cname_eq_text, cname_eq_text]

theorem text_congr {p q : Buf} : ∀ {n i : Nat}, (∀ k, k < i + n → p k = q k) → text p i n = text q i n
  | 0, _, _ => rfl
  | n + 1, i, h => by
    rw [text, text, h i (by omega), text_congr (n := n) (i := i + 1) fun k hk => h k (by omega)]

/-- `strncpy` keeps the string. -/
theorem cname_strncpy (s : Name) : cname (strncpy s DIRSIZ) = cname s := by
  rw [cname_eq_text, cname_eq_text]
  exact text_congr fun k hk => by
    rw [strncpy, cstr_getBytes (by omega), zero_add]

/-! ### Nodes -/

structure Entry where
  inum : Nat
  name : Name
  deriving DecidableEq

/-- An allocated inode. -/
structure Node where
  type : Int16
  major : Int16
  minor : Int16
  nlink : Int16
  data : List UInt8     -- the contents
  ents : List Entry     -- what they spell, for a directory
  deriving DecidableEq

def entryOf (de : Dirent) : Entry := ⟨de.inum.toNat, cname de.name⟩

def contents (c : Nat → Block) (d : Dinode) : List UInt8 := (range d.size.toNat).map (byteAt c d)

/-- The entries of a directory. -/
def entries (c : Nat → Block) (d : Dinode) : List Entry :=
  if d.type = T_DIR then (range (d.size.toNat / direntSize)).map fun j => entryOf (direntAt c d (direntSize * j))
  else []

def nodeOf (c : Nat → Block) (d : Dinode) : Node :=
  ⟨d.type, d.major, d.minor, d.nlink, contents c d, entries c d⟩

def tree (sb : Super) (c : Nat → Block) (i : Nat) : Option Node :=
  if Live sb (dinode sb c) i then some (nodeOf c (dinode sb c i)) else none

/-- Put entry `e` in place `j`, or after the last one. -/
def putEntry (es : List Entry) (j : Nat) (e : Entry) : List Entry :=
  if j < es.length then es.set j e else es ++ [e]

/-- Store `bs` at offset `off` and count the first `w` bytes of it. -/
def splice (data : List UInt8) (off : Nat) (bs : List UInt8) (w : Nat) : List UInt8 :=
  (range (max data.length (off + w))).map (setBytes (cstr data) off bs)

/-- Write a directory entry in place `j`. -/
def Node.enter (n : Node) (j : Nat) (inum : Nat) (name : Name) : Node :=
  { n with
    data := splice n.data (direntSize * j) (direntBytes name inum) direntSize
    ents := putEntry n.ents j ⟨inum, cname name⟩ }

variable {sb : Super} {c c' : Nat → Block} {d m : Dinode} {i : Nat}

theorem tree_live (hi : Live sb (dinode sb c) i) : tree sb c i = some (nodeOf c (dinode sb c i)) := if_pos hi

theorem tree_eq_some {n : Node} (h : tree sb c i = some n) :
    Live sb (dinode sb c) i ∧ n = nodeOf c (dinode sb c i) := by
  unfold tree at h
  split at h
  · exact ⟨‹_›, (Option.some.inj h).symm⟩
  · cases h

theorem tree_free {c : Nat → Block} (h : (dinode sb c i).type = 0) : tree sb c i = none :=
  if_neg fun hl => hl.2 h

@[simp] theorem contents_length : (contents c d).length = d.size.toNat := by
  rw [contents, length_map, length_range]

theorem cstr_contents {o : Nat} (ho : o < d.size.toNat) : cstr (contents c d) o = byteAt c d o := by
  simp [cstr, contents, getD_eq_getElem?_getD, ho]

/-- What a write leaves in the file. -/
theorem Stored.contents {off w : Nat} {bs : List UInt8} (h : Stored c c' d m off bs) (hw : Whole c d)
    (hoff : off ≤ d.size.toNat) (hlen : w ≤ bs.length) (hs : m.size.toNat = max d.size.toNat (off + w)) :
    Fs.contents c' m = splice (Fs.contents c d) off bs w := by
  rw [splice, contents_length, Fs.contents, hs]
  refine map_congr_left fun o ho => ?_
  rw [mem_range] at ho
  by_cases hlt : o < d.size.toNat
  · rw [(h o (.inl (hw.block hlt))).2, setBytes, setBytes, cstr_contents hlt]
  · have hr : off ≤ o ∧ o < off + bs.length := by omega
    rw [(h o (.inr hr)).2, setBytes, setBytes, if_pos hr, if_pos hr]

theorem Stored.contents_self {off : Nat} (h : Stored c c' d m off []) (hw : Whole c d) (hs : m.size = d.size) :
    Fs.contents c' m = Fs.contents c d := by
  rw [Fs.contents, Fs.contents, hs]
  refine map_congr_left fun o ho => ?_
  rw [(h o (.inl (hw.block (mem_range.mp ho)))).2, setBytes_nil]

/-- Entries are spelt by the contents. -/
theorem direntAt_contents {j : Nat} (hj : j < d.size.toNat / direntSize) :
    direntAt c d (direntSize * j) = dirent (cstr (contents c d)) (direntSize * j) := by
  rw [direntAt_eq (Nat.mul_mod_right ..)]
  refine dirent_congr fun k hk => (cstr_contents ?_).symm
  change j < d.size.toNat / 16 at hj
  change k < 16 at hk
  change 16 * j + k < d.size.toNat
  omega

theorem entries_congr {d d' : Dinode} (ht : d'.type = d.type) (hs : d'.size = d.size)
    (hc : contents c' d' = contents c d) : entries c' d' = entries c d := by
  unfold entries
  rw [ht, hs]
  split
  · refine map_congr_left fun j hj => ?_
    rw [mem_range] at hj
    rw [direntAt_contents (by rwa [hs]), direntAt_contents hj, hc]
  · rfl

theorem contents_same (hs : Same c c' d) (hw : Whole c d) : contents c' d = contents c d :=
  map_congr_left fun _ ho => hs.byteAt (hw.block (mem_range.mp ho))

theorem nodeOf_same (hs : Same c c' d) (hw : Whole c d) : nodeOf c' d = nodeOf c d := by
  rw [nodeOf, nodeOf, contents_same hs hw, entries_congr rfl rfl (contents_same hs hw)]

/-- A change to one inode replaces one node. -/
theorem tree_written (hB : Blocks sb c (dinode sb c)) (hi : i < sb.ninodes)
    (h : Written sb (dinode sb c) i c c' m) (hm : m.type ≠ 0) :
    tree sb c' = Function.update (tree sb c) i (some (nodeOf c' m)) := by
  funext j
  rcases eq_or_ne j i with rfl | hj
  · have hd : dinode sb c' j = m := by rw [h.disk j hi, if_pos rfl]
    rw [Function.update_self, tree_live ⟨hi, by rwa [hd]⟩, hd]
  · rw [Function.update_of_ne hj, tree, tree]
    by_cases hlt : j < sb.ninodes
    · have hd : dinode sb c' j = dinode sb c j := by rw [h.disk j hlt, if_neg hj]
      simp only [Live, hd]
      split
      · rw [nodeOf_same (h.others j hj ‹_›) (hB.full j ‹_›)]
      · rfl
    · rw [if_neg (fun h => hlt h.1), if_neg (fun h => hlt h.1)]

/-! ### Blocks of directories -/

/-- The blocks of directories. -/
def Dirs (sb : Super) (c : Nat → Block) : Set Nat :=
  { b | b ≠ 0 ∧ ∃ i q, Live sb (dinode sb c) i ∧ (dinode sb c i).type = T_DIR ∧ slotAddr c (dinode sb c i) q = b }

/-- A block of a directory after a change to one inode was one before, or the inode has just got it. -/
theorem mem_Dirs_of_written {b : Nat} (h : Written sb (dinode sb c) i c c' m) (hi : Live sb (dinode sb c) i)
    (ht : m.type = (dinode sb c i).type) (hb : b ∈ Dirs sb c')
    (hfresh : m.type = T_DIR → ∀ q, slotAddr c' m q = b → slotAddr c (dinode sb c i) q = b) : b ∈ Dirs sb c := by
  obtain ⟨h0, j, q, hj, hdir, hq⟩ := hb
  rw [h.disk j hj.1] at hdir hq
  by_cases hji : j = i
  · rw [if_pos hji] at hdir hq
    exact ⟨h0, i, q, hi, by rw [← ht]; exact hdir, hfresh hdir q hq⟩
  · rw [if_neg hji] at hdir hq
    have hlive : Live sb (dinode sb c) j := ⟨hj.1, by rw [hdir]; decide⟩
    exact ⟨h0, j, q, hlive, hdir, by rw [← (h.others j hji hlive).addr]; exact hq⟩

/-! ### Directory entries -/

theorem entries_length (h : d.type = T_DIR) : (entries c d).length = d.size.toNat / direntSize := by
  rw [entries, if_pos h, length_map, length_range]

theorem entries_getElem {j : Nat} (hj : j < (entries c d).length) :
    (entries c d)[j] = entryOf (direntAt c d (direntSize * j)) := by
  have hdir : d.type = T_DIR := by
    by_contra hne
    rw [entries, if_neg hne] at hj
    exact absurd hj (Nat.not_lt_zero _)
  simp only [entries, if_pos hdir, getElem_map, getElem_range]

variable {N : Nat → Prop} {D : Nat → Dinode} {off j : Nat} {bs : List UInt8}

theorem direntBytes_length (name : Name) (inum : Nat) : (direntBytes name inum).length = direntSize := by
  simp [direntBytes, strncpy, length_getBytes]; rfl

/-- The entry that `dirlink` writes. -/
theorem entryOf_direntBytes {name : Name} {inum : Nat} (hinum : inum < 2 ^ 16) :
    entryOf (dirent (cstr (direntBytes name inum)) 0) = ⟨inum, cname name⟩ := by
  have hmod : inum % 65536 = inum := Nat.mod_eq_of_lt hinum
  have h16 : getU16 (cstr (direntBytes name inum)) 0 = UInt16.ofNat inum :=
    getU16_of_bytes fun k hk => by
      obtain rfl | rfl : k = 0 ∨ k = 1 := by omega
      · simp [cstr, direntBytes, byteOf, hmod]
      · simp [cstr, direntBytes, byteOf, hmod]
  have hname : getBytes (cstr (direntBytes name inum)) 2 DIRSIZ = strncpy name DIRSIZ :=
    getBytes_congr fun k hk => by
      rw [zero_add, add_comm 2 k, ← zero_add k, ← cstr_getBytes (b := cstr name) (o := 0) hk,
        zero_add]
      rfl
  rw [entryOf, dirent, h16, hname, cname_strncpy, UInt16.toNat_ofNat_of_lt' hinum]

theorem Stored.direntAt_new {o : Nat} (h : Stored c c' d m o bs) (h16 : o % direntSize = 0)
    (hlen : bs.length = direntSize) : direntAt c' m o = dirent (cstr bs) 0 := by
  rw [direntAt_eq h16]
  refine dirent_congr fun k hk => ?_
  have hr : o ≤ o + k ∧ o + k < o + bs.length := by omega
  rw [(h _ (.inr hr)).2, setBytes, if_pos hr, Nat.add_sub_cancel_left, zero_add]
  rfl

theorem Stored.direntAt_old {l : Nat} (h : Stored c c' d m (direntSize * j) bs) (hw : Whole c d)
    (hlen : bs.length = direntSize) (hl : l < d.size.toNat / direntSize) (hlj : l ≠ j) :
    direntAt c' m (direntSize * l) = direntAt c d (direntSize * l) := by
  rw [direntAt_eq (Nat.mul_mod_right ..), direntAt_eq (Nat.mul_mod_right ..)]
  refine dirent_congr fun k hk => ?_
  have hlt : direntSize * l + k < d.size.toNat := by
    change l < d.size.toNat / 16 at hl; change k < 16 at hk; change 16 * l + k < _; omega
  rw [(h _ (.inl (hw.block hlt))).2, setBytes, if_neg]
  change bs.length = 16 at hlen
  change k < 16 at hk
  change ¬(16 * j ≤ 16 * l + k ∧ 16 * l + k < 16 * j + bs.length)
  omega

/-- A directory entry written is one entry put in place or appended. -/
theorem Entered.entries (h : Entered sb N D i (direntSize * j) bs c c' m) (hw : Whole c (D i))
    (hlen16 : bs.length = direntSize) (hdir : (D i).type = T_DIR)
    (h16 : (D i).size.toNat % direntSize = 0) (hj : j ≤ (entries c (D i)).length) :
    Fs.entries c' m = putEntry (Fs.entries c (D i)) j (entryOf (dirent (cstr bs) 0)) := by
  have hdir' : m.type = T_DIR := by rw [h.fields]; exact hdir
  have hlen := entries_length (c := c) hdir
  have hlen' : (Fs.entries c' m).length = max (Fs.entries c (D i)).length (j + 1) := by
    rw [entries_length hdir', h.size, hlen]
    change (D i).size.toNat % 16 = 0 at h16
    change max (D i).size.toNat (16 * j + 16) / 16 = max ((D i).size.toNat / 16) (j + 1)
    omega
  unfold putEntry
  refine ext_getElem ?_ fun l h1 h2 => ?_
  · rw [hlen']
    split
    · rw [length_set]; omega
    · rw [length_append, length_singleton]; omega
  · rw [entries_getElem h1]
    by_cases hlj : l = j
    · subst hlj
      rw [h.stored.direntAt_new (Nat.mul_mod_right ..) hlen16]
      split
      · rw [getElem_set_self]
      · rw [getElem_append_right (by omega)]; simp
    · have hl : l < (Fs.entries c (D i)).length := by rw [hlen'] at h1; omega
      rw [h.stored.direntAt_old hw hlen16 (by rwa [← hlen]) hlj, ← entries_getElem hl]
      split
      · rw [getElem_set_ne (Ne.symm hlj)]
      · rw [getElem_append_left hl]

theorem Entered.nodeOf {name : Name} {inum : Nat} (hinum : inum < 2 ^ 16)
    (h : Entered sb N D i (direntSize * j) (direntBytes name inum) c c' m) (hw : Whole c (D i))
    (hdir : (D i).type = T_DIR) (h16 : (D i).size.toNat % direntSize = 0) (hj : j ≤ (Fs.entries c (D i)).length) :
    Fs.nodeOf c' m = (Fs.nodeOf c (D i)).enter j inum name := by
  have hlen := direntBytes_length name inum
  have hoff : direntSize * j ≤ (D i).size.toNat := by
    rw [entries_length hdir] at hj
    exact (Nat.mul_le_mul_left _ hj).trans (Nat.mul_div_le ..)
  rw [Fs.nodeOf, h.entries hw hlen hdir h16 hj, entryOf_direntBytes hinum,
    h.stored.contents hw hoff hlen.ge h.size, h.fields]
  rfl

theorem Unentered.nodeOf (h : Unentered sb N D i c c' m) (hw : Whole c (D i)) : Fs.nodeOf c' m = Fs.nodeOf c (D i) := by
  have ht : m.type = (D i).type := by rw [h.fields]
  have hs : m.size = (D i).size := by rw [h.fields]
  have hc := h.stored.contents_self hw hs
  rw [Fs.nodeOf, Fs.nodeOf, hc, entries_congr ht hs hc, h.fields]

end Xv6.Fs
