import Xv6.Mkfs.Inv

/-! The image that `mkfs` makes of a list of files.

    After the first files have been added, the root directory has their entries and the inodes from 2 on have their
    bytes (`Made`). The last two steps round the size of the root directory up and write the free map. With at most
    `NINODES - 2` files every inode is in the inode table; the table has room for a few more than it promises, and nobody
    looks. Rounding up always adds something, so a root directory that fills its last block gets one that is not there:

        entries   62 + 2 of 16 bytes = 1024       size 2048, addrs[0] = 46, addrs[1] = 0 -/

namespace Xv6.Mkfs
open Bytes Fs Function List

/-- The bytes of a file. -/
def bytesOf (f : Input) : List UInt8 := (f.chunks.getD []).flatMap Subtype.val

/-- The entries of the files, from inode `i` on. -/
def entryBytes : Nat → List Input → List UInt8
  | _, [] => []
  | i, f :: fs => direntBytes (shortname f.path) i ++ entryBytes (i + 1) fs

/-- The bytes of the root directory. -/
def rootBytes (fs : List Input) : List UInt8 :=
  direntBytes dot ROOTINO ++ direntBytes dotdot ROOTINO ++ entryBytes 2 fs

/-- The state after the files `fs`. -/
structure Made (sb : Super) (fs : List Input) (m : Mk) (F : Nat → List UInt8) : Prop extends Inv sb m F where
  freeinode : m.freeinode = fs.length + 2
  root : F ROOTINO = rootBytes fs
  files : ∀ k f, fs[k]? = some f → F (k + 2) = bytesOf f
  written : ∀ i, i ∈ m.written ↔ 0 < i ∧ i < m.freeinode

variable {f : Input}

section Made
variable {sb : Super} {fs gs : List Input} {m m' : Mk} {F : Nat → List UInt8}

theorem root_pos : 0 < ROOTINO := by decide

/-- The bytes of a file go to its end, piece by piece. -/
theorem Inv.chunks (h : Inv sb m F) (hsb : Laid sb) {i : Nat} (h0 : 0 < i) (hi : i < m.freeinode)
    {chunks : List { bs : List UInt8 // 0 < bs.length ∧ bs.length ≤ BSIZE }}
    (hfold : chunks.foldlM (fun m bs => Mkfs.iappend m i bs.val) m = some m')
    (hw : ∀ j, j ∈ m.written ↔ 0 < j ∧ j < m.freeinode) :
    Inv sb m' (update F i (F i ++ chunks.flatMap Subtype.val)) ∧ m'.freeinode = m.freeinode ∧
      ∀ j, j ∈ m'.written ↔ 0 < j ∧ j < m'.freeinode := by
  induction chunks generalizing m F with
  | nil =>
    cases hfold
    rw [flatMap_nil, append_nil, update_eq_self]
    exact ⟨h, rfl, hw⟩
  | cons bs chunks ih =>
    rw [foldlM_cons] at hfold
    obtain ⟨m₁, happend, hfold⟩ := Option.bind_eq_some_iff.mp hfold
    obtain ⟨h₁, hfi, hwritten⟩ := h.iappend hsb h0 hi happend
    have hw₁ : ∀ j, j ∈ m₁.written ↔ 0 < j ∧ j < m₁.freeinode := fun j => by
      rw [hwritten, hfi, mem_cons, hw]
      omega
    obtain ⟨h₂, hfi₂, hw₂⟩ := ih h₁ (hfi ▸ hi) hfold hw₁
    rw [update_self, update_idem, append_assoc] at h₂
    exact ⟨h₂, hfi₂.trans hfi, hw₂⟩

end Made

/-! ### The finished image -/

/-- The size of the finished root directory. -/
def rootSize (fs : List Input) : Nat := ((rootBytes fs).length / BSIZE + 1) * BSIZE

variable {d : Dinode} {type : Int16} {bs : List UInt8} {o : Nat}

theorem IsFile.byteAt {c : Nat → Block} (h : IsFile c d type bs)
    (ho : o < bs.length) : Fs.byteAt c d o = cstr bs o := by
  have hp : Present c d o := (h.slots _).mpr (lt_of_le_of_lt (Nat.div_mul_le_self o BSIZE) ho)
  rw [← content_of_present hp, h.bytes, setBytes, if_pos ⟨Nat.zero_le _, by omega⟩]
  rfl

theorem IsFile.contents {c : Nat → Block} (h : IsFile c d type bs) :
    Fs.contents c d = bs := by
  refine ext_getElem (by rw [contents_length, h.size]) fun o ho ho' => ?_
  have hbyte := h.byteAt ho'
  rw [← cstr_contents (by rwa [h.size]), cstr, cstr, getD_eq_getElem _ _ ho, getD_eq_getElem _ _ ho'] at hbyte
  exact hbyte

/-- The image `c` that is made from state `m₁`. -/
structure Finished (sb : Super) (fs : List Input) (m : Mk) (c : Nat → Block) (F : Nat → List UInt8) : Prop where
  made : Made sb fs m F
  image : c = putDinode sb (marked m) ROOTINO (resized (dinode sb (marked m) ROOTINO) (rootSize fs))

section Finished
variable {sb : Super} {fs : List Input} {m m' : Mk} {c : Nat → Block} {F : Nat → List UInt8} {i : Nat}

theorem Made.root_lt (h : Made sb fs m F) : ROOTINO < m.freeinode := by
  rw [h.freeinode]
  unfold ROOTINO
  omega

/-- What the last two steps do: both always succeed. -/
theorem Made.finish (h : Made sb fs m F) (hsb : Laid sb) : ∃ m₂ m₃, fixRoot m = some m₂ ∧
    balloc m₂ m₂.freeblock = some m₃ ∧ Finished sb fs m m₃.disk F ∧ m₃.written = ROOTINO :: m.written ∧
      m₃.disk = update m₂.disk bmapstart (bitmap m.freeblock) ∧ m₃.freeblock = m.freeblock := by
  have hsize := (h.file ROOTINO root_pos h.root_lt).size
  obtain ⟨m₂, hw, hmarked, -, hfb, hwritten, -⟩ :=
    winode_eq (m := m) (d := resized (dinode sb (marked m) ROOTINO) (rootSize fs)) hsb sb.root_lt
  have hused : m₂.freeblock < BPB := by
    rw [hfb]
    exact lt_of_le_of_lt h.high (by decide)
  refine ⟨m₂, wsect m₂ bmapstart (bitmap m₂.freeblock), ?_, if_pos hused, ⟨h, hmarked⟩, hwritten, ?_, hfb⟩
  · rw [fixRoot, rinode_eq hsb sb.root_lt, Option.bind_eq_bind, Option.bind_some, hsize, h.root]
    exact hw
  · rw [← hfb]
    rfl

namespace Finished

section Facts
variable (h : Finished sb fs m c F)
include h

theorem dinode_eq (j : Nat) : dinode sb c j =
    if j = ROOTINO then resized (dinode sb (marked m) ROOTINO) (rootSize fs) else dinode sb (marked m) j := by
  rw [h.image, dinode_putDinode]

/-- The blocks of the files are as they were. -/
theorem same (h0 : 0 < i) (hi : i < m.freeinode) :
    Same (marked m) c (dinode sb (marked m) i) :=
  h.made.books.same_data (h.made.live h0 hi) fun x hx => by rw [h.image, putDinode_data sb.root_lt hx]

/-- All files but the root directory. -/
theorem file (hi : 1 < i) (hlt : i < m.freeinode) :
    IsFile c (dinode sb c i) T_FILE (F i) := by
  have hne : i ≠ ROOTINO := by unfold ROOTINO; omega
  have hf := h.made.file i (by omega) hlt
  rw [typeOf, if_neg hne] at hf
  rw [h.dinode_eq, if_neg hne]
  exact hf.same (h.same (by omega) hlt)

/-- Inodes that were not handed out are free. -/
theorem free (hi : i < sb.ninodes) (hfree : i = 0 ∨ m.freeinode ≤ i) :
    (dinode sb c i).type = 0 := by
  have hne : i ≠ ROOTINO := by
    have := h.made.root_lt
    unfold ROOTINO at *
    omega
  rw [h.dinode_eq, if_neg hne]
  exact h.made.free i hi hfree

end Facts

end Finished

end Finished

section Empty
variable {sb : Super} {fs gs : List Input} {m : Mk} {F : Nat → List UInt8}

/-- The direct block at the end of a file can be read, after it has been added if need be. -/
theorem IsFile.block (hf : IsFile (marked m) d T_DIR bs) (hlen : bs.length / BSIZE < NDIRECT)
    (hold : d.addrs ⟨bs.length / BSIZE, Nat.lt_succ_of_lt hlen⟩ ≠ 0 →
      (d.addrs ⟨bs.length / BSIZE, Nat.lt_succ_of_lt hlen⟩).toNat < FSSIZE) (hroom : m.freeblock < FSSIZE) :
    ∃ x m' d', Mkfs.block m d (bs.length / BSIZE) = some (x, m', d') ∧ x < FSSIZE ∧
      m'.freeblock = if bs.length % BSIZE = 0 then m.freeblock + 1 else m.freeblock := by
  have hslot := hf.slots (bs.length / BSIZE)
  rw [blockSlot_direct hlen, slotAddr_direct (Nat.lt_succ_of_lt hlen), Ne, toNat_eq_zero] at hslot
  have hmod := Nat.div_add_mod' bs.length BSIZE
  rw [Mkfs.block, dif_pos hlen]
  refine ⟨_, _, _, rfl, ?_⟩
  rw [Mkfs.fill]
  by_cases hz : d.addrs ⟨bs.length / BSIZE, Nat.lt_succ_of_lt hlen⟩ = 0
  · have hfull : bs.length % BSIZE = 0 := by
      have := mt hslot.mpr (not_not.mpr hz)
      omega
    rw [if_pos hz, if_pos hfull, Dinode.setAddr_addrs, update_self,
      UInt32.toNat_ofNat_of_lt' (lt_trans hroom (by decide))]
    exact ⟨hroom, rfl⟩
  · have hpart : bs.length % BSIZE ≠ 0 := by
      have := hslot.mp hz
      omega
    rw [if_neg hz, if_neg hpart]
    exact ⟨hold hz, rfl⟩

end Empty

end Xv6.Mkfs
