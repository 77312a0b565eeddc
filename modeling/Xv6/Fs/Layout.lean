import Xv6.Param
import Xv6.Lib.Bytes
import Xv6.Log.Crash

/-! `kernel/fs.h`: what lies where on the disk.

        boot | super | log ... | inode blocks ... | bit map ... | data blocks ...
                       logstart  inodestart         bmapstart     nmeta        size

    Blocks are bytes. `getDinode`/`setDinode` are the two directions of
    `(struct dinode*)bp->data + inum%IPB`, and `dinode` and `bit` read inode `i` and bit `b` out of a
    whole disk. Each of the three areas is changed by one operation only, `putDinode`, `putBit` and a
    store to a data block, and none of them is visible through the readers of the other two. -/

namespace Xv6.Fs
open Bytes Function

abbrev Block := Log.Block

def zeroBlock : Block := fun _ => 0

def T_DIR : Int16 := 1
def T_FILE : Int16 := 2
def T_DEVICE : Int16 := 3

/-- On-disk inode structure. The in-memory copy has the same fields. -/
@[ext] structure Dinode where
  type : Int16                            -- File type
  major : Int16                           -- Major device number (T_DEVICE only)
  minor : Int16                           -- Minor device number (T_DEVICE only)
  nlink : Int16                           -- Number of links to inode in file system
  size : UInt32                           -- Size of file (bytes)
  addrs : Fin (NDIRECT + 1) → UInt32      -- Data block addresses

/-- `memset(dip, 0, sizeof(*dip))`. -/
def Dinode.zero : Dinode := ⟨0, 0, 0, 0, 0, fun _ => 0⟩

/-- `sizeof(struct dinode)`. -/
def dinodeSize : Nat := 64

/-- Inodes per block. -/
def IPB : Nat := BSIZE / dinodeSize

/-- Bitmap bits per block. -/
def BPB : Nat := BSIZE * 8

/-- Byte `o` of the structure in memory. -/
def Dinode.byte (d : Dinode) (o : Nat) : UInt8 :=
  if o < 2 then byteOf d.type.toUInt16.toNat o
  else if o < 4 then byteOf d.major.toUInt16.toNat (o - 2)
  else if o < 6 then byteOf d.minor.toUInt16.toNat (o - 4)
  else if o < 8 then byteOf d.nlink.toUInt16.toNat (o - 6)
  else if o < 12 then byteOf d.size.toNat (o - 8)
  else byteOf (d.addrs (Fin.ofNat (NDIRECT + 1) ((o - 12) / 4))).toNat ((o - 12) % 4)

/-- The `k`-th inode of an inode block. -/
def getDinode (b : Block) (k : Nat) : Dinode where
  type := (getU16 b (dinodeSize * k)).toInt16
  major := (getU16 b (dinodeSize * k + 2)).toInt16
  minor := (getU16 b (dinodeSize * k + 4)).toInt16
  nlink := (getU16 b (dinodeSize * k + 6)).toInt16
  size := getU32 b (dinodeSize * k + 8)
  addrs := fun j => getU32 b (dinodeSize * k + 12 + 4 * j)

/-- An inode block after all fields of its `k`-th inode have been stored. -/
def setDinode (b : Block) (k : Nat) (d : Dinode) : Block :=
  fun o => if dinodeSize * k ≤ o ∧ o < dinodeSize * k + dinodeSize then d.byte (o - dinodeSize * k) else b o

theorem setDinode_inside {b : Block} {k o : Nat} {d : Dinode} (h : o < dinodeSize) :
    setDinode b k d (dinodeSize * k + o) = d.byte o := by
  rw [setDinode, if_pos ⟨by omega, by omega⟩, Nat.add_sub_cancel_left]

theorem getDinode_setDinode (b : Block) (k : Nat) (d : Dinode) : getDinode (setDinode b k d) k = d := by
  have hin : ∀ {o}, o < 64 → setDinode b k d (dinodeSize * k + o) = d.byte o := setDinode_inside
  ext1
  · have : getU16 (setDinode b k d) (dinodeSize * k) = d.type.toUInt16 :=
      getU16_of_bytes fun i hi => by rw [hin (by omega), Dinode.byte, if_pos hi]
    simp [getDinode, this]
  · have : getU16 (setDinode b k d) (dinodeSize * k + 2) = d.major.toUInt16 :=
      getU16_of_bytes fun i hi => by
        rw [add_assoc, hin (by omega), Dinode.byte, if_neg (by omega), if_pos (by omega),
          Nat.add_sub_cancel_left]
    simp [getDinode, this]
  · have : getU16 (setDinode b k d) (dinodeSize * k + 4) = d.minor.toUInt16 :=
      getU16_of_bytes fun i hi => by
        rw [add_assoc, hin (by omega), Dinode.byte, if_neg (by omega), if_neg (by omega),
          if_pos (by omega), Nat.add_sub_cancel_left]
    simp [getDinode, this]
  · have : getU16 (setDinode b k d) (dinodeSize * k + 6) = d.nlink.toUInt16 :=
      getU16_of_bytes fun i hi => by
        rw [add_assoc, hin (by omega), Dinode.byte, if_neg (by omega), if_neg (by omega),
          if_neg (by omega), if_pos (by omega), Nat.add_sub_cancel_left]
    simp [getDinode, this]
  · exact getU32_of_bytes fun i hi => by
      rw [add_assoc, hin (by omega), Dinode.byte, if_neg (by omega), if_neg (by omega),
        if_neg (by omega), if_neg (by omega), if_pos (by omega), Nat.add_sub_cancel_left]
  · funext j
    have hj : j.val < 13 := j.isLt
    refine getU32_of_bytes fun i hi => ?_
    have hoff : (12 + (4 * j.val + i) - 12) / 4 = j.val := by omega
    have hrem : (12 + (4 * j.val + i) - 12) % 4 = i := by omega
    rw [add_assoc, add_assoc, hin (by omega), Dinode.byte, if_neg (by omega), if_neg (by omega),
      if_neg (by omega), if_neg (by omega), if_neg (by omega), hoff, hrem]
    congr
    exact Fin.ext (Nat.mod_eq_of_lt hj)

theorem getDinode_congr {b b' : Block} {k : Nat}
    (h : ∀ o, dinodeSize * k ≤ o → o < dinodeSize * k + dinodeSize → b o = b' o) :
    getDinode b k = getDinode b' k := by
  unfold getDinode
  generalize dinodeSize * k = m at h
  have h' : ∀ o, m ≤ o → o < m + 64 → b o = b' o := h
  have haddr : ∀ j : Fin (NDIRECT + 1), getU32 b (m + 12 + 4 * j) = getU32 b' (m + 12 + 4 * j) := by
    intro j
    have hj : j.val < 13 := j.isLt
    exact getU32_congr fun o h1 h2 => h' o (by omega) (by omega)
  rw [getU16_congr (o := m) fun o h1 h2 => h' o (by omega) (by omega),
    getU16_congr (o := m + 2) fun o h1 h2 => h' o (by omega) (by omega),
    getU16_congr (o := m + 4) fun o h1 h2 => h' o (by omega) (by omega),
    getU16_congr (o := m + 6) fun o h1 h2 => h' o (by omega) (by omega),
    getU32_congr (o := m + 8) fun o h1 h2 => h' o (by omega) (by omega), funext haddr]

theorem getDinode_setDinode_other {b : Block} {j k : Nat} {d : Dinode} (h : j ≠ k) :
    getDinode (setDinode b k d) j = getDinode b j := by
  refine getDinode_congr fun o (h1 : 64 * j ≤ o) (h2 : o < 64 * j + 64) => if_neg ?_
  change ¬(64 * k ≤ o ∧ o < 64 * k + 64)
  omega

/-- The super block, with the layout that `mkfs` computes. -/
structure Super where
  size : Nat              -- Size of file system image (blocks)
  ninodes : Nat           -- Number of inodes
  nlog : Nat              -- Number of log blocks
  logstart : Nat          -- Block number of first log block
  inodestart : Nat        -- Block number of first inode block
  bmapstart : Nat         -- Block number of first free map block
  nlog_pos : 0 < nlog
  nlog_le : nlog ≤ LOGSIZE
  logstart_ge : 2 ≤ logstart
  log_le : logstart + nlog ≤ inodestart
  inodes_le : inodestart + ninodes / IPB + 1 ≤ bmapstart
  bmap_le : bmapstart + size / BPB + 1 ≤ size
  size_lt : size < 2 ^ 31
  root_lt : ROOTINO < ninodes
  ninodes_le : ninodes ≤ 2 ^ 16

namespace Super
variable (sb : Super)

/-- Block containing inode `i`. -/
def IBLOCK (i : Nat) : Nat := i / IPB + sb.inodestart

/-- Block of free map containing bit for block `b`. -/
def BBLOCK (b : Nat) : Nat := b / BPB + sb.bmapstart

/-- Number of blocks before the data blocks. -/
def nmeta : Nat := sb.bmapstart + sb.size / BPB + 1

/-- A data block. -/
def Data (b : Nat) : Prop := sb.nmeta ≤ b ∧ b < sb.size

instance (b : Nat) : Decidable (sb.Data b) := inferInstanceAs (Decidable (_ ∧ _))

/-- Where the log lies. -/
def area : Log.Area where
  start := sb.logstart
  size := sb.nlog
  sbSize := sb.size
  size_pos := sb.nlog_pos
  size_le := sb.nlog_le
  inside := by
    have := sb.log_le; have := sb.inodes_le; have := sb.bmap_le
    have := Nat.zero_le (sb.ninodes / IPB); have := Nat.zero_le (sb.size / BPB)
    omega
  sbSize_lt := lt_trans sb.size_lt (by decide)

theorem IBLOCK_lt {i : Nat} (hi : i < sb.ninodes) : sb.IBLOCK i < sb.bmapstart := by
  have h : i / IPB ≤ sb.ninodes / IPB := Nat.div_le_div_right hi.le
  have := sb.inodes_le
  unfold IBLOCK; omega

theorem BBLOCK_lt {b : Nat} (hb : b < sb.size) : sb.BBLOCK b < sb.nmeta := by
  have h : b / BPB ≤ sb.size / BPB := Nat.div_le_div_right hb.le
  unfold BBLOCK nmeta; omega

theorem bmapstart_lt_nmeta : sb.bmapstart < sb.nmeta := by
  have := Nat.zero_le (sb.size / BPB)
  unfold nmeta; omega

theorem nmeta_le : sb.nmeta ≤ sb.size := sb.bmap_le

theorem bmapstart_le_BBLOCK (b : Nat) : sb.bmapstart ≤ sb.BBLOCK b := Nat.le_add_left ..

end Super

variable {sb : Super}
variable {b i : Nat}

theorem Super.Data.ne_IBLOCK (hb : sb.Data b) (hi : i < sb.ninodes) : b ≠ sb.IBLOCK i := by
  have := sb.IBLOCK_lt hi; have := sb.bmapstart_lt_nmeta; have := hb.1; omega

theorem Super.Data.ne_BBLOCK {a : Nat} (hb : sb.Data b) (ha : a < sb.size) : b ≠ sb.BBLOCK a := by
  have := sb.BBLOCK_lt ha; have := hb.1; omega

/-- Data blocks are not 0. -/
theorem Super.Data.pos (hb : sb.Data b) : 0 < b := by
  have := sb.bmapstart_lt_nmeta; have := hb.1; omega

/-! ### Inodes and free map of a whole disk -/

variable (sb)

/-- Inode `i` on the disk. -/
def dinode (c : Nat → Block) (i : Nat) : Dinode := getDinode (c (sb.IBLOCK i)) (i % IPB)

/-- The free-map bit of block `b`. -/
def bit (c : Nat → Block) (b : Nat) : Bool := bitSet (c (sb.BBLOCK b)) (b % BPB)

/-- The disk after inode `i` has been stored. -/
def putDinode (c : Nat → Block) (i : Nat) (d : Dinode) : Nat → Block :=
  update c (sb.IBLOCK i) (setDinode (c (sb.IBLOCK i)) (i % IPB) d)

/-- The disk after the bit of block `b` has been set or cleared. -/
def putBit (c : Nat → Block) (b : Nat) (v : Bool) : Nat → Block :=
  update c (sb.BBLOCK b)
    (bif v then raiseBit (c (sb.BBLOCK b)) (b % BPB) else lowerBit (c (sb.BBLOCK b)) (b % BPB))

variable {sb} {c : Nat → Block}

theorem div_mod_ext {j n : Nat} (h : i / n = j / n) (h' : i % n = j % n) : i = j := by
  rw [← Nat.div_add_mod i n, ← Nat.div_add_mod j n, h, h']

theorem dinode_putDinode (i j : Nat) (d : Dinode) :
    dinode sb (putDinode sb c i d) j = if j = i then d else dinode sb c j := by
  unfold dinode putDinode
  by_cases hb : sb.IBLOCK j = sb.IBLOCK i
  · have hdiv : j / IPB = i / IPB := Nat.add_right_cancel hb
    rw [hb, update_self]
    by_cases hr : j % IPB = i % IPB
    · rw [if_pos (div_mod_ext hdiv hr), hr, getDinode_setDinode]
    · rw [if_neg fun h => hr (by rw [h]), getDinode_setDinode_other hr]
  · rw [update_of_ne hb, if_neg fun h => hb (by rw [h])]

theorem bit_putBit (a b : Nat) (v : Bool) : bit sb (putBit sb c b v) a = if a = b then v else bit sb c a := by
  unfold bit putBit
  by_cases hb : sb.BBLOCK a = sb.BBLOCK b
  · have hdiv : a / BPB = b / BPB := Nat.add_right_cancel hb
    have heq : (a % BPB = b % BPB) = (a = b) :=
      propext ⟨fun h => div_mod_ext hdiv h, fun h => by rw [h]⟩
    rw [hb, update_self]
    cases v
    · rw [cond_false, bitSet_lowerBit]; simp only [heq]
    · rw [cond_true, bitSet_raiseBit]; simp only [heq]
  · rw [update_of_ne hb, if_neg fun h => hb (by rw [h])]

theorem bit_putDinode (hi : i < sb.ninodes) (d : Dinode) (b : Nat) :
    bit sb (putDinode sb c i d) b = bit sb c b := by
  have : sb.BBLOCK b ≠ sb.IBLOCK i := by
    have := sb.IBLOCK_lt hi; have := sb.bmapstart_le_BBLOCK b; omega
  rw [bit, bit, putDinode, update_of_ne this]

theorem dinode_putBit (hi : i < sb.ninodes) (b : Nat) (v : Bool) :
    dinode sb (putBit sb c b v) i = dinode sb c i := by
  have : sb.IBLOCK i ≠ sb.BBLOCK b := by
    have := sb.IBLOCK_lt hi; have := sb.bmapstart_le_BBLOCK b; omega
  rw [dinode, dinode, putBit, update_of_ne this]

theorem dinode_store (hi : i < sb.ninodes) (hb : sb.Data b) (v : Block) :
    dinode sb (update c b v) i = dinode sb c i := by
  rw [dinode, dinode, update_of_ne (hb.ne_IBLOCK hi).symm]

theorem bit_store {a : Nat} (ha : a < sb.size) (hb : sb.Data b) (v : Block) :
    bit sb (update c b v) a = bit sb c a := by
  rw [bit, bit, update_of_ne (hb.ne_BBLOCK ha).symm]

theorem putDinode_data (hi : i < sb.ninodes) (hb : sb.Data b) (d : Dinode) :
    putDinode sb c i d b = c b := update_of_ne (hb.ne_IBLOCK hi) ..

theorem putBit_data {a : Nat} (ha : a < sb.size) (hb : sb.Data b) (v : Bool) :
    putBit sb c a v b = c b := update_of_ne (hb.ne_BBLOCK ha) ..

end Xv6.Fs
