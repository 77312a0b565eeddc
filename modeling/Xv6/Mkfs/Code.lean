import Xv6.Fs.Contents
import Xv6.Fs.Tree

/-! `mkfs/mkfs.c`: the disk image of a new file system.

    Inodes and blocks are handed out in order, and `iappend` adds bytes to the end of a file. The free map is written
    last, with a bit for every block handed out. A step without a result is one after which `mkfs` has exited with 1 or
    failed an assertion.

    The numbers are those of the host program. What it stores goes through `xshort` and `xint`, so the image has the
    kernel's byte order whatever the host's is; a file to be added is given by the pieces in which `read` returns it. -/

namespace Xv6.Mkfs
open Bytes Fs

def NINODES : Nat := 200

-- Disk layout:
-- [ boot block | sb block | log | inode blocks | free bit map | data blocks ]

def nbitmap : Nat := FSSIZE / BPB + 1
def ninodeblocks : Nat := NINODES / IPB + 1
def nlog : Nat := LOGSIZE
def nmeta : Nat := 2 + nlog + ninodeblocks + nbitmap
def nblocks : Nat := FSSIZE - nmeta
def logstart : Nat := 2
def inodestart : Nat := 2 + nlog
def bmapstart : Nat := 2 + nlog + ninodeblocks
def FSMAGIC : Nat := 0x10203040

/-- The image and what has been handed out. -/
structure Mk where
  disk : Nat → Block
  freeinode : Nat
  freeblock : Nat
  written : List Nat       -- the inode numbers that `winode` was called with

/-! ### Sectors and inodes -/

def wsect (m : Mk) (sec : Nat) (buf : Block) : Mk := { m with disk := Function.update m.disk sec buf }

/-- Behind the end of the image, `read` returns 0. -/
def rsect (m : Mk) (sec : Nat) : Option Block := if sec < FSSIZE then some (m.disk sec) else none

/-- Block containing inode `i`. -/
def IBLOCK (i : Nat) : Nat := i / IPB + inodestart

def winode (m : Mk) (inum : Nat) (ip : Dinode) : Option Mk := do
  let buf ← rsect m (IBLOCK inum)
  some { wsect m (IBLOCK inum) (setDinode buf (inum % IPB) ip) with written := inum :: m.written }

def rinode (m : Mk) (inum : Nat) : Option Dinode := do
  let buf ← rsect m (IBLOCK inum)
  some (getDinode buf (inum % IPB))

def ialloc (m : Mk) (type : Int16) : Option (Nat × Mk) := do
  let inum := m.freeinode
  let m ← winode { m with freeinode := m.freeinode + 1 } inum { Dinode.zero with type := type, nlink := 1 }
  some (inum, m)

/-! ### Appending -/

/-- `freeblock++` into `addrs[j]`, unless there is a block already. -/
def fill (m : Mk) (din : Dinode) (j : Fin (NDIRECT + 1)) : Mk × Dinode :=
  if din.addrs j = 0 then ({ m with freeblock := m.freeblock + 1 }, din.setAddr j (UInt32.ofNat m.freeblock))
  else (m, din)

/-- `indirect[j]` of the indirect block `ind`, with `freeblock++` in it unless there is a block already. -/
def entry (m : Mk) (ind j : Nat) : Option (Nat × Mk) := do
  let indirect ← rsect m ind
  if getU32 indirect (4 * j) = 0 then
    let indirect := setU32 indirect (4 * j) (UInt32.ofNat m.freeblock)
    some ((getU32 indirect (4 * j)).toNat, wsect { m with freeblock := m.freeblock + 1 } ind indirect)
  else some ((getU32 indirect (4 * j)).toNat, m)

/-- The block number of the `fbn`-th block, with the blocks that it needs. -/
def block (m : Mk) (din : Dinode) (fbn : Nat) : Option (Nat × Mk × Dinode) :=
  if h : fbn < NDIRECT then
    let r := fill m din ⟨fbn, Nat.lt_succ_of_lt h⟩
    some ((r.2.addrs ⟨fbn, Nat.lt_succ_of_lt h⟩).toNat, r.1, r.2)
  else do
    let r := fill m din (Fin.last NDIRECT)
    let (x, m) ← entry r.1 (r.2.addrs (Fin.last NDIRECT)).toNat (fbn - NDIRECT)
    some (x, m, r.2)

/-- The loop of `iappend`; every round takes at least a byte of `p`. -/
def appendFrom : Nat → Mk → Dinode → Nat → List UInt8 → Option (Mk × Dinode × Nat)
  | _, m, din, off, [] => some (m, din, off)
  | 0, _, _, _, _ :: _ => none
  | fuel + 1, m, din, off, b :: p =>
    let fbn := off / BSIZE
    if fbn < MAXFILE then do
      let (x, m, din) ← block m din fbn
      let n1 := min (b :: p).length ((fbn + 1) * BSIZE - off)
      let buf ← rsect m x
      let m := wsect m x (setBytes buf (off - fbn * BSIZE) ((b :: p).take n1))
      appendFrom fuel m din (off + n1) ((b :: p).drop n1)
    else none

def iappend (m : Mk) (inum : Nat) (p : List UInt8) : Option Mk := do
  let din ← rinode m inum
  let (m, din, off) ← appendFrom p.length m din din.size.toNat p
  winode m inum { din with size := UInt32.ofNat off }

/-! ### The whole image -/

/-- A file on the command line: its path and what `read` returns, piece by piece, if it can be opened. -/
structure Input where
  path : List UInt8
  chunks : Option (List { bs : List UInt8 // 0 < bs.length ∧ bs.length ≤ BSIZE })

/-- `"user/"` -/
def userSlash : List UInt8 := [117, 115, 101, 114, 47]

def slash : UInt8 := 47
def underscore : UInt8 := 95

/-- The path without `user/`. -/
def baseOf (path : List UInt8) : List UInt8 := if path.take 5 = userSlash then path.drop 5 else path

/-- `shortname`, in the end. -/
def shortname (path : List UInt8) : List UInt8 :=
  if (baseOf path).head? = some underscore then (baseOf path).tail else baseOf path

/-- The super block. -/
def superBlock : Block :=
  [FSMAGIC, FSSIZE, nblocks, NINODES, nlog, logstart, inodestart, bmapstart].zipIdx.foldl
    (fun buf v => setU32 buf (4 * v.2) (UInt32.ofNat v.1)) zeroBlock

/-- The zeroed image with its super block. -/
def blank : Mk where
  disk := Function.update (fun _ => zeroBlock) 1 superBlock
  freeinode := 1
  freeblock := nmeta
  written := []

/-- `off = ((off/BSIZE) + 1) * BSIZE` for the root directory. -/
def fixRoot (m : Mk) : Option Mk := do
  let din ← rinode m ROOTINO
  winode m ROOTINO { din with size := UInt32.ofNat ((din.size.toNat / BSIZE + 1) * BSIZE) }

/-- The free map with the first `used` blocks marked. -/
def bitmap (used : Nat) : Block := (List.range used).foldl raiseBit zeroBlock

def balloc (m : Mk) (used : Nat) : Option Mk := if used < BPB then some (wsect m bmapstart (bitmap used)) else none

end Xv6.Mkfs
