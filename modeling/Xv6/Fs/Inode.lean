import Xv6.Fs.State

/-! `kernel/fs.c`, blocks and inodes: the allocator of raw disk blocks, and inode allocation, reading,
    writing and metadata.

    A loop of the source is a recursion whose last argument counts the rounds it may still take; the
    count passed by its caller is never the reason it ends. Where the source reads `bp->data` twice
    under one `bread`, the programs read it once: a held buffer does not change under its holder. -/

namespace Xv6.Fs
open Bytes Prog

variable (sb : Super)

/-! ### Blocks -/

/-- Zero a block. -/
def bzero (bno : Nat) : FsM Unit := do
  let _ ← bread bno
  bclr bno
  logWrite bno
  brelse bno

/-- The first clear bit of a free-map block among the `n` bits from `bi` on. -/
def findFree (blk : Block) : Nat → Nat → Option Nat
  | _, 0 => none
  | bi, n + 1 => if bitSet blk bi then findFree blk (bi + 1) n else some bi

/-- `balloc` from the free-map block of `b` on. -/
def ballocFrom : Nat → Nat → FsM Nat
  | _, 0 => pure 0
  | b, n + 1 =>
    if b < sb.size then do
      let bp ← bread (sb.BBLOCK b)
      match findFree bp 0 (min BPB (sb.size - b)) with
      | some bi => do
        bmod (sb.BBLOCK b) fun d => raiseBit d bi
        logWrite (sb.BBLOCK b)
        brelse (sb.BBLOCK b)
        bzero (b + bi)
        pure (b + bi)
      | none => do
        brelse (sb.BBLOCK b)
        ballocFrom (b + BPB) n
    else pure 0

/-- Allocate a zeroed disk block. Returns 0 if out of disk space. -/
def balloc : FsM Nat := ballocFrom sb 0 (sb.size / BPB + 1)

/-- Free a disk block. -/
def bfree (b : Nat) : FsM Unit := do
  let bp ← bread (sb.BBLOCK b)
  if bitSet bp (b % BPB) then do
    bmod (sb.BBLOCK b) fun d => lowerBit d (b % BPB)
    logWrite (sb.BBLOCK b)
    brelse (sb.BBLOCK b)
  else panic .freeingFree

/-! ### Inodes -/

/-- `ialloc` from inode `inum` on. -/
def iallocFrom (dev : Nat) (type : Int16) : Nat → Nat → FsM (Option Slot)
  | _, 0 => pure none
  | inum, n + 1 =>
    if inum < sb.ninodes then do
      let bp ← bread (sb.IBLOCK inum)
      if (getDinode bp (inum % IPB)).type = 0 then do
        bmod (sb.IBLOCK inum) fun b => setDinode b (inum % IPB) { Dinode.zero with type := type }
        logWrite (sb.IBLOCK inum)
        brelse (sb.IBLOCK inum)
        let ip ← iget dev inum
        pure (some ip)
      else do
        brelse (sb.IBLOCK inum)
        iallocFrom dev type (inum + 1) n
    else pure none

/-- Allocate an inode. Mark it as allocated by giving it type `type`. -/
def ialloc (dev : Nat) (type : Int16) : FsM (Option Slot) := iallocFrom sb dev type 1 sb.ninodes

/-- Copy a modified in-memory inode to disk. -/
def iupdate (ip : Slot) : FsM Unit := do
  let (_, inum) ← getIno ip
  let d ← getNode ip
  let _ ← bread (sb.IBLOCK inum)
  bmod (sb.IBLOCK inum) fun b => setDinode b (inum % IPB) d
  logWrite (sb.IBLOCK inum)
  brelse (sb.IBLOCK inum)

/-- Lock the given inode. Reads the inode from disk if necessary. -/
def ilock (ip : Slot) : FsM Unit := do
  acquire ip
  let valid ← getValid ip
  if valid then pure ()
  else do
    let (_, inum) ← getIno ip
    let bp ← bread (sb.IBLOCK inum)
    setNode ip (getDinode bp (inum % IPB))
    brelse (sb.IBLOCK inum)
    setValid ip true
    let d ← getNode ip
    if d.type = 0 then panic .ilockNoType else pure ()

def Dinode.setAddr (d : Dinode) (j : Fin (NDIRECT + 1)) (a : UInt32) : Dinode :=
  { d with addrs := Function.update d.addrs j a }

/-- The slots of `addrs` that hold the direct blocks. -/
def directs : List (Fin (NDIRECT + 1)) := (List.finRange NDIRECT).map Fin.castSucc

/-- Free the blocks of the given slots of `addrs`. -/
def itruncDirect (ip : Slot) : List (Fin (NDIRECT + 1)) → FsM Unit
  | [] => pure ()
  | j :: js => do
    let d ← getNode ip
    if d.addrs j ≠ 0 then do
      bfree sb (d.addrs j).toNat
      setNode ip (d.setAddr j 0)
      itruncDirect ip js
    else itruncDirect ip js

/-- Free the blocks that the entries `js` of the indirect block `a` name. -/
def itruncEntries (a : Block) : List Nat → FsM Unit
  | [] => pure ()
  | j :: js =>
    if getU32 a (4 * j) ≠ 0 then do
      bfree sb (getU32 a (4 * j)).toNat
      itruncEntries a js
    else itruncEntries a js

def itruncIndirect (ip : Slot) : FsM Unit := do
  let d ← getNode ip
  if d.addrs (Fin.last NDIRECT) ≠ 0 then do
    let ind := (d.addrs (Fin.last NDIRECT)).toNat
    let a ← bread ind
    itruncEntries sb a (List.range NINDIRECT)
    brelse ind
    bfree sb ind
    setNode ip (d.setAddr (Fin.last NDIRECT) 0)
  else pure ()

/-- Truncate inode (discard contents). -/
def itrunc (ip : Slot) : FsM Unit := do
  itruncDirect sb ip directs
  itruncIndirect sb ip
  let d ← getNode ip
  setNode ip { d with size := 0 }
  iupdate sb ip

/-- Drop a reference to an in-memory inode. If that was the last reference and the inode has no
    links to it, free the inode (and its content) on disk. -/
def iput (ip : Slot) : FsM Unit := do
  let freeing ← iputTest ip
  if freeing then do
    itrunc sb ip
    let d ← getNode ip
    setNode ip { d with type := 0 }
    iupdate sb ip
    setValid ip false
    releasesleep ip
    iputDrop ip
  else pure ()

/-- Common idiom: unlock, then put. -/
def iunlockput (ip : Slot) : FsM Unit := do
  iunlock ip
  iput sb ip

/-! ### Inode content -/

/-- The block in slot `j` of `ip->addrs`, allocated if there is none. Returns 0 if out of disk
    space. -/
def bmapSlot (ip : Slot) (j : Fin (NDIRECT + 1)) : FsM Nat := do
  let d ← getNode ip
  if d.addrs j = 0 then do
    let addr ← balloc sb
    if addr = 0 then pure 0
    else do
      setNode ip (d.setAddr j (UInt32.ofNat addr))
      pure addr
  else pure (d.addrs j).toNat

/-- The disk block address of the `bn`-th block in inode `ip`. If there is no such block, `bmap`
    allocates one. Returns 0 if out of disk space. -/
def bmap (ip : Slot) (bn : Nat) : FsM Nat :=
  if bn < NDIRECT then bmapSlot sb ip (@Fin.ofNat (NDIRECT + 1) neZero_slots bn)
  else if bn - NDIRECT < NINDIRECT then do
    -- Load indirect block, allocating if necessary.
    let ind ← bmapSlot sb ip (Fin.last NDIRECT)
    if ind = 0 then pure 0
    else do
      let a ← bread ind
      if getU32 a (4 * (bn - NDIRECT)) = 0 then do
        let addr ← balloc sb
        if addr ≠ 0 then do
          bmod ind fun a => setU32 a (4 * (bn - NDIRECT)) (UInt32.ofNat addr)
          logWrite ind
          brelse ind
          pure addr
        else do
          brelse ind
          pure 0
      else do
        brelse ind
        pure (getU32 a (4 * (bn - NDIRECT))).toNat
  else panic .bmapRange

/-- A user address space: which pages can be read, which written, and the bytes in it. -/
structure UMem where
  readable : Nat → Bool
  writable : Nat → Bool
  byte : Nat → UInt8

/-- The loop of `copyin` and `copyout`: how many of `len` bytes at `va` are copied, page by page,
    before a page that cannot be used. -/
def copyPages (page : Nat → Bool) : Nat → Nat → Nat → Nat
  | _, _, 0 => 0
  | va, len, n + 1 =>
    if len = 0 ∨ page (va / PGSIZE) = false then 0
    else
      let m := min len (PGSIZE - va % PGSIZE)
      m + copyPages page ((va / PGSIZE + 1) * PGSIZE) (len - m) n

/-- Where data comes from: `user_src`. -/
inductive Src where
  | kernel (bs : List UInt8)
  | user (u : UMem) (va : Nat)

/-- `either_copyin` of `len` bytes from `src + tot`: the bytes copied, fewer than `len` on failure. -/
def Src.copyin (tot len : Nat) : Src → List UInt8
  | .kernel bs => (bs.drop tot).take len
  | .user u va => (List.range (copyPages u.readable (va + tot) len len)).map fun k => u.byte (va + tot + k)

/-- Where data goes: `user_dst`. -/
inductive Dst where
  | kernel
  | user (u : UMem) (va : Nat)

/-- `either_copyout` of `len` bytes to `dst + tot`: how many are copied. -/
def Dst.copyout (tot len : Nat) : Dst → Nat
  | .kernel => len
  | .user u va => copyPages u.writable (va + tot) len len

/-- The loop of `readi`: what it returns, and the bytes copied out. -/
def readLoop (ip : Slot) (dst : Dst) (n : Nat) : Nat → Nat → List UInt8 → Nat → FsM (Int × List UInt8)
  | _, tot, out, 0 => pure (tot, out)
  | off, tot, out, fuel + 1 =>
    if tot < n then do
      let addr ← bmap sb ip (off / BSIZE)
      if addr = 0 then pure (tot, out)
      else do
        let bp ← bread addr
        let m := min (n - tot) (BSIZE - off % BSIZE)
        let got := getBytes bp (off % BSIZE) (dst.copyout tot m)
        brelse addr
        if got.length < m then pure (-1, out ++ got)
        else readLoop ip dst n (off + m) (tot + m) (out ++ got) fuel
    else pure (tot, out)

/-- Read data from inode. -/
def readi (ip : Slot) (dst : Dst) (off n : Nat) : FsM (Int × List UInt8) := do
  let d ← getNode ip
  if off > d.size.toNat ∨ (off + n) % 2 ^ 32 < off then pure (0, [])
  else if off + n > d.size.toNat then readLoop sb ip dst (d.size.toNat - off) off 0 [] (d.size.toNat - off)
  else readLoop sb ip dst n off 0 [] n

/-- The loop of `writei`: where it leaves `off` and `tot`. -/
def writeLoop (ip : Slot) (src : Src) (n : Nat) : Nat → Nat → Nat → FsM (Nat × Nat)
  | off, tot, 0 => pure (off, tot)
  | off, tot, fuel + 1 =>
    if tot < n then do
      let addr ← bmap sb ip (off / BSIZE)
      if addr = 0 then pure (off, tot)
      else do
        let _ ← bread addr
        let m := min (n - tot) (BSIZE - off % BSIZE)
        let got := src.copyin tot m
        if got.length < m then do
          -- the bytes before the fault stay in the buffer
          bfault addr fun d => setBytes d (off % BSIZE) got
          brelse addr
          pure (off, tot)
        else do
          bmod addr fun d => setBytes d (off % BSIZE) got
          logWrite addr
          brelse addr
          writeLoop ip src n (off + m) (tot + m) fuel
    else pure (off, tot)

/-- Write data to inode. Returns the number of bytes successfully written. -/
def writei (ip : Slot) (src : Src) (off n : Nat) : FsM Int := do
  let d ← getNode ip
  if off > d.size.toNat ∨ (off + n) % 2 ^ 32 < off then pure (-1)
  else if off + n > MAXFILE * BSIZE then pure (-1)
  else do
    let (off', tot) ← writeLoop sb ip src n off 0 n
    let d ← getNode ip
    if off' > d.size.toNat then do
      setNode ip { d with size := UInt32.ofNat off' }
      iupdate sb ip
      pure tot
    else do
      -- write the i-node back to disk even if the size didn't change
      iupdate sb ip
      pure tot

end Xv6.Fs
