import Xv6.Lib.Prog
import Xv6.Fs.Layout

/-! The state the file system works on, and its atomic operations.

    `fs.c`, `file.c` and `sysfile.c` are programs over the operations below. One operation is one
    critical section of a spin-lock, one acquire or release of a sleep-lock, or one access to memory
    that a sleep-lock or the process itself protects.

    `St` is what the file system sees: block contents through the buffer cache, the inode table with its
    sleep-locks, the file table, and each process's current directory and descriptors. `Hid` is what it
    only goes through: who holds which buffer, the log, and the disk under it. `St.step` says what an
    operation does to the first, `Hid.step` what it does to the second, and `handle` takes both. -/

namespace Xv6.Fs
open Prog Function

/-- `struct inode *`: an entry of `itable.inode`. -/
abbrev Slot := Fin NINODE

/-- `struct file *`: an entry of `ftable.file`. -/
abbrev FileId := Fin NFILE

/-- `struct proc *`. -/
abbrev Pid := Fin NPROC

inductive FileType where | none | pipe | inode | device
  deriving DecidableEq

/-- An open file of this type refers to an inode. -/
def FileType.hasIno : FileType → Bool
  | .inode | .device => true
  | _ => false

structure File where
  type : FileType
  ref : Nat            -- reference count
  readable : Bool
  writable : Bool
  ip : Slot            -- FD_INODE and FD_DEVICE
  off : Nat            -- FD_INODE
  major : Int16        -- FD_DEVICE

structure St where
  cache : Nat → Block                          -- block contents through the buffer cache
  -- struct inode
  dev : Slot → Nat
  inum : Slot → Nat
  ref : Slot → Nat
  ilk : Slot → Option Pid                      -- who holds ip->lock
  valid : Slot → Bool
  node : Slot → Dinode
  file : FileId → File
  -- struct proc; a process that is not running has no current directory
  cwd : Pid → Option Slot
  ofile : Pid → Fin NOFILE → Option FileId

inductive Panic where
  | tooBig              -- "too big a transaction"
  | outsideTrans        -- "log_write outside of trans"
  | brelse              -- "brelse"
  | freeingFree         -- "freeing free block"
  | igetNoInodes        -- "iget: no inodes"
  | ilock               -- "ilock"
  | ilockNoType         -- "ilock: no type"
  | iunlock             -- "iunlock"
  | schedLocks          -- "sched locks"
  | bmapRange           -- "bmap: out of range"
  | dirlookupNotDir     -- "dirlookup not DIR"
  | dirlookupRead       -- "dirlookup read"
  | dirlinkRead         -- "dirlink read"
  | filedup             -- "filedup"
  | fileclose           -- "fileclose"
  | fileread            -- "fileread"
  | filewrite           -- "filewrite"
  | isdirempty          -- "isdirempty: readi"
  | unlinkNlink         -- "unlink: nlink < 1"
  | unlinkWritei        -- "unlink: writei"
  | initExiting         -- "init exiting"
  deriving DecidableEq

inductive Op where
  -- bio.c and log.c
  | bread (n : Nat)
  | bmod (n : Nat) (f : Block → Block)       -- a store to bp->data
  | bclr (n : Nat)                           -- memset(bp->data, 0, BSIZE)
  | bfault (n : Nat) (f : Block → Block)     -- what copyin stores to bp->data before it faults
  | logWrite (n : Nat)
  | brelse (n : Nat)
  | beginOp
  | endOp
  -- the inode table
  | iget (dev inum : Nat)
  | idup (ip : Slot)
  | ilock (ip : Slot)                        -- ilock up to and including acquiresleep
  | iunlock (ip : Slot)
  | iputTest (ip : Slot)                     -- iput's first section of itable.lock
  | releasesleep (ip : Slot)
  | iputDrop (ip : Slot)                     -- ip->ref-- of iput's last section
  | ino (ip : Slot)                          -- read ip->dev and ip->inum
  | valid (ip : Slot)
  | setValid (ip : Slot) (v : Bool)
  | node (ip : Slot)                         -- read the copy of the disk inode
  | setNode (ip : Slot) (d : Dinode)
  -- the file table
  | filealloc
  | filedup (f : FileId)
  | filecloseTest (f : FileId)               -- fileclose's section of ftable.lock
  | file (f : FileId)
  | setFile (f : FileId) (x : File)          -- store all fields but the reference count
  | setOff (f : FileId) (off : Nat)
  -- myproc(), and the child of a fork
  | cwd
  | setCwd (ip : Option Slot)
  | ofile (fd : Fin NOFILE)
  | setOfile (fd : Fin NOFILE) (f : Option FileId)
  | childCwd (np : Pid) (ip : Slot)
  | childOfile (np : Pid) (fd : Fin NOFILE) (f : Option FileId)
  | panic (e : Panic)

/-- What an operation returns. -/
@[reducible] def Ret : Op → Type
  | .bread _ => Block
  | .iget .. => Slot
  | .iputTest _ => Bool
  | .ino _ => Nat × Nat
  | .valid _ => Bool
  | .node _ => Dinode
  | .filealloc => Option FileId
  | .filecloseTest _ => Option File
  | .file _ => File
  | .cwd => Slot
  | .ofile _ => Option FileId
  | .panic _ => Empty
  | _ => Unit

namespace St

/-- The table entry of an inode in use. -/
def lookup (s : St) (dev inum : Nat) : Option Slot :=
  (List.finRange NINODE).find? fun k => 0 < s.ref k && s.dev k == dev && s.inum k == inum

/-- The first free table entry. -/
def empty (s : St) : Option Slot := (List.finRange NINODE).find? fun k => s.ref k == 0

/-- The entry after `ref++` or `ref--`. -/
def setRef (s : St) (k : Slot) (n : Nat) : St := { s with ref := update s.ref k n }

def setLock (s : St) (k : Slot) (p : Option Pid) : St := { s with ilk := update s.ilk k p }

/-- Give the free entry `k` to an inode: its copy has not been read. -/
def recycle (s : St) (k : Slot) (dev inum : Nat) : St :=
  { s with
    dev := update s.dev k dev
    inum := update s.inum k inum
    ref := update s.ref k 1
    valid := update s.valid k false }

def setFile (s : St) (f : FileId) (x : File) : St := { s with file := update s.file f x }

/-- The first free entry of the file table. -/
def freeFile (s : St) : Option FileId := (List.finRange NFILE).find? fun f => (s.file f).ref == 0

@[simp] theorem setRef_ref (s : St) (k : Slot) (n : Nat) : (s.setRef k n).ref = update s.ref k n := rfl

@[simp] theorem recycle_dev (s : St) (k : Slot) (dev inum : Nat) :
    (s.recycle k dev inum).dev = update s.dev k dev := rfl

@[simp] theorem recycle_inum (s : St) (k : Slot) (dev inum : Nat) :
    (s.recycle k dev inum).inum = update s.inum k inum := rfl

@[simp] theorem recycle_ref (s : St) (k : Slot) (dev inum : Nat) :
    (s.recycle k dev inum).ref = update s.ref k 1 := rfl

@[simp] theorem recycle_valid (s : St) (k : Slot) (dev inum : Nat) :
    (s.recycle k dev inum).valid = update s.valid k false := rfl

@[simp] theorem setFile_file (s : St) (f : FileId) (x : File) :
    (s.setFile f x).file = update s.file f x := rfl

/-- `iput` has to free the inode: no links and no other references. -/
abbrev Last (s : St) (k : Slot) : Prop := s.ref k = 1 ∧ s.valid k ∧ (s.node k).nlink = 0

/-- What an operation of process `me` does to the file system. -/
def step (me : Pid) : (op : Op) → St → Outcome Panic (Ret op × St)
  | .bread n, s => .done (s.cache n, s)
  | .bmod n f, s => .done ((), { s with cache := update s.cache n (f (s.cache n)) })
  | .bclr n, s => .done ((), { s with cache := update s.cache n zeroBlock })
  | .bfault n f, s => .done ((), { s with cache := update s.cache n (f (s.cache n)) })
  | .logWrite _, s => .done ((), s)
  | .brelse _, s => .done ((), s)
  | .beginOp, s => .done ((), s)
  | .endOp, s => .done ((), s)
  | .iget dev inum, s =>
    match s.lookup dev inum with
    | some k => .done (k, s.setRef k (s.ref k + 1))
    | none =>
      match s.empty with
      | some k => .done (k, s.recycle k dev inum)
      | none => .panic .igetNoInodes
  | .idup k, s => .done ((), s.setRef k (s.ref k + 1))
  | .ilock k, s =>
    if s.ref k < 1 then .panic .ilock
    else if s.ilk k = none then .done ((), s.setLock k (some me))
    else .blocked
  | .iunlock k, s =>
    if s.ilk k ≠ some me ∨ s.ref k < 1 then .panic .iunlock else .done ((), s.setLock k none)
  | .iputTest k, s =>
    if s.Last k then
      -- acquiresleep under itable.lock: it may not sleep
      if s.ilk k = none then .done (true, s.setLock k (some me)) else .panic .schedLocks
    else .done (false, s.setRef k (s.ref k - 1))
  | .releasesleep k, s => .done ((), s.setLock k none)
  | .iputDrop k, s => .done ((), s.setRef k (s.ref k - 1))
  | .ino k, s => .done ((s.dev k, s.inum k), s)
  | .valid k, s => .done (s.valid k, s)
  | .setValid k v, s => .done ((), { s with valid := update s.valid k v })
  | .node k, s => .done (s.node k, s)
  | .setNode k d, s => .done ((), { s with node := update s.node k d })
  | .filealloc, s =>
    match s.freeFile with
    | some f => .done (some f, s.setFile f { s.file f with ref := 1 })
    | none => .done (none, s)
  | .filedup f, s =>
    if (s.file f).ref < 1 then .panic .filedup
    else .done ((), s.setFile f { s.file f with ref := (s.file f).ref + 1 })
  | .filecloseTest f, s =>
    if (s.file f).ref < 1 then .panic .fileclose
    else if 1 < (s.file f).ref then
      .done (none, s.setFile f { s.file f with ref := (s.file f).ref - 1 })
    else .done (some (s.file f), s.setFile f { s.file f with ref := 0, type := .none })
  | .file f, s => .done (s.file f, s)
  | .setFile f x, s => .done ((), s.setFile f { x with ref := (s.file f).ref })
  | .setOff f off, s => .done ((), s.setFile f { s.file f with off := off })
  | .cwd, s =>
    match s.cwd me with
    | some k => .done (k, s)
    | none => .blocked
  | .setCwd k, s => .done ((), { s with cwd := update s.cwd me k })
  | .ofile fd, s => .done (s.ofile me fd, s)
  | .setOfile fd f, s =>
    .done ((), { s with ofile := update s.ofile me (update (s.ofile me) fd f) })
  | .childCwd np k, s => .done ((), { s with cwd := update s.cwd np (some k) })
  | .childOfile np fd f, s =>
    .done ((), { s with ofile := update s.ofile np (update (s.ofile np) fd f) })
  | .panic e, _ => .panic e

end St

structure Hid where
  disk : Nat → Block
  lh : List Nat                    -- log.lh.block[0..n)
  outstanding : Nat
  buf : Nat → Option Pid           -- who holds the buffer of a block

namespace Hid
variable (sb : Super)

/-- The machine on which `commit` runs: every home block is in the cache. -/
def machine (h : Hid) (cache : Nat → Block) : Log.Machine where
  cache := fun b => if sb.logstart ≤ b ∧ b < sb.logstart + sb.nlog then none else some (cache b)
  disk := h.disk
  bwrites := []

/-- What an operation of process `me`, answered by `r`, does to buffers and log. -/
def step (me : Pid) (s : St) : (op : Op) → Ret op → Hid → Outcome Panic Hid
  | .bread n, _, h =>
    if h.buf n = none then .done { h with buf := update h.buf n (some me) } else .blocked
  | .brelse n, _, h =>
    if h.buf n = some me then .done { h with buf := update h.buf n none } else .panic .brelse
  | .logWrite n, _, h =>
    if h.lh.length ≥ LOGSIZE ∨ h.lh.length ≥ sb.nlog - 1 then .panic .tooBig
    else if h.outstanding < 1 then .panic .outsideTrans
    else .done { h with lh := if n ∈ h.lh then h.lh else h.lh ++ [n] }
  | .beginOp, _, h =>
    if h.lh.length + (h.outstanding + 1) * MAXOPBLOCKS > LOGSIZE then .blocked
    else .done { h with outstanding := h.outstanding + 1 }
  | .endOp, _, h =>
    if h.outstanding - 1 = 0 then
      .done { h with
        outstanding := 0
        disk := (Log.commit sb.area h.lh (h.machine sb s.cache)).disk
        lh := [] }
    else .done { h with outstanding := h.outstanding - 1 }
  | _, _, h => .done h

end Hid

structure Sys where
  fs : St
  hid : Hid

/-- One operation of process `me`. -/
def handle (sb : Super) (me : Pid) : Handler Op Ret Sys Panic := fun op σ =>
  match σ.fs.step me op with
  | .done (r, fs) =>
    match σ.hid.step sb me σ.fs op r with
    | .done hid => .done (r, ⟨fs, hid⟩)
    | .blocked => .blocked
    | .panic e => .panic e
  | .blocked => .blocked
  | .panic e => .panic e

/-- Programs of the file system. -/
abbrev FsM := Prog Op Ret

section Operations

/-- The program that performs one operation. -/
abbrev op (o : Op) : FsM (Ret o) := perform o

def bread (n : Nat) : FsM Block := op (.bread n)
def bmod (n : Nat) (f : Block → Block) : FsM Unit := op (.bmod n f)
def bclr (n : Nat) : FsM Unit := op (.bclr n)
def bfault (n : Nat) (f : Block → Block) : FsM Unit := op (.bfault n f)
def logWrite (n : Nat) : FsM Unit := op (.logWrite n)
def brelse (n : Nat) : FsM Unit := op (.brelse n)
def beginOp : FsM Unit := op .beginOp
def endOp : FsM Unit := op .endOp
def iget (dev inum : Nat) : FsM Slot := op (.iget dev inum)
def idup (ip : Slot) : FsM Unit := op (.idup ip)
def iunlock (ip : Slot) : FsM Unit := op (.iunlock ip)
def acquire (ip : Slot) : FsM Unit := op (.ilock ip)
def iputTest (ip : Slot) : FsM Bool := op (.iputTest ip)
def releasesleep (ip : Slot) : FsM Unit := op (.releasesleep ip)
def iputDrop (ip : Slot) : FsM Unit := op (.iputDrop ip)
def getValid (ip : Slot) : FsM Bool := op (.valid ip)
def setValid (ip : Slot) (v : Bool) : FsM Unit := op (.setValid ip v)
def getIno (ip : Slot) : FsM (Nat × Nat) := op (.ino ip)
def getNode (ip : Slot) : FsM Dinode := op (.node ip)
def setNode (ip : Slot) (d : Dinode) : FsM Unit := op (.setNode ip d)
def filealloc : FsM (Option FileId) := op .filealloc
def filedup (f : FileId) : FsM Unit := op (.filedup f)
def filecloseTest (f : FileId) : FsM (Option File) := op (.filecloseTest f)
def getFile (f : FileId) : FsM File := op (.file f)
def setFile (f : FileId) (x : File) : FsM Unit := op (.setFile f x)
def setOff (f : FileId) (off : Nat) : FsM Unit := op (.setOff f off)
def getCwd : FsM Slot := op .cwd
def setCwd (ip : Option Slot) : FsM Unit := op (.setCwd ip)
def getOfile (fd : Fin NOFILE) : FsM (Option FileId) := op (.ofile fd)
def setOfile (fd : Fin NOFILE) (f : Option FileId) : FsM Unit := op (.setOfile fd f)
def childCwd (np : Pid) (ip : Slot) : FsM Unit := op (.childCwd np ip)
def childOfile (np : Pid) (fd : Fin NOFILE) (f : Option FileId) : FsM Unit := op (.childOfile np fd f)
def panic {α : Type} (e : Panic) : FsM α := do
  let r : Empty ← op (.panic e)
  nomatch r

end Operations

end Xv6.Fs
