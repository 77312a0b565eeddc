import Xv6.Fs.Exec

/-! `kernel/file.c` and `kernel/sysfile.c`: open files and the file-system system calls, with the parts
    of `pipe`, `fork` and `exit` that touch files. `Call` is a system call with its arguments as the user
    passed them, and `Call.prog` the kernel code that serves it.

    A system call runs on behalf of one process. `syscall` runs one from beginning to end, and a
    sequence of calls by any processes is a run of it. -/

namespace Xv6.Fs
open Bytes Prog

variable (sb : Super)

/-! ### `file.c` -/

/-- The only device with a driver: `devsw[CONSOLE]`. -/
def CONSOLE : Int16 := 1

/-- `f->major` is in range and `devsw[f->major]` has a driver. -/
abbrev hasDriver (major : Int16) : Prop := 0 ≤ major.toInt ∧ major.toInt < NDEV ∧ major = CONSOLE

/-- Close file `f`. (Decrement ref count, close when reaches 0.) -/
def fileclose (f : FileId) : FsM Unit := do
  match ← filecloseTest f with
  | none => pure ()
  | some ff =>
    -- pipeclose touches neither inodes nor files
    if ff.type = .inode ∨ ff.type = .device then do
      beginOp
      iput sb ff.ip
      endOp
    else pure ()

structure Stat where
  dev : Nat
  ino : Nat
  type : Int16
  nlink : Int16
  size : Nat

/-- Copy stat information from inode. -/
def stati (ip : Slot) : FsM Stat := do
  let (dev, inum) ← getIno ip
  let d ← getNode ip
  pure ⟨dev, inum, d.type, d.nlink, d.size.toNat⟩

/-- `sizeof(struct stat)`. -/
def statSize : Nat := 24

/-- Get metadata about file `f`, for the user address `addr`. -/
def filestat (f : FileId) (u : UMem) (addr : Nat) : FsM (Option Stat) := do
  let x ← getFile f
  if x.type = .inode ∨ x.type = .device then do
    ilock sb x.ip
    let st ← stati x.ip
    iunlock x.ip
    pure (if copyPages u.writable addr statSize statSize < statSize then none else some st)
  else pure none

/-- The part of `fileread` under the inode lock. -/
def readSection (f : FileId) (u : UMem) (addr : Nat) (n : Int) : FsM (Int × List UInt8) := do
  let x ← getFile f
  ilock sb x.ip
  let y ← getFile f
  let (r, bs) ← readi sb x.ip (.user u addr) y.off (n % 2 ^ 32).toNat
  when (r > 0) (setOff f ((y.off + r.toNat) % 2 ^ 32))
  iunlock x.ip
  pure (r, bs)

/-- Read from file `f`: the result, and the bytes of a file copied to the user. `input` is what
    `piperead` or the console driver returns when it is asked. -/
def fileread (f : FileId) (u : UMem) (addr : Nat) (n : Int) (input : Int) : FsM (Int × List UInt8) := do
  let x ← getFile f
  if x.readable = false then pure (-1, [])
  else
    match x.type with
    | .pipe => pure (input, [])
    | .device => pure (if hasDriver x.major then input else -1, [])
    | .inode => readSection sb f u addr n
    | .none => panic .fileread

/-- What one transaction of `filewrite` writes at most. -/
def writeMax : Nat := ((MAXOPBLOCKS - 1 - 1 - 2) / 2) * BSIZE

/-- The part of one round of `filewrite` under the inode lock: write `n` bytes from `addr` on. -/
def writeSection (f : FileId) (u : UMem) (addr n : Nat) : FsM Int := do
  let x ← getFile f
  ilock sb x.ip
  let y ← getFile f
  let r ← writei sb x.ip (.user u addr) y.off n
  when (r > 0) (setOff f ((y.off + r.toNat) % 2 ^ 32))
  iunlock x.ip
  pure r

/-- The loop of `filewrite`: where it leaves `i`. -/
def filewriteLoop (f : FileId) (u : UMem) (addr n : Nat) : Nat → Nat → FsM Nat
  | i, 0 => pure i
  | i, fuel + 1 =>
    if i < n then do
      let n1 := min (n - i) writeMax
      beginOp
      let r ← writeSection sb f u (addr + i) n1
      endOp
      -- on an error from writei
      if r ≠ n1 then pure i else filewriteLoop f u addr n (i + n1) fuel
    else pure i

/-- Write to file `f`. `output` is what `pipewrite` returns when it is asked. -/
def filewrite (f : FileId) (u : UMem) (addr : Nat) (n : Int) (output : Int) : FsM Int := do
  let x ← getFile f
  if x.writable = false then pure (-1)
  else
    match x.type with
    | .pipe => pure output
    | .device => pure (if hasDriver x.major then copyPages u.readable addr n.toNat n.toNat else -1)
    | .inode => do
      let i ← filewriteLoop sb f u addr n.toNat 0 n.toNat
      pure (if (i : Int) = n then n else -1)
    | .none => panic .filewrite

/-! ### `sysfile.c` -/

/-- Fetch a string argument: what `argstr` finds at the user's pointer, if it can be read and a NUL
    comes within `MAXPATH` bytes. -/
def argstr (arg : Option (List UInt8)) : Option Name :=
  arg.bind fun bs => if (bs.takeWhile (· != 0)).length < MAXPATH then some (bs.takeWhile (· != 0)) else none

/-- The descriptor an `int` names. -/
def argfd (fd : Int) : FsM (Option (Fin NOFILE × FileId)) :=
  if h : 0 ≤ fd ∧ fd.toNat < NOFILE then do
    let f ← getOfile ⟨fd.toNat, h.2⟩
    pure (f.map fun f => (⟨fd.toNat, h.2⟩, f))
  else pure none

def fdallocFrom (f : FileId) : List (Fin NOFILE) → FsM (Option (Fin NOFILE))
  | [] => pure none
  | fd :: fds => do
    match ← getOfile fd with
    | none => do
      setOfile fd (some f)
      pure (some fd)
    | some _ => fdallocFrom f fds

/-- Allocate a file descriptor for the given file. -/
def fdalloc (f : FileId) : FsM (Option (Fin NOFILE)) := fdallocFrom f (List.finRange NOFILE)

def sysDup (fd : Int) : FsM Int := do
  match ← argfd fd with
  | none => pure (-1)
  | some (_, f) => do
    match ← fdalloc f with
    | none => pure (-1)
    | some fd => do
      filedup f
      pure fd.val

def sysRead (fd : Int) (u : UMem) (addr : Nat) (n : Int) (input : Int) : FsM (Int × List UInt8) := do
  match ← argfd fd with
  | none => pure (-1, [])
  | some (_, f) => fileread sb f u addr n input

def sysWrite (fd : Int) (u : UMem) (addr : Nat) (n : Int) (output : Int) : FsM Int := do
  match ← argfd fd with
  | none => pure (-1)
  | some (_, f) => filewrite sb f u addr n output

def sysClose (fd : Int) : FsM Int := do
  match ← argfd fd with
  | none => pure (-1)
  | some (fd, f) => do
    setOfile fd none
    fileclose sb f
    pure 0

def sysFstat (fd : Int) (u : UMem) (addr : Nat) : FsM Int := do
  match ← argfd fd with
  | none => pure (-1)
  | some (_, f) => do
    let st ← filestat sb f u addr
    pure (if st.isNone then -1 else 0)

/-- The label `bad` of `sys_link`. -/
def linkBad (ip : Slot) : FsM Int := do
  ilock sb ip
  let d ← getNode ip
  setNode ip { d with nlink := d.nlink - 1 }
  iupdate sb ip
  iunlockput sb ip
  endOp
  pure (-1)

/-- `sys_link` once the new link is counted in the inode `ip`. -/
def linkInto (ip : Slot) (new : Name) : FsM Int := do
  match ← nameiparent sb new with
  | none => linkBad sb ip
  | some (dp, name) => do
    ilock sb dp
    let (ddev, _) ← getIno dp
    let (idev, inum) ← getIno ip
    if ddev ≠ idev then do
      iunlockput sb dp
      linkBad sb ip
    else do
      let linked ← dirlink sb dp name inum
      if linked then do
        iunlockput sb dp
        iput sb ip
        endOp
        pure 0
      else do
        iunlockput sb dp
        linkBad sb ip

/-- Create the path `new` as a link to the same inode as `old`. -/
def sysLink (old new : Option (List UInt8)) : FsM Int := do
  match argstr old, argstr new with
  | some old, some new => do
    beginOp
    match ← namei sb old with
    | none => do
      endOp
      pure (-1)
    | some ip => do
      ilock sb ip
      let d ← getNode ip
      if d.type = T_DIR then do
        iunlockput sb ip
        endOp
        pure (-1)
      else do
        setNode ip { d with nlink := d.nlink + 1 }
        iupdate sb ip
        iunlock ip
        linkInto sb ip new
  | _, _ => pure (-1)

/-- `isdirempty` from offset `off` on. -/
def isdiremptyFrom (dp : Slot) : Nat → Nat → FsM Bool
  | _, 0 => pure true
  | off, n + 1 => do
    let d ← getNode dp
    if off < d.size.toNat then do
      let de ← readDirent sb dp off .isdirempty
      if de.inum ≠ 0 then pure false else isdiremptyFrom dp (off + direntSize) n
    else pure true

/-- Is the directory `dp` empty except for "." and ".." ? -/
def isdirempty (dp : Slot) : FsM Bool := do
  let d ← getNode dp
  isdiremptyFrom sb dp (2 * direntSize) (d.size.toNat + 1)

/-- `sys_unlink` once both inodes are locked and the entry at `off` of `dp` may go. -/
def unlinkEntry (dp ip : Slot) (off : Nat) : FsM Int := do
  let r ← writei sb dp (.kernel (List.replicate direntSize 0)) off direntSize
  if r ≠ direntSize then panic .unlinkWritei
  else do
    let d ← getNode ip
    when (d.type = T_DIR) (do
      let pd ← getNode dp
      setNode dp { pd with nlink := pd.nlink - 1 }
      iupdate sb dp)
    iunlockput sb dp
    let d ← getNode ip
    setNode ip { d with nlink := d.nlink - 1 }
    iupdate sb ip
    iunlockput sb ip
    endOp
    pure 0

/-- The label `bad` of `sys_unlink`. -/
def unlinkBad (dp : Slot) : FsM Int := do
  iunlockput sb dp
  endOp
  pure (-1)

def sysUnlink (path : Option (List UInt8)) : FsM Int := do
  match argstr path with
  | none => pure (-1)
  | some path => do
    beginOp
    match ← nameiparent sb path with
    | none => do
      endOp
      pure (-1)
    | some (dp, name) => do
      ilock sb dp
      -- Cannot unlink "." or "..".
      if namecmp (cstr name) (cstr dot) = 0 ∨ namecmp (cstr name) (cstr dotdot) = 0 then unlinkBad sb dp
      else do
        match ← dirlookup sb dp name with
        | none => unlinkBad sb dp
        | some (ip, off) => do
          ilock sb ip
          let d ← getNode ip
          if d.nlink.toInt < 1 then panic .unlinkNlink
          else if d.type = T_DIR then do
            let empty ← isdirempty sb ip
            if empty then unlinkEntry sb dp ip off
            else do
              iunlockput sb ip
              unlinkBad sb dp
          else unlinkEntry sb dp ip off

/-- The label `fail` of `create`: something went wrong, de-allocate `ip`. -/
def createFail (dp ip : Slot) : FsM (Option Slot) := do
  let d ← getNode ip
  setNode ip { d with nlink := 0 }
  iupdate sb ip
  iunlockput sb ip
  iunlockput sb dp
  pure none

/-- Create . and .. entries. -/
def linkDots (dp ip : Slot) : FsM Bool := do
  let (_, inum) ← getIno ip
  let (_, pinum) ← getIno dp
  let first ← dirlink sb ip dot inum
  if first then dirlink sb ip dotdot pinum else pure false

/-- `create` once the new inode `ip` is filled in: link it into `dp`. -/
def createLink (dp ip : Slot) (name : Name) (type : Int16) : FsM (Option Slot) := do
  let (_, inum) ← getIno ip
  let linked ← dirlink sb dp name inum
  if linked then do
    when (type = T_DIR) (do
      -- now that success is guaranteed: for ".."
      let pd ← getNode dp
      setNode dp { pd with nlink := pd.nlink + 1 }
      iupdate sb dp)
    iunlockput sb dp
    pure (some ip)
  else createFail sb dp ip

def create (path : Name) (type major minor : Int16) : FsM (Option Slot) := do
  match ← nameiparent sb path with
  | none => pure none
  | some (dp, name) => do
    ilock sb dp
    match ← dirlookup sb dp name with
    | some (ip, _) => do
      iunlockput sb dp
      ilock sb ip
      let d ← getNode ip
      if type = T_FILE ∧ (d.type = T_FILE ∨ d.type = T_DEVICE) then pure (some ip)
      else do
        iunlockput sb ip
        pure none
    | none => do
      let (dev, _) ← getIno dp
      match ← ialloc sb dev type with
      | none => do
        iunlockput sb dp
        pure none
      | some ip => do
        ilock sb ip
        let d ← getNode ip
        setNode ip { d with major := major, minor := minor, nlink := 1 }
        iupdate sb ip
        if type = T_DIR then do
          let ok ← linkDots sb dp ip
          if ok then createLink sb dp ip name type else createFail sb dp ip
        else createLink sb dp ip name type

def O_WRONLY : UInt32 := 0x001
def O_RDWR : UInt32 := 0x002
def O_CREATE : UInt32 := 0x200
def O_TRUNC : UInt32 := 0x400

/-- The locked inode that `sys_open` opens. -/
def openInode (path : Name) (omode : UInt32) : FsM (Option Slot) :=
  if omode &&& O_CREATE ≠ 0 then create sb path T_FILE 0 0
  else do
    match ← namei sb path with
    | none => pure none
    | some ip => do
      ilock sb ip
      let d ← getNode ip
      if d.type = T_DIR ∧ omode ≠ 0 then do
        iunlockput sb ip
        pure none
      else pure (some ip)

/-- `sys_open` gives up on the locked inode `ip`. -/
def openFail (ip : Slot) : FsM Int := do
  iunlockput sb ip
  endOp
  pure (-1)

/-- `sys_open` with a file structure and a descriptor for the locked inode `ip`. -/
def openFile (ip : Slot) (f : FileId) (fd : Fin NOFILE) (omode : UInt32) : FsM Int := do
  let d ← getNode ip
  let x ← getFile f
  setFile f { x with
    type := if d.type = T_DEVICE then .device else .inode
    major := if d.type = T_DEVICE then d.major else x.major
    off := if d.type = T_DEVICE then x.off else 0
    ip := ip
    readable := omode &&& O_WRONLY == 0
    writable := omode &&& O_WRONLY != 0 || omode &&& O_RDWR != 0 }
  when (omode &&& O_TRUNC ≠ 0 ∧ d.type = T_FILE) (itrunc sb ip)
  iunlock ip
  endOp
  pure fd.val

def sysOpen (path : Option (List UInt8)) (omode : UInt32) : FsM Int := do
  match argstr path with
  | none => pure (-1)
  | some path => do
    beginOp
    match ← openInode sb path omode with
    | none => do
      endOp
      pure (-1)
    | some ip => do
      let d ← getNode ip
      if d.type = T_DEVICE ∧ (d.major.toInt < 0 ∨ d.major.toInt ≥ NDEV) then openFail sb ip
      else do
        match ← filealloc with
        | none => openFail sb ip
        | some f => do
          match ← fdalloc f with
          | none => do
            fileclose sb f
            openFail sb ip
          | some fd => openFile sb ip f fd omode

/-- `sys_mkdir` and `sys_mknod` after their arguments. -/
def make (path : Option Name) (type major minor : Int16) : FsM Int := do
  beginOp
  match path with
  | none => do
    endOp
    pure (-1)
  | some path => do
    match ← create sb path type major minor with
    | none => do
      endOp
      pure (-1)
    | some ip => do
      iunlockput sb ip
      endOp
      pure 0

def sysMkdir (path : Option (List UInt8)) : FsM Int := make sb (argstr path) T_DIR 0 0

def sysMknod (path : Option (List UInt8)) (major minor : Int16) : FsM Int :=
  make sb (argstr path) T_DEVICE major minor

def sysChdir (path : Option (List UInt8)) : FsM Int := do
  beginOp
  match argstr path with
  | none => do
    endOp
    pure (-1)
  | some path => do
    match ← namei sb path with
    | none => do
      endOp
      pure (-1)
    | some ip => do
      ilock sb ip
      let d ← getNode ip
      if d.type ≠ T_DIR then do
        iunlockput sb ip
        endOp
        pure (-1)
      else do
        iunlock ip
        let cwd ← getCwd
        iput sb cwd
        endOp
        setCwd (some ip)
        pure 0

/-! ### `exec` and `pipe` -/

/-- `sys_exec`: `args` says whether the argument strings could be fetched. -/
def sysExec (path : Option (List UInt8)) (args : Bool) (mem : ExecMem) : FsM Int :=
  match argstr path with
  | none => pure (-1)
  | some path => if args = false then pure (-1) else Fs.exec sb path mem

/-- The file structures of a new pipe; `page` says whether `kalloc` found a page for it. -/
def pipealloc (page : Bool) : FsM (Option (FileId × FileId)) := do
  match ← filealloc with
  | none => pure none
  | some f0 => do
    match ← filealloc with
    | none => do
      fileclose sb f0
      pure none
    | some f1 =>
      if page = false then do
        fileclose sb f0
        fileclose sb f1
        pure none
      else do
        let x ← getFile f0
        setFile f0 { x with type := .pipe, readable := true, writable := false }
        let y ← getFile f1
        setFile f1 { y with type := .pipe, readable := false, writable := true }
        pure (some (f0, f1))

/-- `sys_pipe` gives up on the two ends of the pipe. -/
def pipeFail (rf wf : FileId) : FsM Int := do
  fileclose sb rf
  fileclose sb wf
  pure (-1)

def sysPipe (page : Bool) (u : UMem) (fdarray : Nat) : FsM Int := do
  match ← pipealloc sb page with
  | none => pure (-1)
  | some (rf, wf) => do
    match ← fdalloc rf with
    | none => pipeFail sb rf wf
    | some fd0 => do
      match ← fdalloc wf with
      | none => do
        setOfile fd0 none
        pipeFail sb rf wf
      | some fd1 =>
        if copyPages u.writable fdarray 4 4 < 4 ∨ copyPages u.writable ((fdarray + 4) % 2 ^ 64) 4 4 < 4 then do
          setOfile fd0 none
          setOfile fd1 none
          pipeFail sb rf wf
        else pure 0

/-! ### `fork` and `exit` -/

/-- Increment reference counts on open file descriptors. -/
def forkFiles (np : Pid) : List (Fin NOFILE) → FsM Unit
  | [] => pure ()
  | fd :: fds => do
    match ← getOfile fd with
    | none => forkFiles np fds
    | some f => do
      filedup f
      childOfile np fd (some f)
      forkFiles np fds

/-- `fork` into the process slot that `allocproc` found, if it found one and memory could be copied. -/
def fork (np : Option Pid) : FsM Int := do
  match np with
  | none => pure (-1)
  | some np => do
    forkFiles np (List.finRange NOFILE)
    let ip ← getCwd
    idup ip
    childCwd np ip
    pure np.val

/-- Close all open files. -/
def exitFiles : List (Fin NOFILE) → FsM Unit
  | [] => pure ()
  | fd :: fds => do
    match ← getOfile fd with
    | none => exitFiles fds
    | some f => do
      fileclose sb f
      setOfile fd none
      exitFiles fds

def initproc : Pid := ⟨0, by decide⟩

def exit (me : Pid) : FsM Int := do
  if me = initproc then panic .initExiting
  else do
    exitFiles sb (List.finRange NOFILE)
    beginOp
    let ip ← getCwd
    iput sb ip
    endOp
    setCwd none
    pure 0

/-! ### System calls -/

inductive Call where
  | dup (fd : Int)
  | read (fd : Int) (u : UMem) (addr : Nat) (n input : Int)
  | write (fd : Int) (u : UMem) (addr : Nat) (n output : Int)
  | close (fd : Int)
  | fstat (fd : Int) (u : UMem) (addr : Nat)
  | link (old new : Option (List UInt8))
  | unlink (path : Option (List UInt8))
  | open (path : Option (List UInt8)) (omode : UInt32)
  | mkdir (path : Option (List UInt8))
  | mknod (path : Option (List UInt8)) (major minor : Int16)
  | chdir (path : Option (List UInt8))
  | exec (path : Option (List UInt8)) (args : Bool) (mem : ExecMem)
  | pipe (page : Bool) (u : UMem) (fdarray : Nat)
  | fork (np : Option Pid)
  | exit

/-- The code that serves a system call of process `me`. -/
def Call.prog (me : Pid) : Call → FsM Int
  | .dup fd => sysDup fd
  | .read fd u addr n input => do
    let r ← sysRead sb fd u addr n input
    pure r.1
  | .write fd u addr n output => sysWrite sb fd u addr n output
  | .close fd => sysClose sb fd
  | .fstat fd u addr => sysFstat sb fd u addr
  | .link old new => sysLink sb old new
  | .unlink path => sysUnlink sb path
  | .open path omode => sysOpen sb path omode
  | .mkdir path => sysMkdir sb path
  | .mknod path major minor => sysMknod sb path major minor
  | .chdir path => sysChdir sb path
  | .exec path args mem => sysExec sb path args mem
  | .pipe page u fdarray => sysPipe sb page u fdarray
  | .fork np => Fs.fork np
  | .exit => Fs.exit sb me

/-- A process can make the call: it is running, and `allocproc` only finds unused processes. -/
def ready (s : St) (me : Pid) : Call → Bool
  | .fork (some np) => (s.cwd me).isSome && (s.cwd np).isNone
  | _ => (s.cwd me).isSome

/-- One system call, from beginning to end. -/
def syscall (σ : Sys) (c : Pid × Call) : Option Sys :=
  if ready σ.fs c.1 c.2 then
    match run (handle sb c.1) (c.2.prog sb c.1) σ with
    | .done (_, σ') => some σ'
    | _ => none
  else none

end Xv6.Fs
