import Xv6.Fs.Dir

/-! `kernel/exec.c`, the part that works on the executable file: the ELF header and the program headers
    are read from the locked inode, and so are the segments.

    What `exec` does to memory is decided elsewhere. `ExecMem` says how those calls come out: whether a
    page table could be made, whether memory for each segment could be allocated, and what the rest of
    the call, after the file has been released, returns. -/

namespace Xv6.Fs
open Bytes Prog

variable (sb : Super)

def ELF_MAGIC : UInt32 := 0x464C457F
def ELF_PROG_LOAD : UInt32 := 1

/-- The fields of `struct elfhdr` that `exec` looks at before it leaves the file. -/
structure Elfhdr where
  magic : UInt32
  phoff : Nat
  phnum : Nat

/-- `sizeof(struct elfhdr)`. -/
def elfhdrSize : Nat := 64

def elfhdr (b : Buf) : Elfhdr := ⟨getU32 b 0, getU64 b 32, (getU16 b 56).toNat⟩

/-- The fields of `struct proghdr` that `exec` looks at. -/
structure Proghdr where
  type : UInt32
  off : Nat
  vaddr : Nat
  filesz : Nat
  memsz : Nat

/-- `sizeof(struct proghdr)`. -/
def proghdrSize : Nat := 56

def proghdr (b : Buf) : Proghdr := ⟨getU32 b 0, getU64 b 8, getU64 b 16, getU64 b 32, getU64 b 40⟩

/-- How the memory side of `exec` comes out. -/
structure ExecMem where
  pagetable : Bool          -- proc_pagetable
  grow : Nat → Bool         -- uvmalloc for the i-th program header
  rest : Int                -- the result of everything after end_op

/-- Load a program segment: read `sz` bytes from `offset` on, a page at a time. -/
def loadseg (ip : Slot) (offset sz : Nat) : Nat → Nat → FsM Bool
  | _, 0 => pure true
  | i, fuel + 1 =>
    if i < sz then do
      let n := min (sz - i) PGSIZE
      let (r, _) ← readi sb ip .kernel ((offset + i) % 2 ^ 32) n
      if r ≠ n then pure false else loadseg ip offset sz (i + PGSIZE) fuel
    else pure true

/-- Load program into memory: `n` program headers from number `i` on, at offset `off`. -/
def loadProgram (ip : Slot) (mem : ExecMem) : Nat → Nat → Nat → FsM Bool
  | _, _, 0 => pure true
  | i, off, n + 1 => do
    let (r, bs) ← readi sb ip .kernel off proghdrSize
    let ph := proghdr (cstr bs)
    if r ≠ proghdrSize then pure false
    else if ph.type ≠ ELF_PROG_LOAD then loadProgram ip mem (i + 1) ((off + proghdrSize) % 2 ^ 32) n
    else if ph.memsz < ph.filesz then pure false
    else if (ph.vaddr + ph.memsz) % 2 ^ 64 < ph.vaddr then pure false
    else if ph.vaddr % PGSIZE ≠ 0 then pure false
    else if mem.grow i = false then pure false
    else do
      let sz := ph.filesz % 2 ^ 32
      let ok ← loadseg sb ip (ph.off % 2 ^ 32) sz 0 (sz / PGSIZE + 1)
      if ok then loadProgram ip mem (i + 1) ((off + proghdrSize) % 2 ^ 32) n else pure false

/-- The label `bad` of `exec` while the file is locked. -/
def execBad (ip : Slot) : FsM Int := do
  iunlockput sb ip
  endOp
  pure (-1)

def exec (path : Name) (mem : ExecMem) : FsM Int := do
  beginOp
  match ← namei sb path with
  | none => do
    endOp
    pure (-1)
  | some ip => do
    ilock sb ip
    let (r, bs) ← readi sb ip .kernel 0 elfhdrSize
    let elf := elfhdr (cstr bs)
    if r ≠ elfhdrSize then execBad sb ip
    else if elf.magic ≠ ELF_MAGIC then execBad sb ip
    else if mem.pagetable = false then execBad sb ip
    else do
      let ok ← loadProgram sb ip mem 0 (elf.phoff % 2 ^ 32) elf.phnum
      if ok then do
        iunlockput sb ip
        endOp
        pure mem.rest
      else execBad sb ip

end Xv6.Fs
