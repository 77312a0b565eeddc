import Mathlib

/-! Compile-time constants of `kernel/param.h`, `kernel/fs.h` and `kernel/fcntl.h`, as built for
    `LAB=util`. -/

namespace Xv6

def NPROC : Nat := 64         -- maximum number of processes
def NOFILE : Nat := 16        -- open files per process
def NFILE : Nat := 100        -- open files per system
def NINODE : Nat := 50        -- maximum number of active i-nodes
def NDEV : Nat := 10          -- maximum major device number
def ROOTDEV : Nat := 1        -- device number of file system root disk
def MAXOPBLOCKS : Nat := 10   -- max # of blocks any FS op writes
def LOGSIZE : Nat := MAXOPBLOCKS * 3
def NBUF : Nat := MAXOPBLOCKS * 3
def FSSIZE : Nat := 2000      -- size of file system in blocks
def MAXARG : Nat := 32        -- max exec arguments
def MAXPATH : Nat := 128      -- maximum file path name
def USERSTACK : Nat := 2      -- user stack pages

def ROOTINO : Nat := 1
def BSIZE : Nat := 1024
def NDIRECT : Nat := 12
def NINDIRECT : Nat := BSIZE / 4
def MAXFILE : Nat := NDIRECT + NINDIRECT
def DIRSIZ : Nat := 14
def PGSIZE : Nat := 4096

theorem neZero_one : NeZero 1 := ⟨by decide⟩
theorem neZero_two : NeZero 2 := ⟨by decide⟩
theorem neZero_512 : NeZero 512 := ⟨by decide⟩
theorem neZero_slots : NeZero (NDIRECT + 1) := ⟨by decide⟩
theorem zero_lt_NPROC : 0 < NPROC := by decide

end Xv6
