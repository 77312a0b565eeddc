import Xv6.Param
import Xv6.Lib.Bytes
import Xv6.Lib.Prog

/-! `kernel/vm.c` and `kernel/kalloc.c`: page tables in physical memory.

        va   26 ... 38    21 ... 29    12 ... 20    0 ... 11
             level 2      level 1      level 0      offset

    Physical memory is bytes, page by page; a page goes by its number, its address divided by `PGSIZE`. A page
    table is a page of 512 PTEs of 8 bytes each, little-endian like everything else in memory, and a `pte_t *` is a
    page together with an index. The code is programs over accesses to this memory; a loop is a recursion whose last
    argument counts the rounds it may still take, and that count is never the reason it ends.

    `kalloc` takes the first page of the free list. It also fails whenever `fails` says so: other processes take
    pages as well. Where the free list keeps its links, in the free pages themselves, is left out. -/

namespace Xv6.Vm
open Bytes Prog Function

def PTE_V : Nat := 1     -- valid
def PTE_R : Nat := 2
def PTE_W : Nat := 4
def PTE_X : Nat := 8
def PTE_U : Nat := 16    -- user can access

/-- One beyond the highest possible virtual address. -/
def MAXVA : Nat := 2 ^ 38

/-- The end of the physical memory that the kernel uses. -/
def PHYSTOP : Nat := 0x88000000

def TRAMPOLINE : Nat := MAXVA - PGSIZE
def TRAPFRAME : Nat := TRAMPOLINE - PGSIZE

def PGROUNDUP (sz : Nat) : Nat := (sz + PGSIZE - 1) % 2 ^ 64 / PGSIZE * PGSIZE
def PGROUNDDOWN (a : Nat) : Nat := a / PGSIZE * PGSIZE

def PA2PTE (pa : Nat) : Nat := ((pa >>> 12) <<< 10) % 2 ^ 64
def PTE2PA (pte : Nat) : Nat := ((pte >>> 10) <<< 12) % 2 ^ 64
def PTE_FLAGS (pte : Nat) : Nat := pte &&& 0x3FF

/-- The page table index of `va` on a level. -/
def PX (level va : Nat) : Fin 512 := Fin.ofNat 512 (va >>> (12 + 9 * level))

structure Kmem where
  mem : Nat → Buf        -- the bytes of every page
  free : List Nat        -- kmem.freelist
  calls : Nat            -- how often kalloc has been called

inductive Panic where
  | kfree                -- "kfree"
  | walk                 -- "walk"
  | mapVa                -- "mappages: va not aligned"
  | mapSize              -- "mappages: size not aligned"
  | mapZero              -- "mappages: size"
  | remap                -- "mappages: remap"
  | unmapAligned         -- "uvmunmap: not aligned"
  | unmapWalk            -- "uvmunmap: walk"
  | unmapMapped          -- "uvmunmap: not mapped"
  | unmapLeaf            -- "uvmunmap: not a leaf"
  | freewalkLeaf         -- "freewalk: leaf"
  | freewalkDeep         -- more than three levels of page tables
  | copyPte              -- "uvmcopy: pte should exist"
  | copyPresent          -- "uvmcopy: page not present"
  | uvmclear             -- "uvmclear"
  | loadseg              -- "loadseg: address should exist"
  deriving DecidableEq

inductive Op where
  | kalloc
  | kfree (p : Nat)
  | load (p : Nat) (i : Fin 512)                -- *pte
  | store (p : Nat) (i : Fin 512) (v : Nat)     -- *pte = v
  | memset (p : Nat) (b : UInt8)                -- a whole page
  | read (p o n : Nat)                          -- the bytes that memmove takes
  | write (p o : Nat) (bs : List UInt8)         -- and where it puts them
  | panic (e : Panic)

/-- What an operation returns. -/
@[reducible] def Ret : Op → Type
  | .kalloc => Option Nat
  | .load .. => Nat
  | .read .. => List UInt8
  | .panic _ => Empty
  | _ => Unit

/-- A page that holds one byte everywhere. -/
def filled (b : UInt8) : Buf := fun _ => b

/-- The `i`-th PTE of the page table in page `p`. -/
def pteAt (m : Nat → Buf) (p : Nat) (i : Fin 512) : Nat := getU64 (m p) (8 * i)

/-- Memory after a store to a PTE. -/
def setPte (m : Nat → Buf) (p : Nat) (i : Fin 512) (v : Nat) : Nat → Buf :=
  update m p (setU64 (m p) (8 * i) v)

/-- One operation. Memory from `kend` to `PHYSTOP` belongs to the allocator. -/
def Kmem.step (kend : Nat) (fails : Nat → Bool) : Handler Op Ret Kmem Panic
  | .kalloc, s =>
    match if fails s.calls then [] else s.free with
    | [] => .done (none, { s with calls := s.calls + 1 })
    | p :: ps =>
      .done (some p, { mem := update s.mem p (filled 5), free := ps, calls := s.calls + 1 })
  | .kfree p, s =>
    if p * PGSIZE < kend ∨ PHYSTOP ≤ p * PGSIZE then .panic .kfree
    else .done ((), { s with mem := update s.mem p (filled 1), free := p :: s.free })
  | .load p i, s => .done (pteAt s.mem p i, s)
  | .store p i v, s => .done ((), { s with mem := setPte s.mem p i v })
  | .memset p b, s => .done ((), { s with mem := update s.mem p (filled b) })
  | .read p o n, s => .done (getBytes (s.mem p) o n, s)
  | .write p o bs, s => .done ((), { s with mem := update s.mem p (setBytes (s.mem p) o bs) })
  | .panic e, _ => .panic e

abbrev VmM := Prog Op Ret

section Operations

/-- The program that performs one operation. -/
abbrev op (o : Op) : VmM (Ret o) := perform o

def kalloc : VmM (Option Nat) := op .kalloc
def kfree (p : Nat) : VmM Unit := op (.kfree p)
def load (p : Nat) (i : Fin 512) : VmM Nat := op (.load p i)
def store (p : Nat) (i : Fin 512) (v : Nat) : VmM Unit := op (.store p i v)
def memset (p : Nat) (b : UInt8) : VmM Unit := op (.memset p b)
def read (p o n : Nat) : VmM (List UInt8) := op (.read p o n)
def write (p o : Nat) (bs : List UInt8) : VmM Unit := op (.write p o bs)
def panic {α : Type} (e : Panic) : VmM α := do
  let r : Empty ← op (.panic e)
  nomatch r

end Operations

/-! ### Page tables -/

/-- The loop of `walk`, with `level` levels to go from the page table in page `t`. -/
def walkFrom (va : Nat) (alloc : Bool) : Nat → Nat → VmM (Option (Nat × Fin 512))
  | 0, t => pure (some (t, PX 0 va))
  | level + 1, t => do
    let pte ← load t (PX (level + 1) va)
    if pte &&& PTE_V ≠ 0 then walkFrom va alloc level (PTE2PA pte / PGSIZE)
    else if alloc = false then pure none
    else do
      match ← kalloc with
      | none => pure none
      | some q => do
        memset q 0
        store t (PX (level + 1) va) (PA2PTE (q * PGSIZE) ||| PTE_V)
        walkFrom va alloc level q

/-- Where the PTE of `va` is. If `alloc`, create any required page-table pages. -/
def walk (t va : Nat) (alloc : Bool) : VmM (Option (Nat × Fin 512)) :=
  if va ≥ MAXVA then panic .walk else walkFrom va alloc 2 t

/-- Look up a virtual address, return the physical address, or 0 if not mapped. -/
def walkaddr (t va : Nat) : VmM Nat :=
  if va ≥ MAXVA then pure 0
  else do
    match ← walk t va false with
    | none => pure 0
    | some (p, i) => do
      let pte ← load p i
      if pte &&& PTE_V = 0 then pure 0
      else if pte &&& PTE_U = 0 then pure 0
      else pure (PTE2PA pte)

/-- The loop of `mappages`, up to the page at `last`. -/
def mapFrom (t last perm : Nat) : Nat → Nat → Nat → VmM Int
  | _, _, 0 => pure 0
  | a, pa, n + 1 => do
    match ← walk t a true with
    | none => pure (-1)
    | some (p, i) => do
      let pte ← load p i
      if pte &&& PTE_V ≠ 0 then panic .remap
      else do
        store p i (PA2PTE pa ||| perm ||| PTE_V)
        if a = last then pure 0
        else mapFrom t last perm ((a + PGSIZE) % 2 ^ 64) ((pa + PGSIZE) % 2 ^ 64) n

/-- Create PTEs for virtual addresses starting at `va` that refer to physical addresses starting at `pa`. -/
def mappages (t va size pa perm : Nat) : VmM Int :=
  if va % PGSIZE ≠ 0 then panic .mapVa
  else if size % PGSIZE ≠ 0 then panic .mapSize
  else if size = 0 then panic .mapZero
  else mapFrom t ((va + size - PGSIZE) % 2 ^ 64) perm va pa (size / PGSIZE)

/-- The loop of `uvmunmap`, up to address `stop`. -/
def unmapFrom (t stop : Nat) (doFree : Bool) : Nat → Nat → VmM Unit
  | _, 0 => pure ()
  | a, n + 1 =>
    if a < stop then do
      match ← walk t a false with
      | none => panic .unmapWalk
      | some (p, i) => do
        let pte ← load p i
        if pte &&& PTE_V = 0 then panic .unmapMapped
        else if PTE_FLAGS pte = PTE_V then panic .unmapLeaf
        else do
          when (doFree = true) (kfree (PTE2PA pte / PGSIZE))
          store p i 0
          unmapFrom t stop doFree ((a + PGSIZE) % 2 ^ 64) n
    else pure ()

/-- Remove `npages` of mappings starting from `va`. Optionally free the physical memory. -/
def uvmunmap (t va npages : Nat) (doFree : Bool) : VmM Unit :=
  if va % PGSIZE ≠ 0 then panic .unmapAligned
  else unmapFrom t ((va + npages * PGSIZE) % 2 ^ 64) doFree va npages

/-- Create an empty user page table. -/
def uvmcreate : VmM (Option Nat) := do
  match ← kalloc with
  | none => pure none
  | some t => do
    memset t 0
    pure (some t)

/-- Deallocate user pages to bring the process size from `oldsz` to `newsz`. -/
def uvmdealloc (t oldsz newsz : Nat) : VmM Nat :=
  if newsz ≥ oldsz then pure oldsz
  else do
    when (PGROUNDUP newsz < PGROUNDUP oldsz) do
      -- `npages` is an int, and an argument of type uint64
      let npages : Int := (((PGROUNDUP oldsz - PGROUNDUP newsz) / PGSIZE : Nat) : Int).bmod (2 ^ 32)
      uvmunmap t (PGROUNDUP newsz) (npages % 2 ^ 64).toNat true
    pure newsz

/-- The loop of `uvmalloc`. -/
def uvmallocFrom (t oldsz newsz xperm : Nat) : Nat → Nat → VmM Nat
  | _, 0 => pure newsz
  | a, n + 1 =>
    if a < newsz then do
      match ← kalloc with
      | none => do
        let _ ← uvmdealloc t a oldsz
        pure 0
      | some mem => do
        memset mem 0
        let r ← mappages t a PGSIZE (mem * PGSIZE) (PTE_R ||| PTE_U ||| xperm)
        if r ≠ 0 then do
          kfree mem
          let _ ← uvmdealloc t a oldsz
          pure 0
        else uvmallocFrom t oldsz newsz xperm ((a + PGSIZE) % 2 ^ 64) n
    else pure newsz

/-- Allocate PTEs and physical memory to grow process from `oldsz` to `newsz`. Returns new size or 0 on error. -/
def uvmalloc (t oldsz newsz xperm : Nat) : VmM Nat :=
  if newsz < oldsz then pure oldsz
  else uvmallocFrom t (PGROUNDUP oldsz) newsz xperm (PGROUNDUP oldsz) (newsz / PGSIZE + 1)

/-- The indices of a page table, in order. -/
@[irreducible] def indices : List (Fin 512) := List.finRange 512

/-- The loop of `freewalk`; `free` is the recursive call. -/
def freewalkFrom (free : Nat → VmM Unit) (t : Nat) : List (Fin 512) → VmM Unit
  | [] => pure ()
  | i :: is => do
    let pte ← load t i
    if pte &&& PTE_V ≠ 0 ∧ pte &&& (PTE_R ||| PTE_W ||| PTE_X) = 0 then do
      free (PTE2PA pte / PGSIZE)
      store t i 0
      freewalkFrom free t is
    else if pte &&& PTE_V ≠ 0 then panic .freewalkLeaf
    else freewalkFrom free t is

/-- Free the page table in page `t` and those below it, of which there are at most `depth - 1` levels. -/
def freewalk : Nat → Nat → VmM Unit
  | 0, _ => panic .freewalkDeep
  | depth + 1, t => do
    freewalkFrom (freewalk depth) t indices
    kfree t

/-- Free user memory pages, then free page-table pages. -/
def uvmfree (t sz : Nat) : VmM Unit := do
  when (sz > 0) (uvmunmap t 0 (PGROUNDUP sz / PGSIZE) true)
  freewalk 3 t

/-- The label `err` of `uvmcopy`. -/
def uvmcopyErr (new i : Nat) : VmM Int := do
  uvmunmap new 0 (i / PGSIZE) true
  pure (-1)

/-- The loop of `uvmcopy`. -/
def uvmcopyFrom (old new sz : Nat) : Nat → Nat → VmM Int
  | _, 0 => pure 0
  | i, n + 1 =>
    if i < sz then do
      match ← walk old i false with
      | none => panic .copyPte
      | some (p, j) => do
        let pte ← load p j
        if pte &&& PTE_V = 0 then panic .copyPresent
        else do
          match ← kalloc with
          | none => uvmcopyErr new i
          | some mem => do
            let bs ← read (PTE2PA pte / PGSIZE) 0 PGSIZE
            write mem 0 bs
            let r ← mappages new i PGSIZE (mem * PGSIZE) (PTE_FLAGS pte)
            if r ≠ 0 then do
              kfree mem
              uvmcopyErr new i
            else uvmcopyFrom old new sz ((i + PGSIZE) % 2 ^ 64) n
    else pure 0

/-- Copy the memory of the page table `old` into the page table `new`. -/
def uvmcopy (old new sz : Nat) : VmM Int := uvmcopyFrom old new sz 0 (sz / PGSIZE + 1)

/-- Mark a PTE invalid for user access. -/
def uvmclear (t va : Nat) : VmM Unit := do
  match ← walk t va false with
  | none => panic .uvmclear
  | some (p, i) => do
    let pte ← load p i
    store p i (pte &&& (2 ^ 64 - 1 - PTE_U))

/-- `proc_pagetable`: an empty user page table, with trampoline and trapframe pages. -/
def procPagetable (trampoline trapframe : Nat) : VmM (Option Nat) := do
  match ← uvmcreate with
  | none => pure none
  | some t => do
    let r ← mappages t TRAMPOLINE PGSIZE (trampoline * PGSIZE) (PTE_R ||| PTE_X)
    if r < 0 then do
      uvmfree t 0
      pure none
    else do
      let r ← mappages t TRAPFRAME PGSIZE (trapframe * PGSIZE) (PTE_R ||| PTE_W)
      if r < 0 then do
        uvmunmap t TRAMPOLINE 1 false
        uvmfree t 0
        pure none
      else pure (some t)

/-- `proc_freepagetable`: free a process's page table, and the physical memory it refers to. -/
def procFreepagetable (t sz : Nat) : VmM Unit := do
  uvmunmap t TRAMPOLINE 1 false
  uvmunmap t TRAPFRAME 1 false
  uvmfree t sz

/-! ### Copying between the kernel and a process -/

/-- The loop of `copyout`: the bytes `src` are still to be copied, to `dstva` on. -/
def copyoutFrom (t : Nat) : Nat → List UInt8 → Nat → VmM Int
  | _, _, 0 => pure 0
  | dstva, src, n + 1 =>
    if src.length > 0 then
      let va0 := PGROUNDDOWN dstva
      if va0 ≥ MAXVA then pure (-1)
      else do
        match ← walk t va0 false with
        | none => pure (-1)
        | some (p, i) => do
          let pte ← load p i
          if pte &&& PTE_V = 0 ∨ pte &&& PTE_U = 0 ∨ pte &&& PTE_W = 0 then pure (-1)
          else do
            let m := min (PGSIZE - (dstva - va0)) src.length
            write (PTE2PA pte / PGSIZE) (dstva - va0) (src.take m)
            copyoutFrom t ((va0 + PGSIZE) % 2 ^ 64) (src.drop m) n
    else pure 0

/-- Copy from kernel to user. -/
def copyout (t dstva : Nat) (src : List UInt8) : VmM Int := copyoutFrom t dstva src src.length

/-- The loop of `copyin`: `len` bytes are still to be copied, and `dst` have been. -/
def copyinFrom (t : Nat) : Nat → Nat → List UInt8 → Nat → VmM (Int × List UInt8)
  | _, _, dst, 0 => pure (0, dst)
  | srcva, len, dst, n + 1 =>
    if len > 0 then do
      let va0 := PGROUNDDOWN srcva
      let pa0 ← walkaddr t va0
      if pa0 = 0 then pure (-1, dst)
      else do
        let m := min (PGSIZE - (srcva - va0)) len
        let bs ← read (pa0 / PGSIZE) (srcva - va0) m
        copyinFrom t ((va0 + PGSIZE) % 2 ^ 64) (len - m) (dst ++ bs) n
    else pure (0, dst)

/-- Copy from user to kernel: the result, and the bytes stored at `dst`. -/
def copyin (t srcva len : Nat) : VmM (Int × List UInt8) := copyinFrom t srcva len [] len

end Xv6.Vm
