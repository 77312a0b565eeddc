import Xv6.Lib.Cycle

/-! `user/umalloc.c`: the allocator of Kernighan and Ritchie.

    The heap is a circular list of free blocks. A block starts with a header (`ptr`, `size`), its size counts in
    units of `sizeof(Header)`, the header included, and `malloc` returns the address behind the header. The list
    starts at `base`, a static header of size 0. Addresses are byte addresses, and a header is kept at the
    address of its first byte.

    What `sbrk` answers is up to the kernel: `sbrk h n` is `none` if the call fails in the state `h`, and
    otherwise says how far above the memory returned so far the new memory lies.

    The two loops take as their first argument how many rounds may still be made. -/

namespace Xv6.Umalloc
open Cycle

/-- `sizeof(Header)`. -/
def sizeofHeader : Nat := 16

structure Heap where
  /-- `s.ptr` of the header at an address. -/
  ptr : Nat → Nat
  /-- `s.size` of the header at an address. -/
  size : Nat → UInt32
  /-- `freep`, 0 before the first call of `malloc`. -/
  freep : Nat
  /-- The end of the memory that `sbrk` has returned. -/
  brk : Nat
  /-- The units obtained from `sbrk`. -/
  got : Nat
  /-- How often `sbrk` has been called. -/
  calls : Nat

namespace Heap

def setPtr (h : Heap) (a q : Nat) : Heap := { h with ptr := Function.update h.ptr a q }

def setSize (h : Heap) (a : Nat) (n : UInt32) : Heap := { h with size := Function.update h.size a n }

/-- One past the end of the block at `a`. -/
def stop (h : Heap) (a : Nat) : Nat := a + sizeofHeader * (h.size a).toNat

end Heap

/-- The loop of `free` ends at `p`: `bp` lies behind `p` and before the next block, or `p` is the last block of
    the arena and `bp` lies at one of its ends. -/
def found (h : Heap) (bp p : Nat) : Bool :=
  bp > p && bp < h.ptr p || p ≥ h.ptr p && (bp > p || bp < h.ptr p)

/-- The rest of `free`: put the block `bp` behind `p`, and join what touches. -/
def link (h : Heap) (bp p : Nat) : Heap :=
  let next := h.ptr p
  let h :=
    if h.stop bp = next then (h.setSize bp (h.size bp + h.size next)).setPtr bp (h.ptr next)
    else h.setPtr bp next
  let h :=
    if h.stop p = bp then (h.setSize p (h.size p + h.size bp)).setPtr p (h.ptr bp)
    else h.setPtr p bp
  { h with freep := p }

def free (n : Nat) (h : Heap) (ap : Nat) : Option Heap :=
  let bp := ap - sizeofHeader
  (search h.ptr (found h bp) n h.freep).map (link h bp)

section Malloc
variable (base : Nat) (sbrk : Heap → Nat → Option Nat)

/-- The new memory, `nu` units at `p`. -/
def Heap.grow (h : Heap) (p : Nat) (nu : UInt32) : Heap :=
  { h with brk := p + nu.toNat * sizeofHeader, got := h.got + nu.toNat, calls := h.calls + 1 }

def morecore (n : Nat) (h : Heap) (nu : UInt32) : Option (Heap × Nat) :=
  let nu := if nu < 4096 then 4096 else nu
  match sbrk h (nu.toNat * sizeofHeader) with
  | none => some ({ h with calls := h.calls + 1 }, 0)
  | some gap =>
    let hp := h.brk + gap
    (free n ((h.grow hp nu).setSize hp nu) (hp + sizeofHeader)).map fun h => (h, h.freep)

/-- Take `nunits` units from the block `p`, which `prevp` points to. -/
def take (h : Heap) (nunits : UInt32) (prevp p : Nat) : Heap × Nat :=
  if h.size p = nunits then
    ({ h.setPtr prevp (h.ptr p) with freep := prevp }, p + sizeofHeader)
  else
    let h := h.setSize p (h.size p - nunits)
    let q := h.stop p
    ({ h.setSize q nunits with freep := prevp }, q + sizeofHeader)

/-- The loop of `malloc`. -/
def mallocLoop (nunits : UInt32) : Nat → Heap → Nat → Nat → Option (Heap × Nat)
  | 0, _, _, _ => none
  | n + 1, h, prevp, p =>
    if h.size p ≥ nunits then some (take h nunits prevp p)
    else if p = h.freep then
      match morecore sbrk n h nunits with
      | none => none
      | some (h, 0) => some (h, 0)
      | some (h, p) => mallocLoop nunits n h p (h.ptr p)
    else mallocLoop nunits n h p (h.ptr p)

/-- The units that a request needs, with the header. -/
def units (nbytes : UInt32) : UInt32 := UInt32.ofNat ((nbytes.toNat + sizeofHeader - 1) / sizeofHeader + 1)

/-- `base.s.ptr = freep = &base; base.s.size = 0`. -/
def Heap.init (h : Heap) : Heap := { (h.setPtr base base).setSize base 0 with freep := base }

/-- The heap and the address returned, 0 if there is no memory. -/
def malloc (n : Nat) (h : Heap) (nbytes : UInt32) : Option (Heap × Nat) :=
  let h := if h.freep = 0 then h.init base else h
  mallocLoop sbrk (units nbytes) n h h.freep (h.ptr h.freep)

end Malloc

end Xv6.Umalloc
