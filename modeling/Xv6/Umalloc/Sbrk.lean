import Xv6.Umalloc.Runs
import Xv6.Vm.Sbrk

/-! `malloc` with the `sbrk` of the kernel.

    `morecore` multiplies in 64 bits, and `sbrk` takes an int. A request of `nbytes` needs `nu` units, and from
    `2 ^ 31` bytes on the product no longer is what `sbrk` gets:

        nbytes              nu              nu * 16         as an int
        2 ^ 31 - 32         2 ^ 27 - 1      2 ^ 31 - 16     2 ^ 31 - 16
        2 ^ 31 - 31         2 ^ 27          2 ^ 31          -2 ^ 31
        2 ^ 32 - 1          2 ^ 28 + 1      2 ^ 32 + 16     16

    A negative argument gives memory back, or does nothing; either way `sbrk` succeeds, and `morecore` believes that it
    has `nu` units. Up to `2 ^ 31 - 32` bytes the allocator is the one of `Umalloc.Code`.

    `Heap.brk` is now the break itself. An access above it would end the process; the model goes on. -/

namespace Xv6.Umalloc.Sys
open Cycle Vm Prog

/-- How far the process may grow, by the number of the call. -/
abbrev Room := Nat → Nat

/-- `sbrk(n)`: the break afterwards, or `none` for -1. The address returned is the break before. -/
def sbrk (room : Room) (h : Heap) (n : Int32) : Option Nat :=
  if 0 < n then
    if (h.brk : Int) + n.toInt ≤ min (room h.calls) PHYSTOP then some (h.brk + n.toInt).toNat else none
  else if (h.brk : Int) + n.toInt < 0 then some h.brk
  else some (h.brk + n.toInt).toNat

section Malloc
variable (base : Nat) (room : Room)

/-- The heap after the break has moved to `sz`, with a header at the old break. -/
def moved (h : Heap) (sz : Nat) (nu : UInt32) : Heap :=
  { h with brk := sz, got := h.got + (sz - h.brk) / sizeofHeader, calls := h.calls + 1 }.setSize h.brk nu

def morecore (n : Nat) (h : Heap) (nu : UInt32) : Option (Heap × Nat) :=
  let nu := if nu < 4096 then 4096 else nu
  match sbrk room h (Int32.ofNat (nu.toNat * sizeofHeader)) with
  | none => some ({ h with calls := h.calls + 1 }, 0)
  | some sz => (free n (moved h sz nu) (h.brk + sizeofHeader)).map fun h => (h, h.freep)

/-- The loop of `malloc`. -/
def mallocLoop (nunits : UInt32) : Nat → Heap → Nat → Nat → Option (Heap × Nat)
  | 0, _, _, _ => none
  | n + 1, h, prevp, p =>
    if h.size p ≥ nunits then some (take h nunits prevp p)
    else if p = h.freep then
      match morecore room n h nunits with
      | none => none
      | some (h, 0) => some (h, 0)
      | some (h, p) => mallocLoop nunits n h p (h.ptr p)
    else mallocLoop nunits n h p (h.ptr p)

/-- The heap and the address returned, 0 if there is no memory. -/
def malloc (n : Nat) (h : Heap) (nbytes : UInt32) : Option (Heap × Nat) :=
  let h := if h.freep = 0 then h.init base else h
  mallocLoop room (units nbytes) n h h.freep (h.ptr h.freep)

end Malloc

/-! ### The kernel -/

section Kernel
variable {kend : Nat} {fails : Nat → Bool} {A : Nat → Prop} {s : Kmem} {t : Nat} {h : Heap}

theorem Sized.le_phystop {sz : Nat} (hZ : Sized t (pages sz) s) (hS : Space kend A s t 0) : sz ≤ PHYSTOP :=
  le_trans (pages_le.mp (hZ.le_phys hS)) (Nat.div_mul_le_self ..)

/-- `sys_sbrk` does what `sbrk` says, for some `room`. -/
theorem must_sysSbrk (hS : Space kend A s t 0) (hZ : Sized t (pages h.brk) s) (n : Int32) :
    must kend fails (sysSbrk t h.brk n) s fun x s' => Space kend A s' t 0 ∧ Sized t (pages x.2) s' ∧
      ∃ room, sbrk room h n = if x.1 = -1 then none else some x.2 := by
  rw [sysSbrk, must_bind]
  by_cases hle : 0 ≤ (h.brk : Int) + n.toInt
  · refine must_mono (must_growproc hS hZ hle) fun x s' h' => ?_
    obtain ⟨r, sz'⟩ := x
    obtain ⟨hS', hx⟩ := h'
    obtain ⟨hr, hsum, hZ'⟩ | ⟨hr, hpos, hM, -⟩ := hx
    · have hr0 : ¬r < 0 := by rw [show r = 0 from hr]; decide
      have hphys := Sized.le_phystop hZ' hS'
      have hsz : ((h.brk : Int) + n.toInt).toNat = sz' := by rw [← hsum]; rfl
      dsimp only at hsum hphys ⊢
      rw [if_neg hr0]
      refine ⟨hS', hZ', fun _ => PHYSTOP, ?_⟩
      have hres : (if (h.brk : Int) = -1 then none else some sz') = some sz' := if_neg (by omega)
      rw [sbrk, hsz, min_self, if_pos (c := (h.brk : Int) + n.toInt ≤ PHYSTOP) (by omega), hres]
      split
      · rfl
      · exact if_neg (by omega)
    · obtain ⟨rfl, rfl⟩ := Prod.mk.inj hr
      have hn : 0 < n.toInt := Int32.lt_iff_toInt_lt.mp hpos
      refine ⟨hS', hZ.congr hM, fun _ => 0, ?_⟩
      rw [sbrk, if_pos hpos, if_neg (by omega), if_pos rfl]
  · refine must_mono (must_growproc_wrap hS hZ (by omega)) fun x s' h' => ?_
    obtain ⟨rfl, hS', hZ'⟩ := h'
    have hpos : ¬0 < n := fun hpos => by
      have hn : 0 < n.toInt := Int32.lt_iff_toInt_lt.mp hpos
      omega
    refine ⟨hS', hZ', fun _ => 0, ?_⟩
    rw [sbrk, if_neg hpos, if_pos (by omega), if_neg (by omega)]

end Kernel

/-! ### Small requests -/

/-- `sbrk` for a request that fits an int. -/
def grant (room : Room) (h : Heap) (n : Nat) : Option Nat :=
  if h.brk + n ≤ min (room h.calls) PHYSTOP then some 0 else none

section Small
variable {base : Nat} {room : Room} {h : Heap} {nu nbytes : UInt32}

theorem morecore_eq (hsmall : (asked nu).toNat * sizeofHeader < 2 ^ 31) (hpos : 0 < (asked nu).toNat) (n : Nat) :
    morecore room n h nu = Umalloc.morecore (grant room) n h nu := by
  have hint : (Int32.ofNat ((asked nu).toNat * sizeofHeader)).toInt = ((asked nu).toNat * sizeofHeader : Nat) :=
    Int32.toInt_ofNat_of_lt hsmall
  have hgt : 0 < Int32.ofNat ((asked nu).toNat * sizeofHeader) := by
    rw [Int32.lt_iff_toInt_lt, hint]
    exact Int.natCast_pos.mpr (Nat.mul_pos hpos (by decide))
  have hsbrk : sbrk room h (Int32.ofNat ((asked nu).toNat * sizeofHeader)) =
      (grant room h ((asked nu).toNat * sizeofHeader)).map fun _ => h.brk + (asked nu).toNat * sizeofHeader := by
    rw [sbrk, grant, if_pos hgt, hint]
    by_cases hle : h.brk + (asked nu).toNat * sizeofHeader ≤ min (room h.calls) PHYSTOP
    · rw [if_pos hle, if_pos (by omega)]
      exact congrArg some (Int.toNat_natCast (h.brk + (asked nu).toNat * sizeofHeader))
    · rw [if_neg hle, if_neg (by omega)]
      rfl
  have hmoved : moved h (h.brk + (asked nu).toNat * sizeofHeader) (asked nu) = h.more 0 (asked nu) := by
    rw [moved, Nat.add_sub_cancel_left, Nat.mul_div_cancel _ (by decide)]
    rfl
  unfold morecore Umalloc.morecore
  change (match sbrk room h (Int32.ofNat ((asked nu).toNat * sizeofHeader)) with
    | none => some ({ h with calls := h.calls + 1 }, 0)
    | some sz => (free n (moved h sz (asked nu)) (h.brk + sizeofHeader)).map fun h => (h, h.freep)) =
    match grant room h ((asked nu).toNat * sizeofHeader) with
    | none => some ({ h with calls := h.calls + 1 }, 0)
    | some gap => (free n (h.more gap (asked nu)) (h.brk + gap + sizeofHeader)).map fun h => (h, h.freep)
  rw [hsbrk]
  cases hgrant : grant room h ((asked nu).toNat * sizeofHeader) with
  | none => rfl
  | some gap =>
    obtain rfl : 0 = gap := by
      rw [grant] at hgrant
      split at hgrant
      · exact Option.some.inj hgrant
      · cases hgrant
    dsimp only [Option.map_some]
    rw [hmoved, add_zero]

theorem mallocLoop_eq {nunits : UInt32} (hsmall : (asked nunits).toNat * sizeofHeader < 2 ^ 31)
    (hpos : 0 < (asked nunits).toNat) : ∀ (n : Nat) (h : Heap) (prevp p : Nat),
      mallocLoop room nunits n h prevp p = Umalloc.mallocLoop (grant room) nunits n h prevp p
  | 0, _, _, _ => rfl
  | n + 1, h, prevp, p => by
    rw [mallocLoop, Umalloc.mallocLoop, morecore_eq hsmall hpos]
    by_cases hfit : h.size p ≥ nunits
    · rw [if_pos hfit, if_pos hfit]
    rw [if_neg hfit, if_neg hfit]
    by_cases hp : p = h.freep
    · rw [if_pos hp, if_pos hp]
      rcases Umalloc.morecore (grant room) n h nunits with _ | ⟨h', _ | p'⟩
      · rfl
      · rfl
      · exact mallocLoop_eq hsmall hpos n h' (p' + 1) (h'.ptr (p' + 1))
    · rw [if_neg hp, if_neg hp]
      exact mallocLoop_eq hsmall hpos n h p (h.ptr p)

/-- What a request of at most `largest` bytes asks for fits an int. -/
theorem asked_small (hle : nbytes ≤ largest) :
    (asked (units nbytes)).toNat * sizeofHeader < 2 ^ 31 ∧ 0 < (asked (units nbytes)).toNat := by
  have hle : nbytes.toNat ≤ 2147483616 := UInt32.le_iff_toNat_le.mp hle
  have hunits : (units nbytes).toNat = (nbytes.toNat + 15) / 16 + 1 := by
    refine UInt32.toNat_ofNat_of_lt' ?_
    simp only [sizeofHeader, UInt32.size]
    omega
  unfold asked
  split
  · decide
  · rw [hunits]
    simp only [sizeofHeader]
    omega

theorem malloc_eq (hle : nbytes ≤ largest) (n : Nat) :
    malloc base room n h nbytes = Umalloc.malloc base (grant room) n h nbytes :=
  mallocLoop_eq (asked_small hle).1 (asked_small hle).2 ..

end Small

/-! ### Runs -/

section Runs
variable (base : Nat) (room : Room)

/-- A program that asks for at most `largest` bytes at a time. -/
inductive Step : State → State → Prop
  | malloc {σ : State} {n ap : Nat} {h : Heap} (nbytes : UInt32) (hsmall : nbytes ≤ largest)
      (hcall : malloc base room n σ.heap nbytes = some (h, ap)) :
      Step σ ⟨h, if ap = 0 then σ.live else (ap - sizeofHeader, nbytes) :: σ.live⟩
  | free {σ : State} {n : Nat} {h : Heap} {x : Live} (hx : x ∈ σ.live)
      (hcall : free n σ.heap (x.1 + sizeofHeader) = some h) : Step σ ⟨h, σ.live.erase x⟩
  /-- The program writes into live blocks, behind their headers. -/
  | write {σ : State} {ptr : Nat → Nat} {size : Nat → UInt32}
      (hkeep : ∀ a, (∀ x ∈ σ.live, a ≤ x.1 ∨ σ.heap.stop x.1 ≤ a) → ptr a = σ.heap.ptr a ∧ size a = σ.heap.size a) :
      Step σ ⟨{ σ.heap with ptr := ptr, size := size }, σ.live⟩

/-- A state of the program, whose heap starts at `start`. -/
def Reached (start : Nat) (σ : State) : Prop :=
  ∃ σ₀, Umalloc.Start base σ₀ ∧ σ₀.heap.brk = start ∧ Relation.ReflTransGen (Step base room) σ₀ σ

end Runs

section Invariant
variable {base start : Nat} {room : Room} {σ σ' : State}

/-- The free list has not been made yet, or it is in order and lies in what `sbrk` has returned. -/
def Ok (base start : Nat) (σ : State) : Prop :=
  (Umalloc.Start base σ ∧ σ.heap.brk = start) ∨
    ∃ ns, Arena base σ.heap ns σ.live ∧ Gaps σ.heap ns ∧ Within base start σ.heap ns σ.live

/-- `malloc` ENDS AND KEEPS THE ARENA INSIDE. -/
theorem malloc_spec (hbase : 0 < base) (hok : Ok base start σ) {nbytes : UInt32} (hsmall : nbytes ≤ largest) :
    ∃ r m, (∀ n ≥ m, malloc base room n σ.heap nbytes = some r) ∧ ∃ ns, Gaps r.1 ns ∧
      Arena base r.1 ns (if r.2 = 0 then σ.live else (r.2 - sizeofHeader, nbytes) :: σ.live) ∧
      Within base start r.1 ns (if r.2 = 0 then σ.live else (r.2 - sizeofHeader, nbytes) :: σ.live) := by
  -- All that has been obtained lies below the break, and that is at most `PHYSTOP`.
  have hlimit : ∀ {h : Heap}, start + sizeofHeader * h.got ≤ h.brk → ∀ gap,
      grant room h ((asked (units nbytes)).toNat * sizeofHeader) = some gap →
        h.got + (asked (units nbytes)).toNat < 2 ^ 32 := by
    intro h hgot gap hgrant
    rw [grant] at hgrant
    split at hgrant
    case isFalse => cases hgrant
    case isTrue hle =>
      have hphys : h.brk + (asked (units nbytes)).toNat * sizeofHeader ≤ PHYSTOP := le_trans hle (min_le_right ..)
      simp only [sizeofHeader, PHYSTOP] at hgot hphys
      omega
  simp only [malloc_eq hsmall]
  unfold Umalloc.malloc
  rcases hok with ⟨hstart, hbrk⟩ | ⟨ns, hA, hg, hW⟩
  · have hgot : start + sizeofHeader * σ.heap.got ≤ σ.heap.brk := by rw [hstart.got, hbrk, mul_zero, add_zero]
    rw [if_pos hstart.freep, hstart.live]
    obtain ⟨r, m, hterm, ns, hA, hg, hW⟩ := mallocLoop_spec (init_arena hstart.got hstart.brk) (List.isChain_singleton _)
      hbase (units_room nbytes) (hlimit (h := σ.heap.init base) hgot)
    exact ⟨r, m, hterm, ns, hg, hA, hW start ⟨fun a ha => .inl (List.mem_singleton.mp ha), by simp, hgot⟩⟩
  · have hne : σ.heap.freep ≠ 0 := ne_of_gt (lt_of_lt_of_le hbase (hA.base_le hA.freep))
    rw [if_neg hne]
    obtain ⟨r, m, hterm, ns', hA', hg', hW'⟩ := mallocLoop_spec hA hg hbase (units_room nbytes) (hlimit hW.got)
    exact ⟨r, m, hterm, ns', hg', hA', hW' start hW⟩

theorem malloc_unique {h : Heap} {nbytes : UInt32} (hsmall : nbytes ≤ largest) {n m : Nat} {r r' : Heap × Nat}
    (hcall : malloc base room n h nbytes = some r) (hterm : ∀ n ≥ m, malloc base room n h nbytes = some r') : r = r' := by
  simp only [malloc_eq hsmall] at hcall hterm
  exact Umalloc.malloc_unique hcall hterm

theorem step_ok (hbase : 0 < base) (hstep : Step base room σ σ') (hok : Ok base start σ) : Ok base start σ' := by
  cases hstep with
  | @malloc n ap h nbytes hsmall hcall =>
    obtain ⟨r, m, hterm, ns, hg, hA, hW⟩ := malloc_spec hbase hok hsmall
    obtain rfl := malloc_unique hsmall hcall hterm
    exact .inr ⟨ns, hA, hg, hW⟩
  | @free n h x hx hcall =>
    rcases hok with ⟨hstart, -⟩ | ⟨ns, hA, hg, hW⟩
    · rw [hstart.live] at hx
      cases hx
    · have hperm := List.perm_cons_erase hx
      obtain ⟨h', hterm, ns', hA', hg', hW', -⟩ := free_spec (hA.perm hperm) hg
      obtain rfl := free_unique hcall hterm
      exact .inr ⟨ns', hA', hg', hW' start ⟨hW.free, fun y hy => hW.live y (hperm.mem_iff.mpr hy), hW.got⟩⟩
  | write hkeep =>
    rcases hok with ⟨hstart, hbrk⟩ | ⟨ns, hA, hg, hW⟩
    · exact .inl ⟨hstart.written .., hbrk⟩
    · obtain ⟨hA', hg'⟩ := hA.written hg hkeep
      exact .inr ⟨ns, hA', hg', hW.free, hW.live, hW.got⟩

theorem reached_ok (hbase : 0 < base) (hσ : Reached base room start σ) : Ok base start σ := by
  obtain ⟨σ₀, hstart, hbrk, hrun⟩ := hσ
  induction hrun with
  | refl => exact .inl ⟨hstart, hbrk⟩
  | tail _ hstep ih => exact step_ok hbase hstep ih

end Invariant

/-- UP TO `2 ^ 31 - 32` BYTES `malloc` HANDS OUT MEMORY THAT THE PROCESS HAS: it ends, and if it returns a pointer, what
    was asked for lies between the start of the heap and the break. -/
theorem malloc_inside (base : Nat) (hbase : 0 < base) (room : Room) (start : Nat) (σ : State)
    (hσ : Reached base room start σ) (nbytes : UInt32) (hsmall : nbytes ≤ largest) :
    ∃ h p m, (∀ n ≥ m, malloc base room n σ.heap nbytes = some (h, p)) ∧
      (p ≠ 0 → start ≤ p ∧ p + nbytes.toNat ≤ h.brk) := by
  obtain ⟨r, m, hterm, ns, -, hA, hW⟩ := malloc_spec hbase (reached_ok hbase hσ) hsmall
  refine ⟨r.1, r.2, m, hterm, fun hne => ?_⟩
  rw [if_neg hne] at hA hW
  have hlow := hW.live _ (List.mem_cons_self ..)
  have hroom := hA.room _ (List.mem_cons_self ..)
  have hbelow := hA.below _ (List.mem_cons_self ..)
  have habove := hA.above _ (List.mem_cons_self ..)
  dsimp only at hlow hroom hbelow habove
  rw [Heap.stop] at hbelow
  have hpos : 0 < r.2 := Nat.pos_of_ne_zero hne
  simp only [sizeofHeader] at hlow hroom hbelow habove
  omega

/-- The first request of a program. -/
theorem malloc_inside_ten : Reached 4096 (fun _ => PHYSTOP) 8192 blank ∧
    ∃ h p m, (∀ n ≥ m, malloc 4096 (fun _ => PHYSTOP) n blank.heap 10 = some (h, p)) ∧
      (p ≠ 0 → 8192 ≤ p ∧ p + 10 ≤ h.brk) := by
  have hσ : Reached 4096 (fun _ => PHYSTOP) 8192 blank := ⟨blank, blank_start, rfl, .refl⟩
  exact ⟨hσ, malloc_inside 4096 (by decide) (fun _ => PHYSTOP) 8192 blank hσ 10 (by decide)⟩

/-- The largest request there is leaves the process with 16 bytes, and the pointer points behind them. -/
theorem malloc_wraps : ∃ h, malloc 4096 (fun _ => PHYSTOP) 16 blank.heap 0xffffffff = some (h, 8208) ∧ h.brk = 8208 := by
  have hrun : ((malloc 4096 (fun _ => PHYSTOP) 16 blank.heap 0xffffffff).any fun r =>
      decide (r.2 = 8208 ∧ r.1.brk = 8208)) = true := by decide +kernel
  obtain ⟨⟨h, p⟩, hcall, hfacts⟩ := (Option.any_eq_true _ _).mp hrun
  obtain ⟨rfl, hbrk⟩ := of_decide_eq_true hfacts
  exact ⟨h, hcall, hbrk⟩

end Xv6.Umalloc.Sys
