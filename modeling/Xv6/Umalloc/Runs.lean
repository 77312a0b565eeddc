import Xv6.Umalloc.Malloc

/-! A program that uses the allocator: it calls `malloc` and `free` in any order, and writes into what it got. -/

namespace Xv6.Umalloc
open Cycle Option List

structure State where
  heap : Heap
  live : List Live

section Runs
variable (base : Nat) (sbrk : Heap → Nat → Option Nat)

inductive Step : State → State → Prop
  /-- What `morecore` would ask for must fit an `int`. -/
  | malloc {σ : State} {n ap : Nat} {h : Heap} (nbytes : UInt32)
      (hsmall : (asked (units nbytes)).toNat * sizeofHeader < 2 ^ 31)
      (hcall : malloc base sbrk n σ.heap nbytes = some (h, ap)) :
      Step σ ⟨h, if ap = 0 then σ.live else (ap - sizeofHeader, nbytes) :: σ.live⟩
  | free {σ : State} {n : Nat} {h : Heap} {x : Live} (hx : x ∈ σ.live)
      (hcall : free n σ.heap (x.1 + sizeofHeader) = some h) : Step σ ⟨h, σ.live.erase x⟩
  /-- The program writes into live blocks, behind their headers. -/
  | write {σ : State} {ptr : Nat → Nat} {size : Nat → UInt32}
      (hkeep : ∀ a, (∀ x ∈ σ.live, a ≤ x.1 ∨ σ.heap.stop x.1 ≤ a) → ptr a = σ.heap.ptr a ∧ size a = σ.heap.size a) :
      Step σ ⟨{ σ.heap with ptr := ptr, size := size }, σ.live⟩

/-- Before the first call: memory holds anything, and `sbrk` will return memory above `base`. -/
structure Start (σ : State) : Prop where
  freep : σ.heap.freep = 0
  live : σ.live = []
  got : σ.heap.got = 0
  brk : base + sizeofHeader ≤ σ.heap.brk

def Reached (σ : State) : Prop := ∃ σ₀, Start base σ₀ ∧ Relation.ReflTransGen (Step base sbrk) σ₀ σ

end Runs

variable {base : Nat} {sbrk : Heap → Nat → Option Nat} {σ σ' : State} {h h' : Heap} {ns : List Nat} {live live' : List Live}

/-- The arena depends on the headers of its blocks only. -/
theorem Arena.congr (hA : Arena base h ns live) (hptr : ∀ a ∈ ns, h'.ptr a = h.ptr a)
    (hsize : ∀ a ∈ ns, h'.size a = h.size a) (hlive : ∀ x ∈ live, h'.size x.1 = h.size x.1) (hfreep : h'.freep = h.freep)
    (hbrk : h'.brk = h.brk) (hgot : h'.got = h.got) : Arena base h' ns live := by
  have hstop : ∀ a ∈ ns, h'.stop a = h.stop a := fun a ha => Heap.stop_congr (hsize a ha)
  have hstop_live : ∀ x ∈ live, h'.stop x.1 = h.stop x.1 := fun x hx => Heap.stop_congr (hlive x hx)
  have hsum : h'.sum (live.map Prod.fst) = h.sum (live.map Prod.fst) := by
    refine Heap.sum_congr fun c hc => ?_
    obtain ⟨y, hy, rfl⟩ := mem_map.mp hc
    exact hlive y hy
  constructor
  case head => exact hA.head
  case linked => exact hA.linked.congr hptr
  case base_size => rw [hsize base hA.base_mem, hA.base_size]
  case freep => rw [hfreep]; exact hA.freep
  case ordered => exact hA.ordered.imp_of_mem fun {a b} ha _ hab => by rwa [hstop a ha]
  case apart => exact fun x hx a ha => by rw [hstop a ha, hstop_live x hx]; exact hA.apart x hx a ha
  case live_apart =>
    exact hA.live_apart.imp_of_mem fun {x y} hx hy hxy => by rwa [hstop_live x hx, hstop_live y hy]
  case room => exact fun x hx => by rw [hlive x hx]; exact hA.room x hx
  case above => exact hA.above
  case above_free => exact fun a ha => by rw [hstop a ha]; exact hA.above_free a ha
  case below => exact fun x hx => by rw [hstop_live x hx, hbrk]; exact hA.below x hx
  case below_free => exact fun a ha => by rw [hstop a ha, hbrk]; exact hA.below_free a ha
  case brk => rw [hbrk]; exact hA.brk
  case total => rw [Heap.sum_congr hsize, hsum, hgot]; exact hA.total
  case limit => rw [hgot]; exact hA.limit

/-- The order of the live blocks does not matter. -/
theorem Arena.perm (hA : Arena base h ns live) (hperm : live.Perm live') : Arena base h ns live' := by
  have hmem : ∀ x, x ∈ live' → x ∈ live := fun x => hperm.mem_iff.mpr
  refine { hA with apart := ?_, live_apart := ?_, room := ?_, above := ?_, below := ?_, total := ?_ }
  · exact fun x hx => hA.apart x (hmem x hx)
  · exact (hperm.pairwise_iff fun hxy => hxy.symm).mp hA.live_apart
  · exact fun x hx => hA.room x (hmem x hx)
  · exact fun x hx => hA.above x (hmem x hx)
  · exact fun x hx => hA.below x (hmem x hx)
  · rw [← hA.total]
    exact congrArg (h.sum ns + ·) (((hperm.map Prod.fst).map _).sum_nat.symm)

/-! ### More rounds do not change the result -/

theorem free_mono {n m ap : Nat} (hcall : free n h ap = some h') (hle : n ≤ m) : free m h ap = some h' := by
  rw [free] at hcall ⊢
  obtain ⟨p, hsearch, rfl⟩ := map_eq_some_iff.mp hcall
  rw [search_mono hsearch hle]
  rfl

theorem morecore_mono {n m : Nat} {nu : UInt32} {r : Heap × Nat} (hcall : morecore sbrk n h nu = some r) (hle : n ≤ m) :
    morecore sbrk m h nu = some r := by
  unfold morecore at hcall ⊢
  dsimp only at hcall ⊢
  split at hcall
  next => exact hcall
  next =>
    obtain ⟨h', hfree, rfl⟩ := map_eq_some_iff.mp hcall
    rw [free_mono hfree hle]
    rfl

theorem mallocLoop_mono {nunits : UInt32} {r : Heap × Nat} : ∀ {n m : Nat} {h : Heap} {prevp p : Nat},
    mallocLoop sbrk nunits n h prevp p = some r → n ≤ m → mallocLoop sbrk nunits m h prevp p = some r
  | n + 1, m + 1, h, prevp, p, hcall, hle => by
    have hle := Nat.le_of_succ_le_succ hle
    rw [mallocLoop] at hcall ⊢
    split at hcall
    next hfit => rwa [if_pos hfit]
    next hfit =>
      rw [if_neg hfit]
      split at hcall
      next hp =>
        rw [if_pos hp]
        split at hcall
        next => cases hcall
        next hmore => rwa [morecore_mono hmore hle]
        next h' p' hne hmore =>
          rw [morecore_mono hmore hle]
          have hcall := mallocLoop_mono hcall hle
          cases p' with
          | zero => exact (hne rfl).elim
          | succ k => exact hcall
      next hp =>
        rw [if_neg hp]
        exact mallocLoop_mono hcall hle

/-- Two calls that end have the same result. -/
theorem malloc_unique {nbytes : UInt32} {n m : Nat} {r r' : Heap × Nat} (hcall : malloc base sbrk n h nbytes = some r)
    (hterm : ∀ n ≥ m, malloc base sbrk n h nbytes = some r') : r = r' := by
  have h₁ := mallocLoop_mono hcall (le_max_left n m)
  exact some.inj (h₁.symm.trans (hterm _ (le_max_right n m)))

theorem free_unique {n m ap : Nat} {h₁ h₂ : Heap} (hcall : free n h ap = some h₁)
    (hterm : ∀ n ≥ m, free n h ap = some h₂) : h₁ = h₂ :=
  some.inj ((free_mono hcall (le_max_left n m)).symm.trans (hterm _ (le_max_right n m)))

/-! ### The calls -/

/-- What was asked for fits behind the header. -/
theorem units_room (nbytes : UInt32) : nbytes.toNat + sizeofHeader ≤ sizeofHeader * (units nbytes).toNat := by
  have hlt := nbytes.toNat_lt
  have heq : (units nbytes).toNat = (nbytes.toNat + 15) / 16 + 1 := by
    refine UInt32.toNat_ofNat_of_lt' ?_
    simp only [sizeofHeader, UInt32.size]
    omega
  rw [heq]
  simp only [sizeofHeader]
  omega

/-- The list that the first call of `malloc` makes. -/
theorem init_arena (hfreep : h.got = 0) (hbrk : base + sizeofHeader ≤ h.brk) : Arena base (h.init base) [base] [] := by
  have hstop : (h.init base).stop base = base := by simp [Heap.stop, Heap.init]
  constructor
  case head => rfl
  case linked => exact linked_pair.mpr (by simp [Heap.init])
  case base_size => simp [Heap.init]
  case freep => simp [Heap.init]
  case ordered => exact pairwise_singleton ..
  case apart => simp
  case live_apart => exact .nil
  case room => simp
  case above => simp
  case above_free => exact fun a ha => .inl (mem_singleton.mp ha)
  case below => simp
  case below_free =>
    intro a ha
    rw [mem_singleton.mp ha, hstop]
    exact Nat.le_trans (Nat.le_add_right ..) hbrk
  case brk => exact hbrk
  case total => simp [Heap.init, hfreep]
  case limit => simp [Heap.init, hfreep]

/-- The free list has not been made yet, or it is in order. -/
def Ok (base : Nat) (σ : State) : Prop :=
  Start base σ ∨ ∃ ns, Arena base σ.heap ns σ.live ∧ Gaps σ.heap ns

/-- `sbrk` hands out fewer than `2 ^ 32` units in all. -/
def Bounded (sbrk : Heap → Nat → Option Nat) : Prop :=
  ∀ h n gap, sbrk h n = some gap → h.got * sizeofHeader + n < 2 ^ 32 * sizeofHeader

theorem malloc_spec (hbase : 0 < base) (hsbrk : Bounded sbrk) (hok : Ok base σ) (nbytes : UInt32) :
    ∃ r m, (∀ n ≥ m, malloc base sbrk n σ.heap nbytes = some r) ∧ ∃ ns,
      Arena base r.1 ns (if r.2 = 0 then σ.live else (r.2 - sizeofHeader, nbytes) :: σ.live) ∧ Gaps r.1 ns := by
  have hlimit : ∀ {h : Heap} (gap : Nat), sbrk h ((asked (units nbytes)).toNat * sizeofHeader) = some gap →
      h.got + (asked (units nbytes)).toNat < 2 ^ 32 := by
    intro h gap heq
    have := hsbrk h _ gap heq
    rw [← add_mul] at this
    exact Nat.lt_of_mul_lt_mul_right this
  unfold malloc
  rcases hok with hstart | ⟨ns, hA, hg⟩
  · rw [if_pos hstart.freep, hstart.live]
    obtain ⟨r, m, hterm, ns, hA, hg, -⟩ :=
      mallocLoop_spec (init_arena hstart.got hstart.brk) (isChain_singleton _) hbase (units_room nbytes) hlimit
    exact ⟨r, m, hterm, ns, hA, hg⟩
  · have hne : σ.heap.freep ≠ 0 := ne_of_gt (lt_of_lt_of_le hbase (hA.base_le hA.freep))
    rw [if_neg hne]
    obtain ⟨r, m, hterm, ns', hA', hg', -⟩ := mallocLoop_spec hA hg hbase (units_room nbytes) hlimit
    exact ⟨r, m, hterm, ns', hA', hg'⟩

theorem free_ok (hok : Ok base σ) {x : Live} (hx : x ∈ σ.live) : ∃ h m, (∀ n ≥ m, free n σ.heap (x.1 + sizeofHeader) = some h) ∧
    ∃ ns, Arena base h ns (σ.live.erase x) ∧ Gaps h ns := by
  rcases hok with hstart | ⟨ns, hA, hg⟩
  · rw [hstart.live] at hx
    cases hx
  · obtain ⟨h, hfree, ns', hA', hg', -⟩ := free_spec (hA.perm (perm_cons_erase hx)) hg
    exact ⟨h, ns.length, hfree, ns', hA', hg'⟩

/-- The headers are out of reach of the program's writes. -/
theorem Arena.written (hA : Arena base h ns live) (hg : Gaps h ns) {ptr : Nat → Nat} {size : Nat → UInt32}
    (hkeep : ∀ a, (∀ x ∈ live, a ≤ x.1 ∨ h.stop x.1 ≤ a) → ptr a = h.ptr a ∧ size a = h.size a) :
    Arena base { h with ptr := ptr, size := size } ns live ∧ Gaps { h with ptr := ptr, size := size } ns := by
  have hfree : ∀ a ∈ ns, ptr a = h.ptr a ∧ size a = h.size a := by
    refine fun a ha => hkeep a fun x hx => ?_
    rcases hA.apart x hx a ha with hle | hle
    · exact .inr hle
    · exact .inl (le_trans (h.le_stop a) hle)
  have hlive : ∀ y ∈ live, size y.1 = h.size y.1 := by
    refine fun y hy => (hkeep y.1 fun x hx => ?_).2
    rcases eq_or_ne x y with rfl | hne
    · exact .inl (le_refl _)
    have : Std.Symm fun x y : Live => h.stop x.1 ≤ y.1 ∨ h.stop y.1 ≤ x.1 := ⟨fun _ _ h => h.symm⟩
    rcases hA.live_apart.forall hx hy hne with hle | hle
    · exact .inr hle
    · exact .inl (le_trans (h.le_stop y.1) hle)
  exact ⟨hA.congr (fun a ha => (hfree a ha).1) (fun a ha => (hfree a ha).2) hlive rfl rfl rfl,
    hg.congr fun a ha => (hfree a ha).2⟩

theorem Start.written (hstart : Start base σ) (ptr : Nat → Nat) (size : Nat → UInt32) :
    Start base ⟨{ σ.heap with ptr := ptr, size := size }, σ.live⟩ :=
  ⟨hstart.freep, hstart.live, hstart.got, hstart.brk⟩

theorem step_ok (hbase : 0 < base) (hsbrk : Bounded sbrk) (hstep : Step base sbrk σ σ') (hok : Ok base σ) : Ok base σ' := by
  cases hstep with
  | @malloc n ap h nbytes _ hcall =>
    obtain ⟨r, m, hterm, ns, hA, hg⟩ := malloc_spec hbase hsbrk hok nbytes
    obtain rfl := malloc_unique hcall hterm
    exact .inr ⟨ns, hA, hg⟩
  | @free n h x hx hcall =>
    obtain ⟨h', m, hterm, ns, hA, hg⟩ := free_ok hok hx
    obtain rfl := free_unique hcall hterm
    exact .inr ⟨ns, hA, hg⟩
  | write hkeep =>
    rcases hok with hstart | ⟨ns, hA, hg⟩
    · exact .inl (hstart.written ..)
    · exact .inr ⟨ns, hA.written hg hkeep⟩

theorem reached_ok (hbase : 0 < base) (hsbrk : Bounded sbrk) (hσ : Reached base sbrk σ) : Ok base σ := by
  obtain ⟨σ₀, hstart, hrun⟩ := hσ
  induction hrun with
  | refl => exact .inl hstart
  | tail _ hstep ih => exact step_ok hbase hsbrk hstep ih

/-- Free blocks with gaps between neighbours have gaps between any two. -/
theorem Gaps.pairwise (hg : Gaps h ns) : ns.Pairwise fun a b => h.stop a < b := by
  have : IsTrans Nat fun a b => h.stop a < b := ⟨fun a b c hab hbc => lt_trans (lt_of_lt_of_le hab (h.le_stop b)) hbc⟩
  exact isChain_iff_pairwise.mp hg

/-! ### Concrete runs -/

/-- A call, with the block's address for `free`. -/
inductive Call where
  | malloc (nbytes : UInt32)
  | free (bp : Nat)

/-- One call, with 16 rounds for its loops. -/
def Call.exec (base : Nat) (sbrk : Heap → Nat → Option Nat) (σ : State) : Call → Option State
  | .malloc nbytes =>
    if (asked (units nbytes)).toNat * sizeofHeader < 2 ^ 31 then
      (Umalloc.malloc base sbrk 16 σ.heap nbytes).map fun r =>
        ⟨r.1, if r.2 = 0 then σ.live else (r.2 - sizeofHeader, nbytes) :: σ.live⟩
    else none
  | .free bp =>
    (σ.live.find? (·.1 = bp)).bind fun x =>
      (Umalloc.free 16 σ.heap (x.1 + sizeofHeader)).map fun h => ⟨h, σ.live.erase x⟩

def runCalls (base : Nat) (sbrk : Heap → Nat → Option Nat) : List Call → State → Option State
  | [], σ => some σ
  | c :: cs, σ => (c.exec base sbrk σ).bind (runCalls base sbrk cs)

theorem Call.step {c : Call} (hexec : c.exec base sbrk σ = some σ') : Step base sbrk σ σ' := by
  cases c with
  | malloc nbytes =>
    rw [Call.exec] at hexec
    split at hexec
    next hsmall =>
      obtain ⟨r, hcall, rfl⟩ := map_eq_some_iff.mp hexec
      exact .malloc nbytes hsmall hcall
    next => cases hexec
  | free bp =>
    obtain ⟨x, hfind, hexec⟩ := bind_eq_some_iff.mp hexec
    obtain ⟨h, hcall, rfl⟩ := map_eq_some_iff.mp hexec
    exact .free (mem_of_find?_eq_some hfind) hcall

theorem runCalls_steps : ∀ {cs : List Call} {σ : State}, runCalls base sbrk cs σ = some σ' →
    Relation.ReflTransGen (Step base sbrk) σ σ'
  | [], _, h => by cases h; exact .refl
  | c :: cs, σ, h => by
    obtain ⟨σ₁, hexec, hrest⟩ := bind_eq_some_iff.mp h
    exact .head (Call.step hexec) (runCalls_steps hrest)

/-- Empty memory, `base` at 4096. -/
def blank : State := ⟨⟨fun _ => 0, fun _ => 0, 0, 8192, 0, 0⟩, []⟩

theorem blank_start : Start 4096 blank := ⟨rfl, rfl, rfl, by decide⟩

theorem reached_of_runCalls {cs : List Call} (hrun : runCalls 4096 sbrk cs blank = some σ) : Reached 4096 sbrk σ :=
  ⟨blank, blank_start, runCalls_steps hrun⟩

/-! ### Every run -/

/-- THE HEAP IS SOUND: in every state of every run in which `sbrk` hands out fewer than `2 ^ 32` units in all, the
    free list is a circular list in increasing order of addresses, its blocks neither overlap nor touch, every live
    block has room for what was asked for and overlaps no free block and no other live block, and live and free
    units are those obtained; and every call of `malloc` and `free` that may come next ends. -/
theorem heap_sound (base : Nat) (hbase : 0 < base) (sbrk : Heap → Nat → Option Nat) (hsbrk : Bounded sbrk) (σ : State)
    (hσ : Reached base sbrk σ) :
    (Start base σ ∨ ∃ ns, Arena base σ.heap ns σ.live ∧ ns.Pairwise fun a b => σ.heap.stop a < b) ∧
    (∀ nbytes : UInt32, (asked (units nbytes)).toNat * sizeofHeader < 2 ^ 31 →
      ∃ r m, ∀ n ≥ m, malloc base sbrk n σ.heap nbytes = some r) ∧
    (∀ x ∈ σ.live, ∃ h m, ∀ n ≥ m, free n σ.heap (x.1 + sizeofHeader) = some h) := by
  have hok := reached_ok hbase hsbrk hσ
  refine ⟨?_, fun nbytes _ => ?_, fun x hx => ?_⟩
  · rcases hok with hstart | ⟨ns, hA, hg⟩
    · exact .inl hstart
    · exact .inr ⟨ns, hA, hg.pairwise⟩
  · obtain ⟨r, m, hterm, -⟩ := malloc_spec hbase hsbrk hok nbytes
    exact ⟨r, m, hterm⟩
  · obtain ⟨h, m, hterm, -⟩ := free_ok hok hx
    exact ⟨h, m, hterm⟩

/-- `sbrk` with fewer than `2 ^ 32` units to give. -/
def finite (h : Heap) (n : Nat) : Option Nat := if h.got * sizeofHeader + n < 2 ^ 32 * sizeofHeader then some 0 else none

theorem finite_bounded : Bounded finite := by
  intro h n gap hsome
  unfold finite at hsome
  split at hsome
  next hlt => exact hlt
  next => cases hsome

/-- Two blocks, of which the first is freed. -/
theorem heap_sound_two : ∃ σ, Reached 4096 finite σ ∧ σ.live = [(73664, 10)] ∧
    (Start 4096 σ ∨ ∃ ns, Arena 4096 σ.heap ns σ.live ∧ ns.Pairwise fun a b => σ.heap.stop a < b) := by
  have hrun : ((runCalls 4096 finite [.malloc 10, .malloc 10, .free 73696] blank).any fun σ =>
      decide (σ.live = [(73664, 10)])) = true := by decide +kernel
  obtain ⟨σ, hσ, hlive⟩ := (any_eq_true _ _).mp hrun
  have hreached := reached_of_runCalls hσ
  exact ⟨σ, hreached, of_decide_eq_true hlive, (heap_sound 4096 (by decide) finite finite_bounded σ hreached).1⟩

/-- The largest request: `2 ^ 27 - 1` units. -/
def largest : UInt32 := 2147483616

/-- 33 requests of the largest size, then all of it is freed. -/
def fill : List Call :=
  replicate 33 (.malloc largest) ++ (range 33).map fun i => .free (8192 + i * (2 ^ 27 - 1) * 16)

/-- UNITS ARE LOST once `2 ^ 32` of them lie side by side: the `uint` size of the joined block has wrapped, and the
    list has 134217695 units where 4429184991 have been obtained. -/
theorem units_lost : ∃ σ, Reached 4096 (fun _ _ => some 0) σ ∧ σ.live = [] ∧ σ.heap.got = 33 * (2 ^ 27 - 1) ∧
    σ.heap.ptr 4096 = 8192 ∧ σ.heap.ptr 8192 = 4096 ∧ σ.heap.size 4096 = 0 ∧ σ.heap.size 8192 = 134217695 := by
  have hrun : ((runCalls 4096 (fun _ _ => some 0) fill blank).any fun σ =>
      decide (σ.live = [] ∧ σ.heap.got = 33 * (2 ^ 27 - 1) ∧ σ.heap.ptr 4096 = 8192 ∧ σ.heap.ptr 8192 = 4096 ∧
        σ.heap.size 4096 = 0 ∧ σ.heap.size 8192 = 134217695)) = true := by decide +kernel
  obtain ⟨σ, hσ, hfacts⟩ := (any_eq_true _ _).mp hrun
  exact ⟨σ, reached_of_runCalls hσ, of_decide_eq_true hfacts⟩

end Xv6.Umalloc
