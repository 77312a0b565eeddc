import Xv6.Lib.Cycle
import Xv6.Lib.Run
import Xv6.Param

/-! `kernel/bio.c`: the list of buffers, with its pointers.

        head ──next──▶ most recently used ──▶ … ──▶ least recently used ──next──▶ head
             ◀──prev──                    ◀── … ◀──                     ◀──prev──

    A step is one critical section of `bcache.lock`, and every order of them is a run, also those in which a
    sleep-lock would stop a process. `Ordered` reads the pointers as a list, and there `bget`, `brelse` and
    `binit` do what `Bio.Sys` does to its `lru`. `stamp`, the time of the last `brelse` to `refcnt` 0, is
    history, and 0 stands for never. -/

namespace Xv6.Bio
open Function List
open Cycle (Linked search)

/-- A buffer, or `bcache.head`. -/
abbrev Node := Option (Fin NBUF)

/-- `bcache`, one function for each field of `struct buf`. -/
structure Bcache where
  next : Node → Node
  prev : Node → Node
  dev : Fin NBUF → UInt32
  blockno : Fin NBUF → UInt32
  valid : Fin NBUF → Bool
  refcnt : Fin NBUF → UInt32
  -- history
  clock : Nat
  stamp : Fin NBUF → Nat

namespace Bcache

/-- `b->next = bcache.head.next; b->prev = &bcache.head; bcache.head.next->prev = b; bcache.head.next = b;` -/
def push (s : Bcache) (i : Fin NBUF) : Bcache :=
  { s with
    next := update (update s.next (some i) (s.next none)) none (some i)
    prev := update (update s.prev (some i) none) (s.next none) (some i) }

/-- `b->next->prev = b->prev; b->prev->next = b->next;` -/
def unlink (s : Bcache) (i : Fin NBUF) : Bcache :=
  { s with
    next := update s.next (s.prev (some i)) (s.next (some i))
    prev := update s.prev (s.next (some i)) (s.prev (some i)) }

/-- `b->refcnt++`. -/
def bpin (s : Bcache) (i : Fin NBUF) : Bcache := { s with refcnt := update s.refcnt i (s.refcnt i + 1) }

/-- `b->refcnt--`. -/
def bunpin (s : Bcache) (i : Fin NBUF) : Bcache := { s with refcnt := update s.refcnt i (s.refcnt i - 1) }

def brelse (s : Bcache) (i : Fin NBUF) : Bcache :=
  let s := s.bunpin i
  if s.refcnt i = 0 then { (s.unlink i).push i with clock := s.clock + 1, stamp := update s.stamp i (s.clock + 1) }
  else s

/-- Buffer `i` is to cache block `blockno` of `dev`. -/
def recycle (s : Bcache) (i : Fin NBUF) (dev blockno : UInt32) : Bcache :=
  { s with
    dev := update s.dev i dev
    blockno := update s.blockno i blockno
    valid := update s.valid i false
    refcnt := update s.refcnt i 1 }

/-- The state and the buffer found, if there is one; `none` if a loop goes round for ever. -/
def bget (s : Bcache) (dev blockno : UInt32) : Option (Bcache × Option (Fin NBUF)) :=
  (search s.next (fun b => b.all fun i => s.dev i = dev ∧ s.blockno i = blockno) (NBUF + 1) (s.next none)).bind fun
    | some i => some (s.bpin i, some i)
    | none =>
      (search s.prev (fun b => b.all fun i => s.refcnt i = 0) (NBUF + 1) (s.prev none)).bind fun
        | some i => some (s.recycle i dev blockno, some i)
        | none => some (s, none)     -- panic("bget: no buffers")

/-- The critical sections of `bcache.lock`. -/
inductive Section where
  | bget (dev blockno : UInt32)
  | brelse (i : Fin NBUF)
  | bpin (i : Fin NBUF)
  | bunpin (i : Fin NBUF)

def step (s : Bcache) : Section → Option Bcache
  | .bget dev blockno => (s.bget dev blockno).bind fun r => r.2.map fun _ => r.1
  | .brelse i => some (s.brelse i)
  | .bpin i => some (s.bpin i)
  | .bunpin i => some (s.bunpin i)

/-- `l` is the list from `bcache.head.next` on. -/
structure Ordered (s : Bcache) (l : List (Fin NBUF)) : Prop where
  all : ∀ i, i ∈ l
  ring : Cycle.Ring s.next s.prev none (l.map some)
  sorted : l.Pairwise fun i j => s.stamp j ≤ s.stamp i
  clock : ∀ i, s.stamp i ≤ s.clock
  distinct : ∀ i j, s.dev i ≠ 0 → s.dev i = s.dev j → s.blockno i = s.blockno j → i = j

variable {s s' : Bcache} {l : List (Fin NBUF)} {i : Fin NBUF} {dev blockno : UInt32}

/-! ### The two loops of `bget` -/

theorem Ordered.nodup (o : Ordered s l) : l.Nodup := (nodup_cons.mp o.ring.nodup).2.of_map

theorem Ordered.length (o : Ordered s l) : l.length ≤ NBUF :=
  o.nodup.length_le_card.trans_eq (Fintype.card_fin NBUF)

/-- A loop over the buffers finds the first one in its order. -/
theorem search_ring {next : Node → Node} (stop : Fin NBUF → Bool)
    (hl : Linked next (none :: (l.map some ++ [none]))) (hlen : l.length ≤ NBUF) :
    search next (Option.all stop) (NBUF + 1) (next none) = some (l.find? stop) := by
  rw [Cycle.search_find rfl hl _ (by rw [length_map]; omega), find?_map]
  change some (((l.find? stop).map some).getD none) = _
  cases l.find? stop <;> rfl

theorem Ordered.bget_eq (o : Ordered s l) : s.bget dev blockno = some
    (match l.find? fun i => s.dev i = dev ∧ s.blockno i = blockno with
      | some i => (s.bpin i, some i)
      | none => match l.reverse.find? fun i => s.refcnt i = 0 with
        | some i => (s.recycle i dev blockno, some i)
        | none => (s, none)) := by
  have hprev : Linked s.prev (none :: (l.reverse.map some ++ [none])) := map_reverse (f := some) ▸ o.ring.prev
  rw [bget, search_ring _ o.ring.next o.length, Option.bind_some]
  split
  next i hi => rw [hi]
  next hi =>
    rw [hi, search_ring _ hprev (by rw [length_reverse]; exact o.length), Option.bind_some]
    split
    next j hj => rw [hj]
    next hj => rw [hj]

/-! ### What the steps keep -/

theorem Ordered.bunpin (o : Ordered s l) (i : Fin NBUF) : Ordered (s.bunpin i) l :=
  ⟨o.all, o.ring, o.sorted, o.clock, o.distinct⟩

theorem Ordered.bpin (o : Ordered s l) (i : Fin NBUF) : Ordered (s.bpin i) l :=
  ⟨o.all, o.ring, o.sorted, o.clock, o.distinct⟩

/-- No other buffer caches the block, for the loop over all of them found none. -/
theorem Ordered.recycle (o : Ordered s l) (hmiss : ∀ j, ¬(s.dev j = dev ∧ s.blockno j = blockno)) :
    Ordered (s.recycle i dev blockno) l where
  all := o.all
  ring := o.ring
  sorted := o.sorted
  clock := o.clock
  distinct := by
    intro a b hdev hdevs hblocks
    simp only [Bcache.recycle] at hdev hdevs hblocks
    by_cases ha : a = i <;> by_cases hb : b = i
    · rw [ha, hb]
    · rw [ha, update_self, update_of_ne hb] at hdevs hblocks
      exact absurd ⟨hdevs.symm, hblocks.symm⟩ (hmiss b)
    · rw [hb, update_self, update_of_ne ha] at hdevs hblocks
      exact absurd ⟨hdevs, hblocks⟩ (hmiss a)
    · rw [update_of_ne ha] at hdev hdevs hblocks
      rw [update_of_ne hb] at hdevs hblocks
      exact o.distinct a b hdev hdevs hblocks

theorem Ordered.brelse (o : Ordered s l) (i : Fin NBUF) :
    Ordered (s.brelse i) (if s.refcnt i - 1 = 0 then i :: l.erase i else l) := by
  have hrefcnt : (s.bunpin i).refcnt i = s.refcnt i - 1 := update_self ..
  rw [Bcache.brelse, hrefcnt]
  split
  next =>
    obtain ⟨l₁, l₂, rfl⟩ := append_of_mem (o.all i)
    have hnodup : (i :: (l₁ ++ l₂)).Nodup := perm_middle.nodup_iff.mp o.nodup
    have hrest : (l₁ ++ l₂).Sublist (l₁ ++ i :: l₂) := (List.Sublist.refl l₁).append (sublist_cons_self i l₂)
    have hunlink := Cycle.Ring.unlink (b := some i) (map_cons (f := some) ▸ map_append (f := some) ▸ o.ring)
    have hil₁ : i ∉ l₁ := fun hmem => (nodup_cons.mp hnodup).1 (mem_append_left l₂ hmem)
    rw [erase_append_right _ hil₁, erase_cons_head]
    refine ⟨fun j => perm_middle.mem_iff.mp (o.all j), ?_, ?_, fun j => ?_, o.distinct⟩
    · rw [← map_append] at hunlink
      exact hunlink.push (b := some i) (by simpa using (nodup_cons.mp hnodup).1)
    · -- the clock has passed every other stamp
      refine pairwise_cons.mpr ⟨fun j hj => ?_, (o.sorted.sublist hrest).imp_of_mem fun ha hb hab => ?_⟩
      · simp only [Bcache.bunpin]
        rw [update_self, update_of_ne (ne_of_mem_of_not_mem hj (nodup_cons.mp hnodup).1)]
        exact Nat.le_succ_of_le (o.clock j)
      · simp only [Bcache.bunpin]
        rw [update_of_ne (ne_of_mem_of_not_mem ha (nodup_cons.mp hnodup).1),
          update_of_ne (ne_of_mem_of_not_mem hb (nodup_cons.mp hnodup).1)]
        exact hab
    · simp only [Bcache.bunpin]
      by_cases hj : j = i
      · rw [hj, update_self]
      · rw [update_of_ne hj]
        exact Nat.le_succ_of_le (o.clock j)
  next => exact o.bunpin i

theorem Ordered.step (o : Ordered s l) {c : Section} (h : s.step c = some s') : ∃ l', Ordered s' l' := by
  cases c with
  | bget dev blockno =>
    rw [Bcache.step, o.bget_eq, Option.bind_some] at h
    split at h
    next => cases h; exact ⟨l, o.bpin _⟩
    next hmiss =>
      split at h
      next => cases h; exact ⟨l, o.recycle fun j => by simpa using find?_eq_none.mp hmiss j (o.all j)⟩
      next => cases h
  | brelse i => cases h; exact ⟨_, o.brelse i⟩
  | bpin i => cases h; exact ⟨l, o.bpin i⟩
  | bunpin i => cases h; exact ⟨l, o.bunpin i⟩

end Xv6.Bio.Bcache
