import Xv6.Umalloc.Code

/-! The invariant of the allocator.

    `Arena base h ns live`: the free list of `h` consists of the nodes `ns`, in increasing order of addresses and
    starting with `base`; no block of the list overlaps another one or a live block; and the units of all blocks
    are those obtained from `sbrk`. Blocks of the list may touch: `free` inserts a block first (`insert`) and then
    joins it with its neighbours (`join`), and each of these keeps the arena. That no two free blocks touch in the
    end is `Gaps`. -/

namespace Xv6.Umalloc
open Cycle Function List

/-! ### The heap -/

namespace Heap
variable {h : Heap} {a b q : Nat} {n : UInt32}

@[simp] theorem setPtr_ptr : (h.setPtr a q).ptr = update h.ptr a q := rfl
@[simp] theorem setPtr_size : (h.setPtr a q).size = h.size := rfl
@[simp] theorem setPtr_freep : (h.setPtr a q).freep = h.freep := rfl
@[simp] theorem setPtr_brk : (h.setPtr a q).brk = h.brk := rfl
@[simp] theorem setPtr_got : (h.setPtr a q).got = h.got := rfl
@[simp] theorem setPtr_stop : (h.setPtr a q).stop = h.stop := rfl
@[simp] theorem setSize_ptr : (h.setSize a n).ptr = h.ptr := rfl
@[simp] theorem setSize_size : (h.setSize a n).size = update h.size a n := rfl
@[simp] theorem setSize_freep : (h.setSize a n).freep = h.freep := rfl
@[simp] theorem setSize_brk : (h.setSize a n).brk = h.brk := rfl
@[simp] theorem setSize_got : (h.setSize a n).got = h.got := rfl

/-- All units of the blocks `l`. -/
def sum (h : Heap) (l : List Nat) : Nat := (l.map fun a => (h.size a).toNat).sum

@[simp] theorem sum_nil : h.sum [] = 0 := rfl

@[simp] theorem sum_cons (a : Nat) (l : List Nat) : h.sum (a :: l) = (h.size a).toNat + h.sum l := List.sum_cons

@[simp] theorem sum_append (l l' : List Nat) : h.sum (l ++ l') = h.sum l + h.sum l' := by
  rw [sum, List.map_append, List.sum_append]; rfl

theorem stop_congr {h' : Heap} (heq : h'.size a = h.size a) : h'.stop a = h.stop a := by
  rw [stop, stop, heq]

theorem sum_congr {h' : Heap} {l : List Nat} (heq : ∀ a ∈ l, h'.size a = h.size a) : h'.sum l = h.sum l :=
  congrArg List.sum (List.map_congr_left fun a ha => by rw [heq a ha])

theorem le_stop (h : Heap) (a : Nat) : a ≤ h.stop a := Nat.le_add_right ..

end Heap

/-- What `free` does first: the block `bp` behind `p`. -/
def insert (h : Heap) (bp p : Nat) : Heap := (h.setPtr bp (h.ptr p)).setPtr p bp

/-- Then two blocks that touch become one. -/
def join (h : Heap) (a b : Nat) : Heap := (h.setSize a (h.size a + h.size b)).setPtr a (h.ptr b)

theorem join_size {h : Heap} {a b c : Nat} (hc : c ≠ a) : (join h a b).size c = h.size c := by
  simp [join, update_of_ne hc]

/-- Join `b` to `a` if they touch. -/
def meld (h : Heap) (a b : Nat) : Heap := if h.stop a = b then join h a b else h

theorem meld_size {h : Heap} {a b c : Nat} (hc : c ≠ a) : (meld h a b).size c = h.size c := by
  unfold meld
  split
  · exact join_size hc
  · rfl

theorem link_brk (h : Heap) (bp p : Nat) : (link h bp p).brk = h.brk := by
  unfold link
  dsimp only
  split <;> split <;> rfl

theorem link_got (h : Heap) (bp p : Nat) : (link h bp p).got = h.got := by
  unfold link
  dsimp only
  split <;> split <;> rfl

theorem meld_freep {h : Heap} {a b : Nat} : (meld h a b).freep = h.freep := by
  unfold meld join
  split <;> rfl

/-- `free` inserts the block, and joins it with the next one and the one before. -/
theorem link_eq {h : Heap} {bp p : Nat} (hp : p ≠ bp) (hnext : h.stop bp = h.ptr p → h.ptr p ≠ p ∧ h.ptr p ≠ bp) :
    link h bp p = meld (meld (insert { h with freep := p } bp p) bp (h.ptr p)) p bp := by
  have hstop : ∀ n q, ((h.setSize bp n).setPtr bp q).stop p = h.stop p := fun n q =>
    Heap.stop_congr (update_of_ne hp ..)
  have hstop' : (meld (insert { h with freep := p } bp p) bp (h.ptr p)).stop p = h.stop p :=
    Heap.stop_congr (meld_size hp)
  have hcomm : ∀ {β : Type} (f : Nat → β) (x y : β), update (update f p x) bp y =
      update (update f bp y) p x := fun f x y => update_comm hp ..
  have hstop₁ : (insert { h with freep := p } bp p).stop bp = h.stop bp := rfl
  rw [meld, hstop']
  by_cases htouch : h.stop bp = h.ptr p
  · obtain ⟨hne, hne'⟩ := hnext htouch
    rw [meld, hstop₁, if_pos htouch]
    simp only [link, insert, join, if_pos htouch, hstop]
    by_cases htouch' : h.stop p = bp
    · simp [if_pos htouch', Heap.setPtr, Heap.setSize, update_of_ne hne, update_of_ne hne',
        update_of_ne hp, update_of_ne hp.symm, hcomm]
    · simp [if_neg htouch', Heap.setPtr, Heap.setSize, update_of_ne hne, update_of_ne hne', hcomm]
  · rw [meld, hstop₁, if_neg htouch]
    simp only [link, insert, join, if_neg htouch, Heap.setPtr_stop]
    by_cases htouch' : h.stop p = bp
    · simp [if_pos htouch', Heap.setPtr, Heap.setSize, update_of_ne hp.symm]
    · simp [if_neg htouch', Heap.setPtr]

/-! ### The arena -/

/-- A live block: the address of its header, and the bytes asked for. -/
abbrev Live := Nat × UInt32

structure Arena (base : Nat) (h : Heap) (ns : List Nat) (live : List Live) : Prop where
  head : ns.head? = some base
  linked : Linked h.ptr (ns ++ [base])
  base_size : h.size base = 0
  freep : h.freep ∈ ns
  /-- The list is in increasing order of addresses, and no block of it overlaps another one. -/
  ordered : ns.Pairwise fun a b => a < b ∧ h.stop a ≤ b
  /-- A live block overlaps no free block, -/
  apart : ∀ x ∈ live, ∀ a ∈ ns, h.stop x.1 ≤ a ∨ h.stop a ≤ x.1
  /-- and no other live block. -/
  live_apart : live.Pairwise fun x y => h.stop x.1 ≤ y.1 ∨ h.stop y.1 ≤ x.1
  /-- What was asked for fits into a live block, behind its header. -/
  room : ∀ x ∈ live, x.2.toNat + sizeofHeader ≤ sizeofHeader * (h.size x.1).toNat
  above : ∀ x ∈ live, base + sizeofHeader ≤ x.1
  above_free : ∀ a ∈ ns, a = base ∨ base + sizeofHeader ≤ a ∧ a < h.stop a
  below : ∀ x ∈ live, h.stop x.1 ≤ h.brk
  below_free : ∀ a ∈ ns, h.stop a ≤ h.brk
  brk : base + sizeofHeader ≤ h.brk
  /-- Live and free units are what has been obtained. -/
  total : h.sum ns + h.sum (live.map Prod.fst) = h.got
  limit : h.got < 2 ^ 32

/-- The blocks lie at or above `lo`, and so does all that has been obtained. -/
structure Within (base lo : Nat) (h : Heap) (ns : List Nat) (live : List Live) : Prop where
  free : ∀ a ∈ ns, a = base ∨ lo ≤ a
  live : ∀ x ∈ live, lo ≤ x.1
  got : lo + sizeofHeader * h.got ≤ h.brk

/-- No two neighbours of the list touch. -/
def Gaps (h : Heap) (ns : List Nat) : Prop := ns.IsChain fun a b => h.stop a < b

theorem Gaps.congr {h h' : Heap} {l : List Nat} (hg : Gaps h l) (heq : ∀ a ∈ l, h'.size a = h.size a) : Gaps h' l :=
  IsChain.imp_of_mem_imp (fun a _ ha _ hab => by rwa [Heap.stop_congr (heq a ha)]) hg

namespace Arena
variable {base : Nat} {h : Heap} {ns pre post : List Nat} {live : List Live} {a b bp p : Nat} {x : Live}

theorem base_mem (hA : Arena base h ns live) : base ∈ ns := mem_of_head? hA.head

theorem base_stop (hA : Arena base h ns live) : h.stop base = base := by
  rw [Heap.stop, hA.base_size]; rfl

theorem lt_stop (hA : Arena base h ns live) (hx : x ∈ live) : x.1 < h.stop x.1 := by
  have hroom := hA.room x hx
  simp only [Heap.stop, sizeofHeader] at hroom ⊢
  omega

/-- A live block is not in the list. -/
theorem not_mem (hA : Arena base h ns live) (hx : x ∈ live) : x.1 ∉ ns := by
  intro hmem
  have hpos := hA.lt_stop hx
  rcases hA.apart x hx _ hmem with hle | hle <;> omega

theorem base_le (hA : Arena base h ns live) (ha : a ∈ ns) : base ≤ a := by
  rcases hA.above_free a ha with rfl | ⟨hle, -⟩
  · exact le_refl a
  · exact Nat.le_of_add_right_le hle

/-- Putting a node behind `p` does not change where a list starts. -/
theorem head_eq {l l' : List Nat} (hhead : (pre ++ p :: l).head? = some base) : (pre ++ p :: l').head? = some base := by
  cases pre with
  | nil => exact hhead
  | cons q pre => exact hhead

/-- A live block that lies behind `p` and before the rest of the list goes there. -/
theorem inserted (hA : Arena base h (pre ++ p :: post) (x :: live)) (hp : p < x.1) (hpost : ∀ b ∈ post, x.1 < b) :
    Arena base (insert h x.1 p) (pre ++ p :: x.1 :: post) live := by
  obtain ⟨bp, n⟩ := x
  dsimp only at hp hpost ⊢
  have hmem : bp ∉ pre ++ p :: post := hA.not_mem (mem_cons_self ..)
  have hord := hA.ordered
  have hfree : ∀ a ∈ pre ++ p :: post, h.stop bp ≤ a ∨ h.stop a ≤ bp := hA.apart (bp, n) (mem_cons_self ..)
  have hlive := pairwise_cons.mp hA.live_apart
  rw [pairwise_append, pairwise_cons] at hord
  obtain ⟨hpre, ⟨hppost, hpost'⟩, hprep⟩ := hord
  have hlink : Linked h.ptr (pre ++ p :: (post ++ [base])) := by simpa using hA.linked
  obtain ⟨hlink₁, hlink₂⟩ := linked_split.mp hlink
  have hmem_iff : ∀ a, a ∈ pre ++ p :: bp :: post ↔ a = bp ∨ a ∈ pre ++ p :: post := by
    intro a
    simp only [mem_append, mem_cons]
    tauto
  constructor
  case head => exact head_eq hA.head
  case linked =>
    have hkeep : ∀ a ∈ pre ++ p :: post, a ≠ p → (Umalloc.insert h bp p).ptr a = h.ptr a := by
      intro a ha hap
      have hab : a ≠ bp := fun h => hmem (h ▸ ha)
      simp [Umalloc.insert, update_of_ne hap, update_of_ne hab]
    have hlink' : Linked (Umalloc.insert h bp p).ptr (pre ++ p :: bp :: (post ++ [base])) := by
      refine linked_split.mpr ⟨hlink₁.congr fun a ha => hkeep a (mem_append_left _ ha) ?_,
        linked_cons_cons.mpr ⟨by simp [Umalloc.insert], hlink₂.replace_head ?_ fun a ha => hkeep a ?_ ?_⟩⟩
      · exact ne_of_lt (hprep a ha p (mem_cons_self ..)).1
      · simp [Umalloc.insert, update_of_ne (ne_of_gt hp)]
      · exact mem_append_right _ (mem_cons_of_mem _ ha)
      · exact ne_of_gt (hppost a ha).1
    simpa using hlink'
  case base_size => exact hA.base_size
  case freep => exact (hmem_iff _).mpr (.inr hA.freep)
  case ordered =>
    have hpb : h.stop p ≤ bp := by
      have := h.le_stop bp
      rcases hfree p (by simp) with hle | hle
      · omega
      · exact hle
    refine pairwise_append.mpr ⟨hpre, pairwise_cons.mpr ⟨?_, pairwise_cons.mpr ⟨?_, hpost'⟩⟩, ?_⟩
    · intro b hb
      rcases mem_cons.mp hb with rfl | hb
      · exact ⟨hp, hpb⟩
      · exact hppost b hb
    · intro b hb
      have hlt := hpost b hb
      have := h.le_stop b
      rcases hfree b (by simp [hb]) with hle | hle
      · exact ⟨hlt, hle⟩
      · omega
    · intro a ha b hb
      rcases mem_cons.mp hb with rfl | hb
      · exact hprep a ha b (mem_cons_self ..)
      rcases mem_cons.mp hb with rfl | hb
      · have := hprep a ha p (mem_cons_self ..)
        exact ⟨lt_trans this.1 hp, le_trans this.2 (le_of_lt hp)⟩
      · exact hprep a ha b (mem_cons_of_mem _ hb)
  case apart =>
    intro y hy a ha
    rcases (hmem_iff a).mp ha with rfl | ha
    · exact (hlive.1 y hy).symm
    · exact hA.apart y (mem_cons_of_mem _ hy) a ha
  case live_apart => exact hlive.2
  case room => exact fun y hy => hA.room y (mem_cons_of_mem _ hy)
  case above => exact fun y hy => hA.above y (mem_cons_of_mem _ hy)
  case above_free =>
    intro a ha
    rcases (hmem_iff a).mp ha with rfl | ha
    · exact .inr ⟨hA.above _ (mem_cons_self ..), hA.lt_stop (mem_cons_self ..)⟩
    · exact hA.above_free a ha
  case below => exact fun y hy => hA.below y (mem_cons_of_mem _ hy)
  case below_free =>
    intro a ha
    rcases (hmem_iff a).mp ha with rfl | ha
    · exact hA.below _ (mem_cons_self ..)
    · exact hA.below_free a ha
  case brk => exact hA.brk
  case total =>
    have htotal := hA.total
    change h.sum _ + h.sum _ = h.got
    simp only [map_cons, Heap.sum_append, Heap.sum_cons] at htotal ⊢
    omega
  case limit => exact hA.limit

theorem ne_live (hA : Arena base h ns live) (ha : a ∈ ns) : ∀ y ∈ live, y.1 ≠ a :=
  fun _ hy heq => hA.not_mem hy (heq ▸ ha)

/-- The sizes of two free blocks can be added. -/
theorem toNat_add (hA : Arena base h (pre ++ a :: b :: post) live) :
    (h.size a + h.size b).toNat = (h.size a).toNat + (h.size b).toNat := by
  have htotal := hA.total
  have hlimit := hA.limit
  simp only [Heap.sum_append, Heap.sum_cons] at htotal
  rw [UInt32.toNat_add, Nat.mod_eq_of_lt (by omega)]

theorem join_stop (hA : Arena base h (pre ++ a :: b :: post) live) (htouch : h.stop a = b) :
    (join h a b).stop a = h.stop b := by
  have hsize : (join h a b).size a = h.size a + h.size b := by simp [join]
  rw [Heap.stop, hsize, hA.toNat_add, mul_add, ← add_assoc]
  exact congrArg (· + _) htouch

/-- Two neighbours of the list that touch become one block. -/
theorem joined (hA : Arena base h (pre ++ a :: b :: post) live) (htouch : h.stop a = b) (hfreep : h.freep ≠ b) :
    Arena base (join h a b) (pre ++ a :: post) live := by
  have hne := hA.ne_live (a := a) (by simp)
  have hord := hA.ordered
  rw [pairwise_append, pairwise_cons, pairwise_cons] at hord
  obtain ⟨hpre, ⟨hapost, hbpost, hpost⟩, hprea⟩ := hord
  have hab := (hapost b (mem_cons_self ..)).1
  have hlink : Linked h.ptr (pre ++ a :: b :: (post ++ [base])) := by simpa using hA.linked
  obtain ⟨hlink₁, hlink₂⟩ := linked_split.mp hlink
  have htotal := hA.total
  simp only [Heap.sum_append, Heap.sum_cons] at htotal
  have hsize_a : (join h a b).size a = h.size a + h.size b := by simp [join]
  have hsize : ∀ c, c ≠ a → (join h a b).size c = h.size c := fun c hc => join_size hc
  have hstop_a := hA.join_stop htouch
  have hstop : ∀ c, c ≠ a → (join h a b).stop c = h.stop c := fun c hc => Heap.stop_congr (hsize c hc)
  have hne_pre : ∀ c ∈ pre, c ≠ a := fun c hc => ne_of_lt (hprea c hc a (mem_cons_self ..)).1
  have hne_post : ∀ c ∈ post, c ≠ a := fun c hc => ne_of_gt (hapost c (mem_cons_of_mem _ hc)).1
  have hmem_iff : ∀ c, c ∈ pre ++ a :: b :: post ↔ c = b ∨ c ∈ pre ++ a :: post := by
    intro c
    simp only [mem_append, mem_cons]
    tauto
  have hmem : ∀ c ∈ pre ++ a :: post, c = a ∨ c ≠ a ∧ c ∈ pre ++ a :: b :: post := by
    intro c hc
    rcases eq_or_ne c a with rfl | hca
    · exact .inl rfl
    · exact .inr ⟨hca, (hmem_iff c).mpr (.inr hc)⟩
  have hbase : base ≠ a := by
    rintro rfl
    rw [hA.base_stop] at htouch
    omega
  constructor
  case head => exact head_eq hA.head
  case linked =>
    have hkeep : ∀ c, c ≠ a → (join h a b).ptr c = h.ptr c := fun c hc => by simp [join, update_of_ne hc]
    have hlink' : Linked (join h a b).ptr (pre ++ a :: (post ++ [base])) :=
      linked_split.mpr ⟨hlink₁.congr fun c hc => hkeep c (hne_pre c hc),
        (linked_cons_cons.mp hlink₂).2.replace_head (by simp [join]) fun c hc => hkeep c (hne_post c hc)⟩
    simpa using hlink'
  case base_size => rw [hsize base hbase, hA.base_size]
  case freep => exact ((hmem_iff _).mp hA.freep).resolve_left hfreep
  case ordered =>
    refine pairwise_append.mpr ⟨?_, pairwise_cons.mpr ⟨?_, ?_⟩, ?_⟩
    · exact hpre.imp_of_mem fun {c d} hc _ hcd => by rwa [hstop c (hne_pre c hc)]
    · intro c hc
      rw [hstop_a]
      exact ⟨lt_trans hab (hbpost c hc).1, (hbpost c hc).2⟩
    · exact hpost.imp_of_mem fun {c d} hc _ hcd => by rwa [hstop c (hne_post c hc)]
    · intro c hc d hd
      rw [hstop c (hne_pre c hc)]
      exact hprea c hc d (by simp only [mem_cons] at hd ⊢; tauto)
  case apart =>
    intro y hy c hc
    have hlt := hA.lt_stop hy
    rw [hstop y.1 (hne y hy)]
    rcases hmem c hc with rfl | ⟨hca, hc⟩
    · rw [hstop_a]
      have h1 := hA.apart y hy c (by simp)
      have h2 := hA.apart y hy b (by simp)
      omega
    · rw [hstop c hca]
      exact hA.apart y hy c hc
  case live_apart =>
    exact hA.live_apart.imp_of_mem fun {y z} hy hz hyz => by rwa [hstop y.1 (hne y hy), hstop z.1 (hne z hz)]
  case room => exact fun y hy => by rw [hsize y.1 (hne y hy)]; exact hA.room y hy
  case above => exact hA.above
  case above_free =>
    intro c hc
    have habove := hA.above_free c ((hmem_iff c).mpr (.inr hc))
    rcases hmem c hc with rfl | ⟨hca, -⟩
    · rw [hstop_a]
      have := h.le_stop b
      rcases habove with heq | ⟨hle, -⟩
      · exact absurd heq.symm hbase
      · exact .inr ⟨hle, by omega⟩
    · rw [hstop c hca]
      exact habove
  case below => exact fun y hy => by rw [hstop y.1 (hne y hy)]; exact hA.below y hy
  case below_free =>
    intro c hc
    rcases hmem c hc with rfl | ⟨hca, hc⟩
    · rw [hstop_a]
      exact hA.below_free b (by simp)
    · rw [hstop c hca]
      exact hA.below_free c hc
  case brk => exact hA.brk
  case total =>
    have hsum_live : (join h a b).sum (live.map Prod.fst) = h.sum (live.map Prod.fst) := by
      refine Heap.sum_congr fun c hc => ?_
      obtain ⟨y, hy, rfl⟩ := mem_map.mp hc
      exact hsize y.1 (hne y hy)
    rw [hsum_live, Heap.sum_append, Heap.sum_cons, Heap.sum_congr fun c hc => hsize c (hne_pre c hc),
      Heap.sum_congr fun c hc => hsize c (hne_post c hc), hsize_a, hA.toNat_add]
    change _ = h.got
    omega
  case limit => exact hA.limit

theorem set_freep (hA : Arena base h ns live) (hp : p ∈ ns) : Arena base { h with freep := p } ns live :=
  { hA with freep := hp }

/-- The node behind `p`. -/
theorem ptr_eq (hA : Arena base h (pre ++ p :: post) live) : h.ptr p = post.head?.getD base := by
  have hlink : Linked h.ptr (pre ++ p :: (post ++ [base])) := by simpa using hA.linked
  have hlink := (linked_split.mp hlink).2
  cases post with
  | nil => exact linked_pair.mp hlink
  | cons q post => exact (linked_cons_cons.mp hlink).1

theorem found_iff (hA : Arena base h (pre ++ p :: post) (x :: live)) :
    found h x.1 p = true ↔ p < x.1 ∧ ∀ q ∈ post, x.1 < q := by
  have hbase : base < x.1 := lt_of_lt_of_le (by simp [sizeofHeader]) (hA.above x (mem_cons_self ..))
  have hp := hA.base_le (a := p) (by simp)
  have hord := (pairwise_cons.mp (pairwise_append.mp hA.ordered).2.1)
  rw [found, hA.ptr_eq]
  cases post with
  | nil =>
    simp only [head?_nil, Option.getD_none, not_mem_nil, false_implies, implies_true, and_true]
    grind
  | cons q post =>
    have hpq := (hord.1 q (mem_cons_self ..)).1
    have hmin : ∀ r ∈ q :: post, q ≤ r := by
      intro r hr
      rcases mem_cons.mp hr with rfl | hr
      · exact le_refl r
      · exact le_of_lt ((pairwise_cons.mp hord.2).1 r hr).1
    have hall : (∀ r ∈ q :: post, x.1 < r) ↔ x.1 < q :=
      ⟨fun h => h q (mem_cons_self ..), fun h r hr => lt_of_lt_of_le h (hmin r hr)⟩
    rw [hall]
    simp only [head?_cons, Option.getD_some]
    grind

end Arena

/-! ### `free` -/

/-- Where `v` belongs in a sorted list that starts below it. -/
theorem exists_below {v : Nat} : ∀ {a : Nat} {l : List Nat}, (a :: l).Pairwise (· < ·) → a < v → v ∉ l →
    ∃ pre p post, a :: l = pre ++ p :: post ∧ p < v ∧ ∀ q ∈ post, v < q
  | a, [], _, ha, _ => ⟨[], a, [], rfl, ha, nofun⟩
  | a, b :: l, hsort, ha, hv => by
    obtain ⟨-, hsort⟩ := pairwise_cons.mp hsort
    obtain ⟨hvb, hvl⟩ := not_or.mp fun h => hv (mem_cons.mpr h)
    rcases Nat.lt_or_gt_of_ne hvb with hlt | hgt
    · refine ⟨[], a, b :: l, rfl, ha, fun q hq => ?_⟩
      rcases mem_cons.mp hq with rfl | hq
      · exact hlt
      · exact lt_trans hlt ((pairwise_cons.mp hsort).1 q hq)
    · obtain ⟨pre, p, post, heq, hp, hpost⟩ := exists_below hsort hgt hvl
      exact ⟨a :: pre, p, post, by rw [heq]; rfl, hp, hpost⟩

section Free
variable {base : Nat} {h : Heap} {ns pre post : List Nat} {live : List Live} {p : Nat} {x : Live}

/-- The loop of `free` ends, at the node behind which the block belongs. -/
theorem search_found (hA : Arena base h ns (x :: live)) : ∃ pre p post, ns = pre ++ p :: post ∧ p < x.1 ∧
    (∀ q ∈ post, x.1 < q) ∧ ∀ n ≥ ns.length, search h.ptr (found h x.1) n h.freep = some p := by
  obtain ⟨l, rfl⟩ := head?_eq_some_iff.mp hA.head
  have hbase : base < x.1 := lt_of_lt_of_le (by simp [sizeofHeader]) (hA.above x (mem_cons_self ..))
  obtain ⟨pre, p, post, heq, hp, hpost⟩ := exists_below (hA.ordered.imp And.left) hbase
    (fun h => hA.not_mem (mem_cons_self ..) (mem_cons_of_mem _ h))
  have hstop : ∃ q ∈ base :: l, found h x.1 q = true :=
    ⟨p, by rw [heq]; simp, ((heq ▸ hA).found_iff).mpr ⟨hp, hpost⟩⟩
  obtain ⟨q, hq, hfound, hsearch⟩ := search_cycle hA.linked hA.freep hstop
  obtain ⟨pre', post', heq'⟩ := append_of_mem hq
  obtain ⟨hlt, hgt⟩ := ((heq' ▸ hA).found_iff).mp hfound
  exact ⟨pre', q, post', heq', hlt, hgt, hsearch⟩

/-- Joining what touches leaves a gap behind `a`. -/
theorem melded {a b : Nat} (hA : Arena base h (pre ++ a :: b :: post) live) (hg : Gaps h (b :: post))
    (hfreep : h.freep ≠ b) :
    ∃ l, Arena base (meld h a b) (pre ++ a :: l) live ∧ Gaps (meld h a b) (a :: l) ∧ l ⊆ b :: post ∧
      h.size a ≤ (meld h a b).size a ∧ ∃ c ∈ a :: l, h.size b ≤ (meld h a b).size c := by
  unfold meld
  split
  next htouch =>
    have hsize : (join h a b).size a = h.size a + h.size b := by simp [join]
    have hadd := hA.toNat_add
    refine ⟨post, hA.joined htouch hfreep, ?_, subset_cons_self .., ?_, a, mem_cons_self .., ?_⟩
    · have hstop := hA.join_stop htouch
      have hne : ∀ c ∈ post, c ≠ a := fun c hc =>
        ne_of_gt ((pairwise_cons.mp (pairwise_append.mp hA.ordered).2.1).1 c (by simp [hc])).1
      cases post with
      | nil => exact isChain_singleton a
      | cons q post =>
        obtain ⟨hbq, hrest⟩ := isChain_cons_cons.mp hg
        exact isChain_cons_cons.mpr ⟨hstop ▸ hbq, Gaps.congr hrest fun c hc => join_size (hne c hc)⟩
    · rw [hsize, UInt32.le_iff_toNat_le, hadd]
      exact Nat.le_add_right ..
    · rw [hsize, UInt32.le_iff_toNat_le, hadd]
      exact Nat.le_add_left ..
  next htouch =>
    refine ⟨b :: post, hA, isChain_cons_cons.mpr ⟨?_, hg⟩, List.Subset.refl _, UInt32.le_refl _, b, by simp,
      UInt32.le_refl _⟩
    have hle := ((pairwise_cons.mp (pairwise_append.mp hA.ordered).2.1).1 b (by simp)).2
    exact lt_of_le_of_ne hle htouch

/-- Nodes that were in the list, or live, are where they were. -/
theorem Within.linked {lo : Nat} {ns' : List Nat} (hW : Within base lo h ns (x :: live)) (hns : ns' ⊆ x.1 :: ns)
    (hfree : h' = link h x.1 p) : Within base lo h' ns' live := by
  refine ⟨fun a ha => ?_, fun y hy => hW.live y (mem_cons_of_mem _ hy), ?_⟩
  · rcases mem_cons.mp (hns ha) with rfl | ha
    · exact .inr (hW.live x (mem_cons_self ..))
    · exact hW.free a ha
  · rw [hfree, link_got, link_brk]
    exact hW.got

theorem nodes_subset {b : Nat} {l l' : List Nat} (hl : l ⊆ post) (hl' : l' ⊆ b :: l) :
    pre ++ p :: l' ⊆ b :: (pre ++ p :: post) := by
  intro a ha
  rcases mem_append.mp ha with ha | ha
  · exact mem_cons_of_mem _ (mem_append_left _ ha)
  rcases mem_cons.mp ha with rfl | ha
  · exact mem_cons_of_mem _ (mem_append_right _ (mem_cons_self ..))
  rcases mem_cons.mp (hl' ha) with rfl | ha
  · exact mem_cons_self ..
  · exact mem_cons_of_mem _ (mem_append_right _ (mem_cons_of_mem _ (hl ha)))

/-- `free` ENDS AND KEEPS THE ARENA, and the block is then part of a free one. -/
theorem free_spec (hA : Arena base h ns (x :: live)) (hg : Gaps h ns) :
    ∃ h', (∀ n ≥ ns.length, free n h (x.1 + sizeofHeader) = some h') ∧
      ∃ ns', Arena base h' ns' live ∧ Gaps h' ns' ∧ (∀ lo, Within base lo h ns (x :: live) → Within base lo h' ns' live) ∧
        ∃ a ∈ ns', h.size x.1 ≤ h'.size a := by
  obtain ⟨pre, p, post, rfl, hp, hpost, hsearch⟩ := search_found hA
  refine ⟨link h x.1 p, fun n hn => ?_, ?_⟩
  · rw [free, Nat.add_sub_cancel, hsearch n hn]
    rfl
  have hbase : base < x.1 := lt_of_lt_of_le (by simp [sizeofHeader]) (hA.above x (mem_cons_self ..))
  have hle := h.le_stop x.1
  have hnext : h.stop x.1 = h.ptr p → h.ptr p ≠ p ∧ h.ptr p ≠ x.1 := by
    have := hA.lt_stop (mem_cons_self ..)
    omega
  have hpp : p ∈ pre ++ p :: post := by simp
  generalize hlink : link h x.1 p = h'
  have hW : ∀ {ns'} lo, ns' ⊆ x.1 :: (pre ++ p :: post) → Within base lo h (pre ++ p :: post) (x :: live) →
      Within base lo h' ns' live := fun lo hns hW => hW.linked hns hlink.symm
  rw [link_eq (ne_of_lt hp) hnext] at hlink
  subst hlink
  obtain ⟨hg₁, hg₂⟩ := isChain_split.mp hg
  have hI := (hA.set_freep hpp).inserted hp hpost
  generalize hh : insert { h with freep := p } x.1 p = h₁ at hI hW ⊢
  have hsize₁ : h₁.size = h.size := by rw [← hh]; rfl
  have hfreep₁ : h₁.freep = p := by rw [← hh]; rfl
  have hstop₁ : h₁.stop = h.stop := by rw [← hh]; rfl
  -- First the block behind: there is none, or it is the next one of the list.
  obtain ⟨l, hA₂, hg₃, hl, hgrow⟩ : ∃ l, Arena base (meld h₁ x.1 (h.ptr p)) (pre ++ p :: x.1 :: l) live ∧
      Gaps (meld h₁ x.1 (h.ptr p)) (x.1 :: l) ∧ l ⊆ post ∧ h.size x.1 ≤ (meld h₁ x.1 (h.ptr p)).size x.1 := by
    have hptr := hA.ptr_eq
    cases post with
    | nil =>
      have hnot : meld h₁ x.1 (h.ptr p) = h₁ := if_neg (by rw [hstop₁, hptr, head?_nil, Option.getD_none]; omega)
      rw [hnot, hsize₁]
      exact ⟨[], hI, isChain_singleton _, List.Subset.refl _, UInt32.le_refl _⟩
    | cons q post =>
      obtain rfl : h.ptr p = q := hptr
      have hI : Arena base h₁ ((pre ++ [p]) ++ x.1 :: h.ptr p :: post) live := by simpa using hI
      have hgq : Gaps h₁ (h.ptr p :: post) :=
        Gaps.congr (isChain_cons_cons.mp hg₂).2 fun c _ => by rw [hsize₁]
      obtain ⟨l, hA₂, hg₃, hl, hgrow, -⟩ := melded hI hgq
        (by rw [hfreep₁]; exact ne_of_lt (lt_trans hp (hpost _ (mem_cons_self ..))))
      exact ⟨l, by simpa using hA₂, hg₃, hl, by rwa [hsize₁] at hgrow⟩
  have hfreep₂ : (meld h₁ x.1 (h.ptr p)).freep ≠ x.1 := by
    rw [meld_freep, hfreep₁]
    exact ne_of_lt hp
  -- Then the block before.
  obtain ⟨l', hA₃, hg₄, hl', -, c, hc, hgrow'⟩ := melded hA₂ hg₃ hfreep₂
  refine ⟨_, hA₃, isChain_split.mpr ⟨?_, hg₄⟩, fun lo => hW lo (nodes_subset hl hl'), c,
    mem_append_right _ hc, UInt32.le_trans hgrow hgrow'⟩
  refine isChain_congr hg₁ fun a ha b hab => ?_
  have hap : a < p := ((pairwise_append.mp hA.ordered).2.2 a ha p (mem_cons_self ..)).1
  rwa [Heap.stop_congr (meld_size (ne_of_lt hap)), Heap.stop_congr (meld_size (ne_of_lt (lt_trans hap hp))),
    hstop₁]

end Free

end Xv6.Umalloc
