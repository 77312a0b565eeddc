import Xv6.Umalloc.Arena

/-! `malloc` keeps the arena, and its loop ends.

    The loop goes round the list once. If no block is large enough it has come back to `freep`, and `morecore`
    adds a block that is: the second time round it is found. -/

namespace Xv6.Umalloc
open Cycle Function List Heap

section Take
variable {base : Nat} {h : Heap} {ns pre post : List Nat} {live : List Live} {p q : Nat} {nunits nbytes : UInt32}

/-- A block leaves the list as a whole. -/
theorem unlinked (hA : Arena base h (pre ++ q :: p :: post) live)
    (hroom : nbytes.toNat + sizeofHeader ≤ sizeofHeader * (h.size p).toNat) :
    Arena base { h.setPtr q (h.ptr p) with freep := q } (pre ++ q :: post) ((p, nbytes) :: live) := by
  have hord := hA.ordered
  rw [pairwise_append, pairwise_cons, pairwise_cons] at hord
  obtain ⟨hpre, ⟨hqpost, hppost, hpost⟩, hpreq⟩ := hord
  have hlink : Linked h.ptr (pre ++ q :: p :: (post ++ [base])) := by simpa using hA.linked
  obtain ⟨hlink₁, hlink₂⟩ := linked_split.mp hlink
  have hsub : ∀ c ∈ pre ++ q :: post, c ∈ pre ++ q :: p :: post := by
    intro c hc
    simp only [mem_append, mem_cons] at hc ⊢
    tauto
  have hp : p ∈ pre ++ q :: p :: post := by simp
  have hbase : p ≠ base := by
    rintro rfl
    rw [hA.base_size] at hroom
    simp [sizeofHeader] at hroom
  obtain ⟨habove, -⟩ := (hA.above_free p hp).resolve_left hbase
  have hne_pre : ∀ c ∈ pre, c ≠ q := fun c hc => ne_of_lt (hpreq c hc q (mem_cons_self ..)).1
  have hne_post : ∀ c ∈ post, c ≠ q := fun c hc => ne_of_gt (hqpost c (mem_cons_of_mem _ hc)).1
  constructor
  case head => exact Arena.head_eq hA.head
  case linked =>
    have hkeep : ∀ c, c ≠ q → (h.setPtr q (h.ptr p)).ptr c = h.ptr c := fun c hc => by simp [update_of_ne hc]
    have hlink' : Linked (h.setPtr q (h.ptr p)).ptr (pre ++ q :: (post ++ [base])) :=
      linked_split.mpr ⟨hlink₁.congr fun c hc => hkeep c (hne_pre c hc),
        (linked_cons_cons.mp hlink₂).2.replace_head (by simp) fun c hc => hkeep c (hne_post c hc)⟩
    simpa using hlink'
  case base_size => exact hA.base_size
  case freep => simp
  case ordered =>
    refine pairwise_append.mpr ⟨hpre, pairwise_cons.mpr ⟨?_, hpost⟩, ?_⟩
    · exact fun c hc => hqpost c (mem_cons_of_mem _ hc)
    · exact fun c hc d hd => hpreq c hc d (by simp only [mem_cons] at hd ⊢; tauto)
  case apart =>
    intro y hy c hc
    rcases mem_cons.mp hy with rfl | hy
    · rcases mem_append.mp hc with hc | hc
      · exact .inr (hpreq c hc p (by simp)).2
      rcases mem_cons.mp hc with rfl | hc
      · exact .inr (hqpost p (by simp)).2
      · exact .inl (hppost c hc).2
    · exact hA.apart y hy c (hsub c hc)
  case live_apart => exact pairwise_cons.mpr ⟨fun y hy => (hA.apart y hy p hp).symm, hA.live_apart⟩
  case room => exact forall_mem_cons.mpr ⟨hroom, hA.room⟩
  case above => exact forall_mem_cons.mpr ⟨habove, hA.above⟩
  case above_free => exact fun c hc => hA.above_free c (hsub c hc)
  case below => exact forall_mem_cons.mpr ⟨hA.below_free p hp, hA.below⟩
  case below_free => exact fun c hc => hA.below_free c (hsub c hc)
  case brk => exact hA.brk
  case total =>
    have htotal := hA.total
    change h.sum _ + h.sum _ = h.got
    simp only [map_cons, sum_append, sum_cons] at htotal ⊢
    omega
  case limit => exact hA.limit

/-- Where the last `nunits` units of the block `p` start. -/
def Heap.cutAt (h : Heap) (p : Nat) (nunits : UInt32) : Nat := (h.setSize p (h.size p - nunits)).stop p

/-- The last `nunits` units of the block `p` as a block of their own. -/
def Heap.cut (h : Heap) (p : Nat) (nunits : UInt32) : Heap :=
  (h.setSize p (h.size p - nunits)).setSize (h.cutAt p nunits) nunits

section Cut
variable (hfit : nunits < h.size p)
include hfit

theorem toNat_sub : (h.size p - nunits).toNat = (h.size p).toNat - nunits.toNat :=
  UInt32.toNat_sub_of_le _ _ (UInt32.le_of_lt hfit)

theorem cutAt_eq : h.cutAt p nunits = p + sizeofHeader * ((h.size p).toNat - nunits.toNat) := by
  rw [cutAt, stop, setSize_size, update_self, toNat_sub hfit]

theorem lt_cutAt : p < h.cutAt p nunits := by
  have hlt := UInt32.lt_iff_toNat_lt.mp hfit
  rw [cutAt_eq hfit]
  simp only [sizeofHeader]
  omega

theorem cut_stop_new : (h.cut p nunits).stop (h.cutAt p nunits) = h.stop p := by
  have hlt := UInt32.lt_iff_toNat_lt.mp hfit
  rw [stop, cut, setSize_size, update_self, cutAt_eq hfit, stop]
  simp only [sizeofHeader]
  omega

theorem cut_size_self : (h.cut p nunits).size p = h.size p - nunits := by
  rw [cut, setSize_size, update_of_ne (ne_of_lt (lt_cutAt hfit)), setSize_size,
    update_self]

theorem cut_stop_self : (h.cut p nunits).stop p = h.cutAt p nunits := by
  rw [stop, cut_size_self hfit, toNat_sub hfit, cutAt_eq hfit]

theorem cutAt_lt_stop (hpos : 0 < nunits.toNat) : h.cutAt p nunits < h.stop p := by
  have hlt := UInt32.lt_iff_toNat_lt.mp hfit
  rw [cutAt_eq hfit, stop]
  simp only [sizeofHeader]
  omega

theorem cut_size {c : Nat} (hc : c < p ∨ h.stop p ≤ c) (hpos : 0 < nunits.toNat) : (h.cut p nunits).size c = h.size c := by
  have hlt := lt_cutAt hfit
  have hnew := cutAt_lt_stop hfit hpos
  rw [cut, setSize_size, update_of_ne (by omega), setSize_size, update_of_ne (by omega)]

/-- The other free blocks keep their sizes. -/
theorem cut_cases (hA : Arena base h ns live) (hp : p ∈ ns) (hpos : 0 < nunits.toNat) :
    ∀ c ∈ ns, c = p ∨ (h.cut p nunits).size c = h.size c := by
  obtain ⟨pre, post, rfl⟩ := append_of_mem hp
  have hord := hA.ordered
  rw [pairwise_append, pairwise_cons] at hord
  intro c hc
  rcases mem_append.mp hc with hc | hc
  · exact .inr (cut_size hfit (.inl (hord.2.2 c hc p (mem_cons_self ..)).1) hpos)
  rcases mem_cons.mp hc with rfl | hc
  · exact .inl rfl
  · exact .inr (cut_size hfit (.inr (hord.2.1.1 c hc).2) hpos)

end Cut

/-- The end of a block leaves the list. -/
theorem cut_arena (hA : Arena base h ns live) (hp : p ∈ ns) (hfit : nunits < h.size p)
    (hroom : nbytes.toNat + sizeofHeader ≤ sizeofHeader * nunits.toNat) :
    Arena base (h.cut p nunits) ns ((h.cutAt p nunits, nbytes) :: live) := by
  have hpos : 0 < nunits.toNat := by simp only [sizeofHeader] at hroom; omega
  have hlt := UInt32.lt_iff_toNat_lt.mp hfit
  have hlt_cut := lt_cutAt hfit
  have hstop_new := cut_stop_new hfit
  have hstop_self := cut_stop_self hfit
  have hle_stop := (h.cut p nunits).le_stop (h.cutAt p nunits)
  have hbase : p ≠ base := by
    rintro rfl
    rw [hA.base_size] at hlt
    exact Nat.not_lt_zero _ hlt
  obtain ⟨habove, -⟩ := (hA.above_free p hp).resolve_left hbase
  obtain ⟨pre, post, rfl⟩ := append_of_mem hp
  have hord := hA.ordered
  rw [pairwise_append, pairwise_cons] at hord
  obtain ⟨hpre, ⟨hppost, hpost⟩, hprep⟩ := hord
  have hsize_pre : ∀ c ∈ pre, (h.cut p nunits).size c = h.size c := fun c hc =>
    cut_size hfit (.inl (hprep c hc p (mem_cons_self ..)).1) hpos
  have hsize_post : ∀ c ∈ post, (h.cut p nunits).size c = h.size c := fun c hc =>
    cut_size hfit (.inr (hppost c hc).2) hpos
  have hsize_live : ∀ y ∈ live, (h.cut p nunits).size y.1 = h.size y.1 := by
    intro y hy
    have hy' := hA.lt_stop hy
    refine cut_size hfit ?_ hpos
    rcases hA.apart y hy p hp with hle | hle
    · exact .inl (by omega)
    · exact .inr hle
  have hcases := cut_cases hfit hA hp hpos
  constructor
  case head => exact hA.head
  case linked => exact hA.linked
  case base_size => exact ((hcases base hA.base_mem).resolve_left hbase.symm).trans hA.base_size
  case freep => exact hA.freep
  case ordered =>
    refine pairwise_append.mpr ⟨?_, pairwise_cons.mpr ⟨?_, ?_⟩, ?_⟩
    · exact hpre.imp_of_mem fun {c d} hc _ hcd => by rwa [stop_congr (hsize_pre c hc)]
    · intro c hc
      have := hppost c hc
      exact ⟨this.1, by rw [hstop_self]; omega⟩
    · exact hpost.imp_of_mem fun {c d} hc _ hcd => by rwa [stop_congr (hsize_post c hc)]
    · intro c hc d hd
      rw [stop_congr (hsize_pre c hc)]
      exact hprep c hc d hd
  case apart =>
    refine forall_mem_cons.mpr ⟨fun c hc => ?_, fun y hy c hc => ?_⟩
    · rw [hstop_new]
      rcases mem_append.mp hc with hc | hc
      · rw [stop_congr (hsize_pre c hc)]
        exact .inr (le_trans (hprep c hc p (mem_cons_self ..)).2 (le_of_lt hlt_cut))
      rcases mem_cons.mp hc with rfl | hc
      · exact .inr (le_of_eq hstop_self)
      · exact .inl (hppost c hc).2
    · have hold := hA.apart y hy
      rw [stop_congr (hsize_live y hy)]
      rcases hcases c hc with rfl | hsame
      · have := hold c hp
        rw [hstop_self]
        omega
      · rw [stop_congr hsame]
        exact hold c hc
  case live_apart =>
    refine pairwise_cons.mpr ⟨fun y hy => ?_, ?_⟩
    · rw [hstop_new, stop_congr (hsize_live y hy)]
      have := hA.apart y hy p hp
      omega
    · exact hA.live_apart.imp_of_mem fun {y z} hy hz hyz => by
        rwa [stop_congr (hsize_live y hy), stop_congr (hsize_live z hz)]
  case room =>
    refine forall_mem_cons.mpr ⟨?_, fun y hy => ?_⟩
    · rw [cut, setSize_size, update_self]
      exact hroom
    · rw [hsize_live y hy]
      exact hA.room y hy
  case above => exact forall_mem_cons.mpr ⟨le_trans habove (le_of_lt hlt_cut), hA.above⟩
  case above_free =>
    intro c hc
    rcases hcases c hc with rfl | hsame
    · exact .inr ⟨habove, by rwa [hstop_self]⟩
    · rw [stop_congr hsame]
      exact hA.above_free c hc
  case below =>
    refine forall_mem_cons.mpr ⟨?_, fun y hy => ?_⟩
    · rw [hstop_new]
      exact hA.below_free p hp
    · rw [stop_congr (hsize_live y hy)]
      exact hA.below y hy
  case below_free =>
    intro c hc
    have hold := hA.below_free c hc
    rcases hcases c hc with rfl | hsame
    · rw [hstop_self]
      exact le_trans (by omega) hold
    · rwa [stop_congr hsame]
  case brk => exact hA.brk
  case total =>
    have htotal := hA.total
    have hsum_live : (h.cut p nunits).sum (live.map Prod.fst) = h.sum (live.map Prod.fst) := by
      refine sum_congr fun c hc => ?_
      obtain ⟨y, hy, rfl⟩ := mem_map.mp hc
      exact hsize_live y hy
    have hnew : (h.cut p nunits).size (h.cutAt p nunits) = nunits := by
      rw [cut, setSize_size, update_self]
    change (h.cut p nunits).sum _ + (h.cut p nunits).sum _ = h.got
    simp only [map_cons, sum_append, sum_cons] at htotal ⊢
    rw [sum_congr hsize_pre, sum_congr hsize_post, hsum_live, cut_size_self hfit, toNat_sub hfit, hnew]
    omega
  case limit => exact hA.limit

/-- TAKE: what `malloc` returns heads a live block, and the rest of the arena is as before. -/
theorem take_spec (hA : Arena base h ns live) (hg : Gaps h ns) (hq : q ∈ ns) (hfit : nunits ≤ h.size (h.ptr q))
    (hroom : nbytes.toNat + sizeofHeader ≤ sizeofHeader * nunits.toNat) :
    ∃ ns', Arena base (take h nunits q (h.ptr q)).1 ns' (((take h nunits q (h.ptr q)).2 - sizeofHeader, nbytes) :: live) ∧
      Gaps (take h nunits q (h.ptr q)).1 ns' ∧ (take h nunits q (h.ptr q)).2 ≠ 0 ∧ ∀ lo, Within base lo h ns live →
        Within base lo (take h nunits q (h.ptr q)).1 ns' (((take h nunits q (h.ptr q)).2 - sizeofHeader, nbytes) :: live) := by
  have hpos : 0 < nunits.toNat := by simp only [sizeofHeader] at hroom; omega
  obtain ⟨pre, post, rfl⟩ := append_of_mem hq
  have hptr := hA.ptr_eq
  obtain ⟨p, post, rfl⟩ : ∃ p post', post = p :: post' := by
    cases post with
    | nil =>
      rw [hptr, head?_nil, Option.getD_none, hA.base_size, UInt32.le_iff_toNat_le] at hfit
      exact absurd hfit (Nat.not_le_of_lt hpos)
    | cons p post => exact ⟨p, post, rfl⟩
  obtain rfl : h.ptr q = p := hptr
  obtain ⟨hg₁, hg₂⟩ := isChain_split.mp hg
  obtain ⟨hqp, hg₃⟩ := isChain_cons_cons.mp hg₂
  -- A block from which units can be taken is not `base`.
  have habove : ∀ {lo}, Within base lo h (pre ++ q :: h.ptr q :: post) live → lo ≤ h.ptr q := fun hW => by
    refine (hW.free (h.ptr q) (by simp)).resolve_left fun hbase => ?_
    rw [hbase, hA.base_size, UInt32.le_iff_toNat_le] at hfit
    exact absurd hfit (Nat.not_le_of_lt hpos)
  unfold take
  split
  next heq =>
    refine ⟨pre ++ q :: post, unlinked hA (heq ▸ hroom), isChain_split.mpr ⟨hg₁, ?_⟩, by simp [sizeofHeader],
      fun lo hW => ⟨fun c hc => hW.free c ?_, forall_mem_cons.mpr ⟨habove hW, hW.live⟩, hW.got⟩⟩
    · cases post with
      | nil => exact isChain_singleton q
      | cons r post =>
        obtain ⟨hpr, hg₄⟩ := isChain_cons_cons.mp hg₃
        exact isChain_cons_cons.mpr ⟨lt_trans hqp (lt_of_le_of_lt (h.le_stop _) hpr), hg₄⟩
    · simp only [mem_append, mem_cons] at hc ⊢
      tauto
  next hne =>
    have hlt : nunits < h.size (h.ptr q) := UInt32.lt_of_le_of_ne hfit (Ne.symm hne)
    have hcut := cut_arena hA (p := h.ptr q) (by simp) hlt hroom
    refine ⟨pre ++ q :: h.ptr q :: post, hcut.set_freep hq, ?_, by simp [sizeofHeader],
      fun lo hW => ⟨hW.free, forall_mem_cons.mpr ⟨(habove hW).trans (le_of_lt (lt_cutAt hlt)), hW.live⟩, hW.got⟩⟩
    -- Only the block that was cut has become shorter.
    refine IsChain.imp_of_mem_imp (fun c d hc _ hcd => lt_of_le_of_lt ?_ hcd) hg
    change (h.cut (h.ptr q) nunits).stop c ≤ h.stop c
    rcases cut_cases hlt hA (by simp) hpos c hc with rfl | hsame
    · rw [cut_stop_self hlt]
      exact le_of_lt (cutAt_lt_stop hlt hpos)
    · rw [stop_congr hsame]

end Take

/-! ### `morecore` -/

section Morecore
variable {base : Nat} {sbrk : Heap → Nat → Option Nat} {h : Heap} {ns : List Nat} {live : List Live} {gap : Nat} {nu : UInt32}

/-- The heap with a new block of `nu` units, `gap` bytes above the old end. -/
def Heap.more (h : Heap) (gap : Nat) (nu : UInt32) : Heap := (h.grow (h.brk + gap) nu).setSize (h.brk + gap) nu

/-- The new block is not one of the list. -/
theorem more_size (hA : Arena base h ns live) : ∀ c ∈ ns, (h.more gap nu).size c = h.size c := by
  intro c hc
  refine update_of_ne ?_ ..
  have hbelow := hA.below_free c hc
  have hbrk := hA.brk
  rcases hA.above_free c hc with rfl | ⟨-, hlt⟩
  · simp only [sizeofHeader] at hbrk
    omega
  · omega

/-- New memory from `sbrk` is a block that nobody has asked for yet. -/
theorem grown (hA : Arena base h ns live) (hnu : 0 < nu.toNat) (hlimit : h.got + nu.toNat < 2 ^ 32) :
    Arena base (h.more gap nu) ns ((h.brk + gap, 0) :: live) := by
  have hbrk := hA.brk
  have hsize_free : ∀ c ∈ ns, (h.more gap nu).size c = h.size c := more_size hA
  have hsize_live : ∀ y ∈ live, (h.more gap nu).size y.1 = h.size y.1 := by
    intro y hy
    have hbelow := hA.below y hy
    have hlt := hA.lt_stop hy
    exact update_of_ne (by omega) ..
  have hsize_new : (h.more gap nu).size (h.brk + gap) = nu := update_self ..
  generalize hh : h.more gap nu = h' at hsize_free hsize_live hsize_new
  have hptr : h'.ptr = h.ptr := by rw [← hh]; rfl
  have hfreep : h'.freep = h.freep := by rw [← hh]; rfl
  have hbrk' : h'.brk = h'.stop (h.brk + gap) := by
    rw [stop, hsize_new, ← hh, mul_comm]
    rfl
  have hgot : h'.got = h.got + nu.toNat := by rw [← hh]; rfl
  have hle := h'.le_stop (h.brk + gap)
  have hstop_free : ∀ c ∈ ns, h'.stop c = h.stop c := fun c hc => stop_congr (hsize_free c hc)
  have hstop_live : ∀ y ∈ live, h'.stop y.1 = h.stop y.1 := fun y hy => stop_congr (hsize_live y hy)
  constructor
  case head => exact hA.head
  case linked => rw [hptr]; exact hA.linked
  case base_size => rw [hsize_free base hA.base_mem, hA.base_size]
  case freep => rw [hfreep]; exact hA.freep
  case ordered => exact hA.ordered.imp_of_mem fun {c d} hc _ hcd => by rwa [hstop_free c hc]
  case apart =>
    refine forall_mem_cons.mpr ⟨fun c hc => ?_, fun y hy c hc => ?_⟩
    · rw [hstop_free c hc]
      exact .inr (Nat.le_trans (hA.below_free c hc) (Nat.le_add_right ..))
    · rw [hstop_live y hy, hstop_free c hc]
      exact hA.apart y hy c hc
  case live_apart =>
    refine pairwise_cons.mpr ⟨fun y hy => ?_, ?_⟩
    · rw [hstop_live y hy]
      exact .inr (Nat.le_trans (hA.below y hy) (Nat.le_add_right ..))
    · exact hA.live_apart.imp_of_mem fun {y z} hy hz hyz => by rwa [hstop_live y hy, hstop_live z hz]
  case room =>
    refine forall_mem_cons.mpr ⟨?_, fun y hy => ?_⟩
    · rw [hsize_new]
      simp only [sizeofHeader, UInt32.toNat_zero]
      omega
    · rw [hsize_live y hy]
      exact hA.room y hy
  case above => exact forall_mem_cons.mpr ⟨Nat.le_trans hA.brk (Nat.le_add_right ..), hA.above⟩
  case above_free => exact fun c hc => by rw [hstop_free c hc]; exact hA.above_free c hc
  case below =>
    refine forall_mem_cons.mpr ⟨le_of_eq hbrk'.symm, fun y hy => ?_⟩
    rw [hstop_live y hy]
    have := hA.below y hy
    omega
  case below_free =>
    intro c hc
    rw [hstop_free c hc]
    have := hA.below_free c hc
    omega
  case brk => omega
  case total =>
    have htotal := hA.total
    have hsum_live : h'.sum (live.map Prod.fst) = h.sum (live.map Prod.fst) := by
      refine sum_congr fun c hc => ?_
      obtain ⟨y, hy, rfl⟩ := mem_map.mp hc
      exact hsize_live y hy
    rw [sum_congr hsize_free, map_cons, sum_cons, hsum_live, hsize_new, hgot]
    omega
  case limit => rw [hgot]; exact hlimit

theorem Within.grown {lo : Nat} (hW : Within base lo h ns live) (gap : Nat) (nu : UInt32) :
    Within base lo (h.more gap nu) ns ((h.brk + gap, 0) :: live) := by
  have hgot := hW.got
  refine ⟨hW.free, forall_mem_cons.mpr ⟨by change lo ≤ h.brk + gap; omega, hW.live⟩, ?_⟩
  change lo + sizeofHeader * (h.got + nu.toNat) ≤ h.brk + gap + nu.toNat * sizeofHeader
  rw [mul_add, mul_comm nu.toNat]
  omega

/-- What `morecore` asks for. -/
def asked (nu : UInt32) : UInt32 := if nu < 4096 then 4096 else nu

theorem le_asked (nu : UInt32) : nu ≤ asked nu := by
  unfold asked
  split
  next hlt => exact UInt32.le_of_lt hlt
  next => exact UInt32.le_refl nu

/-- `morecore` ENDS: it fails and changes nothing, or there is then a block that is large enough. -/
theorem morecore_spec (hA : Arena base h ns live) (hg : Gaps h ns) (hnu : 0 < nu.toNat)
    (hlimit : ∀ gap, sbrk h ((asked nu).toNat * sizeofHeader) = some gap → h.got + (asked nu).toNat < 2 ^ 32) :
    (∀ n, morecore sbrk n h nu = some ({ h with calls := h.calls + 1 }, 0)) ∨
    ∃ h' ns', (∀ n ≥ ns.length, morecore sbrk n h nu = some (h', h'.freep)) ∧ Arena base h' ns' live ∧ Gaps h' ns' ∧
      (∀ lo, Within base lo h ns live → Within base lo h' ns' live) ∧ ∃ a ∈ ns', nu ≤ h'.size a := by
  have hle := le_asked nu
  have heq : ∀ n, morecore sbrk n h nu =
      (sbrk h ((asked nu).toNat * sizeofHeader)).elim (some ({ h with calls := h.calls + 1 }, 0)) fun gap =>
        (free n (h.more gap (asked nu)) (h.brk + gap + sizeofHeader)).map fun h => (h, h.freep) := fun n => by
    rw [morecore, asked]
    cases sbrk h ((if nu < 4096 then 4096 else nu).toNat * sizeofHeader) <;> rfl
  cases hsbrk : sbrk h ((asked nu).toNat * sizeofHeader) with
  | none =>
    refine .inl fun n => ?_
    rw [heq, hsbrk, Option.elim_none]
  | some gap =>
    have hpos : 0 < (asked nu).toNat := lt_of_lt_of_le hnu (UInt32.le_iff_toNat_le.mp hle)
    have hgrown : Arena base (h.more gap (asked nu)) ns ((h.brk + gap, 0) :: live) := grown hA hpos (hlimit gap hsbrk)
    obtain ⟨h', hfree, ns', hA', hg', hW', a, ha, hsize⟩ := free_spec hgrown (hg.congr (more_size hA))
    refine .inr ⟨h', ns', fun n hn => ?_, hA', hg', fun lo hW => hW' lo (hW.grown gap _), a, ha, UInt32.le_trans hle ?_⟩
    · rw [heq, hsbrk]
      exact congrArg (Option.map _) (hfree n hn)
    · rwa [show (h.more gap (asked nu)).size (h.brk + gap) = asked nu from update_self ..] at hsize

end Morecore

/-! ### The loop -/

section Loop
variable {base : Nat} {sbrk : Heap → Nat → Option Nat} {h : Heap} {ns : List Nat} {live : List Live}
  {nunits nbytes : UInt32}

theorem mallocLoop_next {prevp p : Nat} (hfit : ¬ nunits ≤ h.size p) (hp : p ≠ h.freep) (n : Nat) :
    mallocLoop sbrk nunits (n + 1) h prevp p = mallocLoop sbrk nunits n h p (h.ptr p) := by
  rw [mallocLoop, if_neg hfit, if_neg hp]

theorem mallocLoop_more {prevp p n : Nat} {h' : Heap} (hfit : ¬ nunits ≤ h.size h.freep)
    (hmore : morecore sbrk n h nunits = some (h', p)) (hp : p ≠ 0) :
    mallocLoop sbrk nunits (n + 1) h prevp h.freep = mallocLoop sbrk nunits n h' p (h'.ptr p) := by
  obtain ⟨k, rfl⟩ := Nat.exists_eq_succ_of_ne_zero hp
  rw [mallocLoop, if_neg hfit, if_pos rfl, hmore]
  rfl

/-- The loop goes on from `q` until it finds a block that is large enough, or is back at `freep`. -/
theorem mallocLoop_walk {q : Nat} {l : List Nat} (hlink : Linked h.ptr (q :: (l ++ [h.freep]))) (hl : h.freep ∉ l) :
    (∃ prevp ∈ q :: l, nunits ≤ h.size (h.ptr prevp) ∧ ∃ k ≤ l.length, ∀ n,
      mallocLoop sbrk nunits (n + k) h q (h.ptr q) = mallocLoop sbrk nunits n h prevp (h.ptr prevp)) ∨
    (∀ c ∈ l ++ [h.freep], ¬ nunits ≤ h.size c) ∧ ∃ prevp, ∀ n,
      mallocLoop sbrk nunits (n + l.length) h q (h.ptr q) = mallocLoop sbrk nunits n h prevp h.freep := by
  induction l generalizing q with
  | nil =>
    have hq : h.ptr q = h.freep := linked_pair.mp hlink
    by_cases hfit : nunits ≤ h.size (h.ptr q)
    · exact .inl ⟨q, mem_cons_self .., hfit, 0, le_refl 0, fun n => rfl⟩
    · rw [hq] at hfit
      exact .inr ⟨fun c hc => by rwa [mem_singleton.mp hc], q, fun n => by rw [hq]; rfl⟩
  | cons c l ih =>
    obtain ⟨hq, hrest⟩ := linked_cons_cons.mp hlink
    obtain ⟨hc, hl⟩ := not_or.mp fun h => hl (mem_cons.mpr h)
    by_cases hfit : nunits ≤ h.size c
    · exact .inl ⟨q, mem_cons_self .., by rwa [hq], 0, Nat.zero_le _, fun n => rfl⟩
    · rcases ih hrest hl with ⟨prevp, hprev, hfit', k, hk, hloop⟩ | ⟨hno, prevp, hloop⟩
      · refine .inl ⟨prevp, mem_cons_of_mem _ hprev, hfit', k + 1, Nat.succ_le_succ hk, fun n => ?_⟩
        rw [hq, ← add_assoc, mallocLoop_next hfit (Ne.symm hc), hloop]
      · refine .inr ⟨forall_mem_cons.mpr ⟨hfit, hno⟩, prevp, fun n => ?_⟩
        rw [hq, length_cons, ← add_assoc, mallocLoop_next hfit (Ne.symm hc), hloop]

/-- Once round the list. -/
theorem mallocLoop_round (hA : Arena base h ns live) :
    (∃ prevp ∈ ns, nunits ≤ h.size (h.ptr prevp) ∧ ∀ n ≥ ns.length,
      mallocLoop sbrk nunits n h h.freep (h.ptr h.freep) = some (take h nunits prevp (h.ptr prevp))) ∨
    (∀ c ∈ ns, ¬ nunits ≤ h.size c) ∧ ∃ prevp, ∀ n,
      mallocLoop sbrk nunits (n + ns.length) h h.freep (h.ptr h.freep) = mallocLoop sbrk nunits (n + 1) h prevp h.freep := by
  obtain ⟨l, rfl⟩ := head?_eq_some_iff.mp hA.head
  obtain ⟨l', hperm, hlink⟩ := exists_rotation hA.linked hA.freep
  have hlen : l'.length + 1 = (base :: l).length := hperm.length_eq
  have hnodup : (h.freep :: l').Nodup := hperm.nodup_iff.mpr (hA.ordered.imp fun hab => ne_of_lt hab.1)
  rcases mallocLoop_walk hlink (nodup_cons.mp hnodup).1 with ⟨prevp, hprev, hfit, k, hk, hloop⟩ | ⟨hno, prevp, hloop⟩
  · refine .inl ⟨prevp, hperm.mem_iff.mp hprev, hfit, fun n hn => ?_⟩
    obtain ⟨m, rfl⟩ : ∃ m, n = m + 1 + k := ⟨n - 1 - k, by omega⟩
    rw [hloop, mallocLoop, if_pos hfit]
  · refine .inr ⟨fun c hc => hno c ?_, prevp, fun n => ?_⟩
    · have hc := hperm.mem_iff.mpr hc
      simp only [mem_append, mem_cons, not_mem_nil, or_false] at hc ⊢
      exact hc.symm
    · rw [← hlen, ← hloop (n + 1)]
      congr 1
      omega

/-- After a call of `malloc` with result `r`, the arena is in order. -/
def Kept (base : Nat) (nbytes : UInt32) (h : Heap) (ns : List Nat) (live : List Live) (r : Heap × Nat) : Prop :=
  ∃ ns', Arena base r.1 ns' (if r.2 = 0 then live else (r.2 - sizeofHeader, nbytes) :: live) ∧ Gaps r.1 ns' ∧
    ∀ lo, Within base lo h ns live →
      Within base lo r.1 ns' (if r.2 = 0 then live else (r.2 - sizeofHeader, nbytes) :: live)

/-- THE LOOP OF `malloc` ENDS: there is no memory and nothing changes, or it returns a block of the arena. -/
theorem mallocLoop_spec (hA : Arena base h ns live) (hg : Gaps h ns) (hbase : 0 < base)
    (hroom : nbytes.toNat + sizeofHeader ≤ sizeofHeader * nunits.toNat)
    (hlimit : ∀ gap, sbrk h ((asked nunits).toNat * sizeofHeader) = some gap → h.got + (asked nunits).toNat < 2 ^ 32) :
    ∃ r m, (∀ n ≥ m, mallocLoop sbrk nunits n h h.freep (h.ptr h.freep) = some r) ∧
      Kept base nbytes h ns live r := by
  have hpos : 0 < nunits.toNat := by simp only [sizeofHeader] at hroom; omega
  have htake : ∀ {h' : Heap} {ns' : List Nat} {prevp : Nat}, Arena base h' ns' live → Gaps h' ns' → prevp ∈ ns' →
      nunits ≤ h'.size (h'.ptr prevp) → Kept base nbytes h' ns' live (take h' nunits prevp (h'.ptr prevp)) := by
    intro h' ns' prevp hA' hg' hprev hfit
    obtain ⟨ns'', hA'', hg'', hne, hW⟩ := take_spec hA' hg' hprev hfit hroom
    exact ⟨ns'', by rwa [if_neg hne], hg'', fun lo h' => by rw [if_neg hne]; exact hW lo h'⟩
  rcases mallocLoop_round hA with ⟨prevp, hprev, hfit, hloop⟩ | ⟨hno, prevp, hloop⟩
  · exact ⟨_, ns.length, hloop, htake hA hg hprev hfit⟩
  -- No block is large enough: ask for more.
  have hmore : ∀ n ≥ ns.length, mallocLoop sbrk nunits n h h.freep (h.ptr h.freep) =
      mallocLoop sbrk nunits (n - ns.length + 1) h prevp h.freep := by
    intro n hn
    rw [← hloop, Nat.sub_add_cancel hn]
  have hnofit := hno _ hA.freep
  rcases morecore_spec hA hg hpos hlimit with hfail | ⟨h', ns', hmorecore, hA', hg', hW', a, ha, hsize⟩
  · refine ⟨({ h with calls := h.calls + 1 }, 0), ns.length, fun n hn => ?_, ns, ?_, hg, fun lo hW => ?_⟩
    · rw [hmore n hn, mallocLoop, if_neg hnofit, if_pos rfl, hfail]
      rfl
    · rw [if_pos rfl]
      exact { hA with }
    · rw [if_pos rfl]
      exact { hW with }
  · have hne : h'.freep ≠ 0 := ne_of_gt (lt_of_lt_of_le hbase (hA'.base_le hA'.freep))
    rcases mallocLoop_round hA' with ⟨prevp', hprev', hfit', hloop'⟩ | ⟨hno', -⟩
    · obtain ⟨ns'', hA'', hg'', hW''⟩ := htake hA' hg' hprev' hfit'
      refine ⟨_, ns.length + (ns.length + ns'.length), fun n hn => ?_, ns'', hA'', hg'', fun lo hW => hW'' lo (hW' lo hW)⟩
      rw [hmore n (by omega), mallocLoop_more hnofit (hmorecore _ (by omega)) hne, hloop' _ (by omega)]
    · exact absurd hsize (hno' a ha)

end Loop

end Xv6.Umalloc
