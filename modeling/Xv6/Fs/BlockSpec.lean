import Xv6.Fs.Rules
import Xv6.Fs.Blocks

/-! What the code of the block and inode layers does to a disk whose books balance.

    The code here runs with inode `i` locked in table entry `k` and changes block contents and the copy
    in that entry, nothing else; `St.put` names such a state. `Grow` is what `bmap` does to the inode: it
    may gain blocks, it never loses or moves one, and no other inode notices. -/

namespace Xv6.Fs
open Prog hiding wp_bind wp_pure wp_when wp_mono
open Ctx Bytes Function

/-- The state with block contents `c` and `m` as the inode copy in entry `k`. -/
def St.put (s : St) (k : Slot) (c : Nat → Block) (m : Dinode) : St :=
  { s with cache := c, node := update s.node k m }

section Put
variable {s : St} {k : Slot} {c c' : Nat → Block} {m m' : Dinode}

@[simp] theorem St.put_cache : (s.put k c m).cache = c := rfl
@[simp] theorem St.put_node : (s.put k c m).node k = m := update_self ..
@[simp] theorem St.put_inum : (s.put k c m).inum = s.inum := rfl
@[simp] theorem St.put_put : (s.put k c m).put k c' m' = s.put k c' m' := by
  simp [St.put]

theorem St.put_self (h : s.node k = m) : s.put k s.cache m = s := by
  simp [St.put, ← h]

end Put

variable {sb : Super} {Γ : Ctx} [Γ.Writes] {s : St} {D : Nat → Dinode} {i : Nat} {k : Slot}

/-! ### The allocator -/

@[simp] theorem wp_bzero {n : Nat} {U : Unit → St → Prop} :
    Γ.wp (bzero n) s U ↔ (¬Γ.skip n → U () { s with cache := update s.cache n zeroBlock }) := by
  simp [bzero]

theorem findFree_some {blk : Block} : ∀ {n bi r : Nat}, findFree blk bi n = some r →
    bi ≤ r ∧ r < bi + n ∧ bitSet blk r = false
  | 0, _, _, h => by simp [findFree] at h
  | n + 1, bi, r, h => by
    rw [findFree] at h
    split at h
    · obtain ⟨hle, hlt, hbit⟩ := findFree_some h
      exact ⟨by omega, by omega, hbit⟩
    · obtain rfl : bi = r := Option.some.inj h
      exact ⟨le_refl _, by omega, Bool.eq_false_iff.mpr ‹_›⟩

theorem BBLOCK_add (sb : Super) {b bi : Nat} (hb : b % BPB = 0) (hbi : bi < BPB) :
    sb.BBLOCK (b + bi) = sb.BBLOCK b ∧ (b + bi) % BPB = bi := by
  obtain ⟨q, rfl⟩ := Nat.dvd_of_mod_eq_zero hb
  have hpos : 0 < BPB := by decide
  refine ⟨?_, by rw [Nat.mul_add_mod, Nat.mod_eq_of_lt hbi]⟩
  rw [Super.BBLOCK, Super.BBLOCK, Nat.mul_add_div hpos, Nat.div_eq_of_lt hbi, add_zero,
    Nat.mul_div_cancel_left _ hpos]

variable {Q : Nat → St → Prop}

theorem ballocFrom_wp (hB : Books sb s.cache D) (hfail : Q 0 s)
    (hgot : ∀ b, sb.Data b → bit sb s.cache b = false → ¬Γ.skip b → Q b { s with cache := grab sb s.cache b }) :
    ∀ {n b : Nat}, b % BPB = 0 → Γ.wp (ballocFrom sb b n) s Q
  | 0, _, _ => hfail
  | n + 1, b, hb => by
    rw [ballocFrom, wp_ite]
    refine ⟨fun _ => ?_, fun _ => hfail⟩
    simp only [wp_bind, wp_bread]
    cases hf : findFree (s.cache (sb.BBLOCK b)) 0 (min BPB (sb.size - b)) with
    | none =>
      simp only [wp_bind, wp_brelse]
      exact ballocFrom_wp hB hfail hgot (by rw [Nat.add_mod_right, hb])
    | some bi =>
      obtain ⟨_, hlt, hbit⟩ := findFree_some hf
      obtain ⟨hblk, hmod⟩ := BBLOCK_add sb hb (show bi < BPB by omega)
      have hfree : bit sb s.cache (b + bi) = false := by rw [bit, hblk, hmod]; exact hbit
      have hput : update s.cache (sb.BBLOCK b) (raiseBit (s.cache (sb.BBLOCK b)) bi)
          = putBit sb s.cache (b + bi) true := by
        rw [putBit, hblk, hmod]; rfl
      simp only [wp_bind, wp_bmod, wp_logWrite, wp_brelse, wp_bzero, wp_pure, hput]
      exact hgot _ (hB.free_data (by omega) hfree) hfree

/-- `balloc` returns 0, or a block that was free, now zeroed and marked. -/
theorem balloc_wp (hB : Books sb s.cache D) (hfail : Q 0 s)
    (hgot : ∀ b, sb.Data b → bit sb s.cache b = false → ¬Γ.skip b → Q b { s with cache := grab sb s.cache b }) :
    Γ.wp (balloc sb) s Q :=
  ballocFrom_wp hB hfail hgot (Nat.zero_mod _)

theorem wp_bfree {b : Nat} {U : Unit → St → Prop} (hb : bit sb s.cache b = true) :
    Γ.wp (bfree sb b) s U ↔ U () { s with cache := putBit sb s.cache b false } := by
  rw [bit] at hb
  simp [bfree, hb, putBit]

/-! ### The lowest free block -/

section Lowest
variable {s : St} {me : Pid} {blk : Block} {a b bi n r : Nat}

theorem findFree_eq (hle : bi ≤ r) (hlt : r < bi + n) (hfree : bitSet blk r = false)
    (hset : ∀ x, bi ≤ x → x < r → bitSet blk x = true) : findFree blk bi n = some r := by
  induction n generalizing bi with
  | zero => omega
  | succ n ih =>
    rw [findFree]
    rcases hle.eq_or_lt with rfl | hlt'
    · rw [hfree]; rfl
    · rw [if_pos (hset bi le_rfl hlt')]
      exact ih hlt' (by omega) fun x hx => hset x (by omega)

theorem findFree_none (hset : ∀ x, bi ≤ x → x < bi + n → bitSet blk x = true) : findFree blk bi n = none := by
  cases hf : findFree blk bi n with
  | none => rfl
  | some r =>
    obtain ⟨hle, hlt, hfree⟩ := findFree_some hf
    rw [hset r hle hlt] at hfree
    cases hfree

theorem run_bread {α : Type} (f : Block → FsM α) : run (St.step me) (bread a >>= f) s = run (St.step me) (f (s.cache a)) s := rfl

/-- What is on the way to the first free block: a free-map block without a clear bit. -/
theorem ballocFrom_full (hb : b % BPB = 0) (hlt : b < sb.size)
    (hset : ∀ x, b ≤ x → x < b + BPB → x < sb.size → bit sb s.cache x = true) :
    run (St.step me) (ballocFrom sb b (n + 1)) s = run (St.step me) (ballocFrom sb (b + BPB) n) s := by
  have hnone : findFree (s.cache (sb.BBLOCK b)) 0 (min BPB (sb.size - b)) = none :=
    findFree_none fun x _ hx => by
      obtain ⟨hblk, hmod⟩ := BBLOCK_add sb hb (show x < BPB by omega)
      have := hset (b + x) (by omega) (by omega) (by omega)
      rwa [bit, hblk, hmod] at this
  rw [ballocFrom, if_pos hlt, run_bread, hnone]
  rfl

theorem ballocFrom_first (hb : b % BPB = 0) (hle : b ≤ a) (ha : a < sb.size) (hfree : bit sb s.cache a = false)
    (hset : ∀ x, b ≤ x → x < a → bit sb s.cache x = true) (hn : a < b + n * BPB) :
    run (St.step me) (ballocFrom sb b n) s = .done (a, { s with cache := grab sb s.cache a }) := by
  induction n generalizing b with
  | zero => omega
  | succ n ih =>
    by_cases hin : a < b + BPB
    · obtain ⟨hblk, hmod⟩ := BBLOCK_add sb hb (show a - b < BPB by omega)
      rw [Nat.add_sub_cancel' hle] at hblk hmod
      have hsome : findFree (s.cache (sb.BBLOCK b)) 0 (min BPB (sb.size - b)) = some (a - b) :=
        findFree_eq (Nat.zero_le _) (by omega) (by rwa [bit, hblk, hmod] at hfree) fun x _ hx => by
          obtain ⟨hblk', hmod'⟩ := BBLOCK_add sb hb (show x < BPB by omega)
          have := hset (b + x) (by omega) (by omega)
          rwa [bit, hblk', hmod'] at this
      rw [ballocFrom, if_pos (by omega), run_bread, hsome, grab, putBit, hblk, hmod]
      change Outcome.done (b + (a - b), _) = _
      rw [Nat.add_sub_cancel' hle]
      rfl
    · rw [ballocFrom_full hb (by omega) fun x hx hlt _ => hset x hx (by omega)]
      exact ih (by rw [Nat.add_mod_right, hb]) (by omega) (fun x hx => hset x (by omega)) (by rw [Nat.succ_mul] at hn; omega)

theorem ballocFrom_none (hb : b % BPB = 0) (hset : ∀ x, b ≤ x → x < sb.size → bit sb s.cache x = true) :
    run (St.step me) (ballocFrom sb b n) s = .done (0, s) := by
  induction n generalizing b with
  | zero => rfl
  | succ n ih =>
    by_cases hlt : b < sb.size
    · rw [ballocFrom_full hb hlt fun x hx _ => hset x hx]
      exact ih (by rw [Nat.add_mod_right, hb]) fun x hx => hset x (by omega)
    · rw [ballocFrom, if_neg hlt]
      rfl

theorem lowerBit_raiseBit (h : bitSet blk bi = false) : lowerBit (raiseBit blk bi) bi = blk := by
  have hbyte : (blk (bi / 8) ||| mask bi) &&& ~~~mask bi = blk (bi / 8) := by
    have h0 : blk (bi / 8) &&& mask bi = 0 := by simpa [bitSet] using h
    refine UInt8.toBitVec_inj.mp (BitVec.eq_of_getElem_eq fun i hi => ?_)
    have hi := congrArg (fun x : UInt8 => x.toBitVec[i]) h0
    simp at hi ⊢
    grind
  rw [lowerBit, raiseBit, update_self, update_idem, hbyte, update_eq_self]

/-- What `balloc` does to the blocks when it returns `b`. -/
structure Allocated (sb : Super) (c c' : Nat → Block) (b : Nat) : Prop where
  pos : b ≠ 0
  bits : ∀ a < sb.size, bit sb c' a = if a = b then true else bit sb c a
  zero : c' b = zeroBlock
  map : c' (sb.BBLOCK b) = raiseBit (c (sb.BBLOCK b)) (b % BPB)
  others : ∀ x, x ≠ b → x ≠ sb.BBLOCK b → c' x = c x

theorem allocated_grab {c : Nat → Block} (h0 : bit sb c 0 = true) (hne : ∀ a < sb.size, sb.BBLOCK a ≠ b)
    (hb : b < sb.size) (hfree : bit sb c b = false) : Allocated sb c (grab sb c b) b := by
  refine ⟨?_, fun a ha => ?_, grab_self b, ?_, fun x hx hx' => ?_⟩
  · rintro rfl
    rw [h0] at hfree
    cases hfree
  · rw [grab, bit, update_of_ne (hne a ha), ← bit, bit_putBit]
  · rw [grab, update_of_ne (hne b hb), putBit, update_self]
    rfl
  · rw [grab, update_of_ne hx, putBit, update_of_ne hx']

theorem run_bfree (h : bit sb s.cache b = true) :
    run (St.step me) (bfree sb b) s = .done ((), { s with cache := putBit sb s.cache b false }) := by
  rw [bit] at h
  change run (St.step me) (if bitSet (s.cache (sb.BBLOCK b)) (b % BPB) = true then _ else _) s = _
  rw [if_pos h]
  rfl

end Lowest

/-! ### `bmap` -/

/-- From contents `c` to contents `c'`, inode `i` becomes `m'`: it may have more blocks, and other
    data in them. -/
structure Wrote (sb : Super) (D : Nat → Dinode) (i : Nat) (c c' : Nat → Block) (m' : Dinode) : Prop where
  blocks : Blocks sb c' (update D i m')
  fields : m' = { D i with addrs := m'.addrs }
  keep : ∀ q, slotAddr c (D i) q ≠ 0 → slotAddr c' m' q = slotAddr c (D i) q
  others : ∀ j, j ≠ i → Live sb D j → Same c c' (D j)
  disk : ∀ j, j < sb.ninodes → dinode sb c' j = dinode sb c j

namespace Wrote
variable {c c₁ c₂ : Nat → Block} {m₁ m₂ : Dinode}

theorem refl (hB : Blocks sb c D) : Wrote sb D i c c (D i) where
  blocks := by rwa [update_eq_self]
  fields := rfl
  keep := fun _ _ => rfl
  others := fun _ _ _ _ _ => rfl
  disk := fun _ _ => rfl

theorem type (h : Wrote sb D i c c₁ m₁) : m₁.type = (D i).type := by rw [h.fields]

theorem size (h : Wrote sb D i c c₁ m₁) : m₁.size = (D i).size := by rw [h.fields]

theorem live (h : Wrote sb D i c c₁ m₁) (hi : Live sb D i) : Live sb (update D i m₁) i := by
  rw [Live, update_self, h.type]; exact hi

theorem trans (h : Wrote sb D i c c₁ m₁) (h' : Wrote sb (update D i m₁) i c₁ c₂ m₂) :
    Wrote sb D i c c₂ m₂ where
  blocks := by have := h'.blocks; rwa [update_idem] at this
  fields := by
    have := h'.fields
    rw [update_self, h.fields] at this
    rw [this]
  keep := fun q hq => by
    have h1 := h.keep q hq
    have h2 := h'.keep q
    rw [update_self] at h2
    rw [h2 (by rwa [h1]), h1]
  others := fun j hj hl => by
    have h2 := h'.others j hj
    rw [Live, update_of_ne hj] at h2
    exact (h.others j hj hl).trans (h2 hl)
  disk := fun j hj => (h'.disk j hj).trans (h.disk j hj)

/-- A store to one of the inode's data blocks. -/
theorem store (hB : Blocks sb c D) (hi : Live sb D i) {q : Nat} (hq : slotAddr c (D i) q ≠ 0)
    (hind : q ≠ NDIRECT) (v : Block) : Wrote sb D i c (update c (slotAddr c (D i) q) v) (D i) where
  blocks := by rw [update_eq_self]; exact hB.store hi hq hind v
  fields := rfl
  keep := fun r _ => hB.addr_store hi hind v hi r
  others := fun _ hj hl => hB.same_store hi hl hj hq v
  disk := fun _ hj => dinode_store hj (hB.data hi hq) v

end Wrote

/-- From contents `c` to contents `c'`, inode `i` becomes `m'`: it may have more blocks, none of them
    in `N`, and nothing else changes. -/
structure Grow (sb : Super) (N : Nat → Prop) (D : Nat → Dinode) (i : Nat) (c c' : Nat → Block) (m' : Dinode) : Prop
    extends Wrote sb D i c c' m' where
  fresh : ∀ q, slotAddr c' m' q ≠ 0 → N (slotAddr c' m' q) → slotAddr c (D i) q = slotAddr c' m' q
  data : ∀ q, q ≠ NDIRECT → slotAddr c (D i) q ≠ 0 → c' (slotAddr c (D i) q) = c (slotAddr c (D i) q)

namespace Grow
variable {c c₁ c₂ : Nat → Block} {m₁ m₂ : Dinode} {N : Nat → Prop}

theorem refl (hB : Blocks sb c D) : Grow sb N D i c c (D i) where
  toWrote := Wrote.refl hB
  fresh := fun _ _ _ => rfl
  data := fun _ _ _ => rfl

theorem trans (h : Grow sb N D i c c₁ m₁) (h' : Grow sb N (update D i m₁) i c₁ c₂ m₂) :
    Grow sb N D i c c₂ m₂ where
  toWrote := h.toWrote.trans h'.toWrote
  fresh := fun q h0 hN => by
    have h2 := h'.fresh q h0 hN
    rw [update_self] at h2
    rw [← h2] at h0 hN ⊢
    exact h.fresh q h0 hN
  data := fun q hne hq => by
    have h1 := h.keep q hq
    have h2 := h'.data q hne
    rw [update_self, h1] at h2
    rw [h2 hq, h.data q hne hq]

/-- A fresh block in an empty slot of `addrs`. -/
theorem slot (hB : Blocks sb c D) (hi : Live sb D i) {j : Fin (NDIRECT + 1)} (hj : (D i).addrs j = 0)
    {b : Nat} (hb : sb.Data b) (hu : bit sb c b = false) (hN : ¬N b) :
    Grow sb N D i c (grab sb c b) ((D i).setAddr j (UInt32.ofNat b)) where
  blocks := hB.assignSlot hi hj hb hu
  fields := rfl
  keep := fun q hq => by
    have hqj : q ≠ j := by
      rintro rfl
      rw [slotAddr_direct j.isLt, Ne, toNat_eq_zero] at hq
      exact hq hj
    rw [slotAddr_setAddr hb hj (fun _ => grab_self b) (hB.same_grab hi hb hu), if_neg hqj]
  fresh := fun q _ hNq => by
    rw [slotAddr_setAddr hb hj (fun _ => grab_self b) (hB.same_grab hi hb hu)] at hNq ⊢
    by_cases hqj : q = j
    · rw [if_pos hqj] at hNq
      exact absurd hNq hN
    · rw [if_neg hqj]
  data := fun q _ hq => grab_data hb (hB.data hi hq) (hB.ne_of_free hi hu hb.pos.ne' q)
  others := fun _ _ hl => hB.same_grab hl hb hu
  disk := fun _ hj => dinode_grab hb hj

/-- A fresh block in an empty entry of the indirect block. -/
theorem entry (hB : Blocks sb c D) (hi : Live sb D i) (hind : slotAddr c (D i) NDIRECT ≠ 0) {j : Nat}
    (hj : j < NINDIRECT) (hz : slotAddr c (D i) (NDIRECT + 1 + j) = 0) {b : Nat} (hb : sb.Data b)
    (hu : bit sb c b = false) (hN : ¬N b) :
    Grow sb N D i c (update (grab sb c b) (slotAddr c (D i) NDIRECT)
      (setU32 (grab sb c b (slotAddr c (D i) NDIRECT)) (4 * j) (UInt32.ofNat b))) (D i) := by
  have haddr := hB.slotAddr_entry hi hind hj hb hu
  refine ⟨⟨?_, rfl, ?_, ?_, ?_⟩, ?_, ?_⟩
  · rw [update_eq_self]; exact hB.assignEntry hi hind hj hz hb hu
  · intro q hq
    have hqj : q ≠ NDIRECT + 1 + j := by rintro rfl; exact hq hz
    rw [haddr, if_neg hqj]
  · intro l hl hlive
    exact hB.same_entry hi hind j hb hu hlive hl
  · intro l hl
    rw [dinode_store hl (hB.data hi hind), dinode_grab hb hl]
  · intro q _ hNq
    rw [haddr] at hNq ⊢
    by_cases hqj : q = NDIRECT + 1 + j
    · rw [if_pos hqj] at hNq
      exact absurd hNq hN
    · rw [if_neg hqj]
  · intro q hqi hq
    have : slotAddr c (D i) q ≠ slotAddr c (D i) NDIRECT := fun he => hqi (hB.inj hi hi he hq).2
    rw [update_of_ne this, grab_data hb (hB.data hi hq) (hB.ne_of_free hi hu hb.pos.ne' q)]

end Grow

/-- `bmap` on one slot of `addrs`: the slot is filled unless the disk is full. -/
theorem bmapSlot_wp {j : Fin (NDIRECT + 1)} (hB : Blocks sb s.cache D)
    (hi : Live sb D i) (hk : s.node k = D i)
    (hfail : Q 0 s)
    (hgot : ∀ c' m', Grow sb Γ.skip D i s.cache c' m' → slotAddr c' m' j ≠ 0 →
      Q (slotAddr c' m' j) (s.put k c' m')) : Γ.wp (bmapSlot sb k j) s Q := by
  simp only [bmapSlot, wp_bind, wp_getNode, hk]
  have hj : slotAddr s.cache (D i) j = ((D i).addrs j).toNat := slotAddr_direct j.isLt
  rw [wp_ite]
  constructor
  · intro hz
    rw [wp_bind]
    refine balloc_wp hB.toBooks (by simpa using hfail) fun b hb hu hskip => ?_
    have hgrow := Grow.slot hB hi hz hb hu hskip
    have hslot : slotAddr (grab sb s.cache b) ((D i).setAddr j (UInt32.ofNat b)) j = b := by
      rw [slotAddr_setAddr hb hz (fun _ => grab_self b) (hB.same_grab hi hb hu), if_pos rfl]
    rw [if_neg hb.pos.ne', wp_bind, wp_setNode, wp_pure]
    have := hgot _ _ hgrow (by rw [hslot]; exact hb.pos.ne')
    rwa [hslot] at this
  · intro hne
    have := hgot _ _ (Grow.refl hB) (by rw [hj, Ne, toNat_eq_zero]; exact hne)
    rwa [St.put_self hk, hj] at this

theorem blockSlot_direct {bn : Nat} (h : bn < NDIRECT) : blockSlot bn = bn := if_pos h

theorem blockSlot_indirect {bn : Nat} (h : ¬bn < NDIRECT) : blockSlot bn = NDIRECT + 1 + (bn - NDIRECT) := by
  rw [blockSlot, if_neg h]; omega

theorem blockSlot_ne (bn : Nat) : blockSlot bn ≠ NDIRECT := by
  unfold blockSlot; split <;> omega

omit [Γ.Writes] in
/-- A block that is there is returned, and nothing happens. -/
theorem wp_bmap_present {bn : Nat}
    (hp : slotAddr s.cache (s.node k) (blockSlot bn) ≠ 0) :
    Γ.wp (bmap sb k bn) s Q ↔ Q (slotAddr s.cache (s.node k) (blockSlot bn)) s := by
  by_cases hd : bn < NDIRECT
  · have hval : Fin.ofNat (NDIRECT + 1) bn = ⟨bn, by omega⟩ := Fin.ext (Nat.mod_eq_of_lt (by omega))
    have hslot : slotAddr s.cache (s.node k) (blockSlot bn) = ((s.node k).addrs ⟨bn, by omega⟩).toNat := by
      rw [blockSlot_direct hd, slotAddr_direct]
    have hne : (s.node k).addrs ⟨bn, by omega⟩ ≠ 0 := by rwa [hslot, Ne, toNat_eq_zero] at hp
    rw [bmap, if_pos hd, bmapSlot, hval]
    simp [hne, hslot]
  · have hbn : bn - NDIRECT < NINDIRECT := by
      by_contra hge
      exact hp (by rw [blockSlot_indirect hd, slotAddr_of_large (by omega)])
    have hind : (s.node k).addrs (Fin.last NDIRECT) ≠ 0 := fun h0 =>
      hp (by rw [blockSlot_indirect hd, slotAddr_of_no_indirect h0 (by omega)])
    have hind' : ((s.node k).addrs (Fin.last NDIRECT)).toNat ≠ 0 := mt toNat_eq_zero.mp hind
    rw [blockSlot_indirect hd, slotAddr_entry hind hbn] at hp ⊢
    rw [bmap, if_neg hd, if_pos hbn, bmapSlot]
    simp [hind, hind', mt toNat_eq_zero.mpr hp]

/-- `bmap` finds the block, or allocates it unless the disk is full. -/
theorem bmap_wp {bn : Nat} (hB : Blocks sb s.cache D) (hi : Live sb D i)
    (hk : s.node k = D i) (hbn : bn < MAXFILE)
    (hpost : ∀ r c' m', Grow sb Γ.skip D i s.cache c' m' → (r ≠ 0 → slotAddr c' m' (blockSlot bn) = r) →
      (r = 0 → slotAddr s.cache (D i) (blockSlot bn) = 0) → Q r (s.put k c' m')) :
    Γ.wp (bmap sb k bn) s Q := by
  by_cases hp : slotAddr s.cache (D i) (blockSlot bn) = 0
  case neg =>
    rw [wp_bmap_present (by rwa [hk]), hk, ← St.put_self hk]
    exact hpost _ _ _ (Grow.refl hB) (fun _ => rfl) fun h => absurd h hp
  have hQ : ∀ r c' m', Grow sb Γ.skip D i s.cache c' m' → (r ≠ 0 → slotAddr c' m' (blockSlot bn) = r) →
      Q r (s.put k c' m') := fun r c' m' hg hr => hpost r c' m' hg hr fun _ => hp
  have hsame : Q 0 s := by
    have := hQ 0 _ _ (Grow.refl (i := i) hB) (fun h => absurd rfl h)
    rwa [St.put_self hk] at this
  rw [bmap, wp_ite]
  constructor
  · intro hd
    have hval : (Fin.ofNat (NDIRECT + 1) bn).val = bn := Nat.mod_eq_of_lt (by omega)
    refine bmapSlot_wp hB hi hk hsame fun c' m' hg _ => hQ _ _ _ hg fun _ => ?_
    rw [blockSlot_direct hd, hval]
  · intro hd
    have hbn' : bn - NDIRECT < NINDIRECT := by unfold MAXFILE at hbn; omega
    rw [if_pos hbn', wp_bind]
    refine bmapSlot_wp hB hi hk hsame fun c₁ m₁ hg hne => ?_
    have hB₁ := hg.blocks
    have hi₁ := hg.live hi
    have hD : update D i m₁ i = m₁ := update_self ..
    have hind : slotAddr c₁ m₁ (Fin.last NDIRECT).val = slotAddr c₁ m₁ NDIRECT := rfl
    rw [hind] at hne ⊢
    have hent : slotAddr c₁ m₁ (NDIRECT + 1 + (bn - NDIRECT)) =
        (getU32 (c₁ (slotAddr c₁ m₁ NDIRECT)) (4 * (bn - NDIRECT))).toNat := by
      rw [slotAddr_indirect, slotAddr_entry (by rwa [slotAddr_indirect, Ne, toNat_eq_zero] at hne) hbn']
    rw [if_neg hne, wp_bind, wp_bread, St.put_cache, wp_ite]
    constructor
    · intro hz
      have hz' : slotAddr c₁ m₁ (NDIRECT + 1 + (bn - NDIRECT)) = 0 := by rw [hent, hz]; rfl
      rw [wp_bind]
      refine balloc_wp hB₁.toBooks ?_ fun b hb hu hskip => ?_
      · simp only [ne_eq, not_true_eq_false, if_false, wp_bind, wp_brelse, wp_pure]
        exact hQ _ _ _ hg fun h => absurd rfl h
      · have hg₂ := Grow.entry hB₁ hi₁ (j := bn - NDIRECT) (by rwa [hD]) hbn' (by rwa [hD]) hb hu hskip
        rw [hD] at hg₂
        have hslot := hg.trans hg₂
        rw [if_pos hb.pos.ne']
        simp only [wp_bind, wp_bmod, wp_logWrite, wp_brelse, wp_pure]
        refine hQ _ _ _ hslot fun _ => ?_
        rw [blockSlot_indirect hd, slotAddr_setEntry (c := c₁) hb ?_ hbn' ?_, if_pos rfl]
        · rwa [slotAddr_indirect, Ne, toNat_eq_zero] at hne
        · rw [update_self, St.put_cache, grab_data hb (by simpa [hD] using hB₁.data hi₁ (by rwa [hD]))]
          have := hB₁.ne_of_free hi₁ hu hb.pos.ne' NDIRECT
          rwa [hD] at this
    · intro hnz
      simp only [wp_bind, wp_brelse, wp_pure]
      refine hQ _ _ _ hg fun _ => ?_
      rw [blockSlot_indirect hd, hent]

end Xv6.Fs
