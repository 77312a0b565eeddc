import Xv6.Lib.Ledger
import Xv6.Fs.Inode

/-! Which inode owns which block.

    The places a block number can stand in are the slots of an inode: `addrs[0..NDIRECT)`, then
    `addrs[NDIRECT]`, the indirect block, then the entries of the indirect block.

        slot   0 ... 11     12           13 ... 268
               direct       indirect     its entries

    The slots of the allocated inodes and the free map form a ledger (`Books`). `Blocks` adds what the
    code relies on when it reads: a file is not longer than its slots can hold, and no block below its
    size is missing. Both speak of a map `D` from inode numbers to inodes, which is the disk's or the
    in-memory one as needed. -/

namespace Xv6.Fs
open Bytes Function

variable {sb : Super} {c c' : Nat → Block} {D : Nat → Dinode} {d : Dinode}

/-- The block number in slot `q` of an inode, 0 if there is none. -/
def slotAddr (c : Nat → Block) (d : Dinode) (q : Nat) : Nat :=
  if h : q < NDIRECT + 1 then (d.addrs ⟨q, h⟩).toNat
  else if d.addrs (Fin.last NDIRECT) = 0 ∨ NINDIRECT ≤ q - (NDIRECT + 1) then 0
  else (getU32 (c (d.addrs (Fin.last NDIRECT)).toNat) (4 * (q - (NDIRECT + 1)))).toNat

/-- The slot of the `bn`-th block of a file. -/
def blockSlot (bn : Nat) : Nat := if bn < NDIRECT then bn else bn + 1

/-- No block below the file's size is missing. -/
def Whole (c : Nat → Block) (d : Dinode) : Prop :=
  ∀ bn, bn * BSIZE < d.size.toNat → slotAddr c d (blockSlot bn) ≠ 0

variable (sb)

/-- Inode `i` exists and is allocated. -/
abbrev Live (D : Nat → Dinode) (i : Nat) : Prop := i < sb.ninodes ∧ (D i).type ≠ 0

/-- The block number in slot `p.2` of inode `p.1`. -/
def addrOf (c : Nat → Block) (D : Nat → Dinode) (p : Nat × Nat) : Nat :=
  if Live sb D p.1 then slotAddr c (D p.1) p.2 else 0

/-- Slots and free map balance. -/
structure Books (c : Nat → Block) (D : Nat → Dinode) : Prop where
  ledger : Ledger (addrOf sb c D) sb.Data (fun b => bit sb c b = true)
  reserved : ∀ b, b < sb.nmeta → bit sb c b = true

/-- Books balance, and files have all their blocks. -/
structure Blocks (c : Nat → Block) (D : Nat → Dinode) : Prop extends Books sb c D where
  small : ∀ i, Live sb D i → (D i).size.toNat ≤ MAXFILE * BSIZE
  full : ∀ i, Live sb D i → Whole c (D i)

variable {sb}

/-! ### Slots -/

variable {q : Nat}

theorem slotAddr_direct (h : q < NDIRECT + 1) : slotAddr c d q = (d.addrs ⟨q, h⟩).toNat :=
  dif_pos h

theorem slotAddr_indirect : slotAddr c d NDIRECT = (d.addrs (Fin.last NDIRECT)).toNat :=
  slotAddr_direct (Nat.lt_succ_self _)

variable {j : Nat}

theorem slotAddr_entry (hi : d.addrs (Fin.last NDIRECT) ≠ 0) (hj : j < NINDIRECT) :
    slotAddr c d (NDIRECT + 1 + j) = (getU32 (c (d.addrs (Fin.last NDIRECT)).toNat) (4 * j)).toNat := by
  rw [slotAddr, dif_neg (by omega), Nat.add_sub_cancel_left, if_neg (by rintro (h | h); exacts [hi h, by omega])]

theorem slotAddr_of_no_indirect (hi : d.addrs (Fin.last NDIRECT) = 0) (hq : NDIRECT < q) :
    slotAddr c d q = 0 := by
  rw [slotAddr, dif_neg (by omega), if_pos (.inl hi)]

theorem slotAddr_of_large (hq : NDIRECT + 1 + NINDIRECT ≤ q) : slotAddr c d q = 0 := by
  rw [slotAddr, dif_neg (by omega), if_pos (.inr (by omega))]

theorem toNat_eq_zero {a : UInt32} : a.toNat = 0 ↔ a = 0 := UInt32.toNat_inj (a := a) (b := 0)

/-- A slot is direct, the indirect block, an entry of it, or nothing. -/
theorem slot_cases (q : Nat) :
    q < NDIRECT ∨ q = NDIRECT ∨ (∃ j, j < NINDIRECT ∧ q = NDIRECT + 1 + j) ∨ NDIRECT + 1 + NINDIRECT ≤ q := by
  by_cases h : NDIRECT < q ∧ q < NDIRECT + 1 + NINDIRECT
  · exact .inr (.inr (.inl ⟨q - (NDIRECT + 1), by omega, by omega⟩))
  · omega

/-- The blocks of `d` have the same contents in `c` and `c'`. -/
def Same (c c' : Nat → Block) (d : Dinode) : Prop :=
  ∀ q, slotAddr c d q ≠ 0 → c' (slotAddr c d q) = c (slotAddr c d q)

/-- Slots depend on the disk through the indirect block only. -/
theorem slotAddr_congr
    (h : slotAddr c d NDIRECT ≠ 0 → c' (slotAddr c d NDIRECT) = c (slotAddr c d NDIRECT)) (q : Nat) :
    slotAddr c' d q = slotAddr c d q := by
  rw [slotAddr_indirect] at h
  by_cases hi : d.addrs (Fin.last NDIRECT) = 0
  · rw [slotAddr, slotAddr]; simp only [hi, true_or, if_true]
  · rw [slotAddr, slotAddr, h (mt toNat_eq_zero.mp hi)]

/-- Slots depend on the inode through `addrs` only. -/
theorem slotAddr_of_addrs {d' : Dinode} (h : d'.addrs = d.addrs) (q : Nat) :
    slotAddr c d' q = slotAddr c d q := by
  rw [slotAddr, slotAddr, h]

theorem Same.addr (h : Same c c' d) (q : Nat) : slotAddr c' d q = slotAddr c d q :=
  slotAddr_congr (h NDIRECT) q

theorem Same.trans {c'' : Nat → Block} (h : Same c c' d) (h' : Same c' c'' d) : Same c c'' d := by
  intro q hq
  rw [← h q hq]
  have := h' q (by rwa [h.addr])
  rwa [h.addr] at this

/-! ### The disk after one change -/

variable (sb)

/-- The disk after `balloc` has returned `b`. -/
def grab (c : Nat → Block) (b : Nat) : Nat → Block := update (putBit sb c b true) b zeroBlock

variable {sb}

theorem grab_self (b : Nat) : grab sb c b b = zeroBlock := update_self ..

variable {b : Nat}

theorem grab_data {x : Nat} (hb : sb.Data b) (hx : sb.Data x) (hne : x ≠ b) : grab sb c b x = c x := by
  rw [grab, update_of_ne hne, putBit_data hb.2 hx]

theorem bit_grab {a : Nat} (hb : sb.Data b) (ha : a < sb.size) :
    bit sb (grab sb c b) a = if a = b then true else bit sb c a := by
  rw [grab, bit_store ha hb, bit_putBit]

variable {i : Nat}

theorem dinode_grab (hb : sb.Data b) (hi : i < sb.ninodes) :
    dinode sb (grab sb c b) i = dinode sb c i := by
  rw [grab, dinode_store hi hb, dinode_putBit hi]

/-! ### What the books say -/

theorem addrOf_live (hi : Live sb D i) (q : Nat) : addrOf sb c D (i, q) = slotAddr c (D i) q :=
  if_pos hi

section Balanced
variable (h : Books sb c D)
include h

theorem Books.data (hi : Live sb D i)
    (hq : slotAddr c (D i) q ≠ 0) : sb.Data (slotAddr c (D i) q) := by
  have := h.ledger.inside (i, q)
  rw [addrOf_live hi] at this
  exact this hq

theorem Books.used (hi : Live sb D i)
    (hq : slotAddr c (D i) q ≠ 0) : bit sb c (slotAddr c (D i) q) = true := by
  have := h.ledger.used_of_place (p := (i, q))
  rw [addrOf_live hi] at this
  exact this hq

/-- Equal block numbers stand in the same slot of the same inode. -/
theorem Books.inj (hi : Live sb D i) (hj : Live sb D j) {r : Nat}
    (he : slotAddr c (D i) q = slotAddr c (D j) r) (hq : slotAddr c (D i) q ≠ 0) : i = j ∧ q = r := by
  have := h.ledger.inj (i, q) (j, r)
  rw [addrOf_live hi, addrOf_live hj] at this
  exact Prod.mk.inj (this he hq)

theorem Books.ne_of_free (hi : Live sb D i)
    (hu : bit sb c b = false) (hb : b ≠ 0) (q : Nat) : slotAddr c (D i) q ≠ b := by
  rintro rfl
  have := h.used hi hb
  simp [hu] at this

/-- A block that the free map calls free and that exists is a data block. -/
theorem Books.free_data (hb : b < sb.size) (hu : bit sb c b = false) :
    sb.Data b := by
  refine ⟨?_, hb⟩
  by_contra hlt
  have := h.reserved b (by omega)
  simp [hu] at this

/-! ### What stays -/

/-- A disk that differs from `c` on no block of inode `j`. -/
theorem Books.same_of_ne (hj : Live sb D j)
    (hc : ∀ x, sb.Data x → (∃ q, slotAddr c (D j) q = x) → c' x = c x) : Same c c' (D j) :=
  fun q hq => hc _ (h.data hj hq) ⟨q, rfl⟩

theorem Books.same_data (hj : Live sb D j)
    (hc : ∀ x, sb.Data x → c' x = c x) : Same c c' (D j) :=
  h.same_of_ne hj fun x hx _ => hc x hx

theorem Books.same_grab (hj : Live sb D j) (hb : sb.Data b)
    (hu : bit sb c b = false) : Same c (grab sb c b) (D j) := by
  refine h.same_of_ne hj fun x hx ⟨q, hq⟩ => grab_data hb hx ?_
  rintro rfl
  exact h.ne_of_free hj hu hb.pos.ne' q hq

/-- Storing to a block of inode `i` leaves every other inode alone. -/
theorem Books.same_store (hi : Live sb D i) (hj : Live sb D j)
    (hij : j ≠ i) (hq : slotAddr c (D i) q ≠ 0) (v : Block) :
    Same c (update c (slotAddr c (D i) q) v) (D j) := by
  refine h.same_of_ne hj fun x _ ⟨r, hr⟩ => update_of_ne ?_ ..
  rintro rfl
  exact hij (h.inj hj hi hr (hr ▸ hq)).1

/-- Storing to a data block of an inode moves no block number. -/
theorem Books.addr_store (hi : Live sb D i)
    (hind : q ≠ NDIRECT) (v : Block) (hj : Live sb D j) (r : Nat) :
    slotAddr (update c (slotAddr c (D i) q) v) (D j) r = slotAddr c (D j) r := by
  refine slotAddr_congr (fun hj0 => update_of_ne ?_ ..) r
  exact fun he => hind (h.inj hj hi he hj0).2.symm

/-- The books depend on the disk only through the free map and the slots. -/
theorem Books.congr (hbit : ∀ b, b < sb.size → bit sb c' b = bit sb c b)
    (ha : ∀ i, Live sb D i → ∀ q, slotAddr c' (D i) q = slotAddr c (D i) q) : Books sb c' D := by
  refine ⟨h.ledger.congr ?_ ?_, ?_⟩
  · intro p
    unfold addrOf
    split
    · exact ha p.1 ‹_› p.2
    · rfl
  · intro b hb; rw [hbit b hb.2]
  · intro b hb; rw [hbit b (hb.trans_le sb.nmeta_le)]; exact h.reserved b hb

end Balanced

theorem Blocks.congr (h : Blocks sb c D) (hbit : ∀ b, b < sb.size → bit sb c' b = bit sb c b)
    (ha : ∀ i, Live sb D i → ∀ q, slotAddr c' (D i) q = slotAddr c (D i) q) : Blocks sb c' D where
  toBooks := h.toBooks.congr hbit ha
  small := h.small
  full := fun i hi bn hbn => by rw [ha i hi]; exact h.full i hi bn hbn

/-- The books depend on the inodes that exist. -/
theorem Books.congrNodes {D' : Nat → Dinode} (h : Books sb c D) (hD : ∀ j, j < sb.ninodes → D' j = D j) : Books sb c D' where
  ledger := h.ledger.congr (fun p => by
    unfold addrOf
    by_cases hp : p.1 < sb.ninodes
    · simp only [Live, hD p.1 hp]
    · rw [if_neg fun hl => hp hl.1, if_neg fun hl => hp hl.1]) fun _ _ => Iff.rfl
  reserved := h.reserved

theorem Books.putDinode (h : Books sb c D) (hi : i < sb.ninodes) (m : Dinode) :
    Books sb (putDinode sb c i m) D :=
  h.congr (fun b _ => bit_putDinode hi m b) fun _ hj =>
    (h.same_data hj fun _ hx => putDinode_data hi hx m).addr

theorem Books.store (h : Books sb c D) (hi : Live sb D i) (hq : slotAddr c (D i) q ≠ 0)
    (hind : q ≠ NDIRECT) (v : Block) : Books sb (update c (slotAddr c (D i) q) v) D :=
  h.congr (fun _ hb => bit_store hb (h.data hi hq) v) fun _ hj => h.addr_store hi hind v hj

theorem Blocks.putDinode (h : Blocks sb c D) (hi : i < sb.ninodes) (m : Dinode) :
    Blocks sb (putDinode sb c i m) D :=
  h.congr (fun b _ => bit_putDinode hi m b) fun _ hj =>
    (h.same_data hj fun _ hx => putDinode_data hi hx m).addr

theorem Blocks.store (h : Blocks sb c D) (hi : Live sb D i) (hq : slotAddr c (D i) q ≠ 0)
    (hind : q ≠ NDIRECT) (v : Block) : Blocks sb (update c (slotAddr c (D i) q) v) D :=
  h.congr (fun _ hb => bit_store hb (h.data hi hq) v) fun _ hj => h.addr_store hi hind v hj

/-! ### One inode changes -/

variable {m : Dinode}

/-- A statement about the inodes after one of them has changed. -/
theorem live_update (hi : i < sb.ninodes) (hm : m.type ≠ 0) {P : Nat → Dinode → Prop} :
    (∀ j, Live sb (update D i m) j → P j (update D i m j)) ↔
      P i m ∧ ∀ j, j ≠ i → Live sb D j → P j (D j) := by
  constructor
  · intro h
    refine ⟨?_, fun j hj hl => ?_⟩
    · have := h i (by simpa [Live] using ⟨hi, hm⟩)
      rwa [update_self] at this
    · have := h j (by simpa [Live, update_of_ne hj] using hl)
      rwa [update_of_ne hj] at this
  · rintro ⟨h, hrest⟩ j hl
    by_cases hj : j = i
    · subst hj; rwa [update_self]
    · rw [Live, update_of_ne hj] at hl
      rw [update_of_ne hj]
      exact hrest j hj hl

/-- Slots of all inodes after the slots of one have changed. -/
theorem addrOf_update (hi : Live sb D i) (hm : m.type ≠ 0) {f : Nat → Nat}
    (hf : ∀ q, slotAddr c' m q = f q)
    (ha : ∀ j, j ≠ i → Live sb D j → ∀ q, slotAddr c' (D j) q = slotAddr c (D j) q) (p : Nat × Nat) :
    addrOf sb c' (update D i m) p = if p.1 = i then f p.2 else addrOf sb c D p := by
  obtain ⟨j, q⟩ := p
  unfold addrOf
  by_cases hj : j = i
  · subst hj
    simp only [Live, update_self, if_true]
    rw [if_pos ⟨hi.1, hm⟩, hf q]
  · simp only [Live, update_of_ne hj, if_neg hj]
    split
    · exact ha j hj ‹_› q
    · rfl

/-- Fields other than `addrs` do not enter the books. -/
theorem Books.setMeta (h : Books sb c D) (hi : Live sb D i) (hm : m.type ≠ 0)
    (ha : m.addrs = (D i).addrs) : Books sb c (update D i m) where
  ledger := h.ledger.congr (fun p => by
    rw [addrOf_update hi hm (slotAddr_of_addrs ha) fun _ _ _ _ => rfl]
    split
    · subst i; rw [addrOf, if_pos hi]
    · rfl) fun _ _ => Iff.rfl
  reserved := h.reserved

theorem Blocks.setMeta (h : Blocks sb c D) (hi : Live sb D i) (hm : m.type ≠ 0)
    (ha : m.addrs = (D i).addrs) (hsmall : m.size.toNat ≤ MAXFILE * BSIZE)
    (hfull : Whole c m) :
    Blocks sb c (update D i m) where
  toBooks := h.toBooks.setMeta hi hm ha
  small := (live_update hi.1 hm (P := fun _ d => d.size.toNat ≤ _)).mpr ⟨hsmall, fun j _ => h.small j⟩
  full := (live_update hi.1 hm (P := fun _ d => Whole c d)).mpr ⟨hfull, fun j _ => h.full j⟩

theorem toNat_ofNat_data (hb : sb.Data b) : (UInt32.ofNat b).toNat = b :=
  UInt32.toNat_ofNat_of_lt' (hb.2.trans (sb.size_lt.trans (by decide)))

theorem ofNat_data_ne_zero (hb : sb.Data b) : UInt32.ofNat b ≠ 0 := fun h =>
  hb.pos.ne' (by rw [← toNat_ofNat_data hb, h]; rfl)

@[simp] theorem Dinode.setAddr_addrs (d : Dinode) (j : Fin (NDIRECT + 1)) (a : UInt32) :
    (d.setAddr j a).addrs = update d.addrs j a := rfl

/-- Slots of an inode after slot `j` of `addrs`, empty before, has been given the zeroed block `b`. -/
theorem slotAddr_setAddr {j : Fin (NDIRECT + 1)} (hb : sb.Data b) (hj : d.addrs j = 0)
    (hz : j = Fin.last NDIRECT → c' b = zeroBlock) (hs : Same c c' d) (q : Nat) :
    slotAddr c' (d.setAddr j (UInt32.ofNat b)) q = if q = j then b else slotAddr c d q := by
  rcases lt_or_ge q (NDIRECT + 1) with hq | hq
  · rw [slotAddr_direct hq, slotAddr_direct hq, Dinode.setAddr_addrs]
    by_cases hqj : (⟨q, hq⟩ : Fin (NDIRECT + 1)) = j
    · simp [← hqj, toNat_ofNat_data hb]
    · rw [update_of_ne hqj, if_neg fun h => hqj (Fin.ext h)]
  · have hne : q ≠ j := by have := j.isLt; omega
    rw [if_neg hne]
    by_cases hl : j = Fin.last NDIRECT
    · subst hl
      rw [slotAddr_of_no_indirect hj (by omega)]
      obtain h | h | ⟨r, hr, rfl⟩ | h := slot_cases q
      · omega
      · omega
      · have hset : (d.setAddr (Fin.last NDIRECT) (UInt32.ofNat b)).addrs (Fin.last NDIRECT) = UInt32.ofNat b := by
          simp
        rw [slotAddr_entry (by rw [hset]; exact ofNat_data_ne_zero hb) hr, hset, toNat_ofNat_data hb, hz rfl]
        rfl
      · exact slotAddr_of_large h
    · rw [← hs.addr]
      have hset : (d.setAddr j (UInt32.ofNat b)).addrs (Fin.last NDIRECT) = d.addrs (Fin.last NDIRECT) :=
        update_of_ne (Ne.symm hl) ..
      rw [slotAddr, slotAddr, dif_neg (by omega), dif_neg (by omega), hset]

section Assign
variable (hi : Live sb D i) (hq : slotAddr c (D i) q = 0) (hb : sb.Data b) (hu : bit sb c b = false) (hm : m.type ≠ 0)
  (hbit : ∀ a, a < sb.size → bit sb c' a = if a = b then true else bit sb c a)
  (hslot : ∀ r, slotAddr c' m r = if r = q then b else slotAddr c (D i) r)
  (hothers : ∀ j, j ≠ i → Live sb D j → Same c c' (D j))
include hi hq hb hu hm hbit hslot hothers

/-- A fresh block goes into an empty slot of an inode: the books still balance, whatever way the
    block number got there. -/
theorem Books.assign (h : Books sb c D) : Books sb c' (update D i m) where
  ledger := by
    have hz : addrOf sb c D (i, q) = 0 := by rw [addrOf_live hi, hq]
    refine (h.ledger.assign hz hb (by simp [hu])).congr ?_ ?_
    · intro p
      rw [addrOf_update hi hm hslot fun j hj hl => (hothers j hj hl).addr]
      by_cases hp : p = (i, q)
      · rw [hp, update_self]; simp
      · rw [update_of_ne hp]
        by_cases h1 : p.1 = i
        · have h2 : p.2 ≠ q := fun h2 => hp (Prod.ext h1 h2)
          rw [if_pos h1, if_neg h2, ← addrOf_live hi, ← h1]
        · rw [if_neg h1]
    · intro a ha
      rw [hbit a ha.2]
      split <;> simp_all
  reserved := by
    intro a ha
    rw [hbit a (ha.trans_le sb.nmeta_le)]
    split
    · rfl
    · exact h.reserved a ha

theorem Blocks.assign (h : Blocks sb c D) (hsize : m.size = (D i).size) : Blocks sb c' (update D i m) where
  toBooks := h.toBooks.assign hi hq hb hu hm hbit hslot hothers
  small := (live_update hi.1 hm (P := fun _ d => d.size.toNat ≤ _)).mpr
    ⟨by rw [hsize]; exact h.small i hi, fun j _ => h.small j⟩
  full := by
    refine (live_update hi.1 hm (P := fun _ d => Whole c' d)).mpr ⟨?_, ?_⟩
    · intro bn hbn
      rw [hslot]
      split
      · exact hb.pos.ne'
      · exact h.full i hi bn (by rwa [hsize] at hbn)
    · intro j hj hl bn hbn
      rw [(hothers j hj hl).addr]
      exact h.full j hl bn hbn

end Assign

/-- `addrs[j] = balloc()`. -/
theorem Blocks.assignSlot (h : Blocks sb c D) {j : Fin (NDIRECT + 1)} (hi : Live sb D i)
    (hj : (D i).addrs j = 0) (hb : sb.Data b) (hu : bit sb c b = false) :
    Blocks sb (grab sb c b) (update D i ((D i).setAddr j (UInt32.ofNat b))) := by
  have hq : slotAddr c (D i) j = 0 := by rw [slotAddr_direct j.isLt, toNat_eq_zero]; exact hj
  exact h.assign hi hq hb hu hi.2 (fun a ha => bit_grab hb ha)
    (slotAddr_setAddr hb hj (fun _ => grab_self b) (h.same_grab hi hb hu))
    (fun _ _ hl => h.same_grab hl hb hu) rfl

/-- Slots of an inode after entry `j` of its indirect block has been given block `b`. -/
theorem slotAddr_setEntry (hb : sb.Data b) (hi : d.addrs (Fin.last NDIRECT) ≠ 0)
    (hj : j < NINDIRECT) (hc : c' (slotAddr c d NDIRECT) = setU32 (c (slotAddr c d NDIRECT)) (4 * j) (UInt32.ofNat b))
    (q : Nat) : slotAddr c' d q = if q = NDIRECT + 1 + j then b else slotAddr c d q := by
  rw [slotAddr_indirect] at hc
  obtain h | h | ⟨r, hr, rfl⟩ | h := slot_cases q
  · rw [if_neg (by omega), slotAddr_direct (by omega), slotAddr_direct (by omega)]
  · rw [if_neg (by omega), slotAddr_direct (by omega), slotAddr_direct (by omega)]
  · rw [slotAddr_entry hi hr, slotAddr_entry hi hr, hc]
    by_cases hrj : r = j
    · rw [if_pos (by rw [hrj]), hrj, getU32_setU32, toNat_ofNat_data hb]
    · rw [if_neg (by omega), getU32_setU32_other (by omega)]
  · rw [if_neg (by omega), slotAddr_of_large h, slotAddr_of_large h]

/-- The disk after entry `j` of indirect block `ind` has been given the fresh block `b`. -/
abbrev grabEntry (sb : Super) (c : Nat → Block) (ind j b : Nat) : Nat → Block :=
  update (grab sb c b) ind (setU32 (grab sb c b ind) (4 * j) (UInt32.ofNat b))

/-- `a[j] = balloc()` is not seen by other inodes. -/
theorem Books.same_entry (h : Books sb c D) {l : Nat} (hi : Live sb D i)
    (hind : slotAddr c (D i) NDIRECT ≠ 0) (j : Nat) (hb : sb.Data b) (hu : bit sb c b = false) (hl : Live sb D l)
    (hne : l ≠ i) : Same c (grabEntry sb c (slotAddr c (D i) NDIRECT) j b) (D l) := by
  refine h.same_of_ne hl fun x hx ⟨r, hr⟩ => ?_
  have hxi : x ≠ slotAddr c (D i) NDIRECT := fun he =>
    hne (h.inj hl hi (hr.trans he) (by rw [hr, he]; exact hind)).1
  have hxb : x ≠ b := hr ▸ h.ne_of_free hl hu hb.pos.ne' r
  rw [grabEntry, update_of_ne hxi, grab_data hb hx hxb]

/-- Slots of an inode after `a[j] = balloc()`. -/
theorem Books.slotAddr_entry (h : Books sb c D) (hi : Live sb D i)
    (hind : slotAddr c (D i) NDIRECT ≠ 0) (hj : j < NINDIRECT) (hb : sb.Data b) (hu : bit sb c b = false) (q : Nat) :
    slotAddr (grabEntry sb c (slotAddr c (D i) NDIRECT) j b) (D i) q =
      if q = NDIRECT + 1 + j then b else slotAddr c (D i) q := by
  have hne : slotAddr c (D i) NDIRECT ≠ b := h.ne_of_free hi hu hb.pos.ne' _
  refine slotAddr_setEntry hb ?_ hj ?_ q
  · rwa [slotAddr_indirect, Ne, toNat_eq_zero] at hind
  · rw [grabEntry, update_self, grab_data hb (h.data hi hind) hne]

/-- `a[j] = balloc()`. -/
theorem Blocks.assignEntry (h : Blocks sb c D) (hi : Live sb D i)
    (hind : slotAddr c (D i) NDIRECT ≠ 0) (hj : j < NINDIRECT)
    (hz : slotAddr c (D i) (NDIRECT + 1 + j) = 0) (hb : sb.Data b) (hu : bit sb c b = false) :
    Blocks sb (update (grab sb c b) (slotAddr c (D i) NDIRECT)
      (setU32 (grab sb c b (slotAddr c (D i) NDIRECT)) (4 * j) (UInt32.ofNat b))) D := by
  have hD : D = update D i (D i) := (update_eq_self ..).symm
  rw [hD, update_self]
  exact h.assign hi hz hb hu hi.2 (fun a ha => by rw [bit_store ha (h.data hi hind), bit_grab hb ha])
    (h.slotAddr_entry hi hind hj hb hu) (fun _ hk hl => h.same_entry hi hind j hb hu hl hk) rfl

/-- A new inode owns nothing. -/
theorem Books.new (h : Books sb c D) (hfree : (D i).type = 0) (haddrs : ∀ j, m.addrs j = 0) :
    Books sb c (update D i m) where
  ledger := by
    refine h.ledger.congr (fun p => ?_) fun _ _ => Iff.rfl
    obtain ⟨j, q⟩ := p
    unfold addrOf
    by_cases hj : j = i
    · subst hj
      have hzero : slotAddr c m q = 0 := by
        rcases lt_or_ge q (NDIRECT + 1) with hq | hq
        · rw [slotAddr_direct hq, haddrs]; rfl
        · exact slotAddr_of_no_indirect (haddrs _) hq
      simp [Live, hfree, hzero]
    · simp [Live, update_of_ne hj]
  reserved := h.reserved

theorem Blocks.new (h : Blocks sb c D) (hi : i < sb.ninodes)
    (hfree : (D i).type = 0) (hm : m.type ≠ 0) (hsize : m.size = 0) (haddrs : ∀ j, m.addrs j = 0) :
    Blocks sb c (update D i m) where
  toBooks := h.toBooks.new hfree haddrs
  small := (live_update hi hm (P := fun _ d => d.size.toNat ≤ _)).mpr
    ⟨by rw [hsize]; exact Nat.zero_le _, fun j _ => h.small j⟩
  full := (live_update hi hm (P := fun _ d => Whole c d)).mpr
    ⟨fun bn hbn => by rw [hsize] at hbn; exact absurd hbn (Nat.not_lt_zero _), fun j _ => h.full j⟩

end Xv6.Fs
