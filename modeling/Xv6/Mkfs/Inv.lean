import Xv6.Mkfs.Code

/-! What `mkfs` keeps in order while it works.

    The free map is written at the very end. `marked m` is the image as it would be if it were written now: there, taking
    the next block is the kernel's `balloc`, and `iappend` edits an inode the way that `writei` does. So the books of the
    kernel's file system (`Books`) balance for `marked m` all the time, and the rules for one edit (`Edit`) are those of
    `Fs.Contents`.

    `Inv sb m F` says that inode `i` is a file with the bytes `F i` and no others, without holes and without blocks that
    it does not need. -/

namespace Xv6.Mkfs
open Bytes Fs Function Option List

/-- The image with the free map that belongs to it. -/
def marked (m : Mk) : Nat → Block := update m.disk bmapstart (bitmap m.freeblock)

/-- A super block with the areas of `mkfs`; how many inodes it promises is left open. -/
structure Laid (sb : Super) : Prop where
  size : sb.size = FSSIZE
  inodestart : sb.inodestart = inodestart
  bmapstart : sb.bmapstart = bmapstart

section Marked
variable {sb : Super} {m : Mk} {b : Nat}

theorem Laid.nmeta (h : Laid sb) : sb.nmeta = nmeta := by
  rw [Super.nmeta, h.size, h.bmapstart]
  rfl

theorem Laid.IBLOCK (h : Laid sb) (i : Nat) : sb.IBLOCK i = IBLOCK i := by
  rw [Super.IBLOCK, h.inodestart]
  rfl

theorem Laid.BBLOCK (h : Laid sb) (hb : b < FSSIZE) : sb.BBLOCK b = Mkfs.bmapstart := by
  have hdiv : b / BPB = 0 := Nat.div_eq_of_lt (lt_trans hb (by decide))
  rw [Super.BBLOCK, h.bmapstart, hdiv, zero_add]

theorem Laid.data (h : Laid sb) : sb.Data b ↔ Mkfs.nmeta ≤ b ∧ b < FSSIZE := by
  rw [Super.Data, h.nmeta, h.size]

theorem Laid.IBLOCK_lt (h : Laid sb) {i : Nat} (hi : i < sb.ninodes) : Mkfs.IBLOCK i < Mkfs.bmapstart := by
  rw [← h.IBLOCK, ← h.bmapstart]
  exact sb.IBLOCK_lt hi

theorem bmapstart_lt_nmeta : Mkfs.bmapstart < Mkfs.nmeta := by decide

theorem bitmap_succ (used : Nat) : bitmap (used + 1) = raiseBit (bitmap used) used := by
  rw [bitmap, range_succ, foldl_append]
  rfl

/-- The free map marks the blocks handed out. -/
theorem bitSet_bitmap (used b : Nat) : bitSet (bitmap used) b = decide (b < used) := by
  induction used with
  | zero =>
    rw [bitSet_eq]
    simp [bitmap, zeroBlock]
  | succ used ih =>
    rw [bitmap_succ, bitSet_raiseBit, ih]
    by_cases hb : b = used
    · simp [hb]
    · have hiff : b < used ↔ b < used + 1 := by omega
      simp [hb, hiff]

theorem bit_marked (h : Laid sb) (hb : b < FSSIZE) : bit sb (marked m) b = decide (b < m.freeblock) := by
  have hmod : b % BPB = b := Nat.mod_eq_of_lt (lt_trans hb (by decide))
  rw [bit, h.BBLOCK hb, marked, update_self, hmod, bitSet_bitmap]

theorem marked_data (hb : Mkfs.nmeta ≤ b) : marked m b = m.disk b :=
  update_of_ne (ne_of_gt (lt_of_lt_of_le bmapstart_lt_nmeta hb)) ..

theorem marked_inode (h : Laid sb) {i : Nat} (hi : i < sb.ninodes) : marked m (Mkfs.IBLOCK i) = m.disk (Mkfs.IBLOCK i) :=
  update_of_ne (ne_of_lt (h.IBLOCK_lt hi)) ..

/-- `freeblock++` is `balloc`. -/
theorem marked_grab (h : Laid sb) (hb : Mkfs.nmeta ≤ m.freeblock) (hlt : m.freeblock < FSSIZE)
    (hz : m.disk m.freeblock = zeroBlock) :
    marked { m with freeblock := m.freeblock + 1 } = grab sb (marked m) m.freeblock := by
  have hmod : m.freeblock % BPB = m.freeblock := Nat.mod_eq_of_lt (lt_trans hlt (by decide))
  have hput : putBit sb (marked m) m.freeblock true = update m.disk Mkfs.bmapstart (bitmap (m.freeblock + 1)) := by
    rw [putBit, h.BBLOCK hlt, hmod, cond_true, marked, update_self, update_idem, bitmap_succ]
  have hself : marked { m with freeblock := m.freeblock + 1 } m.freeblock = zeroBlock :=
    (marked_data (m := { m with freeblock := m.freeblock + 1 }) hb).trans hz
  rw [grab, hput]
  change _ = update (marked { m with freeblock := m.freeblock + 1 }) m.freeblock zeroBlock
  rw [← hself, update_eq_self]

theorem marked_store (hb : Mkfs.nmeta ≤ b) (v : Block) : marked (wsect m b v) = update (marked m) b v :=
  update_comm (ne_of_gt (lt_of_lt_of_le bmapstart_lt_nmeta hb)) _ _ _

theorem marked_winode (h : Laid sb) {i : Nat} (hi : i < sb.ninodes) (d : Dinode) :
    marked (wsect m (Mkfs.IBLOCK i) (setDinode (m.disk (Mkfs.IBLOCK i)) (i % IPB) d)) = putDinode sb (marked m) i d := by
  rw [putDinode, h.IBLOCK, marked_inode h hi]
  exact update_comm (ne_of_lt (h.IBLOCK_lt hi)) _ _ _

end Marked

/-! ### While bytes are appended -/

/-- Since state `m₀`, `iappend` has made the inode `i` into `din`: it has the bytes `bs` and the first `k` blocks. -/
structure Loop (sb : Super) (m₀ : Mk) (i : Nat) (bs : List UInt8) (k : Nat) (m : Mk) (din : Dinode) : Prop where
  edit : Edit sb (dinode sb (marked m₀)) i (marked m₀) (marked m) din (setBytes zeroBlock 0 bs)
  slots : ∀ bn, slotAddr (marked m) din (blockSlot bn) ≠ 0 ↔ bn < k
  fresh : ∀ b, m.freeblock ≤ b → b < FSSIZE → m.disk b = zeroBlock
  low : nmeta ≤ m.freeblock
  high : m.freeblock ≤ FSSIZE
  freeinode : m.freeinode = m₀.freeinode
  written : m.written = m₀.written

namespace Loop
variable {sb : Super} {m₀ m : Mk} {i k b : Nat} {bs : List UInt8} {din : Dinode}

/-- The inodes, with the one that is edited. -/
theorem books (h : Loop sb m₀ i bs k m din) : Books sb (marked m) (update (dinode sb (marked m₀)) i din) :=
  h.edit.books

theorem live (h : Loop sb m₀ i bs k m din) (hi : Live sb (dinode sb (marked m₀)) i) :
    Live sb (update (dinode sb (marked m₀)) i din) i := h.edit.live hi

/-- The next block can be taken. -/
theorem next (h : Loop sb m₀ i bs k m din) (hsb : Laid sb) (hlt : m.freeblock < FSSIZE) :
    sb.Data m.freeblock ∧ bit sb (marked m) m.freeblock = false ∧
      marked { m with freeblock := m.freeblock + 1 } = grab sb (marked m) m.freeblock := by
  refine ⟨hsb.data.mpr ⟨h.low, hlt⟩, ?_, marked_grab hsb h.low hlt (h.fresh _ le_rfl hlt)⟩
  rw [bit_marked hsb hlt]
  exact decide_eq_false (lt_irrefl _)

theorem toNat_freeblock (h : Loop sb m₀ i bs k m din) : (UInt32.ofNat m.freeblock).toNat = m.freeblock :=
  UInt32.toNat_ofNat_of_lt' (lt_of_le_of_lt h.high (by decide))

section Round
variable (h : Loop sb m₀ i bs k m din) (hsb : Laid sb) (hi : Live sb (dinode sb (marked m₀)) i)
include h hsb hi

/-- `addrs[j] = freeblock++`. -/
theorem setAddr (hlt : m.freeblock < FSSIZE) {j : Fin (NDIRECT + 1)} (hj : din.addrs j = 0) (k' : Nat)
    (hk : ∀ bn, (blockSlot bn = j ∨ bn < k) ↔ bn < k') :
    Loop sb m₀ i bs k' { m with freeblock := m.freeblock + 1 } (din.setAddr j (UInt32.ofNat m.freeblock)) := by
  obtain ⟨hdata, hfree, hgrab⟩ := h.next hsb hlt
  have hself : update (dinode sb (marked m₀)) i din i = din := update_self ..
  have hslot := Edit.slot h.books (h.live hi) (hself.symm ▸ hj) hdata hfree
  rw [hself, h.edit.bytes, ← hgrab] at hslot
  have haddr := slotAddr_setAddr hdata hj (fun _ => grab_self m.freeblock)
    (hself ▸ h.books.same_grab (h.live hi) hdata hfree)
  rw [← hgrab] at haddr
  refine ⟨h.edit.trans hslot, fun bn => ?_, fun b hb hbS => h.fresh b (Nat.le_of_succ_le hb) hbS,
    Nat.le_succ_of_le h.low, hlt, h.freeinode, h.written⟩
  rw [haddr, ← hk bn]
  by_cases hbn : blockSlot bn = j
  · rw [if_pos hbn]
    exact iff_of_true hdata.pos.ne' (.inl hbn)
  · rw [if_neg hbn, h.slots]
    exact ⟨.inr, fun h => h.resolve_left hbn⟩

/-- A block of the inode is among those handed out. -/
theorem used {q : Nat}
    (hq : slotAddr (marked m) din q ≠ 0) :
    nmeta ≤ slotAddr (marked m) din q ∧ slotAddr (marked m) din q < m.freeblock ∧
      slotAddr (marked m) din q < FSSIZE := by
  have hself : update (dinode sb (marked m₀)) i din i = din := update_self ..
  have hdata := hsb.data.mp (hself ▸ h.books.data (h.live hi) (hself.symm ▸ hq))
  have hbit := h.books.used (h.live hi) (hself.symm ▸ hq)
  rw [hself, bit_marked hsb hdata.2] at hbit
  exact ⟨hdata.1, of_decide_eq_true hbit, hdata.2⟩

/-- `indirect[j] = freeblock++`. -/
theorem setEntry (hlt : m.freeblock < FSSIZE) (hind : slotAddr (marked m) din NDIRECT ≠ 0) {j : Nat} (hj : j < NINDIRECT)
    (hz : slotAddr (marked m) din (NDIRECT + 1 + j) = 0) (k' : Nat) (hk : ∀ bn, (bn = NDIRECT + j ∨ bn < k) ↔ bn < k') :
    Loop sb m₀ i bs k' (wsect { m with freeblock := m.freeblock + 1 } (slotAddr (marked m) din NDIRECT)
      (setU32 (m.disk (slotAddr (marked m) din NDIRECT)) (4 * j) (UInt32.ofNat m.freeblock))) din := by
  obtain ⟨hdata, hfree, hgrab⟩ := h.next hsb hlt
  obtain ⟨hlow, hused, hS⟩ := h.used hsb hi hind
  have hself : update (dinode sb (marked m₀)) i din i = din := update_self ..
  have hdisk : m.disk (slotAddr (marked m) din NDIRECT) = grab sb (marked m) m.freeblock (slotAddr (marked m) din NDIRECT) := by
    rw [grab_data hdata (hsb.data.mpr ⟨hlow, hS⟩) (ne_of_lt hused), marked_data hlow]
  have hmarked : marked (wsect { m with freeblock := m.freeblock + 1 } (slotAddr (marked m) din NDIRECT)
      (setU32 (m.disk (slotAddr (marked m) din NDIRECT)) (4 * j) (UInt32.ofNat m.freeblock))) =
      grabEntry sb (marked m) (slotAddr (marked m) din NDIRECT) j m.freeblock := by
    rw [marked_store hlow, hgrab, hdisk]
  have hedit := Edit.entry h.books (h.live hi) (hself.symm ▸ hind) hj (hself.symm ▸ hz) hdata hfree
  have haddr := h.books.slotAddr_entry (h.live hi) (hself.symm ▸ hind) hj hdata hfree
  rw [hself, h.edit.bytes, ← hmarked] at hedit
  simp only [hself, ← hmarked] at haddr
  refine ⟨h.edit.trans hedit, fun bn => ?_, fun b hb hbS => ?_, Nat.le_succ_of_le h.low, hlt, h.freeinode, h.written⟩
  · have hslot : blockSlot bn = NDIRECT + 1 + j ↔ bn = NDIRECT + j := by unfold blockSlot; split <;> omega
    rw [haddr, ← hk bn]
    by_cases hbn : bn = NDIRECT + j
    · rw [if_pos (hslot.mpr hbn)]
      exact iff_of_true hdata.pos.ne' (.inl hbn)
    · rw [if_neg (mt hslot.mp hbn), h.slots]
      exact ⟨.inr, fun h => h.resolve_left hbn⟩
  · have hb : m.freeblock + 1 ≤ b := hb
    exact (update_of_ne (by omega) _ _).trans (h.fresh b (by omega) hbS)

/-- `bcopy` into the block at the end of the file. -/
theorem store {p : List UInt8}
    (hk : bs.length / BSIZE < k) (hfit : p.length ≤ BSIZE - bs.length % BSIZE) :
    Loop sb m₀ i (bs ++ p) k (wsect m (slotAddr (marked m) din (blockSlot (bs.length / BSIZE)))
      (setBytes (m.disk (slotAddr (marked m) din (blockSlot (bs.length / BSIZE)))) (bs.length % BSIZE) p)) din := by
  have hpresent := (h.slots _).mpr hk
  obtain ⟨hlow, hused, hS⟩ := h.used hsb hi hpresent
  have hself : update (dinode sb (marked m₀)) i din i = din := update_self ..
  have hedit := Edit.store h.books (h.live hi) (hself.symm ▸ hpresent : Present (marked m) _ bs.length) hfit
  have haddr := h.books.addr_store (h.live hi) (blockSlot_ne (bs.length / BSIZE))
    (setBytes (m.disk (slotAddr (marked m) din (blockSlot (bs.length / BSIZE)))) (bs.length % BSIZE) p) (h.live hi)
  rw [hself, storeAt, h.edit.bytes, marked_data hlow, ← marked_store hlow, ← zero_add bs.length, ← setBytes_append,
    zero_add] at hedit
  rw [hself, ← marked_store hlow] at haddr
  refine ⟨h.edit.trans hedit, fun bn => ?_, fun b hb hbS => ?_, h.low, h.high, h.freeinode, h.written⟩
  · rw [haddr, h.slots]
  · have hb : m.freeblock ≤ b := hb
    exact (update_of_ne (by omega) _ _).trans (h.fresh b hb hbS)

/-- `fill` leads to a block that the image has, if `rsect` then says so. -/
theorem fill {j : Fin (NDIRECT + 1)} (hlt : ((Mkfs.fill m din j).2.addrs j).toNat < FSSIZE) (k' : Nat)
    (hnew : din.addrs j = 0 → ∀ bn, (blockSlot bn = j ∨ bn < k) ↔ bn < k') (hold : din.addrs j ≠ 0 → k' = k) :
    Loop sb m₀ i bs k' (Mkfs.fill m din j).1 (Mkfs.fill m din j).2 ∧ (Mkfs.fill m din j).2.addrs j ≠ 0 := by
  unfold Mkfs.fill at hlt ⊢
  by_cases hz : din.addrs j = 0
  · rw [if_pos hz] at hlt ⊢
    rw [Dinode.setAddr_addrs, update_self, h.toNat_freeblock] at hlt
    refine ⟨h.setAddr hsb hi hlt hz k' (hnew hz), ?_⟩
    rw [Dinode.setAddr_addrs, update_self]
    exact ofNat_data_ne_zero (h.next hsb hlt).1
  · rw [if_neg hz] at hlt ⊢
    exact ⟨hold hz ▸ h, hz⟩

/-- `entry` returns the block for entry `j`, which is the last one or a new one behind it. -/
theorem entry (hind : din.addrs (Fin.last NDIRECT) ≠ 0) {j : Nat} (hj : j < NINDIRECT) (hk : NDIRECT + j ≤ k) {x : Nat} {m' : Mk}
    (hentry : Mkfs.entry m (din.addrs (Fin.last NDIRECT)).toNat j = some (x, m')) (hx : x < FSSIZE) :
    Loop sb m₀ i bs (max k (NDIRECT + j + 1)) m' din ∧ x = slotAddr (marked m') din (NDIRECT + 1 + j) := by
  have haddr : slotAddr (marked m) din NDIRECT = (din.addrs (Fin.last NDIRECT)).toNat := slotAddr_indirect
  have hind0 : slotAddr (marked m) din NDIRECT ≠ 0 := by rw [haddr]; exact mt toNat_eq_zero.mp hind
  obtain ⟨hlow, -, hS⟩ := h.used hsb hi hind0
  rw [haddr] at hlow hS
  have hdisk : marked m (din.addrs (Fin.last NDIRECT)).toNat = m.disk (din.addrs (Fin.last NDIRECT)).toNat := marked_data hlow
  have hslot := slotAddr_entry (c := marked m) hind hj
  rw [hdisk] at hslot
  have hpresent : slotAddr (marked m) din (NDIRECT + 1 + j) ≠ 0 ↔ NDIRECT + j < k := by
    rw [← h.slots, blockSlot_indirect (by omega), Nat.add_sub_cancel_left]
  rw [Mkfs.entry, rsect, if_pos hS, bind_eq_bind, bind_some] at hentry
  by_cases hz : getU32 (m.disk (din.addrs (Fin.last NDIRECT)).toNat) (4 * j) = 0
  · have hnone : slotAddr (marked m) din (NDIRECT + 1 + j) = 0 := by rw [hslot, hz]; rfl
    have hge : ¬NDIRECT + j < k := fun hlt => hpresent.mpr hlt hnone
    rw [if_pos hz] at hentry
    cases hentry
    rw [getU32_setU32, h.toNat_freeblock] at hx ⊢
    have hnext := h.setEntry hsb hi hx hind0 hj hnone (max k (NDIRECT + j + 1)) fun bn => by omega
    rw [haddr] at hnext
    refine ⟨hnext, ?_⟩
    rw [slotAddr_setEntry (c := marked m) (h.next hsb hx).1 hind hj ?_, if_pos rfl]
    rw [haddr, marked_store hlow, update_self, hdisk]
  · rw [if_neg hz] at hentry
    cases hentry
    have hlt : NDIRECT + j < k := hpresent.mp fun h => hz (toNat_eq_zero.mp (hslot ▸ h))
    rw [max_eq_left hlt]
    exact ⟨h, hslot.symm⟩

/-- `block` returns the block for `fbn`, which is the last one or a new one behind it. -/
theorem block {fbn : Nat}
    (hfbn : fbn ≤ k) (hmax : fbn < MAXFILE) {x : Nat} {m' : Mk} {din' : Dinode}
    (hblock : Mkfs.block m din fbn = some (x, m', din')) (hx : x < FSSIZE) :
    Loop sb m₀ i bs (max k (fbn + 1)) m' din' ∧ x = slotAddr (marked m') din' (blockSlot fbn) := by
  unfold Mkfs.block at hblock
  by_cases hd : fbn < NDIRECT
  case pos =>
    rw [dif_pos hd] at hblock
    cases hblock
    have hslot : blockSlot fbn = fbn := blockSlot_direct hd
    have hpresent : din.addrs ⟨fbn, Nat.lt_succ_of_lt hd⟩ ≠ 0 ↔ fbn < k := by
      rw [← h.slots, hslot, slotAddr_direct (Nat.lt_succ_of_lt hd), Ne, Ne, toNat_eq_zero]
    obtain ⟨hloop, -⟩ := h.fill hsb hi hx (max k (fbn + 1))
      (fun hz bn => by
        have hge : ¬fbn < k := fun hlt => hpresent.mpr hlt hz
        have hbn : blockSlot bn = fbn ↔ bn = fbn := by unfold blockSlot; split <;> omega
        rw [hbn]
        omega)
      fun hnz => by
        have := hpresent.mp hnz
        omega
    exact ⟨hloop, by rw [hslot, slotAddr_direct (Nat.lt_succ_of_lt hd)]⟩
  case neg =>
    rw [dif_neg hd] at hblock
    obtain ⟨⟨x', m₁⟩, hentry, hsome⟩ := bind_eq_some_iff.mp hblock
    cases hsome
    -- The indirect block is there, or it is the next one.
    have hlt : ((Mkfs.fill m din (Fin.last NDIRECT)).2.addrs (Fin.last NDIRECT)).toNat < FSSIZE := by
      by_contra hge
      rw [Mkfs.entry, rsect, if_neg hge] at hentry
      cases hentry
    obtain ⟨hloop, hind⟩ := h.fill hsb hi hlt k
      (fun _ bn => ⟨fun hb => hb.resolve_left (blockSlot_ne bn), .inr⟩) fun _ => rfl
    have hj : fbn - NDIRECT < NINDIRECT := by
      unfold MAXFILE at hmax
      omega
    have hresult := hloop.entry hsb hi hind hj (by omega) hentry hx
    rwa [show NDIRECT + (fbn - NDIRECT) + 1 = fbn + 1 by omega, ← blockSlot_indirect hd] at hresult

end Round

/-- The loop of `iappend`, round by round: every round fills the last block, or a new one. -/
theorem appendFrom (hsb : Laid sb) (hi : Live sb (dinode sb (marked m₀)) i) {fuel : Nat} {p : List UInt8} {m' : Mk}
    {din' : Dinode} {off' : Nat} (h : Loop sb m₀ i bs ((bs.length + BSIZE - 1) / BSIZE) m din)
    (hshort : bs.length ≤ MAXFILE * BSIZE) (happend : Mkfs.appendFrom fuel m din bs.length p = some (m', din', off')) :
    Loop sb m₀ i (bs ++ p) (((bs ++ p).length + BSIZE - 1) / BSIZE) m' din' ∧ off' = (bs ++ p).length ∧
      (bs ++ p).length ≤ MAXFILE * BSIZE := by
  induction fuel generalizing bs p m din with
  | zero =>
    cases p with
    | nil =>
      cases happend
      rw [append_nil]
      exact ⟨h, rfl, hshort⟩
    | cons b p => cases happend
  | succ fuel ih =>
    cases p with
    | nil =>
      cases happend
      rw [append_nil]
      exact ⟨h, rfl, hshort⟩
    | cons b p =>
      rw [Mkfs.appendFrom] at happend
      split at happend
      case isFalse => cases happend
      case isTrue hmax =>
        obtain ⟨⟨x, m₁, d₁⟩, hblock, happend⟩ := bind_eq_some_iff.mp happend
        obtain ⟨buf, hread, happend⟩ := bind_eq_some_iff.mp happend
        generalize hq : (b :: p).take (min (b :: p).length ((bs.length / BSIZE + 1) * BSIZE - bs.length)) = q at happend
        have hx : x < FSSIZE := by
          by_contra hge
          rw [rsect, if_neg hge] at hread
          cases hread
        rw [rsect, if_pos hx] at hread
        obtain rfl := some.inj hread
        have hqlen : q.length = min (b :: p).length ((bs.length / BSIZE + 1) * BSIZE - bs.length) := by
          rw [← hq, length_take]
          omega
        have hpos : 0 < (b :: p).length := Nat.succ_pos _
        -- The blocks behind the round are those of the longer file.
        have hBS : BSIZE = 1024 := rfl
        have hround : max ((bs.length + BSIZE - 1) / BSIZE) (bs.length / BSIZE + 1) = ((bs ++ q).length + BSIZE - 1) / BSIZE := by
          rw [length_append, hqlen, hBS]
          omega
        obtain ⟨hloop, rfl⟩ := h.block hsb hi (by rw [hBS]; omega) hmax hblock hx
        have hstore := hloop.store hsb hi (p := q) (by omega) (by rw [hqlen, hBS]; omega)
        rw [hround] at hstore
        have hoff : bs.length - bs.length / BSIZE * BSIZE = bs.length % BSIZE := by rw [hBS]; omega
        rw [hoff, ← hqlen, ← length_append] at happend
        have hfits : (bs ++ q).length ≤ MAXFILE * BSIZE := by
          have hle : (bs.length / BSIZE + 1) * BSIZE ≤ MAXFILE * BSIZE := Nat.mul_le_mul_right _ hmax
          rw [length_append, hqlen]
          omega
        have hrest : q ++ (b :: p).drop q.length = b :: p := by rw [hqlen, ← hq, take_append_drop]
        have hind := ih hstore hfits happend
        rwa [append_assoc, hrest] at hind

end Loop

/-! ### Between the calls -/

/-- An inode with the bytes `bs`, all the blocks for them and no others. -/
structure IsFile (c : Nat → Block) (d : Dinode) (type : Int16) (bs : List UInt8) : Prop where
  type : d.type = type
  nlink : d.nlink = 1
  size : d.size.toNat = bs.length
  short : bs.length ≤ MAXFILE * BSIZE
  bytes : content c d = setBytes zeroBlock 0 bs
  slots : ∀ bn, slotAddr c d (blockSlot bn) ≠ 0 ↔ bn * BSIZE < bs.length

/-- The type of inode `i`: the root directory is the first one. -/
def typeOf (i : Nat) : Int16 := if i = ROOTINO then T_DIR else T_FILE

/-- Inodes `1` to `freeinode - 1` are files, with the bytes that `F` says. -/
structure Inv (sb : Super) (m : Mk) (F : Nat → List UInt8) : Prop where
  books : Books sb (marked m) (dinode sb (marked m))
  fresh : ∀ b, m.freeblock ≤ b → b < FSSIZE → m.disk b = zeroBlock
  low : nmeta ≤ m.freeblock
  high : m.freeblock ≤ FSSIZE
  inodes : m.freeinode ≤ sb.ninodes
  free : ∀ i, i < sb.ninodes → i = 0 ∨ m.freeinode ≤ i → (dinode sb (marked m) i).type = 0
  file : ∀ i, 0 < i → i < m.freeinode → IsFile (marked m) (dinode sb (marked m) i) (typeOf i) (F i)

theorem typeOf_ne_zero (i : Nat) : typeOf i ≠ 0 := by
  unfold typeOf
  split <;> decide

theorem IsFile.same {c c' : Nat → Block} {d : Dinode} {type : Int16} {bs : List UInt8} (h : IsFile c d type bs)
    (hs : Same c c' d) : IsFile c' d type bs :=
  { h with
    bytes := hs.content.trans h.bytes
    slots := fun bn => by rw [hs.addr, h.slots] }

/-- What `iappend` writes back. -/
abbrev resized (d : Dinode) (n : Nat) : Dinode := { d with size := UInt32.ofNat n }

/-- What `ialloc` writes. -/
abbrev newInode (type : Int16) : Dinode := { Dinode.zero with type := type, nlink := 1 }

section Calls
variable {sb : Super} {m m' : Mk} {F : Nat → List UInt8} {i : Nat} {d : Dinode}

theorem Inv.live (h : Inv sb m F) (h0 : 0 < i) (hi : i < m.freeinode) : Live sb (dinode sb (marked m)) i :=
  ⟨lt_of_lt_of_le hi h.inodes, (h.file i h0 hi).type ▸ typeOf_ne_zero i⟩

theorem IBLOCK_fits (hsb : Laid sb) (hi : i < sb.ninodes) : Mkfs.IBLOCK i < FSSIZE :=
  lt_trans (hsb.IBLOCK_lt hi) (by decide)

/-- `winode` on an inode of the table. -/
theorem winode_eq (hsb : Laid sb) (hi : i < sb.ninodes) : ∃ m', winode m i d = some m' ∧
    marked m' = putDinode sb (marked m) i d ∧ m'.freeinode = m.freeinode ∧ m'.freeblock = m.freeblock ∧
      m'.written = i :: m.written ∧ ∀ b, nmeta ≤ b → m'.disk b = m.disk b := by
  have hne : ∀ b, nmeta ≤ b → b ≠ Mkfs.IBLOCK i := fun b hb => by
    have := hsb.IBLOCK_lt hi
    have := bmapstart_lt_nmeta
    omega
  refine ⟨{ wsect m (Mkfs.IBLOCK i) (setDinode (m.disk (Mkfs.IBLOCK i)) (i % IPB) d) with written := i :: m.written },
    ?_, marked_winode hsb hi d, rfl, rfl, rfl, fun b hb => update_of_ne (hne b hb) ..⟩
  rw [winode, rsect, if_pos (IBLOCK_fits hsb hi)]
  rfl

theorem rinode_eq (hsb : Laid sb) (hi : i < sb.ninodes) : rinode m i = some (dinode sb (marked m) i) := by
  rw [rinode, rsect, if_pos (IBLOCK_fits hsb hi), dinode, hsb.IBLOCK, marked_inode hsb hi]
  rfl

theorem dinode_winode (hmarked : marked m' = putDinode sb (marked m) i d) (j : Nat) :
    dinode sb (marked m') j = if j = i then d else dinode sb (marked m) j := by rw [hmarked, dinode_putDinode]

/-- `iappend` adds the bytes to the end of the file, and changes no other file. -/
theorem Inv.iappend (h : Inv sb m F) (hsb : Laid sb) (h0 : 0 < i) (hi : i < m.freeinode) {p : List UInt8}
    (happend : Mkfs.iappend m i p = some m') : Inv sb m' (update F i (F i ++ p)) ∧
      m'.freeinode = m.freeinode ∧ m'.written = i :: m.written := by
  have hlive := h.live h0 hi
  have hf := h.file i h0 hi
  have hBS : BSIZE = 1024 := rfl
  -- The loop starts with the file as it is.
  have hstart : Loop sb m i (F i) (((F i).length + BSIZE - 1) / BSIZE) m (dinode sb (marked m) i) :=
    ⟨hf.bytes ▸ Edit.refl h.books, fun bn => by rw [hf.slots, hBS]; omega, h.fresh, h.low, h.high, rfl, rfl⟩
  rw [Mkfs.iappend, rinode_eq hsb hlive.1, bind_eq_bind, bind_some, hf.size] at happend
  obtain ⟨⟨m₁, d₁, off⟩, hloop, hwinode⟩ := bind_eq_some_iff.mp happend
  obtain ⟨hL, rfl, hshort⟩ := hstart.appendFrom hsb hlive hf.short hloop
  obtain ⟨m₂, hw, hmarked, hfi, hfb, hwritten, hdisk⟩ :=
    winode_eq (m := m₁) (d := resized d₁ (F i ++ p).length) hsb hlive.1
  obtain rfl : m₂ = m' := some.inj (hw.symm.trans hwinode)
  have htype : d₁.type = (dinode sb (marked m) i).type := hL.edit.type
  have hm : (resized d₁ (F i ++ p).length).type ≠ 0 := by
    change d₁.type ≠ 0
    rw [htype]
    exact hlive.2
  have hD : ∀ j, j < sb.ninodes → dinode sb (marked m₂) j =
      update (dinode sb (marked m)) i (resized d₁ (F i ++ p).length) j := fun j hj => by
    rw [dinode_winode hmarked, update_apply, hL.edit.disk j hj]
  have hbooks : Books sb (marked m₂) (update (dinode sb (marked m)) i (resized d₁ (F i ++ p).length)) := by
    have hself : update (dinode sb (marked m)) i d₁ i = d₁ := update_self ..
    have hset := hL.books.setMeta (hL.live hlive) hm (by rw [hself])
    rw [update_idem] at hset
    rw [hmarked]
    exact hset.putDinode hlive.1 _
  have hsame : ∀ j, Live sb (update (dinode sb (marked m)) i d₁) j →
      Same (marked m₁) (marked m₂) (update (dinode sb (marked m)) i d₁ j) := fun j hj =>
    hL.books.same_data hj fun x hx => by rw [hmarked, putDinode_data hlive.1 hx]
  refine ⟨⟨hbooks.congrNodes hD, fun b hb hbS => ?_, ?_, ?_, ?_, fun j hj hfree => ?_, fun j hj0 hj => ?_⟩, ?_, ?_⟩
  · rw [hdisk b (le_trans hL.low (hfb ▸ hb))]
    exact hL.fresh b (hfb ▸ hb) hbS
  · rw [hfb]; exact hL.low
  · rw [hfb]; exact hL.high
  · rw [hfi, hL.freeinode]; exact h.inodes
  · have hne : j ≠ i := by
      rw [hfi, hL.freeinode] at hfree
      omega
    rw [hD j hj, update_of_ne hne]
    exact h.free j hj (by rwa [hfi, hL.freeinode] at hfree)
  · have hj : j < m.freeinode := by rwa [hfi, hL.freeinode] at hj
    rw [hD j (lt_of_lt_of_le hj h.inodes)]
    by_cases hne : j = i
    · subst hne
      have hs := hsame j (hL.live hlive)
      rw [update_self] at hs
      have hsize : (UInt32.ofNat (F j ++ p).length).toNat = (F j ++ p).length :=
        UInt32.toNat_ofNat_of_lt' (lt_of_le_of_lt hshort (by decide))
      have haddrs : ∀ q, slotAddr (marked m₂) (resized d₁ (F j ++ p).length) q = slotAddr (marked m₂) d₁ q :=
        slotAddr_of_addrs rfl
      have hnlink : d₁.nlink = (dinode sb (marked m) j).nlink := by rw [hL.edit.fields]
      rw [update_self, update_self]
      refine ⟨htype.trans hf.type, hnlink.trans hf.nlink, hsize, hshort, ?_, fun bn => ?_⟩
      · exact hs.content.trans hL.edit.bytes
      · rw [haddrs, hs.addr, hL.slots, hBS]
        omega
    · have hlj : Live sb (update (dinode sb (marked m)) i d₁) j := by
        rw [Live, update_of_ne hne]
        exact h.live hj0 hj
      have hs := hsame j hlj
      rw [update_of_ne hne] at hs
      rw [update_of_ne hne, update_of_ne hne]
      exact ((h.file j hj0 hj).same (hL.edit.others j hne (h.live hj0 hj))).same hs
  · rw [hfi, hL.freeinode]
  · rw [hwritten, hL.written]

/-- `ialloc` makes an empty file of the next inode. -/
theorem Inv.ialloc (h : Inv sb m F) (hsb : Laid sb) (h0 : 0 < m.freeinode) (hi : m.freeinode < sb.ninodes) :
    ∃ m', Mkfs.ialloc m (typeOf m.freeinode) = some (m.freeinode, m') ∧
      Inv sb m' (update F m.freeinode []) ∧ m'.freeinode = m.freeinode + 1 ∧ m'.freeblock = m.freeblock ∧
      m'.written = m.freeinode :: m.written := by
  obtain ⟨m', hw, hmarked, hfi, hfb, hwritten, hdisk⟩ := winode_eq (m := { m with freeinode := m.freeinode + 1 })
    (d := newInode (typeOf m.freeinode)) hsb hi
  have hmarked : marked m' = putDinode sb (marked m) m.freeinode (newInode (typeOf m.freeinode)) :=
    hmarked
  have hfree := h.free _ hi (.inr le_rfl)
  have hD := dinode_winode hmarked
  have hbooks : Books sb (marked m') (dinode sb (marked m')) := by
    have hnew := (h.books.new (m := newInode (typeOf m.freeinode)) hfree fun _ => rfl).putDinode hi
      (newInode (typeOf m.freeinode))
    rw [← hmarked] at hnew
    exact hnew.congrNodes fun j _ => by rw [hD, update_apply]
  refine ⟨m', by rw [Mkfs.ialloc, hw]; rfl, ⟨hbooks, fun b hb hbS => ?_, ?_, ?_, ?_, fun j hj hfree => ?_, fun j hj0 hj => ?_⟩,
    hfi, hfb, hwritten⟩
  · rw [hdisk b (le_trans h.low (hfb ▸ hb))]
    exact h.fresh b (hfb ▸ hb) hbS
  · rw [hfb]; exact h.low
  · rw [hfb]; exact h.high
  · rw [hfi]; exact hi
  · rw [hfi] at hfree
    have hne : j ≠ m.freeinode := by
      dsimp only at hfree
      omega
    rw [hD, if_neg hne]
    refine h.free j hj ?_
    dsimp only at hfree
    omega
  · rw [hfi] at hj
    rw [hD]
    by_cases hne : j = m.freeinode
    · have hslot : ∀ q, slotAddr (marked m') (newInode (typeOf m.freeinode)) q = 0 := fun q => by
        rcases lt_or_ge q (NDIRECT + 1) with hq | hq
        · rw [slotAddr_direct hq]; rfl
        · exact slotAddr_of_no_indirect rfl hq
      rw [if_pos hne, hne, update_self]
      refine ⟨rfl, rfl, rfl, Nat.zero_le _, ?_, fun bn => ?_⟩
      · rw [setBytes_nil]
        funext o
        rw [content, if_neg (fun hp => hp (hslot _))]
        rfl
      · rw [hslot, length_nil]
        exact iff_of_false (fun h => h rfl) (Nat.not_lt_zero _)
    · have hj : j < m.freeinode := by
        dsimp only at hj
        omega
      rw [if_neg hne, update_of_ne hne]
      refine (h.file j hj0 hj).same (h.books.same_data (h.live hj0 hj) fun x hx => ?_)
      rw [hmarked, putDinode_data hi hx]

end Calls

end Xv6.Mkfs
