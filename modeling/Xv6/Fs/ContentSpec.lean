import Xv6.Fs.BlockSpec
import Xv6.Fs.Dir

/-! What `readi` and `writei` do.

    The contents of an inode are a sequence of bytes, `byteAt`. A read of a file with all its blocks
    changes nothing (`readi_wp`), and a read of one directory entry returns that entry
    (`wp_readDirent`). A write stores a stretch of the source in the contents of the one inode
    (`writei_wp`); a write of one directory entry stores it whole, or runs out of blocks and leaves the
    contents as they are (`writeDirent_wp`). -/

namespace Xv6.Fs
open Prog hiding wp_bind wp_pure wp_when wp_mono
open Ctx Bytes Function List

variable {sb : Super} {Γ : Ctx} [Γ.Writes] {s : St} {D : Nat → Dinode} {i : Nat} {k : Slot} {N : Nat → Prop}
  {c c' : Nat → Block} {d m : Dinode}

@[simp] theorem wp_iupdate {U : Unit → St → Prop} : Γ.wp (iupdate sb k) s U ↔
    U () { s with cache := putDinode sb s.cache (s.inum k) (s.node k) } := by
  simp [iupdate, putDinode]

/-! ### Reading -/

variable {Q : Int × List UInt8 → St → Prop} {n : Nat}

omit [Γ.Writes] in
theorem readLoop_wp {dst : Dst}
    (hw : Whole s.cache (s.node k)) (hQ : ∀ r, Q r s) : ∀ {fuel off tot : Nat} {out : List UInt8},
    off + (n - tot) ≤ (s.node k).size.toNat → Γ.wp (readLoop sb k dst n off tot out fuel) s Q
  | 0, _, _, _, _ => hQ _
  | fuel + 1, off, tot, out, hle => by
    rw [readLoop, wp_ite]
    refine ⟨fun htot => ?_, fun _ => hQ _⟩
    have hp : slotAddr s.cache (s.node k) (blockSlot (off / BSIZE)) ≠ 0 :=
      hw _ (by have := Nat.div_mul_le_self off BSIZE; omega)
    rw [wp_bind, wp_bmap_present hp, if_neg hp]
    simp only [wp_bind, wp_bread, wp_brelse, wp_ite]
    exact ⟨fun _ => hQ _, fun _ => readLoop_wp hw hQ (by omega)⟩

variable {off : Nat}

omit [Γ.Writes] in
/-- Reading a file that has all its blocks changes nothing. -/
theorem readi_wp {dst : Dst}
    (hw : Whole s.cache (s.node k)) (hQ : ∀ r, Q r s) : Γ.wp (readi sb k dst off n) s Q := by
  simp only [readi, wp_bind, wp_getNode, wp_ite]
  refine ⟨fun _ => hQ _, fun hoff => ⟨fun _ => ?_, fun _ => ?_⟩⟩
  · exact readLoop_wp hw hQ (by omega)
  · exact readLoop_wp hw hQ (by omega)

/-- The directory entry at offset `off` of an inode. -/
def direntAt (c : Nat → Block) (d : Dinode) (off : Nat) : Dirent :=
  dirent (c (slotAddr c d (blockSlot (off / BSIZE)))) (off % BSIZE)

theorem cstr_getBytes {b : Buf} {o j : Nat} (hj : j < n) : cstr (getBytes b o n) j = b (o + j) := by
  simp [cstr, getBytes, getD_eq_getElem?_getD, hj]

theorem dirent_congr {b b' : Block} {o o' : Nat} (h : ∀ j, j < direntSize → b (o + j) = b' (o' + j)) :
    dirent b o = dirent b' o' := by
  have h0 : b o = b' o' := h 0 (by decide)
  have h1 : b (o + 1) = b' (o' + 1) := h 1 (by decide)
  have hname : getBytes b (o + 2) DIRSIZ = getBytes b' (o' + 2) DIRSIZ := getBytes_congr fun j hj => by
    have := h (2 + j) (by have : j < 14 := hj; change 2 + j < 16; omega)
    rwa [← add_assoc, ← add_assoc] at this
  rw [dirent, dirent, getU16, getU16, h0, h1, hname]

omit [Γ.Writes] in
/-- A read into kernel memory that stays within one block takes one round of the loop. -/
theorem wp_readLoop_block (hn : 0 < n)
    (hfit : off % BSIZE + n ≤ BSIZE) (hp : slotAddr s.cache (s.node k) (blockSlot (off / BSIZE)) ≠ 0) :
    Γ.wp (readLoop sb k .kernel n off 0 [] n) s Q ↔
      Q ((n : Int), getBytes (s.cache (slotAddr s.cache (s.node k) (blockSlot (off / BSIZE)))) (off % BSIZE) n) s := by
  obtain ⟨r, rfl⟩ : ∃ r, n = r + 1 := ⟨n - 1, by omega⟩
  have hm : min (r + 1 - 0) (BSIZE - off % BSIZE) = r + 1 := by omega
  rw [readLoop, if_pos hn, wp_bind, wp_bmap_present hp, if_neg hp]
  simp only [wp_bind, wp_bread, wp_brelse, Dst.copyout, hm, length_getBytes, lt_self_iff_false,
    if_false, zero_add, nil_append]
  cases r with
  | zero => rfl
  | succ r => rw [readLoop, if_neg (lt_irrefl _)]; rfl

omit [Γ.Writes] in
theorem wp_readDirent {Q : Dirent → St → Prop} {e : Panic} (hw : Whole s.cache (s.node k))
    (hsmall : (s.node k).size.toNat ≤ MAXFILE * BSIZE) (h16 : off % direntSize = 0)
    (hoff : off + direntSize ≤ (s.node k).size.toNat) :
    Γ.wp (readDirent sb k off e) s Q ↔ Q (direntAt s.cache (s.node k) off) s := by
  have hp : slotAddr s.cache (s.node k) (blockSlot (off / BSIZE)) ≠ 0 :=
    hw _ (by have := Nat.div_mul_le_self off BSIZE; have : direntSize = 16 := rfl; omega)
  have hfit : off % BSIZE + direntSize ≤ BSIZE := by
    change off % 16 = 0 at h16
    change off % 1024 + 16 ≤ 1024
    omega
  have hov : (off + direntSize) % 2 ^ 32 = off + direntSize := Nat.mod_eq_of_lt (by
    have : MAXFILE * BSIZE < 2 ^ 32 := by decide
    omega)
  have hdir : dirent (cstr (getBytes (s.cache (slotAddr s.cache (s.node k) (blockSlot (off / BSIZE))))
      (off % BSIZE) direntSize)) 0 = direntAt s.cache (s.node k) off :=
    dirent_congr fun j hj => by rw [zero_add, cstr_getBytes hj]
  simp only [readDirent, readi, wp_bind, wp_getNode, hov]
  rw [if_neg (by omega), if_neg (by omega), wp_readLoop_block (by decide) hfit hp]
  simp [hdir]

/-! ### Contents -/

/-- Byte `o` of an inode's contents. -/
def byteAt (c : Nat → Block) (d : Dinode) (o : Nat) : UInt8 := c (slotAddr c d (blockSlot (o / BSIZE))) (o % BSIZE)

/-- The block of byte `o` is there. -/
abbrev Present (c : Nat → Block) (d : Dinode) (o : Nat) : Prop := slotAddr c d (blockSlot (o / BSIZE)) ≠ 0

/-- The bytes `bs` have been stored at offset `off`. -/
def Stored (c c' : Nat → Block) (d m : Dinode) (off : Nat) (bs : List UInt8) : Prop :=
  ∀ o, Present c d o ∨ (off ≤ o ∧ o < off + bs.length) →
    Present c' m o ∧ byteAt c' m o = setBytes (byteAt c d) off bs o

variable {bs : List UInt8}

theorem Stored.append {c₁ c₂ : Nat → Block} {m₁ m₂ : Dinode} {bs' : List UInt8}
    (h : Stored c c₁ d m₁ off bs) (h' : Stored c₁ c₂ m₁ m₂ (off + bs.length) bs') :
    Stored c c₂ d m₂ off (bs ++ bs') := by
  intro o ho
  rw [length_append] at ho
  rw [setBytes_append]
  by_cases hfirst : Present c d o ∨ (off ≤ o ∧ o < off + bs.length)
  · obtain ⟨hp, hb⟩ := h o hfirst
    obtain ⟨hp', hb'⟩ := h' o (.inl hp)
    refine ⟨hp', ?_⟩
    rw [hb', setBytes, setBytes, hb]
  · have hrange : off + bs.length ≤ o ∧ o < off + bs.length + bs'.length := by
      rw [not_or] at hfirst
      have := ho.resolve_left hfirst.1
      omega
    obtain ⟨hp', hb'⟩ := h' o (.inr hrange)
    refine ⟨hp', ?_⟩
    rw [hb', setBytes, setBytes, if_pos hrange, if_pos hrange]

/-- `bmap` leaves the contents as they are. -/
theorem Grow.stored (h : Grow sb N D i c c' m) (off : Nat) : Stored c c' (D i) m off [] := by
  intro o ho
  have hp : Present c (D i) o := ho.resolve_right (by rw [length_nil]; omega)
  have hk := h.keep _ hp
  exact ⟨by rw [Present, hk]; exact hp, by rw [setBytes_nil, byteAt, byteAt, hk, h.data _ (blockSlot_ne _) hp]⟩

/-- The disk after `bs` has been stored at `off` in an inode, within one block. -/
abbrev storeAt (c : Nat → Block) (d : Dinode) (off : Nat) (bs : List UInt8) : Nat → Block :=
  update c (slotAddr c d (blockSlot (off / BSIZE))) (setBytes (c (slotAddr c d (blockSlot (off / BSIZE)))) (off % BSIZE) bs)

/-- A store within one block. -/
theorem Stored.block (hB : Books sb c D) (hi : Live sb D i)
    (hp : Present c (D i) off) (hfit : bs.length ≤ BSIZE - off % BSIZE) :
    Stored c (storeAt c (D i) off bs) (D i) (D i) off bs := by
  intro o ho
  have hmod : off % BSIZE < BSIZE := Nat.mod_lt _ (by decide)
  have hpo : Present c (D i) o := by
    rcases ho with hpo | hr
    · exact hpo
    · have : o / BSIZE = off / BSIZE := by
        change bs.length ≤ 1024 - off % 1024 at hfit
        change o / 1024 = off / 1024
        omega
      rwa [Present, this]
  rw [Present, byteAt, hB.addr_store hi (blockSlot_ne _) _ hi]
  refine ⟨hpo, ?_⟩
  by_cases hblk : o / BSIZE = off / BSIZE
  · rw [hblk, storeAt, update_self, setBytes, setBytes]
    have hiff : (off % BSIZE ≤ o % BSIZE ∧ o % BSIZE < off % BSIZE + bs.length) ↔ (off ≤ o ∧ o < off + bs.length) := by
      change o / 1024 = off / 1024 at hblk
      change (off % 1024 ≤ o % 1024 ∧ o % 1024 < off % 1024 + bs.length) ↔ _
      omega
    by_cases hr : off ≤ o ∧ o < off + bs.length
    · rw [if_pos (hiff.mpr hr), if_pos hr]
      congr 1
      change o / 1024 = off / 1024 at hblk
      change o % 1024 - off % 1024 = o - off
      omega
    · rw [if_neg (mt hiff.mp hr), if_neg hr, byteAt, hblk]
  · have hne : slotAddr c (D i) (blockSlot (o / BSIZE)) ≠ slotAddr c (D i) (blockSlot (off / BSIZE)) := by
      intro he
      have := (hB.inj hi hi he hpo).2
      unfold blockSlot at this
      split at this <;> split at this <;> omega
    rw [storeAt, update_of_ne hne, setBytes, if_neg, byteAt]
    change bs.length ≤ 1024 - off % 1024 at hfit
    change ¬o / 1024 = off / 1024 at hblk
    omega

/-- `iupdate` does not touch the contents. -/
theorem Stored.putDinode (hB : Blocks sb c' D) (hi : Live sb D i)
    (h : Stored c c' d (D i) off bs) (ha : m.addrs = (D i).addrs) : Stored c (putDinode sb c' i m) d m off bs := by
  intro o ho
  obtain ⟨hp, hb⟩ := h o ho
  have hput : ∀ x, sb.Data x → Fs.putDinode sb c' i m x = c' x := fun x hx => putDinode_data hi.1 hx m
  have haddr : slotAddr (Fs.putDinode sb c' i m) m (blockSlot (o / BSIZE)) = slotAddr c' (D i) (blockSlot (o / BSIZE)) := by
    rw [slotAddr_of_addrs ha, (hB.same_data hi hput).addr]
  refine ⟨by rwa [Present, haddr], ?_⟩
  rw [← hb, byteAt, byteAt, haddr, hput _ (hB.data hi hp)]

theorem Same.byteAt (h : Same c c' d) {o : Nat} (hp : Present c d o) : Fs.byteAt c' d o = Fs.byteAt c d o := by
  rw [Fs.byteAt, Fs.byteAt, h.addr, h _ hp]

theorem Whole.block (h : Whole c d) {o : Nat} (ho : o < d.size.toNat) : Present c d o :=
  h _ (by have := Nat.div_mul_le_self o BSIZE; omega)

/-- A directory entry is 16 bytes of the contents. -/
theorem direntAt_eq (h16 : off % direntSize = 0) : direntAt c d off = dirent (byteAt c d) off := by
  refine dirent_congr fun j hj => ?_
  have hblk : (off + j) / BSIZE = off / BSIZE ∧ (off + j) % BSIZE = off % BSIZE + j := by
    change off % 16 = 0 at h16
    change j < 16 at hj
    change (off + j) / 1024 = off / 1024 ∧ (off + j) % 1024 = off % 1024 + j
    omega
  rw [byteAt, hblk.1, hblk.2]

/-! ### Writing -/

/-- No block below offset `off` is missing. -/
def Covered (c : Nat → Block) (d : Dinode) (off : Nat) : Prop :=
  ∀ bn, bn * BSIZE < off → slotAddr c d (blockSlot bn) ≠ 0

/-- Files are covered up to their size. -/
theorem Blocks.covered (hB : Blocks sb c D) (hi : Live sb D i) : Covered c (D i) (D i).size.toNat := hB.full i hi

theorem Covered.mono {off' : Nat} (h : Covered c d off) (hle : off' ≤ off) : Covered c d off' :=
  fun bn hbn => h bn (by omega)

theorem Wrote.covered (h : Wrote sb D i c c' m) (hc : Covered c (D i) off) : Covered c' m off :=
  fun bn hbn => by rw [h.keep _ (hc bn hbn)]; exact hc bn hbn

/-- One more stretch of at most the rest of a block. -/
theorem Covered.extend {len : Nat} (h : Covered c d off) (hlen : len ≤ BSIZE - off % BSIZE)
    (hb : slotAddr c d (blockSlot (off / BSIZE)) ≠ 0) : Covered c d (off + len) := by
  intro bn hbn
  by_cases hlt : bn * BSIZE < off
  · exact h bn hlt
  · have hbn' : bn = off / BSIZE := by
      change bn * 1024 < off + len at hbn
      change ¬bn * 1024 < off at hlt
      change len ≤ 1024 - off % 1024 at hlen
      change bn = off / 1024
      omega
    rwa [hbn']

theorem div_lt_maxfile {len : Nat} (hlen : 0 < len) (h : off + len ≤ MAXFILE * BSIZE) :
    off / BSIZE < MAXFILE :=
  (Nat.div_lt_iff_lt_mul (by decide)).mpr (by omega)

/-- Byte `k` of the source of a write. -/
def Src.byte : Src → Nat → UInt8
  | .kernel bs, k => bs.getD k 0
  | .user u va, k => u.byte (va + k)

/-- `len` bytes of the source from `tot` on. -/
def Src.bytes (src : Src) (tot len : Nat) : List UInt8 := (range len).map fun k => src.byte (tot + k)

theorem copyPages_le (page : Nat → Bool) : ∀ (n va len : Nat), copyPages page va len n ≤ len
  | 0, _, _ => Nat.zero_le _
  | n + 1, va, len => by
    rw [copyPages]
    split
    · exact Nat.zero_le _
    · have := copyPages_le page n ((va / PGSIZE + 1) * PGSIZE) (len - min len (PGSIZE - va % PGSIZE))
      dsimp only
      omega

theorem copyin_length_le (src : Src) (tot len : Nat) : (src.copyin tot len).length ≤ len := by
  cases src with
  | kernel bs => rw [Src.copyin, length_take]; omega
  | user u va => rw [Src.copyin, length_map, length_range]; exact copyPages_le ..

theorem copyin_eq (src : Src) (tot len : Nat) : src.copyin tot len = src.bytes tot (src.copyin tot len).length := by
  cases src with
  | kernel bs =>
    refine ext_getElem (by simp [Src.bytes]) fun k h1 _ => ?_
    have hk : tot + k < bs.length := by
      rw [Src.copyin, length_take, length_drop] at h1
      omega
    simp [Src.copyin, Src.bytes, Src.byte, getD_eq_getElem?_getD, hk]
  | user u va =>
    refine ext_getElem (by simp [Src.bytes]) fun k h1 _ => ?_
    simp [Src.copyin, Src.bytes, Src.byte, add_assoc]

theorem bytes_append (src : Src) (tot a b : Nat) : src.bytes tot a ++ src.bytes (tot + a) b = src.bytes tot (a + b) := by
  simp [Src.bytes, range_add, add_assoc]

@[simp] theorem length_bytes (src : Src) (tot len : Nat) : (src.bytes tot len).length = len := by simp [Src.bytes]

/-- A store within one block that `bmap` has just found or allocated. -/
theorem Grow.stores (h : Grow sb N D i c c' m) (hi : Live sb D i) (hx : slotAddr c' m (blockSlot (off / BSIZE)) ≠ 0)
    (hfit : bs.length ≤ BSIZE - off % BSIZE) :
    Wrote sb D i c (storeAt c' m off bs) m ∧ Stored c (storeAt c' m off bs) (D i) m off bs ∧
      slotAddr (storeAt c' m off bs) m (blockSlot (off / BSIZE)) ≠ 0 := by
  have hD : update D i m i = m := update_self ..
  have hx' : slotAddr c' (update D i m i) (blockSlot (off / BSIZE)) ≠ 0 := by rwa [hD]
  have hw := Wrote.store h.blocks (h.live hi) hx' (blockSlot_ne _)
    (setBytes (c' (slotAddr c' m (blockSlot (off / BSIZE)))) (off % BSIZE) bs)
  have hst := Stored.block h.blocks.toBooks (h.live hi) hx' hfit
  have hk := hw.keep _ hx'
  rw [hD] at hw hst hk
  have hstored := (h.stored off).append hst
  rw [nil_append] at hstored
  exact ⟨h.toWrote.trans hw, hstored, by rw [hk]; exact hx⟩

/-- The loop stores a stretch of the source from `tot` on. It stops at the end of the source, when the
    disk is full, or when a page of the source cannot be read; then the bytes before that page are
    stored but not counted. -/
theorem writeLoop_wp {Q : Nat × Nat → St → Prop} {src : Src} :
    ∀ {fuel off tot : Nat} {s : St} {D : Nat → Dinode}, Blocks sb s.cache D → Live sb D i →
    s.node k = D i → tot ≤ n → off + (n - tot) ≤ MAXFILE * BSIZE → Covered s.cache (D i) off →
    (∀ c' m' q, Wrote sb D i s.cache c' m' → slotAddr c' m' q ≠ 0 → Γ.atFault (slotAddr c' m' q)) →
    (∀ w len c' m', w ≤ len → tot + w ≤ n → (tot + w = n → len = w) → Wrote sb D i s.cache c' m' →
      Covered c' m' (off + w) → Stored s.cache c' (D i) m' off (src.bytes tot len) →
      Q (off + w, tot + w) (s.put k c' m')) → Γ.wp (writeLoop sb k src n off tot fuel) s Q
  | 0, off, tot, s, D, hB, _, hk, htot, _, hcov, _, hQ => by
    have := hQ 0 0 _ _ (le_refl 0) (by omega) (fun _ => rfl) (Wrote.refl (i := i) hB) hcov
      ((Grow.refl (N := Γ.skip) hB).stored off)
    rwa [St.put_self hk] at this
  | fuel + 1, off, tot, s, D, hB, hi, hk, htot, hle, hcov, hF, hQ => by
    rw [writeLoop, wp_ite]
    constructor
    · intro hlt
      rw [wp_bind]
      refine bmap_wp hB hi hk (div_lt_maxfile (Nat.sub_pos_of_lt hlt) hle) fun r c₁ m₁ hg hr _ => ?_
      rw [wp_ite]
      constructor
      · exact fun _ => hQ 0 0 _ _ (le_refl 0) (by omega) (fun _ => rfl) hg.toWrote (hg.covered hcov) (hg.stored off)
      · intro hr0
        obtain rfl := hr hr0
        -- the store goes to a data block of the inode as `bmap` left it
        have hmin : (src.copyin tot (min (n - tot) (BSIZE - off % BSIZE))).length ≤ BSIZE - off % BSIZE :=
          (copyin_length_le ..).trans (min_le_right ..)
        obtain ⟨hall, hstored, hnext⟩ := hg.stores hi hr0 hmin
        have hbytes := copyin_eq src tot (min (n - tot) (BSIZE - off % BSIZE))
        have hcov' := hall.covered hcov
        simp only [wp_bind, wp_bread, wp_ite]
        constructor
        · intro _
          simp only [wp_bfault, wp_brelse, wp_pure]
          refine ⟨hF _ _ _ hg.toWrote hr0, ?_⟩
          exact hQ 0 _ _ _ (Nat.zero_le _) (by omega) (by omega) hall hcov' (by rwa [← hbytes])
        · intro hfull
          have hlen : (src.copyin tot (min (n - tot) (BSIZE - off % BSIZE))).length =
              min (n - tot) (BSIZE - off % BSIZE) := le_antisymm (copyin_length_le ..) (by omega)
          simp only [wp_bmod, wp_logWrite, wp_brelse]
          have hD : update D i m₁ i = m₁ := update_self ..
          refine writeLoop_wp (D := update D i m₁)
            (s := s.put k (storeAt c₁ m₁ off (src.copyin tot (min (n - tot) (BSIZE - off % BSIZE)))) m₁)
            hall.blocks (hall.live hi) (by rw [St.put_node, hD]) (by omega) (by omega) ?_ ?_ ?_
          · rw [hD]; exact hcov'.extend (min_le_right ..) hnext
          · exact fun c' m' q hw' => hF c' m' q (hall.trans hw')
          · intro w len c' m' hwl hwn hend hw' hc' hst'
            rw [hD, St.put_cache] at hst'
            have hboth := hstored.append (by rwa [hlen])
            rw [hlen] at hbytes
            rw [hbytes, bytes_append] at hboth
            rw [St.put_put, add_assoc, add_assoc]
            refine hQ _ _ _ _ (by omega) (by omega) (by omega) (hall.trans hw') ?_ hboth
            rwa [← add_assoc]
    · intro _
      have := hQ 0 0 _ _ (le_refl 0) (by omega) (fun _ => rfl) (Wrote.refl (i := i) hB) hcov
        ((Grow.refl (N := Γ.skip) hB).stored off)
      rwa [St.put_self hk] at this

/-- Inode `i` has become `m'`, in memory and on disk; all else is as before. -/
structure Written (sb : Super) (D : Nat → Dinode) (i : Nat) (c c' : Nat → Block) (m' : Dinode) : Prop where
  blocks : Blocks sb c' (update D i m')
  others : ∀ j, j ≠ i → Live sb D j → Same c c' (D j)
  disk : ∀ j, j < sb.ninodes → dinode sb c' j = if j = i then m' else dinode sb c j

/-- `iupdate` after blocks have been written. -/
theorem Written.of_wrote (h : Wrote sb D i c c' m) (hi : Live sb D i) {m' : Dinode}
    (ha : m'.addrs = m.addrs) (ht : m'.type = m.type) (hsmall : m'.size.toNat ≤ MAXFILE * BSIZE)
    (hfull : Whole c' m') : Written sb D i c (putDinode sb c' i m') m' := by
  have hlive := h.live hi
  have hD : update D i m i = m := update_self ..
  have hB := h.blocks.setMeta hlive (m := m') (by rw [ht, h.type]; exact hi.2) (by rw [ha, hD]) hsmall hfull
  rw [update_idem] at hB
  refine ⟨hB.putDinode hi.1 m', fun j hj hl => ?_, fun j hj => ?_⟩
  · refine (h.others j hj hl).trans ?_
    have hlive : Live sb (update D i m) j := by rwa [Live, update_of_ne hj]
    have := h.blocks.same_data hlive fun x hx => putDinode_data hi.1 hx m'
    rwa [update_of_ne hj] at this
  · rw [dinode_putDinode, h.disk j hj]

theorem toNat_ofNat_size (h : n ≤ MAXFILE * BSIZE) : (UInt32.ofNat n).toNat = n :=
  UInt32.toNat_ofNat_of_lt' (h.trans_lt (by decide))

/-- The end of `writei`: the size is raised to the last offset, and the inode goes to disk. -/
theorem Written.of_covered (h : Wrote sb D i c c' m) (hB : Blocks sb c D) (hi : Live sb D i)
    (hoff : off ≤ MAXFILE * BSIZE) (hcov : Covered c' m off) :
    Written sb D i c (putDinode sb c' i { m with size := if off > m.size.toNat then UInt32.ofNat off else m.size })
      { m with size := if off > m.size.toNat then UInt32.ofNat off else m.size } := by
  refine Written.of_wrote h hi rfl rfl ?_ ?_
  · dsimp only
    split
    · rwa [toNat_ofNat_size hoff]
    · rw [h.size]; exact hB.small i hi
  · intro bn hbn
    change slotAddr c' m (blockSlot bn) ≠ 0
    dsimp only at hbn
    split at hbn
    · rw [toNat_ofNat_size hoff] at hbn
      exact hcov bn hbn
    · rw [h.size] at hbn
      exact h.covered (hB.covered hi) bn hbn

/-- Writing stores a stretch of the source in the contents of the inode, and raises its size to the end
    of what is counted. -/
theorem writei_wp {Q : Int → St → Prop} {src : Src} (hB : Blocks sb s.cache D)
    (hi : Live sb D i) (hk : s.node k = D i) (hinum : s.inum k = i)
    (hF : ∀ c' m' q, Wrote sb D i s.cache c' m' → slotAddr c' m' q ≠ 0 → Γ.atFault (slotAddr c' m' q))
    (hfail : Q (-1) s)
    (hQ : ∀ (w len : Nat) c' m', off ≤ (D i).size.toNat → w ≤ len → w ≤ n → (w = n → len = w) →
      Written sb D i s.cache c' m' → m' = { D i with addrs := m'.addrs, size := m'.size } →
      m'.size.toNat = max (D i).size.toNat (off + w) → Stored s.cache c' (D i) m' off (src.bytes 0 len) →
      Q w (s.put k c' m')) :
    Γ.wp (writei sb k src off n) s Q := by
  simp only [writei, wp_bind, wp_getNode]
  rw [wp_ite]
  refine ⟨fun _ => hfail, fun hoff => ?_⟩
  rw [wp_ite]
  refine ⟨fun _ => hfail, fun hmax => ?_⟩
  have hsz : off ≤ (D i).size.toNat := by rw [hk] at hoff; omega
  rw [wp_bind]
  refine writeLoop_wp hB hi hk (Nat.zero_le n) (by omega) ?_ hF fun w len c' m' hwl hwn hend hw hcov hst => ?_
  · exact (hB.covered hi).mono hsz
  rw [zero_add] at hwn hend ⊢
  have hle : off + w ≤ MAXFILE * BSIZE := by omega
  have hW := Written.of_covered hw hB hi hle hcov
  have hD : update D i m' i = m' := update_self ..
  have hfields : { m' with size := if off + w > m'.size.toNat then UInt32.ofNat (off + w) else m'.size } =
      { D i with addrs := m'.addrs, size := if off + w > m'.size.toNat then UInt32.ofNat (off + w) else m'.size } := by
    rw [hw.fields]
  have hsize : (if off + w > m'.size.toNat then UInt32.ofNat (off + w) else m'.size).toNat =
      max (D i).size.toNat (off + w) := by
    rw [hw.size]
    split
    · rw [toNat_ofNat_size hle]; omega
    · omega
  have hst' := Stored.putDinode (D := update D i m') hw.blocks (hw.live hi) (by rwa [hD])
    (m := { m' with size := if off + w > m'.size.toNat then UInt32.ofNat (off + w) else m'.size }) (by rw [hD])
  have hdone := hQ w len _ _ hsz hwl hwn hend hW hfields hsize hst'
  simp only [wp_bind, wp_getNode, St.put_node]
  by_cases hgt : off + w > m'.size.toNat
  · rw [if_pos hgt] at hdone ⊢
    simp only [wp_bind, wp_setNode, wp_iupdate, wp_pure]
    simpa [St.put, hinum] using hdone
  · rw [if_neg hgt] at hdone ⊢
    simp only [wp_bind, wp_iupdate, wp_pure]
    simpa [St.put, hinum] using hdone

/-! ### Writing one directory entry -/

/-- A write from kernel memory that stays within one block takes one round of the loop. -/
theorem writeLoop_block_wp {Q : Nat × Nat → St → Prop}
    (hB : Blocks sb s.cache D) (hi : Live sb D i) (hk : s.node k = D i) (hpos : 0 < bs.length)
    (hfit : off % BSIZE + bs.length ≤ BSIZE) (hmax : off + bs.length ≤ MAXFILE * BSIZE)
    (hfail : slotAddr s.cache (D i) (blockSlot (off / BSIZE)) = 0 →
      ∀ c₁ m₁, Grow sb Γ.skip D i s.cache c₁ m₁ → Q (off, 0) (s.put k c₁ m₁))
    (hok : ∀ c₁ m₁, Grow sb Γ.skip D i s.cache c₁ m₁ → slotAddr c₁ m₁ (blockSlot (off / BSIZE)) ≠ 0 →
      Q (off + bs.length, bs.length) (s.put k (storeAt c₁ m₁ off bs) m₁)) :
    Γ.wp (writeLoop sb k (.kernel bs) bs.length off 0 bs.length) s Q := by
  obtain ⟨r, hr⟩ : ∃ r, bs.length = r + 1 := ⟨bs.length - 1, by omega⟩
  have hm : min (r + 1 - 0) (BSIZE - off % BSIZE) = r + 1 := by omega
  have hcopy : (Src.kernel bs).copyin 0 (r + 1) = bs := by
    rw [Src.copyin, drop_zero, ← hr, take_length]
  rw [hr] at hmax hok ⊢
  rw [writeLoop, if_pos (Nat.succ_pos r), wp_bind]
  refine bmap_wp hB hi hk (div_lt_maxfile (Nat.succ_pos r) hmax) fun x c₁ m₁ hg hx hfull => ?_
  rw [wp_ite]
  refine ⟨fun h0 => hfail (hfull h0) _ _ hg, fun hx0 => ?_⟩
  obtain rfl := hx hx0
  simp only [wp_bind, wp_bread, hm, hcopy, hr, lt_self_iff_false, if_false, wp_bmod,
    wp_logWrite, wp_brelse, zero_add]
  have hend := hok _ _ hg hx0
  cases r with
  | zero => exact hend
  | succ r => rw [writeLoop, if_neg (lt_irrefl _)]; exact hend

/-- What a successful write of the entry `bs` at `off` makes of the directory `i`. -/
structure Entered (sb : Super) (N : Nat → Prop) (D : Nat → Dinode) (i off : Nat) (bs : List UInt8)
    (c c' : Nat → Block) (m' : Dinode) : Prop extends Written sb D i c c' m' where
  fields : m' = { D i with addrs := m'.addrs, size := m'.size }
  fresh : ∀ q, slotAddr c' m' q ≠ 0 → N (slotAddr c' m' q) → slotAddr c (D i) q = slotAddr c' m' q
  size : m'.size.toNat = max (D i).size.toNat (off + direntSize)
  stored : Stored c c' (D i) m' off bs

/-- What a failed one makes of it. -/
structure Unentered (sb : Super) (N : Nat → Prop) (D : Nat → Dinode) (i : Nat) (c c' : Nat → Block) (m' : Dinode) :
    Prop extends Written sb D i c c' m' where
  fields : m' = { D i with addrs := m'.addrs }
  fresh : ∀ q, slotAddr c' m' q ≠ 0 → N (slotAddr c' m' q) → slotAddr c (D i) q = slotAddr c' m' q
  stored : Stored c c' (D i) m' 0 []

theorem Unentered.of_grow (h : Grow sb N D i c c' m) (hB : Blocks sb c D) (hi : Live sb D i) :
    Unentered sb N D i c (putDinode sb c' i m) m := by
  have hD : update D i m i = m := update_self ..
  refine ⟨Written.of_wrote h.toWrote hi rfl rfl (by rw [h.size]; exact hB.small i hi) fun bn hbn => ?_, h.fields,
    fun q => ?_, ?_⟩
  · exact h.toWrote.covered (hB.covered hi) bn (by rwa [h.size] at hbn)
  · have := (h.blocks.same_data (h.live hi) fun x hx => putDinode_data hi.1 hx m).addr q
    rw [hD] at this
    rw [this]; exact h.fresh q
  · exact Stored.putDinode (D := update D i m) h.blocks (h.live hi) (by rw [hD]; exact h.stored 0) (by rw [hD])

theorem Entered.of_store (h : Grow sb N D i c c' m) (hB : Blocks sb c D) (hi : Live sb D i) (hlen : bs.length = direntSize) (h16 : off % direntSize = 0)
    (hoff : off ≤ (D i).size.toNat) (hmax : off + direntSize ≤ MAXFILE * BSIZE)
    (hx : slotAddr c' m (blockSlot (off / BSIZE)) ≠ 0) :
    Entered sb N D i off bs c
      (putDinode sb (storeAt c' m off bs) i
        { m with size := if off + direntSize > m.size.toNat then UInt32.ofNat (off + direntSize) else m.size })
      { m with size := if off + direntSize > m.size.toNat then UInt32.ofNat (off + direntSize) else m.size } := by
  have hD : update D i m i = m := update_self ..
  have hi₁ := h.live hi
  have hfit : direntSize ≤ BSIZE - off % BSIZE := by
    change off % 16 = 0 at h16; change 16 ≤ 1024 - off % 1024; omega
  obtain ⟨hall, hstored, hnext⟩ := h.stores hi hx (by rwa [hlen])
  have hcov : Covered _ m (off + direntSize) := (hall.covered ((hB.covered hi).mono hoff)).extend hfit hnext
  refine ⟨Written.of_covered hall hB hi hmax hcov, ?_, fun q => ?_, ?_, ?_⟩
  · rw [h.fields]
  · have hput := (hall.blocks.same_data (hall.live hi) fun x hx => putDinode_data hi.1 hx
      { m with size := if off + direntSize > m.size.toNat then UInt32.ofNat (off + direntSize) else m.size }).addr q
    have hst := h.blocks.addr_store hi₁ (blockSlot_ne (off / BSIZE))
      (setBytes (c' (slotAddr c' m (blockSlot (off / BSIZE)))) (off % BSIZE) bs) hi₁ q
    rw [hD] at hput hst
    change slotAddr _ m q ≠ 0 → N (slotAddr _ m q) → _ = slotAddr _ m q
    rw [hput, hst]; exact h.fresh q
  · dsimp only
    rw [h.size]
    split
    · rw [toNat_ofNat_size hmax]; omega
    · omega
  · exact Stored.putDinode (D := update D i m) hall.blocks (hall.live hi) (by rwa [hD]) (by rw [hD])

/-- Writing one entry at or below the end of a directory. -/
theorem writeDirent_wp {Q : Int → St → Prop} (hB : Blocks sb s.cache D)
    (hi : Live sb D i) (hk : s.node k = D i) (hinum : s.inum k = i) (hlen : bs.length = direntSize)
    (h16 : off % direntSize = 0) (hoff : off ≤ (D i).size.toNat)
    (hend : MAXFILE * BSIZE < off + direntSize → Q (-1) s)
    (hfail : (D i).size.toNat ≤ off → ∀ c' m', Unentered sb Γ.skip D i s.cache c' m' → Q 0 (s.put k c' m'))
    (hok : ∀ c' m', Entered sb Γ.skip D i off bs s.cache c' m' → Q direntSize (s.put k c' m')) :
    Γ.wp (writei sb k (.kernel bs) off direntSize) s Q := by
  have hsmall := hB.small i hi
  have hov : (off + direntSize) % 2 ^ 32 = off + direntSize := Nat.mod_eq_of_lt (by
    have : MAXFILE * BSIZE + direntSize < 2 ^ 32 := by decide
    omega)
  simp only [writei, wp_bind, wp_getNode, hk, hov]
  rw [if_neg (by omega), wp_ite]
  refine ⟨hend, fun hmax => ?_⟩
  rw [wp_bind, ← hlen]
  refine writeLoop_block_wp hB hi hk (by rw [hlen]; decide) ?_ (by rw [hlen]; omega) ?_ ?_
  · rw [hlen]; change off % 16 = 0 at h16; change off % 1024 + 16 ≤ 1024; omega
  · intro h0 c₁ m₁ hg
    have hfull : (D i).size.toNat ≤ off := Nat.le_of_not_lt fun hlt => (hB.full i hi).block hlt h0
    simp only [wp_bind, wp_getNode, St.put_node]
    rw [if_neg (by rw [hg.size]; omega)]
    simp only [wp_bind, wp_iupdate, wp_pure]
    simpa [St.put, hinum] using hfail hfull _ _ (Unentered.of_grow hg hB hi)
  · intro c₁ m₁ hg hx
    have hE := hok _ _ (Entered.of_store hg hB hi hlen h16 hoff (by omega) hx)
    rw [hlen]
    simp only [wp_bind, wp_getNode, St.put_node]
    by_cases hgt : off + direntSize > m₁.size.toNat
    · rw [if_pos hgt] at hE ⊢
      simp only [wp_bind, wp_setNode, wp_iupdate, wp_pure]
      simpa [St.put, hinum] using hE
    · rw [if_neg hgt] at hE ⊢
      simp only [wp_bind, wp_iupdate, wp_pure]
      simpa [St.put, hinum] using hE

end Xv6.Fs
