import Xv6.Fs.ContentSpec

/-! Files as arrays of bytes.

    `content c d` is the file behind inode `d`, a byte for every offset; a block that is missing reads as zeros.
    Files with missing blocks are allowed here, so the books alone (`Books`) are asked for. `Edit` is what the code
    does while it holds inode `i`: the inode gains blocks and its bytes become those given, no other inode notices,
    and no block is freed. `Noted` is what it owes to the log: whatever it changes is in the list of `log_write`. -/

namespace Xv6.Fs
open Bytes Function

variable {sb : Super} {D : Nat → Dinode} {i : Nat} {c c' : Nat → Block} {d m : Dinode}

/-- The bytes of a file. -/
def content (c : Nat → Block) (d : Dinode) : Buf := fun o => if Present c d o then byteAt c d o else 0

theorem content_of_present {o : Nat} (h : Present c d o) : content c d o = byteAt c d o := if_pos h

theorem Same.content (h : Same c c' d) : content c' d = content c d := by
  funext o
  by_cases hp : Present c d o
  · have hp' : Present c' d o := by rwa [Present, h.addr]
    rw [content_of_present hp', content_of_present hp, h.byteAt hp]
  · have hp' : ¬Present c' d o := by rwa [Present, h.addr]
    rw [Fs.content, Fs.content, if_neg hp', if_neg hp]

/-- A zeroed block in an empty slot adds no bytes. -/
theorem content_assign {q b : Nat} (hslot : ∀ r, slotAddr c' m r = if r = q then b else slotAddr c d r)
    (hq : slotAddr c d q = 0) (hz : q ≠ NDIRECT → c' b = zeroBlock)
    (hkeep : ∀ r, r ≠ NDIRECT → slotAddr c d r ≠ 0 → c' (slotAddr c d r) = c (slotAddr c d r)) :
    content c' m = content c d := by
  funext o
  have ho := hslot (blockSlot (o / BSIZE))
  by_cases hr : blockSlot (o / BSIZE) = q
  · have hp : ¬Present c d o := by rw [Present, hr, hq]; exact fun h => h rfl
    rw [if_pos hr] at ho
    have hzero : byteAt c' m o = 0 := by rw [byteAt, ho, hz (hr ▸ blockSlot_ne _)]; rfl
    rw [content, content, if_neg hp, hzero]
    exact ite_self _
  · rw [if_neg hr] at ho
    by_cases hp : Present c d o
    · have hp' : Present c' m o := by rwa [Present, ho]
      rw [content_of_present hp', content_of_present hp, byteAt, byteAt, ho, hkeep _ (blockSlot_ne _) hp]
    · have hp' : ¬Present c' m o := by rwa [Present, ho]
      rw [content, content, if_neg hp', if_neg hp]

/-! ### What the code does to one inode -/

/-- From contents `c` to contents `c'`, inode `i` becomes `m'`, with the bytes `v`. -/
structure Edit (sb : Super) (D : Nat → Dinode) (i : Nat) (c c' : Nat → Block) (m' : Dinode) (v : Buf) : Prop where
  books : Books sb c' (update D i m')
  fields : m' = { D i with addrs := m'.addrs }
  keep : ∀ q, slotAddr c (D i) q ≠ 0 → slotAddr c' m' q = slotAddr c (D i) q
  others : ∀ j, j ≠ i → Live sb D j → Same c c' (D j)
  disk : ∀ j, j < sb.ninodes → dinode sb c' j = dinode sb c j
  bytes : content c' m' = v

namespace Edit
variable {c₁ c₂ : Nat → Block} {m₁ m₂ : Dinode} {v w : Buf}

theorem refl (hB : Books sb c D) : Edit sb D i c c (D i) (content c (D i)) where
  books := by rwa [update_eq_self]
  fields := rfl
  keep := fun _ _ => rfl
  others := fun _ _ _ _ _ => rfl
  disk := fun _ _ => rfl
  bytes := rfl

theorem type (h : Edit sb D i c c₁ m₁ v) : m₁.type = (D i).type := by rw [h.fields]

theorem live (h : Edit sb D i c c₁ m₁ v) (hi : Live sb D i) : Live sb (update D i m₁) i := by
  rw [Live, update_self, h.type]; exact hi

theorem trans (h : Edit sb D i c c₁ m₁ v) (h' : Edit sb (update D i m₁) i c₁ c₂ m₂ w) :
    Edit sb D i c c₂ m₂ w where
  books := by have := h'.books; rwa [update_idem] at this
  fields := by
    have := h'.fields
    rw [update_self, h.fields] at this
    rw [this]
  keep := fun q hq => by
    have h1 := h.keep q hq
    have h2 := h'.keep q
    rw [update_self] at h2
    rw [h2 (by rwa [h1]), h1]
  others := fun j hj hl => by
    have h2 := h'.others j hj
    rw [Live, update_of_ne hj] at h2
    exact (h.others j hj hl).trans (h2 hl)
  disk := fun j hj => (h'.disk j hj).trans (h.disk j hj)
  bytes := h'.bytes

/-- `addrs[j] = balloc()`. -/
theorem slot (hB : Books sb c D) (hi : Live sb D i) {j : Fin (NDIRECT + 1)} (hj : (D i).addrs j = 0) {b : Nat}
    (hb : sb.Data b) (hu : bit sb c b = false) :
    Edit sb D i c (grab sb c b) ((D i).setAddr j (UInt32.ofNat b)) (content c (D i)) := by
  have hq : slotAddr c (D i) j = 0 := by rw [slotAddr_direct j.isLt, toNat_eq_zero]; exact hj
  have haddr := slotAddr_setAddr hb hj (fun _ => grab_self b) (hB.same_grab hi hb hu)
  refine ⟨?_, rfl, ?_, ?_, ?_, ?_⟩
  · exact hB.assign hi hq hb hu hi.2 (fun a ha => bit_grab hb ha) haddr fun _ _ hl => hB.same_grab hl hb hu
  · intro q hq'
    rw [haddr, if_neg (by rintro rfl; exact hq' hq)]
  · exact fun _ _ hl => hB.same_grab hl hb hu
  · exact fun _ hl => dinode_grab hb hl
  · exact content_assign haddr hq (fun _ => grab_self b) fun r _ hr => hB.same_grab hi hb hu r hr

/-- `a[j] = balloc()`. -/
theorem entry (hB : Books sb c D) (hi : Live sb D i) (hind : slotAddr c (D i) NDIRECT ≠ 0) {j : Nat}
    (hj : j < NINDIRECT) (hz : slotAddr c (D i) (NDIRECT + 1 + j) = 0) {b : Nat} (hb : sb.Data b)
    (hu : bit sb c b = false) :
    Edit sb D i c (grabEntry sb c (slotAddr c (D i) NDIRECT) j b) (D i) (content c (D i)) := by
  have hdata := hB.data hi hind
  have haddr := hB.slotAddr_entry hi hind hj hb hu
  have hne : b ≠ slotAddr c (D i) NDIRECT := (hB.ne_of_free hi hu hb.pos.ne' _).symm
  refine ⟨?_, rfl, ?_, ?_, ?_, ?_⟩
  · exact hB.assign hi hz hb hu hi.2 (fun a ha => by rw [bit_store ha hdata, bit_grab hb ha]) haddr
      fun _ hl hlive => hB.same_entry hi hind j hb hu hlive hl
  · intro q hq
    rw [haddr, if_neg (by rintro rfl; exact hq hz)]
  · exact fun _ hl hlive => hB.same_entry hi hind j hb hu hlive hl
  · intro l hl
    rw [dinode_store hl hdata, dinode_grab hb hl]
  · refine content_assign haddr hz (fun _ => by rw [grabEntry, update_of_ne hne, grab_self]) fun r hr hr0 => ?_
    have : slotAddr c (D i) r ≠ slotAddr c (D i) NDIRECT := fun he => hr (hB.inj hi hi he hr0).2
    rw [grabEntry, update_of_ne this, hB.same_grab hi hb hu r hr0]

/-- A store within one block of the inode. -/
theorem store (hB : Books sb c D) (hi : Live sb D i) {off : Nat} {bs : List UInt8} (hp : Present c (D i) off)
    (hfit : bs.length ≤ BSIZE - off % BSIZE) :
    Edit sb D i c (storeAt c (D i) off bs) (D i) (setBytes (content c (D i)) off bs) where
  books := by rw [update_eq_self]; exact hB.store hi hp (blockSlot_ne _) _
  fields := rfl
  keep := fun r _ => hB.addr_store hi (blockSlot_ne _) _ hi r
  others := fun _ hj hl => hB.same_store hi hl hj hp _
  disk := fun _ hj => dinode_store hj (hB.data hi hp) _
  bytes := by
    have hst := Stored.block hB hi hp hfit
    funext o
    by_cases ho : Present c (D i) o ∨ (off ≤ o ∧ o < off + bs.length)
    · obtain ⟨hpo, hbo⟩ := hst o ho
      rw [content_of_present hpo, hbo, setBytes, setBytes]
      split
      · rfl
      · rw [content_of_present (ho.resolve_right ‹_›)]
    · rw [not_or] at ho
      have hpo : ¬Present (storeAt c (D i) off bs) (D i) o := by
        rw [Present, hB.addr_store hi (blockSlot_ne _) _ hi]; exact ho.1
      rw [content, if_neg hpo, setBytes, if_neg ho.2, content, if_neg ho.1]

end Edit

/-! ### What the log hears of -/

/-- From contents `c` to contents `c'` and from the log header `lh` to `lh'`: every block that changes is in the
    log header. -/
structure Noted (c c' : Nat → Block) (lh lh' : List Nat) : Prop where
  kept : ∀ b ∈ lh, b ∈ lh'
  changed : ∀ b, c' b ≠ c b → b ∈ lh'

/-- `lh` after `log_write` of block `n`. -/
def logged (lh : List Nat) (n : Nat) : List Nat := if n ∈ lh then lh else lh ++ [n]

namespace Noted
variable {c₁ c₂ : Nat → Block} {lh lh₁ lh₂ : List Nat}

end Noted

end Xv6.Fs
