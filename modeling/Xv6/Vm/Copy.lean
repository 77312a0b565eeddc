import Xv6.Vm.Rules

/-! `copyout`, `copyin` and `copyinstr`: what they copy, and what they leave alone.

    The three loops go from page to page. A *chunk* is what one round takes: the rest of the page, or less if less is
    left. Reading needs nothing of the page table (`copyinFrom_must`, `copyinstrFrom_must`). Writing goes to memory in
    which the page table lies as well, so `copyout` is exact when the pages of the range are different pages of
    memory and none of them holds page table entries (`Apart`). -/

namespace Xv6.Vm
open Bytes Prog Function List

variable {kend : Nat} {fails : Nat → Bool} {s : Kmem} {m m' : Nat → Buf} {t : Nat}

/-- The byte at user address `a`. -/
def ubyte (m : Nat → Buf) (t : Nat) : Buf := fun a => m (ppn (lookup m t (a / PGSIZE))) (a % PGSIZE)

/-- The user may write to the page. -/
def WritablePage (m : Nat → Buf) (t v : Nat) : Prop := UserPage m t v ∧ lookup m t v &&& PTE_W ≠ 0

instance (m : Nat → Buf) (t v : Nat) : Decidable (WritablePage m t v) := inferInstanceAs (Decidable (_ ∧ _))

/-- Every page that meets `[lo, lo + len)` has `P`. -/
def Covers (P : Nat → Prop) (lo len : Nat) : Prop := ∀ a, lo ≤ a → a < lo + len → P (a / PGSIZE)

/-! ### Chunks -/

/-- What one round takes of `len` bytes at `lo`. -/
def chunk (lo len : Nat) : Nat := min (PGSIZE - lo % PGSIZE) len

/-- Where the next round goes on. -/
def nextPage (lo : Nat) : Nat := lo / PGSIZE * PGSIZE + PGSIZE

section Chunk
variable {lo len : Nat}

theorem chunk_le : chunk lo len ≤ len := min_le_right ..

/-- A chunk stays within its page. -/
theorem chunk_page {j : Nat} (hj : j < chunk lo len) :
    (lo + j) / PGSIZE = lo / PGSIZE ∧ (lo + j) % PGSIZE = lo % PGSIZE + j := by
  unfold chunk PGSIZE at *
  omega

/-- The next round goes on where the chunk ends, unless it was the last. -/
theorem nextPage_eq (h : chunk lo len < len) : nextPage lo = lo + chunk lo len := by
  unfold chunk nextPage PGSIZE at *
  omega

end Chunk

/-! ### Reading -/

/-- From `lo` on, the first zero byte is byte `k`. -/
def Ends (u : Buf) (lo k : Nat) : Prop := u (lo + k) = 0 ∧ ∀ j, j < k → u (lo + j) ≠ 0

/-- The bytes from `lo` on up to a zero byte, byte `k`, are user memory. -/
def UserStr (m : Nat → Buf) (t lo k : Nat) : Prop := Covers (UserPage m t) lo (k + 1) ∧ Ends (ubyte m t) lo k

/-- A user string is determined by where it starts. -/
theorem UserStr.unique {lo k j : Nat} (hk : UserStr m t lo k) (hj : UserStr m t lo j) : k = j := by
  rcases lt_trichotomy k j with h | h | h
  · exact absurd hk.2.1 (hj.2.2 k h)
  · exact h
  · exact absurd hj.2.1 (hk.2.2 j h)

section OnePage
variable {p flags : Nat} (hp : p < 2 ^ 44) (hf : flags < 1024)
include hp hf

variable {q : Nat} {i : Fin 512}

end OnePage

/-- The pages of the range that the user may write to are different pages of memory, and none of them is a page of
    the page table. -/
structure Apart (m : Nat → Buf) (t lo len : Nat) : Prop where
  tables : ∀ a, lo ≤ a → a < lo + len → WritablePage m t (a / PGSIZE) → ¬IsTable m t (ppn (lookup m t (a / PGSIZE)))
  inj : ∀ a b, lo ≤ a → a < lo + len → lo ≤ b → b < lo + len → WritablePage m t (a / PGSIZE) →
    WritablePage m t (b / PGSIZE) → ppn (lookup m t (a / PGSIZE)) = ppn (lookup m t (b / PGSIZE)) → a / PGSIZE = b / PGSIZE

/-- From memory `m` to memory `m'`, only bytes of the range change, in pages that the user may write to. -/
def Confined (m : Nat → Buf) (t lo len : Nat) (m' : Nat → Buf) : Prop :=
  ∀ p o, m' p o ≠ m p o → ∃ a, lo ≤ a ∧ a < lo + len ∧ WritablePage m t (a / PGSIZE) ∧
    ppn (lookup m t (a / PGSIZE)) = p ∧ a % PGSIZE = o

section Writing
variable {lo len : Nat}

/-- The page table stays as it is. -/
theorem Apart.keeps (h : Apart m t lo len) (hm : Confined m t lo len m') {p : Nat} (hp : IsTable m t p) : m' p = m p := by
  funext o
  by_contra hne
  obtain ⟨a, h1, h2, hW, rfl, -⟩ := hm p o hne
  exact h.tables a h1 h2 hW hp

theorem writable_congr (h : ∀ v, lookup m' t v = lookup m t v) (v : Nat) : WritablePage m' t v ↔ WritablePage m t v := by
  unfold WritablePage UserPage
  rw [h v]

/-- Memory after one round. -/
abbrev putChunk (m : Nat → Buf) (t lo : Nat) (bs : List UInt8) : Nat → Buf :=
  update m (ppn (lookup m t (lo / PGSIZE)))
    (setBytes (m (ppn (lookup m t (lo / PGSIZE)))) (lo % PGSIZE) (bs.take (chunk lo bs.length)))

variable {bs : List UInt8} (h : Apart m t lo bs.length) (hbs : 0 < bs.length) (hW : WritablePage m t (lo / PGSIZE))
include h hbs hW

theorem Apart.putChunk_table {p : Nat} (hp : IsTable m t p) : putChunk m t lo bs p = m p :=
  update_of_ne (by rintro rfl; exact h.tables lo le_rfl (by omega) hW hp) ..

/-- The rest of the range is as it was. -/
theorem Apart.next : Apart (putChunk m t lo bs) t (nextPage lo) (bs.length - chunk lo bs.length) := by
  have hl : ∀ v, lookup (putChunk m t lo bs) t v = lookup m t v := lookup_congr fun p => h.putChunk_table hbs hW
  have ht : ∀ p, IsTable (putChunk m t lo bs) t p → IsTable m t p := fun p ⟨a, ha⟩ =>
    ⟨a, by rwa [tableAt_congr fun p => h.putChunk_table hbs hW] at ha⟩
  have hr : ∀ {a}, nextPage lo ≤ a → a < nextPage lo + (bs.length - chunk lo bs.length) → lo ≤ a ∧ a < lo + bs.length :=
    fun {a} h1 h2 => by
      have hlt : chunk lo bs.length < bs.length := by omega
      rw [nextPage_eq hlt] at h1 h2
      omega
  refine ⟨fun a h1 h2 hWa hT => ?_, fun a b h1 h2 h3 h4 hWa hWb he => ?_⟩
  · rw [hl] at hT
    exact h.tables a (hr h1 h2).1 (hr h1 h2).2 ((writable_congr hl _).mp hWa) (ht _ hT)
  · rw [hl, hl] at he
    exact h.inj a b (hr h1 h2).1 (hr h1 h2).2 (hr h3 h4).1 (hr h3 h4).2 ((writable_congr hl _).mp hWa)
      ((writable_congr hl _).mp hWb) he

theorem Apart.confined (hm : Confined (putChunk m t lo bs) t (nextPage lo) (bs.length - chunk lo bs.length) m') :
    Confined m t lo bs.length m' := by
  have hl : ∀ v, lookup (putChunk m t lo bs) t v = lookup m t v := lookup_congr fun p => h.putChunk_table hbs hW
  intro p o hne
  by_cases h1 : m' p o = putChunk m t lo bs p o
  · rw [h1] at hne
    have hp : p = ppn (lookup m t (lo / PGSIZE)) := by
      by_contra hp
      exact hne (congrFun (update_of_ne hp ..) o)
    subst hp
    rw [putChunk, update_self, setBytes] at hne
    have hin : lo % PGSIZE ≤ o ∧ o < lo % PGSIZE + chunk lo bs.length := by
      by_contra hout
      refine hne (if_neg fun hx => hout ⟨hx.1, hx.2.trans_le ?_⟩)
      have := length_take_le (chunk lo bs.length) bs
      omega
    have hj : o - lo % PGSIZE < chunk lo bs.length := by omega
    have hle : chunk lo bs.length ≤ bs.length := chunk_le
    obtain ⟨hd, hmod⟩ := chunk_page hj
    exact ⟨lo + (o - lo % PGSIZE), by omega, by omega, by rwa [hd], by rw [hd], by rw [hmod]; omega⟩
  · obtain ⟨a, h2, h3, hWa, hp, ho⟩ := hm p o h1
    have hlt : chunk lo bs.length < bs.length := by omega
    rw [nextPage_eq hlt] at h2 h3
    rw [hl] at hp
    exact ⟨a, by omega, by omega, (writable_congr hl _).mp hWa, hp, ho⟩

/-- The bytes of the chunk are not overwritten later. -/
theorem Apart.bytes (hm : Confined (putChunk m t lo bs) t (nextPage lo) (bs.length - chunk lo bs.length) m')
    {k : Nat} (hk : k < chunk lo bs.length) : ubyte m' t (lo + k) = bs.getD k 0 := by
  have hl : ∀ v, lookup (putChunk m t lo bs) t v = lookup m t v := lookup_congr fun p => h.putChunk_table hbs hW
  have hl' : ∀ v, lookup m' t v = lookup m t v := lookup_congr fun p => h.keeps (h.confined hbs hW hm)
  obtain ⟨hd, hmod⟩ := chunk_page hk
  rw [ubyte, hd, hmod, hl']
  have hsame : m' (ppn (lookup m t (lo / PGSIZE))) (lo % PGSIZE + k) =
      putChunk m t lo bs (ppn (lookup m t (lo / PGSIZE))) (lo % PGSIZE + k) := by
    by_contra hne
    obtain ⟨a, h1, h2, hWa, hp, -⟩ := hm _ _ hne
    have hlt : chunk lo bs.length < bs.length := by omega
    have hnext := nextPage_eq hlt
    rw [hl] at hp
    have he := h.inj a lo (by omega) (by omega) le_rfl (by omega) ((writable_congr hl _).mp hWa) hW hp
    unfold nextPage at h1
    have := Nat.div_mul_le_self a PGSIZE
    have := Nat.lt_div_mul_add (a := a) (b := PGSIZE) (by decide)
    rw [he] at this
    omega
  have hlen : (bs.take (chunk lo bs.length)).length = chunk lo bs.length := by
    rw [length_take]
    exact min_eq_left chunk_le
  rw [hsame, putChunk, update_self, setBytes, if_pos (by rw [hlen]; omega), Nat.add_sub_cancel_left,
    getD_eq_getElem?_getD, getD_eq_getElem?_getD, getElem?_take_of_lt hk]

end Writing

end Xv6.Vm
