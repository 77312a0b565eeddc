import Xv6.Fs.ContentSpec

/-! What `itrunc` does: every block of the inode goes back to the free map.

    The direct slots are emptied one by one, and the books balance after each. The entries of the
    indirect block are freed while they still stand in it, so in the middle of that loop the books
    balance only if the entries already freed are read as empty (`Half`); clearing `addrs[NDIRECT]`
    makes that true. -/

namespace Xv6.Fs
open Prog hiding wp_bind wp_pure wp_when wp_mono
open Ctx Bytes Function List

variable {sb : Super} {Γ : Ctx} [Γ.Writes] {s : St} {D : Nat → Dinode} {i : Nat} {k : Slot}
  {c c' : Nat → Block} {d m : Dinode}

/-- From `c` to `c'` only the free map has changed. -/
structure MapOnly (sb : Super) (c c' : Nat → Block) : Prop where
  data : ∀ x, sb.Data x → c' x = c x
  disk : ∀ j, j < sb.ninodes → dinode sb c' j = dinode sb c j

theorem MapOnly.refl (c : Nat → Block) : MapOnly sb c c := ⟨fun _ _ => rfl, fun _ _ => rfl⟩

theorem MapOnly.trans {c'' : Nat → Block} (h : MapOnly sb c c') (h' : MapOnly sb c' c'') : MapOnly sb c c'' :=
  ⟨fun x hx => (h'.data x hx).trans (h.data x hx), fun j hj => (h'.disk j hj).trans (h.disk j hj)⟩

theorem MapOnly.putBit {b : Nat} (hb : sb.Data b) (v : Bool) : MapOnly sb c (putBit sb c b v) :=
  ⟨fun _ hx => putBit_data hb.2 hx v, fun _ hj => dinode_putBit hj b v⟩

/-! ### Direct blocks -/

/-- Free what stands at place `p`. -/
theorem free_place {addr : Nat × Nat → Nat} (h : Ledger addr sb.Data (fun b => bit sb c b = true))
    (hr : ∀ b, b < sb.nmeta → bit sb c b = true) {p : Nat × Nat} (hp : addr p ≠ 0) :
    Ledger (update addr p 0) sb.Data (fun b => bit sb (putBit sb c (addr p) false) b = true) ∧
      ∀ b, b < sb.nmeta → bit sb (putBit sb c (addr p) false) b = true := by
  refine ⟨(h.clear hp).congr (fun _ => rfl) fun b _ => ?_, fun b hb => ?_⟩
  · rw [bit_putBit]
    split <;> simp_all
  · rw [bit_putBit, if_neg (by rintro rfl; have := (h.inside p hp).1; omega)]
    exact hr b hb

variable {j : Fin (NDIRECT + 1)}

theorem slotAddr_clear (hj : j ≠ Fin.last NDIRECT) (hs : Same c c' d) (q : Nat) :
    slotAddr c' (d.setAddr j 0) q = if q = j then 0 else slotAddr c d q := by
  rw [← hs.addr]
  rcases lt_or_ge q (NDIRECT + 1) with hq | hq
  · rw [slotAddr_direct hq, slotAddr_direct hq, Dinode.setAddr_addrs]
    by_cases hqj : (⟨q, hq⟩ : Fin (NDIRECT + 1)) = j
    · simp [← hqj]
    · rw [update_of_ne hqj, if_neg fun h => hqj (Fin.ext h)]
  · have hne : q ≠ j := by have := j.isLt; omega
    have hlast : (d.setAddr j 0).addrs (Fin.last NDIRECT) = d.addrs (Fin.last NDIRECT) :=
      update_of_ne hj.symm ..
    rw [if_neg hne, slotAddr, slotAddr, dif_neg (by omega), dif_neg (by omega), hlast]

/-- `bfree(addrs[j]); addrs[j] = 0`. -/
theorem Books.clearSlot (h : Books sb c D) (hi : Live sb D i)
    (hj : j ≠ Fin.last NDIRECT) (hne : slotAddr c (D i) j ≠ 0) :
    Books sb (putBit sb c (slotAddr c (D i) j) false) (update D i ((D i).setAddr j 0)) := by
  have hdata := h.data hi hne
  have hsame : ∀ l, Live sb D l → Same c (putBit sb c (slotAddr c (D i) j) false) (D l) := fun l hl =>
    h.same_data hl (MapOnly.putBit hdata false).data
  have hz : addrOf sb c D (i, j) = slotAddr c (D i) j := addrOf_live hi _
  obtain ⟨hl, hr⟩ := free_place h.ledger h.reserved (p := (i, j)) (by rwa [hz])
  rw [hz] at hl hr
  refine ⟨hl.congr (fun p => ?_) fun _ _ => Iff.rfl, hr⟩
  rw [addrOf_update hi (m := (D i).setAddr j 0) hi.2 (slotAddr_clear hj (hsame i hi))
    fun l _ hl => (hsame l hl).addr]
  by_cases hp : p = (i, j.val)
  · rw [hp, update_self]; simp
  · rw [update_of_ne hp]
    by_cases h1 : p.1 = i
    · have h2 : p.2 ≠ j := fun h2 => hp (Prod.ext h1 h2)
      rw [if_pos h1, if_neg h2, ← addrOf_live hi, ← h1]
    · rw [if_neg h1]

/-- `addrs` with the given slots emptied. -/
def Dinode.clear (d : Dinode) (js : List (Fin (NDIRECT + 1))) : Dinode := js.foldl (·.setAddr · 0) d

theorem setAddr_of_zero (h : d.addrs j = 0) : d.setAddr j 0 = d := by
  rw [Dinode.setAddr, ← h, update_eq_self]

variable {U : Unit → St → Prop}

theorem itruncDirect_wp : ∀ {js : List (Fin (NDIRECT + 1))} {s : St} {D : Nat → Dinode},
    Fin.last NDIRECT ∉ js → Books sb s.cache D → Live sb D i → s.node k = D i →
    (∀ c', Books sb c' (update D i ((D i).clear js)) → MapOnly sb s.cache c' →
      U () (s.put k c' ((D i).clear js))) → Γ.wp (itruncDirect sb k js) s U
  | [], s, D, _, hB, _, hk, hU => by
    have := hU s.cache (by rwa [Dinode.clear, foldl_nil, update_eq_self]) (MapOnly.refl _)
    rwa [Dinode.clear, foldl_nil, St.put_self hk] at this
  | j :: js, s, D, hlast, hB, hi, hk, hU => by
    have hj : j ≠ Fin.last NDIRECT := fun h => hlast (by simp [h])
    have hjs : Fin.last NDIRECT ∉ js := fun h => hlast (mem_cons_of_mem _ h)
    have hcons : (D i).clear (j :: js) = ((D i).setAddr j 0).clear js := rfl
    rw [hcons] at hU
    simp only [itruncDirect, wp_bind, wp_getNode, hk]
    rw [wp_ite]
    constructor
    · intro hne
      have hslot : slotAddr s.cache (D i) j = ((D i).addrs j).toNat := slotAddr_direct j.isLt
      have hne' : slotAddr s.cache (D i) j ≠ 0 := by rw [hslot, Ne, toNat_eq_zero]; exact hne
      have hB' := hB.clearSlot hi hj hne'
      have hmap : MapOnly sb s.cache (putBit sb s.cache (slotAddr s.cache (D i) j) false) :=
        MapOnly.putBit (hB.data hi hne') false
      have hD : update D i ((D i).setAddr j 0) i = (D i).setAddr j 0 := update_self ..
      rw [wp_bind, ← hslot, wp_bfree (hB.used hi hne'), wp_bind, wp_setNode]
      refine itruncDirect_wp (s := s.put k (putBit sb s.cache (slotAddr s.cache (D i) j) false) ((D i).setAddr j 0))
        (D := update D i ((D i).setAddr j 0)) hjs hB' (by rw [Live, hD]; exact hi) (by simp) ?_
      intro c' hb hm
      rw [hD, update_idem] at hb
      rw [hD, St.put_put]
      exact hU c' hb (hmap.trans hm)
    · intro hz
      rw [setAddr_of_zero (not_not.mp hz)] at hU
      exact itruncDirect_wp hjs hB hi hk hU

/-! ### The indirect block -/

/-- `addrOf` with the first `n` entries of the indirect block of `i` read as empty. -/
def maskOf (sb : Super) (c : Nat → Block) (D : Nat → Dinode) (i n : Nat) (p : Nat × Nat) : Nat :=
  if p.1 = i ∧ NDIRECT < p.2 ∧ p.2 < NDIRECT + 1 + n then 0 else addrOf sb c D p

/-- The books in the middle of freeing the entries of an indirect block. -/
structure Half (sb : Super) (c₀ c : Nat → Block) (D : Nat → Dinode) (i n : Nat) : Prop where
  map : MapOnly sb c₀ c
  ledger : Ledger (maskOf sb c₀ D i n) sb.Data (fun b => bit sb c b = true)
  reserved : ∀ b, b < sb.nmeta → bit sb c b = true

theorem maskOf_zero (p : Nat × Nat) : maskOf sb c D i 0 p = addrOf sb c D p := if_neg (by omega)

theorem maskOf_succ (n : Nat) (p : Nat × Nat) :
    maskOf sb c D i (n + 1) p = update (maskOf sb c D i n) (i, NDIRECT + 1 + n) 0 p := by
  by_cases hp : p = (i, NDIRECT + 1 + n)
  · rw [hp, update_self, maskOf, if_pos ⟨rfl, by dsimp only; omega, by dsimp only; omega⟩]
  · rw [update_of_ne hp, maskOf, maskOf]
    have hiff : (p.1 = i ∧ NDIRECT < p.2 ∧ p.2 < NDIRECT + 1 + (n + 1)) =
        (p.1 = i ∧ NDIRECT < p.2 ∧ p.2 < NDIRECT + 1 + n) := by
      refine propext ⟨fun ⟨h1, h2, h3⟩ => ⟨h1, h2, ?_⟩, fun ⟨h1, h2, h3⟩ => ⟨h1, h2, by omega⟩⟩
      by_contra hge
      exact hp (Prod.ext h1 (by dsimp only; omega))
    simp only [hiff]

theorem Half.start (h : Books sb c D) : Half sb c c D i 0 :=
  ⟨MapOnly.refl c, h.ledger.congr maskOf_zero fun _ _ => Iff.rfl, h.reserved⟩

variable {c₀ : Nat → Block}

theorem Half.step {n : Nat} (h : Half sb c₀ c D i n)
    (hne : maskOf sb c₀ D i n (i, NDIRECT + 1 + n) ≠ 0) :
    Half sb c₀ (putBit sb c (maskOf sb c₀ D i n (i, NDIRECT + 1 + n)) false) D i (n + 1) := by
  obtain ⟨hl, hr⟩ := free_place h.ledger h.reserved hne
  exact ⟨h.map.trans (MapOnly.putBit (h.ledger.inside _ hne) false), hl.congr (maskOf_succ n) fun _ _ => Iff.rfl, hr⟩

theorem Half.skip {n : Nat} (h : Half sb c₀ c D i n)
    (hz : maskOf sb c₀ D i n (i, NDIRECT + 1 + n) = 0) : Half sb c₀ c D i (n + 1) :=
  ⟨h.map, h.ledger.congr (fun p => by rw [maskOf_succ, ← hz, update_eq_self]) fun _ _ => Iff.rfl, h.reserved⟩

theorem maskOf_entry {n : Nat} (hi : Live sb D i) (hind : slotAddr c (D i) NDIRECT ≠ 0) (hn : n < NINDIRECT) :
    maskOf sb c D i n (i, NDIRECT + 1 + n) = (getU32 (c (slotAddr c (D i) NDIRECT)) (4 * n)).toNat := by
  have hind' : (D i).addrs (Fin.last NDIRECT) ≠ 0 := by
    rwa [slotAddr_indirect, Ne, toNat_eq_zero] at hind
  rw [maskOf, if_neg (by dsimp only; omega), addrOf_live hi, slotAddr_indirect, slotAddr_entry hind' hn]

theorem itruncEntries_wp (hi : Live sb D i)
    (hind : slotAddr c₀ (D i) NDIRECT ≠ 0) : ∀ {len n : Nat} {s : St}, n + len = NINDIRECT →
    Half sb c₀ s.cache D i n →
    (∀ c', Half sb c₀ c' D i NINDIRECT → U () { s with cache := c' }) →
    Γ.wp (itruncEntries sb (c₀ (slotAddr c₀ (D i) NDIRECT)) (range' n len)) s U
  | 0, n, s, hn, h, hU => by
    obtain rfl : n = NINDIRECT := by omega
    exact hU _ h
  | len + 1, n, s, hn, h, hU => by
    have hent := maskOf_entry hi hind (n := n) (by omega)
    rw [range'_succ, itruncEntries, wp_ite]
    constructor
    · intro hne
      have hne' : maskOf sb c₀ D i n (i, NDIRECT + 1 + n) ≠ 0 := by rw [hent, Ne, toNat_eq_zero]; exact hne
      rw [wp_bind, ← hent, wp_bfree (h.ledger.used_of_place hne')]
      exact itruncEntries_wp hi hind (by omega) (h.step hne') hU
    · intro hz
      rw [not_not, ← toNat_eq_zero, ← hent] at hz
      exact itruncEntries_wp hi hind (by omega) (h.skip hz) hU

theorem slotAddr_clear_indirect (q : Nat) :
    slotAddr c' (d.setAddr (Fin.last NDIRECT) 0) q = if q < NDIRECT then slotAddr c d q else 0 := by
  obtain h | h | ⟨r, hr, rfl⟩ | h := slot_cases q
  · rw [if_pos h, slotAddr_direct (by omega), slotAddr_direct (by omega), Dinode.setAddr_addrs,
      update_of_ne (by rintro he; have := congrArg Fin.val he; dsimp only [Fin.last] at this; omega)]
  · rw [if_neg (by omega), h, slotAddr_indirect]; simp
  · rw [if_neg (by omega), slotAddr_of_no_indirect (by simp) (by omega)]
  · rw [if_neg (by omega), slotAddr_of_large h]

/-- `bfree(addrs[NDIRECT]); addrs[NDIRECT] = 0`, all entries freed before. -/
theorem Half.done (h : Half sb c₀ c D i NINDIRECT) (hB : Books sb c₀ D) (hi : Live sb D i)
    (hind : slotAddr c₀ (D i) NDIRECT ≠ 0) :
    bit sb c (slotAddr c₀ (D i) NDIRECT) = true ∧
      Books sb (putBit sb c (slotAddr c₀ (D i) NDIRECT) false)
        (update D i ((D i).setAddr (Fin.last NDIRECT) 0)) ∧
      MapOnly sb c₀ (putBit sb c (slotAddr c₀ (D i) NDIRECT) false) := by
  have hp : maskOf sb c₀ D i NINDIRECT (i, NDIRECT) = slotAddr c₀ (D i) NDIRECT := by
    rw [maskOf, if_neg (by dsimp only; omega), addrOf_live hi]
  have hne : maskOf sb c₀ D i NINDIRECT (i, NDIRECT) ≠ 0 := by rwa [hp]
  obtain ⟨hl, hr⟩ := free_place h.ledger h.reserved hne
  have hmap := h.map.trans (MapOnly.putBit (h.ledger.inside _ hne) false)
  have hused := h.ledger.used_of_place hne
  rw [hp] at hl hr hmap hused
  refine ⟨hused, ⟨hl.congr (fun p => ?_) fun _ _ => Iff.rfl, hr⟩, hmap⟩
  rw [addrOf_update hi (m := (D i).setAddr (Fin.last NDIRECT) 0) hi.2 (slotAddr_clear_indirect (c := c₀))
    fun l _ hl => (hB.same_data hl hmap.data).addr]
  obtain ⟨l, q⟩ := p
  by_cases hl : l = i
  · subst hl
    rw [if_pos rfl]
    by_cases hq : q = NDIRECT
    · rw [hq, update_self, if_neg (by simp)]
    · rw [update_of_ne (fun h => hq (Prod.mk.inj h).2), maskOf]
      obtain h | h | ⟨r, hr, rfl⟩ | h := slot_cases q
      · rw [if_pos h, if_neg (by dsimp only; omega), addrOf_live hi]
      · exact absurd h hq
      · rw [if_neg (by omega), if_pos ⟨rfl, by dsimp only; omega, by dsimp only; omega⟩]
      · rw [if_neg (by dsimp only; omega), if_neg (by dsimp only; omega), addrOf_live hi, slotAddr_of_large h]
  · rw [if_neg hl, update_of_ne (fun h => hl (Prod.mk.inj h).1), maskOf, if_neg (fun h => hl h.1)]

theorem itruncIndirect_wp (hB : Books sb s.cache D) (hi : Live sb D i)
    (hk : s.node k = D i)
    (hU : ∀ c', Books sb c' (update D i ((D i).setAddr (Fin.last NDIRECT) 0)) → MapOnly sb s.cache c' →
      U () (s.put k c' ((D i).setAddr (Fin.last NDIRECT) 0))) : Γ.wp (itruncIndirect sb k) s U := by
  simp only [itruncIndirect, wp_bind, wp_getNode, hk]
  rw [wp_ite]
  constructor
  · intro hne
    have hslot : slotAddr s.cache (D i) NDIRECT = ((D i).addrs (Fin.last NDIRECT)).toNat := slotAddr_indirect
    have hind : slotAddr s.cache (D i) NDIRECT ≠ 0 := by rw [hslot, Ne, toNat_eq_zero]; exact hne
    simp only [wp_bind, wp_bread, wp_brelse, ← hslot, range_eq_range']
    refine itruncEntries_wp hi hind (zero_add _) (Half.start hB) fun c' hhalf => ?_
    obtain ⟨hused, hbooks, hmap⟩ := hhalf.done hB hi hind
    rw [wp_bfree hused]
    simp only [wp_setNode]
    exact hU _ hbooks hmap
  · intro hz
    rw [setAddr_of_zero (not_not.mp hz), update_eq_self] at hU
    have := hU s.cache hB (MapOnly.refl _)
    rwa [St.put_self hk] at this

/-! ### `itrunc` -/

/-- The inode without contents. -/
def Dinode.truncated (d : Dinode) : Dinode := { d with size := 0, addrs := fun _ => 0 }

theorem clear_addrs : ∀ (js : List (Fin (NDIRECT + 1))) (d : Dinode) (j : Fin (NDIRECT + 1)),
    (d.clear js).addrs j = if j ∈ js then 0 else d.addrs j
  | [], _, _ => by simp [Dinode.clear]
  | l :: js, d, j => by
    have hcons : d.clear (l :: js) = (d.setAddr l 0).clear js := rfl
    rw [hcons, clear_addrs js, Dinode.setAddr_addrs]
    by_cases hjs : j ∈ js
    · simp [hjs]
    · by_cases hl : j = l
      · simp [hl]
      · simp [hjs, hl]

theorem clear_eq : ∀ (js : List (Fin (NDIRECT + 1))) (d : Dinode), ∃ a, d.clear js = { d with addrs := a }
  | [], _ => ⟨_, rfl⟩
  | l :: js, d => clear_eq js (d.setAddr l 0)

theorem last_not_mem_directs : Fin.last NDIRECT ∉ directs := by decide

theorem truncated_eq (d : Dinode) :
    { (d.clear directs).setAddr (Fin.last NDIRECT) 0 with size := 0 } = d.truncated := by
  have haddrs : update (d.clear directs).addrs (Fin.last NDIRECT) 0 = fun _ => 0 := by
    funext j
    by_cases hj : j = Fin.last NDIRECT
    · rw [hj, update_self]
    · have hmem : j ∈ directs := mem_map.mpr
        ⟨j.castPred hj, mem_finRange _, Fin.castSucc_castPred j hj⟩
      rw [update_of_ne hj, clear_addrs, if_pos hmem]
  obtain ⟨a, ha⟩ := clear_eq directs d
  rw [ha] at haddrs ⊢
  rw [Dinode.truncated, Dinode.setAddr, haddrs]

/-- An inode with nothing in `addrs` and no size. -/
theorem Blocks.of_truncated (hB : Blocks sb c D) (hi : Live sb D i) (hmap : MapOnly sb c c')
    (hbooks : Books sb c' (update D i m)) (hm : m.type ≠ 0) (haddrs : ∀ j, m.addrs j = 0) {m' : Dinode}
    (hm' : m'.type ≠ 0) (haddrs' : ∀ j, m'.addrs j = 0) (hsize : m'.size = 0) :
    Blocks sb c' (update D i m') where
  ledger := hbooks.ledger.congr (fun p => by
    have hsame : ∀ l, l ≠ i → Live sb D l → ∀ q, slotAddr c' (D l) q = slotAddr c (D l) q := fun l _ hl =>
      (hB.same_data hl hmap.data).addr
    have heq : ∀ q, slotAddr c' m' q = slotAddr c' m q :=
      slotAddr_of_addrs (funext fun j => by rw [haddrs, haddrs'])
    rw [addrOf_update hi hm' heq hsame, addrOf_update hi hm (fun _ => rfl) hsame]) fun _ _ => Iff.rfl
  reserved := hbooks.reserved
  small := (live_update hi.1 hm' (P := fun _ d => d.size.toNat ≤ _)).mpr
    ⟨by rw [hsize]; exact Nat.zero_le _, fun j _ => hB.small j⟩
  full := by
    refine (live_update hi.1 hm' (P := fun _ d => Whole c' d)).mpr ⟨fun bn hbn => ?_, fun j _ hl bn hbn => ?_⟩
    · rw [hsize] at hbn; exact absurd hbn (Nat.not_lt_zero _)
    · rw [(hB.same_data hl hmap.data).addr]; exact hB.full j hl bn hbn

/-- `itrunc` leaves the inode without contents, in memory and on disk. -/
theorem itrunc_wp (hB : Blocks sb s.cache D) (hi : Live sb D i)
    (hk : s.node k = D i) (hinum : s.inum k = i)
    (hU : ∀ c', Written sb D i s.cache c' (D i).truncated → U () (s.put k c' (D i).truncated)) :
    Γ.wp (itrunc sb k) s U := by
  rw [itrunc, wp_bind]
  refine itruncDirect_wp last_not_mem_directs hB.toBooks hi hk fun c₁ hbooks₁ hmap₁ => ?_
  have hD : update D i ((D i).clear directs) i = (D i).clear directs := update_self ..
  have htype : ((D i).clear directs).type = (D i).type := by
    obtain ⟨a, ha⟩ := clear_eq directs (D i)
    rw [ha]
  rw [wp_bind]
  refine itruncIndirect_wp (D := update D i ((D i).clear directs)) hbooks₁
    (by rw [Live, hD, htype]; exact hi) (by rw [St.put_node, hD]) fun c₂ hbooks₂ hmap₂ => ?_
  rw [hD, update_idem] at hbooks₂
  rw [hD, St.put_put]
  have hmap := hmap₁.trans hmap₂
  have haddrs : ∀ j, (((D i).clear directs).setAddr (Fin.last NDIRECT) 0).addrs j = 0 := fun j => by
    have := congrArg (fun m => m.addrs j) (truncated_eq (D i))
    exact this
  have hblocks := hB.of_truncated hi hmap hbooks₂ (by change ((D i).clear directs).type ≠ 0; rw [htype]; exact hi.2) haddrs
    (show (D i).truncated.type ≠ 0 from hi.2) (fun _ => rfl) rfl
  simp only [wp_bind, wp_getNode, St.put_node, truncated_eq, wp_setNode, wp_iupdate]
  have hend := hU (putDinode sb c₂ i (D i).truncated) ⟨hblocks.putDinode hi.1 _, fun j hj hl => ?_, fun j hj => ?_⟩
  · simpa [St.put, hinum] using hend
  · refine hB.same_data hl fun x hx => ?_
    rw [putDinode_data hi.1 hx, hmap.data x hx]
  · rw [dinode_putDinode, hmap.disk j hj]

end Xv6.Fs
