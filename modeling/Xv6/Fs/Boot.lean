import Xv6.Fs.ProcSpec

/-! Runs of system calls from boot, and what holds after every call whatever the directory tree looks like.

    An `Image` is a disk in order: the books of its blocks balance, no file has a hole, directories
    consist of whole entries with possible inode numbers, and there is a root. It is decidable, so that
    a given disk can be checked. `boot` is the system that `fsinit` and `userinit` start on a disk, and a
    run is a list of calls, each by some process and from beginning to end.

    Every call keeps `Inv`, with no tokens and no locks left over, and so does every run. -/

namespace Xv6.Fs
open Prog Function List

variable {sb : Super} {Γ : Ctx} {c : Nat → Block} {s : St} {σ σ' : Sys} {p : Pid} {call : Call}
  {calls : List (Pid × Call)}

/-! ### Images -/

/-- The block numbers in `addrs` and in the indirect block of an inode. -/
def blocksOf (c : Nat → Block) (d : Dinode) : List Nat :=
  let direct := (finRange (NDIRECT + 1)).map fun j => (d.addrs j).toNat
  let indirect :=
    if d.addrs (Fin.last NDIRECT) = 0 then []
    else (range NINDIRECT).map fun j => (Bytes.getU32 (c (d.addrs (Fin.last NDIRECT)).toNat) (4 * j)).toNat
  (direct ++ indirect).filter (· ≠ 0)

/-- The blocks that allocated inodes name, as often as they are named. -/
def ownedBlocks (sb : Super) (c : Nat → Block) : List Nat :=
  ((range sb.ninodes).filter fun i => (dinode sb c i).type ≠ 0).flatMap fun i => blocksOf c (dinode sb c i)

/-- A data block is marked in the free map exactly if it is named exactly once, and none is named twice. -/
structure Owned (sb : Super) (c : Nat → Block) : Prop where
  once : (ownedBlocks sb c).Nodup
  marked : ∀ b < sb.size, sb.nmeta ≤ b → (bit sb c b = true ↔ (ownedBlocks sb c).count b = 1)

/-- No block below the size of an inode is missing. -/
def NoHoles (sb : Super) (c : Nat → Block) : Prop :=
  ∀ i < sb.ninodes, (dinode sb c i).type ≠ 0 → ∀ bn < MAXFILE, bn * BSIZE < (dinode sb c i).size.toNat →
    slotAddr c (dinode sb c i) (blockSlot bn) ≠ 0

structure Image (sb : Super) (c : Nat → Block) : Prop where
  owned : Owned sb c
  noHoles : NoHoles sb c
  inside : ∀ b ∈ ownedBlocks sb c, sb.Data b
  reserved : ∀ b < sb.nmeta, bit sb c b = true
  small : ∀ i < sb.ninodes, (dinode sb c i).type ≠ 0 → (dinode sb c i).size.toNat ≤ MAXFILE * BSIZE
  dirSize : ∀ i < sb.ninodes, (dinode sb c i).type = T_DIR → (dinode sb c i).size.toNat % direntSize = 0
  dirEnts : ∀ i < sb.ninodes, ∀ e ∈ entries c (dinode sb c i), e.inum < sb.ninodes
  root : (dinode sb c ROOTINO).type = T_DIR

instance : Decidable (Owned sb c) :=
  decidable_of_iff _ ⟨fun h : (ownedBlocks sb c).Nodup ∧ ∀ b < sb.size, sb.nmeta ≤ b →
    (bit sb c b = true ↔ (ownedBlocks sb c).count b = 1) => ⟨h.1, h.2⟩, fun h => ⟨h.1, h.2⟩⟩

instance : Decidable (NoHoles sb c) := by unfold NoHoles; infer_instance

instance : Decidable (Image sb c) :=
  decidable_of_iff (Owned sb c ∧ NoHoles sb c ∧ (∀ b ∈ ownedBlocks sb c, sb.Data b) ∧
      (∀ b < sb.nmeta, bit sb c b = true) ∧
      (∀ i < sb.ninodes, (dinode sb c i).type ≠ 0 → (dinode sb c i).size.toNat ≤ MAXFILE * BSIZE) ∧
      (∀ i < sb.ninodes, (dinode sb c i).type = T_DIR → (dinode sb c i).size.toNat % direntSize = 0) ∧
      (∀ i < sb.ninodes, ∀ e ∈ entries c (dinode sb c i), e.inum < sb.ninodes) ∧ (dinode sb c ROOTINO).type = T_DIR)
    ⟨fun ⟨h1, h2, h3, h4, h5, h6, h7, h8⟩ => ⟨h1, h2, h3, h4, h5, h6, h7, h8⟩,
      fun ⟨h1, h2, h3, h4, h5, h6, h7, h8⟩ => ⟨h1, h2, h3, h4, h5, h6, h7, h8⟩⟩

/-- A disk with the given inodes, the first `used` blocks marked, and the given data blocks. -/
def format (sb : Super) (nodes : Nat → Dinode) (used : Nat) (data : Nat → Block) : Nat → Block := fun b =>
  if b < sb.inodestart then zeroBlock
  else if b < sb.bmapstart then fun o => (nodes ((b - sb.inodestart) * IPB + o / dinodeSize)).byte (o % dinodeSize)
  else if b < sb.nmeta then fun o => UInt8.ofNat ((2 ^ used - 1) / 2 ^ (8 * o))
  else data b

/-- A directory inode with one block, and the contents of such a block. -/
def dirNode (nlink : Int16) (size a : UInt32) : Dinode :=
  ⟨T_DIR, 0, 0, nlink, size, fun j => if j.val = 0 then a else 0⟩

def dirBlock (es : Nat → Entry) : Block := fun o =>
  (direntBytes (es (o / direntSize)).name (es (o / direntSize)).inum).getD (o % direntSize) 0

/-- The layout of a small disk: block 39 is the first data block. -/
def small : Super where
  size := 44
  ninodes := 80
  nlog := 30
  logstart := 2
  inodestart := 32
  bmapstart := 38
  nlog_pos := by decide
  nlog_le := by decide
  logstart_ge := by decide
  log_le := by decide
  inodes_le := by decide
  bmap_le := by decide
  size_lt := by decide
  root_lt := by decide
  ninodes_le := by decide

/-- An empty file system. -/
def emptyDisk : Nat → Block :=
  format small (fun i => if i = ROOTINO then dirNode 1 32 39 else Dinode.zero) 40 fun b =>
    if b = 39 then dirBlock fun j => if j = 0 then ⟨ROOTINO, dot⟩ else ⟨ROOTINO, dotdot⟩ else zeroBlock

theorem image_emptyDisk : Image small emptyDisk := by decide +kernel

theorem blocksOf_eq (c : Nat → Block) (d : Dinode) :
    blocksOf c d = ((range (NDIRECT + 1 + NINDIRECT)).map (slotAddr c d)).filter (· ≠ 0) := by
  have hdirect : (finRange (NDIRECT + 1)).map (fun j => (d.addrs j).toNat) =
      (range (NDIRECT + 1)).map (slotAddr c d) := by
    rw [← map_coe_finRange_eq_range, map_map]
    exact map_congr_left fun j _ => (slotAddr_direct j.isLt).symm
  rw [blocksOf, range_add, map_append, filter_append, filter_append, hdirect, map_map]
  refine congrArg _ ?_
  split
  · rename_i h0
    symm
    refine filter_eq_nil_iff.mpr fun b hb => ?_
    obtain ⟨j, _, rfl⟩ := mem_map.mp hb
    simp [slotAddr_of_no_indirect h0 (show NDIRECT < NDIRECT + 1 + j by omega)]
  · rename_i h0
    refine congrArg _ (map_congr_left fun j hj => ?_)
    exact (slotAddr_entry h0 (mem_range.mp hj)).symm

theorem mem_blocksOf {d : Dinode} {b : Nat} : b ∈ blocksOf c d ↔ b ≠ 0 ∧ ∃ q, slotAddr c d q = b := by
  simp only [blocksOf_eq, mem_filter, mem_map, mem_range, decide_eq_true_eq]
  constructor
  · rintro ⟨⟨q, _, hq⟩, h0⟩
    exact ⟨h0, q, hq⟩
  · rintro ⟨h0, q, rfl⟩
    exact ⟨⟨q, Nat.lt_of_not_le fun hq => h0 (slotAddr_of_large hq), rfl⟩, h0⟩

/-- The block numbers of an inode differ exactly if no two slots hold the same one. -/
theorem nodup_blocksOf {d : Dinode} :
    (blocksOf c d).Nodup ↔ ∀ q r, slotAddr c d q = slotAddr c d r → slotAddr c d q ≠ 0 → q = r := by
  rw [blocksOf_eq, filter_map]
  have hmem : ∀ q, slotAddr c d q ≠ 0 →
      q ∈ (range (NDIRECT + 1 + NINDIRECT)).filter ((fun b => decide (b ≠ 0)) ∘ slotAddr c d) := fun q hq =>
    mem_filter.mpr ⟨mem_range.mpr (Nat.lt_of_not_le fun h => hq (slotAddr_of_large h)), by simpa using hq⟩
  constructor
  · intro h q r hqr h0
    exact inj_on_of_nodup_map h (hmem q h0) (hmem r (hqr ▸ h0)) hqr
  · intro h
    refine List.Nodup.map_on (fun q hq r _ hqr => h q r hqr ?_) (nodup_range.filter _)
    simpa using (mem_filter.mp hq).2

theorem mem_ownedBlocks {b : Nat} : b ∈ ownedBlocks sb c ↔ b ≠ 0 ∧ ∃ p, addrOf sb c (dinode sb c) p = b := by
  simp only [ownedBlocks, mem_flatMap, mem_filter, mem_range, decide_eq_true_eq, mem_blocksOf]
  constructor
  · rintro ⟨i, hi, h0, q, rfl⟩
    exact ⟨h0, (i, q), addrOf_live hi q⟩
  · rintro ⟨h0, ⟨i, q⟩, rfl⟩
    by_cases hi : Live sb (dinode sb c) i
    · exact ⟨i, hi, h0, q, (addrOf_live hi q).symm⟩
    · exact absurd (if_neg hi) h0

theorem nodup_ownedBlocks : (ownedBlocks sb c).Nodup ↔
    ∀ p q, addrOf sb c (dinode sb c) p = addrOf sb c (dinode sb c) q → addrOf sb c (dinode sb c) p ≠ 0 → p = q := by
  have hlive : ∀ i, i ∈ (range sb.ninodes).filter (fun i => decide ((dinode sb c i).type ≠ 0)) ↔
      Live sb (dinode sb c) i := fun i => by simp
  rw [ownedBlocks, nodup_flatMap]
  constructor
  · rintro ⟨hone, htwo⟩ ⟨i, q⟩ ⟨j, r⟩ heq h0
    have hi : Live sb (dinode sb c) i := by_contra fun hi => h0 (if_neg hi)
    have hj : Live sb (dinode sb c) j := by_contra fun hj => h0 (heq.trans (if_neg hj))
    rw [addrOf_live hi, addrOf_live hj] at heq
    rw [addrOf_live hi] at h0
    rcases eq_or_ne i j with rfl | hne
    · rw [nodup_blocksOf.mp (hone i ((hlive i).mpr hi)) q r heq h0]
    · have : Std.Symm (onFun List.Disjoint fun i => blocksOf c (dinode sb c i)) := ⟨fun _ _ h => h.symm⟩
      have hdis := htwo.forall ((hlive i).mpr hi) ((hlive j).mpr hj) hne
      exact (hdis (mem_blocksOf.mpr ⟨h0, q, rfl⟩) (mem_blocksOf.mpr ⟨h0, r, heq.symm⟩)).elim
  · intro h
    refine ⟨fun i hi => nodup_blocksOf.mpr fun q r hqr h0 => ?_, ?_⟩
    · have hi := (hlive i).mp hi
      rw [← addrOf_live hi, ← addrOf_live hi] at hqr
      rw [← addrOf_live hi] at h0
      exact (Prod.mk.inj (h _ _ hqr h0)).2
    · refine (nodup_range.filter _).pairwise_of_forall_ne fun i hi j hj hne b hb hb' => hne ?_
      obtain ⟨h0, q, hq⟩ := mem_blocksOf.mp hb
      obtain ⟨_, r, hr⟩ := mem_blocksOf.mp hb'
      rw [← addrOf_live ((hlive i).mp hi)] at hq
      rw [← addrOf_live ((hlive j).mp hj)] at hr
      exact (Prod.mk.inj (h _ _ (hq.trans hr.symm) (hq ▸ h0))).1

/-- Balanced books are what ownership asks for. -/
theorem Books.owned (h : Books sb c (dinode sb c)) : Owned sb c := by
  have hnodup := nodup_ownedBlocks.mpr h.ledger.inj
  refine ⟨hnodup, fun b hlt hge => ?_⟩
  rw [h.ledger.used_iff b ⟨hge, hlt⟩, hnodup.count]
  have h0 := h.ledger.pos b ⟨hge, hlt⟩
  simp [mem_ownedBlocks, h0]

theorem Image.blocks (h : Image sb c) : Blocks sb c (dinode sb c) where
  ledger := {
    pos := fun b hb => hb.pos.ne'
    inside := fun p h0 => h.inside _ (mem_ownedBlocks.mpr ⟨h0, p, rfl⟩)
    inj := nodup_ownedBlocks.mp h.owned.once
    used_iff := fun b hb => by
      rw [h.owned.marked b hb.2 hb.1, h.owned.once.count]
      simp [mem_ownedBlocks, hb.pos.ne'] }
  reserved := h.reserved
  small := fun i hi => h.small i hi.1 hi.2
  full := fun i hi bn hbn => h.noHoles i hi.1 hi.2 bn (by
    have := h.small i hi.1 hi.2
    by_contra hge
    have : MAXFILE * BSIZE ≤ bn * BSIZE := Nat.mul_le_mul_right _ (by omega)
    omega) hbn

/-! ### Boot -/

/-- The entry of the inode table that the root directory gets. -/
def rootSlot : Slot := ⟨0, by decide⟩

/-- The system when `userinit` is done: the first process is in the root directory, whose inode has not
    been read, and there are no open files. -/
def boot (c : Nat → Block) : Sys where
  fs := {
    cache := c
    dev := fun k => if k = rootSlot then ROOTDEV else 0
    inum := fun k => if k = rootSlot then ROOTINO else 0
    ref := fun k => if k = rootSlot then 1 else 0
    ilk := fun _ => none
    valid := fun _ => false
    node := fun _ => Dinode.zero
    file := fun _ => ⟨.none, 0, false, false, rootSlot, 0, 0⟩
    cwd := fun p => if p = initproc then some rootSlot else none
    ofile := fun _ _ => none }
  hid := { disk := c, lh := [], outstanding := 0, buf := fun _ => none }

/-- Code for which the panics `E` are tolerated, and which owes nothing else. -/
def tolerant (E : Panic → Prop) (me : Pid) : Ctx where
  me := me
  allows := E
  atEnd := fun _ => True
  atFault := fun _ => True
  atLog := fun _ => True
  skip := fun _ => False
  avoid := fun _ => False

instance (E : Panic → Prop) (me : Pid) : (tolerant E me).Links where
  atLog := fun _ => trivial
  avoids := fun _ h => h

/-- Between two system calls: no code holds a token or a lock. -/
abbrev Rest (sb : Super) (s : St) : Prop := Inv sb (tolerant (fun _ => False) initproc) s 0 0 0

/-- Without locks and blocks to avoid, the invariant does not depend on who runs. -/
theorem Inv.rest (h : Inv sb Γ s 0 0 0) : Rest sb s :=
  { h with
    clean := fun _ hb => hb.elim
    locks := fun k => by rw [h.locks k, if_neg (Multiset.notMem_zero k), if_neg (Multiset.notMem_zero k)] }

theorem Inv.serve (h : Rest sb s) (hav : ∀ b, Γ.avoid b → b ∉ Dirs sb s.cache) : Inv sb Γ s 0 0 0 :=
  { h with
    clean := hav
    locks := fun k => by rw [h.locks k, if_neg (Multiset.notMem_zero k), if_neg (Multiset.notMem_zero k)] }

theorem held_boot (k : Slot) : held (boot c).fs.file (boot c).fs.cwd k = if k = rootSlot then 1 else 0 := by
  have hfile : ∀ f, ((boot c).fs.file f).type.hasIno = false := fun _ => rfl
  have hcwd : ∀ p, (boot c).fs.cwd p = if p = initproc then some rootSlot else none := fun _ => rfl
  unfold held
  simp only [hfile, Bool.false_eq_true, false_and, if_false, Finset.sum_const_zero, zero_add, hcwd]
  rw [Finset.sum_eq_single initproc]
  · simp [eq_comm]
  · intro p _ hp
    simp [hp]
  · exact fun h => absurd (Finset.mem_univ _) h

theorem Image.rest (h : Image sb c) : Rest sb (boot c).fs := by
  have hpos : ∀ k, 0 < (boot c).fs.ref k → k = rootSlot := fun k hk => by
    by_contra hne
    rw [show (boot c).fs.ref k = rootSlot from if_neg hne] at hk
    exact absurd hk (lt_irrefl 0)
  have hheld : ∀ k, 0 < held (boot c).fs.file (boot c).fs.cwd k → k = rootSlot := fun k hk => by
    rw [held_boot] at hk
    by_contra hne
    rw [if_neg hne] at hk
    exact absurd hk (lt_irrefl 0)
  have hopens : ∀ f, opens (boot c).fs.ofile f = 0 := fun f =>
    Finset.sum_eq_zero fun p _ => Finset.sum_eq_zero fun fd _ => if_neg (Option.some_ne_none f).symm
  exact {
    uniq := fun k l hk hl _ => (hpos k hk).trans (hpos l hl).symm
    dev := fun k hk => by rw [hpos k hk]; rfl
    refs := fun k => by rw [held_boot, Multiset.count_zero, add_zero]; rfl
    frefs := fun f => by rw [hopens, Multiset.count_zero]; rfl
    closed := fun _ _ => rfl
    opened := fun f _ => hopens f
    idle := fun _ _ _ => rfl
    range := fun k hk => by rw [hpos k hk]; exact sb.root_lt
    mem := fun k _ hv => by cases hv
    typed := fun k _ hv => by cases hv
    alloc := fun k hk => by
      rw [hheld k hk]
      change (dinode sb c ROOTINO).type ≠ 0
      rw [h.root]; decide
    readonly := fun f hf => by cases hf
    blocks := h.blocks
    dirSize := fun i hi => h.dirSize i hi.1
    dirEnts := fun i n hn e he => by
      obtain ⟨hi, rfl⟩ := tree_eq_some hn
      exact h.dirEnts i hi.1 e he
    clean := fun _ hb => hb.elim
    locks := fun k => (if_neg (Multiset.notMem_zero k)).symm
    locked := fun k hk => absurd hk (Multiset.notMem_zero k)
    once := Multiset.nodup_zero
    loaded := fun k hk => .inr (by rw [hheld k hk]; rfl) }

/-! ### Runs -/

/-- The panics of a full inode table, of `init` exiting and of a directory tree that is not in order. -/
def loose (e : Panic) : Prop := e = .igetNoInodes ∨ e = .initExiting ∨ e = .ilockNoType ∨ e = .unlinkNlink

theorem running_of_ready (h : ready s p call) : s.cwd p ≠ none := by
  unfold ready at h
  split at h
  · exact Option.isSome_iff_ne_none.mp (Bool.and_eq_true_iff.mp h).1
  · exact Option.isSome_iff_ne_none.mp h

theorem Inv.serves (h : Rest sb s) (hready : ready s p call) : Serves sb (tolerant loose p) call s where
  inv := h.serve fun _ hb => hb.elim
  running := running_of_ready hready
  full := .inl rfl
  exiting := .inr (.inl rfl)
  strict := fun hno => absurd (.inr (.inr (.inl rfl))) hno
  nlinks := fun hno => absurd (.inr (.inr (.inr rfl))) hno
  atEnd := fun _ _ _ _ _ _ => trivial
  atFault := fun _ _ _ _ _ _ _ _ => trivial

/-- One system call in any state between calls. -/
theorem Inv.served (h : Rest sb σ.fs) (hready : ready σ.fs p call) :
    (∀ r σ', run (handle sb p) (call.prog sb p) σ = .done (r, σ') →
      Served sb (tolerant loose p) call σ.fs r σ'.fs) ∧
    ∀ e, run (handle sb p) (call.prog sb p) σ = .panic e → loose e ∨ (tolerant loose p).hides e :=
  Ctx.sound (Γ := tolerant loose p) sb (fun _ => id) (Call.prog_wp (h.serves hready) hready)

theorem syscall_eq_some (h : syscall sb σ (p, call) = some σ') :
    ready σ.fs p call ∧ ∃ r, run (handle sb p) (call.prog sb p) σ = .done (r, σ') := by
  unfold syscall at h
  split at h
  · rename_i hready
    refine ⟨hready, ?_⟩
    cases hrun : run (handle sb p) (call.prog sb p) σ with
    | done rσ =>
      rw [hrun] at h
      exact ⟨rσ.1, by rw [← Option.some.inj h]⟩
    | blocked => rw [hrun] at h; cases h
    | panic e => rw [hrun] at h; cases h
  · cases h

theorem syscall_rest (h : Rest sb σ.fs) (hcall : syscall sb σ (p, call) = some σ') : Rest sb σ'.fs := by
  obtain ⟨hready, r, hrun⟩ := syscall_eq_some hcall
  exact ((h.served hready).1 r σ' hrun).inv.rest

theorem run_rest (h : Image sb c) (hrun : Run.run (syscall sb) (boot c) calls = some σ) : Rest sb σ.fs :=
  Run.run_invariant (I := fun σ => Rest sb σ.fs) (fun _ _ _ h hcall => syscall_rest h hcall) h.rest hrun

theorem Blocks.noHoles (h : Blocks sb c (dinode sb c)) : NoHoles sb c :=
  fun i hi ht bn _ hbn => h.full i ⟨hi, ht⟩ bn hbn

/-- EVERY BLOCK HAS ONE OWNER: after every run from an image in order, a data block is marked exactly if
    one slot of one inode names it, and `bfree` never meets a free block. -/
theorem blocks_owned (h : Image sb c) (hrun : Run.run (syscall sb) (boot c) calls = some σ) :
    Owned sb σ.fs.cache ∧ ∀ p call, ready σ.fs p call →
      run (handle sb p) (call.prog sb p) σ ≠ .panic .freeingFree := by
  have hI := run_rest h hrun
  refine ⟨hI.blocks.toBooks.owned, fun p call hready hpanic => ?_⟩
  rcases (hI.served hready).2 _ hpanic with (h | h | h | h) | h
  · cases h
  · cases h
  · cases h
  · cases h
  · exact h

theorem blocks_owned_mkdir : ∃ σ, Run.run (syscall small) (boot emptyDisk) [(initproc, .mkdir (some [47, 97]))] = some σ ∧
    Owned small σ.fs.cache := by
  have hrun : (Run.run (syscall small) (boot emptyDisk) [(initproc, .mkdir (some [47, 97]))]).isSome := by decide +kernel
  obtain ⟨σ, hσ⟩ := Option.isSome_iff_exists.mp hrun
  exact ⟨σ, hσ, (blocks_owned image_emptyDisk hσ).1⟩

/-- REFERENCE COUNTS ARE EXACT: after every run a file counts its descriptors and an entry of the inode
    table the files and current directories that point to it, all of them live; no inode has two entries
    in use, and none is locked. -/
theorem references_exact (h : Image sb c) (hrun : Run.run (syscall sb) (boot c) calls = some σ) :
    (∀ f, (σ.fs.file f).ref = opens σ.fs.ofile f) ∧
    (∀ k, σ.fs.ref k = held σ.fs.file σ.fs.cwd k) ∧
    (∀ f, (σ.fs.file f).type.hasIno → 0 < (σ.fs.file f).ref) ∧
    (∀ k l, 0 < σ.fs.ref k → 0 < σ.fs.ref l → (σ.fs.dev k, σ.fs.inum k) = (σ.fs.dev l, σ.fs.inum l) → k = l) ∧
    ∀ k, σ.fs.ilk k = none := by
  have hI := run_rest h hrun
  refine ⟨fun f => ?_, fun k => ?_, fun f hf => ?_, fun k l hk hl he => ?_, fun k => ?_⟩
  · rw [hI.frefs f, Multiset.count_zero, Nat.add_zero]
  · rw [hI.refs k, Multiset.count_zero, Nat.add_zero]
  · by_contra h0
    rw [hI.closed f (by omega)] at hf
    cases hf
  · exact hI.uniq k l hk hl (Prod.mk.inj he).2
  · rw [hI.locks k, if_neg (Multiset.notMem_zero k)]

/-- Directory `/a`, opened with two descriptors and entered. -/
theorem references_exact_dup : ∃ σ,
    Run.run (syscall small) (boot emptyDisk) [(initproc, .mkdir (some [47, 97])), (initproc, .open (some [47, 97]) 0),
      (initproc, .dup 0), (initproc, .chdir (some [47, 97]))] = some σ ∧
    (∀ f, (σ.fs.file f).ref = opens σ.fs.ofile f) ∧ ∀ k, σ.fs.ref k = held σ.fs.file σ.fs.cwd k := by
  have hrun : (Run.run (syscall small) (boot emptyDisk) [(initproc, .mkdir (some [47, 97])),
      (initproc, .open (some [47, 97]) 0), (initproc, .dup 0), (initproc, .chdir (some [47, 97]))]).isSome := by
    decide +kernel
  obtain ⟨σ, hσ⟩ := Option.isSome_iff_exists.mp hrun
  exact ⟨σ, hσ, (references_exact image_emptyDisk hσ).1, (references_exact image_emptyDisk hσ).2.1⟩

/-- `balloc` TAKES THE LOWEST FREE BLOCK, marks it and zeroes it, or changes nothing if there is none; `bfree` clears the bit
    of a block, and after `balloc` restores the free map. -/
theorem balloc_lowest (sb : Super) (me : Pid) (s : St) (h0 : bit sb s.cache 0 = true)
    (hmap : ∀ a < sb.size, bit sb s.cache (sb.BBLOCK a) = true) :
    (∀ b < sb.size, bit sb s.cache b = false → (∀ a < b, bit sb s.cache a = true) →
      ∃ c, run (St.step me) (balloc sb) s = .done (b, { s with cache := c }) ∧ Allocated sb s.cache c b ∧
        ∃ c', run (St.step me) (bfree sb b) { s with cache := c } = .done ((), { s with cache := c' }) ∧
          ∀ a < sb.size, c' (sb.BBLOCK a) = s.cache (sb.BBLOCK a)) ∧
    ((∀ b < sb.size, bit sb s.cache b = true) → run (St.step me) (balloc sb) s = .done (0, s)) ∧
    ∀ b, bit sb s.cache b = true → ∃ c, run (St.step me) (bfree sb b) s = .done ((), { s with cache := c }) ∧
      (∀ a, bit sb c a = if a = b then false else bit sb s.cache a) ∧ ∀ x, x ≠ sb.BBLOCK b → c x = s.cache x := by
  have hpos : 0 < BPB := by decide
  refine ⟨fun b hb hfree hset => ?_, fun hset => ballocFrom_none (Nat.zero_mod _) fun x _ => hset x, fun b hb => ?_⟩
  · have hne : ∀ a < sb.size, sb.BBLOCK a ≠ b := fun a ha he => by
      have := hmap a ha
      rw [he, hfree] at this
      cases this
    have hA := allocated_grab h0 hne hb hfree
    have hrun : run (St.step me) (balloc sb) s = .done (b, { s with cache := grab sb s.cache b }) :=
      ballocFrom_first (Nat.zero_mod _) (Nat.zero_le b) hb hfree (fun x _ => hset x)
        (by rw [Nat.zero_add]; exact hb.trans (Nat.lt_mul_of_div_lt (Nat.lt_succ_self _) hpos))
    refine ⟨_, hrun, hA, _, run_bfree (s := { s with cache := grab sb s.cache b }) ?_, fun a ha => ?_⟩
    · rw [hA.bits b hb, if_pos rfl]
    · by_cases hab : sb.BBLOCK a = sb.BBLOCK b
      · rw [hab, putBit, update_self]
        exact (congrArg (Bytes.lowerBit · _) hA.map).trans (lowerBit_raiseBit hfree)
      · rw [putBit, update_of_ne hab]
        exact hA.others _ (hne a ha) hab
  · refine ⟨_, run_bfree hb, fun a => bit_putBit a b false, fun x hx => update_of_ne hx ..⟩

/-- The first free block of an empty file system is block 40. -/
theorem balloc_lowest_empty : ∃ c, run (St.step initproc) (balloc small) (boot emptyDisk).fs =
    .done (40, { (boot emptyDisk).fs with cache := c }) ∧ Allocated small emptyDisk c 40 := by
  have hmap : ∀ a < small.size, bit small (boot emptyDisk).fs.cache (small.BBLOCK a) = true := by decide +kernel
  have hset : ∀ a < 40, bit small (boot emptyDisk).fs.cache a = true := by decide +kernel
  obtain ⟨c, hrun, hA, -⟩ :=
    (balloc_lowest small initproc (boot emptyDisk).fs (by decide +kernel) hmap).1 40 (by decide) (by decide +kernel) hset
  exact ⟨c, hrun, hA⟩

/-- What `mkfs` makes of 62 files: the size of the root directory has been rounded up to a second block,
    which it has not got. -/
def holeDisk : Nat → Block :=
  format small (fun i => if i = ROOTINO then dirNode 1 2048 39 else if 2 ≤ i ∧ i < 64 then ⟨T_FILE, 0, 0, 1, 0, fun _ => 0⟩
    else Dinode.zero) 40 fun b =>
    if b = 39 then dirBlock fun j => if j = 0 then ⟨ROOTINO, dot⟩ else if j = 1 then ⟨ROOTINO, dotdot⟩
      else ⟨j, [UInt8.ofNat (j + 64)]⟩ else zeroBlock

/-- Block `b` is marked and no inode names it. -/
def leaked (sb : Super) (c : Nat → Block) (b : Nat) : Bool := bit sb c b && !(ownedBlocks sb c).contains b

theorem not_owned_of_leaked {b : Nat} (hb : sb.Data b) (h : leaked sb c b = true) : ¬Owned sb c := by
  intro ho
  obtain ⟨hbit, hno⟩ := Bool.and_eq_true_iff.mp h
  have hcount := (ho.marked b hb.2 hb.1).mp hbit
  rw [count_eq_zero_of_not_mem (by simpa using hno)] at hcount
  exact absurd hcount Nat.zero_ne_one

/-- Looking for a file that is not there makes `readi` allocate the missing block, which the inode on
    disk never hears of. -/
theorem blocks_owned_hole : Owned small holeDisk ∧
    ∃ σ, Run.run (syscall small) (boot holeDisk) [(initproc, .open (some [47, 48]) 0)] = some σ ∧
      ¬Owned small σ.fs.cache ∧ ¬Owned small σ.hid.disk := by
  refine ⟨by decide +kernel, ?_⟩
  have hrun : (Run.run (syscall small) (boot holeDisk) [(initproc, .open (some [47, 48]) 0)]).any
      (fun σ => leaked small σ.fs.cache 40 && leaked small σ.hid.disk 40) := by decide +kernel
  obtain ⟨σ, hσ, hleak⟩ := (Option.any_eq_true _ _).mp hrun
  obtain ⟨hcache, hdisk⟩ := Bool.and_eq_true_iff.mp hleak
  exact ⟨σ, hσ, not_owned_of_leaked (by decide) hcache, not_owned_of_leaked (by decide) hdisk⟩

/-! ### Reading -/

/-- Code that may not call `log_write` and may not panic. -/
def reading (me : Pid) : Ctx := { tolerant (fun _ => False) me with atLog := fun _ => False }

end Xv6.Fs
