import Xv6.Lib.Run
import Xv6.Fs.Tree

/-! The invariant of the file system between the operations of one process.

    `Table` is the accounting of references. An entry of the inode table counts the open files and
    current directories that point to it (`held`) and the pointers that running code holds in local
    variables, the *tokens* `T`; an entry of the file table counts descriptors and tokens `F`. `Inv` adds
    that every valid copy agrees with the disk, that what is held is allocated and has been read, that
    the books balance, that directory entries name possible inodes, that the blocks to be avoided belong
    to no directory, and that the locked entries are those in `L`, each of them in use.

    Code that is not finished with an inode keeps a token for it, and `Keep T` says what it can then
    rely on while other code runs: the entry still stands for the same inode. -/

namespace Xv6.Fs
open Prog Function

/-- How many open files and current directories point to table entry `k`. -/
def held (file : FileId → File) (cwd : Pid → Option Slot) (k : Slot) : Nat :=
  (∑ f, if (file f).type.hasIno ∧ (file f).ip = k then 1 else 0) + ∑ p, if cwd p = some k then 1 else 0

/-- How many descriptors point to file `f`. -/
def opens (ofile : Pid → Fin NOFILE → Option FileId) (f : FileId) : Nat :=
  ∑ p, ∑ fd, if ofile p fd = some f then 1 else 0

/-- Every pointer to a table entry is counted. -/
structure Table (s : St) (T : Multiset Slot) (F : Multiset FileId) : Prop where
  uniq : ∀ k l, 0 < s.ref k → 0 < s.ref l → s.inum k = s.inum l → k = l
  dev : ∀ k, 0 < s.ref k → s.dev k = ROOTDEV
  refs : ∀ k, s.ref k = held s.file s.cwd k + T.count k
  frefs : ∀ f, (s.file f).ref = opens s.ofile f + F.count f
  closed : ∀ f, (s.file f).ref = 0 → (s.file f).type = .none
  opened : ∀ f, (s.file f).type = .none → opens s.ofile f = 0
  idle : ∀ p, s.cwd p = none → ∀ fd, s.ofile p fd = none

structure Inv (sb : Super) (Γ : Ctx) (s : St) (T : Multiset Slot) (F : Multiset FileId) (L : Multiset Slot) : Prop
    extends Table s T F where
  range : ∀ k, 0 < s.ref k → s.inum k < sb.ninodes
  mem : ∀ k, 0 < s.ref k → s.valid k = true → s.node k = dinode sb s.cache (s.inum k)
  typed : ∀ k, 0 < s.ref k → s.valid k = true → (dinode sb s.cache (s.inum k)).type ≠ 0
  alloc : ∀ k, 0 < held s.file s.cwd k → (dinode sb s.cache (s.inum k)).type ≠ 0
  readonly : ∀ f, (s.file f).type.hasIno → (s.file f).writable = true →
    (dinode sb s.cache (s.inum (s.file f).ip)).type ≠ T_DIR
  blocks : Blocks sb s.cache (dinode sb s.cache)
  dirSize : ∀ i, Live sb (dinode sb s.cache) i → (dinode sb s.cache i).type = T_DIR →
    (dinode sb s.cache i).size.toNat % direntSize = 0
  dirEnts : ∀ i n, tree sb s.cache i = some n → ∀ e ∈ n.ents, e.inum < sb.ninodes
  clean : ∀ b, Γ.avoid b → b ∉ Dirs sb s.cache
  locks : ∀ k, s.ilk k = if k ∈ L then some Γ.me else none
  locked : ∀ k ∈ L, 0 < s.ref k
  once : L.Nodup
  loaded : ∀ k, 0 < held s.file s.cwd k → s.valid k = true ∨ s.inum k = ROOTINO

/-- Descriptors and current directories are the same, and an entry that a file, a process or a token
    points to stands for the same inode. -/
structure Keep (T : Multiset Slot) (s s' : St) : Prop where
  file : s'.file = s.file
  cwd : s'.cwd = s.cwd
  ofile : s'.ofile = s.ofile
  inum : ∀ l, 0 < held s.file s.cwd l + T.count l → s'.inum l = s.inum l
  valid : ∀ l, 0 < held s.file s.cwd l + T.count l → s.valid l = true → s'.valid l = true

variable {sb : Super} {Γ : Ctx} {s s' : St} {T L : Multiset Slot} {F : Multiset FileId} {k : Slot} {i : Nat}

theorem Keep.refl (T : Multiset Slot) (s : St) : Keep T s s :=
  ⟨rfl, rfl, rfl, fun _ _ => rfl, fun _ _ => id⟩

theorem Keep.trans {s'' : St} (h : Keep T s s') (h' : Keep T s' s'') : Keep T s s'' where
  file := h'.file.trans h.file
  cwd := h'.cwd.trans h.cwd
  ofile := h'.ofile.trans h.ofile
  inum := fun l hl => by
    have := h'.inum l
    rw [h.file, h.cwd] at this
    exact (this hl).trans (h.inum l hl)
  valid := fun l hl hv => by
    have := h'.valid l
    rw [h.file, h.cwd] at this
    exact this hl (h.valid l hl hv)

theorem Keep.weaken {T' : Multiset Slot} (h : Keep T' s s') (hle : T ≤ T') : Keep T s s' where
  file := h.file
  cwd := h.cwd
  ofile := h.ofile
  inum := fun l hl => h.inum l (by have := Multiset.le_iff_count.mp hle l; omega)
  valid := fun l hl => h.valid l (by have := Multiset.le_iff_count.mp hle l; omega)

theorem Keep.setLock (T : Multiset Slot) (s : St) (k : Slot) (p : Option Pid) : Keep T s (s.setLock k p) :=
  ⟨rfl, rfl, rfl, fun _ _ => rfl, fun _ _ => id⟩

theorem Table.ref_pos (h : Table s T F) {l : Slot} (hl : 0 < held s.file s.cwd l + T.count l) : 0 < s.ref l := by
  rw [h.refs]; exact hl

theorem Table.ref_pos_of_mem (h : Table s T F) {l : Slot} (hl : l ∈ T) : 0 < s.ref l :=
  h.ref_pos (by have := Multiset.count_pos.mpr hl; omega)

/-- The entries `L` are held, or there are tokens for them in `T`. -/
structure Pinned (s : St) (T L : Multiset Slot) : Prop where
  pos : ∀ l ∈ L, 0 < held s.file s.cwd l + T.count l

theorem Inv.pinned (h : Inv sb Γ s T F L) : Pinned s T L := ⟨fun l hl => by
  rw [← h.refs]; exact h.locked l hl⟩

theorem pinned_zero (s : St) (T : Multiset Slot) : Pinned s T 0 := ⟨fun _ hl => absurd hl (Multiset.notMem_zero _)⟩

theorem Pinned.keep (h : Pinned s T L) (hkeep : Keep T s s') : Pinned s' T L := by
  refine ⟨fun l hl => ?_⟩
  rw [hkeep.file, hkeep.cwd]; exact h.pos l hl

variable {file : FileId → File} {cwd : Pid → Option Slot}

theorem held_of_file {f : FileId} (hf : (file f).type.hasIno) :
    0 < held file cwd (file f).ip := by
  refine Nat.add_pos_left (Finset.sum_pos' (fun _ _ => Nat.zero_le _) ⟨f, Finset.mem_univ f, ?_⟩) _
  rw [if_pos ⟨hf, rfl⟩]; exact Nat.one_pos

theorem held_of_cwd {p : Pid} (hp : cwd p = some k) :
    0 < held file cwd k := by
  refine Nat.add_pos_right _ (Finset.sum_pos' (fun _ _ => Nat.zero_le _) ⟨p, Finset.mem_univ p, ?_⟩)
  rw [if_pos hp]; exact Nat.one_pos

theorem Inv.live (h : Inv sb Γ s T F L) (hk : 0 < s.ref k) (hv : s.valid k = true) :
    Live sb (dinode sb s.cache) (s.inum k) :=
  ⟨h.range k hk, h.typed k hk hv⟩

/-! ### Changes that only touch reference counts and tokens -/

/-- The same disk and the same pointers; reference counts and tokens move together. -/
theorem Inv.setRef (h : Inv sb Γ s T F L) {T' : Multiset Slot} {n : Nat} (hk : 0 < s.ref k)
    (hn : n = held s.file s.cwd k + T'.count k) (hT : ∀ l, l ≠ k → T'.count l = T.count l) (hL : k ∈ L → 0 < n) :
    Inv sb Γ (s.setRef k n) T' F L := by
  have hpos : ∀ l, 0 < (s.setRef k n).ref l → 0 < s.ref l := by
    intro l hl
    rcases eq_or_ne l k with rfl | hne
    · exact hk
    · rwa [St.setRef_ref, update_of_ne hne] at hl
  refine { h with
    uniq := fun l m hl hm => h.uniq l m (hpos l hl) (hpos m hm)
    dev := fun l hl => h.dev l (hpos l hl)
    refs := fun l => ?_
    range := fun l hl => h.range l (hpos l hl)
    mem := fun l hl => h.mem l (hpos l hl)
    typed := fun l hl => h.typed l (hpos l hl)
    locked := fun l hl => ?_ }
  all_goals rcases eq_or_ne l k with rfl | hne
  · rw [St.setRef_ref, update_self]; exact hn
  · rw [St.setRef_ref, update_of_ne hne, hT l hne]; exact h.refs l
  · rw [St.setRef_ref, update_self]; exact hL hl
  · rw [St.setRef_ref, update_of_ne hne]; exact h.locked l hl

/-! ### `iget` -/

theorem lookup_some {dev inum : Nat} (h : s.lookup dev inum = some k) :
    0 < s.ref k ∧ s.inum k = inum := by
  have := List.find?_some h
  simp only [Bool.and_eq_true, decide_eq_true_eq, beq_iff_eq] at this
  exact ⟨this.1.1, this.2⟩

theorem lookup_none {dev inum : Nat} (h : s.lookup dev inum = none) (l : Slot) (hl : 0 < s.ref l)
    (hd : s.dev l = dev) : s.inum l ≠ inum := by
  have := List.find?_eq_none.mp h l (List.mem_finRange l)
  simp only [Bool.and_eq_true, decide_eq_true_eq, beq_iff_eq, not_and] at this
  exact this ⟨hl, hd⟩

theorem empty_some (h : s.empty = some k) : s.ref k = 0 := by
  simpa using List.find?_some h

theorem Inv.recycle (h : Inv sb Γ s T F L) {inum : Nat} (hk : s.ref k = 0) (hr : inum < sb.ninodes)
    (hnew : ∀ l, 0 < s.ref l → s.inum l ≠ inum) : Inv sb Γ (s.recycle k ROOTDEV inum) (k ::ₘ T) F L := by
  have h0 := h.refs k
  have hheld : held s.file s.cwd k = 0 := by omega
  have hne : ∀ l, 0 < held s.file s.cwd l → l ≠ k := by rintro l hl rfl; omega
  have hpos : ∀ l, l ≠ k → 0 < (s.recycle k ROOTDEV inum).ref l → 0 < s.ref l := by
    intro l hl hp
    rwa [St.recycle_ref, update_of_ne hl] at hp
  have hinum : ∀ l, l ≠ k → (s.recycle k ROOTDEV inum).inum l = s.inum l := fun l hl =>
    update_of_ne hl ..
  have hinum' : (s.recycle k ROOTDEV inum).inum k = inum := update_self ..
  have hvalid : ∀ l, (s.recycle k ROOTDEV inum).valid l = true → l ≠ k := by
    rintro l hv rfl
    simp at hv
  have hvalid' : ∀ l, l ≠ k → (s.recycle k ROOTDEV inum).valid l = s.valid l := fun l hl =>
    update_of_ne hl ..
  refine { h with
    uniq := ?_, dev := ?_, refs := ?_, range := ?_, mem := ?_, typed := ?_, alloc := ?_, readonly := ?_,
    locked := ?_, loaded := ?_ }
  · intro l m hl hm he
    by_cases hlk : l = k <;> by_cases hmk : m = k
    · rw [hlk, hmk]
    · rw [hlk, hinum', hinum m hmk] at he
      exact absurd he.symm (hnew m (hpos m hmk hm))
    · rw [hmk, hinum', hinum l hlk] at he
      exact absurd he (hnew l (hpos l hlk hl))
    · rw [hinum l hlk, hinum m hmk] at he
      exact h.uniq l m (hpos l hlk hl) (hpos m hmk hm) he
  · intro l hl
    by_cases hlk : l = k
    · rw [hlk]; exact update_self ..
    · rw [St.recycle_dev, update_of_ne hlk]; exact h.dev l (hpos l hlk hl)
  · intro l
    by_cases hlk : l = k
    · subst hlk
      rw [Multiset.count_cons_self, St.recycle_ref, update_self]
      change 1 = held s.file s.cwd l + _
      omega
    · rw [Multiset.count_cons_of_ne hlk, St.recycle_ref, update_of_ne hlk]
      exact h.refs l
  · intro l hl
    by_cases hlk : l = k
    · rw [hlk, hinum']; exact hr
    · rw [hinum l hlk]; exact h.range l (hpos l hlk hl)
  · intro l hl hv
    have hlk := hvalid l hv
    rw [hvalid' l hlk] at hv
    rw [hinum l hlk]; exact h.mem l (hpos l hlk hl) hv
  · intro l hl hv
    have hlk := hvalid l hv
    rw [hvalid' l hlk] at hv
    rw [hinum l hlk]; exact h.typed l (hpos l hlk hl) hv
  · intro l hl
    rw [hinum l (hne l hl)]; exact h.alloc l hl
  · intro f (hf : (s.file f).type.hasIno) hw
    have hpos : 0 < held s.file s.cwd (s.file f).ip := held_of_file hf
    have := h.readonly f hf hw
    change (dinode sb s.cache ((s.recycle k ROOTDEV inum).inum (s.file f).ip)).type ≠ T_DIR
    rwa [hinum _ (hne _ hpos)]
  · intro l hl
    have hpos := h.locked l hl
    have hlk : l ≠ k := by rintro rfl; omega
    rw [St.recycle_ref, update_of_ne hlk]; exact hpos
  · intro l hl
    rw [hvalid' l (hne l hl), hinum l (hne l hl)]; exact h.loaded l hl

/-- `iget` gives a token for the inode, and the disk is as it was. An entry that is already valid was in
    use before. -/
theorem iget_wp {inum : Nat} {Q : Slot → St → Prop} (h : Inv sb Γ s T F L) (hr : inum < sb.ninodes)
    (hfull : Γ.allows .igetNoInodes)
    (hQ : ∀ k s', Inv sb Γ s' (k ::ₘ T) F L → Keep T s s' → s'.cache = s.cache → s'.inum k = inum →
      (s'.valid k = true → 0 < held s.file s.cwd k + T.count k) → Q k s') :
    Γ.wp (iget ROOTDEV inum) s Q := by
  refine Ctx.wp_iget (fun k hit => ?_) (fun k miss he => ?_) hfull
  · obtain ⟨hk, hinum⟩ := lookup_some hit
    refine hQ k _ (h.setRef hk ?_ (fun l hl => Multiset.count_cons_of_ne hl _)
      fun _ => Nat.succ_pos _)
      ⟨rfl, rfl, rfl, fun _ _ => rfl, fun _ _ => id⟩ rfl hinum fun _ => ?_
    · rw [Multiset.count_cons_self, h.refs]; omega
    · rwa [← h.refs]
  · have hk := empty_some he
    have hne : ∀ l, 0 < held s.file s.cwd l + T.count l → l ≠ k := by
      rintro l hl rfl
      have := h.ref_pos hl
      omega
    refine hQ k _ (h.recycle hk hr fun l hl => lookup_none miss l hl (h.dev l hl)) ⟨rfl, rfl, rfl, ?_, ?_⟩ rfl ?_ ?_
    · exact fun l hl => update_of_ne (hne l hl) ..
    · intro l hl hv
      rw [St.recycle_valid, update_of_ne (hne l hl)]; exact hv
    · exact update_self ..
    · intro hv; simp at hv

end Xv6.Fs
