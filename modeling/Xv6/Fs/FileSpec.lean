import Xv6.Fs.OpenSpec

/-! The system calls on open files: `dup`, `close`, `read`, `write`, `fstat` and `pipe`, and `exec`. -/

namespace Xv6.Fs
open Prog hiding wp_bind wp_pure wp_when wp_mono
open Ctx Function

variable {sb : Super} {Γ : Ctx} {s s' : St} {T L : Multiset Slot} {F : Multiset FileId} {k : Slot} {f : FileId}
  {n : Node} {c : Call}

/-! ### Descriptors -/

theorem argfd_wp {Q : Option (Fin NOFILE × FileId) → St → Prop} {fd : Int} (hnone : Q none s)
    (hsome : ∀ x f, s.ofile Γ.me x = some f → Q (some (x, f)) s) : Γ.wp (argfd fd) s Q := by
  unfold argfd
  split
  · rw [wp_bind, wp_getOfile, wp_pure]
    cases hf : s.ofile Γ.me _ with
    | none => exact hnone
    | some f => exact hsome _ f hf
  · exact hnone

theorem opens_pos {ofile : Pid → Fin NOFILE → Option FileId} {p : Pid} {fd : Fin NOFILE} (h : ofile p fd = some f) :
    0 < opens ofile f := by
  refine Finset.sum_pos' (fun _ _ => Nat.zero_le _) ⟨p, Finset.mem_univ p, ?_⟩
  refine Finset.sum_pos' (fun _ _ => Nat.zero_le _) ⟨fd, Finset.mem_univ fd, ?_⟩
  rw [if_pos h]; exact one_pos

/-- A file with a descriptor is open. -/
theorem Inv.fileOpen (h : Inv sb Γ s T F L) {p : Pid} {fd : Fin NOFILE} (hf : s.ofile p fd = some f) :
    0 < (s.file f).ref ∧ (s.file f).type ≠ .none := by
  have hpos := opens_pos hf
  refine ⟨by rw [h.frefs]; omega, fun hno => ?_⟩
  have := h.opened f hno
  omega

/-- One more reference to an open file. -/
theorem Inv.filedup (h : Inv sb Γ s T F L) (f : FileId) :
    Inv sb Γ (s.setFile f { s.file f with ref := (s.file f).ref + 1 }) T (f ::ₘ F) L :=
  h.setFileRef rfl (fun _ => rfl) (fun _ => rfl) (by
    dsimp only
    rw [h.frefs, Multiset.count_cons_self, add_assoc])
    (fun _ hg => Multiset.count_cons_of_ne hg _) (fun h0 => absurd h0 (Nat.succ_ne_zero _)) (h.opened f)

theorem view_setFileRef (s : St) (f : FileId) (r : Nat) : view sb (s.setFile f { s.file f with ref := r }) = view sb s := by
  rw [view_setFile]
  exact congrArg (fun g => { view sb s with file := g }) (update_eq_self f (view sb s).file)

theorem sysDup_wp {fd : Int} (hS : Serves sb Γ (.dup fd) s) : Γ.wp (sysDup fd) s (Served sb Γ (.dup fd) s) := by
  rw [sysDup, wp_bind]
  refine argfd_wp (hS.refl _) fun x f hf => ?_
  obtain ⟨href, htype⟩ := hS.inv.fileOpen hf
  dsimp only
  rw [wp_bind]
  refine fdalloc_wp (fun _ => hS.refl _) fun fd' hfd => ?_
  dsimp only
  rw [wp_bind, wp_filedup (s := s.setOfile Γ.me fd' (some f)) href]
  -- the count might as well be raised first
  have hI₂ := (hS.inv.filedup f).fdalloc hfd hS.running (by
    rw [St.setFile_file, update_self]; exact htype)
  have hview : view sb ((s.setFile f { s.file f with ref := (s.file f).ref + 1 }).setOfile Γ.me fd' (some f)) =
      view sb s := view_setFileRef s f _
  exact ⟨hI₂, fun _ => by rw [← hview]; exact .refl, fun _ h => h.elim⟩

theorem sysClose_wp [Γ.Writes] {fd : Int} (hS : Serves sb Γ (.close fd) s) :
    Γ.wp (sysClose sb fd) s (Served sb Γ (.close fd) s) := by
  rw [sysClose, wp_bind]
  refine argfd_wp (hS.refl _) fun x f hf => ?_
  dsimp only
  rw [wp_bind, wp_setOfile, wp_bind]
  refine fileclose_wp (s := s.setOfile Γ.me x none) (hS.inv.fdfree hf) fun s₁ hI₁ _ _ hv₁ => ?_
  have hsteps : (view sb s).Tame → View.Steps Γ.me (.close fd) (view sb s) (view sb s₁) := fun ht => by
    rcases hv₁ ht.quiet.rooted with hv | ⟨i, hi, hv⟩
    · rw [hv]; exact .refl
    · rw [hv]; exact .move .refl (.close rfl hi)
  exact ⟨hS.atEnd s₁ 0 0 0 hI₁ hsteps, hI₁, hsteps, fun _ h => h.elim⟩

/-! ### Reading -/

theorem Inv.setOff (h : Inv sb Γ s T F L) (f : FileId) (o : Nat) :
    Inv sb Γ (s.setFile f { s.file f with off := o }) T F L :=
  h.setFileRef rfl (fun _ => rfl) (fun _ => rfl) (h.frefs f) (fun _ _ => rfl) (h.closed f) (h.opened f)

theorem view_setOff (s : St) (f : FileId) (o : Nat) : view sb (s.setFile f { s.file f with off := o }) = view sb s := by
  rw [view_setFile]
  exact congrArg (fun g => { view sb s with file := g }) (update_eq_self f (view sb s).file)

/-- The inode of an open file can be locked. -/
theorem lockFile_wp {U : Unit → St → Prop} (h : Inv sb Γ s T F L) (hf : (s.file f).type.hasIno)
    (hU : ∀ n, Inv sb Γ (s.load sb Γ.me (s.file f).ip) T F ((s.file f).ip ::ₘ L) →
      Locked sb (s.load sb Γ.me (s.file f).ip) (s.file f).ip n → U () (s.load sb Γ.me (s.file f).ip)) :
    Γ.wp (ilock sb (s.file f).ip) s U := by
  have hheld : 0 < held s.file s.cwd (s.file f).ip := held_of_file hf
  refine lock_wp h (h.ref_pos (Nat.add_pos_left hheld _)) (fun h0 => ?_) hU
  have := h.held_isSome hheld
  rw [h0] at this
  cases this

/-- `fileread` changes nothing but the offset. It needs no transaction. -/
theorem fileread_wp {Q : Int × List UInt8 → St → Prop} {u : UMem} {addr : Nat} {cnt input : Int} (h : Inv sb Γ s T F 0)
    (hf : (s.file f).type ≠ .none)
    (hQ : ∀ r s', Inv sb Γ s' T F 0 → s'.cwd = s.cwd → s'.ofile = s.ofile → s'.cache = s.cache →
      view sb s' = view sb s → Q r s') : Γ.wp (fileread sb f u addr cnt input) s Q := by
  have hsame : ∀ r, Q r s := fun r => hQ r s h rfl rfl rfl rfl
  rw [fileread, wp_bind, wp_getFile, wp_ite]
  refine ⟨fun _ => hsame _, fun _ => ?_⟩
  cases ht : (s.file f).type with
  | none => exact absurd ht hf
  | pipe => exact hsame _
  | device => exact hsame _
  | inode =>
    simp only [readSection, wp_bind, wp_getFile]
    refine lockFile_wp h (by rw [ht]; rfl) fun n hI hL => ?_
    refine readi_wp (by rw [hL.mem hI]; exact hI.blocks.full _ hL.live) fun r => ?_
    have hview : view sb (s.load sb Γ.me (s.file f).ip) = view sb s := (Keep.load 0 s _).view rfl
    rw [wp_when]
    constructor
    · intro _
      rw [wp_setOff]
      refine iunlock_wp (hI.setOff f _) fun hI₁ => ?_
      refine hQ _ _ hI₁ rfl rfl rfl ?_
      exact (view_setOff (s.load sb Γ.me (s.file f).ip) f _).trans hview
    · intro _
      exact iunlock_wp hI fun hI₁ => hQ _ _ hI₁ rfl rfl rfl hview

theorem sysRead_wp {fd : Int} {u : UMem} {addr : Nat} {cnt input : Int} (hS : Serves sb Γ (.read fd u addr cnt input) s) :
    Γ.wp (sysRead sb fd u addr cnt input) s fun r => Served sb Γ (.read fd u addr cnt input) s r.1 := by
  rw [sysRead, wp_bind]
  refine argfd_wp (hS.refl _) fun x f hf => ?_
  refine fileread_wp hS.inv (hS.inv.fileOpen hf).2 fun r s₁ hI₁ _ _ _ hv => ?_
  exact ⟨hI₁, fun _ => by rw [hv], fun _ h => h.elim⟩

theorem sysFstat_wp {fd : Int} {u : UMem} {addr : Nat} (hS : Serves sb Γ (.fstat fd u addr) s) :
    Γ.wp (sysFstat sb fd u addr) s (Served sb Γ (.fstat fd u addr) s) := by
  rw [sysFstat, wp_bind]
  refine argfd_wp (hS.refl _) fun x f hf => ?_
  dsimp only
  rw [wp_bind, filestat, wp_bind, wp_getFile, wp_ite]
  refine ⟨fun ht => ?_, fun _ => hS.refl _⟩
  rw [wp_bind]
  refine lockFile_wp hS.inv (by rcases ht with ht | ht <;> rw [ht] <;> rfl) fun n hI _ => ?_
  simp only [stati, wp_bind, wp_getIno, wp_getNode, wp_pure]
  refine iunlock_wp hI fun hI₁ => ?_
  have hview : view sb (s.load sb Γ.me (s.file f).ip) = view sb s := (Keep.load 0 s _).view rfl
  exact ⟨hI₁, fun _ => by rw [← hview]; exact .refl, fun _ h => h.elim⟩

/-! ### Writing -/

/-- The blocks of a file, those it is just getting among them, belong to no directory. -/
theorem Wrote.not_dirs {i q : Nat} {c₀ c' : Nat → Block} {m : Dinode} (h : Wrote sb (dinode sb c₀) i c₀ c' m)
    (hi : Live sb (dinode sb c₀) i) (ht : (dinode sb c₀ i).type ≠ T_DIR) :
    slotAddr c' m q ∉ Dirs sb c₀ := by
  rintro ⟨h0, j, r, hj, hd, hr⟩
  have hji : j ≠ i := by rintro rfl; exact ht hd
  have haddr := (h.others j hji hj).addr r
  have hj' : Live sb (update (dinode sb c₀) i m) j := by rwa [Live, update_of_ne hji]
  have hsame : slotAddr c' (update (dinode sb c₀) i m j) r =
      slotAddr c' (update (dinode sb c₀) i m i) q := by
    rw [update_of_ne hji, update_self, haddr, hr]
  exact hji (h.blocks.inj hj' (h.live hi) hsame (by rw [update_of_ne hji, haddr, hr]; exact h0)).1

/-- `writei` on a locked file. A write that is cut short by a page that cannot be read has stored the bytes
    before it too. -/
theorem Locked.writei_wp [Γ.Writes] {Q : Int → St → Prop} {src : Src} {off cnt : Nat} (hL : Locked sb s k n)
    (h : Inv sb Γ s T F L) (ht : n.type ≠ T_DIR) (hF : ∀ b, b ∉ Dirs sb s.cache → Γ.atFault b) (hfail : Q (-1) s)
    (hQ : ∀ (w len : Nat) s', off ≤ n.data.length → w ≤ len → w ≤ cnt → (w = cnt → len = w) → Inv sb Γ s' T F L →
      Keep T s s' → view sb s' = (view sb s).setNode (s.inum k)
        { n with data := splice n.data off (src.bytes 0 len) w } → Q w s') :
    Γ.wp (writei sb k src off cnt) s Q := by
  have hsize : n.data.length = (dinode sb s.cache (s.inum k)).size.toNat := by
    rw [hL.eq]; exact contents_length
  refine Fs.writei_wp h.blocks hL.live (hL.mem h) rfl (fun c' m' q hw _ => ?_) hfail
    fun w len c' m' hoff hwl hwn hend hW hfields hs hst => ?_
  · exact hF _ (hw.not_dirs hL.live (by rw [hL.type]; exact ht))
  · obtain ⟨hI, hkeep, hview⟩ := hL.written h ht hW (by rw [hfields])
    refine hQ w len _ (by rwa [hsize]) hwl hwn hend hI hkeep ?_
    rw [hview, hst.contents (h.blocks.full _ hL.live) hoff (by rwa [length_bytes]) hs]
    congr 2
    rw [hL.eq]; rfl

/-- The state after a transfer of `r` bytes moved the offset. -/
def St.advance (s : St) (f : FileId) (r : Int) : St :=
  if r > 0 then s.setFile f { s.file f with off := ((s.file f).off + r.toNat) % 2 ^ 32 } else s

theorem Inv.advance (h : Inv sb Γ s T F L) (f : FileId) (r : Int) : Inv sb Γ (s.advance f r) T F L := by
  unfold St.advance
  split
  · exact h.setOff f _
  · exact h

theorem view_advance (s : St) (f : FileId) (r : Int) : view sb (s.advance f r) = view sb s := by
  unfold St.advance
  split
  · exact view_setOff s f _
  · rfl

theorem wp_advance {U : Unit → St → Prop} {r : Int} :
    Γ.wp (when (r > 0) (setOff f (((s.file f).off + r.toNat) % 2 ^ 32))) s U ↔ U () (s.advance f r) := by
  unfold St.advance
  rw [wp_when, wp_setOff]
  split <;> simp [*]

section Write
variable {fd : Int} {u : UMem} {addr : Nat} {cnt output : Int}

/-- One locked section of `filewrite`. -/
theorem writeSection_wp [Γ.Writes] {Q : Int → St → Prop} {cnt : Nat} (h : Inv sb Γ s T F 0)
    (ht : (s.file f).type = .inode) (hw : (s.file f).writable = true)
    (hF : ∀ b, b ∉ Dirs sb s.cache → Γ.atFault b)
    (hfail : ∀ s', Inv sb Γ s' T F 0 → view sb s' = view sb s → s'.file = s.file → Q (-1) s')
    (hQ : ∀ (n : Node) (w len : Nat) s', (view sb s).node (s.inum (s.file f).ip) = some n → n.type ≠ T_DIR →
      (s.file f).off ≤ n.data.length → w ≤ len → w ≤ cnt → (w = cnt → len = w) → Inv sb Γ s' T F 0 →
      view sb s' = (view sb s).setNode (s.inum (s.file f).ip)
        { n with data := splice n.data (s.file f).off ((Src.user u addr).bytes 0 len) w } →
      s'.file = (s.advance f w).file → Q w s') :
    Γ.wp (writeSection sb f u addr cnt) s Q := by
  have hino : (s.file f).type.hasIno := by rw [ht]; rfl
  simp only [writeSection, wp_bind, wp_getFile]
  refine lockFile_wp h hino fun n hI hL => ?_
  have hnd : n.type ≠ T_DIR := by
    rw [← hL.type]; exact h.readonly f (by rw [ht]; rfl) hw
  have hview : view sb (s.load sb Γ.me (s.file f).ip) = view sb s := (Keep.load 0 s _).view rfl
  refine hL.writei_wp hI hnd hF ?_ fun w len s₁ hoff hwl hwn hend hI₁ hkeep₁ hv₁ => ?_
  · rw [wp_when]
    refine ⟨fun h => absurd h (by decide), fun _ => ?_⟩
    exact iunlock_wp hI fun hI₁ => hfail _ hI₁ hview rfl
  · have hpos : (s.file f).off = (s₁.file f).off := by rw [hkeep₁.file]; rfl
    change Γ.wp (when _ (setOff f (((s.file f).off + (w : Int).toNat) % 2 ^ 32))) s₁ _
    rw [hpos, wp_advance]
    refine iunlock_wp (hI₁.advance f _) fun hI₂ => ?_
    refine hQ n w len _ hL.node hnd hoff hwl hwn hend hI₂ ?_ ?_
    · change view sb (s₁.advance f w) = _
      rw [view_advance, hv₁, hview]; rfl
    · change (s₁.advance f w).file = _
      unfold St.advance
      split
      · rw [St.setFile_file, St.setFile_file, hkeep₁.file]; rfl
      · exact hkeep₁.file

theorem filewriteLoop_wp [Γ.Writes] {Q : Nat → St → Prop} {n : Nat} (hS : Serves sb Γ c s) (hc : c.stores)
    (hQ : ∀ i s', Inv sb Γ s' 0 0 0 → ((view sb s).Tame → View.Steps Γ.me c (view sb s) (view sb s')) → Q i s') :
    ∀ {fuel i : Nat} {s₁ : St}, Inv sb Γ s₁ 0 0 0 →
      ((view sb s).Tame → View.Steps Γ.me c (view sb s) (view sb s₁)) → (s₁.file f).type = .inode →
      (s₁.file f).writable = true → Γ.wp (filewriteLoop sb f u addr n i fuel) s₁ Q
  | 0, _, _, hI, hsteps, _, _ => hQ _ _ hI hsteps
  | fuel + 1, i, s₁, hI, hsteps, ht, hw => by
    rw [filewriteLoop, wp_ite]
    refine ⟨fun _ => ?_, fun _ => hQ _ _ hI hsteps⟩
    have hfile : (view sb s₁).file f = some (s₁.inum (s₁.file f).ip) := if_pos (by rw [ht]; rfl)
    rw [wp_bind, wp_beginOp, wp_bind]
    refine writeSection_wp hI ht hw (hS.atFault s₁ 0 0 0 hI hsteps) (fun s₂ hI₂ hv₂ _ => ?_)
      fun nd w len s₂ hn hnd _ _ _ _ hI₂ hv₂ hfile₂ => ?_
    · have hsteps₂ : (view sb s).Tame → View.Steps Γ.me c (view sb s) (view sb s₂) := by rwa [hv₂]
      rw [wp_bind, wp_endOp, if_pos (by omega)]
      exact ⟨hS.atEnd s₂ 0 0 0 hI₂ hsteps₂, hQ _ _ hI₂ hsteps₂⟩
    · have hsteps₂ : (view sb s).Tame → View.Steps Γ.me c (view sb s) (view sb s₂) := fun htame => by
        refine (hsteps htame).move ?_
        rw [hv₂]
        exact .store hc hfile hn hnd
      have hsame : (s₂.file f).type = (s₁.file f).type ∧ (s₂.file f).writable = (s₁.file f).writable := by
        rw [hfile₂]
        unfold St.advance
        split
        · rw [St.setFile_file, update_self]
          exact ⟨rfl, rfl⟩
        · exact ⟨rfl, rfl⟩
      rw [wp_bind, wp_endOp]
      refine ⟨hS.atEnd s₂ 0 0 0 hI₂ hsteps₂, ?_⟩
      rw [wp_ite]
      exact ⟨fun _ => hQ _ _ hI₂ hsteps₂, fun _ =>
        filewriteLoop_wp hS hc hQ hI₂ hsteps₂ (hsame.1.trans ht) (hsame.2.trans hw)⟩

theorem sysWrite_wp [Γ.Writes] (hS : Serves sb Γ (.write fd u addr cnt output) s) :
    Γ.wp (sysWrite sb fd u addr cnt output) s (Served sb Γ (.write fd u addr cnt output) s) := by
  rw [sysWrite, wp_bind]
  refine argfd_wp (hS.refl _) fun x f hf => ?_
  have htype := (hS.inv.fileOpen hf).2
  dsimp only
  rw [filewrite, wp_bind, wp_getFile, wp_ite]
  refine ⟨fun _ => hS.refl _, fun hw => ?_⟩
  cases ht : (s.file f).type with
  | none => exact absurd ht htype
  | pipe => exact hS.refl _
  | device => exact hS.refl _
  | inode =>
    dsimp only
    rw [wp_bind]
    exact filewriteLoop_wp hS rfl (fun i s₁ hI₁ hsteps => ⟨hI₁, hsteps, fun _ h => h.elim⟩) hS.inv (fun _ => .refl) ht
      (by simpa using hw)

end Write

end Xv6.Fs
