import Xv6.Fs.CreateSpec

/-! `mkdir`, `mknod`, `open` and `chdir`. -/

namespace Xv6.Fs
open Prog hiding wp_bind wp_pure wp_when wp_mono
open Ctx Function Multiset

variable {sb : Super} {Γ : Ctx} {s s' : St} {T L : Multiset Slot} {F : Multiset FileId} {ip : Slot} {i : Nat} {n : Node}
  {c : Call} {path : Option (List UInt8)}

/-! ### `mkdir` and `mknod` -/

theorem View.Created.node {A B : View} {me : Pid} {type major minor : Int16}
    (h : A.Created me path type major minor i B) : ∃ n, B.node i = some n ∧ n.nlink = 1 := by
  obtain ⟨d, m, name, j, hplace, hfresh, rfl⟩ := h
  have hne : i ≠ d := by
    rintro rfl
    exact absurd (hplace.node.symm.trans hfresh.free) (Option.some_ne_none m)
  refine ⟨Node.created type major minor i d, ?_, ?_⟩
  · rw [View.setNode_node_ne hne, View.setNode_node_self]
  · unfold Node.created
    split <;> rfl

theorem make_wp [Γ.Links] {type major minor : Int16} (hS : Serves sb Γ c s) (ht0 : type ≠ 0) (htf : type ≠ T_FILE)
    (hdots : type = T_DIR → major = 0 ∧ minor = 0)
    (hstep : ∀ i B, (view sb s).Created Γ.me path type major minor i B → View.Edit Γ.me c (view sb s) B) :
    Γ.wp (make sb (argstr path) type major minor) s (Served sb Γ c s) := by
  unfold make
  rw [wp_bind, wp_beginOp]
  cases hp : argstr path with
  | none => exact hS.fail_wp hS.inv (Keep.refl 0 s) (fun _ => rfl) _
  | some p =>
    dsimp only
    rw [wp_bind]
    refine create_wp hp hS.inv hS.full hS.strict ht0 hdots (fun s₁ hI₁ hkeep₁ hv₁ => hS.fail_wp hI₁ hkeep₁ hv₁ _)
      (fun _ _ _ h => absurd h htf) fun ip n s₁ _ hI₁ hkeep₁ hi hv₁ => ?_
    dsimp only
    rw [wp_bind]
    refine iunlockput_reap_wp hI₁ (notMem_zero _) hi.valid fun s₂ hI₂ hkeep₂ hv₂ => ?_
    have hsteps : (view sb s).Tame → View.Steps Γ.me c (view sb s) (view sb s₂) := fun ht => by
      obtain ⟨x, hx, hone⟩ := (hv₁ ht).node
      rw [hv₂, View.reap_self fun y hy h0 => ?_]
      · exact .edit (hstep _ _ (hv₁ ht))
      · obtain rfl := Option.some.inj (hx.symm.trans hy)
        rw [hone] at h0
        exact absurd h0 (by decide)
    rw [wp_bind, wp_endOp]
    exact ⟨hS.atEnd s₂ 0 0 0 hI₂ hsteps, hI₂, hsteps, fun h => absurd h (by decide)⟩

theorem sysMkdir_wp [Γ.Links] (hS : Serves sb Γ (.mkdir path) s) :
    Γ.wp (sysMkdir sb path) s (Served sb Γ (.mkdir path) s) := by
  refine make_wp hS (by decide) (by decide) (fun _ => ⟨rfl, rfl⟩) ?_
  rintro i B ⟨d, m, name, j, hplace, hfresh, rfl⟩
  exact .mkdir hplace hfresh

theorem sysMknod_wp [Γ.Links] {major minor : Int16} (hS : Serves sb Γ (.mknod path major minor) s) :
    Γ.wp (sysMknod sb path major minor) s (Served sb Γ (.mknod path major minor) s) := by
  refine make_wp hS (by decide) (by decide) (fun h => absurd h (by decide)) ?_
  rintro i B ⟨d, m, name, j, hplace, hfresh, rfl⟩
  exact .create rfl hplace hfresh

/-! ### Moving the current directory -/

theorem view_withProcs (s : St) (cwd : Pid → Option Slot) (ofile : Pid → Fin NOFILE → Option FileId) :
    view sb (s.withProcs cwd ofile) = { view sb s with cwd := fun p => (cwd p).map s.inum } := rfl

theorem view_setCwd (s : St) (p : Pid) (x : Option Slot) (ofile : Pid → Fin NOFILE → Option FileId) :
    view sb (s.withProcs (update s.cwd p x) ofile) = (view sb s).setCwd p (x.map s.inum) := by
  have hcwd : (fun q => (update s.cwd p x q).map s.inum) =
      update (view sb s).cwd p (x.map s.inum) :=
    funext fun q => apply_update (fun _ => Option.map s.inum) s.cwd p x q
  rw [view_withProcs, hcwd]; rfl

variable {k : Slot} {x : Option Slot}

/-- A process moves its current directory to where a token points, or gives it up; the old directory is
    a token then. -/
theorem Inv.setCwd {p : Pid} (h : Inv sb Γ s x.toFinset.val 0 0) (hk : s.cwd p = some k)
    (hx : ∀ l, x = some l → s.valid l = true) (hidle : x = none → ∀ fd, s.ofile p fd = none) :
    Inv sb Γ (s.withProcs (update s.cwd p x) s.ofile) (k ::ₘ 0) 0 0 := by
  have hheld : ∀ l, held s.file (update s.cwd p x) l + (k ::ₘ (0 : Multiset Slot)).count l =
      held s.file s.cwd l + x.toFinset.val.count l := fun l => by
    have := held_setCwd s.file s.cwd l p x
    have hcount : x.toFinset.val.count l = if x = some l then 1 else 0 := by
      cases x with
      | none => simp
      | some y =>
        change ({y} : Multiset Slot).count l = _
        rw [count_singleton]
        simp only [Option.some.injEq, eq_comm]
    rw [hcount, count_cons, count_zero]
    rw [hk] at this
    simp only [Option.some.injEq, eq_comm (a := k)] at this
    omega
  refine h.move _ _ _ hheld (fun l hl => ?_) h.frefs h.closed h.opened (fun q hq => ?_) h.readonly
  · by_cases hxl : x = some l
    · exact .inr (hx l hxl)
    · have := held_setCwd s.file s.cwd l p x
      rw [if_neg hxl] at this
      exact .inl (by omega)
  · rcases eq_or_ne q p with rfl | hne
    · rw [update_self] at hq
      exact hidle hq
    · rw [update_of_ne hne] at hq
      exact h.idle q hq

/-- `iput(p->cwd)` comes before the new value of `p->cwd`; the two might as well be exchanged. -/
theorem moveCwd_wp [Γ.Writes] {Q : Int → St → Prop} (h : Inv sb Γ s x.toFinset.val 0 0)
    (hk : s.cwd Γ.me = some k) (hx : ∀ l, x = some l → s.valid l = true)
    (hidle : x = none → ∀ fd, s.ofile Γ.me fd = none)
    (hQ : ∀ s', Inv sb Γ s' 0 0 0 → ((view sb s).Rooted →
      view sb s' = ((view sb s).setCwd Γ.me (x.map s.inum)).reap (s.inum k)) → Γ.atEnd s'.cache ∧ Q 0 s') :
    Γ.wp (do iput sb k; endOp; setCwd x; pure 0) s Q := by
  rw [wp_bind]
  refine wp_withProcs (iput_global k) (update s.cwd Γ.me x) s.ofile ?_
  refine iput_reap_wp (h.setCwd hk hx hidle) (pinned_zero _ _) (notMem_zero _) fun s₁ hI hkeep hview => ?_
  have hend := hQ s₁ hI fun hroot => by
    rw [view_setCwd] at hview
    refine hview fun hv n hn h0 => ?_
    rcases h.loaded k (held_of_cwd hk) with hv' | hr
    · exact absurd (hv'.symm.trans hv) (by decide)
    · have hn' : tree sb s.cache (s.inum k) = some n := hn
      rw [hr] at hn'
      exact absurd h0 (hroot n hn')
  have hback : { s₁.withProcs s.cwd s.ofile with cwd := update s.cwd Γ.me x } = s₁ := by
    have h1 : s₁.cwd = update s.cwd Γ.me x := hkeep.cwd
    have h2 : s₁.ofile = s.ofile := hkeep.ofile
    rw [← h1, ← h2]; rfl
  simp only [wp_bind, wp_endOp, wp_setCwd, wp_pure]
  change Γ.atEnd s₁.cache ∧ Q 0 { s₁.withProcs s.cwd s.ofile with cwd := update s.cwd Γ.me x }
  rw [hback]
  exact hend

theorem sysChdir_wp [Γ.Writes] (hS : Serves sb Γ (.chdir path) s) :
    Γ.wp (sysChdir sb path) s (Served sb Γ (.chdir path) s) := by
  unfold sysChdir
  rw [wp_bind, wp_beginOp]
  cases hp : argstr path with
  | none => exact hS.fail_wp hS.inv (Keep.refl 0 s) (fun _ => rfl) _
  | some p =>
    dsimp only
    refine nameiLock_wp hS.inv hS.full hS.calm (fun s₁ hI₁ hkeep₁ hv₁ => hS.fail_wp hI₁ hkeep₁ hv₁ _)
      fun ip n s₂ hI₂ hkeep₂ hi hv₂ => ?_
    have htype : (s₂.node ip).type = n.type := by rw [hi.mem hI₂, hi.type]
    rw [wp_bind, wp_getNode, wp_ite, htype]
    constructor
    · intro _
      rw [wp_bind]
      exact putBack_wp hI₂ hkeep₂ (fun ht => (hv₂ ht).1) fun s₃ hI₃ hkeep₃ hv₃ => hS.fail_wp hI₃ hkeep₃ hv₃ _
    · intro hdir
      rw [not_not] at hdir
      rw [wp_bind]
      refine iunlock_wp hI₂ fun hI₃ => ?_
      rw [wp_bind]
      refine wp_getCwd fun k hk => ?_
      refine moveCwd_wp (x := some ip) hI₃ hk (fun l hl => ?_) (fun h => absurd h (Option.some_ne_none ip))
        fun s₄ hI₄ hv₄ => ?_
      · obtain rfl := Option.some.inj hl
        exact hi.valid
      · have hsteps : (view sb s).Tame → View.Steps Γ.me (.chdir path) (view sb s) (view sb s₄) := fun ht => by
          have hv₃ : view sb (s₂.setLock ip none) = view sb s := (hv₂ ht).1
          rw [hv₃] at hv₄
          rw [hv₄ ht.quiet.rooted]
          refine .move .refl (.chdir ?_ ?_ hdir ?_)
          · rw [hp]; exact (hv₂ ht).2
          · rw [← (hv₂ ht).1]; exact hi.node
          · rw [← hv₃]
            change (s₂.cwd Γ.me).map s₂.inum = some (s₂.inum k)
            have : s₂.cwd Γ.me = some k := hk
            rw [this]; rfl
        exact ⟨hS.atEnd s₄ 0 0 0 hI₄ hsteps, hI₄, hsteps, fun h => absurd h (by decide)⟩

/-! ### Contents of files -/

theorem Locked.ents_nil (hL : Locked sb s k n) (ht : n.type ≠ T_DIR) : n.ents = [] := by
  rw [← hL.ents, entries, if_neg (by rw [hL.type]; exact ht)]

/-- The locked file gets new contents. -/
theorem Locked.written {c' : Nat → Block} {m : Dinode} (hL : Locked sb s k n) (h : Inv sb Γ s T F L)
    (ht : n.type ≠ T_DIR) (hW : Written sb (dinode sb s.cache) (s.inum k) s.cache c' m)
    (hm : m = { dinode sb s.cache (s.inum k) with size := m.size, addrs := m.addrs }) :
    Inv sb Γ (s.put k c' m) T F L ∧ Keep T s (s.put k c' m) ∧
      view sb (s.put k c' m) = (view sb s).setNode (s.inum k) { n with data := contents c' m } := by
  have hmt : m.type = n.type := by rw [hm]; exact hL.type
  have hnd : m.type ≠ T_DIR := by rw [hmt]; exact ht
  have hents : entries c' m = [] := by rw [entries, if_neg hnd]
  have hkeep := Keep.put T s k c' m
  refine ⟨h.written hL.ref hL.valid rfl hW (hmt.trans hL.type.symm) (fun hd => absurd hd hnd) (fun e he => ?_)
    (fun hd => absurd hd hnd), hkeep, hkeep.view_setNode ?_⟩
  · rw [hents] at he
    exact absurd he List.not_mem_nil
  · change tree sb c' = _
    rw [tree_written h.blocks hL.live.1 hW (by rw [hmt, ← hL.type]; exact hL.live.2)]
    congr 2
    have hn := hL.ents_nil ht
    rw [nodeOf, hents, ← hn, hL.eq, hm]; rfl

theorem Locked.itrunc_wp [Γ.Writes] {U : Unit → St → Prop} (hL : Locked sb s k n) (h : Inv sb Γ s T F L)
    (ht : n.type ≠ T_DIR)
    (hU : ∀ s', Inv sb Γ s' T F L → Keep T s s' →
      view sb s' = (view sb s).setNode (s.inum k) { n with data := [] } → U () s') : Γ.wp (itrunc sb k) s U := by
  refine Fs.itrunc_wp h.blocks hL.live (hL.mem h) rfl fun c' hW => ?_
  obtain ⟨hI, hkeep, hview⟩ := hL.written h ht hW rfl
  exact hU _ hI hkeep hview

/-! ### `open` -/

section Open
variable {omode : UInt32}

/-- What `sys_open` knows of the inode it has found or made. -/
def Found (sb : Super) (me : Pid) (path : Option (List UInt8)) (omode : UInt32) (s s' : St) (ip : Slot) (n : Node) :
    Prop :=
  (view sb s).Tame → view sb s' = view sb s ∨
    omode &&& O_CREATE ≠ 0 ∧ n.type = T_FILE ∧ (view sb s).Created me path T_FILE 0 0 (s'.inum ip) (view sb s')

theorem openInode_wp [Γ.Links] {Q : Option Slot → St → Prop} {p : Name} (hp : argstr path = some p)
    (hS : Serves sb Γ (.open path omode) s)
    (hnone : ∀ s', Inv sb Γ s' 0 0 0 → Keep 0 s s' → ((view sb s).Tame → view sb s' = view sb s) → Q none s')
    (hsome : ∀ ip n s', (n.type = T_DIR → omode = 0) → Inv sb Γ s' (ip ::ₘ 0) 0 (ip ::ₘ 0) → Keep 0 s s' →
      Locked sb s' ip n → Found sb Γ.me path omode s s' ip n → Q (some ip) s') :
    Γ.wp (openInode sb p omode) s Q := by
  rw [openInode, wp_ite]
  constructor
  · intro hcreate
    refine create_wp hp hS.inv hS.full hS.strict (by decide) (fun h => absurd h (by decide)) hnone
      (fun ip n s₁ _ ht hI hkeep hi hv => ?_) fun ip n s₁ ht hI hkeep hi hv => ?_
    · refine hsome ip n s₁ (fun hd => ?_) hI hkeep hi fun htame => .inl (hv htame)
      rw [hd] at ht
      exact absurd ht (by decide)
    · refine hsome ip n s₁ (fun hd => ?_) hI hkeep hi fun htame => .inr ⟨hcreate, ht, hv htame⟩
      rw [ht] at hd
      exact absurd hd (by decide)
  · intro _
    refine nameiLock_wp hS.inv hS.full hS.calm hnone fun ip n s₂ hI₂ hkeep₂ hi hv₂ => ?_
    have htype : (s₂.node ip).type = n.type := by rw [hi.mem hI₂, hi.type]
    rw [wp_bind, wp_getNode, wp_ite, htype]
    refine ⟨fun _ => ?_, fun hno => ?_⟩
    · rw [wp_bind]
      exact putBack_wp hI₂ hkeep₂ (fun ht => (hv₂ ht).1) hnone
    · exact hsome ip n _ (fun hd => by_contra fun h0 => hno ⟨hd, h0⟩) hI₂ hkeep₂ hi fun ht => .inl (hv₂ ht).1

/-- The steps that found or made the inode, and what they say about it. -/
theorem Found.steps {n : Node} (h : Found sb Γ.me path omode s s' ip n) (ht : (view sb s).Tame) :
    View.Steps Γ.me (.open path omode) (view sb s) (view sb s') := by
  rcases h ht with hv | ⟨hc, _, hcr⟩
  · rw [hv]
  · obtain ⟨d, m, name, j, hplace, hfresh, hB⟩ := hcr
    rw [hB]
    exact .edit (.create (by rw [Call.makes, if_pos hc]; rfl) hplace hfresh)

theorem Found.reap {n : Node} (h : Found sb Γ.me path omode s s' ip n) (ht : (view sb s).Tame) :
    (view sb s').reap (s'.inum ip) = view sb s' := by
  rcases h ht with hv | ⟨_, _, hcr⟩
  · rw [hv]; exact ht.quiet.reap_eq
  · obtain ⟨x, hx, hone⟩ := hcr.node
    refine View.reap_self fun y hy h0 => ?_
    obtain rfl := Option.some.inj (hx.symm.trans hy)
    rw [hone] at h0
    exact absurd h0 (by decide)

/-- `sys_open` gives up on the inode. -/
theorem openFail_wp [Γ.Writes] (hS : Serves sb Γ (.open path omode) s) (hI : Inv sb Γ s' (ip ::ₘ 0) 0 (ip ::ₘ 0))
    (hcwd : s'.cwd = s.cwd) (hofile : s'.ofile = s.ofile) (hi : Locked sb s' ip n)
    (hf : Found sb Γ.me path omode s s' ip n)
    (hun : n.type = T_FILE → omode &&& O_CREATE ≠ 0 → ¬(s.freeFile ≠ none ∧ ∃ fd, s.ofile Γ.me fd = none)) :
    Γ.wp (openFail sb ip) s' (Served sb Γ (.open path omode) s) := by
  rw [openFail, wp_bind]
  refine iunlockput_reap_wp hI (notMem_zero _) hi.valid fun s₁ hI₁ hkeep₁ hv₁ => ?_
  have hsame : (view sb s).Tame → view sb s₁ = view sb s' := fun ht => by rw [hv₁, hf.reap ht]
  have hsteps : (view sb s).Tame → View.Steps Γ.me (.open path omode) (view sb s) (view sb s₁) := fun ht => by
    rw [hsame ht]; exact hf.steps ht
  rw [wp_bind, wp_endOp]
  refine ⟨hS.atEnd s₁ 0 0 0 hI₁ hsteps, hI₁, hsteps, fun _ hu ht => ⟨?_, ?_, ?_⟩⟩
  · rw [hsame ht]
    rcases hf ht with hv | ⟨hc, hft, _⟩
    · exact hv
    · exact (hun hft hc (hu.resolve_left hc)).elim
  · rw [hkeep₁.cwd, hcwd]
  · rw [hkeep₁.ofile, hofile]

/-- A token becomes the pointer of an open file to its inode. -/
theorem Inv.openFile {f : FileId} {x : File} (h : Inv sb Γ s (ip ::ₘ T) F L) (hf : (s.file f).type.hasIno = false)
    (hx : x.type.hasIno) (hip : x.ip = ip) (href : x.ref = (s.file f).ref) (hpos : (s.file f).ref ≠ 0)
    (hv : s.valid ip = true)
    (hro : x.type.hasIno → x.writable = true → (dinode sb s.cache (s.inum ip)).type ≠ T_DIR) :
    Inv sb Γ (s.setFile f x) T F L := by
  have hheld : ∀ k, held (update s.file f x) s.cwd k = held s.file s.cwd k + if k = ip then 1 else 0 :=
    fun k => by rw [held_opened hf hx, hip]
  refine h.move (update s.file f x) s.cwd s.ofile (fun k => ?_) (fun k hk => ?_)
    (fun g => ?_) (fun g hg => ?_) (fun g hg => ?_) h.idle fun g hg hw => ?_
  · rw [hheld, count_cons, add_assoc, add_comm (T.count k)]
  · rw [hheld] at hk
    by_cases hki : k = ip
    · rw [hki]; exact .inr hv
    · rw [if_neg hki, add_zero] at hk; exact .inl hk
  all_goals rcases eq_or_ne g f with rfl | hne
  · rw [update_self, href]; exact h.frefs g
  · rw [update_of_ne hne]; exact h.frefs g
  · rw [update_self, href] at hg; exact absurd hg hpos
  · rw [update_of_ne hne] at hg ⊢; exact h.closed g hg
  · rw [update_self] at hg
    rw [hg] at hx
    cases hx
  · rw [update_of_ne hne] at hg; exact h.opened g hg
  · rw [update_self] at hg hw ⊢
    rw [hip]; exact hro hg hw
  · rw [update_of_ne hne] at hg hw ⊢; exact h.readonly g hg hw

/-- `sys_open` has everything it needs. -/
theorem openFile_wp [Γ.Writes] {f : FileId} {fd : Fin NOFILE} (hS : Serves sb Γ (.open path omode) s)
    (hI : Inv sb Γ s' (ip ::ₘ 0) (f ::ₘ 0) (ip ::ₘ 0)) (hfd : s'.ofile Γ.me fd = none) (hcwd : s'.cwd Γ.me ≠ none)
    (hi : Locked sb s' ip n) (hdir : n.type = T_DIR → omode = 0) (hft : (s'.file f).type = .none)
    (hf : Found sb Γ.me path omode s s' ip n) :
    Γ.wp (openFile sb ip f fd omode) (s'.setOfile Γ.me fd (some f)) (Served sb Γ (.open path omode) s) := by
  have htype : (s'.node ip).type = n.type := by rw [hi.mem hI, hi.type]
  have hfr : (s'.file f).ref ≠ 0 := by
    rw [hI.frefs f, count_cons_self]; exact Nat.succ_ne_zero _
  -- the file structure as `sys_open` fills it in
  have hfill : ∀ x : File, x.type.hasIno → x.ip = ip → x.ref = (s'.file f).ref →
      (x.writable = true → omode ≠ 0) →
      Γ.wp (do when (omode &&& O_TRUNC ≠ 0 ∧ (s'.node ip).type = T_FILE) (itrunc sb ip); iunlock ip; endOp; pure (fd.val : Int))
        ((s'.setFile f x).setOfile Γ.me fd (some f)) (Served sb Γ (.open path omode) s) := by
    intro x hx hip href hw
    have hI₀ : Inv sb Γ (s'.setFile f x) 0 (f ::ₘ 0) (ip ::ₘ 0) := hI.openFile (by rw [hft]; rfl) hx hip href hfr
      hi.valid fun _ hwr hd => hw hwr (hdir (hi.type.symm.trans hd))
    have hI₁ := hI₀.fdalloc hfd hcwd (by
      rw [St.setFile_file, update_self]
      intro hno
      rw [hno] at hx
      cases hx)
    have hi₁ : Locked sb ((s'.setFile f x).setOfile Γ.me fd (some f)) ip n := ⟨hi.ref, hi.valid, hi.node⟩
    have hv₁ : view sb ((s'.setFile f x).setOfile Γ.me fd (some f)) = (view sb s').setFile f (some (s'.inum ip)) := by
      change view sb (s'.setFile f x) = _
      rw [view_setFile, if_pos hx, hip]
    have hopen : (view sb s).Tame → View.Steps Γ.me (.open path omode) (view sb s)
        (view sb ((s'.setFile f x).setOfile Γ.me fd (some f))) := fun ht => by
        refine (hf.steps ht).move ?_
        rw [hv₁]
        exact .open (if_neg (by rw [hft]; decide)) (by change (tree sb s'.cache (s'.inum ip)).isSome; rw [hi.node]; rfl)
    -- truncated or not, the call ends here
    have hdone : ∀ s₂, Inv sb Γ s₂ 0 0 (ip ::ₘ 0) →
        ((view sb s).Tame → View.Steps Γ.me (.open path omode) (view sb s) (view sb s₂)) →
        Γ.wp (do iunlock ip; endOp; pure (fd.val : Int)) s₂ (Served sb Γ (.open path omode) s) := by
      intro s₂ hI₂ hsteps
      rw [wp_bind]
      refine iunlock_wp hI₂ fun hI₃ => ?_
      rw [wp_bind, wp_endOp]
      refine ⟨hS.atEnd _ 0 0 0 hI₃ hsteps, hI₃, hsteps, fun h => absurd h ?_⟩
      have := fd.val.cast_nonneg (α := Int)
      omega
    rw [wp_bind, wp_when, htype]
    refine ⟨fun ⟨htr, hfile⟩ => ?_, fun _ => hdone _ hI₁ hopen⟩
    have hnd : n.type ≠ T_DIR := by rw [hfile]; decide
    refine hi₁.itrunc_wp hI₁ hnd fun s₂ hI₂ _ hv₂ => hdone s₂ hI₂ fun ht => (hopen ht).move ?_
    rw [hv₂]
    refine .store (f := f) (by simpa [Call.stores] using htr) ?_ hi₁.node hnd
    rw [hv₁]
    exact update_self ..
  rw [openFile]
  simp only [wp_bind, wp_getNode, wp_getFile, wp_setFile]
  simp only [wp_bind] at hfill
  refine hfill _ ?_ rfl rfl fun hw h0 => ?_
  · dsimp only
    split <;> rfl
  · subst h0
    change (((0 : UInt32) &&& O_WRONLY != 0) || ((0 : UInt32) &&& O_RDWR != 0)) = true at hw
    exact absurd hw (by decide)

theorem sysOpen_wp [Γ.Links] (hS : Serves sb Γ (.open path omode) s) :
    Γ.wp (sysOpen sb path omode) s (Served sb Γ (.open path omode) s) := by
  unfold sysOpen
  cases hp : argstr path with
  | none => exact hS.refl (-1)
  | some p =>
    dsimp only
    rw [wp_bind, wp_beginOp, wp_bind]
    refine openInode_wp hp hS (fun s₁ hI₁ hkeep₁ hv₁ => hS.fail_wp hI₁ hkeep₁ hv₁ _)
      fun ip n s₁ hdir hI₁ hkeep₁ hi hf => ?_
    have htype : (s₁.node ip).type = n.type := by rw [hi.mem hI₁, hi.type]
    dsimp only
    rw [wp_bind, wp_getNode, wp_ite]
    constructor
    · rintro ⟨hdev, _⟩
      refine openFail_wp hS hI₁ hkeep₁.cwd hkeep₁.ofile hi hf fun hft => ?_
      rw [htype, hft] at hdev
      exact absurd hdev (by decide)
    intro _
    rw [wp_bind]
    refine filealloc_wp hI₁ (fun hfull => ?_) fun f href hft hI₂ => ?_
    · refine openFail_wp hS hI₁ hkeep₁.cwd hkeep₁.ofile hi hf fun _ _ hfree => hfree.1 ?_
      have : s.freeFile = s₁.freeFile := by unfold St.freeFile; rw [hkeep₁.file]
      rw [this]; exact hfull
    have hi₂ : Locked sb (s₁.setFile f { s₁.file f with ref := 1 }) ip n := ⟨hi.ref, hi.valid, hi.node⟩
    have hv₂ : view sb (s₁.setFile f { s₁.file f with ref := 1 }) = view sb s₁ := by
      have hnone : (view sb s₁).file f = none := if_neg (by rw [hft]; decide)
      rw [view_setFile]
      dsimp only
      rw [hft, if_neg (by decide), View.setFile, ← hnone, update_eq_self]
    have hf₂ : Found sb Γ.me path omode s (s₁.setFile f { s₁.file f with ref := 1 }) ip n := by
      intro ht
      rw [hv₂]; exact hf ht
    have hset : ((s₁.setFile f { s₁.file f with ref := 1 }).file f).type = .none := by
      rw [St.setFile_file, update_self]; exact hft
    dsimp only
    rw [wp_bind]
    refine fdalloc_wp (fun hall => ?_) fun fd hfd => ?_
    · -- no descriptor: the file structure goes back
      dsimp only
      rw [wp_bind]
      refine fileclose_idle_wp hI₂ (by rw [hset]; rfl) fun x hx hI₃ => ?_
      refine openFail_wp hS hI₃ hkeep₁.cwd hkeep₁.ofile ⟨hi₂.ref, hi₂.valid, hi₂.node⟩ (fun ht => ?_)
        fun _ _ hfree => ?_
      · have hv₃ : view sb ((s₁.setFile f { s₁.file f with ref := 1 }).setFile f x) = view sb s₁ := by
          have hnone : (view sb s₁).file f = none := if_neg (by rw [hft]; decide)
          rw [view_setFile, hv₂, hx, if_neg Bool.false_ne_true, View.setFile, ← hnone, update_eq_self]
        rw [hv₃]; exact hf ht
      · obtain ⟨fd, hfd⟩ := hfree.2
        refine hall fd ?_
        change s₁.ofile Γ.me fd = none
        rw [hkeep₁.ofile]; exact hfd
    · have hcwd : s₁.cwd Γ.me ≠ none := by rw [hkeep₁.cwd]; exact hS.running
      exact openFile_wp hS hI₂ hfd hcwd hi₂ hdir hset hf₂

end Open

end Xv6.Fs
