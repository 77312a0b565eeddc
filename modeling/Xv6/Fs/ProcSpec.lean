import Xv6.Fs.FileSpec

/-! `exec`, `pipe`, `fork` and `exit`, and all system calls together. -/

namespace Xv6.Fs
open Prog hiding wp_bind wp_pure wp_when wp_mono
open Ctx Function Multiset

variable {sb : Super} {Γ : Ctx} {s s' : St} {T L : Multiset Slot} {F : Multiset FileId} {k ip : Slot} {f : FileId}
  {n : Node} {c : Call}

/-! ### `exec` -/

section Exec
variable {path : Option (List UInt8)} {args : Bool} {mem : ExecMem}

theorem loadseg_wp {Q : Bool → St → Prop} {offset sz : Nat} (hw : Whole s.cache (s.node ip)) (hQ : ∀ b, Q b s) :
    ∀ {fuel i : Nat}, Γ.wp (loadseg sb ip offset sz i fuel) s Q
  | 0, _ => hQ _
  | fuel + 1, i => by
    rw [loadseg, wp_ite]
    refine ⟨fun _ => ?_, fun _ => hQ _⟩
    rw [wp_bind]
    refine readi_wp hw fun r => ?_
    rw [wp_ite]
    exact ⟨fun _ => hQ _, fun _ => loadseg_wp hw hQ⟩

theorem loadProgram_wp {Q : Bool → St → Prop} (hw : Whole s.cache (s.node ip)) (hQ : ∀ b, Q b s) :
    ∀ {n i off : Nat}, Γ.wp (loadProgram sb ip mem i off n) s Q
  | 0, _, _ => hQ _
  | n + 1, i, off => by
    rw [loadProgram, wp_bind]
    refine readi_wp hw fun r => ?_
    simp only [wp_ite]
    refine ⟨fun _ => hQ _, fun _ => ⟨fun _ => loadProgram_wp hw hQ, fun _ => ⟨fun _ => hQ _, fun _ =>
      ⟨fun _ => hQ _, fun _ => ⟨fun _ => hQ _, fun _ => ⟨fun _ => hQ _, fun _ => ?_⟩⟩⟩⟩⟩⟩
    rw [wp_bind]
    refine loadseg_wp hw fun b => ?_
    rw [wp_ite]
    exact ⟨fun _ => loadProgram_wp hw hQ, fun _ => hQ _⟩

theorem sysExec_wp [Γ.Writes] (hS : Serves sb Γ (.exec path args mem) s) :
    Γ.wp (sysExec sb path args mem) s (Served sb Γ (.exec path args mem) s) := by
  unfold sysExec
  cases hp : argstr path with
  | none => exact hS.refl _
  | some p =>
    dsimp only
    rw [wp_ite]
    refine ⟨fun _ => hS.refl _, fun _ => ?_⟩
    rw [exec, wp_bind, wp_beginOp]
    refine nameiLock_wp hS.inv hS.full hS.calm (fun s₁ hI₁ hkeep₁ hv₁ => hS.fail_wp hI₁ hkeep₁ hv₁ _)
      fun ip n s₂ hI₂ hkeep₂ hi hv₂ => ?_
    have hw : Whole s₂.cache (s₂.node ip) := by
      rw [hi.mem hI₂]; exact hI₂.blocks.full _ hi.live
    -- whatever is read, the inode is put back and the view is the same
    have hput : ∀ r : Int, Γ.wp (do iunlockput sb ip; endOp; pure r) s₂ (Served sb Γ (.exec path args mem) s) := fun r => by
      rw [wp_bind]
      exact putBack_wp hI₂ hkeep₂ (fun ht => (hv₂ ht).1) fun s₃ hI₃ hkeep₃ hv₃ => hS.fail_wp hI₃ hkeep₃ hv₃ r
    rw [wp_bind]
    refine readi_wp hw fun r => ?_
    simp only [wp_ite]
    refine ⟨fun _ => hput _, fun _ => ⟨fun _ => hput _, fun _ => ⟨fun _ => hput _, fun _ => ?_⟩⟩⟩
    rw [wp_bind]
    refine loadProgram_wp hw fun b => ?_
    rw [wp_ite]
    exact ⟨fun _ => hput _, fun _ => hput _⟩

end Exec

/-! ### `pipe` -/

section Pipe
variable {page : Bool} {u : UMem} {fdarray : Nat}

theorem view_setFile_idle {x : File} (hf : (s.file f).type.hasIno = false) (hx : x.type.hasIno = false) :
    view sb (s.setFile f x) = view sb s := by
  have hnone : (view sb s).file f = none := if_neg (by rw [hf]; decide)
  rw [view_setFile, hx, if_neg Bool.false_ne_true, View.setFile, ← hnone, update_eq_self]

/-- The state after a pipe could not be made: nothing has happened. -/
structure Idle (sb : Super) (Γ : Ctx) (s s' : St) : Prop where
  inv : Inv sb Γ s' 0 0 0
  view : view sb s' = view sb s

/-- An open file that refers to no inode becomes an end of a pipe. -/
theorem Inv.toPipe (h : Inv sb Γ s T F L) (hf : (s.file f).type.hasIno = false) (hF : f ∈ F) {r w : Bool} :
    Inv sb Γ (s.setFile f { s.file f with type := .pipe, readable := r, writable := w }) T F L := by
  have hpos := count_pos.mpr hF
  have href := h.frefs f
  exact h.setFileRef hf.symm (fun _ => rfl) (fun h => by cases h) href (fun _ _ => rfl)
    (fun h0 => absurd h0 (by dsimp only; omega)) fun h => by cases h

/-- Closing the two ends of a pipe, or what was to become them. -/
theorem closeBoth_wp {α : Type} {Q : α → St → Prop} {f g : FileId} {a : α} (h : Inv sb Γ s' 0 (f ::ₘ g ::ₘ 0) 0)
    (hf : (s'.file f).type.hasIno = false) (hg : (s'.file g).type.hasIno = false) (hview : view sb s' = view sb s)
    (hQ : ∀ s'', Idle sb Γ s s'' → Q a s'') : Γ.wp (do fileclose sb f; fileclose sb g; pure a) s' Q := by
  rw [wp_bind]
  refine fileclose_idle_wp h hf fun x hx hI => ?_
  rw [wp_bind]
  have hg' : ((s'.setFile f x).file g).type.hasIno = false := by
    rw [St.setFile_file]
    rcases eq_or_ne g f with rfl | hne
    · rw [update_self]; exact hx
    · rw [update_of_ne hne]; exact hg
  refine fileclose_idle_wp hI hg' fun y hy hI' => hQ _ ⟨hI', ?_⟩
  rw [view_setFile_idle hg' hy, view_setFile_idle hf hx, hview]

theorem pipealloc_wp {Q : Option (FileId × FileId) → St → Prop} (h : Inv sb Γ s 0 0 0)
    (hnone : ∀ s', Idle sb Γ s s' → Q none s')
    (hsome : ∀ f g s', Inv sb Γ s' 0 (f ::ₘ g ::ₘ 0) 0 → (s'.file f).type = .pipe → (s'.file g).type = .pipe →
      view sb s' = view sb s → s'.cwd = s.cwd → Q (some (f, g)) s') : Γ.wp (pipealloc sb page) s Q := by
  rw [pipealloc, wp_bind]
  refine filealloc_wp h (fun _ => hnone s ⟨h, rfl⟩) fun f hf0 hft hI₁ => ?_
  have hft' : (s.file f).type.hasIno = false := by rw [hft]; rfl
  have hv₁ : view sb (s.setFile f { s.file f with ref := 1 }) = view sb s :=
    view_setFile_idle (x := { s.file f with ref := 1 }) hft' hft'
  have hf₁ : ((s.setFile f { s.file f with ref := 1 }).file f) = { s.file f with ref := 1 } := update_self ..
  dsimp only
  rw [wp_bind]
  generalize hs₁ : s.setFile f { s.file f with ref := 1 } = s₁ at *
  have hcwd : s₁.cwd = s.cwd := by rw [← hs₁]; rfl
  refine filealloc_wp hI₁ (fun _ => ?_) fun g hg0 hgt hI₂ => ?_
  · dsimp only
    rw [wp_bind]
    refine fileclose_idle_wp hI₁ (by rw [hf₁]; exact hft') fun x hx hI₂ => hnone _ ⟨hI₂, ?_⟩
    rw [view_setFile_idle (by rw [hf₁]; exact hft') hx, hv₁]
  have hgf : g ≠ f := by
    rintro rfl
    rw [hf₁] at hg0
    exact absurd hg0 Nat.one_ne_zero
  have hgt' : (s₁.file g).type.hasIno = false := by rw [hgt]; rfl
  have hv₂ : view sb (s₁.setFile g { s₁.file g with ref := 1 }) = view sb s := 
    (view_setFile_idle (x := { s₁.file g with ref := 1 }) hgt' hgt').trans hv₁
  have hf₂ : (s₁.setFile g { s₁.file g with ref := 1 }).file f = s₁.file f := update_of_ne hgf.symm ..
  have hg₂ : (s₁.setFile g { s₁.file g with ref := 1 }).file g = { s₁.file g with ref := 1 } := update_self ..
  have hcwd₂ : (s₁.setFile g { s₁.file g with ref := 1 }).cwd = s.cwd := hcwd
  dsimp only
  generalize hs₂ : s₁.setFile g { s₁.file g with ref := 1 } = s₂ at *
  have hino : (s₂.file f).type.hasIno = false ∧ (s₂.file g).type.hasIno = false := by
    rw [hf₂, hf₁, hg₂]; exact ⟨hft', hgt'⟩
  rw [cons_swap] at hI₂
  rw [wp_ite]
  refine ⟨fun _ => closeBoth_wp hI₂ hino.1 hino.2 hv₂ hnone, fun _ => ?_⟩
  simp only [wp_bind, wp_getFile, wp_setFile, wp_pure]
  have hgf₃ : ∀ x, ((s₂.setFile f x).file g) = s₂.file g := fun x => update_of_ne hgf ..
  have hI₃ := hI₂.toPipe (r := true) (w := false) hino.1 (mem_cons_self f _)
  have hI₄ := hI₃.toPipe (r := false) (w := true) (f := g) (by rw [hgf₃]; exact hino.2)
    (mem_cons_of_mem (mem_cons_self g 0))
  refine hsome f g _ hI₄ ?_ ?_ ?_ hcwd₂
  · rw [St.setFile_file, update_of_ne hgf.symm, St.setFile_file, update_self]
  · rw [St.setFile_file, update_self]
  · rw [view_setFile_idle (by rw [hgf₃]; exact hino.2) rfl, view_setFile_idle hino.1 rfl, hv₂]

theorem St.setOfile_self {p : Pid} {fd : Fin NOFILE} {x : Option FileId} : (s.setOfile p fd x).ofile p fd = x := by
  simp [St.setOfile]

theorem St.setOfile_ne {p : Pid} {fd fd' : Fin NOFILE} {x : Option FileId} (h : fd' ≠ fd) :
    (s.setOfile p fd x).ofile p fd' = s.ofile p fd' := by
  simp [St.setOfile, h]

theorem Idle.served {r : Int} (h : Idle sb Γ s s') : Served sb Γ (.pipe page u fdarray) s r s' :=
  ⟨h.inv, fun _ => by rw [h.view], fun _ hno _ => hno.elim⟩

theorem sysPipe_wp (hS : Serves sb Γ (.pipe page u fdarray) s) :
    Γ.wp (sysPipe sb page u fdarray) s (Served sb Γ (.pipe page u fdarray) s) := by
  rw [sysPipe, wp_bind]
  refine pipealloc_wp hS.inv (fun s' h => h.served) fun f g s₁ hI₁ hf hg hv₁ hcwd => ?_
  have hrun : s₁.cwd Γ.me ≠ none := by rw [hcwd]; exact hS.running
  have hf' : (s₁.file f).type.hasIno = false := by rw [hf]; rfl
  have hg' : (s₁.file g).type.hasIno = false := by rw [hg]; rfl
  -- the descriptors that were allocated are free again, and both ends go
  have hfail : ∀ s', Inv sb Γ s' 0 (f ::ₘ g ::ₘ 0) 0 → s'.file = s₁.file → view sb s' = view sb s →
      Γ.wp (pipeFail sb f g) s' (Served sb Γ (.pipe page u fdarray) s) := fun s' hI hfile hview =>
    closeBoth_wp hI (by rw [hfile]; exact hf') (by rw [hfile]; exact hg') hview fun s'' h => h.served
  dsimp only
  rw [wp_bind]
  refine fdalloc_wp (fun _ => hfail s₁ hI₁ rfl hv₁) fun fd0 hfd0 => ?_
  have hI₂ := hI₁.fdalloc hfd0 hrun (by rw [hf]; decide)
  have hfd0' : (s₁.setOfile Γ.me fd0 (some f)).ofile Γ.me fd0 = some f := St.setOfile_self
  dsimp only
  rw [wp_bind]
  refine fdalloc_wp (fun _ => ?_) fun fd1 hfd1 => ?_
  · dsimp only
    rw [wp_bind, wp_setOfile]
    exact hfail _ (hI₂.fdfree hfd0') rfl hv₁
  · have hI₃ := hI₂.fdalloc hfd1 hrun (by change (s₁.file g).type ≠ .none; rw [hg]; decide)
    have hne : fd0 ≠ fd1 := by
      rintro rfl
      exact absurd (hfd0'.symm.trans hfd1) (Option.some_ne_none f)
    dsimp only
    rw [wp_ite]
    refine ⟨fun _ => ?_, fun _ => Idle.served ⟨hI₃, hv₁⟩⟩
    rw [wp_bind, wp_setOfile, wp_bind, wp_setOfile]
    have hI₄ := hI₃.fdfree ((St.setOfile_ne hne).trans hfd0')
    have hI₅ := hI₄.fdfree ((St.setOfile_ne hne.symm).trans St.setOfile_self)
    rw [cons_swap] at hI₅
    exact hfail _ hI₅ rfl hv₁

end Pipe

/-! ### `fork` -/

section Fork
variable {np : Pid}

/-- The state with the descriptors of `np` out of sight. -/
def St.without (s : St) (np : Pid) : St := { s with ofile := update s.ofile np fun _ => none }

/-- On the way through the descriptors of `fork`: the new process has those of `F`, which count as
    tokens as long as it is not running. -/
structure Forking (sb : Super) (Γ : Ctx) (np : Pid) (s s' : St) (F : Multiset FileId) : Prop where
  inv : Inv sb Γ (s'.without np) 0 F 0
  opens : ∀ g, opens s'.ofile g = opens (s'.without np).ofile g + F.count g
  types : ∀ g ∈ F, (s'.file g).type ≠ .none
  mine : s'.ofile Γ.me = s.ofile Γ.me
  cwd : s'.cwd = s.cwd
  view : view sb s' = view sb s
  inum : s'.inum = s.inum

theorem Forking.without_mine (h : Forking sb Γ np s s' F) (hne : np ≠ Γ.me) (fd : Fin NOFILE) :
    (s'.without np).ofile Γ.me fd = s.ofile Γ.me fd := by
  rw [← h.mine]
  exact congrFun (update_of_ne hne.symm _ _) fd

theorem Forking.step (h : Forking sb Γ np s s' F) (hne : np ≠ Γ.me) {fd : Fin NOFILE} (hfd : s.ofile Γ.me fd = some f)
    (hnp : s'.ofile np fd = none) :
    Forking sb Γ np s ((s'.setFile f { s'.file f with ref := (s'.file f).ref + 1 }).setOfile np fd (some f)) (f ::ₘ F) := by
  have hwithout : ((s'.setFile f { s'.file f with ref := (s'.file f).ref + 1 }).setOfile np fd (some f)).without np =
      (s'.without np).setFile f { s'.file f with ref := (s'.file f).ref + 1 } := by
    simp only [St.without, St.setOfile, St.setFile, update_idem]
  have hmine := (h.without_mine hne fd).trans hfd
  refine ⟨?_, fun g => ?_, fun g hg => ?_, ?_, h.cwd, (view_setFileRef s' f _).trans h.view, h.inum⟩
  · rw [hwithout]; exact h.inv.filedup f
  · rw [hwithout]
    have h1 := h.opens g
    have h2 := opens_setOfile s'.ofile np fd (some f) g
    rw [hnp, if_neg (Option.some_ne_none g).symm] at h2
    rw [count_cons]
    change Fs.opens (update s'.ofile np (update (s'.ofile np) fd (some f))) g =
      Fs.opens (s'.without np).ofile g + _
    simp only [Option.some.injEq, eq_comm (a := f)] at h2
    omega
  · change (update s'.file f _ g).type ≠ .none
    rcases eq_or_ne g f with rfl | hgf
    · rw [update_self]; exact (h.inv.fileOpen hmine).2
    · rw [update_of_ne hgf]
      exact h.types g ((mem_cons.mp hg).resolve_left hgf)
  · change update s'.ofile np _ Γ.me = _
    rw [update_of_ne hne.symm, h.mine]

theorem forkFiles_wp {U : Unit → St → Prop} (hne : np ≠ Γ.me) (hU : ∀ s' F, Forking sb Γ np s s' F → U () s') :
    ∀ {fds : List (Fin NOFILE)} {s' : St} {F : Multiset FileId}, fds.Nodup → (∀ fd ∈ fds, s'.ofile np fd = none) →
    Forking sb Γ np s s' F → Γ.wp (forkFiles np fds) s' U
  | [], s', F, _, _, h => hU s' F h
  | fd :: fds, s', F, hnd, hnone, h => by
    obtain ⟨hfd, hnd⟩ := List.nodup_cons.mp hnd
    rw [forkFiles, wp_bind, wp_getOfile, h.mine]
    cases hf : s.ofile Γ.me fd with
    | none => exact forkFiles_wp hne hU hnd (fun x hx => hnone x (List.mem_cons_of_mem _ hx)) h
    | some f =>
      have href : 0 < (s'.file f).ref := (h.inv.fileOpen ((h.without_mine hne fd).trans hf)).1
      dsimp only
      rw [wp_bind, wp_filedup href, wp_bind, wp_childOfile]
      have hstep := h.step hne hf (hnone fd List.mem_cons_self)
      refine forkFiles_wp hne hU hnd (fun x hx => ?_) hstep
      have hxfd : x ≠ fd := fun hxf => hfd (hxf ▸ hx)
      exact (St.setOfile_ne hxfd).trans (hnone x (List.mem_cons_of_mem _ hx))

/-- The new process starts in the directory of the old one, with the descriptors it was given. -/
theorem Forking.start (h : Forking sb Γ np s s' F) (hnp : s.cwd np = none) (hip : s.cwd Γ.me = some ip) :
    Inv sb Γ { s'.setRef ip (s'.ref ip + 1) with cwd := update s'.cwd np (some ip) } 0 0 0 := by
  have hheld : 0 < held s'.file s'.cwd ip := held_of_cwd (h.cwd ▸ hip)
  have hI := h.inv.idup (k := ip) (h.inv.ref_pos (Nat.add_pos_left hheld _))
  have hmove : ∀ k, held s'.file (update s'.cwd np (some ip)) k =
      held s'.file s'.cwd k + if k = ip then 1 else 0 := fun k => by
    have := held_setCwd s'.file s'.cwd k np (some ip)
    rw [h.cwd, hnp, if_neg (Option.some_ne_none k).symm, ← h.cwd] at this
    simp only [Option.some.injEq, eq_comm (a := ip)] at this
    omega
  refine hI.move s'.file (update s'.cwd np (some ip)) s'.ofile (fun k => ?_)
    (fun k hk => ?_) (fun g => ?_) h.inv.closed (fun g hg => ?_) (fun p hp fd => ?_) h.inv.readonly
  · rw [hmove, count_zero, add_zero, count_cons, count_zero, zero_add]
    rfl
  · rw [hmove] at hk
    by_cases hki : k = ip
    · rw [hki]; exact .inl hheld
    · rw [if_neg hki, add_zero] at hk; exact .inl hk
  · rw [count_zero, add_zero, h.opens g]; exact h.inv.frefs g
  · have h0 : Fs.opens (s'.without np).ofile g = 0 := h.inv.opened g hg
    rw [h.opens g, h0, zero_add]
    exact count_eq_zero_of_notMem fun hgF => h.types g hgF hg
  · rcases eq_or_ne p np with rfl | hne
    · rw [update_self] at hp; cases hp
    · rw [update_of_ne hne] at hp
      exact (congrFun (update_of_ne hne _ _) fd).symm.trans (h.inv.idle p hp fd)

theorem fork_wp {p : Option Pid} (hS : Serves sb Γ (.fork p) s) (hp : ∀ np, p = some np → s.cwd np = none) :
    Γ.wp (fork p) s (Served sb Γ (.fork p) s) := by
  unfold fork
  cases p with
  | none => exact hS.refl _
  | some np =>
    have hnp := hp np rfl
    have hne : np ≠ Γ.me := fun h => hS.running (h ▸ hnp)
    have hidle : s.ofile np = fun _ => none := funext (hS.inv.idle np hnp)
    have hself : s.without np = s := by
      unfold St.without
      rw [← hidle, update_eq_self]
    have hbegin : Forking sb Γ np s s 0 :=
      ⟨by rw [hself]; exact hS.inv, fun g => by rw [hself, count_zero, add_zero],
        fun g hg => absurd hg (notMem_zero g), rfl, rfl, rfl, rfl⟩
    dsimp only
    rw [wp_bind]
    refine forkFiles_wp hne (fun s₁ F h => ?_) (List.nodup_finRange _) (fun fd _ => hS.inv.idle np hnp fd) hbegin
    rw [wp_bind]
    refine wp_getCwd fun ip hip => ?_
    rw [h.cwd] at hip
    rw [wp_bind, wp_idup, wp_bind, wp_childCwd, wp_pure]
    refine ⟨h.start hnp hip, fun _ => ?_, fun _ hno => hno.elim⟩
    change View.Steps _ _ _ (view sb ((s₁.setRef ip (s₁.ref ip + 1)).withProcs
      (update (s₁.setRef ip (s₁.ref ip + 1)).cwd np (some ip)) s₁.ofile))
    rw [view_setCwd, show view sb (s₁.setRef ip (s₁.ref ip + 1)) = view sb s from h.view]
    refine .move .refl (.fork ?_ ?_)
    · change (s.cwd Γ.me).map s.inum = some (s₁.inum ip)
      rw [hip, h.inum]; rfl
    · change (s.cwd np).map s.inum = _
      rw [hnp]; rfl

end Fork

/-! ### `exit` -/

section Exit

theorem View.node_of_reap {A : View} {i j : Nat} (h : (A.reap i).node j = some n) : A.node j = some n := by
  unfold View.reap at h
  split at h
  · change update A.node i none j = some n at h
    rcases eq_or_ne j i with rfl | hne
    · rw [update_self] at h; cases h
    · rwa [update_of_ne hne] at h
  · exact h

theorem View.Closing.rooted {A A' : View} (h : A.Closing f A') (hr : A.Rooted) : A'.Rooted := by
  rcases h with rfl | ⟨i, _, rfl⟩
  · exact hr
  · exact fun n hn => hr n (View.node_of_reap (A := A.setFile f none) hn)

/-- On the way through the descriptors of `exit`. -/
structure Exiting (sb : Super) (Γ : Ctx) (s s' : St) : Prop where
  inv : Inv sb Γ s' 0 0 0
  cwd : s'.cwd = s.cwd
  steps : (view sb s).Tame → View.Steps Γ.me .exit (view sb s) (view sb s')
  rooted : (view sb s).Tame → (view sb s').Rooted

theorem exitFiles_wp [Γ.Writes] {U : Unit → St → Prop} (hS : Serves sb Γ .exit s)
    (hU : ∀ s', Exiting sb Γ s s' → (∀ fd, s'.ofile Γ.me fd = none) → U () s') :
    ∀ {fds : List (Fin NOFILE)} {s' : St}, Exiting sb Γ s s' → (∀ fd, fd ∉ fds → s'.ofile Γ.me fd = none) →
    Γ.wp (exitFiles sb fds) s' U
  | [], s', h, hdone => hU s' h fun fd => hdone fd List.not_mem_nil
  | fd :: fds, s', h, hdone => by
    rw [exitFiles, wp_bind, wp_getOfile]
    cases hf : s'.ofile Γ.me fd with
    | none =>
      refine exitFiles_wp hS hU h fun x hx => ?_
      by_cases hxf : x = fd
      · rw [hxf, hf]
      · exact hdone x fun hmem => (List.mem_cons.mp hmem).elim hxf hx
    | some f =>
      dsimp only
      rw [wp_bind]
      refine wp_withProcs (fileclose_global f) s'.cwd (s'.setOfile Γ.me fd none).ofile ?_
      -- it makes no difference that the descriptor is cleared after the file is closed
      refine fileclose_wp (s := s'.setOfile Γ.me fd none) (h.inv.fdfree hf) fun s₁ hI₁ hcwd hofile hclosing => ?_
      have hsteps : (view sb s).Tame → View.Steps Γ.me .exit (view sb s) (view sb s₁) := fun ht => by
        rcases hclosing (h.rooted ht) with hv | ⟨i, hi, hv⟩
        · rw [hv]; exact h.steps ht
        · rw [hv]; exact (h.steps ht).move (.close rfl hi)
      refine ⟨hS.atEnd s₁ 0 0 0 hI₁ hsteps, ?_⟩
      rw [wp_bind, wp_setOfile]
      have hs₁ : (s₁.withProcs s'.cwd s'.ofile).setOfile Γ.me fd none = s₁ := by
        change s₁.withProcs s'.cwd (s'.setOfile Γ.me fd none).ofile = s₁
        rw [← hofile, show s'.cwd = s₁.cwd from hcwd.symm]; rfl
      have hrec : Γ.wp (exitFiles sb fds) s₁ U := exitFiles_wp hS hU
        ⟨hI₁, hcwd.trans h.cwd, hsteps, fun ht => (hclosing (h.rooted ht)).rooted (h.rooted ht)⟩ fun x hx => ?_
      · rw [← hs₁] at hrec
        exact hrec
      rw [hofile]
      by_cases hxf : x = fd
      · rw [hxf]; exact St.setOfile_self
      · exact (St.setOfile_ne hxf).trans (hdone x fun hmem => (List.mem_cons.mp hmem).elim hxf hx)

theorem exit_wp [Γ.Writes] (hS : Serves sb Γ .exit s) : Γ.wp (exit sb Γ.me) s (Served sb Γ .exit s) := by
  rw [exit, wp_ite]
  refine ⟨fun _ => hS.exiting, fun _ => ?_⟩
  rw [wp_bind]
  refine exitFiles_wp hS (fun s₁ h hnone => ?_) ⟨hS.inv, rfl, fun _ => .refl, fun ht => ht.quiet.rooted⟩
    fun fd hfd => absurd (List.mem_finRange fd) hfd
  rw [wp_bind, wp_beginOp, wp_bind]
  refine wp_getCwd fun ip hip => ?_
  refine moveCwd_wp (x := none) h.inv hip (fun _ hl => absurd hl.symm (Option.some_ne_none _)) (fun _ => hnone)
    fun s₂ hI₂ hview => ?_
  have hsteps : (view sb s).Tame → View.Steps Γ.me .exit (view sb s) (view sb s₂) := fun ht => by
    rw [hview (h.rooted ht)]
    refine (h.steps ht).move (.exit ?_)
    change (s₁.cwd Γ.me).map s₁.inum = _
    rw [hip]; rfl
  exact ⟨hS.atEnd s₂ 0 0 0 hI₂ hsteps, hI₂, hsteps, fun _ hno => hno.elim⟩

end Exit

/-! ### All calls -/

/-- EVERY SYSTEM CALL keeps the invariant, does to the view what it should, and panics for no other
    reason than those that the context tolerates. -/
theorem Call.prog_wp [Γ.Links] (hS : Serves sb Γ c s) (hready : ready s Γ.me c) :
    Γ.wp (c.prog sb Γ.me) s (Served sb Γ c s) := by
  cases c with
  | dup fd => exact sysDup_wp hS
  | read fd u addr n input =>
    rw [Call.prog, wp_bind]
    exact sysRead_wp hS
  | write fd u addr n output => exact sysWrite_wp hS
  | close fd => exact sysClose_wp hS
  | fstat fd u addr => exact sysFstat_wp hS
  | link old new => exact sysLink_wp hS
  | unlink path => exact sysUnlink_wp hS
  | «open» path omode => exact sysOpen_wp hS
  | mkdir path => exact sysMkdir_wp hS
  | mknod path major minor => exact sysMknod_wp hS
  | chdir path => exact sysChdir_wp hS
  | exec path args mem => exact sysExec_wp hS
  | pipe page u fdarray => exact sysPipe_wp hS
  | fork np =>
    refine fork_wp hS fun p hp => ?_
    subst hp
    simpa [ready] using (Bool.and_eq_true_iff.mp hready).2
  | exit => exact exit_wp hS

end Xv6.Fs
