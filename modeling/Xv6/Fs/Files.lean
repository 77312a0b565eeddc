import Xv6.Fs.View

/-! The file table, descriptors and current directories, and what goes when the last of them goes.

    A pointer to an inode moves between local variables (tokens), open files and processes, and one to
    an open file between local variables and descriptors: `Inv.move` is the one rule for all of these.
    `fileclose` and the end of a process drop such pointers; if that leaves an inode without links and
    without users, its node goes (`View.reap`). -/

namespace Xv6.Fs
open Prog hiding wp_bind wp_pure wp_when wp_mono
open Ctx Function Multiset

/-! ### Counting pointers -/

section Count
variable {file : FileId → File} {cwd : Pid → Option Slot} {ofile : Pid → Fin NOFILE → Option FileId} {k : Slot}

theorem held_setFile (file : FileId → File) (cwd : Pid → Option Slot) (k : Slot) (f : FileId) (x : File) :
    held (update file f x) cwd k + (if (file f).type.hasIno ∧ (file f).ip = k then 1 else 0) =
      held file cwd k + if x.type.hasIno ∧ x.ip = k then 1 else 0 := by
  have := Run.sum_update (fun x : File => if x.type.hasIno ∧ x.ip = k then 1 else 0) file f x
  unfold held
  omega

theorem held_closed {f : FileId} {x : File} (hf : (file f).type.hasIno) (hx : x.type.hasIno = false) :
    held (update file f x) cwd k + (if k = (file f).ip then 1 else 0) = held file cwd k := by
  have h := held_setFile file cwd k f x
  rw [if_neg (c := x.type.hasIno ∧ x.ip = k) fun h => absurd (hx.symm.trans h.1) (by decide)] at h
  by_cases hk : k = (file f).ip
  · rw [if_pos ⟨hf, hk.symm⟩] at h
    rw [if_pos hk]; omega
  · rw [if_neg fun h => hk h.2.symm] at h
    rw [if_neg hk]; omega

theorem held_opened {f : FileId} {x : File} (hf : (file f).type.hasIno = false) (hx : x.type.hasIno) :
    held (update file f x) cwd k = held file cwd k + if k = x.ip then 1 else 0 := by
  have h := held_setFile file cwd k f x
  rw [if_neg (c := (file f).type.hasIno ∧ (file f).ip = k) fun h => absurd (hf.symm.trans h.1) (by decide)] at h
  by_cases hk : k = x.ip
  · rw [if_pos ⟨hx, hk.symm⟩] at h
    rw [if_pos hk]; omega
  · rw [if_neg fun h => hk h.2.symm] at h
    rw [if_neg hk]; omega

theorem held_setCwd (file : FileId → File) (cwd : Pid → Option Slot) (k : Slot) (p : Pid) (x : Option Slot) :
    held file (update cwd p x) k + (if cwd p = some k then 1 else 0) =
      held file cwd k + if x = some k then 1 else 0 := by
  have := Run.sum_update (fun x : Option Slot => if x = some k then 1 else 0) cwd p x
  unfold held
  omega

theorem opens_setOfile (ofile : Pid → Fin NOFILE → Option FileId) (p : Pid) (fd : Fin NOFILE) (x : Option FileId) (f : FileId) :
    opens (update ofile p (update (ofile p) fd x)) f + (if ofile p fd = some f then 1 else 0) =
      opens ofile f + if x = some f then 1 else 0 := by
  have h1 := Run.sum_update (fun g : Fin NOFILE → Option FileId => ∑ fd, if g fd = some f then 1 else 0) ofile p
    (update (ofile p) fd x)
  have h2 := Run.sum_update (fun x : Option FileId => if x = some f then 1 else 0) (ofile p) fd x
  unfold opens
  omega

end Count

variable {sb : Super} {Γ : Ctx} {s s' : St} {T T' L : Multiset Slot} {F F' : Multiset FileId} {k : Slot} {f : FileId}

/-- Pointers move, and none is lost or made up. -/
theorem Inv.move (h : Inv sb Γ s T F L) (file : FileId → File) (cwd : Pid → Option Slot)
    (ofile : Pid → Fin NOFILE → Option FileId)
    (hrefs : ∀ k, held file cwd k + T'.count k = held s.file s.cwd k + T.count k)
    (hnew : ∀ k, 0 < held file cwd k → 0 < held s.file s.cwd k ∨ s.valid k = true)
    (hfrefs : ∀ f, (file f).ref = opens ofile f + F'.count f)
    (hclosed : ∀ f, (file f).ref = 0 → (file f).type = .none)
    (hopened : ∀ f, (file f).type = .none → opens ofile f = 0)
    (hidle : ∀ p, cwd p = none → ∀ fd, ofile p fd = none)
    (hro : ∀ f, (file f).type.hasIno → (file f).writable = true →
      (dinode sb s.cache (s.inum (file f).ip)).type ≠ T_DIR) :
    Inv sb Γ { s with file := file, cwd := cwd, ofile := ofile } T' F' L := by
  have hpos : ∀ k, 0 < held file cwd k → 0 < s.ref k := fun k hk => by
    have := hrefs k
    rw [h.refs k]; omega
  refine { h with
    refs := fun k => (h.refs k).trans (hrefs k).symm, frefs := hfrefs, closed := hclosed, opened := hopened, idle := hidle,
    alloc := fun k hk => ?_, readonly := hro, loaded := fun k hk => ?_ }
  · rcases hnew k hk with hk' | hv
    · exact h.alloc k hk'
    · exact h.typed k (hpos k hk) hv
  · rcases hnew k hk with hk' | hv
    · exact h.loaded k hk'
    · exact .inl hv

/-! ### Changes of the view -/

namespace View

def setNode (A : View) (i : Nat) (n : Node) : View := { A with node := update A.node i (some n) }
def setFile (A : View) (f : FileId) (x : Option Nat) : View := { A with file := update A.file f x }
def setCwd (A : View) (p : Pid) (x : Option Nat) : View := { A with cwd := update A.cwd p x }

open Classical in
/-- Inode `i` goes if it has neither links nor users. -/
noncomputable def reap (A : View) (i : Nat) : View :=
  if (∃ n, A.node i = some n ∧ n.nlink = 0) ∧ ¬A.InUse i then { A with node := update A.node i none } else A

theorem reap_self {A : View} {i : Nat} (h : ∀ n, A.node i = some n → n.nlink = 0 → A.InUse i) : A.reap i = A :=
  if_neg fun ⟨⟨n, hn, h0⟩, huse⟩ => huse (h n hn h0)

theorem Quiet.reap_eq {A : View} {i : Nat} (h : A.Quiet) : A.reap i = A := reap_self fun n hn h0 => (h i n hn h0).1

theorem reap_none {A : View} {i : Nat} {n : Node} (hn : A.node i = some n) (h0 : n.nlink = 0) (h : ¬A.InUse i) :
    A.reap i = { A with node := update A.node i none } := if_pos ⟨⟨n, hn, h0⟩, h⟩

end View

/-- Dropping the last token of an inode that has been read. -/
theorem Inv.reap_view (h : Inv sb Γ s (k ::ₘ T) F L) (hT : k ∉ T)
    (hv : s.valid k = false → ∀ n, tree sb s.cache (s.inum k) = some n → n.nlink = 0 → (view sb s).InUse (s.inum k))
    (hnot : ¬s.Last k) : (view sb s).reap (s.inum k) = view sb s := by
  refine View.reap_self fun n hn h0 => ?_
  by_contra huse
  have hk := h.ref_pos_of_mem (mem_cons_self k T)
  have hheld : held s.file s.cwd k = 0 := by
    by_contra hpos
    exact huse (inUse_view.mpr ⟨k, pos_of_ne_zero hpos, rfl⟩)
  have href : s.ref k = 1 := by
    rw [h.refs, hheld, count_cons_self, count_eq_zero_of_notMem hT]
  cases hval : s.valid k with
  | false => exact huse (hv hval n hn h0)
  | true =>
    refine hnot ⟨href, hval, ?_⟩
    rw [h.mem k hk hval]
    rw [(tree_eq_some hn).2] at h0
    exact h0

variable {U : Unit → St → Prop}

/-- `iput` of the last token: the inode goes if it has neither links nor users. -/
theorem iput_reap_wp [Γ.Writes] (h : Inv sb Γ s (k ::ₘ T) F L) (hL : Pinned s T L) (hT : k ∉ T)
    (hU : ∀ s', Inv sb Γ s' T F L → Keep T s s' →
      ((s.valid k = false → ∀ n, tree sb s.cache (s.inum k) = some n → n.nlink = 0 → (view sb s).InUse (s.inum k)) →
        view sb s' = (view sb s).reap (s.inum k)) → U () s') : Γ.wp (iput sb k) s U := by
  refine iput_wp h hL (fun hnot s' hI hkeep hc => ?_) fun hv hn h0 s' hI hkeep hF => ?_
  · exact hU s' hI hkeep fun hval => by rw [h.reap_view hT hval hnot]; exact hkeep.view (by rw [hc])
  · refine hU s' hI hkeep fun _ => ?_
    have hk := h.ref_pos_of_mem (mem_cons_self k T)
    have hlive := h.live hk hv
    rw [hkeep.view_node, hF.tree h.blocks, View.reap_none (tree_live hlive) hn]
    · rfl
    · intro huse
      obtain ⟨l, hl, hlk⟩ := inUse_view.mp huse
      have := h.uniq l k (h.ref_pos (Nat.add_pos_left hl _)) hk hlk
      subst this
      omega

theorem iunlockput_reap_wp [Γ.Writes] (h : Inv sb Γ s (k ::ₘ T) F (k ::ₘ L)) (hT : k ∉ T)
    (hv : s.valid k = true)
    (hU : ∀ s', Inv sb Γ s' T F L → Keep T s s' → view sb s' = (view sb s).reap (s.inum k) → U () s') :
    Γ.wp (iunlockput sb k) s U := by
  rw [iunlockput, wp_bind]
  refine iunlock_wp h fun hI => ?_
  refine iput_reap_wp hI h.pinned_unlock hT fun s' hI' hkeep hview => ?_
  refine hU s' hI' ((Keep.setLock ..).trans hkeep) (hview fun hv' => ?_)
  exact absurd (hv.symm.trans hv') (by decide)

/-! ### The file table -/

theorem view_setFile (s : St) (f : FileId) (x : File) :
    view sb (s.setFile f x) = (view sb s).setFile f (if x.type.hasIno then some (s.inum x.ip) else none) := by
  have hfile : (view sb (s.setFile f x)).file = update (view sb s).file f _ := funext fun g =>
    apply_update (fun _ (x : File) => if x.type.hasIno then some (s.inum x.ip) else none) s.file f x g
  rw [View.setFile, ← hfile]; rfl

theorem freeFile_some (h : s.freeFile = some f) : (s.file f).ref = 0 := by
  simpa using List.find?_some h

/-- The same file with another reference count. -/
theorem held_setFile_self (f : FileId) {x : File} (ht : x.type.hasIno = (s.file f).type.hasIno)
    (hip : x.type.hasIno → x.ip = (s.file f).ip) (k : Slot) :
    held (update s.file f x) s.cwd k = held s.file s.cwd k := by
  have := held_setFile s.file s.cwd k f x
  by_cases hx : x.type.hasIno
  · rw [← ht, hip hx] at this
    omega
  · rw [if_neg fun h => hx (ht.trans h.1), if_neg fun h => hx h.1] at this
    omega

/-- A change to one entry of the file table that leaves its inode alone. -/
theorem Inv.setFileRef (h : Inv sb Γ s T F L) {x : File} (ht : x.type.hasIno = (s.file f).type.hasIno)
    (hip : x.type.hasIno → x.ip = (s.file f).ip) 
    (hro : x.type.hasIno → x.writable = (s.file f).writable)
    (hx : x.ref = opens s.ofile f + F'.count f) (hF : ∀ g, g ≠ f → F'.count g = F.count g)
    (hclosed : x.ref = 0 → x.type = .none) (hopened : x.type = .none → opens s.ofile f = 0) :
    Inv sb Γ (s.setFile f x) T F' L := by
  have hheld := held_setFile_self f ht hip
  refine h.move (update s.file f x) s.cwd s.ofile (fun k => by rw [hheld]) (fun k hk => .inl (by rwa [← hheld]))
    (fun g => ?_) (fun g hg => ?_) (fun g hg => ?_) h.idle fun g hg hw => ?_
  all_goals rcases eq_or_ne g f with rfl | hne
  · rwa [update_self]
  · rw [update_of_ne hne, hF g hne]; exact h.frefs g
  · rw [update_self] at hg ⊢; exact hclosed hg
  · rw [update_of_ne hne] at hg ⊢; exact h.closed g hg
  · rw [update_self] at hg; exact hopened hg
  · rw [update_of_ne hne] at hg; exact h.opened g hg
  · rw [update_self] at hg hw ⊢
    rw [hip hg]
    exact h.readonly g (by rwa [← ht]) (by rw [← hro hg, hw])
  · rw [update_of_ne hne] at hg hw ⊢; exact h.readonly g hg hw

theorem filealloc_wp {Q : Option FileId → St → Prop} (h : Inv sb Γ s T F L) (hnone : s.freeFile = none → Q none s)
    (hsome : ∀ f, (s.file f).ref = 0 → (s.file f).type = .none →
      Inv sb Γ (s.setFile f { s.file f with ref := 1 }) T (f ::ₘ F) L →
      Q (some f) (s.setFile f { s.file f with ref := 1 })) : Γ.wp filealloc s Q := by
  refine wp_filealloc hnone fun f hf => ?_
  have href := freeFile_some hf
  refine hsome f href (h.closed f href) (h.setFileRef rfl (fun _ => rfl) (fun _ => rfl) ?_
    (fun g hg => count_cons_of_ne hg _) (fun h0 => absurd h0 Nat.one_ne_zero) (h.opened f))
  have := h.frefs f
  rw [count_cons_self]
  dsimp only
  omega

/-! ### Descriptors -/

/-- Descriptor `fd` of process `p` is set. -/
def St.setOfile (s : St) (p : Pid) (fd : Fin NOFILE) (x : Option FileId) : St :=
  { s with ofile := update s.ofile p (update (s.ofile p) fd x) }

theorem fdallocFrom_wp {Q : Option (Fin NOFILE) → St → Prop} : ∀ {fds : List (Fin NOFILE)},
    ((∀ fd ∈ fds, s.ofile Γ.me fd ≠ none) → Q none s) →
    (∀ fd, s.ofile Γ.me fd = none → Q (some fd) (s.setOfile Γ.me fd (some f))) → Γ.wp (fdallocFrom f fds) s Q
  | [], hnone, _ => hnone fun _ h => absurd h List.not_mem_nil
  | fd :: fds, hnone, hsome => by
    rw [fdallocFrom, wp_bind, wp_getOfile]
    cases hfd : s.ofile Γ.me fd with
    | none =>
      dsimp only
      rw [wp_bind, wp_setOfile]
      exact hsome fd hfd
    | some g =>
      refine fdallocFrom_wp (fun hall => hnone fun x hx => ?_) hsome
      rcases List.mem_cons.mp hx with rfl | hx
      · rw [hfd]; exact Option.some_ne_none g
      · exact hall x hx

theorem fdalloc_wp {Q : Option (Fin NOFILE) → St → Prop} (hnone : (∀ fd, s.ofile Γ.me fd ≠ none) → Q none s)
    (hsome : ∀ fd, s.ofile Γ.me fd = none → Q (some fd) (s.setOfile Γ.me fd (some f))) : Γ.wp (fdalloc f) s Q :=
  fdallocFrom_wp (fun hall => hnone fun fd => hall fd (List.mem_finRange fd)) hsome

variable {p : Pid} {fd : Fin NOFILE}

/-- Descriptors and tokens for open files move together. -/
theorem Inv.setOfile (h : Inv sb Γ s T F L) {x : Option FileId}
    (hF : ∀ g, F'.count g + (if x = some g then 1 else 0) = F.count g + if s.ofile p fd = some g then 1 else 0)
    (hp : s.cwd p = none → x = none) (hx : ∀ g, x = some g → (s.file g).type ≠ .none) :
    Inv sb Γ (s.setOfile p fd x) T F' L := by
  refine h.move s.file s.cwd _ (fun _ => rfl) (fun _ => .inl) (fun g => ?_) h.closed (fun g hg => ?_) (fun q hq => ?_) h.readonly
  · have h1 := opens_setOfile s.ofile p fd x g
    have h2 := hF g
    have h3 := h.frefs g
    omega
  · have h1 := opens_setOfile s.ofile p fd x g
    have h2 := h.opened g hg
    rw [if_neg fun hxg => hx g hxg hg] at h1
    omega
  · intro fd'
    rcases eq_or_ne q p with rfl | hne
    · rw [update_self, hp hq]
      rcases eq_or_ne fd' fd with rfl | hne
      · rw [update_self]
      · rw [update_of_ne hne]; exact h.idle q hq fd'
    · rw [update_of_ne hne]; exact h.idle q hq fd'

/-- A token for an open file goes into a free descriptor. -/
theorem Inv.fdalloc (h : Inv sb Γ s T (f ::ₘ F) L) (hfd : s.ofile p fd = none)
    (hp : s.cwd p ≠ none) (hf : (s.file f).type ≠ .none) : Inv sb Γ (s.setOfile p fd (some f)) T F L := by
  refine h.setOfile (fun g => ?_) (fun h0 => absurd h0 hp) fun g hg => Option.some.inj hg ▸ hf
  rw [hfd, if_neg (Option.some_ne_none g).symm, count_cons]
  by_cases hg : g = f
  · rw [if_pos hg, if_pos (by rw [hg])]
  · rw [if_neg hg, if_neg fun h => hg (Option.some.inj h).symm]

/-- A descriptor gives its token back. -/
theorem Inv.fdfree (h : Inv sb Γ s T F L) (hfd : s.ofile p fd = some f) :
    Inv sb Γ (s.setOfile p fd none) T (f ::ₘ F) L := by
  refine h.setOfile (fun g => ?_) (fun _ => rfl) fun g hg => absurd hg.symm (Option.some_ne_none g)
  rw [hfd, if_neg (Option.some_ne_none g).symm, count_cons]
  by_cases hg : g = f
  · rw [if_pos hg, if_pos (by rw [hg])]
  · rw [if_neg hg, if_neg fun h => hg (Option.some.inj h).symm]

/-! ### `fileclose` -/

/-- The last reference to a file that refers to no inode goes, or one of several to any file. -/
theorem fileclose_idle_wp (h : Inv sb Γ s T (f ::ₘ F) L) (hf : (s.file f).type.hasIno = false)
    (hU : ∀ x, x.type.hasIno = false → Inv sb Γ (s.setFile f x) T F L → U () (s.setFile f x)) :
    Γ.wp (fileclose sb f) s U := by
  have href := h.frefs f
  rw [count_cons_self] at href
  have hF : ∀ g, g ≠ f → F.count g = (f ::ₘ F).count g := fun g hg => (count_cons_of_ne hg _).symm
  have hno : ¬((s.file f).type = .inode ∨ (s.file f).type = .device) := by
    rintro (h | h) <;> rw [h] at hf <;> cases hf
  rw [fileclose, wp_bind]
  refine wp_filecloseTest (fun h1 => absurd h1 (by omega)) (fun h1 => ?_) fun h1 => ?_
  · exact hU { s.file f with ref := (s.file f).ref - 1 } hf (h.setFileRef rfl (fun _ => rfl) (fun _ => rfl)
      (by dsimp only; omega) hF (fun h0 => absurd h0 (by dsimp only; omega)) (h.opened f))
  · dsimp only
    rw [if_neg hno]
    exact hU { s.file f with ref := 0, type := .none } rfl (h.setFileRef hf.symm (fun _ => rfl)
      (fun h => by cases h) (by dsimp only; omega) hF (fun _ => rfl) fun _ => by omega)

/-- The pointer of a file to its inode becomes a token. -/
theorem Inv.dropFile (h : Inv sb Γ s T (f ::ₘ F) L) (hf : (s.file f).type.hasIno) (href : (s.file f).ref = 1) :
    Inv sb Γ (s.setFile f { s.file f with ref := 0, type := .none }) ((s.file f).ip ::ₘ T) F L := by
  have hheld : ∀ k, held (update s.file f { s.file f with ref := 0, type := .none }) s.cwd k +
      (if k = (s.file f).ip then 1 else 0) = held s.file s.cwd k := fun k => held_closed hf rfl
  have hrefs := h.frefs f
  rw [count_cons_self] at hrefs
  refine h.move (update s.file f { s.file f with ref := 0, type := .none }) s.cwd s.ofile (fun k => ?_) (fun k hk => .inl (by have := hheld k; omega)) (fun g => ?_) (fun g hg => ?_)
    (fun g hg => ?_) h.idle fun g hg hw => ?_
  · have := hheld k
    rw [count_cons]
    omega
  all_goals rcases eq_or_ne g f with rfl | hne
  · rw [update_self]; dsimp only; omega
  · rw [update_of_ne hne, h.frefs g, count_cons_of_ne hne]
  · rw [update_self]
  · rw [update_of_ne hne] at hg ⊢; exact h.closed g hg
  · omega
  · rw [update_of_ne hne] at hg; exact h.opened g hg
  · rw [update_self] at hg; cases hg
  · rw [update_of_ne hne] at hg hw ⊢; exact h.readonly g hg hw

/-- File `f` of the view has been closed: it is still open elsewhere, or it goes and its inode with it if
    that has neither links nor users. -/
def View.Closing (A : View) (f : FileId) (A' : View) : Prop :=
  A' = A ∨ ∃ i, A.file f = some i ∧ A' = (A.setFile f none).reap i

/-- The root directory has links. -/
def View.Rooted (A : View) : Prop := ∀ n, A.node ROOTINO = some n → n.nlink ≠ 0

theorem View.Quiet.rooted {A : View} (h : A.Quiet) : A.Rooted := fun n hn h0 => (h _ n hn h0).2 rfl

theorem fileclose_wp [Γ.Writes] (h : Inv sb Γ s 0 (f ::ₘ F) 0)
    (hU : ∀ s', Inv sb Γ s' 0 F 0 → s'.cwd = s.cwd → s'.ofile = s.ofile →
      ((view sb s).Rooted → (view sb s).Closing f (view sb s')) → Γ.atEnd s'.cache ∧ U () s') :
    Γ.wp (fileclose sb f) s U := by
  cases hf : (s.file f).type.hasIno with
  | false =>
    refine fileclose_idle_wp h hf fun x hx hI => (hU _ hI rfl rfl fun _ => .inl ?_).2
    have hnone : (view sb s).file f = none := if_neg (by rw [hf]; decide)
    rw [view_setFile, hx, if_neg Bool.false_ne_true, View.setFile, ← hnone, update_eq_self]
  | true =>
    have href := h.frefs f
    rw [count_cons_self] at href
    have hF : ∀ g, g ≠ f → F.count g = (f ::ₘ F).count g := fun g hg => (count_cons_of_ne hg _).symm
    have hfile : (view sb s).file f = some (s.inum (s.file f).ip) := if_pos hf
    rw [fileclose, wp_bind]
    refine wp_filecloseTest (fun h1 => absurd h1 (by omega)) (fun h1 => ?_) fun h1 => ?_
    · have hI : Inv sb Γ (s.setFile f { s.file f with ref := (s.file f).ref - 1 }) 0 F 0 := h.setFileRef rfl (fun _ => rfl)
        (fun _ => rfl) (by dsimp only; omega) hF (fun h0 => absurd h0 (by dsimp only; omega)) (h.opened f)
      refine (hU _ hI rfl rfl fun _ => .inl ?_).2
      rw [view_setFile]
      dsimp only
      rw [if_pos hf, View.setFile, ← hfile, update_eq_self]
    · have hino : (s.file f).type = .inode ∨ (s.file f).type = .device := by
        revert hf
        cases (s.file f).type <;> simp [FileType.hasIno]
      dsimp only
      rw [if_pos hino, wp_bind, wp_beginOp, wp_bind]
      refine iput_reap_wp (h.dropFile hf h1) (pinned_zero _ _) (notMem_zero _) fun s' hI' hkeep hview => ?_
      rw [wp_endOp]
      refine hU s' hI' hkeep.cwd hkeep.ofile fun hroot => .inr ⟨_, hfile, ?_⟩
      have hset : view sb (s.setFile f { s.file f with ref := 0, type := .none }) = (view sb s).setFile f none := by
        rw [view_setFile]; rfl
      rw [hset] at hview
      refine hview fun hv n hn h0 => ?_
      rcases h.loaded _ (held_of_file hf) with hv' | hr
      · exact absurd (hv'.symm.trans hv) (by decide)
      · have hn' : tree sb s.cache (s.inum (s.file f).ip) = some n := hn
        rw [hr] at hn'
        exact absurd h0 (hroot n hn')

/-! ### Code that does not look at the process -/

/-- The operation neither reads nor changes current directories and descriptors. -/
def Op.global : Op → Prop
  | .cwd | .setCwd _ | .ofile _ | .setOfile .. | .childCwd .. | .childOfile .. => False
  | _ => True

/-- Current directories and descriptors replaced. -/
def St.withProcs (s : St) (cwd : Pid → Option Slot) (ofile : Pid → Fin NOFILE → Option FileId) : St :=
  { s with cwd := cwd, ofile := ofile }

theorem St.step_withProcs (me : Pid) (s : St) (cwd : Pid → Option Slot) (ofile : Pid → Fin NOFILE → Option FileId) :
    ∀ op : Op, op.global → St.step me op (s.withProcs cwd ofile) =
      (St.step me op s).map fun rs => (rs.1, rs.2.withProcs cwd ofile) := by
  intro op hop
  cases op with
  | cwd | setCwd _ | ofile _ | setOfile _ _ | childCwd _ _ | childOfile _ _ _ => exact hop.elim
  | iget dev inum =>
    simp only [St.step, show (s.withProcs cwd ofile).lookup dev inum = s.lookup dev inum from rfl,
      show (s.withProcs cwd ofile).empty = s.empty from rfl]
    cases s.lookup dev inum with
    | some k => rfl
    | none => cases s.empty <;> rfl
  | filealloc =>
    simp only [St.step, show (s.withProcs cwd ofile).freeFile = s.freeFile from rfl]
    cases s.freeFile <;> rfl
  | ilock k | iunlock k | iputTest k | filedup f | filecloseTest f =>
    simp only [St.step, apply_ite (Outcome.map _)]
    rfl
  | _ => rfl

theorem Ctx.spec_withProcs {cwd : Pid → Option Slot} {ofile : Pid → Fin NOFILE → Option FileId} (op : Op)
    (hop : op.global) (s : St) (Q : Ret op → St → Prop)
    (h : Γ.spec op s fun r s' => Q r (s'.withProcs cwd ofile)) : Γ.spec op (s.withProcs cwd ofile) Q := by
  unfold spec at h ⊢
  rw [St.step_withProcs Γ.me s cwd ofile op hop]
  cases hs : St.step Γ.me op s with
  | done rs =>
    rw [hs] at h
    refine ⟨?_, h.2⟩
    cases op <;> exact h.1
  | blocked => trivial
  | panic e => rw [hs] at h; exact h

/-- Code that does not look at current directories and descriptors may be run as if they had changed
    before it. -/
theorem Ctx.wp_withProcs {α : Type} {p : FsM α} {Q : α → St → Prop} (hp : Only Op.global p)
    (cwd : Pid → Option Slot) (ofile : Pid → Fin NOFILE → Option FileId)
    (h : Γ.wp p (s.withProcs cwd ofile) fun a s' => Q a (s'.withProcs s.cwd s.ofile)) : Γ.wp p s Q := by
  have hframe := wp_frame (φ := fun t : St => t.withProcs s.cwd s.ofile) (s := s.withProcs cwd ofile) (Q := Q)
    (fun op hop t Q => spec_withProcs op hop t Q) Γ.spec_mono hp h
  exact hframe

/-! The code that drops a reference to an inode is of this kind. -/

theorem bfree_global (b : Nat) : Only Op.global (bfree sb b) :=
  .step trivial fun _ => .ite (.step trivial fun _ => .step trivial fun _ => .perform trivial)
    (.step trivial fun r => nomatch r)

theorem iupdate_global (k : Slot) : Only Op.global (iupdate sb k) :=
  .step trivial fun _ => .step trivial fun _ => .step trivial fun _ => .step trivial fun _ => .step trivial fun _ =>
    .perform trivial

theorem itruncDirect_global (k : Slot) : ∀ js, Only Op.global (itruncDirect sb k js)
  | [] => .pure ()
  | _ :: js => .step trivial fun _ => .ite
      (.bind (bfree_global _) fun _ => .step trivial fun _ => itruncDirect_global k js)
      (itruncDirect_global k js)

theorem itruncEntries_global (a : Block) : ∀ js, Only Op.global (itruncEntries sb a js)
  | [] => .pure ()
  | _ :: js => .ite (.bind (bfree_global _) fun _ => itruncEntries_global a js) (itruncEntries_global a js)

theorem itrunc_global (k : Slot) : Only Op.global (itrunc sb k) :=
  .bind (itruncDirect_global k _) fun _ => .bind
    (.step trivial fun _ => .ite
      (.step trivial fun _ => .bind (itruncEntries_global _ _) fun _ => .step trivial fun _ =>
        .bind (bfree_global _) fun _ => .perform trivial)
      (.pure ()))
    fun _ => .step trivial fun _ => .step trivial fun _ => iupdate_global k

theorem iput_global (k : Slot) : Only Op.global (iput sb k) :=
  .step trivial fun _ => .ite
    (.bind (itrunc_global k) fun _ => .step trivial fun _ => .step trivial fun _ => .bind (iupdate_global k) fun _ =>
      .step trivial fun _ => .step trivial fun _ => .perform trivial)
    (.pure ())

theorem fileclose_global (f : FileId) : Only Op.global (fileclose sb f) :=
  .step trivial fun ff => by
    cases ff with
    | none => exact .pure ()
    | some ff => exact .ite (.step trivial fun _ => .bind (iput_global _) fun _ => .perform trivial) (.pure ())

end Xv6.Fs
