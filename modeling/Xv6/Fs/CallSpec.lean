import Xv6.Fs.Step

/-! The system calls that change the directory tree, one specification each.

    `Serves` is what a call needs to run: the invariant with no tokens and no locks outstanding, what the
    context asks for at each `end_op`, and, where the panics of inconsistent file systems are not
    tolerated, that the file system is in order. `Served` is what it leaves: the invariant, the
    `View.Steps` from the view before to the view after, and nothing changed if it failed. -/

namespace Xv6.Fs
open Prog hiding wp_bind wp_pure wp_when wp_mono
open Ctx Function Multiset

/-- When a call that fails has no effect. -/
def Call.Undone (s : St) (me : Pid) : Call → Prop
  | .link .. | .unlink _ | .mkdir _ | .mknod .. | .chdir _ => True
  | .open _ omode => omode &&& O_CREATE = 0 ∨ s.freeFile ≠ none ∧ ∃ fd, s.ofile me fd = none
  | _ => False

structure Serves (sb : Super) (Γ : Ctx) (c : Call) (s : St) : Prop where
  inv : Inv sb Γ s 0 0 0
  running : s.cwd Γ.me ≠ none
  full : Γ.allows .igetNoInodes
  exiting : Γ.allows .initExiting
  strict : ¬Γ.allows .ilockNoType → (view sb s).Tame ∧ (view sb s).Closed
  nlinks : ¬Γ.allows .unlinkNlink → (view sb s).Tame ∧ ∀ path d m name j e n,
    (view sb s).Names Γ.me path d m name j e → (view sb s).node e.inum = some n → 1 ≤ n.nlink.toInt
  atEnd : ∀ s' T F L, Inv sb Γ s' T F L →
    ((view sb s).Tame → View.Steps Γ.me c (view sb s) (view sb s')) → Γ.atEnd s'.cache
  atFault : ∀ s' T F L, Inv sb Γ s' T F L →
    ((view sb s).Tame → View.Steps Γ.me c (view sb s) (view sb s')) → ∀ b, b ∉ Dirs sb s'.cache → Γ.atFault b

structure Served (sb : Super) (Γ : Ctx) (c : Call) (s : St) (r : Int) (s' : St) : Prop where
  inv : Inv sb Γ s' 0 0 0
  steps : (view sb s).Tame → View.Steps Γ.me c (view sb s) (view sb s')
  undone : r = -1 → c.Undone s Γ.me → (view sb s).Tame → view sb s' = view sb s ∧ s'.cwd = s.cwd ∧ s'.ofile = s.ofile

variable {sb : Super} {Γ : Ctx} {s s' : St} {T L : Multiset Slot} {F : Multiset FileId} {k : Slot} {i : Nat} {c : Call}
  {n : Node}

theorem Serves.refl (hS : Serves sb Γ c s) (r : Int) : Served sb Γ c s r s :=
  ⟨hS.inv, fun _ => .refl, fun _ _ _ => ⟨rfl, rfl, rfl⟩⟩

/-- A call that ends without having changed anything. -/
theorem Served.same {r : Int} (hI : Inv sb Γ s' 0 0 0) (hkeep : Keep 0 s s')
    (hview : (view sb s).Tame → view sb s' = view sb s) : Served sb Γ c s r s' :=
  ⟨hI, fun ht => by rw [hview ht], fun _ _ ht => ⟨hview ht, hkeep.cwd, hkeep.ofile⟩⟩

theorem Serves.fail_wp (hS : Serves sb Γ c s) (hI : Inv sb Γ s' 0 0 0) (hkeep : Keep 0 s s')
    (hview : (view sb s).Tame → view sb s' = view sb s) (r : Int) :
    Γ.wp (do endOp; pure r) s' (Served sb Γ c s) := by
  rw [wp_bind, wp_endOp]
  exact ⟨hS.atEnd s' 0 0 0 hI fun ht => by rw [hview ht], Served.same hI hkeep hview⟩

theorem Serves.calm (hS : Serves sb Γ c s) (hno : ¬Γ.allows .ilockNoType) : (view sb s).Quiet ∧ (view sb s).Closed :=
  ⟨(hS.strict hno).1.quiet, (hS.strict hno).2⟩

theorem view_load (s : St) (k : Slot) : view sb (s.load sb Γ.me k) = view sb s := (Keep.load 0 s k).view rfl

/-- `iunlockput` puts back what the call has not changed. -/
theorem putBack_wp [Γ.Writes] {U : Unit → St → Prop} (h : Inv sb Γ s' (k ::ₘ T) F (k ::ₘ L)) (hkeep : Keep 0 s s')
    (hview : (view sb s).Tame → view sb s' = view sb s)
    (hU : ∀ s₁, Inv sb Γ s₁ T F L → Keep 0 s s₁ → ((view sb s).Tame → view sb s₁ = view sb s) → U () s₁) :
    Γ.wp (iunlockput sb k) s' U := by
  refine iunlockput_quiet_wp h fun s₁ hI₁ hkeep₁ hv₁ => hU s₁ hI₁ (hkeep.trans (hkeep₁.weaken (zero_le _))) fun ht => ?_
  rw [hview ht] at hv₁
  exact hv₁ ht.quiet

theorem Keep.inum_of_mem {k : Slot} (h : Keep T s s') (hk : k ∈ T) : s'.inum k = s.inum k :=
  h.inum k (Nat.add_pos_right _ (count_pos.mpr hk))

theorem mem_pair_left (ip dp : Slot) : ip ∈ ip ::ₘ dp ::ₘ (0 : Multiset Slot) := mem_cons_self ..

theorem mem_pair_right (ip dp : Slot) : dp ∈ ip ::ₘ dp ::ₘ (0 : Multiset Slot) := mem_cons_of_mem (mem_cons_self ..)

/-! ### Changing the link count of a locked inode -/

theorem Keep.view_setNode (h : Keep T s s') (ht : tree sb s'.cache = update (tree sb s.cache) i (some n)) :
    Fs.view sb s' = (Fs.view sb s).setNode i n := by
  rw [h.view_node, ht]; rfl

section Meta
variable [Γ.Writes] {α : Type} {p : FsM α} {Q : α → St → Prop} (hL : Locked sb s k n) (h : Inv sb Γ s T F L) (hk : k ∈ T)
include hL h hk

/-- Store new device numbers and link count in a locked inode, and write it back. -/
theorem Locked.setMeta_wp {m : Dinode} (ha : m.addrs = (s.node k).addrs) (hs : m.size = (s.node k).size)
    (ht : m.type = (s.node k).type)
    (hp : ∀ s', Inv sb Γ s' T F L → Keep T s s' →
      view sb s' = (view sb s).setNode (s.inum k) { n with major := m.major, minor := m.minor, nlink := m.nlink } →
      Locked sb s' k { n with major := m.major, minor := m.minor, nlink := m.nlink } → Γ.wp p s' Q) :
    Γ.wp (do setNode k m; iupdate sb k; p) s Q := by
  rw [hL.mem h] at ha hs ht
  obtain ⟨hI, htree⟩ := h.setMeta hL.ref hL.valid rfl ha hs ht
  rw [← hL.eq] at htree
  have hkeep := Keep.put T s k (putDinode sb s.cache (s.inum k) m) m
  rw [wp_bind, wp_setNode, wp_bind, wp_iupdate]
  have hend := hp _ hI hkeep (hkeep.view_setNode htree) (hL.keep hI.toTable hkeep hk (by
    change tree sb (putDinode sb s.cache (s.inum k) m) _ = _
    rw [htree, update_self]))
  simpa [St.put] using hend

/-- As `Locked.setMeta_wp`, for the link count alone. -/
theorem Locked.setNlink_wp {x : Int16}
    (hp : ∀ s', Inv sb Γ s' T F L → Keep T s s' →
      view sb s' = (view sb s).setNode (s.inum k) { n with nlink := x } → Locked sb s' k { n with nlink := x } →
      Γ.wp p s' Q) : Γ.wp (do setNode k { s.node k with nlink := x }; iupdate sb k; p) s Q := by
  refine hL.setMeta_wp h hk rfl rfl rfl fun s' hI hkeep hview hL' => hp s' hI hkeep ?_ ?_
  · rw [hview, hL.mem h, hL.eq]; rfl
  · rw [hL.mem h] at hL'
    have hn := hL.eq
    subst hn
    exact hL'

theorem Locked.setNlink_last_wp {U : Unit → St → Prop} {x : Int16}
    (hU : ∀ s', Inv sb Γ s' T F L → Keep T s s' →
      view sb s' = (view sb s).setNode (s.inum k) { n with nlink := x } → Locked sb s' k { n with nlink := x } →
      U () s') : Γ.wp (do setNode k { s.node k with nlink := x }; iupdate sb k) s U := by
  have := hL.setNlink_wp (p := pure ()) (Q := U) h hk hU
  simpa only [wp_bind, wp_pure] using this

end Meta

/-- `ilock` fails on a free inode only. -/
theorem allows_of_isSome {o : Option Node} (h : ¬Γ.allows .ilockNoType → o.isSome) (h0 : o = none) :
    Γ.allows .ilockNoType := by
  by_contra hno
  have := h hno
  rw [h0] at this
  cases this

/-- `namei`, and `ilock` of what it finds. -/
theorem nameiLock_wp [Γ.Writes] {α : Type} {path : Name} {A : FsM α} {B : Slot → FsM α} {Q : α → St → Prop}
    (h : Inv sb Γ s T F L) (hfull : Γ.allows .igetNoInodes)
    (hE : ¬Γ.allows .ilockNoType → (view sb s).Quiet ∧ (view sb s).Closed)
    (hA : ∀ s', Inv sb Γ s' T F L → Keep T s s' → ((view sb s).Tame → view sb s' = view sb s) → Γ.wp A s' Q)
    (hB : ∀ ip n s', Inv sb Γ s' (ip ::ₘ T) F (ip ::ₘ L) → Keep T s s' → Locked sb s' ip n →
      ((view sb s).Tame → view sb s' = view sb s ∧ (view sb s).resolve Γ.me path = some (s'.inum ip)) →
      Γ.wp (B ip) s' Q) :
    Γ.wp (do match ← namei sb path with | none => A | some ip => do ilock sb ip; B ip) s Q := by
  rw [wp_bind]
  refine namei_wp h hfull hE (fun s₁ hI₁ hkeep₁ hv₁ => hA s₁ hI₁ hkeep₁ fun ht => (hv₁ ht.quiet).1)
    fun ip s₁ hI₁ hkeep₁ hex hv₁ => ?_
  dsimp only
  rw [wp_bind]
  refine lock_wp hI₁ (hI₁.ref_pos_of_mem (mem_cons_self ip T)) (allows_of_isSome hex) fun n hI₂ hi => ?_
  refine hB ip n _ hI₂ (hkeep₁.trans (Keep.load T s₁ ip)) hi fun ht => ?_
  rw [view_load]
  exact hv₁ ht.quiet

/-- `nameiparent`, and `ilock` of the directory it finds. -/
theorem parentLock_wp [Γ.Writes] {α : Type} {path : Name} {A : FsM α} {B : Slot → Name → FsM α} {Q : α → St → Prop}
    (h : Inv sb Γ s T F L) (hfull : Γ.allows .igetNoInodes)
    (hE : ¬Γ.allows .ilockNoType → (view sb s).Quiet ∧ (view sb s).Closed)
    (hA : ∀ s', Inv sb Γ s' T F L → Keep T s s' → ((view sb s).Quiet → view sb s' = view sb s) → Γ.wp A s' Q)
    (hB : ∀ dp name m s', Inv sb Γ s' (dp ::ₘ T) F (dp ::ₘ L) → Keep T s s' → Locked sb s' dp m → m.type = T_DIR →
      ((view sb s).Quiet → view sb s' = view sb s ∧ (view sb s).parent Γ.me path = some (s'.inum dp, name)) →
      Γ.wp (B dp name) s' Q) :
    Γ.wp (do match ← nameiparent sb path with | none => A | some (dp, name) => do ilock sb dp; B dp name) s Q := by
  rw [wp_bind]
  refine namex_wp h hfull hE (fun s' hI hkeep hw => hA s' hI hkeep fun hq => (hw hq).1)
    fun dp name s' hI hkeep hd _ hw => ?_
  obtain ⟨m, hm, hdir⟩ := hd rfl
  dsimp only
  rw [wp_bind]
  refine lock_wp hI (hI.ref_pos_of_mem (mem_cons_self dp T)) (fun h0 => absurd (hm.symm.trans h0) (Option.some_ne_none m))
    fun m' hI' hL => ?_
  obtain rfl : m' = m := Option.some.inj (hL.node.symm.trans hm)
  refine hB dp name m' _ hI' (hkeep.trans (Keep.load T s' dp)) hL hdir fun hq => ?_
  rw [view_load]
  exact hw hq

/-! ### `link` -/

section Link
variable {old new : Option (List UInt8)} {ip : Slot}

/-- The label `bad` of `sys_link` takes the new link back. -/
theorem linkBad_wp [Γ.Writes] (hS : Serves sb Γ (.link old new) s) (hI : Inv sb Γ s' {ip} 0 0) (hkeep : Keep 0 s s')
    (hex : ¬Γ.allows .ilockNoType → (tree sb s'.cache (s'.inum ip)).isSome)
    (hview : (view sb s).Tame → ∃ n, (view sb s).node (s'.inum ip) = some n ∧
      view sb s' = (view sb s).setNode (s'.inum ip) { n with nlink := n.nlink + 1 }) :
    Γ.wp (linkBad sb ip) s' (Served sb Γ (.link old new) s) := by
  rw [linkBad, wp_bind]
  refine lock_wp hI (hI.ref_pos_of_mem (mem_singleton_self ip)) (allows_of_isSome hex) fun n' hI₁ hL => ?_
  have hview₁ : view sb (s'.load sb Γ.me ip) = view sb s' := view_load s' ip
  rw [wp_bind, wp_getNode]
  refine hL.setNlink_wp hI₁ (mem_singleton_self ip) fun s₂ hI₂ hkeep₂ hview₂ hL₂ => ?_
  rw [wp_bind]
  -- with the link taken back, the view is that before the call
  have hback : (view sb s).Tame → view sb s₂ = view sb s := fun ht => by
    obtain ⟨n, hn, hv⟩ := hview ht
    have hn' : n' = { n with nlink := n.nlink + 1 } := Option.some.inj <| by
      have := hL.node
      change (view sb (s'.load sb Γ.me ip)).node _ = _ at this
      rw [hview₁, hv] at this
      exact this.symm.trans View.setNode_node_self
    rw [hview₂, hview₁, hv, St.load_inum, View.setNode_setNode, hL.mem hI₁, hL.nlink, hn']
    refine View.setNode_self ?_
    rw [hn]
    simp
  exact putBack_wp hI₂ ((hkeep.trans (Keep.load 0 s' ip)).trans (hkeep₂.weaken (zero_le _))) hback
    fun s₃ hI₃ hkeep₃ hv₃ => hS.fail_wp hI₃ hkeep₃ hv₃ _

theorem nlink_succ_ne_zero {x : Int16} (h : x ≠ -1) : x + 1 ≠ 0 := fun h0 => h <| by
  rw [← Int16.add_sub_cancel (a := x) (b := 1), h0]; rfl

theorem linkInto_wp [Γ.Links] {nw : Name} {n : Node} (hS : Serves sb Γ (.link old new) s) (hnew : argstr new = some nw)
    (hI : Inv sb Γ s' {ip} 0 0) (hkeep : Keep 0 s s')
    (hnode : tree sb s'.cache (s'.inum ip) = some { n with nlink := n.nlink + 1 }) (hdir : n.type ≠ T_DIR)
    (hview : (view sb s).Tame → (argstr old).bind ((view sb s).resolve Γ.me) = some (s'.inum ip) ∧
      (view sb s).node (s'.inum ip) = some n ∧
      view sb s' = (view sb s).setNode (s'.inum ip) { n with nlink := n.nlink + 1 }) :
    Γ.wp (linkInto sb ip nw) s' (Served sb Γ (.link old new) s) := by
  have hmem : ip ∈ ({ip} : Multiset Slot) := mem_singleton_self ip
  have hquiet : (view sb s).Tame → (view sb s').Quiet := fun ht => by
    obtain ⟨_, hn, hv⟩ := hview ht
    rw [hv]
    exact ht.quiet.setNode fun h0 => absurd h0 (nlink_succ_ne_zero (ht.count _ _ hn))
  -- giving up, in a state that differs from `s'` only in tokens and locks
  have hbad : ∀ s₁, Inv sb Γ s₁ {ip} 0 0 → Keep {ip} s' s₁ → ((view sb s').Quiet → view sb s₁ = view sb s') →
      Γ.wp (linkBad sb ip) s₁ (Served sb Γ (.link old new) s) := by
    intro s₁ hI₁ hkeep₁ hv
    have hinum : s₁.inum ip = s'.inum ip := hkeep₁.inum_of_mem hmem
    refine linkBad_wp hS hI₁ (hkeep.trans (hkeep₁.weaken (zero_le _))) (fun hno => ?_) fun ht => ?_
    · have htree : tree sb s₁.cache = tree sb s'.cache := congrArg View.node (hv (hquiet (hS.strict hno).1))
      rw [hinum, htree, hnode]; rfl
    · rw [hv (hquiet ht), hinum]
      exact ⟨n, (hview ht).2⟩
  rw [linkInto]
  refine parentLock_wp hI hS.full (fun hno => ?_) hbad fun dp name m s₁ hI₁ hkeep₁ hL hmdir hv₁ => ?_
  · obtain ⟨ht, hC⟩ := hS.strict hno
    obtain ⟨_, hn, hv⟩ := hview ht
    refine ⟨hquiet ht, ?_⟩
    rw [hv]
    exact hC.setNode fun e he h0 => hC.ents _ _ hn e he h0
  · have hip : ip ∈ dp ::ₘ ({ip} : Multiset Slot) := mem_cons_of_mem hmem
    have hinum : s₁.inum ip = s'.inum ip := hkeep₁.inum_of_mem hmem
    simp only [wp_bind, wp_getIno, hI₁.dev dp hL.ref, hI₁.dev ip (hI₁.ref_pos_of_mem hip), ne_eq,
      not_true_eq_false, if_false]
    refine dirlink_wp hI₁ hL hmdir (hI₁.range ip (hI₁.ref_pos_of_mem hip)) hS.full (fun s₃ hI₃ hkeep₃ htree => ?_)
      fun j s₃ habs hfree hI₃ hkeep₃ htree => ?_
    · have hview₃ : view sb s₃ = view sb s₁ := hkeep₃.view htree
      rw [if_neg Bool.false_ne_true, wp_bind]
      refine iunlockput_quiet_wp hI₃ fun s₄ hI₄ hkeep₄ hv₄ => ?_
      refine hbad s₄ hI₄ ((hkeep₁.trans (hkeep₃.weaken (le_cons_self _ _))).trans hkeep₄) fun hq => ?_
      rw [hview₃, (hv₁ hq).1] at hv₄
      exact hv₄ hq
    · have hview₃ := hkeep₃.view_setNode htree
      -- what the call does to the view
      have hstep : (view sb s).Tame → (view sb s₃).Quiet ∧ View.Edit Γ.me (.link old new) (view sb s) (view sb s₃) := by
        intro ht
        obtain ⟨hres, hn, hv⟩ := hview ht
        obtain ⟨hv₁, hpar⟩ := hv₁ (hquiet ht)
        have hmv : (view sb s').node (s₁.inum dp) = some m := by rw [← hv₁]; exact hL.node
        rw [hv, View.parent_setNode hn (by rfl) (by rfl)] at hpar
        rw [hv] at hv₁
        rw [hview₃, hv₁, hinum]
        have hne : s₁.inum dp ≠ s'.inum ip := fun he => hdir <| by
          rw [hv, he, View.setNode_node_self] at hmv
          rw [← hmdir, ← Option.some.inj hmv]
        refine ⟨?_, .link hres hn hdir ⟨by rw [hnew]; exact hpar, ?_, hmdir, habs, hfree⟩⟩
        · rw [← hv]
          exact (hquiet ht).setNode fun h0 => ⟨m, hmv, h0⟩
        · rwa [hv, View.setNode_node_ne hne] at hmv
      rw [if_pos rfl, wp_bind]
      refine iunlockput_quiet_wp hI₃ fun s₄ hI₄ hkeep₄ hv₄ => ?_
      rw [wp_bind]
      refine iput_quiet_wp hI₄ (pinned_zero _ _) fun s₅ hI₅ hkeep₅ hv₅ => ?_
      have hend : (view sb s).Tame → view sb s₅ = view sb s₃ := fun ht => by
        have hq := (hstep ht).1
        rw [hv₄ hq] at hv₅
        exact hv₅ hq
      have hsteps : (view sb s).Tame → View.Steps Γ.me (.link old new) (view sb s) (view sb s₅) := fun ht => by
        rw [hend ht]; exact .edit (hstep ht).2
      rw [wp_bind, wp_endOp]
      exact ⟨hS.atEnd s₅ 0 0 0 hI₅ hsteps, hI₅, hsteps, fun h => absurd h (by decide)⟩

theorem sysLink_wp [Γ.Links] (hS : Serves sb Γ (.link old new) s) :
    Γ.wp (sysLink sb old new) s (Served sb Γ (.link old new) s) := by
  unfold sysLink
  cases ho : argstr old with
  | none => exact hS.refl (-1)
  | some o =>
    cases hn : argstr new with
    | none => exact hS.refl (-1)
    | some nw =>
      dsimp only
      rw [wp_bind, wp_beginOp]
      refine nameiLock_wp hS.inv hS.full hS.calm (fun s₁ hI₁ hkeep₁ hv₁ => hS.fail_wp hI₁ hkeep₁ hv₁ _)
        fun ip n s₂ hI₂ hkeep₂ hL hv₂ => ?_
      have hmem := mem_singleton_self ip
      have htype : (s₂.node ip).type = n.type := by rw [hL.mem hI₂, hL.type]
      rw [wp_bind, wp_getNode, wp_ite]
      constructor
      · intro _
        rw [wp_bind]
        exact putBack_wp hI₂ hkeep₂ (fun ht => (hv₂ ht).1) fun s₃ hI₃ hkeep₃ hv₃ => hS.fail_wp hI₃ hkeep₃ hv₃ _
      · intro hdir
        rw [htype] at hdir
        refine hL.setNlink_wp hI₂ hmem fun s₃ hI₃ hkeep₃ hv₃ hL₃ => ?_
        rw [hL.mem hI₂, hL.nlink] at hv₃ hL₃
        have hinum : s₃.inum ip = s₂.inum ip := hkeep₃.inum_of_mem hmem
        rw [wp_bind]
        refine iunlock_wp hI₃ fun hI₄ => ?_
        refine linkInto_wp hS hn hI₄ ((hkeep₂.trans (hkeep₃.weaken (zero_le _))).trans (Keep.setLock ..))
          hL₃.node hdir fun ht => ?_
        obtain ⟨hv, hres⟩ := hv₂ ht
        change _ = some (s₃.inum ip) ∧ (view sb s).node (s₃.inum ip) = some n ∧
          view sb s₃ = (view sb s).setNode (s₃.inum ip) _
        rw [hinum, hv₃, hv, ho]
        refine ⟨hres, ?_, rfl⟩
        rw [← hv]; exact hL.node

end Link

/-! ### `unlink` -/

theorem View.reap_node_ne {A : View} {j : Nat} (h : j ≠ i) : (A.reap i).node j = A.node j := by
  unfold View.reap
  split
  · exact update_of_ne h ..
  · rfl

section Unlink
variable {path : Option (List UInt8)} {dp ip : Slot}

theorem unlinkBad_wp [Γ.Writes] (hS : Serves sb Γ (.unlink path) s) (hI : Inv sb Γ s' (dp ::ₘ 0) 0 (dp ::ₘ 0))
    (hkeep : Keep 0 s s') (hview : (view sb s).Tame → view sb s' = view sb s) :
    Γ.wp (unlinkBad sb dp) s' (Served sb Γ (.unlink path) s) := by
  rw [unlinkBad, wp_bind]
  exact putBack_wp hI hkeep hview fun s₁ hI₁ hkeep₁ hv₁ => hS.fail_wp hI₁ hkeep₁ hv₁ _

theorem replicate_direntSize : List.replicate direntSize (0 : UInt8) = direntBytes [] 0 := by decide

/-- `sys_unlink` once both inodes are locked. -/
theorem unlinkEntry_wp [Γ.Links] {name : Name} {m n : Node} {e : Entry} {j : Nat} (hS : Serves sb Γ (.unlink path) s)
    (hI : Inv sb Γ s' (ip ::ₘ dp ::ₘ 0) 0 (ip ::ₘ dp ::ₘ 0)) (hd : Locked sb s' dp m) (hi : Locked sb s' ip n)
    (hinum : s'.inum ip = e.inum) (hdir : m.type = T_DIR) (hj : m.ents[j]? = some e)
    (hn : 1 ≤ n.nlink.toInt) (hempty : n.type = T_DIR → noEntries n.ents)
    (hview : (view sb s).Tame → view sb s' = view sb s ∧
      (view sb s).Names Γ.me path (s'.inum dp) m name j e) :
    Γ.wp (unlinkEntry sb dp ip (direntSize * j)) s' (Served sb Γ (.unlink path) s) := by
  have hne : ip ≠ dp := fun he => by
    have := (nodup_cons.mp hI.once).1
    exact this (he ▸ mem_cons_self dp 0)
  have hmemi := mem_pair_left ip dp
  have hmemd := mem_pair_right ip dp
  have hids : s'.inum ip ≠ s'.inum dp := fun he => hne (hI.uniq ip dp hi.ref hd.ref he)
  have hlt : j < m.ents.length := (List.getElem?_eq_some_iff.mp hj).1
  rw [unlinkEntry, wp_bind, replicate_direntSize]
  refine hd.enter_wp hI hdir hlt.le (Nat.zero_lt_of_lt sb.root_lt) (fun hlen => absurd hlen hlt.ne)
    fun s₁ hI₁ hkeep₁ htree₁ => ?_
  have hv₁ := hkeep₁.view_setNode htree₁
  have hd₁ : Locked sb s₁ dp (m.enter j 0 []) := hd.keep hI₁.toTable hkeep₁ hmemd (by rw [htree₁, update_self])
  have hi₁ : Locked sb s₁ ip n := hi.keep hI₁.toTable hkeep₁ hmemi (by
    rw [htree₁, update_of_ne hids]; exact hi.node)
  have htype : (s₁.node ip).type = n.type := by rw [hi₁.mem hI₁, hi₁.type]
  rw [if_neg (by simp), wp_bind, wp_getNode, wp_bind]
  -- the directory loses the entry, and the link that its ".." was if it named a directory
  refine wp_mono (Q := fun _ s₂ => Inv sb Γ s₂ (ip ::ₘ dp ::ₘ 0) 0 (ip ::ₘ dp ::ₘ 0) ∧
    Keep (ip ::ₘ dp ::ₘ 0) s' s₂ ∧ view sb s₂ = (view sb s').setNode (s'.inum dp) (m.without j n.type) ∧
    Locked sb s₂ dp (m.without j n.type) ∧ Locked sb s₂ ip n) ?_ fun _ s₂ ⟨hI₂, hkeep₂, hv₂, hd₂, hi₂⟩ => ?_
  · rw [wp_when, htype]
    constructor
    · intro ht
      rw [wp_bind, wp_getNode]
      refine hd₁.setNlink_last_wp hI₁ hmemd fun s₂ hI₂ hkeep₂ hv₂ hd₂ => ?_
      have hin : s₁.inum dp = s'.inum dp := hkeep₁.inum_of_mem hmemd
      have hwithout : { m.enter j 0 [] with nlink := (s₁.node dp).nlink - 1 } = m.without j n.type := by
        rw [Node.without, if_pos ht, hd₁.mem hI₁, hd₁.nlink]; rfl
      rw [hwithout] at hv₂ hd₂
      rw [hv₁, hin, View.setNode_setNode] at hv₂
      refine ⟨hI₂, hkeep₁.trans hkeep₂, hv₂, hd₂, hi₁.keep hI₂.toTable hkeep₂ hmemi ?_⟩
      change (view sb s₂).node _ = _
      rw [hv₂, hkeep₁.inum_of_mem hmemi, View.setNode_node_ne hids]
      exact hi.node
    · intro ht
      have hwithout : m.enter j 0 [] = m.without j n.type := by rw [Node.without, if_neg ht]; rfl
      rw [hwithout] at hv₁ hd₁
      exact ⟨hI₁, hkeep₁, hv₁, hd₁, hi₁⟩
  have hin₂ : s₂.inum dp = s'.inum dp := hkeep₂.inum_of_mem hmemd
  have hin₂' : s₂.inum ip = s'.inum ip := hkeep₂.inum_of_mem hmemi
  rw [wp_bind]
  rw [cons_swap] at hI₂
  refine iunlockput_reap_wp hI₂ (by simpa using hne.symm) hd₂.valid fun s₃ hI₃ hkeep₃ hv₃ => ?_
  have hmem₃ := mem_cons_self ip (0 : Multiset Slot)
  have hi₃ : Locked sb s₃ ip n := hi₂.keep hI₃.toTable hkeep₃ hmem₃ (by
    change (view sb s₃).node _ = _
    rw [hv₃, View.reap_node_ne (by rw [hin₂, hin₂']; exact hids)]
    exact hi₂.node)
  rw [wp_bind, wp_getNode]
  refine hi₃.setNlink_wp hI₃ hmem₃ fun s₄ hI₄ hkeep₄ hv₄ hi₄ => ?_
  rw [wp_bind]
  refine iunlockput_reap_wp hI₄ (notMem_zero _) hi₄.valid fun s₅ hI₅ hkeep₅ hv₅ => ?_
  have hin₃ : s₃.inum ip = s'.inum ip := (hkeep₃.inum_of_mem hmem₃).trans hin₂'
  have hin₄ : s₄.inum ip = s₃.inum ip := hkeep₄.inum_of_mem hmem₃
  have hsteps : (view sb s).Tame → View.Steps Γ.me (.unlink path) (view sb s) (view sb s₅) := fun ht => by
    obtain ⟨hv, hnames⟩ := hview ht
    rw [hi₃.mem hI₃, hi₃.nlink] at hv₄
    rw [hv₅, hv₄, hv₃, hv₂, hv, hin₄, hin₃, hin₂, hinum]
    refine .edit (.unlink hnames ?_ ?_ hn hempty)
    · rw [← hinum]; exact hids
    · rw [← hv, ← hinum]; exact hi.node
  rw [wp_bind, wp_endOp]
  exact ⟨hS.atEnd s₅ 0 0 0 hI₅ hsteps, hI₅, hsteps, fun h => absurd h (by decide)⟩

theorem sysUnlink_wp [Γ.Links] (hS : Serves sb Γ (.unlink path) s) :
    Γ.wp (sysUnlink sb path) s (Served sb Γ (.unlink path) s) := by
  unfold sysUnlink
  cases hp : argstr path with
  | none => exact hS.refl (-1)
  | some p =>
    dsimp only
    rw [wp_bind, wp_beginOp]
    refine parentLock_wp hS.inv hS.full hS.calm
      (fun s₁ hI₁ hkeep₁ hv₁ => hS.fail_wp hI₁ hkeep₁ (fun ht => hv₁ ht.quiet) _)
      fun dp name m s₂ hI₂ hkeep₂ hd hdir hv₂ => ?_
    have hmem := mem_cons_self dp (0 : Multiset Slot)
    have hview₂ : (view sb s).Tame → view sb s₂ = view sb s := fun ht => (hv₂ ht.quiet).1
    rw [wp_ite]
    refine ⟨fun _ => unlinkBad_wp hS hI₂ hkeep₂ hview₂, fun hnot => ?_⟩
    rw [namecmp_eq_zero, namecmp_eq_zero, not_or] at hnot
    rw [wp_bind]
    refine dirlookup_wp hI₂ hd hdir hS.full (fun _ => unlinkBad_wp hS hI₂ hkeep₂ hview₂)
      fun j e ip s₃ hj hfound hI₃ hkeep₃ hc₃ hinum _ => ?_
    have hview₃ : (view sb s).Tame → view sb s₃ = view sb s := fun ht =>
      (hkeep₃.view (by rw [hc₃])).trans (hview₂ ht)
    have hpin : ∀ t : St, 0 < held t.file t.cwd dp + (dp ::ₘ (0 : Multiset Slot)).count dp := fun t =>
      Nat.add_pos_right _ (count_pos.mpr hmem)
    have hin : s₃.inum dp = s₂.inum dp := hkeep₃.inum dp (hpin _)
    have hd₃ : Locked sb s₃ dp m := ⟨hI₃.ref_pos_of_mem (mem_cons_of_mem hmem),
      hkeep₃.valid dp (hpin _) hd.valid, by rw [hin, hc₃]; exact hd.node⟩
    have hnames : (view sb s).Tame → (view sb s).Names Γ.me path (s₂.inum dp) m name j e := fun ht =>
      ⟨by rw [hp]; exact (hv₂ ht.quiet).2, by rw [← hview₂ ht]; exact hd.node, hdir, hfound, hj, hnot.1, hnot.2⟩
    dsimp only
    rw [wp_bind]
    refine lock_wp hI₃ (hI₃.ref_pos_of_mem (mem_cons_self ip _)) (allows_of_isSome fun hno => ?_) fun n hI₄ hi => ?_
    · obtain ⟨ht, hC⟩ := hS.strict hno
      obtain ⟨hmem, hne, _⟩ := lookupName_some hfound
      change ((view sb s₃).node (s₃.inum ip)).isSome
      rw [hview₃ ht, hinum]
      exact hC.ents _ _ (hnames ht).node e hmem hne
    have hview₄ : (view sb s).Tame → view sb (s₃.load sb Γ.me ip) = view sb s := fun ht =>
      (view_load s₃ ip).trans (hview₃ ht)
    have hkeep₄ : Keep 0 s (s₃.load sb Γ.me ip) :=
      (hkeep₂.trans (hkeep₃.weaken (zero_le _))).trans (Keep.load 0 s₃ ip)
    have hd₄ : Locked sb (s₃.load sb Γ.me ip) dp m :=
      hd₃.keep hI₄.toTable (Keep.load _ s₃ ip) (mem_cons_of_mem hmem) hd₃.node
    have htype : ((s₃.load sb Γ.me ip).node ip).type = n.type := by rw [hi.mem hI₄, hi.type]
    have hnlink : ((s₃.load sb Γ.me ip).node ip).nlink = n.nlink := by rw [hi.mem hI₄, hi.nlink]
    have hnode : (view sb s).Tame → (view sb s).node e.inum = some n := fun ht => by
      rw [← hview₄ ht, ← hinum]; exact hi.node
    rw [wp_bind, wp_getNode, wp_ite, hnlink, htype]
    refine ⟨fun hlt => ?_, fun hge => ?_⟩
    · rw [wp_panic]
      by_contra hno
      obtain ⟨ht, hpos⟩ := hS.nlinks hno
      exact absurd (hpos _ _ _ _ _ _ _ (hnames ht) (hnode ht)) (by omega)
    have hgo : (n.type = T_DIR → noEntries n.ents) →
        Γ.wp (unlinkEntry sb dp ip (direntSize * j)) (s₃.load sb Γ.me ip) (Served sb Γ (.unlink path) s) := fun hempty =>
      unlinkEntry_wp hS hI₄ hd₄ hi hinum hdir hj (by omega) hempty fun ht =>
        ⟨hview₄ ht, by rw [St.load_inum, hin]; exact hnames ht⟩
    rw [wp_ite]
    refine ⟨fun hidir => ?_, fun hidir => hgo fun h => absurd h hidir⟩
    rw [wp_bind]
    refine isdirempty_wp hI₄ hi hidir ?_
    cases hempty : noEntries n.ents with
    | true => exact hgo fun _ => hempty
    | false =>
      rw [if_neg Bool.false_ne_true, wp_bind]
      exact putBack_wp hI₄ hkeep₄ hview₄ fun s₅ hI₅ hkeep₅ hv₅ => unlinkBad_wp hS hI₅ hkeep₅ hv₅

end Unlink

end Xv6.Fs
