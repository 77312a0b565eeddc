import Xv6.Fs.CallSpec

/-! What `create` does: it opens a file that is already there, makes a new inode and enters it in the
    directory, or gives up and leaves everything as it was. -/

namespace Xv6.Fs
open Prog hiding wp_bind wp_pure wp_when wp_mono
open Ctx Function Multiset

/-- Directory `m` with inode `i` of type `type` entered in place `j`. -/
def Node.entered (m : Node) (j i : Nat) (name : Name) (type : Int16) : Node :=
  { m.enter j i name with nlink := if type = T_DIR then m.nlink + 1 else m.nlink }

/-- The new inode `i` in directory `d`. -/
def Node.created (type major minor : Int16) (i d : Nat) : Node :=
  if type = T_DIR then Node.newDir i d else Node.made type major minor

/-- Inode `i` has been created at `path`. -/
def View.Created (A : View) (me : Pid) (path : Option (List UInt8)) (type major minor : Int16) (i : Nat) (B : View) :
    Prop :=
  ∃ d m name j, A.Place me path d m name j ∧ A.Fresh i ∧
    B = (A.setNode i (Node.created type major minor i d)).setNode d (m.entered j i name type)

variable {sb : Super} {Γ : Ctx} {s s' : St} {T L : Multiset Slot} {F : Multiset FileId} {dp ip : Slot} {i d : Nat}
  {m n : Node}

/-- Nobody uses an inode that does not exist. -/
theorem Inv.not_inUse (h : Inv sb Γ s T F L) (hi : (view sb s).node i = none) : ¬(view sb s).InUse i := by
  intro huse
  obtain ⟨k, hk, rfl⟩ := inUse_view.mp huse
  have := h.held_isSome hk
  rw [show tree sb s.cache (s.inum k) = none from hi] at this
  cases this

variable {Q : Option Slot → St → Prop}

section Pair
variable (hI : Inv sb Γ s' (ip ::ₘ dp ::ₘ 0) 0 (ip ::ₘ dp ::ₘ 0)) (hi : Locked sb s' ip n)
include hI

theorem Inv.pair_ne : ip ≠ dp := fun he =>
  (nodup_cons.mp hI.once).1 (he ▸ mem_cons_self dp 0)

include hi

theorem Inv.pair_inum_ne (hd : Locked sb s' dp m) : s'.inum ip ≠ s'.inum dp := fun he =>
  hI.pair_ne (hI.uniq ip dp hi.ref hd.ref he)

/-- The label `fail` of `create` removes the new inode. -/
theorem createFail_wp [Γ.Writes] (h : Inv sb Γ s 0 0 0) (hkeep : Keep 0 s s')
    (hview : (view sb s).Tame → (view sb s).node (s'.inum ip) = none ∧
      view sb s' = (view sb s).setNode (s'.inum ip) n)
    (hQ : ∀ s'', Inv sb Γ s'' 0 0 0 → Keep 0 s s'' → ((view sb s).Tame → view sb s'' = view sb s) → Q none s'') :
    Γ.wp (createFail sb dp ip) s' Q := by
  have hne := hI.pair_ne
  have hmem : ip ∈ ip ::ₘ dp ::ₘ (0 : Multiset Slot) := mem_cons_self ..
  rw [createFail, wp_bind, wp_getNode]
  refine hi.setNlink_wp hI hmem fun s₁ hI₁ hkeep₁ hv₁ hi₁ => ?_
  rw [wp_bind]
  refine iunlockput_reap_wp hI₁ (by simpa using hne) hi₁.valid fun s₂ hI₂ hkeep₂ hv₂ => ?_
  have hback : (view sb s).Tame → view sb s₂ = view sb s := fun ht => by
    obtain ⟨hnone, hv⟩ := hview ht
    rw [hv₂, hv₁, hv, hkeep₁.inum_of_mem hmem, View.setNode_setNode, View.reap_none View.setNode_node_self rfl]
    · simp only [View.setNode, update_idem]
      rw [← hnone, update_eq_self]
    · exact h.not_inUse hnone
  rw [wp_bind]
  exact putBack_wp hI₂ ((hkeep.trans (hkeep₁.weaken (zero_le _))).trans (hkeep₂.weaken (zero_le _))) hback hQ

end Pair

theorem freePlace_nil {j : Nat} (h : FreePlace [] j) : j = 0 := Nat.le_zero.mp h.2

theorem freePlace_singleton {e : Entry} {j : Nat} (h : FreePlace [e] j) (he : e.inum ≠ 0) : j = 1 := by
  have hle : j ≤ 1 := h.2
  have hne : j ≠ 0 := by
    rintro rfl
    exact he h.1
  omega

/-- The entries "." and ".." of a new directory. -/
theorem linkDots_wp [Γ.Links] {Q : Bool → St → Prop} (h : Inv sb Γ s (ip ::ₘ dp ::ₘ 0) 0 (ip ::ₘ dp ::ₘ 0))
    (hi : Locked sb s ip (Node.made T_DIR 0 0)) (hd : Locked sb s dp m) (hpos : 0 < s.inum ip)
    (hfull : Γ.allows .igetNoInodes)
    (hQ : ∀ b n s', Inv sb Γ s' (ip ::ₘ dp ::ₘ 0) 0 (ip ::ₘ dp ::ₘ 0) → Keep (ip ::ₘ dp ::ₘ 0) s s' →
      view sb s' = (view sb s).setNode (s.inum ip) n → Locked sb s' ip n → Locked sb s' dp m →
      (b = true → n = Node.newDir (s.inum ip) (s.inum dp)) → Q b s') :
    Γ.wp (linkDots sb dp ip) s Q := by
  have hmemi := mem_pair_left ip dp
  have hmemd := mem_pair_right ip dp
  have hne := h.pair_inum_ne hi hd
  have hset : ∀ n s', Keep (ip ::ₘ dp ::ₘ 0) s s' → view sb s' = (view sb s).setNode (s.inum ip) n →
      Inv sb Γ s' (ip ::ₘ dp ::ₘ 0) 0 (ip ::ₘ dp ::ₘ 0) → Locked sb s' ip n ∧ Locked sb s' dp m := by
    intro n s' hkeep hv hI
    refine ⟨hi.keep hI.toTable hkeep hmemi ?_, hd.keep hI.toTable hkeep hmemd ?_⟩
    · change (view sb s').node _ = _
      rw [hv, View.setNode_node_self]
    · change (view sb s').node _ = _
      rw [hv, View.setNode_node_ne hne.symm]; exact hd.node
  have hsame : ∀ s', Keep (ip ::ₘ dp ::ₘ 0) s s' → tree sb s'.cache = tree sb s.cache →
      view sb s' = (view sb s).setNode (s.inum ip) (Node.made T_DIR 0 0) := fun s' hkeep ht => by
    rw [hkeep.view ht, View.setNode_self hi.node]
  rw [linkDots]
  simp only [wp_bind, wp_getIno]
  refine dirlink_wp h hi rfl (h.range ip hi.ref) hfull (fun s₁ hI₁ hkeep₁ ht₁ => ?_) fun j s₁ _ hfree hI₁ hkeep₁ ht₁ => ?_
  · obtain ⟨hi₁, hd₁⟩ := hset _ s₁ hkeep₁ (hsame s₁ hkeep₁ ht₁) hI₁
    exact hQ false _ s₁ hI₁ hkeep₁ (hsame s₁ hkeep₁ ht₁) hi₁ hd₁ fun hb => absurd hb Bool.false_ne_true
  · obtain rfl := freePlace_nil hfree
    have hv₁ := hkeep₁.view_setNode ht₁
    obtain ⟨hi₁, hd₁⟩ := hset _ s₁ hkeep₁ hv₁ hI₁
    have hin := hkeep₁.inum_of_mem hmemi
    rw [if_pos rfl]
    refine dirlink_wp hI₁ hi₁ rfl (by rw [← hkeep₁.inum_of_mem hmemd]; exact hI₁.range dp hd₁.ref) hfull
      (fun s₂ hI₂ hkeep₂ ht₂ => ?_) fun j s₂ _ hfree hI₂ hkeep₂ ht₂ => ?_
    · have hkeep := hkeep₁.trans hkeep₂
      have hv₂ : view sb s₂ = (view sb s).setNode (s.inum ip) _ := (hkeep₂.view ht₂).trans hv₁
      obtain ⟨hi₂, hd₂⟩ := hset _ s₂ hkeep hv₂ hI₂
      exact hQ false _ s₂ hI₂ hkeep hv₂ hi₂ hd₂ fun hb => absurd hb Bool.false_ne_true
    · obtain rfl := freePlace_singleton hfree hpos.ne'
      have hkeep := hkeep₁.trans hkeep₂
      have hv₂ : view sb s₂ = (view sb s).setNode (s.inum ip) (Node.newDir (s.inum ip) (s.inum dp)) := by
        rw [hkeep₂.view_setNode ht₂, hv₁, hin, View.setNode_setNode]; rfl
      obtain ⟨hi₂, hd₂⟩ := hset _ s₂ hkeep hv₂ hI₂
      exact hQ true _ s₂ hI₂ hkeep hv₂ hi₂ hd₂ fun _ => rfl


/-- `create` once the new inode is filled in. -/
theorem createLink_wp [Γ.Links] {name : Name} {type : Int16} (h : Inv sb Γ s 0 0 0)
    (hI : Inv sb Γ s' (ip ::ₘ dp ::ₘ 0) 0 (ip ::ₘ dp ::ₘ 0)) (hi : Locked sb s' ip n) (hd : Locked sb s' dp m)
    (hkeep : Keep 0 s s') (hdir : m.type = T_DIR) (hfull : Γ.allows .igetNoInodes)
    (hview : (view sb s).Tame → (view sb s).node (s'.inum ip) = none ∧ view sb s' = (view sb s).setNode (s'.inum ip) n)
    (hnone : ∀ s'', Inv sb Γ s'' 0 0 0 → Keep 0 s s'' → ((view sb s).Tame → view sb s'' = view sb s) → Q none s'')
    (hsome : ∀ j s'', lookupName m.ents (cname name) = none → FreePlace m.ents j → Inv sb Γ s'' (ip ::ₘ 0) 0 (ip ::ₘ 0) →
      Keep 0 s s'' → s''.inum ip = s'.inum ip → Locked sb s'' ip n →
      ((view sb s).Tame → view sb s'' = ((view sb s).setNode (s'.inum ip) n).setNode (s'.inum dp)
        (m.entered j (s'.inum ip) name type)) → Q (some ip) s'') :
    Γ.wp (createLink sb dp ip name type) s' Q := by
  have hmemi := mem_pair_left ip dp
  have hmemd := mem_pair_right ip dp
  have hne := hI.pair_inum_ne hi hd
  rw [createLink]
  simp only [wp_bind, wp_getIno]
  refine dirlink_wp hI hd hdir (hI.range ip hi.ref) hfull (fun s₁ hI₁ hkeep₁ ht₁ => ?_)
    fun j s₁ habs hfree hI₁ hkeep₁ ht₁ => ?_
  · have hi₁ : Locked sb s₁ ip n := hi.keep hI₁.toTable hkeep₁ hmemi (by rw [ht₁]; exact hi.node)
    rw [if_neg Bool.false_ne_true]
    refine createFail_wp hI₁ hi₁ h (hkeep.trans (hkeep₁.weaken (zero_le _))) (fun ht => ?_) hnone
    rw [hkeep₁.inum_of_mem hmemi, hkeep₁.view ht₁]
    exact hview ht
  · have hv₁ := hkeep₁.view_setNode ht₁
    have hi₁ : Locked sb s₁ ip n := hi.keep hI₁.toTable hkeep₁ hmemi (by
      rw [ht₁, update_of_ne hne]; exact hi.node)
    have hd₁ : Locked sb s₁ dp (m.enter j (s'.inum ip) name) := hd.keep hI₁.toTable hkeep₁ hmemd (by
      rw [ht₁, update_self])
    rw [if_pos rfl, wp_bind]
    -- the parent's link count, for ".."
    refine wp_mono (Q := fun _ s₂ => Inv sb Γ s₂ (ip ::ₘ dp ::ₘ 0) 0 (ip ::ₘ dp ::ₘ 0) ∧
      Keep (ip ::ₘ dp ::ₘ 0) s' s₂ ∧
      view sb s₂ = (view sb s').setNode (s'.inum dp) (m.entered j (s'.inum ip) name type) ∧
      Locked sb s₂ ip n) ?_ fun _ s₂ h₂ => ?_
    · rw [wp_when]
      constructor
      · intro ht
        rw [wp_bind, wp_getNode]
        refine hd₁.setNlink_last_wp hI₁ hmemd fun s₂ hI₂ hkeep₂ hv₂ hd₂ => ?_
        have hwith : { m.enter j (s'.inum ip) name with nlink := (s₁.node dp).nlink + 1 } =
            m.entered j (s'.inum ip) name type := by
          rw [Node.entered, if_pos ht, hd₁.mem hI₁, hd₁.nlink]; rfl
        rw [hwith, hv₁, hkeep₁.inum_of_mem hmemd, View.setNode_setNode] at hv₂
        refine ⟨hI₂, hkeep₁.trans hkeep₂, hv₂, hi₁.keep hI₂.toTable hkeep₂ hmemi ?_⟩
        change (view sb s₂).node _ = _
        rw [hv₂, hkeep₁.inum_of_mem hmemi, View.setNode_node_ne hne]
        exact hi.node
      · intro ht
        have hwith : m.enter j (s'.inum ip) name = m.entered j (s'.inum ip) name type := by
          rw [Node.entered, if_neg ht]; rfl
        rw [hwith] at hv₁
        exact ⟨hI₁, hkeep₁, hv₁, hi₁⟩
    obtain ⟨hI₂, hkeep₂, hv₂, hi₂⟩ := h₂
    rw [wp_bind]
    rw [cons_swap] at hI₂
    have hmem₃ := mem_cons_self ip (0 : Multiset Slot)
    have hin := hkeep₂.inum_of_mem hmemd
    refine iunlockput_reap_wp hI₂ (by simpa using hI.pair_ne.symm)
      (hkeep₂.valid dp (Nat.add_pos_right _ (count_pos.mpr hmemd)) hd.valid) fun s₃ hI₃ hkeep₃ hv₃ => ?_
    rw [hin] at hv₃
    refine hsome j s₃ habs hfree hI₃ ((hkeep.trans (hkeep₂.weaken (zero_le _))).trans
      (hkeep₃.weaken (zero_le _))) ?_ (hi₂.keep hI₃.toTable hkeep₃ hmem₃ ?_) fun ht => ?_
    · rw [hkeep₃.inum_of_mem hmem₃, hkeep₂.inum_of_mem hmemi]
    · change (view sb s₃).node _ = _
      rw [hv₃, View.reap_node_ne (by rw [hkeep₂.inum_of_mem hmemi]; exact hne)]
      exact hi₂.node
    · obtain ⟨hnone, hv⟩ := hview ht
      have hm : (view sb s).node (s'.inum dp) = some m := by
        have : (view sb s').node (s'.inum dp) = some m := hd.node
        rwa [hv, View.setNode_node_ne hne.symm] at this
      rw [hv₃, hv₂, hv]
      refine View.reap_self fun x hx h0 => ?_
      rw [View.setNode_node_self] at hx
      obtain rfl := Option.some.inj hx
      change (if type = T_DIR then m.nlink + 1 else m.nlink) = 0 at h0
      split at h0
      · exact absurd h0 (nlink_succ_ne_zero (ht.count _ _ hm))
      · exact (ht.quiet _ _ hm h0).1

/-- `create`: nothing, the file that is already there, or a new inode. -/
theorem create_wp [Γ.Links] {raw : Option (List UInt8)} {path : Name}
    {type major minor : Int16} (hraw : argstr raw = some path) (h : Inv sb Γ s 0 0 0) (hfull : Γ.allows .igetNoInodes)
    (hE : ¬Γ.allows .ilockNoType → (view sb s).Tame ∧ (view sb s).Closed) (htype : type ≠ 0)
    (hdots : type = T_DIR → major = 0 ∧ minor = 0)
    (hnone : ∀ s', Inv sb Γ s' 0 0 0 → Keep 0 s s' → ((view sb s).Tame → view sb s' = view sb s) → Q none s')
    (hold : ∀ ip n s', type = T_FILE → n.type = T_FILE ∨ n.type = T_DEVICE → Inv sb Γ s' (ip ::ₘ 0) 0 (ip ::ₘ 0) →
      Keep 0 s s' → Locked sb s' ip n → ((view sb s).Tame → view sb s' = view sb s) → Q (some ip) s')
    (hnew : ∀ ip n s', n.type = type → Inv sb Γ s' (ip ::ₘ 0) 0 (ip ::ₘ 0) → Keep 0 s s' → Locked sb s' ip n →
      ((view sb s).Tame → (view sb s).Created Γ.me raw type major minor (s'.inum ip) (view sb s')) → Q (some ip) s') :
    Γ.wp (create sb path type major minor) s Q := by
  rw [create]
  refine parentLock_wp h hfull (fun hno => ⟨(hE hno).1.quiet, (hE hno).2⟩)
    (fun s₁ hI₁ hkeep₁ hv₁ => hnone s₁ hI₁ hkeep₁ fun ht => hv₁ ht.quiet)
    fun dp name m s₂ hI₂ hkeep₂ hd hdir hv₂ => ?_
  have hmem := mem_cons_self dp (0 : Multiset Slot)
  have hview₂ : (view sb s).Tame → view sb s₂ = view sb s := fun ht => (hv₂ ht.quiet).1
  rw [wp_bind]
  refine dirlookup_wp hI₂ hd hdir hfull (fun habs => ?_) fun j e ip s₃ hj hfound hI₃ hkeep₃ hc₃ hinum _ => ?_
  · -- the name is free
    simp only [wp_bind, wp_getIno, hI₂.dev dp hd.ref]
    refine ialloc_wp hI₂ htype hfull ?_ fun ip i s₃ hpos hfree hI₃ hkeep₃ ht₃ hinum => ?_
    · dsimp only
      rw [wp_bind]
      exact putBack_wp hI₂ hkeep₂ hview₂ hnone
    have hmemi := mem_pair_left ip dp
    have hmemd := mem_pair_right ip dp
    have hdi : s₂.inum dp ≠ i := by
      rintro rfl
      exact absurd (hd.node.symm.trans hfree) (Option.some_ne_none m)
    have hind : s₃.inum dp = s₂.inum dp := hkeep₃.inum_of_mem hmem
    have hkeep₃' : Keep 0 s s₃ := hkeep₂.trans (hkeep₃.weaken (zero_le _))
    dsimp only
    rw [wp_bind]
    refine lock_wp hI₃ (hI₃.ref_pos_of_mem hmemi) (fun h0 => ?_) fun n hI₄ hi => ?_
    · rw [ht₃, hinum, update_self] at h0
      cases h0
    obtain rfl : n = Node.fresh type := Option.some.inj <| hi.node.symm.trans (by
      change tree sb s₃.cache (s₃.inum ip) = _
      rw [ht₃, hinum, update_self])
    have hd₄ : Locked sb (s₃.load sb Γ.me ip) dp m := by
      refine ⟨hI₃.ref_pos_of_mem hmemd, (Keep.load (ip ::ₘ dp ::ₘ 0) s₃ ip).valid dp
        (Nat.add_pos_right _ (count_pos.mpr hmemd))
        (hkeep₃.valid dp (Nat.add_pos_right _ (count_pos.mpr hmem)) hd.valid), ?_⟩
      change tree sb s₃.cache (s₃.inum dp) = _
      rw [ht₃, hind, update_of_ne hdi]; exact hd.node
    have hview₄ : (view sb s).Tame → view sb (s₃.load sb Γ.me ip) = (view sb s).setNode i (Node.fresh type) := fun ht => by
      rw [view_load, hkeep₃.view_setNode ht₃, hview₂ ht]
    rw [wp_bind, wp_getNode]
    refine hi.setMeta_wp hI₄ hmemi rfl rfl rfl fun s₅ hI₅ hkeep₅ hv₅ hi₅ => ?_
    have hin₅ : s₅.inum ip = i := (hkeep₅.inum_of_mem hmemi).trans hinum
    have hind₅ : s₅.inum dp = s₂.inum dp := (hkeep₅.inum_of_mem hmemd).trans hind
    have hd₅ : Locked sb s₅ dp m := hd₄.keep hI₅.toTable hkeep₅ hmemd (by
      change (view sb s₅).node _ = _
      rw [hv₅, View.setNode_node_ne (by change s₃.inum dp ≠ s₃.inum ip; rw [hind, hinum]; exact hdi)]
      exact hd₄.node)
    have hkeep₅' : Keep 0 s s₅ := (hkeep₃'.trans (Keep.load 0 s₃ ip)).trans (hkeep₅.weaken (zero_le _))
    have hview₅ : (view sb s).Tame → (view sb s).node (s₅.inum ip) = none ∧
        view sb s₅ = (view sb s).setNode (s₅.inum ip) (Node.made type major minor) := fun ht => by
      refine ⟨?_, ?_⟩
      · rw [hin₅, ← hview₂ ht]; exact hfree
      · rw [hv₅, hview₄ ht, hin₅]
        change View.setNode _ (s₃.inum ip) _ = _
        rw [hinum, View.setNode_setNode]; rfl
    have hplace : ∀ j, FreePlace m.ents j → (view sb s).Tame → (view sb s).Place Γ.me raw (s₂.inum dp) m name j :=
      fun j hj ht => ⟨by rw [hraw]; exact (hv₂ ht.quiet).2, by rw [← hview₂ ht]; exact hd.node, hdir, habs, hj⟩
    rw [wp_ite]
    constructor
    · intro htd
      obtain ⟨rfl, rfl⟩ := hdots htd
      subst htd
      rw [wp_bind]
      refine linkDots_wp hI₅ hi₅ hd₅ (by rw [hin₅]; exact hpos) hfull fun b n s₆ hI₆ hkeep₆ hv₆ hi₆ hd₆ hb => ?_
      have hkeep₆' : Keep 0 s s₆ := hkeep₅'.trans (hkeep₆.weaken (zero_le _))
      have hview₆ : (view sb s).Tame → (view sb s).node (s₆.inum ip) = none ∧
          view sb s₆ = (view sb s).setNode (s₆.inum ip) n := fun ht => by
        obtain ⟨hno, hv⟩ := hview₅ ht
        rw [hkeep₆.inum_of_mem hmemi, hv₆, hv, View.setNode_setNode]
        exact ⟨hno, rfl⟩
      cases b with
      | false => exact createFail_wp hI₆ hi₆ h hkeep₆' hview₆ hnone
      | true =>
        obtain rfl := hb rfl
        refine createLink_wp h hI₆ hi₆ hd₆ hkeep₆' hdir hfull hview₆ hnone fun j s₇ _ hj hI₇ hkeep₇ hin₇ hi₇ hv₇ => ?_
        refine hnew ip _ s₇ rfl hI₇ hkeep₇ hi₇ fun ht => ⟨s₂.inum dp, m, name, j, hplace j hj ht, ⟨?_, ?_, ?_⟩, ?_⟩
        · rw [hin₇]; exact (hview₆ ht).1
        · rw [hin₇, hkeep₆.inum_of_mem hmemi, hin₅]; exact hpos
        · exact hI₇.range ip (hI₇.ref_pos_of_mem (mem_cons_self ..))
        · rw [hv₇ ht, hin₇, hkeep₆.inum_of_mem hmemi, hkeep₆.inum_of_mem hmemd, hind₅, Node.created, if_pos rfl]
    · intro htd
      refine createLink_wp h hI₅ hi₅ hd₅ hkeep₅' hdir hfull hview₅ hnone fun j s₇ _ hj hI₇ hkeep₇ hin₇ hi₇ hv₇ => ?_
      refine hnew ip _ s₇ rfl hI₇ hkeep₇ hi₇ fun ht => ⟨s₂.inum dp, m, name, j, hplace j hj ht, ⟨?_, ?_, ?_⟩, ?_⟩
      · rw [hin₇]; exact (hview₅ ht).1
      · rw [hin₇, hin₅]; exact hpos
      · exact hI₇.range ip (hI₇.ref_pos_of_mem (mem_cons_self ..))
      · rw [hv₇ ht, hin₇, hind₅, Node.created, if_neg htd]; rfl
  · -- the name is taken
    have hview₃ : (view sb s).Tame → view sb s₃ = view sb s := fun ht =>
      (hkeep₃.view (by rw [hc₃])).trans (hview₂ ht)
    have hkeep₃' : Keep 0 s s₃ := hkeep₂.trans (hkeep₃.weaken (zero_le _))
    dsimp only
    rw [wp_bind]
    rw [cons_swap] at hI₃
    refine iunlockput_quiet_wp hI₃ fun s₄ hI₄ hkeep₄ hv₄ => ?_
    have hmem₄ := mem_cons_self ip (0 : Multiset Slot)
    have hview₄ : (view sb s).Tame → view sb s₄ = view sb s := fun ht => by
      rw [hview₃ ht] at hv₄
      exact hv₄ ht.quiet
    have hkeep₄' : Keep 0 s s₄ := hkeep₃'.trans (hkeep₄.weaken (zero_le _))
    rw [wp_bind]
    refine lock_wp hI₄ (hI₄.ref_pos_of_mem hmem₄) (allows_of_isSome fun hno => ?_) fun n hI₅ hi => ?_
    · obtain ⟨ht, hC⟩ := hE hno
      obtain ⟨hemem, hne, _⟩ := lookupName_some hfound
      have hnode : (view sb s).node (s₂.inum dp) = some m := by rw [← hview₂ ht]; exact hd.node
      change ((view sb s₄).node (s₄.inum ip)).isSome
      rw [hview₄ ht, hkeep₄.inum_of_mem hmem₄, hinum]
      exact hC.ents _ _ hnode e hemem hne
    have hview₅ : (view sb s).Tame → view sb (s₄.load sb Γ.me ip) = view sb s := fun ht =>
      (view_load s₄ ip).trans (hview₄ ht)
    have hkeep₅ : Keep 0 s (s₄.load sb Γ.me ip) := hkeep₄'.trans (Keep.load 0 s₄ ip)
    have hntype : ((s₄.load sb Γ.me ip).node ip).type = n.type := by rw [hi.mem hI₅, hi.type]
    rw [wp_bind, wp_getNode, wp_ite, hntype]
    refine ⟨fun hok => hold ip n _ hok.1 hok.2 hI₅ hkeep₅ hi hview₅, fun _ => ?_⟩
    rw [wp_bind]
    exact putBack_wp hI₅ hkeep₅ hview₅ hnone

end Xv6.Fs
