import Xv6.Lib.Ring
import Xv6.Virtio.Driver

/-! The books of `virtio_disk.c`: which descriptors are free, held by a process, or part of a request in
    flight, where the head of each request is on its way from the driver to the device and back, and
    what each step of the driver and of the device does to them. -/

namespace Xv6.Virtio
open Function List

variable {P B : Type}

/-- Heads in the avail ring that the device has not taken. -/
def St.pending (d : St P B) : List Nat :=
  Ring.contents NUM d.avail.ring d.look.toNat (d.avail.idx - d.look).toNat

/-- Heads in the used ring that the interrupt handler has not seen, but for the first `skip`. -/
def St.unseen (d : St P B) (skip : Nat) : List Nat :=
  Ring.contents NUM d.used.ring (d.usedIdx.toNat + skip) ((d.used.idx - d.usedIdx).toNat - skip)

/-- Heads of the requests on their way. -/
def St.active (d : St P B) (skip : Nat) : List Nat := d.pending ++ d.work ++ d.served ++ d.unseen skip

/-- Descriptors of the requests in flight. -/
def St.flying (d : St P B) : List Nat := d.flight.flatMap (·.chain.all)

/-- The chain is in the descriptor table, as a request for `b`. -/
structure Formatted (desc : Nat → Desc B) (b : B) (c : Chain) : Prop where
  next0 : (desc c.i0).next = c.i1
  flag0 : (desc c.i0).flags &&& VRING_DESC_F_NEXT ≠ 0
  next1 : (desc c.i1).next = c.i2
  flag1 : (desc c.i1).flags &&& VRING_DESC_F_NEXT ≠ 0
  data : (desc c.i1).addr = .data b
  flag2 : (desc c.i2).flags &&& VRING_DESC_F_NEXT = 0
  status : (desc c.i2).addr = .status c.i0

/-- The books while some process holds the descriptors `held`, and the interrupt handler is done with the
    first `skip` entries of the used ring. -/
structure Books (d : St P B) (held : List Nat) (skip : Nat) : Prop where
  nodup : (held ++ d.flying).Nodup
  lt : ∀ i ∈ held ++ d.flying, i < NUM
  free : ∀ i, d.free i = true ↔ i < NUM ∧ i ∉ held ++ d.flying
  formatted : ∀ f ∈ d.flight, Formatted d.desc f.b f.chain
  info : ∀ f ∈ d.flight, (d.info f.chain.i0).b = some f.b
  bufs : ∀ f ∈ d.flight, ∀ g ∈ d.flight, f.b = g.b → f = g
  owner : ∀ f ∈ d.flight, d.owner f.b = some f.p
  active : (d.active skip).Nodup
  heads : ∀ h, h ∈ d.active skip ↔ ∃ f ∈ d.flight, f.chain.i0 = h ∧ d.disk f.b = true
  status : ∀ h ∈ d.served ++ d.unseen skip, (d.info h).status = 0
  submitted : d.submitted = d.taken ++ d.pending
  completed : d.completed = d.cleared.map .data ++ (d.unseen skip).map fun h => (d.dataDesc h).addr
  seen : skip ≤ (d.used.idx - d.usedIdx).toNat

variable {d d' : St P B} {held held' : List Nat} {skip i h : Nat} {b : B} {c : Chain} {f g : Flight P B}

theorem dvd_counter : NUM ∣ 2 ^ 16 := by decide

theorem mem_flying : i ∈ d.flying ↔ ∃ f ∈ d.flight, i ∈ f.chain.all := mem_flatMap

theorem head_mem_flying (hf : f ∈ d.flight) : f.chain.i0 ∈ d.flying :=
  mem_flying.mpr ⟨f, hf, mem_cons_self ..⟩

theorem mem_active_of_done (hh : h ∈ d.served ++ d.unseen skip) : h ∈ d.active skip := by
  rw [St.active, append_assoc]
  exact mem_append_right _ hh

theorem length_le_of_lt {n : Nat} {l : List Nat} (hnodup : l.Nodup) (hlt : ∀ i ∈ l, i < n) : l.length ≤ n := by
  have := (subperm_of_subset hnodup fun i hi => mem_range.mpr (hlt i hi)).length_le
  rwa [length_range] at this

theorem Formatted.congr {desc desc' : Nat → Desc B} (hfmt : Formatted desc b c) (hdesc : ∀ i ∈ c.all, desc' i = desc i) :
    Formatted desc' b c := by
  have h0 := hdesc c.i0 (by simp [Chain.all])
  have h1 := hdesc c.i1 (by simp [Chain.all])
  have h2 := hdesc c.i2 (by simp [Chain.all])
  constructor
  · rw [h0]; exact hfmt.next0
  · rw [h0]; exact hfmt.flag0
  · rw [h1]; exact hfmt.next1
  · rw [h1]; exact hfmt.flag1
  · rw [h1]; exact hfmt.data
  · rw [h2]; exact hfmt.flag2
  · rw [h2]; exact hfmt.status

theorem Formatted.dataDesc (hfmt : Formatted d.desc b c) : (d.dataDesc c.i0).addr = .data b := by
  rw [St.dataDesc, hfmt.next0, hfmt.data]

theorem Formatted.statusDesc (hfmt : Formatted d.desc b c) : (d.statusDesc c.i0).addr = .status c.i0 := by
  rw [St.statusDesc, St.dataDesc, hfmt.next0, hfmt.next1, hfmt.status]

namespace Books

section Steps
variable (H : Books d held skip)
include H

theorem perm (hp : held.Perm held') : Books d held' skip := by
  have hall : (held ++ d.flying).Perm (held' ++ d.flying) := hp.append_right _
  exact ⟨hall.nodup_iff.mp H.nodup, fun i hi => H.lt i (hall.mem_iff.mpr hi),
    fun i => by rw [H.free, hall.mem_iff], H.formatted, H.info, H.bufs, H.owner, H.active, H.heads, H.status,
    H.submitted, H.completed, H.seen⟩

theorem not_flying (hi : i ∈ held) : i ∉ d.flying :=
  fun hf => (nodup_append.mp H.nodup).2.2 i hi i hf rfl

/-- Two requests do not share a descriptor. -/
theorem flight_unique (hf : f ∈ d.flight) (hg : g ∈ d.flight) (hif : i ∈ f.chain.all)
    (hig : i ∈ g.chain.all) : f = g := by
  have hflying : d.flying.Nodup := (nodup_append.mp H.nodup).2.1
  by_contra hne
  have : Std.Symm (onFun List.Disjoint fun f : Flight P B => f.chain.all) := ⟨fun _ _ h => h.symm⟩
  exact (nodup_flatMap.mp hflying).2.forall hf hg hne hif hig

/-- A head on its way is that of a request in flight. -/
theorem of_active (hh : h ∈ d.active skip) :
    ∃ f ∈ d.flight, f.chain.i0 = h ∧ d.disk f.b = true := (H.heads h).mp hh

theorem active_flying (hh : h ∈ d.active skip) : h ∈ d.flying := by
  obtain ⟨f, hf, rfl, _⟩ := H.of_active hh
  exact head_mem_flying hf

theorem nodup_flight : d.flight.Nodup := by
  have hflying : d.flying.Nodup := (nodup_append.mp H.nodup).2.1
  refine (nodup_flatMap.mp hflying).2.imp fun hdisjoint => ?_
  rintro rfl
  exact hdisjoint (mem_cons_self ..) (mem_cons_self ..)

/-- At most two requests fit into eight descriptors. -/
theorem length_flight : 3 * d.flight.length + held.length ≤ NUM := by
  have hlen := length_le_of_lt H.nodup H.lt
  have hflying : d.flying.length = 3 * d.flight.length := by
    rw [St.flying, length_flatMap]
    simp [Chain.all, mul_comm]
  rw [length_append, hflying] at hlen
  omega

theorem length_active : (d.active skip).length ≤ d.flight.length := by
  have hsub : d.active skip ⊆ d.flight.map (·.chain.i0) := fun h hh => by
    obtain ⟨f, hf, rfl, _⟩ := H.of_active hh
    exact mem_map_of_mem hf
  simpa using (subperm_of_subset H.active hsub).length_le

theorem length_pending : (d.avail.idx - d.look).toNat ≤ 2 := by
  have h1 := H.length_active
  have h2 := H.length_flight
  have h3 : d.pending.length = (d.avail.idx - d.look).toNat := Ring.length_contents
  simp only [St.active, length_append] at h1
  unfold NUM at h2
  omega

theorem length_unseen : (d.used.idx - d.usedIdx).toNat ≤ skip + 2 := by
  have h1 := H.length_active
  have h2 := H.length_flight
  have h3 : (d.unseen skip).length = (d.used.idx - d.usedIdx).toNat - skip := Ring.length_contents
  simp only [St.active, length_append] at h1
  unfold NUM at h2
  omega

/-! What the driver does to the books. -/

/-- Descriptors that no request uses can be rewritten. -/
theorem redesc (desc : Nat → Desc B) (hdesc : ∀ i ∈ d.flying, desc i = d.desc i) :
    Books { d with desc := desc } held skip := by
  have hchain : ∀ f ∈ d.flight, ∀ i ∈ f.chain.all, desc i = d.desc i := fun f hf i hi =>
    hdesc i (mem_flying.mpr ⟨f, hf, hi⟩)
  have hdata : ∀ h ∈ d.unseen skip, (St.dataDesc { d with desc := desc } h).addr = (d.dataDesc h).addr := fun h hh => by
    obtain ⟨f, hf, rfl, _⟩ := H.of_active (mem_append_right _ hh)
    have hfmt : Formatted (St.desc { d with desc := desc }) f.b f.chain := (H.formatted f hf).congr (hchain f hf)
    rw [(H.formatted f hf).dataDesc, hfmt.dataDesc]
  refine ⟨H.nodup, H.lt, H.free, fun f hf => (H.formatted f hf).congr (hchain f hf), H.info, H.bufs, H.owner,
    H.active, H.heads, H.status, H.submitted, ?_, H.seen⟩
  rw [H.completed]
  exact congrArg _ (map_congr_left fun h hh => (hdata h hh).symm)

/-- So can what `disk.info` says at other places. -/
theorem reinfo (info : Nat → Info B) (hinfo : ∀ i ∈ d.flying, info i = d.info i) :
    Books { d with info := info } held skip := by
  refine ⟨H.nodup, H.lt, H.free, H.formatted, fun f hf => ?_, H.bufs, H.owner, H.active, H.heads, fun h hh => ?_,
    H.submitted, H.completed, H.seen⟩
  · rw [← H.info f hf]
    exact congrArg Info.b (hinfo _ (head_mem_flying hf))
  · rw [← H.status h hh]
    exact congrArg Info.status (hinfo h (H.active_flying (mem_active_of_done hh)))

theorem hold (hi : d.free i = true) :
    Books { d with free := update d.free i false } (i :: held) skip := by
  obtain ⟨hlt, hnot⟩ := (H.free i).mp hi
  refine ⟨nodup_cons.mpr ⟨hnot, H.nodup⟩, fun j hj => ?_, fun j => ?_, H.formatted, H.info, H.bufs, H.owner,
    H.active, H.heads, H.status, H.submitted, H.completed, H.seen⟩
  · rcases mem_cons.mp hj with rfl | hj
    · exact hlt
    · exact H.lt j hj
  · change update d.free i false j = true ↔ j < NUM ∧ j ∉ i :: (held ++ d.flying)
    rcases eq_or_ne j i with rfl | hne
    · simp
    · rw [update_of_ne hne, H.free j, mem_cons, or_iff_right hne]

end Steps

theorem release (H : Books d (i :: held) skip) {x : Desc B} :
    Books { d with desc := update d.desc i x, free := update d.free i true } held skip := by
  have hflying : i ∉ d.flying := H.not_flying (mem_cons_self ..)
  have H' := H.redesc (update d.desc i x) fun j hj => update_of_ne (by rintro rfl; exact hflying hj) ..
  have hnodup := nodup_cons.mp H'.nodup
  refine ⟨hnodup.2, fun j hj => H'.lt j (mem_cons_of_mem _ hj), fun j => ?_, H'.formatted, H'.info, H'.bufs, H'.owner,
    H'.active, H'.heads, H'.status, H'.submitted, H'.completed, H'.seen⟩
  change update d.free i true j = true ↔ j < NUM ∧ j ∉ held ++ d.flying
  rcases eq_or_ne j i with rfl | hne
  · rw [update_self]
    exact iff_of_true rfl ⟨H.lt j (mem_cons_self ..), hnodup.1⟩
  · rw [update_of_ne hne, H.free j, cons_append, mem_cons, or_iff_right hne]

/-- The flag of a buffer that has no request in flight. -/
theorem redisk [DecidableEq B] (H : Books d held skip) {x : Bool} (hb : ∀ f ∈ d.flight, f.b ≠ b) :
    Books { d with disk := update d.disk b x } held skip := by
  refine ⟨H.nodup, H.lt, H.free, H.formatted, H.info, H.bufs, H.owner, H.active, fun h => ?_, H.status, H.submitted,
    H.completed, H.seen⟩
  refine (H.heads h).trans (exists_congr fun f => and_congr_right fun hf => and_congr_right fun _ => ?_)
  change _ ↔ update d.disk b x f.b = true
  rw [update_of_ne (hb f hf)]

/-- The place behind the entries that the device has not taken can be rewritten. -/
theorem setRing (H : Books d held skip) : Books (d.setRing i) held skip := by
  have hpending : (d.setRing i).pending = d.pending := by
    change Ring.contents NUM (update d.avail.ring (d.avail.idx.toNat % NUM) i) d.look.toNat _ = _
    rw [Ring.place_eq16 (a := d.look) dvd_counter]
    exact Ring.contents_update le_rfl (lt_of_le_of_lt H.length_pending (by decide))
  have hactive : (d.setRing i).active skip = d.active skip := by
    unfold St.active
    rw [hpending]
    rfl
  refine ⟨H.nodup, H.lt, H.free, H.formatted, H.info, H.bufs, H.owner, ?_, fun h => ?_, H.status, ?_, H.completed, H.seen⟩
  · rw [hactive]; exact H.active
  · rw [hactive]; exact H.heads h
  · rw [hpending]; exact H.submitted

theorem pending_publish (H : Books d held skip) (hring : d.avail.ring (d.avail.idx.toNat % NUM) = f.chain.i0) :
    (d.publish f).pending = d.pending ++ [f.chain.i0] := by
  have hlen : (d.avail.idx + 1 - d.look).toNat = (d.avail.idx - d.look).toNat + 1 :=
    Ring.toNat_dist_succ16 (lt_of_le_of_lt H.length_pending (by decide))
  change Ring.contents NUM d.avail.ring d.look.toNat (d.avail.idx + 1 - d.look).toNat = _
  rw [hlen, Ring.contents_succ, ← Ring.place_eq16 dvd_counter, hring]
  rfl

/-- A formatted chain becomes a request in flight. -/
theorem publish (H : Books d f.chain.all skip) (hring : d.avail.ring (d.avail.idx.toNat % NUM) = f.chain.i0)
    (hfmt : Formatted d.desc f.b f.chain) (hinfo : (d.info f.chain.i0).b = some f.b) (howner : d.owner f.b = some f.p)
    (hdisk : d.disk f.b = true) (hnew : ∀ g ∈ d.flight, g.b ≠ f.b) : Books (d.publish f) [] skip := by
  have hpending := H.pending_publish hring
  have hperm : ((d.publish f).active skip).Perm (f.chain.i0 :: d.active skip) := by
    unfold St.active
    rw [hpending]
    simp only [append_assoc, singleton_append]
    exact perm_middle
  have hhead : f.chain.i0 ∉ d.active skip := fun h => H.not_flying (mem_cons_self ..) (H.active_flying h)
  refine ⟨H.nodup, H.lt, H.free, ?_, ?_, ?_, ?_, ?_, fun h => ?_, H.status, ?_, H.completed, H.seen⟩
  · exact forall_mem_cons.mpr ⟨hfmt, H.formatted⟩
  · exact forall_mem_cons.mpr ⟨hinfo, H.info⟩
  · intro g hg g' hg' heq
    rcases mem_cons.mp hg with hgf | hgd <;> rcases mem_cons.mp hg' with hgf' | hgd'
    · rw [hgf, hgf']
    · exact absurd (heq.symm.trans (congrArg _ hgf)) (hnew g' hgd')
    · exact absurd (heq.trans (congrArg _ hgf')) (hnew g hgd)
    · exact H.bufs g hgd g' hgd' heq
  · exact forall_mem_cons.mpr ⟨howner, H.owner⟩
  · exact hperm.nodup_iff.mpr (nodup_cons.mpr ⟨hhead, H.active⟩)
  · rw [hperm.mem_iff, mem_cons, H.heads h]
    change _ ↔ ∃ g ∈ f :: d.flight, _
    simp only [exists_mem_cons_iff]
    exact or_congr_left ⟨fun h => ⟨h.symm, hdisk⟩, fun h => h.1.symm⟩
  · rw [hpending, ← append_assoc]
    exact congrArg (· ++ _) H.submitted

/-- A request whose flag has been cleared gives its descriptors back to the process that made it. -/
theorem forget [DecidableEq P] (H : Books d [] skip) (hf : f ∈ d.flight) (hmine : ∀ g ∈ d.flight, g.p = f.p → g = f)
    (hdisk : d.disk f.b = false) : Books (d.forget f.p f.chain) f.chain.all skip := by
  have hmem : ∀ g, g ∈ (d.forget f.p f.chain).flight ↔ g ∈ d.flight ∧ g.p ≠ f.p := fun g => by
    simp [St.forget]
  have hflight : ∀ g ∈ (d.forget f.p f.chain).flight, g ∈ d.flight := fun g hg => ((hmem g).mp hg).1
  have hperm : d.flight.Perm (f :: (d.forget f.p f.chain).flight) := by
    refine (perm_ext_iff_of_nodup H.nodup_flight (nodup_cons.mpr ⟨?_, H.nodup_flight.filter _⟩)).mpr fun g => ?_
    · exact fun hg => ((hmem f).mp hg).2 rfl
    · refine mem_cons.trans ((or_congr_right (hmem g)).trans ⟨fun hg => ?_, fun hg => ?_⟩) |>.symm
      · rcases hg with rfl | hg
        · exact hf
        · exact hg.1
      · exact (eq_or_ne g.p f.p).imp (hmine g hg) fun hne => ⟨hg, hne⟩
  have hsplit : d.flying.Perm (f.chain.all ++ (d.forget f.p f.chain).flying) := hperm.flatMap_right _
  have hinfo : ∀ g ∈ (d.forget f.p f.chain).flight, (d.forget f.p f.chain).info g.chain.i0 = d.info g.chain.i0 := fun g hg => by
    refine update_of_ne (fun heq => ((hmem g).mp hg).2 ?_) ..
    rw [H.flight_unique (hflight g hg) hf (i := g.chain.i0) (by simp [Chain.all]) (by simp [Chain.all, heq])]
  refine ⟨hsplit.nodup_iff.mp H.nodup, fun i hi => H.lt i (hsplit.mem_iff.mpr hi), fun i => ?_,
    fun g hg => H.formatted g (hflight g hg), fun g hg => ?_, fun g hg g' hg' => H.bufs g (hflight g hg) g' (hflight g' hg'),
    fun g hg => H.owner g (hflight g hg), H.active, fun h => ?_, fun h hh => ?_, H.submitted, H.completed, H.seen⟩
  · rw [← hsplit.mem_iff]
    exact H.free i
  · rw [hinfo g hg]
    exact H.info g (hflight g hg)
  · refine (H.heads h).trans (exists_congr fun g => ?_)
    rw [hmem g, and_assoc]
    refine and_congr_right fun _ => (and_iff_right_of_imp fun ⟨_, hg⟩ hp => ?_).symm
    rw [hmine g ‹_› hp, hdisk] at hg
    cases hg
  · obtain ⟨g, hg, rfl, hgd⟩ := H.of_active (mem_active_of_done hh)
    have hne : g.p ≠ f.p := fun hp => by
      rw [hmine g hg hp, hdisk] at hgd
      cases hgd
    rw [hinfo g ((hmem g).mpr ⟨hg, hne⟩)]
    exact H.status _ hh

theorem unseen_cons (hne : d.usedIdx ≠ d.used.idx) :
    d.unseen 0 = d.used.ring (d.usedIdx.toNat % NUM) :: d.unseen 1 := by
  unfold St.unseen
  rw [← Ring.toNat_dist_pred16 hne, Nat.sub_zero, Nat.add_zero, Ring.contents_cons, Nat.add_sub_cancel]

theorem active_perm (hne : d.usedIdx ≠ d.used.idx) :
    (d.active 0).Perm (d.used.ring (d.usedIdx.toNat % NUM) :: d.active 1) := by
  unfold St.active
  rw [unseen_cons hne]
  exact perm_middle

/-- The first unseen entry of the used ring belongs to a request in flight that the device has served. -/
theorem entry (H : Books d held 0) (hne : d.usedIdx ≠ d.used.idx) :
    ∃ f ∈ d.flight, f.chain.i0 = d.used.ring (d.usedIdx.toNat % NUM) ∧ d.disk f.b = true ∧
      (d.info f.chain.i0).status = 0 := by
  have hmem : d.used.ring (d.usedIdx.toNat % NUM) ∈ d.unseen 0 := by
    rw [unseen_cons hne]
    exact mem_cons_self ..
  obtain ⟨f, hf, hhead, hdisk⟩ := H.of_active (mem_append_right _ hmem)
  refine ⟨f, hf, hhead, hdisk, ?_⟩
  rw [hhead]
  exact H.status _ (mem_append_right _ hmem)

/-- The interrupt handler clears the flag of the request it finds. -/
theorem clear [DecidableEq B] (H : Books d held 0) (hne : d.usedIdx ≠ d.used.idx) (hf : f ∈ d.flight)
    (hhead : f.chain.i0 = d.used.ring (d.usedIdx.toNat % NUM)) : Books (d.clear f.b) held 1 := by
  have hperm := active_perm hne
  have hnodup := nodup_cons.mp (hperm.nodup_iff.mp H.active)
  refine ⟨H.nodup, H.lt, H.free, H.formatted, H.info, H.bufs, H.owner, hnodup.2, fun h => ?_, fun h hh => ?_, H.submitted, ?_, ?_⟩
  · have hiff : h ∈ d.active 1 ↔ h ∈ d.active 0 ∧ h ≠ d.used.ring (d.usedIdx.toNat % NUM) := by
      rw [hperm.mem_iff, mem_cons]
      refine ⟨fun hh => ⟨.inr hh, ?_⟩, fun hh => hh.1.resolve_left hh.2⟩
      rintro rfl
      exact hnodup.1 hh
    refine hiff.trans ?_
    rw [H.heads h, ← hhead]
    change _ ↔ ∃ g ∈ d.flight, g.chain.i0 = h ∧ update d.disk f.b false g.b = true
    refine ⟨fun ⟨⟨g, hg, hgh, hgd⟩, hhf⟩ => ⟨g, hg, hgh, ?_⟩, fun ⟨g, hg, hgh, hgd⟩ => ?_⟩
    · rwa [update_of_ne fun heq => hhf (by rw [← hgh, H.bufs g hg f hf heq])]
    · have hb : g.b ≠ f.b := fun heq => by
        rw [heq, update_self] at hgd
        cases hgd
      rw [update_of_ne hb] at hgd
      refine ⟨⟨g, hg, hgh, hgd⟩, fun heq => hb ?_⟩
      rw [H.flight_unique hg hf (i := g.chain.i0) (mem_cons_self ..) (by simp [Chain.all, hgh, heq])]
  · refine H.status h ?_
    rw [unseen_cons hne]
    exact mem_append.mpr ((mem_append.mp hh).imp_right (mem_cons_of_mem _))
  · change d.completed = (d.cleared ++ [f.b]).map Addr.data ++ (d.unseen 1).map _
    rw [H.completed, unseen_cons hne, map_cons, ← hhead, (H.formatted f hf).dataDesc, map_append, append_assoc]
    rfl
  · exact Nat.one_le_iff_ne_zero.mpr fun h0 => hne (Ring.toNat_dist_eq_zero16.mp h0)

/-- The interrupt handler goes on to the next entry. -/
theorem next (H : Books d held 1) : Books { d with usedIdx := d.usedIdx + 1 } held 0 := by
  have hne : d.usedIdx ≠ d.used.idx := fun heq => by
    have := H.seen
    rw [Ring.toNat_dist_eq_zero16.mpr heq] at this
    cases this
  have hunseen : St.unseen { d with usedIdx := d.usedIdx + 1 } 0 = d.unseen 1 := by
    unfold St.unseen
    rw [← Ring.toNat_dist_pred16 hne, Nat.add_sub_cancel, Nat.sub_zero, Nat.add_zero, Ring.contents_succ_counter16 dvd_counter]
  have hactive : St.active { d with usedIdx := d.usedIdx + 1 } 0 = d.active 1 := by
    unfold St.active
    rw [hunseen]
    rfl
  refine ⟨H.nodup, H.lt, H.free, H.formatted, H.info, H.bufs, H.owner, ?_, fun h => ?_, fun h => ?_, H.submitted, ?_, Nat.zero_le _⟩
  · rw [hactive]; exact H.active
  · rw [hactive]; exact H.heads h
  · rw [hunseen]; exact H.status h
  · rw [hunseen]; exact H.completed

/-! What the device does to the books. -/

theorem take (H : Books d held skip) (hstep : device .take d = some d') : Books d' held skip := by
  simp only [device] at hstep
  split at hstep
  · cases hstep
  rename_i hne
  obtain rfl := Option.some.inj hstep
  have hpending : d.pending = d.avail.ring (d.look.toNat % NUM) :: St.pending { d with look := d.look + 1 } := by
    unfold St.pending
    rw [← Ring.toNat_dist_pred16 hne, Ring.contents_cons, Ring.contents_succ_counter16 dvd_counter]
  have hperm : (St.pending { d with look := d.look + 1 } ++ d.avail.ring (d.look.toNat % NUM) :: d.work ++ d.served ++
      d.unseen skip).Perm (d.active skip) := by
    unfold St.active
    rw [hpending]
    simp only [append_assoc, cons_append]
    exact perm_middle
  refine ⟨H.nodup, H.lt, H.free, H.formatted, H.info, H.bufs, H.owner, hperm.nodup_iff.mpr H.active,
    fun h => hperm.mem_iff.trans (H.heads h), H.status, ?_, H.completed, H.seen⟩
  rw [H.submitted, hpending, append_cons]
  rfl

theorem serve (H : Books d held skip) (hstep : device (.serve h) d = some d') : Books d' held skip := by
  simp only [device] at hstep
  split at hstep
  · rename_i hmem
    have hactive : h ∈ d.active skip := by simp [St.active, hmem]
    obtain ⟨f, hf, rfl, hdisk⟩ := H.of_active hactive
    erw [(H.formatted f hf).statusDesc] at hstep
    obtain rfl := Option.some.inj hstep
    have hperm : (d.pending ++ d.work.erase f.chain.i0 ++ (f.chain.i0 :: d.served) ++ d.unseen skip).Perm (d.active skip) := by
      refine .append_right _ ?_
      rw [append_assoc, append_assoc]
      exact .append_left _ (perm_middle.trans ((perm_cons_erase hmem).append_right _).symm)
    refine ⟨H.nodup, H.lt, H.free, H.formatted, fun g hg => ?_, H.bufs, H.owner, hperm.nodup_iff.mpr H.active,
      fun h => hperm.mem_iff.trans (H.heads h), fun h hh => ?_, H.submitted, H.completed, H.seen⟩
    · change (update d.info f.chain.i0 { d.info f.chain.i0 with status := 0 } g.chain.i0).b = _
      rw [apply_update (fun _ => Info.b), update_eq_self]
      exact H.info g hg
    · change (update d.info f.chain.i0 { d.info f.chain.i0 with status := 0 } h).status = 0
      rcases eq_or_ne h f.chain.i0 with rfl | hne
      · rw [update_self]
      · rw [update_of_ne hne]
        exact H.status h ((mem_cons.mp hh).resolve_left hne)
  · cases hstep

theorem append (H : Books d held skip) (hskip : skip ≤ 1) (hstep : device (.append h) d = some d') : Books d' held skip := by
  simp only [device] at hstep
  split at hstep
  · rename_i hmem
    obtain rfl := Option.some.inj hstep
    have hlen := H.length_unseen
    have hseen := H.seen
    have hroom : (d.used.idx - d.usedIdx).toNat - skip < NUM := by unfold NUM; omega
    have hdist : (d.used.idx + 1 - d.usedIdx).toNat = (d.used.idx - d.usedIdx).toNat + 1 := Ring.toNat_dist_succ16 (by omega)
    have hunseen : Ring.contents NUM (update d.used.ring (d.used.idx.toNat % NUM) h) (d.usedIdx.toNat + skip)
        ((d.used.idx + 1 - d.usedIdx).toNat - skip) = d.unseen skip ++ [h] := by
      rw [hdist, Nat.sub_add_comm hseen, Ring.place_eq16 (a := d.usedIdx) dvd_counter,
        show d.usedIdx.toNat + (d.used.idx - d.usedIdx).toNat = d.usedIdx.toNat + skip + ((d.used.idx - d.usedIdx).toNat - skip) by omega]
      exact Ring.contents_push hroom
    have hperm : (d.pending ++ d.work ++ d.served.erase h ++ (d.unseen skip ++ [h])).Perm (d.active skip) := by
      unfold St.active
      rw [append_assoc, append_assoc (d.pending ++ d.work) d.served]
      refine .append_left _ ?_
      rw [← append_assoc]
      exact (perm_append_singleton ..).trans ((perm_cons_erase hmem).append_right _).symm
    rw [← hunseen] at hperm
    refine ⟨H.nodup, H.lt, H.free, H.formatted, H.info, H.bufs, H.owner, hperm.nodup_iff.mpr H.active,
      fun h => hperm.mem_iff.trans (H.heads h), fun j hj => H.status j ?_, H.submitted, ?_, ?_⟩
    · change j ∈ d.served.erase h ++ Ring.contents NUM (update d.used.ring _ h) _ _ at hj
      rw [hunseen, ← append_assoc] at hj
      exact (((perm_append_singleton ..).trans ((perm_cons_erase hmem).append_right _).symm).mem_iff).mp hj
    · change d.completed ++ _ = _ ++ (Ring.contents NUM (update d.used.ring _ h) _ _).map _
      rw [hunseen, H.completed, map_append, append_assoc]
      rfl
    · exact hseen.trans (by rw [hdist]; omega)
  · cases hstep

end Books

end Xv6.Virtio
