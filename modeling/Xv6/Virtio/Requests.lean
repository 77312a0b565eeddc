import Xv6.Virtio.Books

/-! Every step of `virtio_disk.c` keeps its books.

    The books are the invariant of the disk's lock. A process that holds the lock may have taken
    descriptors that are not in a request yet, or the interrupt handler may be halfway through an entry
    of the used ring; the device moves at any time. -/

namespace Xv6.Virtio
set_option linter.unusedSectionVars false
open Monitor Function List Option

variable {P B : Type} {d d' : St P B} {held : List Nat} {skip i : Nat} {b : B} {c : Chain} {f : Flight P B}

/-! ### The outline -/

def Locked : Label B → Prop
  | .idle | .rw _ | .intr => False
  | _ => True

def NoFlight (p : P) (d : St P B) : Prop := ∀ f ∈ d.flight, f.p ≠ p

/-- Process `p` has one request in flight. -/
structure Flies (p : P) (d : St P B) (b : B) (c : Chain) : Prop where
  mem : ⟨p, b, c⟩ ∈ d.flight
  only : ∀ f ∈ d.flight, f.p = p → f = ⟨p, b, c⟩

/-- What process `p` knows at all times. -/
def Own (p : P) (d : St P B) : Label B → Prop
  | .rw r | .loop r | .alloc r _ | .undo r _ | .undoWake r _ | .full r
  | .format r _ | .record r _ | .ring r _ | .avail r _ => NoFlight p d ∧ d.owner r.b = some p
  | .wait b c | .waitSleep b c | .done b c => Flies p d b c
  | .panic _ => False
  | _ => NoFlight p d

/-- `alloc3_desc` has taken `idx` from what it found. -/
structure Found (d : St P B) (idx : List Nat) : Prop where
  found : ∀ i ∈ idx, d.found i = true
  free : ∀ i, d.free i = true ↔ d.found i = true ∧ i ∉ idx

/-- The list is a chain in the descriptor table. -/
def Chained (desc : Nat → Desc B) : List Nat → Prop
  | [] => False
  | [i] => (desc i).flags &&& VRING_DESC_F_NEXT = 0
  | i :: j :: is => (desc i).flags &&& VRING_DESC_F_NEXT ≠ 0 ∧ (desc i).next = j ∧ Chained desc (j :: is)

/-- A request that is complete but for the avail ring. -/
structure Ready (d : St P B) (b : B) (c : Chain) : Prop where
  formatted : Formatted d.desc b c
  info : (d.info c.i0).b = some b
  disk : d.disk b = true

/-- What it knows while it holds the lock. -/
def Here (d : St P B) : Label B → Prop
  | .alloc _ idx => Books d idx 0 ∧ Found d idx ∧ idx.length ≤ 2
  | .undo _ idx | .undoWake _ idx => Books d idx 0 ∧ Found d idx
  | .full _ => Books d [] 0 ∧ d.free = d.found
  | .format _ c => Books d c.all 0
  | .record r c => Books d c.all 0 ∧ Formatted d.desc r.b c
  | .ring r c => Books d c.all 0 ∧ Ready d r.b c
  | .avail r c => Books d c.all 0 ∧ Ready d r.b c ∧ d.avail.ring (d.avail.idx.toNat % NUM) = c.i0
  | .done b _ => Books d [] 0 ∧ d.disk b = false
  | .chain i | .chainWake (some i) => ∃ is, Books d (i :: is) 0 ∧ Chained d.desc (i :: is)
  | .ientry => Books d [] 0 ∧ d.usedIdx ≠ d.used.idx
  | .iwake _ | .inext => Books d [] 1
  | .panic _ => False
  | _ => Books d [] 0

def outline : Outline P (St P B) (Chan B) (Label B) where
  locked := Locked
  inv := fun d => Books d [] 0
  own := fun p k d => Own p d k
  pre := fun _ k d => Here d k
  wait := fun _ _ => True
  may := fun _ _ _ _ => True
  sees := fun _ _ _ => True

variable {p q : P} {k k' : Label B} {r : Args B}

/-- A step under the lock. -/
theorem goes (hk : Locked k) (hk' : Locked k') (hown : Own p d' k') (hhere : Here d' k')
    (hothers : ∀ q, q ≠ p → ∀ k, Own q d k → Own q d' k) : outline.Goes p k d d' k' where
  own := hown
  locked := iff_of_true hk hk'
  pre := fun _ => hhere
  may := fun _ _ _ => trivial
  others := hothers
  calm := fun hl => absurd hk hl

/-- What a process knows is about its own request and the buffers it has locked. -/
theorem own_mono (hflight : ∀ f, f.p = q → (f ∈ d'.flight ↔ f ∈ d.flight))
    (howner : ∀ b, d.owner b = some q → d'.owner b = some q) : Own q d k → Own q d' k := by
  have hno : NoFlight q d → NoFlight q d' := fun h f hf hq => h f ((hflight f hq).mp hf) hq
  intro hown
  cases k with
  | rw | loop | alloc | undo | undoWake | full | format | record | ring | avail => exact ⟨hno hown.1, howner _ hown.2⟩
  | wait | waitSleep | done =>
    exact ⟨(hflight _ rfl).mpr hown.mem, fun f hf hq => hown.only f ((hflight f hq).mp hf) hq⟩
  | panic => exact hown
  | _ => exact hno hown

theorem own_congr (hflight : d'.flight = d.flight) (howner : d'.owner = d.owner) : Own q d k → Own q d' k :=
  own_mono (fun f _ => by rw [hflight]) fun b h => by rw [howner]; exact h

/-! The device, and a process that locks a buffer, leave the driver's own data alone. -/

structure Steady (d d' : St P B) : Prop where
  desc : d'.desc = d.desc
  free : d'.free = d.free
  found : d'.found = d.found
  disk : d'.disk = d.disk
  flight : d'.flight = d.flight
  avail : d'.avail = d.avail
  usedIdx : d'.usedIdx = d.usedIdx
  info : ∀ i, (d'.info i).b = (d.info i).b

theorem steady {e : Device} (hstep : device e d = some d') : Steady d d' ∧ d'.owner = d.owner := by
  cases e with
  | take =>
    simp only [device] at hstep
    split at hstep
    · cases hstep
    · obtain rfl := some.inj hstep
      exact ⟨⟨rfl, rfl, rfl, rfl, rfl, rfl, rfl, fun _ => rfl⟩, rfl⟩
  | serve h =>
    simp only [device] at hstep
    split at hstep
    · split at hstep
      · rename_i i _
        obtain rfl := some.inj hstep
        refine ⟨⟨rfl, rfl, rfl, rfl, rfl, rfl, rfl, fun j => ?_⟩, rfl⟩
        change (update d.info i { d.info i with status := 0 } j).b = _
        rw [apply_update (fun _ => Info.b), update_eq_self]
      · obtain rfl := some.inj hstep
        exact ⟨⟨rfl, rfl, rfl, rfl, rfl, rfl, rfl, fun _ => rfl⟩, rfl⟩
    · cases hstep
  | append h =>
    simp only [device] at hstep
    split at hstep
    · obtain rfl := some.inj hstep
      exact ⟨⟨rfl, rfl, rfl, rfl, rfl, rfl, rfl, fun _ => rfl⟩, rfl⟩
    · cases hstep

theorem Books.device {e : Device} (H : Books d held skip) (hskip : skip ≤ 1) (hstep : device e d = some d') :
    Books d' held skip :=
  match e with
  | .take => H.take hstep
  | .serve _ => H.serve hstep
  | .append _ => H.append hskip hstep

/-- An entry of the used ring stays until the interrupt handler has seen it. -/
theorem Books.entry_stays {e : Device} (H : Books d held 0) (hne : d.usedIdx ≠ d.used.idx) (hstep : Virtio.device e d = some d') :
    d'.usedIdx ≠ d'.used.idx := by
  cases e with
  | take =>
    simp only [Virtio.device] at hstep
    split at hstep
    · cases hstep
    · obtain rfl := some.inj hstep
      exact hne
  | serve h =>
    simp only [Virtio.device] at hstep
    split at hstep
    · split at hstep <;> (obtain rfl := some.inj hstep; exact hne)
    · cases hstep
  | append h =>
    simp only [Virtio.device] at hstep
    split at hstep
    · obtain rfl := some.inj hstep
      have hdist : (d.used.idx + 1 - d.usedIdx).toNat = (d.used.idx - d.usedIdx).toNat + 1 :=
        Ring.toNat_dist_succ16 (lt_of_le_of_lt H.length_unseen (by decide))
      exact fun heq => absurd (Ring.toNat_dist_eq_zero16.mpr heq) (by rw [hdist]; exact Nat.succ_ne_zero _)
    · cases hstep

theorem Ready.steady (h : Ready d b c) (hs : Steady d d') : Ready d' b c :=
  ⟨hs.desc ▸ h.formatted, (hs.info _).trans h.info, hs.disk ▸ h.disk⟩

theorem Found.steady {idx : List Nat} (h : Found d idx) (hs : Steady d d') : Found d' idx :=
  ⟨hs.found ▸ h.found, fun i => by rw [hs.free, hs.found]; exact h.free i⟩

theorem here_mono (hs : Steady d d') (hbooks : ∀ {held skip}, skip ≤ 1 → Books d held skip → Books d' held skip)
    (hentry : Books d [] 0 → d.usedIdx ≠ d.used.idx → d'.usedIdx ≠ d'.used.idx) (h : Here d k) : Here d' k := by
  have hbooks0 : ∀ {held}, Books d held 0 → Books d' held 0 := hbooks (Nat.zero_le _)
  cases k with
  | alloc => exact ⟨hbooks0 h.1, h.2.1.steady hs, h.2.2⟩
  | undo | undoWake => exact ⟨hbooks0 h.1, h.2.steady hs⟩
  | full => exact ⟨hbooks0 h.1, by rw [hs.free, hs.found]; exact h.2⟩
  | record => exact ⟨hbooks0 h.1, hs.desc ▸ h.2⟩
  | ring => exact ⟨hbooks0 h.1, h.2.steady hs⟩
  | avail => exact ⟨hbooks0 h.1, h.2.1.steady hs, hs.avail ▸ h.2.2⟩
  | done => exact ⟨hbooks0 h.1, hs.disk ▸ h.2⟩
  | chain =>
    obtain ⟨is, hb, hc⟩ := h
    exact ⟨is, hbooks0 hb, hs.desc ▸ hc⟩
  | chainWake nxt =>
    cases nxt with
    | none => exact hbooks0 h
    | some i =>
      obtain ⟨is, hb, hc⟩ := h
      exact ⟨is, hbooks0 hb, hs.desc ▸ hc⟩
  | ientry => exact ⟨hbooks0 h.1, hentry h.1 h.2⟩
  | iwake | inext => exact hbooks le_rfl h
  | panic => exact h
  | _ => exact hbooks0 h

/-! ### Every instruction respects the outline -/

attribute [local simp] virtioDiskInit

section Respects
variable [DecidableEq P] [DecidableEq B]

/-- The owner of a buffer that has no request in flight changes. -/
theorem calm_reowner {o : Option P} (hb : ∀ held skip, Books d held skip → ∀ f ∈ d.flight, f.b ≠ b) :
    outline.Calm (· = p) d { d with owner := update d.owner b o } := by
  have hbooks : ∀ {held skip}, Books d held skip → Books { d with owner := update d.owner b o } held skip := fun H =>
    ⟨H.nodup, H.lt, H.free, H.formatted, H.info, H.bufs, fun f hf => by
      change update d.owner b o f.b = _
      rw [update_of_ne (hb _ _ H f hf)]
      exact H.owner f hf, H.active, H.heads, H.status, H.submitted, H.completed, H.seen⟩
  exact ⟨hbooks, fun _ _ => trivial,
    fun _ _ k => here_mono ⟨rfl, rfl, rfl, rfl, rfl, rfl, rfl, fun _ => rfl⟩ (fun _ => hbooks) fun _ => id,
    fun _ _ _ _ _ => trivial⟩

theorem respects_idle : (outline : Outline P (St P B) (Chan B) (Label B)).Respects p .idle (instr p .idle) := by
  intro x d hown _
  have hno : NoFlight p d := hown
  cases x with
  | lock b =>
    dsimp only
    split
    · rename_i hfree
      refine ⟨hno, Iff.rfl, False.elim, False.elim, fun q _ k => own_mono (fun _ _ => Iff.rfl) fun b' hb' => ?_,
        fun _ => calm_reowner fun _ _ H f hf heq => ?_⟩
      · change update d.owner b (some p) b' = some q
        rwa [update_of_ne]
        rintro rfl
        rw [hfree] at hb'
        cases hb'
      · have := H.owner f hf
        rw [heq, hfree] at this
        cases this
    · exact .wander id id hno
  | unlock b =>
    dsimp only
    split
    · rename_i hmine
      refine ⟨hno, Iff.rfl, False.elim, False.elim, fun q hq k => own_mono (fun _ _ => Iff.rfl) fun b' hb' => ?_,
        fun _ => calm_reowner fun _ _ H f hf heq => ?_⟩
      · change update d.owner b none b' = some q
        rwa [update_of_ne]
        rintro rfl
        exact hq (some.inj (hb'.symm.trans hmine))
      · have := H.owner f hf
        rw [heq, hmine] at this
        exact hno f hf (some.inj this).symm
    · exact .wander id id hno
  | rw r =>
    dsimp only
    split
    · exact .wander id id ⟨hno, ‹_›⟩
    · exact .wander id id hno
  | intr => exact .wander id id hno

theorem allocDesc_some (h : allocDesc d = some (i, d')) :
    d.free i = true ∧ d' = { d with free := update d.free i false } := by
  obtain ⟨j, hj, heq⟩ := map_eq_some_iff.mp h
  obtain ⟨rfl, rfl⟩ := Prod.mk.inj heq
  exact ⟨find?_some hj, rfl⟩

/-- A descriptor that is held can be freed. -/
theorem freeDesc_held (H : Books d (i :: held) skip) :
    freeDesc d i = .ok { d with desc := update d.desc i ⟨.null, 0, 0, 0⟩, free := update d.free i true } := by
  have hlt : ¬i ≥ NUM := Nat.not_le.mpr (H.lt i (mem_cons_self ..))
  have hfree : ¬d.free i = true := fun h => ((H.free i).mp h).2 (mem_cons_self ..)
  rw [freeDesc, if_neg hlt, if_neg hfree]

theorem Found.take {idx : List Nat} (h : Found d idx) (hi : d.free i = true) :
    Found { d with free := update d.free i false } (idx ++ [i]) := by
  obtain ⟨hfound, _⟩ := (h.free i).mp hi
  refine ⟨fun j hj => ?_, fun j => ?_⟩
  · rcases mem_append.mp hj with hj | hj
    · exact h.found j hj
    · rw [mem_singleton.mp hj]; exact hfound
  · change update d.free i false j = true ↔ d.found j = true ∧ j ∉ idx ++ [i]
    rcases eq_or_ne j i with rfl | hne
    · simp
    · rw [update_of_ne hne, h.free j, mem_append, mem_singleton, or_iff_left hne]

theorem Found.give {is : List Nat} {x : Desc B} (h : Found d (i :: is)) (hi : i ∉ is) :
    Found { d with desc := update d.desc i x, free := update d.free i true } is := by
  refine ⟨fun j hj => h.found j (mem_cons_of_mem _ hj), fun j => ?_⟩
  change update d.free i true j = true ↔ d.found j = true ∧ j ∉ is
  rcases eq_or_ne j i with rfl | hne
  · rw [update_self]
    exact iff_of_true rfl ⟨h.found j (mem_cons_self ..), hi⟩
  · rw [update_of_ne hne, h.free j, mem_cons, or_iff_right hne]

theorem respects_alloc (idx : List Nat) :
    outline.Respects p (.alloc r idx) (instr p (.alloc r idx)) := by
  intro x d hown hpre
  obtain ⟨hbooks, hfound, hlen⟩ := hpre trivial
  dsimp only
  cases ha : allocDesc d with
  | none => exact goes trivial trivial hown ⟨hbooks, hfound⟩ fun _ _ _ => id
  | some res =>
    obtain ⟨i, d'⟩ := res
    obtain ⟨hi, rfl⟩ := allocDesc_some ha
    have hbooks' := (hbooks.hold hi).perm (perm_append_singleton i idx).symm
    match idx, hlen with
    | [], _ => exact goes trivial trivial hown ⟨hbooks', hfound.take hi, by simp⟩ fun _ _ _ => own_congr rfl rfl
    | [i0], _ => exact goes trivial trivial hown ⟨hbooks', hfound.take hi, by simp⟩ fun _ _ _ => own_congr rfl rfl
    | [i0, i1], _ => exact goes trivial trivial hown hbooks' fun _ _ _ => own_congr rfl rfl
    | i0 :: i1 :: i2 :: is, hlen => simp at hlen

theorem respects_undo (idx : List Nat) :
    outline.Respects p (.undo r idx) (instr p (.undo r idx)) := by
  intro x d hown hpre
  obtain ⟨hbooks, hfound⟩ := hpre trivial
  cases idx with
  | nil =>
    refine goes trivial trivial hown ⟨hbooks, funext fun i => ?_⟩ fun _ _ _ => id
    exact Bool.eq_iff_iff.mpr ((hfound.free i).trans (and_iff_left (not_mem_nil)))
  | cons i is =>
    dsimp only
    rw [freeDesc_held hbooks]
    have hi : i ∉ is := fun h => (nodup_cons.mp hbooks.nodup).1 (mem_append_left _ h)
    exact goes trivial trivial hown ⟨hbooks.release, hfound.give hi⟩ fun _ _ _ => own_congr rfl rfl

theorem Books.format (H : Books d c.all skip) : Books (format d r c) c.all skip := by
  have hout : ∀ j ∈ c.all, ∀ i ∈ d.flying, i ≠ j := fun j hj i hi heq => H.not_flying hj (heq ▸ hi)
  have h0 := hout c.i0 (by simp [Chain.all])
  have h1 := hout c.i1 (by simp [Chain.all])
  have h2 := hout c.i2 (by simp [Chain.all])
  have H' := (H.redesc (Virtio.format d r c).desc fun i hi => ?_).reinfo (Virtio.format d r c).info fun i hi => ?_
  · exact ⟨H'.nodup, H'.lt, H'.free, H'.formatted, H'.info, H'.bufs, H'.owner, H'.active, H'.heads, H'.status, H'.submitted,
      H'.completed, H'.seen⟩
  · simp only [Virtio.format]
    rw [update_of_ne (h2 i hi), update_of_ne (h1 i hi), update_of_ne (h0 i hi)]
  · exact update_of_ne (h0 i hi) ..

theorem formatted_format (hnodup : c.all.Nodup) : Formatted (format d r c).desc r.b c := by
  simp only [Chain.all, nodup_cons, mem_cons, not_mem_nil, or_false, not_or] at hnodup
  obtain ⟨⟨h01, h02⟩, h12, _⟩ := hnodup
  have hd0 : (format d r c).desc c.i0 = ⟨.ops c.i0, 16, VRING_DESC_F_NEXT, c.i1⟩ := by
    simp only [format]
    rw [update_of_ne h02, update_of_ne h01, update_self]
  have hd1 : (format d r c).desc c.i1 =
      ⟨.data r.b, UInt32.ofNat BSIZE, (if r.write then 0 else VRING_DESC_F_WRITE) ||| VRING_DESC_F_NEXT, c.i2⟩ := by
    simp only [format]
    rw [update_of_ne h12, update_self]
  have hd2 : (format d r c).desc c.i2 = ⟨.status c.i0, 1, VRING_DESC_F_WRITE, 0⟩ := by
    simp only [format]
    rw [update_self]
  constructor
  · rw [hd0]
  · rw [hd0]; exact (by decide : VRING_DESC_F_NEXT &&& VRING_DESC_F_NEXT ≠ 0)
  · rw [hd1]
  · rw [hd1]; dsimp only; cases r.write <;> decide
  · rw [hd1]
  · rw [hd2]; exact (by decide : VRING_DESC_F_WRITE &&& VRING_DESC_F_NEXT = 0)
  · rw [hd2]

theorem respects_format : outline.Respects p (.format r c) (instr p (.format r c)) := by
  intro x d hown hpre
  have hbooks : Books d c.all 0 := hpre trivial
  exact goes trivial trivial hown ⟨hbooks.format, formatted_format (nodup_append.mp hbooks.nodup).1⟩
    fun _ _ _ => own_congr rfl rfl

/-- A buffer that its process has locked has no request in flight but that process's. -/
theorem Books.locked (H : Books d held skip) (hno : NoFlight p d) (howner : d.owner b = some p) : ∀ f ∈ d.flight, f.b ≠ b := by
  rintro f hf rfl
  exact hno f hf (some.inj ((H.owner f hf).symm.trans howner))

theorem respects_record : outline.Respects p (.record r c) (instr p (.record r c)) := by
  intro x d hown hpre
  obtain ⟨hbooks, hfmt⟩ := hpre trivial
  have hout : ∀ i ∈ d.flying, i ≠ c.i0 := fun i hi heq => hbooks.not_flying (mem_cons_self ..) (heq ▸ hi)
  have hbooks' := (hbooks.redisk (x := true) (hbooks.locked hown.1 hown.2)).reinfo
    (update d.info c.i0 { d.info c.i0 with b := some r.b }) fun i hi => update_of_ne (hout i hi) ..
  refine goes trivial trivial hown ⟨hbooks', hfmt, ?_, ?_⟩ fun _ _ _ => own_congr rfl rfl
  · change (update d.info c.i0 _ c.i0).b = _
    rw [update_self]
  · exact update_self ..

theorem respects_ring : outline.Respects p (.ring r c) (instr p (.ring r c)) := by
  intro x d hown hpre
  obtain ⟨hbooks, hready⟩ := hpre trivial
  exact goes trivial trivial hown ⟨hbooks.setRing, ⟨hready.formatted, hready.info, hready.disk⟩, update_self ..⟩
    fun _ _ _ => own_congr rfl rfl

theorem respects_avail : outline.Respects p (.avail r c) (instr p (.avail r c)) := by
  intro x d hown hpre
  obtain ⟨hno, howner⟩ := hown
  obtain ⟨hbooks, hready, hring⟩ := hpre trivial
  refine goes trivial trivial ⟨mem_cons_self .., fun f hf hp => ?_⟩
    (hbooks.publish (f := ⟨p, r.b, c⟩) hring hready.formatted hready.info howner hready.disk (hbooks.locked hno howner))
    fun q hq k => own_mono (fun f hf => ?_) fun _ => id
  · exact (mem_cons.mp hf).resolve_right fun h => hno f h hp
  · refine mem_cons.trans (or_iff_right ?_)
    rintro rfl
    exact hq hf.symm

theorem respects_done : outline.Respects p (.done b c) (instr p (.done b c)) := by
  intro x d hown hpre
  obtain ⟨hbooks, hdisk⟩ := hpre trivial
  have hflies : Flies p d b c := hown
  have hmem : ∀ f, f ∈ (d.forget p c).flight ↔ f ∈ d.flight ∧ f.p ≠ p := fun f => by simp [St.forget]
  have hfmt := hbooks.formatted _ hflies.mem
  refine goes trivial trivial (fun f hf => ((hmem f).mp hf).2)
    ⟨[c.i1, c.i2], hbooks.forget hflies.mem hflies.only hdisk, hfmt.flag0, hfmt.next0, hfmt.flag1, hfmt.next1, hfmt.flag2⟩
    fun q hq k => own_mono (fun f hf => ?_) fun _ => id
  rw [hmem f]
  exact and_iff_left fun hp => hq (hf.symm.trans hp)

theorem chained_congr {desc desc' : Nat → Desc B} :
    ∀ {l : List Nat}, Chained desc l → (∀ i ∈ l, desc' i = desc i) → Chained desc' l
  | [], h, _ => h
  | [i], h, heq => by
    rw [Chained, heq i (mem_cons_self ..)]
    exact h
  | i :: j :: is, ⟨hflag, hnext, hrest⟩, heq => by
    rw [Chained, heq i (mem_cons_self ..)]
    exact ⟨hflag, hnext, chained_congr hrest fun x hx => heq x (mem_cons_of_mem _ hx)⟩

theorem respects_chain : (outline : Outline P (St P B) (Chan B) (Label B)).Respects p (.chain i) (instr p (.chain i)) := by
  intro x d hown hpre
  obtain ⟨is, hbooks, hchained⟩ := hpre trivial
  have hi : i ∉ is := fun h => (nodup_cons.mp hbooks.nodup).1 (mem_append_left _ h)
  dsimp only
  rw [freeDesc_held hbooks]
  cases is with
  | nil =>
    have hflag : ¬(d.desc i).flags &&& VRING_DESC_F_NEXT ≠ 0 := not_not.mpr hchained
    dsimp only
    rw [if_neg hflag]
    exact goes trivial trivial hown hbooks.release fun _ _ _ => own_congr rfl rfl
  | cons j is =>
    obtain ⟨hflag, rfl, hrest⟩ := hchained
    dsimp only
    rw [if_pos hflag]
    refine goes trivial trivial hown ⟨is, hbooks.release, chained_congr hrest fun x hx => ?_⟩ fun _ _ _ => own_congr rfl rfl
    exact update_of_ne (by rintro rfl; exact hi hx) ..

theorem respects_ientry : (outline : Outline P (St P B) (Chan B) (Label B)).Respects p .ientry (instr p .ientry) := by
  intro x d hown hpre
  obtain ⟨hbooks, hne⟩ := hpre trivial
  obtain ⟨f, hf, hhead, hdisk, hstatus⟩ := hbooks.entry hne
  have hlt : ¬f.chain.i0 ≥ NUM := Nat.not_le.mpr (hbooks.lt _ (head_mem_flying hf))
  dsimp only
  rw [← hhead, if_neg hlt, if_neg (not_not.mpr hstatus), hbooks.info f hf]
  exact goes trivial trivial hown (hbooks.clear hne hf hhead) fun _ _ _ => own_congr rfl rfl

theorem enters (hk : Locked k) (hhere : ∀ d : St P B, Books d [] 0 → Here d k) :
    outline.Enters p k :=
  ⟨hk, fun d _ hinv => ⟨hhere d hinv, fun _ _ => trivial⟩⟩

theorem respects_wakeup {ch : Chan B} (hk : Locked k) (hk' : Locked k') (hown : ∀ d : St P B, Own p d k → Own p d k')
    (hhere : ∀ d : St P B, Here d k → Here d k') :
    outline.Respects (X := Input B) p k (.wakeup ch k') :=
  ⟨iff_of_true hk hk', fun d h => ⟨hown d h, fun _ hpre => ⟨hhere d hpre, fun _ _ _ => trivial⟩⟩⟩

theorem respects : ∀ k, (outline : Outline P (St P B) (Chan B) (Label B)).Respects p k (instr p k)
  | .idle => respects_idle
  | .rw _ => ⟨id, fun _ => id, enters trivial fun _ => id⟩
  | .loop _ => fun _ d hown hpre => by
    have hbooks : Books d [] 0 := hpre trivial
    have hbooks' : Books { d with found := d.free } [] 0 :=
      ⟨hbooks.nodup, hbooks.lt, hbooks.free, hbooks.formatted, hbooks.info, hbooks.bufs, hbooks.owner, hbooks.active, hbooks.heads,
        hbooks.status, hbooks.submitted, hbooks.completed, hbooks.seen⟩
    exact goes trivial trivial hown ⟨hbooks', ⟨nofun, fun i => by simp⟩, by simp⟩ fun _ _ _ => own_congr rfl rfl
  | .alloc _ idx => respects_alloc idx
  | .undo _ idx => respects_undo idx
  | .undoWake _ _ => respects_wakeup trivial trivial (fun _ => id) fun _ => id
  | .full _ => ⟨trivial, fun _ hown hpre => ⟨hown, hpre.1, trivial, fun _ _ => trivial⟩, enters trivial fun _ => id⟩
  | .format _ _ => respects_format
  | .record _ _ => respects_record
  | .ring _ _ => respects_ring
  | .avail _ _ => respects_avail
  | .wait b c => fun _ d hown hpre => by
    have hbooks : Books d [] 0 := hpre trivial
    dsimp only
    split
    · exact goes trivial trivial hown hbooks fun _ _ _ => id
    · rename_i hdisk
      exact goes trivial trivial hown ⟨hbooks, Bool.eq_false_iff.mpr hdisk⟩ fun _ _ _ => id
  | .waitSleep _ _ => ⟨trivial, fun _ hown hpre => ⟨hown, hpre, trivial, fun _ _ => trivial⟩, enters trivial fun _ => id⟩
  | .done _ _ => respects_done
  | .chain _ => respects_chain
  | .chainWake none => respects_wakeup trivial trivial (fun _ => id) fun _ => id
  | .chainWake (some _) => respects_wakeup trivial trivial (fun _ => id) fun _ => id
  | .ret => ⟨trivial, id, fun _ hown hpre => ⟨hown, hpre, fun _ _ => trivial⟩⟩
  | .intr => ⟨id, fun _ => id, enters trivial fun _ => id⟩
  | .iloop => fun _ d hown hpre => by
    have hbooks : Books d [] 0 := hpre trivial
    dsimp only
    split
    · exact goes trivial trivial hown ⟨hbooks, ‹_›⟩ fun _ _ _ => id
    · exact goes trivial trivial hown hbooks fun _ _ _ => id
  | .ientry => respects_ientry
  | .iwake _ => respects_wakeup trivial trivial (fun _ => id) fun _ => id
  | .inext => fun _ _ hown hpre => goes trivial trivial hown (hpre trivial).next fun _ _ _ => own_congr rfl rfl
  | .panic _ => fun _ _ _ hpre => (hpre trivial).elim

variable {procs : List P}

theorem valid (hall : ∀ p, p ∈ procs) : (outline : Outline P (St P B) (Chan B) (Label B)).Valid (program procs) where
  all := hall
  instr := fun _ k => respects k
  env := fun _ _ _ hstep => ⟨fun _ _ => own_congr (steady hstep).1.flight (steady hstep).2,
    ⟨fun h => h.device (Nat.zero_le _) hstep, fun _ _ => trivial,
      fun _ _ _ => here_mono (steady hstep).1 (fun hskip H => H.device hskip hstep) fun H hne => H.entry_stays hne hstep,
      fun _ _ _ _ _ => trivial⟩⟩

theorem books_init : Books (virtioDiskInit : St P B) [] 0 where
  nodup := nodup_nil
  lt := nofun
  free := fun i => by simp [St.flying]
  formatted := nofun
  info := nofun
  bufs := nofun
  owner := nofun
  active := by simp [St.active, St.pending, St.unseen]
  heads := fun h => by simp [St.active, St.pending, St.unseen]
  status := fun h hh => by simp [St.unseen] at hh
  submitted := by simp [St.pending]
  completed := by simp [St.unseen]
  seen := Nat.zero_le _

theorem good_init : (outline : Outline P (St P B) (Chan B) (Label B)).Good init :=
  .init id (fun _ => nofun) books_init

/-! ### Main result -/

theorem Here.books (h : Here d k) : ∃ held skip, Books d held skip := by
  cases k with
  | alloc | undo | undoWake | full | record | ring | avail | done | ientry => exact ⟨_, _, h.1⟩
  | chain i =>
    obtain ⟨is, hb, _⟩ := h
    exact ⟨_, _, hb⟩
  | chainWake nxt =>
    cases nxt with
    | none => exact ⟨_, _, h⟩
    | some i =>
      obtain ⟨is, hb, _⟩ := h
      exact ⟨_, _, hb⟩
  | panic => exact h.elim
  | _ => exact ⟨_, _, h⟩

variable {as : List (Act P (Input B) Device)} {s : State P (St P B) (Chan B) (Label B)}

end Respects

end Xv6.Virtio
