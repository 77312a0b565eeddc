import Xv6.Bio.Cache

/-! What ties buffers, holders, disk and `flat` together, whoever runs `commit`.

    Block `n` is in one of four states:

        not cached, or cached and not valid ......... disk n = flat n
        cached, valid, unlocked ..................... data = flat n
        locked, as bread gave it out ................ data = flat n
        locked and stored to ........................ nothing, until log_write or bwrite

    and while nobody holds it, `disk n` may differ from `flat n` only if `n` is pinned, which keeps
    `refcnt` above zero and the buffer away from `bget`'s second loop. -/

namespace Xv6.Bio
set_option linter.unusedSectionVars false
open Function List Option
open Log (Block Area)

variable {P : Type}

/-- The buffer a `bread` under way is to return, and for which block. -/
def Io.wants : Io → Option (Fin NBUF × Nat)
  | .locking i n | .reading i n => some (i, n)
  | _ => none

/-- The buffer a `bread` under way has locked. -/
def Io.reads : Io → Option (Fin NBUF)
  | .reading i _ => some i
  | _ => none

theorem Io.wants_of_reads {io : Io} {i : Fin NBUF} (h : io.reads = some i) : ∃ n, io.wants = some (i, n) := by
  cases io <;> simp_all [Io.reads, Io.wants]

/-- References to buffer `j` that a `bread` or `brelse` under way counts for. -/
def Io.refs : Io → Fin NBUF → Nat
  | .idle, _ => 0
  | .locking i _, j | .reading i _, j | .dropping i, j => if i = j then 1 else 0

/-- A held buffer counts once. -/
def Mark.refs : Option Mark → Nat
  | none => 0
  | some _ => 1

/-- References to buffer `i` that process `p` counts for. -/
def Sys.refs (s : Sys P) (i : Fin NBUF) (p : P) : Nat := (s.io p).refs i + Mark.refs (s.held p i)

/-- A process in the middle of `io` that holds `held` has the sleep-lock of buffer `i`. -/
def Locks (io : Io) (held : Fin NBUF → Option Mark) (i : Fin NBUF) : Prop :=
  io.reads = some i ∨ (held i).isSome

/-- Pins on buffer `i`. -/
def Sys.pinned (s : Sys P) (i : Fin NBUF) : Nat := if s.dev i = ROOTDEV then s.pins.count (s.blockno i) else 0

/-- A valid buffer of block `n` with contents `data`, while its holder has the mark `m` on it. -/
structure MarkOk (pins : List Nat) (disk flat : Nat → Block) (n : Nat) (data : Block) (m : Mark) : Prop where
  fresh : m.touched = false → data = flat n
  passed : m.changed = false → n ∈ pins ∨ disk n = data
  synced : m.synced = true → disk n = data

theorem MarkOk.congr {pins : List Nat} {disk flat disk' flat' : Nat → Block} {n : Nat} {data : Block} {m : Mark}
    (h : MarkOk pins disk flat n data m) (hdisk : disk' n = disk n) (hflat : flat' n = flat n) :
    MarkOk pins disk' flat' n data m :=
  ⟨fun hm => (h.fresh hm).trans hflat.symm, fun hm => (h.passed hm).imp_right hdisk.trans,
    fun hm => hdisk.trans (h.synced hm)⟩

/-- Between any two steps of the cache. -/
structure Core [Fintype P] (s : Sys P) : Prop where
  all : ∀ i, i ∈ s.lru
  uniq : ∀ i j n, s.Caches i n → s.Caches j n → i = j
  refs : ∀ i, s.refcnt i = ∑ p, s.refs i p + s.pinned i
  owner : ∀ p i, s.owner i = some p ↔ Locks (s.io p) (s.held p) i
  wants : ∀ p i n, (s.io p).wants = some (i, n) → s.Caches i n
  reads : ∀ p i, (s.io p).reads = some i → s.valid i = false
  heldOf : ∀ p i m, s.held p i = some m → s.dev i = ROOTDEV ∧ s.valid i = true
  mark : ∀ p i m, s.held p i = some m → MarkOk s.pins s.disk s.flat (s.blockno i) (s.data i) m
  free : ∀ i n, s.Caches i n → s.owner i = none → s.valid i = true → s.data i = s.flat n
  stale : ∀ i n, s.Caches i n → s.valid i = false → s.disk n = s.flat n
  settled : ∀ n, n ∉ s.pins → (∀ i, s.Caches i n → s.owner i = none) → s.disk n = s.flat n
  pins : ∀ n ∈ s.pins, ∃ i, s.Caches i n ∧ s.valid i = true

attribute [local simp] Io.refs Locks Mark.refs Sys.decRef Sys.incRef Sys.init Sys.lock Sys.refs Sys.setIo Sys.setMark

section
variable [Fintype P]

theorem core_init (d : Nat → Block) : Core (Sys.init d : Sys P) where
  all := by simp
  uniq := by simp [ROOTDEV]
  refs := by simp [Sys.pinned, ROOTDEV]
  owner := by simp [Io.reads]
  wants := by simp [Io.wants]
  reads := by simp [Io.reads]
  heldOf := by simp
  mark := by simp
  free := by simp
  stale := by simp
  settled := by simp
  pins := by simp

variable [DecidableEq P] {s : Sys P} {p : P} {i : Fin NBUF} {n : Nat}

/-- `refcnt` stays right when process `p` alone changes its references. -/
theorem Core.recount (h : Core s) {s' : Sys P} (hother : ∀ j q, q ≠ p → s'.refs j q = s.refs j q)
    (hp : ∀ j, s'.refcnt j + s.refs j p + s.pinned j = s.refcnt j + s'.refs j p + s'.pinned j) (j : Fin NBUF) :
    s'.refcnt j = ∑ q, s'.refs j q + s'.pinned j := by
  have hsum := Run.sum_move (f := s.refs j) (g := s'.refs j) p (hother j)
  have := h.refs j
  have := hp j
  omega

/-- A process that neither was nor gets to be reading from disk locks what it did. -/
theorem locks_update {io : Io} (hold : (s.io p).reads = none) (hnew : io.reads = none) (q : P) (j : Fin NBUF) :
    Locks (update s.io p io q) (s.held q) j ↔ Locks (s.io q) (s.held q) j := by
  by_cases hq : q = p
  · subst hq; simp [hold, hnew]
  · rw [update_of_ne hq]

theorem Core.recountIo (h : Core s) {s' : Sys P} (hpin : ∀ j, s'.pinned j = s.pinned j)
    (hother : ∀ j q, q ≠ p → s'.refs j q = s.refs j q)
    (hi : s'.refcnt i + s.refs i p = s.refcnt i + s'.refs i p)
    (hp : ∀ j, j ≠ i → s'.refcnt j + s.refs j p = s.refcnt j + s'.refs j p) (j : Fin NBUF) :
    s'.refcnt j = ∑ q, s'.refs j q + s'.pinned j := by
  refine h.recount hother (fun j => ?_) j
  have := hpin j
  rcases eq_or_ne j i with rfl | hj
  · omega
  · have := hp j hj
    omega

theorem Core.wants_update (h : Core s) {io : Io} (hnew : ∀ j k, io.wants = some (j, k) → s.Caches j k) :
    ∀ q j k, (update s.io p io q).wants = some (j, k) → s.Caches j k :=
  (forall_update_iff s.io fun _ io => ∀ j k, io.wants = some (j, k) → s.Caches j k).mpr ⟨hnew, fun q _ => h.wants q⟩

theorem Core.reads_update (h : Core s) {io : Io} (hnew : ∀ j, io.reads = some j → s.valid j = false) :
    ∀ q j, (update s.io p io q).reads = some j → s.valid j = false :=
  (forall_update_iff s.io fun _ io => ∀ j, io.reads = some j → s.valid j = false).mpr ⟨hnew, fun q _ => h.reads q⟩

/-- `bget` finds the block cached. -/
theorem Core.hit (h : Core s) (hio : s.io p = .idle) (hi : s.Caches i n) :
    Core ((s.incRef i).setIo p (.locking i n)) :=
  { h with
    refs := h.recountIo (p := p) (i := i) (fun _ => rfl) (fun j q hq => by simp [hq]) (by simp [hio]; omega)
      fun j hj => by simp [hio, hj, Ne.symm hj]
    owner := fun q j => (h.owner q j).trans (locks_update (by simp [hio, Io.reads]) rfl q j).symm
    wants := h.wants_update (by simpa [Io.wants] using hi)
    reads := h.reads_update nofun }

/-- Who asks for, holds or drops a buffer counts for a reference to it. -/
theorem one_le_refs {q : P} (h : (∃ k, (s.io q).wants = some (i, k)) ∨ (s.held q i).isSome ∨ s.io q = .dropping i) :
    1 ≤ s.refs i q := by
  rcases h with ⟨k, h⟩ | h | h
  · cases hio : s.io q <;> simp_all [Io.wants]
  · obtain ⟨m, hm⟩ := isSome_iff_exists.mp h
    simp [hm]
  · simp [h]

theorem Core.refs_le (h : Core s) (q : P) (i : Fin NBUF) : s.refs i q ≤ s.refcnt i := by
  have := Finset.single_le_sum (f := s.refs i) (fun _ _ => Nat.zero_le _) (Finset.mem_univ q)
  have := h.refs i
  omega

/-- A buffer with `refcnt = 0` is nobody's. -/
theorem Core.unused (h : Core s) (hi : s.refcnt i = 0) (q : P) :
    (∀ k, (s.io q).wants ≠ some (i, k)) ∧ s.held q i = none ∧ s.owner i = none ∧ s.pinned i = 0 := by
  have hzero : ∀ r, s.refs i r = 0 := fun r => by have := h.refs_le r i; omega
  have hheld : ∀ r, s.held r i = none := fun r => by
    by_contra hr
    have := one_le_refs (s := s) (i := i) (q := r) (Or.inr (Or.inl (isSome_iff_ne_none.mpr hr)))
    have := hzero r; omega
  have hwants : ∀ r k, (s.io r).wants ≠ some (i, k) := fun r k hr => by
    have := one_le_refs (s := s) (i := i) (q := r) (Or.inl ⟨k, hr⟩)
    have := hzero r; omega
  refine ⟨hwants q, hheld q, ?_, by have := h.refs i; omega⟩
  by_contra ho
  obtain ⟨r, hr⟩ := ne_none_iff_exists'.mp ho
  rcases (h.owner r i).mp hr with hr | hr
  · exact (Io.wants_of_reads hr).elim fun k hk => hwants r k hk
  · rw [hheld r] at hr; cases hr

attribute [local simp] Sys.recycle

/-- `bget` recycles buffer `i`, which nobody has a reference to. -/
theorem Core.recycle (h : Core s) (hio : s.io p = .idle) (hmiss : ∀ j, ¬ s.Caches j n)
    (hi : s.refcnt i = 0) : Core ((s.recycle i n).setIo p (.locking i n)) := by
  have hn : n ∉ s.pins := fun hn => (h.pins n hn).elim fun j hj => hmiss j hj.1
  have hflat : s.disk n = s.flat n := h.settled n hn fun j hj => absurd hj (hmiss j)
  have hne : ∀ q j k, (s.io q).wants = some (j, k) → j ≠ i := by
    rintro q j k hq rfl; exact (h.unused hi q).1 k hq
  have hheld : ∀ q j m, s.held q j = some m → j ≠ i := by
    rintro q j m hq rfl; rw [(h.unused hi q).2.1] at hq; cases hq
  -- the buffers that cache a block now
  have hcaches : ∀ {j k}, ((s.recycle i n).setIo p (.locking i n)).Caches j k →
      j = i ∧ k = n ∨ j ≠ i ∧ k ≠ n ∧ s.Caches j k := by
    intro j k hj
    by_cases hji : j = i
    · subst hji
      simp [Sys.Caches] at hj
      exact Or.inl ⟨rfl, hj.symm⟩
    · simp only [Sys.Caches, Sys.setIo, Sys.recycle, update_of_ne hji] at hj
      exact Or.inr ⟨hji, fun hk => hmiss j (hk ▸ hj), hj⟩
  have hold : ∀ {j k}, j ≠ i → s.Caches j k → ((s.recycle i n).setIo p (.locking i n)).Caches j k := by
    intro j k hji hj
    simpa only [Sys.Caches, Sys.setIo, Sys.recycle, update_of_ne hji] using hj
  have hvalid : ∀ {j}, j ≠ i → ((s.recycle i n).setIo p (.locking i n)).valid j = s.valid j :=
    fun hji => update_of_ne hji ..
  exact
  { h with
    uniq := by
      intro j j' k hj hj'
      rcases hcaches hj with ⟨rfl, rfl⟩ | ⟨hji, hk, hj⟩ <;> rcases hcaches hj' with ⟨rfl, hk'⟩ | ⟨hji', hk', hj'⟩
      · rfl
      · exact absurd rfl hk'
      · exact absurd hk' hk
      · exact h.uniq j j' k hj hj'
    refs := by
      refine h.recount (p := p) (fun j q hq => ?_) fun j => ?_
      · simp [hq]
      · by_cases hji : j = i
        · subst hji
          have hcount := count_eq_zero.mpr hn
          simp [Sys.pinned, hi, hio, hcount]
          have := (h.unused hi p).2.2.2
          simp [Sys.pinned] at this
          grind
        · simp [Sys.pinned, hio, hji, Ne.symm hji]
    owner := fun q j => (h.owner q j).trans (locks_update (by simp [hio, Io.reads]) rfl q j).symm
    wants := by
      refine (forall_update_iff s.io fun _ io => ∀ j k, io.wants = some (j, k) →
        ((s.recycle i n).setIo p (.locking i n)).Caches j k).mpr ⟨?_, fun q _ j k hq => ?_⟩
      · simp [Io.wants, Sys.Caches]
      · exact hold (hne q j k hq) (h.wants q j k hq)
    reads := by
      refine (forall_update_iff s.io fun _ io => ∀ j, io.reads = some j →
        ((s.recycle i n).setIo p (.locking i n)).valid j = false).mpr ⟨by simp [Io.reads], fun q _ j hq => ?_⟩
      obtain ⟨k, hk⟩ := Io.wants_of_reads hq
      exact (hvalid (hne q j k hk)).trans (h.reads q j hq)
    heldOf := by
      intro q j m hq
      have hji := hheld q j m hq
      exact ⟨(update_of_ne hji ..).trans (h.heldOf q j m hq).1, (hvalid hji).trans (h.heldOf q j m hq).2⟩
    mark := by
      intro q j m hq
      have hblk : (update s.blockno i n) j = s.blockno j := update_of_ne (hheld q j m hq) ..
      simpa only [Sys.setIo, Sys.recycle, hblk] using h.mark q j m hq
    free := by
      intro j k hj ho hv
      rcases hcaches hj with ⟨rfl, -⟩ | ⟨hji, -, hj⟩
      · simp at hv
      · exact h.free j k hj ho ((hvalid hji).symm.trans hv)
    stale := by
      intro j k hj hv
      rcases hcaches hj with ⟨-, rfl⟩ | ⟨hji, -, hj⟩
      · exact hflat
      · exact h.stale j k hj ((hvalid hji).symm.trans hv)
    settled := by
      intro k hk ho
      refine h.settled k hk fun j hj => ?_
      by_cases hji : j = i
      · rw [hji]; exact (h.unused hi p).2.2.1
      · exact ho j (hold hji hj)
    pins := by
      intro k hk
      obtain ⟨j, hj, hv⟩ := h.pins k hk
      have hji : j ≠ i := by
        rintro rfl
        have hpin := (h.unused hi p).2.2.2
        rw [Sys.pinned, if_pos hj.1, hj.2] at hpin
        exact count_eq_zero.mp hpin hk
      exact ⟨j, hold hji hj, (hvalid hji).trans hv⟩ }

/-- A buffer is unlocked as long as nobody's `io` or hold says otherwise, so a new lock is the only one. -/
theorem Core.lock_owner (h : Core s) (ho : s.owner i = none) (q : P) (j : Fin NBUF) (io : Io)
    (held : Fin NBUF → Option Mark) (hnew : ∀ k, Locks io held k ↔ k = i ∨ Locks (s.io p) (s.held p) k) :
    update s.owner i (some p) j = some q ↔
      Locks (update s.io p io q) (update s.held p held q) j := by
  have hfree : ∀ r, ¬ Locks (s.io r) (s.held r) i := fun r hr => by
    rw [(h.owner r i).mpr hr] at ho; cases ho
  by_cases hq : q = p
  · subst hq
    rw [update_self, update_self, hnew]
    by_cases hj : j = i
    · simp [hj]
    · rw [update_of_ne hj, h.owner]; simp [hj]
  · rw [update_of_ne hq, update_of_ne hq]
    by_cases hj : j = i
    · subst hj
      simp only [update_self, some.injEq, Ne.symm hq, false_iff]
      exact hfree q
    · rw [update_of_ne hj, h.owner]

theorem unlocked_of_update (ho : s.owner i = none) {j : Fin NBUF} (hj : update s.owner i (some p) j = none) :
    s.owner j = none := by
  by_cases hji : j = i
  · rw [hji]; exact ho
  · rwa [update_of_ne hji] at hj

/-- A property of all holds after the mark of one of them is set. -/
theorem forall_setMark {x : Option Mark} {Q : P → Fin NBUF → Mark → Prop} (hnew : ∀ m, x = some m → Q p i m)
    (hold : ∀ q j m, s.held q j = some m → (q = p → j ≠ i) → Q q j m) :
    ∀ q j m, (s.setMark p i x).held q j = some m → Q q j m := by
  intro q j m hq
  by_cases hqp : q = p
  · subst hqp
    by_cases hj : j = i
    · subst hj; exact hnew m (by simpa using hq)
    · exact hold q j m (by simpa [hj] using hq) fun _ => hj
  · exact hold q j m (by simpa [hqp] using hq) fun hqp' => absurd hqp' hqp

/-- A new mark on a buffer that was held anyway moves no lock. -/
theorem locks_setMark {m m' : Mark} (hi : s.held p i = some m) (q : P) (j : Fin NBUF) :
    Locks (s.io q) ((s.setMark p i (some m')).held q) j ↔ Locks (s.io q) (s.held q) j := by
  by_cases hq : q = p
  · subst hq
    by_cases hj : j = i
    · subst hj; simp [hi]
    · simp [hj]
  · simp [hq]

/-- Nor does it move a reference. -/
theorem Core.refs_setMark (h : Core s) {m m' : Mark} (hi : s.held p i = some m) (j : Fin NBUF) :
    s.refcnt j = ∑ q, (s.setMark p i (some m')).refs j q + s.pinned j := by
  have hsame : ∀ q, (s.setMark p i (some m')).refs j q = s.refs j q := fun q => by
    by_cases hq : q = p
    · subst hq
      by_cases hj : j = i
      · subst hj; simp [hi]
      · simp [hj]
    · simp [hq]
  rw [Finset.sum_congr rfl fun q _ => hsame q]
  exact h.refs j

theorem Core.heldOf_setMark (h : Core s) {m m' : Mark} (hi : s.held p i = some m) :
    ∀ q j m₁, (s.setMark p i (some m')).held q j = some m₁ → s.dev j = ROOTDEV ∧ s.valid j = true :=
  forall_setMark (fun _ _ => h.heldOf p i m hi) fun q j m₁ hq _ => h.heldOf q j m₁ hq

theorem Core.owner_of_held (h : Core s) {m : Mark} (hi : s.held p i = some m) : s.owner i = some p :=
  (h.owner p i).mpr (Or.inr (by rw [hi]; rfl))

theorem Core.locked (h : Core s) {m : Mark} (hi : s.held p i = some m) : s.owner i ≠ none := by
  rw [h.owner_of_held hi]; exact some_ne_none p

/-- Another holder's buffer is another buffer, of another block. -/
theorem Core.held_ne (h : Core s) {m : Mark} (hi : s.held p i = some m) {q : P} {j : Fin NBUF} {m' : Mark}
    (hj : s.held q j = some m') (hne : q = p → j ≠ i) : j ≠ i ∧ s.blockno j ≠ s.blockno i := by
  have hji : j ≠ i := by
    rintro rfl
    have := (h.owner_of_held hi).symm.trans (h.owner_of_held hj)
    exact hne (some.inj this).symm rfl
  exact ⟨hji, fun hb => hji (h.uniq j i _ ⟨(h.heldOf q j m' hj).1, hb⟩ ⟨(h.heldOf p i m hi).1, rfl⟩)⟩

theorem Core.caches_of_held (h : Core s) {m : Mark} (hi : s.held p i = some m) : s.Caches i (s.blockno i) :=
  ⟨(h.heldOf p i m hi).1, rfl⟩

attribute [local simp] Sys.give

/-- `bread` locks a valid buffer and returns it. -/
theorem Core.give (h : Core s) (hio : s.io p = .locking i n) (ho : s.owner i = none) (hv : s.valid i = true) :
    Core ((s.lock p i).give p i) := by
  have hi : s.Caches i n := h.wants p i n (by rw [hio]; rfl)
  have hheld : s.held p i = none := by
    by_contra hne
    obtain ⟨m, hm⟩ := ne_none_iff_exists'.mp hne
    rw [h.owner_of_held hm] at ho; cases ho
  have hdata : s.data i = s.flat (s.blockno i) := by rw [hi.2]; exact h.free i n hi ho hv
  have hown := fun {j} => unlocked_of_update (p := p) (j := j) ho
  exact
  { h with
    refs := h.recountIo (p := p) (i := i) (fun _ => rfl) (fun j q hq => by simp [hq]) (by simp [hio, hheld])
      fun j hj => by simp [hio, hj, Ne.symm hj]
    owner := fun q j => h.lock_owner ho q j .idle (update (s.held p) i (some .fresh)) fun k => by
      by_cases hk : k = i
      · subst hk; simp
      · simp [hk, hio, Io.reads]
    wants := h.wants_update nofun
    reads := h.reads_update nofun
    heldOf := forall_setMark (fun _ _ => ⟨hi.1, hv⟩) fun q j m hq _ => h.heldOf q j m hq
    mark := by
      refine forall_setMark (fun m hm => ?_) fun q j m hq _ => h.mark q j m hq
      obtain rfl := some.inj hm
      refine ⟨fun _ => hdata, fun _ => ?_, fun hs => absurd hs (by decide)⟩
      by_cases hpin : s.blockno i ∈ s.pins
      · exact Or.inl hpin
      · refine Or.inr ((h.settled _ hpin fun j hj => ?_).trans hdata.symm)
        rw [h.uniq j i _ hj ⟨hi.1, rfl⟩]; exact ho
    free := fun j k hj hoj hvj => h.free j k hj (hown hoj) hvj
    settled := fun k hk hall => h.settled k hk fun j hj => hown (hall j hj) }

/-- `bread` locks a buffer that has to be read. -/
theorem Core.startRead (h : Core s) (hio : s.io p = .locking i n) (ho : s.owner i = none)
    (hv : s.valid i = false) : Core ((s.lock p i).setIo p (.reading i n)) := by
  have hi : s.Caches i n := h.wants p i n (by rw [hio]; rfl)
  have hown := fun {j} => unlocked_of_update (p := p) (j := j) ho
  exact
  { h with
    refs := h.recountIo (p := p) (i := i) (fun _ => rfl) (fun j q hq => by simp [hq]) (by simp [hio]) fun j _ => by simp [hio]
    owner := fun q j => by
      have := h.lock_owner (p := p) ho q j (.reading i n) (s.held p) fun k => by
        by_cases hk : k = i
        · subst hk; simp [Io.reads]
        · simp [hk, Ne.symm hk, hio, Io.reads]
      rwa [update_eq_self] at this
    wants := h.wants_update (by simpa [Io.wants] using hi)
    reads := h.reads_update (by simpa [Io.reads] using hv)
    free := fun j k hj hoj hvj => h.free j k hj (hown hoj) hvj
    settled := fun k hk hall => h.settled k hk fun j hj => hown (hall j hj) }

attribute [local simp] Sys.fill

/-- The disk read ends and `bread` returns. -/
theorem Core.fill (h : Core s) (hio : s.io p = .reading i n) : Core ((s.fill i).give p i) := by
  have hi : s.Caches i n := h.wants p i n (by rw [hio]; rfl)
  have hv : s.valid i = false := h.reads p i (by rw [hio]; rfl)
  have ho : s.owner i = some p := (h.owner p i).mpr (Or.inl (by rw [hio]; rfl))
  have hheld : ∀ q j m, s.held q j = some m → j ≠ i := by
    rintro q j m hq rfl
    have := (h.heldOf q j m hq).2
    rw [hv] at this; cases this
  have hnone : s.held p i = none := by
    by_contra hne
    obtain ⟨m, hm⟩ := ne_none_iff_exists'.mp hne
    exact hheld p i m hm rfl
  have hflat : s.disk (s.blockno i) = s.flat (s.blockno i) := by rw [hi.2]; exact h.stale i n hi hv
  have hvalid : ∀ {j}, j ≠ i → update s.valid i true j = s.valid j := fun hj => update_of_ne hj ..
  exact
  { h with
    refs := h.recountIo (p := p) (i := i) (fun _ => rfl) (fun j q hq => by simp [hq]) (by simp [hio, hnone])
      fun j hj => by simp [hio, hj, Ne.symm hj]
    owner := by
      intro q j
      rw [show ((s.fill i).give p i).owner j = s.owner j from rfl, h.owner q j]
      by_cases hq : q = p
      · subst hq
        by_cases hj : j = i
        · subst hj; simp [hio, Io.reads]
        · simp [hio, Io.reads, hj, Ne.symm hj]
      · simp [hq]
    wants := h.wants_update nofun
    reads := by
      refine (forall_update_iff s.io fun _ io => ∀ j, io.reads = some j →
        update s.valid i true j = false).mpr ⟨by simp [Io.reads], fun q hq j hj => ?_⟩
      have hji : j ≠ i := by
        rintro rfl
        have := (h.owner q j).mpr (Or.inl hj)
        exact hq (some.inj (this.symm.trans ho))
      rw [hvalid hji]; exact h.reads q j hj
    heldOf := forall_setMark (fun _ _ => ⟨hi.1, update_self ..⟩) fun q j m hq _ =>
      ⟨(h.heldOf q j m hq).1, (hvalid (hheld q j m hq)).trans (h.heldOf q j m hq).2⟩
    mark := by
      refine forall_setMark (fun m hm => ?_) fun q j m hq _ => ?_
      · obtain rfl := some.inj hm
        have hdata : update s.data i (s.disk (s.blockno i)) i = s.disk (s.blockno i) := update_self ..
        exact ⟨fun _ => hdata.trans hflat, fun _ => Or.inr hdata.symm, fun hs => absurd hs (by decide)⟩
      · have hdata : ((s.fill i).give p i).data j = s.data j := update_of_ne (hheld q j m hq) ..
        rw [hdata]; exact h.mark q j m hq
    free := by
      intro j k hj hoj hvj
      have hji : j ≠ i := by
        rintro rfl; exact absurd (ho.symm.trans hoj) (by simp)
      exact (update_of_ne hji ..).trans (h.free j k hj hoj ((hvalid hji).symm.trans hvj))
    stale := by
      intro j k hj hvj
      have hji : j ≠ i := by
        rintro rfl; simp at hvj
      exact h.stale j k hj ((hvalid hji).symm.trans hvj)
    pins := by
      intro k hk
      obtain ⟨j, hj, hvj⟩ := h.pins k hk
      refine ⟨j, hj, ?_⟩
      by_cases hji : j = i
      · rw [hji]; exact update_self ..
      · exact (hvalid hji).trans hvj }

/-- The second half of `brelse`. -/
theorem Core.drop (h : Core s) (hio : s.io p = .dropping i) : Core (s.drop p i) :=
  { h with
    all := by
      intro j
      by_cases hj : j = i
      · subst hj; simp only [Sys.drop]; split <;> simp [h.all]
      · simp only [Sys.drop]; split <;> simp [h.all, hj, mem_erase_of_ne]
    refs := by
      have hone : 1 ≤ s.refcnt i := (one_le_refs (Or.inr (Or.inr hio))).trans (h.refs_le p i)
      refine h.recountIo (p := p) (i := i) (fun _ => rfl) (fun j q hq => ?_) ?_ fun j hj => ?_
      · simp [Sys.drop, hq]
      · simp [Sys.drop, hio]; omega
      · simp [Sys.drop, hio, hj, Ne.symm hj]
    owner := fun q j => (h.owner q j).trans (locks_update (by simp [hio, Io.reads]) rfl q j).symm
    wants := h.wants_update nofun
    reads := h.reads_update nofun }

variable {m : Mark}

section Marked
variable (h : Core s) (hi : s.held p i = some m)
include h hi

/-- A store to a held buffer. -/
theorem Core.store (v : Block) (c : Option Nat) :
    Core (s.store p i v c) := by
  have hdata : ∀ {j}, j ≠ i → update s.data i v j = s.data j := fun hj => update_of_ne hj ..
  exact
  { h with
    refs := h.refs_setMark hi
    owner := fun q j => (h.owner q j).trans (locks_setMark hi q j).symm
    heldOf := h.heldOf_setMark hi
    mark := by
      refine forall_setMark (fun m' hm' => ?_) fun q j m' hq hne => ?_
      · obtain rfl := some.inj hm'
        exact ⟨by simp, by simp, by simp⟩
      · have : (s.store p i v c).data j = s.data j := hdata (h.held_ne hi hq hne).1
        rw [this]; exact h.mark q j m' hq
    free := by
      intro j k hj hoj hvj
      have hji : j ≠ i := by
        rintro rfl; exact h.locked hi hoj
      exact (hdata hji).trans (h.free j k hj hoj hvj) }

/-- `bwrite` of a held buffer. -/
theorem Core.flush : Core (s.flush p i m (s.blockno i)) := by
  have hci := h.caches_of_held hi
  have hdisk : ∀ {k}, k ≠ s.blockno i → update s.disk (s.blockno i) (s.data i) k = s.disk k :=
    fun hk => update_of_ne hk ..
  exact
  { h with
    refs := h.refs_setMark hi
    owner := fun q j => (h.owner q j).trans (locks_setMark hi q j).symm
    heldOf := h.heldOf_setMark hi
    mark := by
      refine forall_setMark (fun m' hm' => ?_) fun q j m' hq hne => ?_
      · obtain rfl := some.inj hm'
        have : (s.flush p i m (s.blockno i)).disk (s.blockno i) = s.data i := update_self ..
        exact ⟨(h.mark p i m hi).fresh, fun _ => Or.inr this, fun _ => this⟩
      · exact (h.mark q j m' hq).congr (hdisk (h.held_ne hi hq hne).2) rfl
    stale := by
      intro j k hj hvj
      have hk : k ≠ s.blockno i := by
        rintro rfl
        rw [h.uniq j i _ hj hci] at hvj
        exact absurd ((h.heldOf p i m hi).2.symm.trans hvj) (by decide)
      exact (hdisk hk).trans (h.stale j k hj hvj)
    settled := by
      intro k hk hall
      have hk' : k ≠ s.blockno i := by
        rintro rfl; exact h.locked hi (hall i hci)
      exact (hdisk hk').trans (h.settled k hk hall) }

/-- `log_write` of a held buffer whose block is pinned already. -/
theorem Core.absorb (hpin : s.blockno i ∈ s.pins) :
    Core (s.setMark p i (some { m with changed := false })) :=
  { h with
    refs := h.refs_setMark hi
    owner := fun q j => (h.owner q j).trans (locks_setMark hi q j).symm
    heldOf := h.heldOf_setMark hi
    mark := by
      refine forall_setMark (fun m' hm' => ?_) fun q j m' hq _ => h.mark q j m' hq
      obtain rfl := some.inj hm'
      exact ⟨(h.mark p i m hi).fresh, fun _ => Or.inl hpin, (h.mark p i m hi).synced⟩ }

/-- `bpin` of a held buffer. -/
theorem Core.pin :
    Core { s.incRef i with pins := s.pins ++ [s.blockno i] } := by
  have hci := h.caches_of_held hi
  exact
  { h with
    refs := by
      refine h.recount (p := p) (fun _ _ _ => rfl) fun j => ?_
      by_cases hj : j = i
      · subst hj
        simp [Sys.pinned, hci.1]; omega
      · have hne : s.dev j = ROOTDEV → s.blockno j ≠ s.blockno i := fun hd hb => hj (h.uniq j i _ ⟨hd, hb⟩ hci)
        have hpinned : Sys.pinned { s.incRef i with pins := s.pins ++ [s.blockno i] } j = s.pinned j := by
          by_cases hd : s.dev j = ROOTDEV
          · simp [Sys.pinned, hd, Ne.symm (hne hd)]
          · simp [Sys.pinned, hd]
        rw [hpinned]
        simp [update_of_ne hj]
    mark := fun q j m' hq =>
      { h.mark q j m' hq with
        passed := fun hc => ((h.mark q j m' hq).passed hc).imp_left (mem_append_left _) }
    settled := fun k hk => h.settled k fun hk' => hk (mem_append_left _ hk')
    pins := by
      intro k hk
      rcases mem_append.mp hk with hk | hk
      · exact h.pins k hk
      · obtain rfl := mem_singleton.mp hk
        exact ⟨i, hci, (h.heldOf p i m hi).2⟩ }

/-- `bunpin` of a held buffer that the disk agrees with. -/
theorem Core.bunpin (hsync : m.synced = true)
    (hpin : s.blockno i ∈ s.pins) : Core { s.decRef i with pins := s.pins.erase (s.blockno i) } := by
  have hci := h.caches_of_held hi
  exact
  { h with
    refs := by
      refine h.recount (p := p) (fun _ _ _ => rfl) fun j => ?_
      by_cases hj : j = i
      · subst hj
        have hcount : 0 < s.pins.count (s.blockno j) := count_pos_iff.mpr hpin
        have := h.refs j
        simp only [Sys.pinned, if_pos hci.1] at this
        simp [Sys.pinned, hci.1]; omega
      · have hne : s.dev j = ROOTDEV → s.blockno j ≠ s.blockno i := fun hd hb => hj (h.uniq j i _ ⟨hd, hb⟩ hci)
        have hpinned : Sys.pinned { s.decRef i with pins := s.pins.erase (s.blockno i) } j = s.pinned j := by
          by_cases hd : s.dev j = ROOTDEV
          · simp [Sys.pinned, hd, count_erase_of_ne (hne hd)]
          · simp [Sys.pinned, hd]
        rw [hpinned]
        simp [update_of_ne hj]
    mark := by
      intro q j m' hq
      refine { h.mark q j m' hq with passed := fun hc => ?_ }
      by_cases hji : j = i
      · subst hji
        exact Or.inr ((h.mark p j m hi).synced hsync)
      · refine ((h.mark q j m' hq).passed hc).imp_left (mem_erase_of_ne ?_).mpr
        exact (h.held_ne hi hq fun _ => hji).2
    settled := by
      intro k hk hall
      have hk' : k ≠ s.blockno i := by
        rintro rfl; exact h.locked hi (hall i hci)
      exact h.settled k (fun hmem => hk ((mem_erase_of_ne hk').mpr hmem)) hall
    pins := fun k hk => h.pins k (mem_of_mem_erase hk) }

end Marked

attribute [local simp] Sys.unlock

/-- The first half of `brelse`, of a buffer changed at most before its last `log_write` or `bwrite`. -/
theorem Core.unlock (h : Core s) (hio : s.io p = .idle) (hi : s.held p i = some m) (hm : m.changed = false) :
    Core (s.unlock p i (s.blockno i)) := by
  have hci := h.caches_of_held hi
  have hv := (h.heldOf p i m hi).2
  have hflat : ∀ {k}, k ≠ s.blockno i → update s.flat (s.blockno i) (s.data i) k = s.flat k :=
    fun hk => update_of_ne hk ..
  have hown : ∀ {j}, j ≠ i → update s.owner i none j = s.owner j := fun hj => update_of_ne hj ..
  have hblk : ∀ {j k}, s.Caches j k → j ≠ i → k ≠ s.blockno i := by
    rintro j _ hj hji rfl; exact hji (h.uniq j i _ hj hci)
  exact
  { h with
    refs := h.recountIo (p := p) (i := i) (fun _ => rfl) (fun j q hq => by simp [hq]) (by simp [hio, hi])
      fun j hj => by simp [hio, hj, Ne.symm hj]
    owner := by
      intro q j
      by_cases hj : j = i
      · subst hj
        rw [show (s.unlock p j (s.blockno j)).owner j = none from update_self ..]
        by_cases hq : q = p
        · subst hq; simp [Io.reads]
        · have : ¬ Locks (s.io q) (s.held q) j := fun hl =>
            hq (some.inj (((h.owner q j).mpr hl).symm.trans (h.owner_of_held hi)))
          simpa [hq] using this
      · rw [show (s.unlock p i (s.blockno i)).owner j = s.owner j from hown hj, h.owner q j]
        by_cases hq : q = p
        · subst hq; simp [Io.reads, hio, hj]
        · simp [hq]
    wants := h.wants_update nofun
    reads := h.reads_update nofun
    heldOf := forall_setMark (by simp) fun q j m' hq _ => h.heldOf q j m' hq
    mark := by
      refine forall_setMark (by simp) fun q j m' hq hne => ?_
      exact (h.mark q j m' hq).congr rfl (hflat (h.held_ne hi hq hne).2)
    free := by
      intro j k hj hoj hvj
      by_cases hji : j = i
      · subst hji
        have hk : k = s.blockno j := hj.2.symm
        simp [hk]
      · exact (h.free j k hj ((hown hji).symm.trans hoj) hvj).trans (hflat (hblk hj hji)).symm
    stale := by
      intro j k hj hvj
      have hji : j ≠ i := by rintro rfl; exact absurd (hv.symm.trans hvj) (by decide)
      exact (h.stale j k hj hvj).trans (hflat (hblk hj hji)).symm
    settled := by
      intro k hk hall
      by_cases hk' : k = s.blockno i
      · subst hk'
        have hdisk := ((h.mark p i m hi).passed hm).resolve_left hk
        simpa using hdisk
      · refine (h.settled k hk fun j hj => ?_).trans (hflat hk').symm
        have hji : j ≠ i := by rintro rfl; exact hk' hj.2.symm
        exact (hown hji).symm.trans (hall j hj) }

end

end Xv6.Bio
