import Xv6.Bio.Script

/-! Every step of the cache keeps the invariant: the rest of a `bread` or `brelse`, the operations of
    clients, those of `commit`, and the steps of the log protocol. -/

namespace Xv6.Bio
set_option linter.unusedSectionVars false
open Function List Option
open Log (Block Area)

variable {P : Type} [DecidableEq P] {L : Area} {s s' : Sys P} {p : P} {i : Fin NBUF} {n : Nat} {m : Mark}
variable [Fintype P]

attribute [local simp] Sys.resume

/-- The rest of `bread` and of `brelse`. -/
theorem Inv.resume (h : Inv L s) (hrun : s.Running) (hs : s.resume p = some s') : Inv L s' := by
  have hone := h.log.oneCommitter
  have hcom := h.commit hrun
  cases hio : s.io p with
  | idle => simp [hio] at hs
  | locking i n =>
    have hwants : (s.io p).wants = some (i, n) := by rw [hio]; rfl
    have hi := h.core.wants p i n hwants
    by_cases ho : s.owner i = none
    · by_cases hv : s.valid i = true
      · obtain rfl : (s.lock p i).give p i = s' := by simpa [hio, ho, hv] using hs
        have hfree : ∀ q, s.held q i = none := by
          intro q; by_contra hne
          obtain ⟨m, hm⟩ := ne_none_iff_exists'.mp hne
          rw [h.core.owner_of_held hm] at ho; cases ho
        exact ⟨h.log, h.core.give hio ho hv, fun _ => hcom.given hone hwants hi hfree rfl rfl rfl rfl rfl rfl rfl
          rfl rfl fun _ _ => rfl⟩
      · obtain rfl : (s.lock p i).setIo p (.reading i n) = s' := by simpa [hio, ho, hv] using hs
        refine ⟨h.log, h.core.startRead hio ho (by simpa using hv), fun _ => ?_⟩
        refine hcom.wait (p := p) hone rfl rfl rfl rfl rfl ?_ (fun _ _ _ _ _ => Iff.rfl)
          (fun _ _ _ _ _ => rfl) (fun _ _ _ hj => Or.inl hj) ?_
        · intro q hq; exact update_of_ne hq ..
        · intro know hk
          refine ⟨fun k m hm => (hk.held k m hm).imp_left ?_, hk.all⟩
          simp [Sys.setIo, hio, Io.wants]
    · simp [hio, isSome_iff_ne_none, ho] at hs
  | reading i n =>
    have hwants : (s.io p).wants = some (i, n) := by rw [hio]; rfl
    have hi := h.core.wants p i n hwants
    have hv := h.core.reads p i (by rw [hio]; rfl)
    obtain rfl : (s.fill i).give p i = s' := by simpa [hio] using hs
    have hfree : ∀ q, s.held q i = none := by
      intro q; by_contra hne
      obtain ⟨m, hm⟩ := ne_none_iff_exists'.mp hne
      exact absurd ((h.core.heldOf q i m hm).2.symm.trans hv) (by decide)
    exact ⟨h.log, h.core.fill hio, fun _ => hcom.given hone hwants hi hfree rfl rfl rfl rfl rfl rfl rfl
      rfl rfl fun j hj => update_of_ne hj ..⟩
  | dropping i =>
    obtain rfl : s.drop p i = s' := by simpa [hio] using hs
    refine ⟨h.log, h.core.drop hio, fun _ => ?_⟩
    refine hcom.wait (p := p) hone rfl rfl rfl rfl rfl ?_ (fun _ _ _ _ _ => Iff.rfl)
      (fun _ _ _ _ _ => rfl) (fun _ _ _ hj => Or.inl hj) ?_
    · intro q hq; exact update_of_ne hq ..
    · intro know hk
      refine ⟨fun k m hm => (hk.held k m hm).imp_left ?_, hk.all⟩
      simp [hio, Io.wants]

theorem bget_frame (s : Sys P) (p : P) (n : Nat) :
    (s.bget p n).log = s.log ∧ (s.bget p n).flat = s.flat ∧ (s.bget p n).script = s.script ∧
    (s.bget p n).pins = s.pins ∧ (s.bget p n).bwritten = s.bwritten ∧ (s.bget p n).data = s.data := by
  unfold Sys.bget
  split
  · exact ⟨rfl, rfl, rfl, rfl, rfl, rfl⟩
  split <;> exact ⟨rfl, rfl, rfl, rfl, rfl, rfl⟩

/-- `bget` moves no held buffer, and unless it stops the machine `p` goes on to lock the buffer. -/
theorem Core.bget (h : Core s) (hidle : s.io p = .idle) (n : Nat) :
    Core (s.bget p n) ∧ (∀ q i k m, (s.bget p n).Holds q i k m ↔ s.Holds q i k m) ∧
    ((s.bget p n).noBuffers = true ∨ ∃ i, (s.bget p n).io = update s.io p (.locking i n)) := by
  unfold Sys.bget
  split
  · rename_i i hfind
    have hi : s.Caches i n := by simpa using find?_some hfind
    exact ⟨h.hit hidle hi, fun _ _ _ _ => Iff.rfl, Or.inr ⟨i, rfl⟩⟩
  rename_i hmiss
  have hmiss : ∀ j, ¬ s.Caches j n := fun j => by
    simpa using find?_eq_none.mp hmiss j (h.all j)
  split
  · rename_i i hfind
    have hi : s.refcnt i = 0 := by simpa using find?_some hfind
    refine ⟨h.recycle hidle hmiss hi, fun q j k m => ?_, Or.inr ⟨i, rfl⟩⟩
    by_cases hj : j = i
    · subst hj
      have := (h.unused hi q).2.1
      simp [Sys.Holds, Sys.setIo, Sys.recycle, this]
    · simp [Sys.Holds, Sys.Caches, Sys.setIo, Sys.recycle, hj]
  · exact ⟨{ h with }, fun _ _ _ _ => Iff.rfl, Or.inl rfl⟩

/-- A client's `bread`. -/
theorem Inv.bread (h : Inv L s) (hrun : s.Running) (hidle : s.io p = .idle) (n : Nat) :
    Inv L (s.bget p n) := by
  obtain ⟨hlog, hflat, hscript, hpins, hbw, hdata⟩ := bget_frame s p n
  obtain ⟨hcore, hholds, hio⟩ := h.core.bget hidle n
  refine ⟨hlog ▸ h.log, hcore, fun hrun' => ?_⟩
  obtain ⟨i, hio⟩ := hio.resolve_left (by simp [hrun'.1])
  refine (h.commit hrun).wait (p := p) h.log.oneCommitter hlog hflat hscript hpins hbw ?_ (fun q j k m _ => hholds q j k m)
    (fun _ _ _ _ _ => by rw [hdata]) (fun j k m hj => Or.inl ((hholds p j k m).mp hj)) ?_
  · intro q hq; rw [hio, update_of_ne hq]
  · intro know hk
    refine ⟨fun k m hm => Or.inr ?_, fun j k m hj => hk.all j k m ((hholds p j k m).mp hj)⟩
    rcases hk.held k m hm with ⟨j, hj, -⟩ | ⟨j, hj⟩
    · rw [hidle] at hj; cases hj
    · exact ⟨j, (hholds p j k m).mpr hj⟩

variable {pc : Log.Pc}

theorem body_nil {block : List Nat} (h : pc.committer = false ∨ pc = .commit) :
    body L block pc = [] := by
  rcases h with h | rfl
  · cases pc <;> first | rfl | cases h
  · rfl

theorem Commit.script_nil (h : Commit L s) (hp : (s.log.pc p).committer = false) : s.script p = [] := by
  have := h.suffix p
  rw [body_nil (Or.inl hp)] at this
  exact suffix_nil.mp this

/-- Nobody is past the first step of `commit`. -/
theorem Commit.ofQuiet (hhome : ∀ b ∈ s.log.block, L.Home b) (hfits : s.log.block.length < L.size)
    (hbhome : ∀ b ∈ s.bwritten, L.Home b) (hscript : ∀ q, s.script q = [])
    (hpc : ∀ q, (s.log.pc q).committer = true → s.log.pc q = .commit) (hpins : s.pins = s.log.block)
    (hplain : ∀ q i n m, s.Holds q i n m → m.copyOf = none ∧ (m.touched = true → L.Home n)) : Commit L s where
  home := hhome
  fits := hfits
  bhome := hbhome
  know q := ⟨_, knows_of_plain (hplain q), by rw [hscript q]; exact fun _ => rfl⟩
  suffix q := by rw [hscript q]; exact nil_suffix
  pinsQuiet _ := hpins
  pinsCommit q hq := by rw [hpc q hq, hpins]; rfl
  late q j b _ hc := by
    rw [hpc q hc.committer] at hc; cases hc
  slots q j b _ hc := by
    rw [hpc q hc.committer] at hc; cases hc
  copies q i n m c hi hc := by
    rw [(hplain q i n m hi).1] at hc; cases hc

/-- A client's store. -/
theorem Inv.change (h : Inv L s) (hrun : s.Running) (hp : (s.log.pc p).committer = false)
    (hn : L.Home n) (hi : s.Holds p i n m) (v : Block) : Inv L (s.store p i v none) := by
  have hcom := h.commit hrun
  have hnil := hcom.script_nil hp
  refine ⟨h.log, h.core.store hi.1 v none, fun _ => ?_⟩
  have hmark := holds_mark s (s.store p i v none) (p := p) (i := i) rfl rfl rfl
  refine hcom.client (p := p) h.log.oneCommitter hnil rfl rfl rfl rfl (fun _ hb => hb) hcom.bhome
    (fun _ _ => rfl) ?_ ?_ ?_ ?_
  · intro q j k m' hq; rw [hmark]; simp [hq]
  · intro q j k m' hq hj
    exact update_of_ne (h.core.held_ne hi.1 hj.1 fun hqp => absurd hqp hq).1 ..
  · intro j k m' hj
    rcases (hmark _ _ _ _).mp hj with ⟨-, -, hm', hc⟩ | ⟨-, hj⟩
    · obtain rfl := some.inj hm'
      exact ⟨rfl, fun _ => by rw [← hc.2, hi.2.2]; exact hn⟩
    · exact hcom.plain hnil hj
  · intro j k m' hj ht
    rcases (hmark _ _ _ _).mp hj with ⟨-, -, hm', -⟩ | ⟨-, hj⟩
    · obtain rfl := some.inj hm'; exact Or.inl rfl
    · exact Or.inr (Or.inr ⟨m', hj, ht, rfl⟩)

/-- A client's `bwrite`. -/
theorem Inv.bwrite (h : Inv L s) (hrun : s.Running) (hp : (s.log.pc p).committer = false)
    (hn : L.Home n) (hi : s.Holds p i n m) : Inv L { s.flush p i m n with bwritten := n :: s.bwritten } := by
  have hcom := h.commit hrun
  have hnil := hcom.script_nil hp
  obtain rfl := hi.2.2
  refine ⟨h.log, { h.core.flush hi.1 with }, fun _ => ?_⟩
  have hmark := holds_mark s { s.flush p i m (s.blockno i) with bwritten := s.blockno i :: s.bwritten }
    (p := p) (i := i) rfl rfl rfl
  refine hcom.client (p := p) h.log.oneCommitter hnil rfl rfl rfl rfl (fun _ hb => mem_cons_of_mem _ hb)
    (forall_mem_cons.mpr ⟨hn, hcom.bhome⟩) (fun _ _ => rfl) ?_ (fun _ _ _ _ _ _ => rfl) ?_ ?_
  · intro q j k m' hq; rw [hmark]; simp [hq]
  · intro j k m' hj
    rcases (hmark _ _ _ _).mp hj with ⟨-, -, hm', hc⟩ | ⟨-, hj⟩
    · obtain rfl := some.inj hm'
      obtain ⟨hcopy, hhome⟩ := hcom.plain hnil hi
      exact ⟨hcopy, fun ht => hc.2 ▸ hhome ht⟩
    · exact hcom.plain hnil hj
  · intro j k m' hj ht
    rcases (hmark _ _ _ _).mp hj with ⟨-, -, -, hc⟩ | ⟨-, hj⟩
    · rw [← hc.2]; exact Or.inr (Or.inl (mem_cons_self ..))
    · exact Or.inr (Or.inr ⟨m', hj, ht, rfl⟩)

/-- A client's `log_write`. -/
theorem Inv.logWrite (h : Inv L s) (hrun : s.Running) (hp : s.log.pc p = .inOp) (hn : L.Home n)
    (hi : s.Holds p i n m) (hlog : (Log.logWrite L.size s.log p n).panic.isSome = false) :
    Inv L (s.logged p i m n (Log.logWrite L.size s.log p n)) := by
  have hcom := h.commit hrun
  have hquiet := h.log.quiet_of_inOp hp
  have hnone := h.log.noCommitter hquiet
  have hpins := hcom.pinsQuiet hnone
  have hroom : ¬ (s.log.block.length ≥ LOGSIZE ∨ s.log.block.length ≥ L.size - 1) := by
    intro hbig; rw [Log.logWrite, if_pos hbig] at hlog; cases hlog
  have hout : ¬ s.log.outstanding < 1 := by have := h.log.one_le_outstanding hp; omega
  obtain ⟨hblock, hpc⟩ : (Log.logWrite L.size s.log p n).block =
      (if n ∈ s.log.block then s.log.block else s.log.block ++ [n]) ∧
      (Log.logWrite L.size s.log p n).pc = s.log.pc := by
    rw [Log.logWrite, if_neg hroom, if_neg hout]; exact ⟨rfl, rfl⟩
  have hlog' : Log.Inv (Log.logWrite L.size s.log p n) := h.log.logWrite hp
  have hplain : ∀ q j k m', (s.setMark p i (some { m with changed := false })).Holds q j k m' →
      m'.copyOf = none ∧ (m'.touched = true → L.Home k) := by
    intro q j k m' hj
    rcases (holds_mark s (s.setMark p i _) rfl rfl rfl _ _ _ _).mp hj with ⟨-, -, hm', hc⟩ | ⟨-, hj⟩
    · obtain rfl := some.inj hm'
      obtain ⟨hcopy, hhome⟩ := hcom.plain (hcom.script_nil (hnone p)) hi
      exact ⟨hcopy, fun ht => by rw [← hc.2, hi.2.2]; exact hhome ht⟩
    · exact hcom.plain (hcom.script_nil (hnone q)) hj
  obtain rfl := hi.2.2
  unfold Sys.logged
  split
  · rename_i hmem
    rw [if_pos hmem] at hblock
    refine ⟨hlog', { h.core.absorb hi.1 (hpins ▸ hmem) with }, fun _ => ?_⟩
    refine Commit.ofQuiet ?_ ?_ hcom.bhome (fun q => hcom.script_nil (hnone q)) ?_ ?_ hplain
    · simpa only [hblock] using hcom.home
    · simpa only [hblock] using hcom.fits
    · intro q hq
      simp only [hpc, hnone q] at hq; cases hq
    · simpa only [Sys.setMark, hblock] using hpins
  · rename_i hmem
    rw [if_neg hmem] at hblock
    have hpinned := h.core.pin hi.1
    have hcore := hpinned.absorb (p := p) (i := i) (m := m) hi.1 (by simp [Sys.incRef])
    refine ⟨hlog', { hcore with }, fun _ => ?_⟩
    refine Commit.ofQuiet ?_ ?_ hcom.bhome (fun q => hcom.script_nil (hnone q)) ?_ ?_ hplain
    · simp only [Sys.incRef, Sys.setMark, hblock, mem_append, mem_singleton]
      rintro b (hb | rfl)
      · exact hcom.home b hb
      · exact hn
    · simp only [Sys.incRef, Sys.setMark, hblock, length_append, length_singleton]
      omega
    · intro q hq
      simp only [Sys.incRef, Sys.setMark, hpc, hnone q] at hq; cases hq
    · simp only [Sys.incRef, Sys.setMark, hblock, hpins]

/-- A release by `p`, given what it does to the slots and to those who copied. -/
theorem Commit.release (h : Commit L s) (script : List Op)
    (hsuf : script <:+ s.script p) (hscript : s'.script = update s.script p script)
    (hcopied : ∀ j, Copied (s.log.pc p) script j ↔ Copied (s.log.pc p) (s.script p) j)
    (hbunpin : script.any Op.isBunpin = (s.script p).any Op.isBunpin)
    (hheld : s'.held = update s.held p (update (s.held p) i none))
    (hdev : s'.dev = s.dev) (hblk : s'.blockno = s.blockno) (hdata : s'.data = s.data) (hlog : s'.log = s.log)
    (hio : ∀ q, q ≠ p → s'.io q = s.io q) (hpins : s'.pins = s.pins) (hbw : s'.bwritten = s.bwritten)
    (hknow : ∃ know, Knows L s' p know ∧ Safe L (want L s.log.block (s.log.pc p)) know script)
    (hslots : ∀ q j b, s.log.block[j]? = some b → Saved L (s.log.pc q) (s'.script q) j →
      s'.flat (slot L j) = s'.flat b ∨ b ∈ s.bwritten)
    (hcopies : ∀ q j k m' c, s'.Holds q j k m' → m'.copyOf = some c → s.data j = s'.flat c ∨ c ∈ s.bwritten) :
    Commit L s' := by
  have hself : s'.script p = script := by rw [hscript, update_self]
  have hother : ∀ q, q ≠ p → s'.script q = s.script q := fun q hq => by rw [hscript, update_of_ne hq]
  have hholds : ∀ q j k m', s'.Holds q j k m' ↔ (q = p → j ≠ i) ∧ s.Holds q j k m' := by
    intro q j k m'; rw [holds_mark s s' hheld hdev hblk]; simp
  have hcop : ∀ q j, Copied (s.log.pc q) (s'.script q) j ↔ Copied (s.log.pc q) (s.script q) j := by
    intro q j
    by_cases hq : q = p
    · subst hq; rw [hself]; exact hcopied j
    · rw [hother q hq]
  refine
  { home := hlog ▸ h.home
    fits := hlog ▸ h.fits
    bhome := hbw ▸ h.bhome
    know := fun q => ?_
    suffix := fun q => ?_
    pinsQuiet := by rw [hlog, hpins]; exact h.pinsQuiet
    pinsCommit := fun q hq => ?_
    late := fun q j b hb hc r k m' hrq hr ht => ?_
    slots := by rw [hlog, hbw]; exact hslots
    copies := fun q j k m' c hj hc => ?_ }
  · by_cases hq : q = p
    · subst hq; rw [hself, hlog]; exact hknow
    · obtain ⟨know, hk, hsafe⟩ := h.know q
      refine ⟨know, ⟨fun k m' hm => ?_, fun j k m' hj => hk.all j k m' ((hholds q j k m').mp hj).2⟩, ?_⟩
      · rw [hio q hq]
        refine (hk.held k m' hm).imp_right fun ⟨j, hj⟩ => ⟨j, (hholds q j k m').mpr ⟨fun h => absurd h hq, hj⟩⟩
      · rw [hother q hq, hlog]; exact hsafe
  · rw [hlog]
    by_cases hq : q = p
    · subst hq; rw [hself]; exact hsuf.trans (h.suffix q)
    · rw [hother q hq]; exact h.suffix q
  · rw [hlog] at hq ⊢
    rw [hpins, h.pinsCommit q hq]
    by_cases hqp : q = p
    · subst hqp; rw [hself]; simp only [unpinned, hbunpin]
    · rw [hother q hqp]
  · rw [hlog] at hb hc
    rw [hbw]
    exact h.late q j b hb ((hcop q j).mp hc) r k m' hrq ((hholds r k b m').mp hr).2 ht
  · obtain ⟨hw, -⟩ := h.copies q j k m' c ((hholds q j k m').mp hj).2 hc
    refine ⟨?_, by rw [hdata, hbw]; exact hcopies q j k m' c hj hc⟩
    simpa only [Watched, hlog, hcop] using hw

variable {j : Nat}

theorem Commit.saved_copied (h : Commit L s) {q : P} {b : Nat} (hb : s.log.block[j]? = some b)
    (hs : Saved L (s.log.pc q) (s.script q) j) : Copied (s.log.pc q) (s.script q) j := by
  have hsuf := h.suffix q
  cases hpc : s.log.pc q with
  | writeLog tail =>
    rw [hpc] at hs hsuf
    rcases hs with hlt | ⟨rfl, hn⟩
    · exact Or.inl hlt
    · rw [released_last hb hsuf hn]
      exact Or.inr ⟨rfl, by simp⟩
  | writeHead => trivial
  | install tail => trivial
  | _ => rw [hpc] at hs; cases hs

/-- If nothing that is watched reads differently, slots and copies stay right. -/
theorem Commit.kept (h : Commit L s) {flat : Nat → Block}
    (hkeep : ∀ q x, Watched L s q x → flat x = s.flat x ∨ x ∈ s.bwritten) :
    (∀ q j b, s.log.block[j]? = some b → Saved L (s.log.pc q) (s.script q) j →
      flat (slot L j) = flat b ∨ b ∈ s.bwritten) ∧
    (∀ q j k m c, s.Holds q j k m → m.copyOf = some c → s.data j = flat c ∨ c ∈ s.bwritten) := by
  refine ⟨fun q j b hb hs => ?_, fun q j k m c hj hc => ?_⟩
  · have hlt := (List.getElem?_eq_some_iff.mp hb).1
    have hfit : j + 1 < L.size := by have := h.fits; omega
    have hslot : flat (slot L j) = s.flat (slot L j) :=
      (hkeep q _ (Or.inl ⟨j, hfit, rfl⟩)).resolve_right fun hbw => slot_not_home hfit (h.bhome _ hbw)
    rcases h.slots q j b hb hs with heq | hbw
    · refine (hkeep q b (Or.inr ⟨j, hb, h.saved_copied hb hs⟩)).imp_left fun hb' => ?_
      rw [hslot, heq, hb']
    · exact Or.inr hbw
  · obtain ⟨hw, hd⟩ := h.copies q j k m c hj hc
    rcases hd with hd | hd
    · exact (hkeep q c hw).imp_left fun hc' => hd.trans hc'.symm
    · exact Or.inr hd

theorem Core.holding_of_holds (h : Core s) (hi : s.Holds p i n m) : s.holding p n = some (i, m) := by
  cases hx : s.holding p n with
  | none =>
    have := findSome?_eq_none_iff.mp hx i (mem_finRange i)
    simp [hi.1, hi.2] at this
  | some x =>
    obtain ⟨hheld, hc⟩ := holds_of_holding hx
    have heq := h.uniq x.1 i n hc hi.2
    rw [heq, hi.1] at hheld
    exact congrArg some (Prod.ext heq (some.inj hheld).symm)

/-- A client's `brelse`. -/
theorem Inv.brelse (h : Inv L s) (hrun : s.Running) (hidle : s.io p = .idle)
    (hp : (s.log.pc p).committer = false) (hi : s.Holds p i n m) (hm : m.changed = false) :
    Inv L (s.unlock p i n) := by
  have hcom := h.commit hrun
  have hnil := hcom.script_nil hp
  obtain rfl := hi.2.2
  have hholds : ∀ q j k m', (s.unlock p i (s.blockno i)).Holds q j k m' → s.Holds q j k m' := by
    intro q j k m' hj
    rcases (holds_mark s (s.unlock p i (s.blockno i)) rfl rfl rfl _ _ _ _).mp hj with ⟨-, -, hx, -⟩ | ⟨-, hj⟩
    · cases hx
    · exact hj
  have hkeep : ∀ q x, Watched L s q x → (s.unlock p i (s.blockno i)).flat x = s.flat x ∨ x ∈ s.bwritten := by
    intro q x hw
    by_cases hx : x = s.blockno i
    · subst hx
      by_cases ht : m.touched = true
      · -- a changed block that is watched was copied, and changed after that
        have hhome := (hcom.plain hnil hi).2 ht
        rcases hw with ⟨j, hj, hslot⟩ | ⟨j, hb, hc⟩
        · rw [hslot] at hhome; exact absurd hhome (slot_not_home hj)
        · have hqp : p ≠ q := by
            rintro rfl; rw [hc.committer] at hp; cases hp
          have := hcom.late q j _ hb hc p i m hqp hi ht
          rw [hm] at this
          exact Or.inr (this.resolve_left (by decide))
      · have := (h.core.mark p i m hi.1).fresh (by simpa using ht)
        exact Or.inl ((update_self ..).trans this)
    · exact Or.inl (update_of_ne hx ..)
  refine ⟨h.log, h.core.unlock hidle hi.1 hm, fun _ => ?_⟩
  obtain ⟨hslots, hcopies⟩ := hcom.kept hkeep
  refine hcom.release (p := p) (i := i) (s.script p) (suffix_refl _) ?_ (fun _ => Iff.rfl) rfl rfl rfl rfl
    rfl rfl ?_ rfl rfl ?_ hslots fun q j k m' c hj => hcopies q j k m' c (hholds q j k m' hj)
  · exact (update_eq_self ..).symm
  · intro q hq; exact update_of_ne hq ..
  · rw [hnil]
    exact ⟨_, knows_of_plain fun j k m' hj => hcom.plain hnil (hholds p j k m' hj), fun _ => rfl⟩

variable {rest : List Op}

theorem copied_pop {o : Op} (ho : o.isCopy = false) :
    Copied pc rest j ↔ Copied pc (o :: rest) j := by
  cases pc <;> simp [Copied, ho]

theorem saved_pop {o : Op} (ho : o ≠ .brelse (slot L j)) :
    Saved L pc rest j ↔ Saved L pc (o :: rest) j := by
  cases pc <;> simp [Saved, ho.symm]

theorem unpinned_pop {o : Op} (ho : o.isBunpin = false) :
    unpinned pc rest = unpinned pc (o :: rest) := by
  cases pc <;> simp [unpinned, ho]

/-- The script of `p` loses its first operation. -/
def Sys.pop (s : Sys P) (p : P) (rest : List Op) : Sys P := { s with script := update s.script p rest }

/-- Pins are where they were after `p` has done an operation other than `bunpin`. -/
theorem Commit.pins_pop (h : Commit L s) {o : Op} (hscript : s.script p = o :: rest)
    (ho : o.isBunpin = false) (q : P) (hq : (s.log.pc q).committer = true) :
    s.pins = s.log.block.drop (unpinned (s.log.pc q) ((s.pop p rest).script q)) := by
  rw [h.pinsCommit q hq]
  by_cases hqp : q = p
  · subst hqp; rw [hscript, ← unpinned_pop ho]; simp [Sys.pop]
  · simp [Sys.pop, hqp]

theorem Watched.mono {c : Nat} (hw : Watched L s p c) (hlog : s'.log = s.log)
    (hcop : ∀ j, Copied (s.log.pc p) (s.script p) j → Copied (s.log.pc p) (s'.script p) j) : Watched L s' p c := by
  refine hw.imp_right fun ⟨j, hb, hc⟩ => ⟨j, ?_, ?_⟩
  · rw [hlog]; exact hb
  · rw [hlog]; exact hcop j hc

section Scripted
variable (h : Inv L s) (hrun : s.Running) (hidle : s.io p = .idle)
include h hrun hidle

/-- `bread` in `commit`. -/
theorem Inv.scriptBread (hscript : s.script p = .bread n :: rest) : Inv L ((s.pop p rest).bget p n) := by
  have hcom := h.commit hrun
  obtain ⟨know, hk, hsafe⟩ := hcom.know p
  rw [hscript] at hsafe
  obtain ⟨hkn, hsafe⟩ := hsafe
  have hcore₀ : Core (s.pop p rest) := { h.core with }
  obtain ⟨hlog, hflat, hscr, hpins, hbw, hdata⟩ := bget_frame (s.pop p rest) p n
  obtain ⟨hcore, hholds, hio⟩ := hcore₀.bget (p := p) hidle n
  refine ⟨hlog ▸ h.log, hcore, fun hrun' => ?_⟩
  obtain ⟨i, hio⟩ := hio.resolve_left (by simp [hrun'.1])
  refine hcom.local (p := p) rest h.log.oneCommitter hlog hflat hscr
    (hscript ▸ suffix_cons _ _) (fun b hb => hbw ▸ hb) (hbw ▸ hcom.bhome) ?_ (fun q j k m _ => hholds q j k m)
    (fun _ _ _ _ _ _ => by rw [hdata]; rfl) ⟨_, ?_, hsafe⟩ (fun _ => hpins) ?_ ?_ ?_ ?_ ?_ ?_
  · intro q hq; rw [hio, update_of_ne hq]; rfl
  · refine ⟨fun k m hm => ?_, fun j k m hj ho => ?_⟩
    · by_cases hkn' : k = n
      · subst hkn'
        rw [update_self] at hm
        exact Or.inl ⟨i, by rw [hio, update_self]; rfl, (some.inj hm).symm⟩
      · rw [update_of_ne hkn'] at hm
        rcases hk.held k m hm with ⟨j, hj, -⟩ | ⟨j, hj⟩
        · rw [hidle] at hj; cases hj
        · exact Or.inr ⟨j, (hholds p j k m).mpr hj⟩
    · have hkm := hk.all j k m ((hholds p j k m).mp hj) ho
      have : k ≠ n := by rintro rfl; rw [hkn] at hkm; cases hkm
      rw [update_of_ne this]; exact hkm
  · intro q hq; rw [hpins, hscr]; exact hcom.pins_pop hscript rfl q hq
  · intro hpc
    rw [hcom.script_nil hpc] at hscript; cases hscript
  · intro j b _ hc; rw [hscript, ← copied_pop rfl]; exact Or.inl hc
  · intro j hc; rwa [hscript, ← copied_pop rfl] at hc
  · intro j hs; rwa [hscript, ← saved_pop (by simp)]
  · intro j k m c hj hc
    obtain ⟨hw, hd⟩ := hcom.copies p j k m c ((hholds p j k m).mp hj) hc
    refine ⟨?_, by rw [hdata, hbw]; exact hd⟩
    refine hw.mono hlog fun j hc => ?_
    rw [hscr]
    simpa only [Sys.pop, update_self, hscript, ← copied_pop (o := .bread n) rfl] using hc

/-- In `commit`, an operation that leaves the mark `x` on a held buffer. -/
theorem Inv.scriptMark {o : Op} (hscript : s.script p = o :: rest) (hbun : o.isBunpin = false) (hrel : ∀ k, o ≠ .brelse k)
    (hi : s.Holds p i n m) {x : Mark} (hlog : s'.log = s.log) (hflat : s'.flat = s.flat)
    (hpins : s'.pins = s.pins) (hbw : s'.bwritten = s.bwritten) (hio : s'.io = s.io)
    (hscr : s'.script = (s.pop p rest).script)
    (hheld : s'.held = update s.held p (update (s.held p) i (some x)))
    (hdev : s'.dev = s.dev) (hblk : s'.blockno = s.blockno) (hdata : ∀ j, j ≠ i → s'.data j = s.data j)
    {know : Nat → Option Mark} (hk : Knows L s p know)
    (hsafe : Safe L (want L s.log.block (s.log.pc p)) (update know n (some x)) rest)
    (hcopied : ∀ j b, s.log.block[j]? = some b → Copied (s.log.pc p) rest j →
      Copied (s.log.pc p) (o :: rest) j ∨ ∀ q j m, q ≠ p → ¬ s.Holds q j b m)
    (hcopy : ∀ c, x.copyOf = some c → Watched L s' p c ∧ (s'.data i = s.flat c ∨ c ∈ s.bwritten)) :
    Commit L s' := by
  have hcom := h.commit hrun
  have hself : s'.script p = rest := by rw [hscr]; simp [Sys.pop]
  have hmark := holds_mark s s' hheld hdev hblk
  have hmono : ∀ j, Copied (s.log.pc p) (o :: rest) j → Copied (s.log.pc p) rest j := by
    intro j
    cases s.log.pc p <;> simp only [Copied] <;>
      first | exact id | exact Or.imp_right (And.imp_right fun hc o' ho' => hc o' (mem_cons_of_mem _ ho'))
  refine hcom.local (p := p) rest h.log.oneCommitter hlog hflat hscr (hscript ▸ suffix_cons _ _)
    (fun b hb => hbw ▸ hb) (hbw ▸ hcom.bhome) (fun q _ => by rw [hio]) ?_ ?_
    ⟨_, hk.update h.core.uniq hidle hi hheld hdev hblk, hsafe⟩ (fun _ => hpins) ?_ ?_ ?_ ?_ ?_ ?_
  · intro q j k m' hq; rw [hmark]; simp [hq]
  · intro q j k m' hq hj
    exact hdata j (h.core.held_ne hi.1 hj.1 fun hqp => absurd hqp hq).1
  · intro q hq; rw [hpins, hscr]; exact hcom.pins_pop hscript hbun q hq
  · intro hpc; rw [hcom.script_nil hpc] at hscript; cases hscript
  · intro j b hb hc; rw [hscript]; exact hcopied j b hb hc
  · intro j hc; rw [hscript] at hc; exact hmono j hc
  · intro j hs; rw [hscript, ← saved_pop (hrel _)]; exact hs
  · intro j k m' c hj hc
    rw [hbw]
    rcases (hmark p j k m').mp hj with ⟨-, rfl, hx, -⟩ | ⟨hji, hj⟩
    · obtain rfl := some.inj hx
      exact hcopy c hc
    · obtain ⟨hw, hd⟩ := hcom.copies p j k m' c hj hc
      refine ⟨hw.mono hlog fun j' hc' => ?_, by rw [hdata j (hji rfl)]; exact hd⟩
      rw [hself]; rw [hscript] at hc'; exact hmono j' hc'

/-- `memmove` between the two buffers. -/
theorem Inv.scriptCopy {dst src : Nat} (hscript : s.script p = .copy dst src :: rest) {j : Fin NBUF} {m' : Mark}
    (hi : s.Holds p i dst m) (hj : s.Holds p j src m') :
    Inv L ((s.pop p rest).store p i (s.data j) (some src)) := by
  have hcom := h.commit hrun
  obtain ⟨know, hk, hsafe⟩ := hcom.know p
  rw [hscript] at hsafe
  obtain ⟨-, ⟨m₀, hm₀, ht⟩, hsafe⟩ := hsafe
  obtain rfl := hk.mark h.core.uniq hidle hm₀ hj
  have hsuf := hcom.suffix p
  rw [hscript] at hsuf
  have hdata : s.data j = s.flat src := by
    rw [← hj.2.2]; exact (h.core.mark p j m₀ hj.1).fresh ht
  have hcore₀ : Core (s.pop p rest) := { h.core with }
  refine ⟨h.log, hcore₀.store (p := p) hi.1 _ _, fun _ => ?_⟩
  refine h.scriptMark hrun hidle hscript rfl (by simp) hi rfl rfl rfl rfl rfl rfl rfl rfl rfl ?_ hk hsafe ?_ ?_
  · intro k hk'; exact update_of_ne hk' ..
  · intro t b hb hc
    rcases copy_cases hsuf with ⟨tail, hpc, -, hsrc, -⟩ | ⟨tail, hpc, -, -⟩
    · -- `p` holds the block it copies
      rw [hpc] at hc ⊢
      rcases hc with hlt | ⟨rfl, -⟩
      · exact Or.inl (Or.inl hlt)
      · obtain rfl := some.inj (hb.symm.trans hsrc)
        refine Or.inr fun q k mq hq hqk => ?_
        exact (h.core.held_ne hj.1 hqk.1 fun hqp => absurd hqp hq).2 (hqk.2.2.trans hj.2.2.symm)
    · rw [hpc]; exact Or.inl trivial
  · rintro c hc
    obtain rfl := some.inj hc
    refine ⟨?_, Or.inl ((update_self ..).trans hdata)⟩
    rcases copy_cases hsuf with ⟨tail, hpc, -, hsrc, hrest⟩ | ⟨tail, hpc, hdst, rfl⟩
    · refine Or.inr ⟨tail, hsrc, ?_⟩
      have : ((s.pop p rest).store p i (s.data j) (some src)).script p = rest := update_self ..
      rw [this, show ((s.pop p rest).store p i (s.data j) (some src)).log = s.log from rfl, hpc]
      exact Or.inr ⟨rfl, hrest⟩
    · have hlt := (List.getElem?_eq_some_iff.mp hdst).1
      exact Or.inl ⟨tail, by have := hcom.fits; omega, rfl⟩

/-- The stores of `write_head`. -/
theorem Inv.scriptHead (hscript : s.script p = .head n :: rest) (hi : s.Holds p i n m) (v : Block) :
    Inv L ((s.pop p rest).store p i v none) := by
  obtain ⟨know, hk, hsafe⟩ := (h.commit hrun).know p
  rw [hscript] at hsafe
  obtain ⟨-, hsafe⟩ := hsafe
  have hcore₀ : Core (s.pop p rest) := { h.core with }
  refine ⟨h.log, hcore₀.store (p := p) hi.1 _ _, fun _ => ?_⟩
  refine h.scriptMark hrun hidle hscript rfl (by simp) hi rfl rfl rfl rfl rfl rfl rfl rfl rfl ?_ hk hsafe ?_ ?_
  · intro k hk'; exact update_of_ne hk' ..
  · intro j b _ hc; exact Or.inl ((copied_pop rfl).mp hc)
  · intro c hc; cases hc

/-- `bwrite` in `commit`. -/
theorem Inv.scriptBwrite (hscript : s.script p = .bwrite n :: rest) (hi : s.Holds p i n m) :
    Inv L ((s.pop p rest).flush p i m n) := by
  have hcom := h.commit hrun
  obtain ⟨know, hk, hsafe⟩ := hcom.know p
  rw [hscript] at hsafe
  obtain ⟨m₀, hm₀, hsafe⟩ := hsafe
  obtain rfl := hk.mark h.core.uniq hidle hm₀ hi
  obtain rfl := hi.2.2
  have hcore₀ : Core (s.pop p rest) := { h.core with }
  refine ⟨h.log, hcore₀.flush (p := p) hi.1, fun _ => ?_⟩
  refine h.scriptMark hrun hidle hscript rfl (by simp) hi rfl rfl rfl rfl rfl rfl rfl rfl rfl ?_ hk hsafe ?_ ?_
  · intro k _; rfl
  · intro j b _ hc; exact Or.inl ((copied_pop rfl).mp hc)
  · intro c hc
    obtain ⟨hw, hd⟩ := hcom.copies p i _ m₀ c hi hc
    refine ⟨hw.mono rfl fun j hc' => ?_, hd⟩
    rw [hscript, ← copied_pop rfl] at hc'
    rwa [show ((s.pop p rest).flush p i m₀ (s.blockno i)).script p = rest from update_self ..]

/-- `bunpin` in `install_trans`. -/
theorem Inv.scriptBunpin (hscript : s.script p = .bunpin n :: rest) (hi : s.Holds p i n m) :
    Inv L { (s.pop p rest).decRef i with pins := s.pins.erase n } := by
  have hcom := h.commit hrun
  obtain ⟨know, hk, hsafe⟩ := hcom.know p
  rw [hscript] at hsafe
  obtain ⟨⟨m₀, hm₀, hsync⟩, hsafe⟩ := hsafe
  obtain rfl := hk.mark h.core.uniq hidle hm₀ hi
  have hsuf := hcom.suffix p
  rw [hscript] at hsuf
  obtain ⟨tail, hpc, hb, hrest⟩ := bunpin_cases hsuf
  have hpcom : (s.log.pc p).committer = true := by rw [hpc]; rfl
  obtain ⟨hlt, hget⟩ := List.getElem?_eq_some_iff.mp hb
  -- the pins are the blocks from `tail` on, and the first of them goes
  have hpins : s.pins = n :: s.log.block.drop (tail + 1) := by
    rw [hcom.pinsCommit p hpcom, hpc, hscript]
    simp only [unpinned, any_cons, Op.isBunpin, Bool.true_or, if_true]
    rw [drop_eq_getElem_cons hlt, hget]
  have hpins' : s.pins.erase n = s.log.block.drop (tail + 1) := by rw [hpins, erase_cons_head]
  obtain rfl := hi.2.2
  have hcore₀ : Core (s.pop p rest) := { h.core with }
  refine ⟨h.log, hcore₀.bunpin (p := p) hi.1 hsync (show s.blockno i ∈ s.pins by rw [hpins]; exact mem_cons_self ..),
    fun _ => ?_⟩
  refine hcom.local (p := p) rest h.log.oneCommitter rfl rfl rfl (hscript ▸ suffix_cons _ _)
    (fun _ hb => hb) hcom.bhome (fun _ _ => rfl) (fun _ _ _ _ _ => Iff.rfl) (fun _ _ _ _ _ _ => rfl)
    ⟨know, ⟨hk.held, hk.all⟩, hsafe⟩ ?_ ?_ ?_ ?_ ?_ ?_ ?_
  · intro hq
    rw [hq p] at hpcom; cases hpcom
  · intro q hq
    have hqp := h.log.oneCommitter q p hq hpcom
    subst hqp
    have hnone : rest.any Op.isBunpin = false := by simpa using hrest
    rw [hpins', hpc]
    simp [unpinned, Sys.pop, Sys.decRef, hnone]
  · intro hq; rw [hpcom] at hq; cases hq
  · intro j b _ hc; rw [hscript]; exact Or.inl ((copied_pop rfl).mp hc)
  · intro j hc; rw [hscript] at hc; exact (copied_pop rfl).mpr hc
  · intro j hs; rw [hscript]; exact (saved_pop (by simp)).mp hs
  · intro j k m c hj hc
    obtain ⟨hw, hd⟩ := hcom.copies p j k m c hj hc
    refine ⟨hw.mono rfl fun j' hc' => ?_, hd⟩
    rw [hscript, ← copied_pop rfl] at hc'
    simpa [Sys.pop, Sys.decRef] using hc'

end Scripted

theorem Commit.ne_slot (h : Commit L s) {k b : Nat} (hb : b ∈ s.log.block) (hk : s.log.block[j]? = some k) :
    b ≠ slot L j := by
  rintro rfl
  have hlt := (List.getElem?_eq_some_iff.mp hk).1
  exact slot_not_home (by have := h.fits; omega) (h.home _ hb)

/-- The slots after `commit` has released a copy. -/
theorem Inv.slots_of_want (h : Inv L s) (hrun : s.Running) {v : Block} {c : Nat}
    (hwant : want L s.log.block (s.log.pc p) n = some c) (hv : v = s.flat c ∨ c ∈ s.bwritten) {q : P} {b : Nat}
    (hb : s.log.block[j]? = some b) (hq : q = p)
    (hs : Saved L (s.log.pc q) [] j) :
    update s.flat n v (slot L j) = update s.flat n v b ∨ b ∈ s.bwritten := by
  have hcom := h.commit hrun
  subst hq
  have hbmem := mem_of_getElem? hb
  cases hpc : s.log.pc q with
  | writeLog tail =>
    rw [hpc] at hwant hs
    simp only [want] at hwant
    split at hwant
    · rename_i hn
      subst hn
      rw [update_of_ne (hcom.ne_slot hbmem hwant)]
      rcases hs with hlt | ⟨rfl, -⟩
      · rw [update_of_ne (by unfold slot; omega)]
        exact hcom.slots q j b hb (by rw [hpc]; exact Or.inl hlt)
      · obtain rfl := some.inj (hb.symm.trans hwant)
        rw [update_self]; exact hv
    · cases hwant
  | install tail =>
    rw [hpc] at hwant
    simp only [want] at hwant
    split at hwant
    · rename_i hn
      obtain rfl := some.inj hwant
      have hlt := (List.getElem?_eq_some_iff.mp hn).1
      have hv : v = s.flat (slot L tail) := hv.resolve_right fun hbw =>
        slot_not_home (by have := hcom.fits; omega) (hcom.bhome _ hbw)
      rw [update_of_ne (hcom.ne_slot (mem_of_getElem? hn) hb).symm]
      by_cases hbn : b = n
      · subst hbn
        obtain rfl : j = tail := by
          obtain ⟨h1, h2⟩ := List.getElem?_eq_some_iff.mp hb
          obtain ⟨h3, h4⟩ := List.getElem?_eq_some_iff.mp hn
          exact (List.Nodup.getElem_inj_iff h.log.nodup).mp (h2.trans h4.symm)
        rw [update_self, hv]; exact Or.inl rfl
      · rw [update_of_ne hbn]
        exact hcom.slots q j b hb (by rw [hpc]; trivial)
    · cases hwant
  | _ => rw [hpc] at hwant; cases hwant

/-- `brelse` in `commit`. -/
theorem Inv.scriptBrelse (h : Inv L s) (hrun : s.Running) (hidle : s.io p = .idle) (hscript : s.script p = .brelse n :: rest) (hi : s.Holds p i n m) :
    Inv L ((s.pop p rest).unlock p i n) := by
  have hcom := h.commit hrun
  obtain ⟨know, hk, hsafe⟩ := hcom.know p
  rw [hscript] at hsafe
  obtain ⟨⟨m₀, hm₀, hchg, hcase⟩, hsafe⟩ := hsafe
  obtain rfl := hk.mark h.core.uniq hidle hm₀ hi
  have hpcom : (s.log.pc p).committer = true := by
    by_contra hc
    rw [hcom.script_nil (by simpa using hc)] at hscript; cases hscript
  have hsuf := hcom.suffix p
  rw [hscript] at hsuf
  have hholds : ∀ q j k m', ((s.pop p rest).unlock p i n).Holds q j k m' → (q = p → j ≠ i) ∧ s.Holds q j k m' := by
    intro q j k m' hj
    rcases (holds_mark s ((s.pop p rest).unlock p i n) rfl rfl rfl _ _ _ _).mp hj with ⟨-, -, hx, -⟩ | hj
    · cases hx
    · exact hj
  have hcore₀ : Core (s.pop p rest) := { h.core with }
  have hcore : Core ((s.pop p rest).unlock p i n) := by
    obtain rfl := hi.2.2
    exact hcore₀.unlock (p := p) hidle hi.1 hchg
  refine ⟨h.log, hcore, fun _ => ?_⟩
  have hrel : ∀ (hslots : _) (hcopies : _), Commit L ((s.pop p rest).unlock p i n) :=
    hcom.release (p := p) (i := i) rest (hscript ▸ suffix_cons _ _) rfl
      (fun j => by rw [hscript]; exact copied_pop rfl) (by rw [hscript]; simp [Op.isBunpin]) rfl rfl rfl rfl rfl
      (fun q hq => update_of_ne hq ..) rfl rfl
      ⟨_, hk.update h.core.uniq hidle hi rfl rfl rfl, hsafe⟩
  by_cases hw : ∃ c, want L s.log.block (s.log.pc p) n = some c ∧ m₀.copyOf = some c
  · obtain ⟨c, hwant, hcopy⟩ := hw
    obtain rfl := brelse_last hcom.home hcom.fits hsuf hwant
    refine hrel (fun q j b hb hs => ?_) fun q j k m' c' hj hc' => ?_
    · have hqp := h.log.oneCommitter q p hs.committer hpcom
      subst hqp
      have hnil : ((s.pop q []).unlock q i n).script q = [] := update_self ..
      rw [hnil] at hs
      exact h.slots_of_want hrun hwant (hcom.copies q i n m₀ c hi hcopy).2 hb rfl hs
    · obtain ⟨hne, hj₀⟩ := hholds q j k m' hj
      by_cases hqp : q = p
      · -- `p` knows of no other copy
        subst hqp
        have hkm := hk.all j k m' hj₀ (Or.inl (by rw [hc']; simp))
        by_cases hkn : k = n
        · subst hkn; exact absurd (h.core.uniq j i k hj₀.2 hi.2) (hne rfl)
        · have := hsafe k
          rw [update_of_ne hkn, hkm] at this; cases this
      · have hq : (s.log.pc q).committer = false := by
          by_contra hc; exact hqp (h.log.oneCommitter q p (by simpa using hc) hpcom)
        rw [(hcom.plain (hcom.script_nil hq) hj₀).1] at hc'; cases hc'
  · have hcase : m₀.touched = false ∧ want L s.log.block (s.log.pc p) n = none ∨ n = L.start := by
      rcases hcase with hcase | hcase | hcase
      · exact Or.inl hcase
      · exact Or.inr hcase
      · exact absurd hcase hw
    have hkeep : ∀ q x, Watched L s q x → update s.flat n (s.data i) x = s.flat x ∨ x ∈ s.bwritten := by
      intro q x hx
      left
      by_cases hxn : x = n
      · subst hxn
        rcases hcase with ⟨ht, -⟩ | rfl
        · rw [update_self, (h.core.mark p i m₀ hi.1).fresh ht, hi.2.2]
        · rcases hx with ⟨j, -, hj⟩ | ⟨j, hj, -⟩
          · unfold slot at hj; omega
          · exact absurd rfl (hcom.home _ (mem_of_getElem? hj)).ne_start
      · exact update_of_ne hxn ..
    obtain ⟨hslots, hcopies⟩ := hcom.kept hkeep
    refine hrel (fun q j b hb hs => hslots q j b hb ?_) fun q j k m' c' hj => hcopies q j k m' c' (hholds q j k m' hj).2
    have hqp := h.log.oneCommitter q p hs.committer hpcom
    subst hqp
    have hself : ((s.pop q rest).unlock q i n).script q = rest := update_self ..
    rw [hself] at hs
    rw [hscript]
    cases hpc : s.log.pc q with
    | writeLog tail =>
      rw [hpc] at hs hcase
      refine hs.imp_right fun hjn => ⟨hjn.1, ?_⟩
      obtain ⟨rfl, hn⟩ := hjn
      have hne : slot L j ≠ n := by
        rintro rfl
        rcases hcase with ⟨-, hnone⟩ | hstart
        · simp [want, hb] at hnone
        · unfold slot at hstart; omega
      simpa [hne] using hn
    | writeHead => trivial
    | install tail => trivial
    | _ => rw [hpc] at hs; cases hs

variable {log : Log.St P}

/-- Process `p`, which is not in `commit`, moves elsewhere outside `commit`. -/
theorem Commit.bystander (h : Commit L s) (hp : (s.log.pc p).committer = false)
    (hblock : log.block = s.log.block) (hpc : ∀ q, q ≠ p → log.pc q = s.log.pc q) (hp' : (log.pc p).committer = false) :
    Commit L (logDone L s p log) := by
  have hnil := h.script_nil hp
  have hne : log.pc p ≠ .commit := by intro hc; rw [hc] at hp'; cases hp'
  have hdone : logDone L s p log = { s with log := log } := by
    rw [logDone, if_neg hne, body_nil (Or.inl hp'), ← hnil, update_eq_self]
  have hnot : ∀ q, q = p → ∀ j, ¬ Copied (log.pc q) (s.script q) j := by
    rintro q rfl j hc; rw [hc.committer] at hp'; cases hp'
  rw [hdone]
  refine
  { home := by simpa only [hblock] using h.home
    fits := by simpa only [hblock] using h.fits
    bhome := h.bhome
    know := fun q => ?_
    suffix := fun q => ?_
    pinsQuiet := fun hc => ?_
    pinsCommit := fun q hq => ?_
    late := fun q j b hb hc => ?_
    slots := fun q j b hb hs => ?_
    copies := fun q i n m c hi hc => ?_ }
  · obtain ⟨know, hk, hsafe⟩ := h.know q
    refine ⟨know, ⟨hk.held, hk.all⟩, ?_⟩
    by_cases hq : q = p
    · subst hq
      simp only [hnil] at hsafe ⊢
      exact hsafe
    · simpa only [hblock, hpc q hq] using hsafe
  · by_cases hq : q = p
    · subst hq; simp only [hnil]; exact nil_suffix
    · simpa only [hblock, hpc q hq] using h.suffix q
  · refine (h.pinsQuiet fun q => ?_).trans hblock.symm
    by_cases hq : q = p
    · rw [hq]; exact hp
    · have := hc q
      simpa only [hpc q hq] using this
  · by_cases hqp : q = p
    · subst hqp; simp only [hp'] at hq; cases hq
    · simp only [hpc q hqp] at hq
      simpa only [hblock, hpc q hqp] using h.pinsCommit q hq
  · by_cases hqp : q = p
    · exact absurd hc (hnot q hqp j)
    · simp only [hblock, hpc q hqp] at hb hc
      exact h.late q j b hb hc
  · by_cases hqp : q = p
    · subst hqp
      have := hs.committer
      simp only [hp'] at this; cases this
    · simp only [hblock, hpc q hqp] at hb hs
      exact h.slots q j b hb hs
  · by_cases hqp : q = p
    · subst hqp
      rw [(h.plain hnil hi).1] at hc; cases hc
    · obtain ⟨hw, hd⟩ := h.copies q i n m c hi hc
      refine ⟨?_, hd⟩
      simpa only [Watched, hblock, hpc q hqp] using hw

/-- Process `p` gets on in `commit`. -/
theorem Inv.advance (h : Inv L s) (hrun : s.Running) (hp : (s.log.pc p).committer = true)
    (hnil : s.script p = []) (hpc : log.pc = update s.log.pc p pc)
    (hpc' : pc.committer = true ∧ pc ≠ .commit)
    (hhome : ∀ b ∈ log.block, L.Home b) (hfits : log.block.length < L.size)
    (hpins : s.pins = log.block.drop (unpinned pc (body L log.block pc)))
    (hkeep : ∀ j b, log.block[j]? = some b → s.log.block[j]? = some b ∧
      (Copied pc (body L log.block pc) j → Copied (s.log.pc p) [] j) ∧
      (Saved L pc (body L log.block pc) j → Saved L (s.log.pc p) [] j)) :
    Commit L (logDone L s p log) := by
  have hcom := h.commit hrun
  have hself : log.pc p = pc := by rw [hpc, update_self]
  have hother : ∀ q, q ≠ p → log.pc q = s.log.pc q := fun q hq => by rw [hpc, update_of_ne hq]
  have hone : ∀ q, q ≠ p → (s.log.pc q).committer = false := by
    intro q hq; by_contra hc; exact hq (h.log.oneCommitter q p (by simpa using hc) hp)
  have hdone : logDone L s p log = { s with
      log := log, script := update s.script p (body L log.block pc) } := by
    rw [logDone, hself, if_neg hpc'.2]
  have hscr : ∀ q, q ≠ p → update s.script p (body L log.block pc) q = [] := by
    intro q hq; rw [update_of_ne hq]; exact hcom.script_nil (hone q hq)
  have hplain : ∀ q i n m, s.Holds q i n m → m.copyOf = none ∧ (m.touched = true → L.Home n) := by
    intro q i n m hi
    by_cases hq : q = p
    · subst hq; exact hcom.plain hnil hi
    · exact hcom.plain (hcom.script_nil (hone q hq)) hi
  rw [hdone]
  refine
  { home := hhome
    fits := hfits
    bhome := hcom.bhome
    know := fun q => ⟨_, knows_of_plain (hplain q), ?_⟩
    suffix := fun q => ?_
    pinsQuiet := fun hc => ?_
    pinsCommit := fun q hq => ?_
    late := fun q j b hb hc => ?_
    slots := fun q j b hb hs => ?_
    copies := fun q i n m c hi hc => ?_ }
  · by_cases hq : q = p
    · subst hq; simp only [update_self, hself]; exact safe_body hhome hfits pc
    · simp only [hscr q hq]; exact fun _ => rfl
  · by_cases hq : q = p
    · subst hq; simp only [update_self, hself]; exact suffix_refl _
    · simp only [hscr q hq]; exact nil_suffix
  · have := hc p
    simp only [hself, hpc'.1] at this; cases this
  · by_cases hqp : q = p
    · subst hqp; simp only [update_self, hself]; exact hpins
    · simp only [hother q hqp, hone q hqp] at hq; cases hq
  · by_cases hqp : q = p
    · subst hqp
      simp only [update_self, hself] at hc
      obtain ⟨hb', hc', -⟩ := hkeep j b hb
      exact hcom.late q j b hb' (by rw [hnil]; exact hc' hc)
    · have := hc.committer
      simp only [hother q hqp, hone q hqp] at this; cases this
  · by_cases hqp : q = p
    · subst hqp
      simp only [update_self, hself] at hs
      obtain ⟨hb', -, hs'⟩ := hkeep j b hb
      exact hcom.slots q j b hb' (by rw [hnil]; exact hs' hs)
    · have := hs.committer
      simp only [hother q hqp, hone q hqp] at this; cases this
  · rw [(hplain q i n m hi).1] at hc; cases hc

/-- At the start of the body for slot `j`, the slot is neither copied to nor released. -/
theorem writeLog_start {block : List Nat} (tail : Nat) {b : Nat} (hb : block[j]? = some b) :
    (Copied (.writeLog tail) (body L block (.writeLog tail)) j → j < tail) ∧
    (Saved L (.writeLog tail) (body L block (.writeLog tail)) j → j < tail) := by
  constructor
  · rintro (hlt | ⟨rfl, hc⟩)
    · exact hlt
    · simp [body, hb, writeLogBody, Op.isCopy] at hc
  · rintro (hlt | ⟨rfl, hn⟩)
    · exact hlt
    · simp [body, hb, writeLogBody, slot] at hn

/-- At the start of the body for slot `tail`, the blocks before it are unpinned. -/
theorem drop_unpinned_install (block : List Nat) (tail : Nat) :
    block.drop (unpinned (.install tail) (body L block (.install tail))) = block.drop tail := by
  cases hb : block[tail]? with
  | none =>
    have hlen := getElem?_eq_none_iff.mp hb
    rw [drop_eq_nil_of_le hlen, drop_eq_nil_of_le]
    simp only [unpinned]; split <;> omega
  | some b => simp [body, hb, installBody, unpinned, Op.isBunpin]

attribute [local simp] Log.Pc.committer

/-- One step of `commit`, the buffer operations of the last place in it being over. -/
theorem Inv.commitStep (h : Inv L s) (hrun : s.Running) (hnil : s.script p = [])
    (hs : Log.commitStep s.log p = some log) : Commit L (logDone L s p log) := by
  have hcom := h.commit hrun
  have hpins := hcom.pinsCommit p
  rw [hnil] at hpins
  unfold Log.commitStep at hs
  split at hs
  · rename_i hp
    obtain rfl := some.inj hs
    rw [hp] at hpins
    refine h.advance hrun (by rw [hp]; rfl) hnil rfl ?_ hcom.home hcom.fits ?_ fun j b (hb : s.log.block[j]? = some b) => ⟨hb, ?_⟩
    · split <;> simp
    · rw [hpins rfl]; split <;> rfl
    · split
      · obtain ⟨h1, h2⟩ := writeLog_start (L := L) 0 hb
        exact ⟨fun hc => absurd (h1 hc) (by omega), fun hc => absurd (h2 hc) (by omega)⟩
      · exact ⟨False.elim, False.elim⟩
  · rename_i tail hp
    obtain rfl := some.inj hs
    rw [hp] at hpins
    refine h.advance hrun (by rw [hp]; rfl) hnil rfl ?_ hcom.home hcom.fits ?_ fun j b (hb : s.log.block[j]? = some b) => ⟨hb, ?_⟩
    · split <;> simp
    · rw [hpins rfl]; split <;> rfl
    · rw [hp]
      split
      · obtain ⟨h1, h2⟩ := writeLog_start (L := L) (tail + 1) hb
        refine ⟨fun hc => ?_, fun hc => ?_⟩
        · rcases Nat.lt_succ_iff_lt_or_eq.mp (h1 hc) with hlt | rfl
          · exact Or.inl hlt
          · exact Or.inr ⟨rfl, by simp⟩
        · rcases Nat.lt_succ_iff_lt_or_eq.mp (h2 hc) with hlt | rfl
          · exact Or.inl hlt
          · exact Or.inr ⟨rfl, by simp⟩
      · have hlt := (List.getElem?_eq_some_iff.mp hb).1
        exact ⟨fun _ => Or.inl (by omega), fun _ => Or.inl (by omega)⟩
  · rename_i hp
    obtain rfl := some.inj hs
    rw [hp] at hpins
    refine h.advance hrun (by rw [hp]; rfl) hnil rfl (by simp) hcom.home hcom.fits ?_
      fun j b (hb : s.log.block[j]? = some b) => ⟨hb, ?_⟩
    · rw [hpins rfl, drop_unpinned_install]; rfl
    · rw [hp]; exact ⟨fun _ => trivial, fun _ => trivial⟩
  · rename_i tail hp
    rw [hp] at hpins
    split at hs
    · rename_i b hb
      obtain rfl := some.inj hs
      refine h.advance hrun (by rw [hp]; rfl) hnil rfl (by simp) hcom.home hcom.fits ?_
        fun j b (hb : s.log.block[j]? = some b) => ⟨hb, ?_⟩
      · rw [hpins rfl, drop_unpinned_install]; rfl
      · rw [hp]; exact ⟨fun _ => trivial, fun _ => trivial⟩
    · rename_i hb
      obtain rfl := some.inj hs
      refine h.advance hrun (by rw [hp]; rfl) hnil rfl (by simp) (by simp) L.size_pos ?_
        fun j b hb => by simp at hb
      have hlen := getElem?_eq_none_iff.mp hb
      rw [hpins rfl, drop_eq_nil_of_le]
      · rfl
      · simp only [unpinned, any_nil, Bool.false_eq_true, if_false]; omega
  · rename_i hp
    obtain rfl := some.inj hs
    rw [hp] at hpins
    have hblock := h.log.cleared p (Or.inl hp)
    refine h.advance hrun (by rw [hp]; rfl) hnil rfl (by simp) hcom.home hcom.fits ?_
      fun j b hb => by simp [hblock] at hb
    rw [hpins rfl]; rfl
  · cases hs

theorem committer_wakeup (pc : P → Log.Pc) (q : P) : (Log.wakeup pc q).committer = (pc q).committer := by
  by_cases hq : pc q = .asleep <;> simp [Log.wakeup, hq]

/-- Process `p` moves, and nobody is past the first step of `commit` then. -/
theorem Inv.settle (h : Inv L s) (hrun : s.Running)
    (hblock : log.block = s.log.block) (hpins : s.pins = s.log.block)
    (hscript : ∀ q, s.script q = [])
    (hpc : ∀ q, (log.pc q).committer = true → log.pc q = .commit) : Commit L (logDone L s p log) := by
  have hcom := h.commit hrun
  refine Commit.ofQuiet ?_ ?_ ?_ ?_ hpc ?_ fun q i n m hi => hcom.plain (hscript q) hi
  · simpa only [logDone, hblock] using hcom.home
  · simpa only [logDone, hblock] using hcom.fits
  · simp only [logDone]
    split
    · simp
    · exact hcom.bhome
  · intro q
    by_cases hq : q = p
    · subst hq
      have hbody : body L log.block (log.pc q) = [] := body_nil (by
        by_cases hc : (log.pc q).committer = true
        · exact Or.inr (hpc q hc)
        · exact Or.inl (by simpa using hc))
      simp [logDone, hbody]
    · simp [logDone, hq, hscript q]
  · simpa only [logDone, hblock] using hpins

/-- A step of the log protocol. -/
theorem Inv.logStep (h : Inv L s) (hrun : s.Running) (hnil : s.script p = []) {a : Log.Act}
    (ha : a.protocol = true) (hs : Log.step L.size s.log (p, a) = some log) :
    Inv L (logDone L s p log) := by
  have hcom := h.commit hrun
  have hlog := h.log.step hs
  refine ⟨hlog, { h.core with }, fun _ => ?_⟩
  obtain ⟨-, heff⟩ := Log.step_effect hs
  cases a with
  | logWrite b => cases ha
  | commit => exact h.commitStep hrun hnil heff
  | beginOp =>
    obtain ⟨hp, rfl⟩ := heff
    have hp₀ : (s.log.pc p).committer = false := by rcases hp with hp | hp <;> rw [hp] <;> rfl
    refine hcom.bystander hp₀ ?_ ?_ ?_
    all_goals unfold Log.beginOp
    · split <;> [skip; split] <;> rfl
    · intro q hq; split <;> [skip; split] <;> exact update_of_ne hq ..
    · split <;> [skip; split] <;> simp
  | endOp =>
    obtain ⟨hp, rfl⟩ := heff
    have hquiet := h.log.quiet_of_inOp hp
    have hnone := h.log.noCommitter hquiet
    have hblock : (Log.endOp s.log p).block = s.log.block := by
      unfold Log.endOp; split <;> [skip; split] <;> rfl
    refine h.settle hrun hblock (hcom.pinsQuiet hnone) (fun q => hcom.script_nil (hnone q)) fun q hq => ?_
    rw [Log.endOp, if_neg (by simp [hquiet])] at hq ⊢
    by_cases hqp : q = p
    · subst hqp
      split at hq
      · rw [if_pos ‹_›]; exact update_self ..
      · simp at hq
    · split at hq
      · simp only [update_of_ne hqp, hnone q] at hq; cases hq
      · simp only [update_of_ne hqp, committer_wakeup, hnone q] at hq; cases hq
  | endCommit =>
    obtain ⟨hp, rfl⟩ := heff
    have hpcom : (s.log.pc p).committer = true := by rw [hp]; rfl
    have hblock := h.log.cleared p (Or.inr hp)
    have hone : ∀ q, q ≠ p → (s.log.pc q).committer = false := by
      intro q hq; by_contra hc; exact hq (h.log.oneCommitter q p (by simpa using hc) hpcom)
    refine h.settle hrun rfl ?_ (fun q => ?_) fun q hq => ?_
    · rw [hcom.pinsCommit p hpcom, hblock]; simp
    · by_cases hqp : q = p
      · rw [hqp]; exact hnil
      · exact hcom.script_nil (hone q hqp)
    · by_cases hqp : q = p
      · subst hqp; simp [Log.endCommit] at hq
      · simp only [Log.endCommit, update_of_ne hqp, committer_wakeup, hone q hqp] at hq; cases hq

theorem Inv.step (h : Inv L s) {l : P × Act} (hs : step L s l = some s') : Inv L s' := by
  obtain ⟨p, a⟩ := l
  have hrun : s.Running := by
    refine ⟨?_, ?_⟩ <;> by_contra hc
    · simp [Bio.step, hc] at hs
    · simp [Bio.step, isSome_iff_ne_none, hc] at hs
  have heff := step_effect hs
  cases a with
  | resume => exact h.resume hrun heff
  | log a =>
    obtain ⟨-, hnil, ha, log, hlog, rfl⟩ := heff
    exact h.logStep hrun hnil ha hlog
  | client o =>
    obtain ⟨hidle, hpc, hok, s₁, heff, rfl⟩ := heff
    have hp : (s.log.pc p).committer = false := by rcases hpc with hpc | hpc <;> rw [hpc] <;> rfl
    cases o with
    | bread n => obtain rfl := heff; exact h.bread hrun hidle n
    | change n v => obtain ⟨i, m, hi, rfl⟩ := heff; exact h.change hrun hp hok hi v
    | logWrite n =>
      obtain ⟨i, m, hi, hin, rfl⟩ := heff
      by_cases hpanic : (Log.logWrite L.size s.log p n).panic.isSome = true
      · rw [if_pos hpanic]
        refine ⟨h.log.logWrite hin, { h.core with }, fun hrun' => ?_⟩
        have hnone : (Log.logWrite L.size s.log p n).panic = none := hrun'.2
        rw [hnone] at hpanic; cases hpanic
      · rw [if_neg hpanic]
        exact h.logWrite hrun hin hok.1 hi (by simpa using hpanic)
    | bwrite n => obtain ⟨i, m, hi, rfl⟩ := heff; exact h.bwrite hrun hp hok hi
    | brelse n =>
      obtain ⟨i, m, hi, rfl⟩ := heff
      exact h.brelse hrun hidle hp hi (hok _ (h.core.holding_of_holds hi))
    | copy => cases hok
    | head => cases hok
    | bunpin => cases hok
  | script =>
    obtain ⟨hidle, o, rest, hscript, heff⟩ := heff
    cases o with
    | bread n => obtain rfl := heff; exact h.scriptBread hrun hidle hscript
    | copy dst src => obtain ⟨i, m, j, m', hi, hj, rfl⟩ := heff; exact h.scriptCopy hrun hidle hscript hi hj
    | head n => obtain ⟨i, m, hi, rfl⟩ := heff; exact h.scriptHead hrun hidle hscript hi _
    | bwrite n => obtain ⟨i, m, hi, rfl⟩ := heff; exact h.scriptBwrite hrun hidle hscript hi
    | bunpin n => obtain ⟨i, m, hi, rfl⟩ := heff; exact h.scriptBunpin hrun hidle hscript hi
    | brelse n => obtain ⟨i, m, hi, rfl⟩ := heff; exact h.scriptBrelse hrun hidle hscript hi
    | _ =>
      obtain ⟨know, -, hsafe⟩ := (h.commit hrun).know p
      rw [hscript] at hsafe
      exact hsafe.elim

theorem inv_reach {d : Nat → Block} (h : Run.Reach (Bio.step L) (Sys.init d) s) : Inv L s :=
  Run.reach_invariant (fun _ _ _ hs hstep => hs.step hstep) (inv_init L d) h

end Xv6.Bio
