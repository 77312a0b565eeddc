import Xv6.Bio.Steps

/-! The cache and the disk are one flat map from block number to contents: every `bread` returns what
    was last released, a logged block is not recycled before it is installed, and `write_log` and
    `install_trans` copy the logged contents. -/

namespace Xv6.Bio
set_option linter.unusedSectionVars false
open Function Option
open Log (Block Area)

section
variable {P : Type} [DecidableEq P] {L : Area} {s s' : Sys P} {p : P} {i : Fin NBUF} {n : Nat} {m : Mark}
variable [Fintype P]

/-- Block `n` is logged, and `install_trans` has not unpinned it. -/
def Pending (s : Sys P) (n : Nat) : Prop :=
  ∃ j, s.log.block[j]? = some n ∧ ∀ p, unpinned (s.log.pc p) (s.script p) ≤ j

theorem Inv.pinned_of_pending (h : Inv L s) (hrun : s.Running) (hn : Pending s n) : n ∈ s.pins := by
  have hcom := h.commit hrun
  obtain ⟨j, hj, hle⟩ := hn
  by_cases hex : ∃ p, (s.log.pc p).committer = true
  · obtain ⟨p, hp⟩ := hex
    rw [hcom.pinsCommit p hp]
    refine List.mem_of_getElem? (i := j - unpinned (s.log.pc p) (s.script p)) ?_
    rw [List.getElem?_drop, Nat.add_sub_cancel' (hle p), hj]
  · rw [hcom.pinsQuiet fun p => by by_contra hp; exact hex ⟨p, by simpa using hp⟩]
    exact List.mem_of_getElem? hj

theorem bget_keeps (hi : 0 < s.refcnt i) (p : P) (k : Nat) :
    (s.bget p k).dev i = s.dev i ∧ (s.bget p k).blockno i = s.blockno i := by
  unfold Sys.bget
  split
  · exact ⟨rfl, rfl⟩
  split
  · rename_i j hfind
    have hj : s.refcnt j = 0 := by simpa using List.find?_some hfind
    have hne : i ≠ j := by rintro rfl; omega
    exact ⟨update_of_ne hne .., update_of_ne hne ..⟩
  · exact ⟨rfl, rfl⟩

theorem effect_keeps {size : Nat} {o : Op} (hi : 0 < s.refcnt i) (h : Effect size s p s' o) :
    s'.dev i = s.dev i ∧ s'.blockno i = s.blockno i := by
  cases o with
  | bread k => obtain rfl := h; exact bget_keeps hi p k
  | copy dst src => obtain ⟨_, _, _, _, -, -, rfl⟩ := h; exact ⟨rfl, rfl⟩
  | logWrite k =>
    obtain ⟨_, _, -, -, rfl⟩ := h
    split
    · exact ⟨rfl, rfl⟩
    · unfold Sys.logged; split <;> exact ⟨rfl, rfl⟩
  | _ => obtain ⟨_, _, -, rfl⟩ := h; exact ⟨rfl, rfl⟩

/-- A buffer somebody has a reference to goes on caching its block. -/
theorem step_keeps {l : P × Act} (hi : 0 < s.refcnt i) (h : Bio.step L s l = some s') :
    s'.dev i = s.dev i ∧ s'.blockno i = s.blockno i := by
  obtain ⟨p, a⟩ := l
  have heff := step_effect h
  cases a with
  | resume =>
    simp only [StepEffect, Sys.resume] at heff
    split at heff
    · cases heff
    · split at heff
      · cases heff
      · obtain rfl := some.inj heff; split <;> exact ⟨rfl, rfl⟩
    · obtain rfl := some.inj heff; exact ⟨rfl, rfl⟩
    · obtain rfl := some.inj heff; exact ⟨rfl, rfl⟩
  | client o =>
    obtain ⟨-, -, -, s₁, heff, rfl⟩ := heff
    have := effect_keeps hi heff
    cases o <;> exact this
  | script =>
    obtain ⟨-, o, rest, -, heff⟩ := heff
    exact effect_keeps (s := s.pop p rest) hi heff
  | log a => obtain ⟨-, -, -, log, -, rfl⟩ := heff; exact ⟨rfl, rfl⟩

/-- `bread` returns the contents last released. -/
theorem Inv.bread_returns (h : Inv L s) (hw : (s.io p).wants = some (i, n)) (hs : s.resume p = some s')
    (hret : s'.io p = .idle) : s'.Caches i n ∧ (s'.held p i).isSome = true ∧ s'.data i = s.flat n := by
  have hi := h.core.wants p i n hw
  cases hio : s.io p with
  | idle => rw [hio] at hw; cases hw
  | dropping j => rw [hio] at hw; cases hw
  | locking j k =>
    obtain ⟨rfl, rfl⟩ := Prod.mk.inj (some.inj ((hio ▸ hw : (Io.locking j k).wants = some (i, n))))
    by_cases ho : s.owner j = none
    · by_cases hv : s.valid j = true
      · obtain rfl : (s.lock p j).give p j = s' := by simpa [Sys.resume, hio, ho, hv] using hs
        exact ⟨hi, by simp [Sys.give, Sys.setIo, Sys.setMark], h.core.free j k hi ho hv⟩
      · obtain rfl : (s.lock p j).setIo p (.reading j k) = s' := by simpa [Sys.resume, hio, ho, hv] using hs
        simp [Sys.setIo] at hret
    · simp [Sys.resume, hio, isSome_iff_ne_none, ho] at hs
  | reading j k =>
    obtain ⟨rfl, rfl⟩ := Prod.mk.inj (some.inj ((hio ▸ hw : (Io.reading j k).wants = some (i, n))))
    obtain rfl : (s.fill j).give p j = s' := by simpa [Sys.resume, hio] using hs
    refine ⟨hi, by simp [Sys.give, Sys.setIo, Sys.setMark], ?_⟩
    have hstale := h.core.stale j k hi (h.core.reads p j (by rw [hio]; rfl))
    exact (update_self ..).trans (by rw [hi.2]; exact hstale)

/-- What `commit` copies is what was last released for the block it copies from. -/
theorem Inv.copy_copies (h : Inv L s) (hrun : s.Running) {dst src : Nat} {rest : List Op}
    (hscript : s.script p = .copy dst src :: rest) (hs : Bio.step L s (p, .script) = some s') :
    ∃ i, s'.Caches i dst ∧ s'.data i = s.flat src := by
  obtain ⟨hidle, o, r, hscr, heff⟩ := step_effect hs
  obtain ⟨rfl, rfl⟩ := List.cons.inj (hscript.symm.trans hscr)
  obtain ⟨i, m, j, m', hi, hj, rfl⟩ := heff
  obtain ⟨know, hk, hsafe⟩ := (h.commit hrun).know p
  rw [hscript] at hsafe
  obtain ⟨-, ⟨m₀, hm₀, ht⟩, -⟩ := hsafe
  obtain rfl := hk.mark h.core.uniq hidle hm₀ hj
  refine ⟨i, hi.2, (update_self ..).trans ?_⟩
  rw [← hj.2.2]; exact (h.core.mark p j m₀ hj.1).fresh ht

theorem effect_flat {size : Nat} {o : Op} (h : Effect size s p s' o) :
    s'.flat = s.flat ∨ ∃ i n m, s.Holds p i n m ∧ s'.held p i = none ∧
      s'.flat = update s.flat n (s.data i) := by
  cases o with
  | bread k => obtain rfl := h; exact Or.inl (bget_frame s p k).2.1
  | copy dst src => obtain ⟨_, _, _, _, -, -, rfl⟩ := h; exact Or.inl rfl
  | logWrite k =>
    obtain ⟨_, _, -, -, rfl⟩ := h
    left
    split
    · rfl
    · unfold Sys.logged; split <;> rfl
  | brelse k =>
    obtain ⟨i, m, hi, rfl⟩ := h
    exact Or.inr ⟨i, k, m, hi, by simp [Sys.unlock, Sys.setIo, Sys.setMark], rfl⟩
  | _ => obtain ⟨_, _, -, rfl⟩ := h; exact Or.inl rfl

/-- `flat` changes when a held buffer is released, to what the buffer holds. -/
theorem step_flat {l : P × Act} (h : Bio.step L s l = some s') :
    s'.flat = s.flat ∨ ∃ i n m, s.Holds l.1 i n m ∧ s'.held l.1 i = none ∧
      s'.flat = update s.flat n (s.data i) := by
  obtain ⟨p, a⟩ := l
  have heff := step_effect h
  cases a with
  | resume =>
    left
    simp only [StepEffect, Sys.resume] at heff
    split at heff
    · cases heff
    · split at heff
      · cases heff
      · obtain rfl := some.inj heff; split <;> rfl
    · obtain rfl := some.inj heff; rfl
    · obtain rfl := some.inj heff; rfl
  | client o =>
    obtain ⟨-, -, -, s₁, heff, rfl⟩ := heff
    have := effect_flat heff
    cases o <;> exact this
  | script =>
    obtain ⟨-, o, rest, -, heff⟩ := heff
    exact effect_flat (s := s.pop p rest) heff
  | log a => obtain ⟨-, -, -, log, -, rfl⟩ := heff; exact Or.inl rfl

/-- COHERENCE: `flat` is the contents last released for each block. In every reachable state the next
    `bread` to return gives out `flat n`; a logged block that `install_trans` has not unpinned has a
    valid buffer that no step recycles; `write_log` copies `flat b` for each logged block `b`, and
    `install_trans` copies what the log block holds, which is `flat b` again unless a client has
    written `b` through since the commit began. -/
theorem cache_coherence {d : Nat → Block} (h : Run.Reach (Bio.step L) (Sys.init d) s) :
    (∀ l s', Bio.step L s l = some s' → s'.flat = s.flat ∨ ∃ i n m, s.Holds l.1 i n m ∧
      s'.held l.1 i = none ∧ s'.flat = update s.flat n (s.data i)) ∧
    (∀ p i n s', (s.io p).wants = some (i, n) → Bio.step L s (p, .resume) = some s' → s'.io p = .idle →
      s'.Caches i n ∧ (s'.held p i).isSome = true ∧ s'.data i = s.flat n) ∧
    (s.Running → ∀ n, Pending s n → ∃ i, s.Caches i n ∧ s.valid i = true ∧ 0 < s.refcnt i ∧
      ∀ l s', Bio.step L s l = some s' → s'.Caches i n) ∧
    (∀ p tail b rest s', s.log.pc p = .writeLog tail → s.log.block[tail]? = some b →
      s.script p = .copy (slot L tail) b :: rest → Bio.step L s (p, .script) = some s' →
      ∃ i, s'.Caches i (slot L tail) ∧ s'.data i = s.flat b) ∧
    (∀ p tail b rest s', s.log.pc p = .install tail → s.log.block[tail]? = some b →
      s.script p = .copy b (slot L tail) :: rest → Bio.step L s (p, .script) = some s' →
      ∃ i, s'.Caches i b ∧ s'.data i = s.flat (slot L tail) ∧ (s'.data i = s.flat b ∨ b ∈ s.bwritten)) := by
  have hinv := inv_reach h
  have hrunning : ∀ {l s'}, Bio.step L s l = some s' → s.Running := by
    intro l s' hs
    refine ⟨?_, ?_⟩ <;> by_contra hc
    · simp [Bio.step, hc] at hs
    · simp [Bio.step, isSome_iff_ne_none, hc] at hs
  refine ⟨fun l s' hs => step_flat hs, fun p i n s' hw hs hret => ?_, fun hrun n hn => ?_,
    fun p tail b rest s' _ _ hscript hs => hinv.copy_copies (hrunning hs) hscript hs,
    fun p tail b rest s' hpc hb hscript hs => ?_⟩
  · exact hinv.bread_returns hw (step_effect hs) hret
  · have hpin := hinv.pinned_of_pending hrun hn
    obtain ⟨i, hi, hv⟩ := hinv.core.pins n hpin
    have href : 0 < s.refcnt i := by
      have := hinv.core.refs i
      have hcount : 0 < s.pinned i := by
        rw [Sys.pinned, if_pos hi.1, hi.2]; exact List.count_pos_iff.mpr hpin
      omega
    refine ⟨i, hi, hv, href, fun l s' hs => ?_⟩
    obtain ⟨hdev, hblk⟩ := step_keeps href hs
    exact ⟨hdev.trans hi.1, hblk.trans hi.2⟩
  · have hrun := hrunning hs
    obtain ⟨i, hi, hdata⟩ := hinv.copy_copies hrun hscript hs
    refine ⟨i, hi, hdata, ?_⟩
    rw [hdata]
    exact (hinv.commit hrun).slots p tail b hb (by rw [hpc]; trivial)

/-- THE CACHE KEEPS ITS BOOKS: in every reachable state no block has two buffers, `refcnt` counts the processes that ask
    for, hold or drop a buffer, and its pins, and no two processes hold one buffer. A valid buffer that nobody has locked
    holds what was last released for its block, and so does the disk unless the block is pinned. -/
theorem bcache_books {d : Nat → Block} (h : Run.Reach (Bio.step L) (Sys.init d) s) :
    (∀ i j n, s.Caches i n → s.Caches j n → i = j) ∧ (∀ i, s.refcnt i = ∑ p, s.refs i p + s.pinned i) ∧
    (∀ p q i, (s.held p i).isSome → (s.held q i).isSome → p = q) ∧
    (∀ i n, s.Caches i n → s.owner i = none → s.valid i = true → s.data i = s.flat n) ∧
    ∀ n, n ∉ s.pins → (∀ i, s.Caches i n → s.owner i = none) → s.disk n = s.flat n := by
  have hC := (inv_reach h).core
  have howner : ∀ {p i}, (s.held p i).isSome → s.owner i = some p := fun hp => (hC.owner _ _).mpr (.inr hp)
  exact ⟨hC.uniq, hC.refs, fun p q i hp hq => some.inj ((howner hp).symm.trans (howner hq)), hC.free, hC.settled⟩

end

attribute [local instance] neZero_one in
/-- Log one block and commit it, up to the copy in `write_log`. -/
def oneLogged : List (Fin 1 × Act) :=
  [(0, .log .beginOp), (0, .client (.bread 50)), (0, .resume), (0, .resume),
    (0, .client (.change 50 fun _ => 7)), (0, .client (.logWrite 50)), (0, .client (.brelse 50)), (0, .resume),
    (0, .log .endOp), (0, .log .commit), (0, .script), (0, .resume), (0, .resume), (0, .script), (0, .resume)]

theorem bcache_books_oneLogged : ∃ s : Sys (Fin 1),
    Run.run (step Log.mkfsArea) (Sys.init fun _ _ => 0) oneLogged = some s ∧ ∀ i, s.refcnt i = ∑ p, s.refs i p + s.pinned i := by
  have hrun : (Run.run (step Log.mkfsArea) (Sys.init fun _ _ => 0) oneLogged).isSome := by decide +kernel
  obtain ⟨s, hs⟩ := isSome_iff_exists.mp hrun
  exact ⟨s, hs, (bcache_books ⟨_, hs⟩).2.1⟩

attribute [local instance] neZero_one in
/-- The next step copies block 50 to block 3. -/
def atCopy (s : Sys (Fin 1)) : Bool :=
  (match s.script 0 with
    | .copy 3 50 :: _ => true
    | _ => false) && s.log.pc 0 == .writeLog 0 && s.log.block == [50] && s.disk 50 0 == 0 && s.flat 50 0 == 7

theorem atCopy_script {s : Sys (Fin 1)} (h : atCopy s = true) : ∃ rest, s.script 0 = .copy 3 50 :: rest := by
  unfold atCopy at h
  split at h
  · exact ⟨_, ‹_›⟩
  · cases h

/-- `write_log` copies the logged 7s, though the home block on disk is still 0. -/
theorem cache_coherence_oneLogged : ∃ s s' : Sys (Fin 1),
    Run.run (step Log.mkfsArea) (Sys.init fun _ _ => 0) oneLogged = some s ∧
    step Log.mkfsArea s (0, .script) = some s' ∧ s.disk 50 0 = 0 ∧ ∃ i, s'.Caches i 3 ∧ s'.data i 0 = 7 := by
  have hrun : ((Run.run (step Log.mkfsArea) (Sys.init fun _ _ => 0) oneLogged).map fun s =>
      (atCopy s, (step Log.mkfsArea s (0, .script)).isSome)) = some (true, true) := by decide +kernel
  obtain ⟨s, hs, heq⟩ := map_eq_some_iff.mp hrun
  obtain ⟨hat, hsome⟩ := Prod.mk.inj heq
  obtain ⟨s', hs'⟩ := isSome_iff_exists.mp hsome
  obtain ⟨rest, hscript⟩ := atCopy_script hat
  simp only [atCopy, hscript, Bool.true_and, Bool.and_eq_true, beq_iff_eq] at hat
  obtain ⟨⟨⟨hpc, hblock⟩, hdisk⟩, hflat⟩ := hat
  obtain ⟨i, hi, hdata⟩ := (cache_coherence ⟨_, hs⟩).2.2.2.1 0 0 50 rest s' hpc (by rw [hblock]; rfl) hscript hs'
  exact ⟨s, s', hs, hs', hdisk, i, hi, by rw [hdata]; exact hflat⟩

end Xv6.Bio
