import Xv6.Process.Steps

/-! `sleep` and `wakeup` lose no wakeup.

    The state of a process is tied to the place its thread is at (`Placed`). From the moment `sleep` has
    given `lk` away until it is woken, a process is `Resting`, and whoever begins a `wakeup` meanwhile has it
    still to come in its loop: the process cannot be passed over, because between the release of `lk`
    and the change of state it holds the lock that `wakeup` takes first. -/

namespace Xv6.Process.Kernel
open Function List

variable {C P L Ch : Type}

/-- The place behind a `yield` or `sched`. -/
def Code.strip : Code P L Ch → Code P L Ch
  | .yieldAcq k | .yieldSet k | .yieldOut k | .sched k => k.strip
  | k => k

/-- Made `RUNNABLE` by a `wakeup` on `ch` or by `kill`. -/
def Woken (ch : Chan P Ch) (w : Option (Cause P Ch)) : Prop := w = some (.wakeup (some ch)) ∨ w = some .kill

def Active (st : ProcState) : Prop := st = .RUNNABLE ∨ st = .RUNNING

/-- The states a process can have at a place. -/
def Placed (q : Proc P (Chan P Ch)) (w : Option (Cause P Ch)) : Code P L Ch → Prop
  | .sleepOut ch _ _ => (q.state = .SLEEPING ∧ q.chan = some ch) ∨ (Active q.state ∧ Woken ch w)
  | .sleepLk ch _ _ => Active q.state ∧ q.chan = none ∧ Woken ch w
  | .forkret => q.state ≠ .SLEEPING ∧ q.state ≠ .ZOMBIE
  | .exitRel | .zombie => q.state = .ZOMBIE ∨ q.state = .UNUSED
  | _ => Active q.state

section Placed
variable {q q' : Proc P (Chan P Ch)} {w w' : Option (Cause P Ch)} {k : Code P L Ch}

theorem Placed.of_eq (h : Placed q w k) (hstate : q'.state = q.state) (hchan : q'.chan = q.chan) : Placed q' w k := by
  unfold Placed at h ⊢
  rw [hstate, hchan]
  exact h

/-- A process that is not about to run sleeps, has not been started or has exited. -/
theorem Placed.cases (h : Placed q w k) : Active q.state ∨
    (q.state = .SLEEPING ∧ ∃ ch lk k', k = .sleepOut ch lk k' ∧ q.chan = some ch) ∨
    (k = .forkret ∧ q.state ≠ .SLEEPING ∧ q.state ≠ .ZOMBIE) ∨
    ((k = .exitRel ∨ k = .zombie) ∧ (q.state = .ZOMBIE ∨ q.state = .UNUSED)) := by
  cases k with
  | sleepOut ch lk k =>
    rcases h with h | h
    · exact .inr (.inl ⟨h.1, ch, lk, k, rfl, h.2⟩)
    · exact .inl h.1
  | sleepLk => exact .inl h.1
  | forkret => exact .inr (.inr (.inl ⟨rfl, h⟩))
  | exitRel => exact .inr (.inr (.inr ⟨.inl rfl, h⟩))
  | zombie => exact .inr (.inr (.inr ⟨.inr rfl, h⟩))
  | _ => exact .inl h

/-- The process goes on running or waiting to run. -/
theorem Placed.of_active (h : Placed q w k) (hq : Active q.state) (hq' : Active q'.state) (hchan : q'.chan = q.chan) :
    Placed q' w k := by
  have hne : ∀ {st : ProcState}, Active st → st ≠ .SLEEPING ∧ st ≠ .ZOMBIE ∧ st ≠ .UNUSED := by
    rintro st (rfl | rfl) <;> exact ⟨nofun, nofun, nofun⟩
  cases k with
  | sleepOut ch lk k => exact .inr ⟨hq', (h.resolve_left fun h => (hne hq).1 h.1).2⟩
  | sleepLk ch lk k => exact ⟨hq', hchan.trans h.2.1, h.2.2⟩
  | forkret => exact ⟨(hne hq').1, (hne hq').2.1⟩
  | exitRel | zombie => exact (h.elim (hne hq).2.1 (hne hq).2.2).elim
  | _ => exact hq'

/-- A sleeper is in `sleep`, on its channel. -/
theorem Placed.sleeping (h : Placed q w k) (hq : q.state = .SLEEPING) :
    ∃ ch lk k', k = .sleepOut ch lk k' ∧ q.chan = some ch := by
  rcases h.cases with hact | ⟨_, hout⟩ | ⟨_, hno, _⟩ | ⟨_, hdead⟩
  · rw [hq] at hact
    rcases hact with h | h <;> cases h
  · exact hout
  · exact absurd hq hno
  · rw [hq] at hdead
    rcases hdead with h | h <;> cases h

/-- The sleeper is made `RUNNABLE`. -/
theorem Placed.wake (h : Placed q w k) (hq : q.state = .SLEEPING) (hq' : q'.state = .RUNNABLE)
    (hw : ∀ ch, q.chan = some ch → Woken ch w') : Placed q' w' k := by
  obtain ⟨ch, lk, k', rfl, hch⟩ := h.sleeping hq
  exact .inr ⟨.inl hq', hw ch hch⟩

/-- A process that has not been started. -/
theorem Placed.used (h : Placed q w k) (hq : q.state = .USED) : k = .forkret := by
  rcases h.cases with hact | ⟨hsleep, _⟩ | ⟨hk, _⟩ | ⟨_, hdead⟩
  · rw [hq] at hact
    rcases hact with h | h <;> cases h
  · cases hq.symm.trans hsleep
  · exact hk
  · rw [hq] at hdead
    rcases hdead with h | h <;> cases h

theorem Placed.zombie (h : Placed q w k) (hq : q.state = .ZOMBIE) : k = .exitRel ∨ k = .zombie := by
  rcases h.cases with hact | ⟨hsleep, _⟩ | ⟨_, _, hno⟩ | ⟨hk, _⟩
  · rw [hq] at hact
    rcases hact with h | h <;> cases h
  · cases hq.symm.trans hsleep
  · exact absurd hq hno
  · exact hk

end Placed

section Step
variable [DecidableEq P] {init : P} {table : List P} {p i j : P} {k k' : Code P L Ch} {t t' : Tbl P L Ch}

theorem Placed.set {q : Proc P (Chan P Ch)} (h : Placed (t.proc i) (t.woken i) k) (hq : i = j → Placed q (t.woken i) k) :
    Placed ((t.set j q).proc i) (t.woken i) k := by
  rcases eq_or_ne i j with rfl | hij
  · rw [set_self]
    exact hq rfl
  · rw [set_of_ne hij]
    exact h

theorem Placed.kill (h : Placed (t.proc i) (t.woken i) k) : Placed ((t.kill j).proc i) ((t.kill j).woken i) k := by
  rw [kill_proc]
  rcases eq_or_ne i j with rfl | hij
  · rw [if_pos rfl]
    by_cases hsleep : (t.proc i).state = .SLEEPING
    · refine h.wake hsleep (if_pos hsleep) fun ch _ => .inr ?_
      simp [Tbl.kill, hsleep]
    · have hw : (t.kill i).woken i = t.woken i := by simp [Tbl.kill, hsleep]
      rw [hw]
      exact h.of_eq (if_neg hsleep) rfl
  · have hw : (t.kill j).woken i = t.woken i := by
      simp only [Tbl.kill]
      split
      · exact update_of_ne hij ..
      · rfl
    rw [if_neg hij, hw]
    exact h

variable [DecidableEq Ch] {ch : Option (Chan P Ch)}

theorem wakeup_sleeps : (t.wakeup j ch).sleeps = t.sleeps := by
  unfold Tbl.wakeup
  split <;> rfl

theorem Placed.wakeup (h : Placed (t.proc i) (t.woken i) k) : Placed ((t.wakeup j ch).proc i) ((t.wakeup j ch).woken i) k := by
  unfold Tbl.wakeup
  split
  · rename_i hsleep
    rcases eq_or_ne i j with rfl | hij
    · refine h.wake hsleep.1 ?_ fun ch' hch' => .inl ?_
      · simp [Proc.wake, hsleep]
      · simp [hsleep.2.symm.trans hch']
    · change Placed ((t.set j _).proc i) (update t.woken j _ i) k
      rw [set_of_ne hij, update_of_ne hij]
      exact h
  · exact h

/-- A step of process `p` and its own place. -/
theorem Next.placed_self (h : Next init table p t k t' k') (hok : Ok init table p k)
    (hrun : mid k = false → (t.proc p).state = .RUNNING) (hused : ∀ j, forks k = some j → (t.proc j).state = .USED)
    (hp : Placed (t.proc p) (t.woken p) k.strip) : Placed (t'.proc p) (t'.woken p) k'.strip := by
  have hne : mid k = false → ∀ {j st}, (t.proc j).state = st → st ≠ .RUNNING → p ≠ j := by
    rintro hmid j st hj hst rfl
    exact hst (hj.symm.trans (hrun hmid))
  cases h with
  | sleepRel => exact hp
  | sleepSet ch lk k => exact .inl ⟨by simp [Tbl.sleep], by simp [Tbl.sleep]⟩
  | sleepOut ch lk k =>
    have hwoken := hp.resolve_left fun h => by
      rw [hrun rfl] at h
      cases h.1
    exact ⟨by rw [set_self]; exact hwoken.1, by rw [set_self], hwoken.2⟩
  | sleepLk ch lk k =>
    rcases hok with ⟨_, _, rfl⟩ | ⟨_, _, _, _, rfl⟩ <;> exact hp.1
  | sched | yieldAcq | yieldOut => exact hp
  | yieldSet k => exact hp.set fun _ => hp.of_active (.inr (hrun rfl)) (.inl rfl) rfl
  | wakeEnd ch k =>
    rcases hok with ⟨_, rfl⟩ | ⟨_, ⟨_, _, _, rfl⟩ | ⟨_, rfl⟩⟩ <;> exact hp
  | wakeIn ch j js k => exact Placed.wakeup (k := .user) hp
  | killIn pid j js hj => exact Placed.kill (k := .user) hp
  | alloc j js hj => exact Placed.set (k := .user) hp fun hpj => absurd hpj (hne rfl hj nofun)
  | unalloc j | ready j pid => exact Placed.set (k := .user) hp fun hpj => absurd hpj (hne rfl (hused j rfl) nofun)
  | setParent j pid | adopt status j js hj =>
    exact Placed.set (k := .user) hp fun hpj => Placed.of_eq (k := .user) hp (by rw [hpj]) (by rw [hpj])
  | forkret => exact .inr (hrun rfl)
  | exitSet status => exact .inl (by simp [Tbl.exit])
  | reap j js hj => exact Placed.set (k := .user) hp fun hpj => absurd hpj (hne rfl hj nofun)
  | _ => exact hp

/-- A step of process `p` and the place of another one. -/
theorem Next.placed_other (h : Next init table p t k t' k') (hused : ∀ j, forks k = some j → (t.proc j).state = .USED)
    (hip : i ≠ p) (hi : Placed (t.proc i) (t.woken i) (t.code i).strip) :
    Placed (t'.proc i) (t'.woken i) (t'.code i).strip := by
  cases h with
  | sleepOut | yieldSet => exact hi.set fun h => absurd h hip
  | sleepSet ch lk k =>
    change Placed ((t.set p _).proc i) (update t.woken p none i) _
    rw [set_of_ne hip, update_of_ne hip]
    exact hi
  | wakeIn ch j js k =>
    rw [wakeup_code]
    exact hi.wakeup
  | killIn pid j js hj => exact hi.kill
  | alloc j js hj =>
    change Placed ((t.set j _).proc i) (t.woken i) (update t.code j .forkret i).strip
    rcases eq_or_ne i j with rfl | hij
    · rw [set_self, update_self]
      exact ⟨nofun, nofun⟩
    · rw [set_of_ne hij, update_of_ne hij]
      exact hi
  | unalloc j =>
    refine hi.set fun hij => ?_
    rw [hi.used (hij ▸ hused j rfl)]
    exact ⟨nofun, nofun⟩
  | setParent j pid | adopt status j js hj => exact hi.set fun hij => hi.of_eq (by rw [hij]) (by rw [hij])
  | ready j pid =>
    refine hi.set fun hij => ?_
    rw [hi.used (hij ▸ hused j rfl)]
    exact ⟨nofun, nofun⟩
  | exitSet status => exact hi.set fun h => absurd h hip
  | reap j js hj =>
    refine hi.set fun hij => ?_
    rcases hi.zombie (hij ▸ hj) with h | h <;> rw [h] <;> exact .inr rfl
  | _ => exact hi

/-- Other threads are left where they are, but for one that `allocproc` starts. -/
theorem Next.code_other (h : Next init table p t k t' k') :
    t'.code i = t.code i ∨ (t.proc i).state = .UNUSED ∧ t'.code i = .forkret := by
  cases h with
  | wakeIn => exact .inl (by rw [wakeup_code])
  | alloc j js hj =>
    rcases eq_or_ne i j with rfl | hij
    · exact .inr ⟨hj, update_self ..⟩
    · exact .inl (update_of_ne hij ..)
  | _ => exact .inl rfl

/-- Only `sleep` puts a process to sleep. -/
theorem Next.sleeping {ch : Chan P Ch} (h : Next init table p t k t' k') (hs : (t'.proc i).state = .SLEEPING)
    (hc : (t'.proc i).chan = some ch) :
    ((t.proc i).state = .SLEEPING ∧ (t.proc i).chan = some ch) ∨ i = p ∧ ∃ lk k₀, k = .sleepSet ch lk k₀ := by
  have hwrite := h.write i
  generalize t'.proc i = q at hs hc hwrite
  cases hwrite with
  | same => exact .inl ⟨hs, hc⟩
  | sleep ch' lk k₀ hi hk =>
    obtain rfl := Option.some.inj hc
    exact .inr ⟨hi, lk, k₀, hk⟩
  | wake => exact .inl ⟨(Proc.sleeping_wake hs).1, Proc.chan_wake.symm.trans hc⟩
  | kill => exact absurd hs Proc.awake_kill
  | tidy => cases hc
  | parent | adopt => exact .inl ⟨hs, hc⟩
  | _ => cases hs

theorem Next.of_sleepSet {ch : Chan P Ch} {lk : Lock P L} {k₀ : Code P L Ch}
    (h : Next init table p t k t' (.sleepSet ch lk k₀)) (hok : Ok init table p k) :
    k = .sleepRel ch lk k₀ ∧ t' = t.drop p := by
  generalize hk' : Code.sleepSet ch lk k₀ = k' at h
  cases h with
  | sleepRel => cases hk'; exact ⟨rfl, rfl⟩
  | sleepLk => rcases hok with ⟨_, _, rfl⟩ | ⟨_, _, _, _, rfl⟩ <;> cases hk'
  | sched => subst hk'; exact hok.elim
  | yieldOut => subst hk'; cases hok.1
  | wakeEnd => rcases hok with ⟨_, rfl⟩ | ⟨_, ⟨_, _, _, rfl⟩ | ⟨_, rfl⟩⟩ <;> cases hk'
  | _ => cases hk'

theorem Next.sleeps (h : Next init table p t k t' k') : t'.sleeps i = t.sleeps i ∨
    i = p ∧ t'.sleeps i = t.sleeps i + 1 ∧ ∃ ch lk k₀, k = .sleepRel ch lk k₀ ∧ k' = .sleepSet ch lk k₀ := by
  cases h with
  | sleepRel ch lk k =>
    rcases eq_or_ne i p with rfl | hip
    · exact .inr ⟨rfl, update_self .., ch, lk, k, rfl, rfl⟩
    · exact .inl (update_of_ne hip ..)
  | wakeIn => exact .inl (by rw [wakeup_sleeps])
  | _ => exact .inl rfl

end Step

/-- `sleep` has given its lock away and nobody has woken the process. -/
def Resting (t : Tbl P L Ch) (p : P) (ch : Chan P Ch) : Prop :=
  (∃ lk k, t.code p = .sleepSet ch lk k) ∨ ((t.proc p).state = .SLEEPING ∧ (t.proc p).chan = some ch)

/-- The thread executes `wakeup(ch)` and has process `p` still before it. -/
def Scans (ch : Chan P Ch) (p : P) : Code P L Ch → Prop
  | .wake ch' js _ => ch' = some ch ∧ p ∈ js
  | .wakeIn ch' j js _ => ch' = some ch ∧ p ∈ j :: js
  | _ => False

def AllPlaced (t : Tbl P L Ch) : Prop := ∀ i, Placed (t.proc i) (t.woken i) (t.code i).strip

section Run
variable [DecidableEq P] [DecidableEq Ch] {init : P} {table : List P}
  {s s' : St C P L Ch} {i q : P} {ch : Chan P Ch}

theorem Effect.placed (h : Inv init table s) (he : Effect init table s s') (hp : AllPlaced s.tbl) : AllPlaced s'.tbl := by
  intro i
  cases he with
  | idle htbl =>
    rw [htbl]
    exact hp i
  | pick c j hlock hj htbl =>
    rw [htbl]
    exact (hp i).set fun hij => (hp i).of_active (.inl (hij ▸ hj)) (.inr rfl) (by rw [hij])
  | move c p js t' k' hth hnext htbl =>
    rw [htbl]
    have hruns := (h.runs hth).2
    rcases eq_or_ne i p with rfl | hip
    · rw [goto_self]
      exact hnext.placed_self hruns.ok hruns.running (h.used i) (hp i)
    · rw [goto_of_ne hip]
      exact hnext.placed_other (h.used p) hip (hp i)
  | timer c p js hth hlocks htbl =>
    rw [htbl]
    rcases eq_or_ne i p with rfl | hip
    · rw [goto_self]
      exact hp i
    · rw [goto_of_ne hip]
      exact hp i

/-- A process begins to rest by giving its lock away. -/
theorem Effect.resting (h : Inv init table s) (he : Effect init table s s') (hr : Resting s'.tbl i ch) :
    (Resting s.tbl i ch ∧ s'.tbl.sleeps i = s.tbl.sleeps i) ∨
      s'.tbl.sleeps i = s.tbl.sleeps i + 1 ∧ s'.tbl.proc = s.tbl.proc ∧ ∃ lk k, s.tbl.code i = .sleepRel ch lk k := by
  cases he with
  | idle htbl =>
    rw [htbl] at hr ⊢
    exact .inl ⟨hr, rfl⟩
  | pick c j hlock hj htbl =>
    rw [htbl] at hr ⊢
    refine .inl ⟨hr.imp id fun ⟨hs, hc⟩ => ?_, rfl⟩
    rcases eq_or_ne i j with rfl | hij
    · rw [set_self] at hs
      cases hs
    · rw [set_of_ne hij] at hs hc
      exact ⟨hs, hc⟩
  | move c p js t' k' hth hnext htbl =>
    have hruns := (h.runs hth).2
    rw [htbl] at hr ⊢
    rcases hr with ⟨lk, k, hcode⟩ | ⟨hs, hc⟩
    · rcases eq_or_ne i p with rfl | hip
      · rw [goto_self] at hcode
        subst hcode
        obtain ⟨hk, rfl⟩ := hnext.of_sleepSet hruns.ok
        exact .inr ⟨update_self .., rfl, lk, k, hk⟩
      · rw [goto_of_ne hip] at hcode
        refine .inl ⟨.inl ⟨lk, k, ?_⟩, (hnext.sleeps.resolve_right fun h => hip h.1)⟩
        exact ((hnext.code_other (i := i)).resolve_right fun h => by cases h.2.symm.trans hcode).symm.trans hcode
    · refine .inl ⟨?_, hnext.sleeps.resolve_right fun ⟨hip, _, _, _, _, hk, _⟩ => ?_⟩
      · rcases hnext.sleeping hs hc with h | ⟨rfl, lk, k, hk⟩
        · exact .inr h
        · exact .inl ⟨lk, k, hk⟩
      · have hrunning := hruns.running (by rw [hk]; rfl)
        rcases hnext.sleeping hs hc with h | ⟨_, _, _, hk'⟩
        · rw [hip, hrunning] at h
          cases h.1
        · cases hk.symm.trans hk'
  | timer c p js hth hlocks htbl =>
    rw [htbl] at hr ⊢
    refine .inl ⟨hr.imp (fun ⟨lk, k, hcode⟩ => ?_) id, rfl⟩
    rcases eq_or_ne i p with rfl | hip
    · cases goto_self.symm.trans hcode
    · exact ⟨lk, k, (goto_of_ne hip).symm.trans hcode⟩

theorem Effect.sleeps_le (he : Effect init table s s') : s.tbl.sleeps i ≤ s'.tbl.sleeps i := by
  cases he with
  | idle htbl | pick _ _ _ _ htbl | timer _ _ _ _ _ htbl => exact (congrArg (fun t : Tbl P L Ch => t.sleeps i) htbl).ge
  | move c p js t' k' hth hnext htbl =>
    rw [htbl]
    rcases hnext.sleeps (i := i) with h | ⟨_, h, _⟩
    · exact h.ge
    · exact (Nat.le_succ _).trans h.ge

/-- `wakeup` goes over the table until it comes to the process. -/
theorem Next.scans {t t' : Tbl P L Ch} {k k' : Code P L Ch} (h : Next init table q t k t' k') (hne : i ≠ q)
    (hq : Scans ch i k.strip) : Scans ch i k'.strip ∨ (∃ js k₀, k = .wakeIn (some ch) i js k₀) ∧ t' = t.wakeup i (some ch) := by
  cases h with
  | sched | yieldAcq | yieldSet | yieldOut => exact .inl hq
  | wakeEnd ch k => cases hq.2
  | wakeSelf ch js k => exact .inl ⟨hq.1, (mem_cons.mp hq.2).resolve_left hne⟩
  | wakeLk ch j js k hj => exact .inl hq
  | wakeIn ch' j js k =>
    obtain ⟨rfl, hmem⟩ := hq
    rcases mem_cons.mp hmem with rfl | hmem
    · exact .inr ⟨⟨js, k, rfl⟩, rfl⟩
    · exact .inl ⟨rfl, hmem⟩
  | _ => exact hq.elim

omit [DecidableEq P] [DecidableEq Ch] in
theorem Placed.active_of_scans {r : Proc P (Chan P Ch)} {w : Option (Cause P Ch)} {k : Code P L Ch} (h : Placed r w k)
    (hk : Scans ch i k) : Active r.state := by
  cases k with
  | wake | wakeIn => exact h
  | _ => exact hk.elim

/-- Nobody who rests is passed over. -/
theorem Effect.scans (h : Inv init table s) (hp : AllPlaced s.tbl) (he : Effect init table s s')
    (hr : Resting s.tbl i ch) (hr' : Resting s'.tbl i ch) (hq : Scans ch i (s.tbl.code q).strip) :
    Scans ch i (s'.tbl.code q).strip := by
  have hactive := (hp q).active_of_scans hq
  have hne : i ≠ q := by
    rintro rfl
    rcases hr with ⟨lk, k, hk⟩ | ⟨hs, _⟩
    · rw [hk] at hq
      exact hq
    · rw [hs] at hactive
      rcases hactive with h | h <;> cases h
  cases he with
  | idle htbl | pick _ _ _ _ htbl =>
    rw [htbl]
    exact hq
  | timer c p js hth hlocks htbl =>
    rw [htbl]
    rcases eq_or_ne q p with rfl | hqp
    · rw [goto_self]
      exact hq
    · rw [goto_of_ne hqp]
      exact hq
  | move c p js t' k' hth hnext htbl =>
    rw [htbl] at hr' ⊢
    rcases eq_or_ne q p with rfl | hqp
    · rw [goto_self]
      refine (hnext.scans hne hq).resolve_right ?_
      rintro ⟨⟨js', k₀, hk⟩, rfl⟩
      -- the lock of the process is not free while it is about to sleep
      rcases hr' with ⟨lk, k, hcode⟩ | ⟨hs, hc⟩
      · rw [goto_of_ne hne, wakeup_code] at hcode
        refine hne (h.holder_unique (l := .proc i) ?_ ?_ ?_ ?_)
        · rw [hcode]; exact mem_cons_self ..
        · rw [hk]; exact mem_cons_self ..
        · rw [hcode]; exact id
        · rw [hk]; exact id
      · change ((s.tbl.wakeup i (some ch)).proc i).state = _ at hs
        change ((s.tbl.wakeup i (some ch)).proc i).chan = _ at hc
        rw [wakeup_eq_set, set_self] at hs hc
        exact (Proc.sleeping_wake hs).2 (Proc.chan_wake.symm.trans hc)
    · rw [goto_of_ne hqp]
      rcases hnext.code_other (i := q) with hsame | ⟨hunused, _⟩
      · rw [hsame]
        exact hq
      · rw [hunused] at hactive
        rcases hactive with h | h <;> cases h

/-- In the `n`th call of `sleep` of process `i`: as long as it rests there, `X` holds. -/
def During (n : Nat) (i : P) (ch : Chan P Ch) (t : Tbl P L Ch) (X : Prop) : Prop :=
  n ≤ t.sleeps i ∧ (t.sleeps i = n → Resting t i ch → X)

/-- A process does not come back to a call it has left. -/
theorem Effect.during {n : Nat} {X X' : Prop} (h : Inv init table s) (he : Effect init table s s')
    (hX : During n i ch s.tbl X) (hstep : Resting s.tbl i ch → Resting s'.tbl i ch → X → X') : During n i ch s'.tbl X' := by
  refine ⟨hX.1.trans he.sleeps_le, fun hn hr' => ?_⟩
  rcases he.resting h hr' with ⟨hr, hsame⟩ | ⟨hmore, _⟩
  · exact hstep hr hr' (hX.2 (hsame.symm.trans hn) hr)
  · have hle := hX.1
    omega

variable [DecidableEq C] [DecidableEq L] {as : List (Act C L Ch)}

omit [DecidableEq Ch] [DecidableEq C] [DecidableEq L] in
theorem placed_boot : AllPlaced (boot init : St C P L Ch).tbl := fun i => by
  refine ⟨?_, ?_⟩ <;> rcases eq_or_ne i init with rfl | hne
  · simp [boot]
  · simp [boot, hne, Proc.free]
  · simp [boot]
  · simp [boot, hne, Proc.free]

theorem placed_run (hrun : Run.run (step init table) (boot init) as = some s) : Inv init table s ∧ AllPlaced s.tbl :=
  Run.run_invariant (I := fun s => Inv init table s ∧ AllPlaced s.tbl)
    (fun _ _ _ h hs => ⟨h.1.step hs, (h.1.effect hs).placed h.1 h.2⟩) ⟨inv_boot, placed_boot⟩ hrun

variable {n : Nat}

/-- A `wakeup` under way has the process before it for as long as it rests. -/
theorem scans_run (h : Inv init table s ∧ AllPlaced s.tbl) (hq : During n i ch s.tbl (Scans ch i (s.tbl.code q).strip))
    (hrun : Run.run (step init table) s as = some s') :
    (Inv init table s' ∧ AllPlaced s'.tbl) ∧ During n i ch s'.tbl (Scans ch i (s'.tbl.code q).strip) :=
  Run.run_invariant
    (I := fun s => (Inv init table s ∧ AllPlaced s.tbl) ∧ During n i ch s.tbl (Scans ch i (s.tbl.code q).strip))
    (fun _ _ _ ⟨⟨h, hp⟩, hq⟩ hs =>
      have he := h.effect hs
      ⟨⟨h.step hs, he.placed h hp⟩, he.during h hq (he.scans h hp)⟩) ⟨h, hq⟩ hrun

theorem during_run {X : Prop} (h : Inv init table s) (hX : During n i ch s.tbl X)
    (hrun : Run.run (step init table) s as = some s') : Inv init table s' ∧ During n i ch s'.tbl X :=
  Run.run_invariant (I := fun s => Inv init table s ∧ During n i ch s.tbl X)
    (fun _ _ _ ⟨h, hX⟩ hs => ⟨h.step hs, (h.effect hs).during h hX fun _ _ hx => hx⟩) ⟨h, hX⟩ hrun

omit [DecidableEq C] [DecidableEq P] [DecidableEq L] [DecidableEq Ch] in
theorem Wakes.not_scans {k : Code P L Ch} {ch' : Option (Chan P Ch)} (h : Wakes init q ch' k) : ¬ Scans ch i k.strip := by
  rcases h with ⟨_, rfl⟩ | ⟨_, ⟨_, _, _, rfl⟩ | ⟨_, rfl⟩⟩ <;> exact id

/-- A PROCESS RETURNS FROM `sleep` with its lock, off its channel, and woken. -/
theorem sleep_returns (h : Inv init table s) (hp : AllPlaced s.tbl) {c : C} {x : Input L Ch} {js : List P} {lk : Lock P L}
    {k : Code P L Ch} (hth : s.thread c = .away i js) (hk : s.tbl.code i = .sleepLk ch lk k)
    (hs : step init table s (.cpu c x) = some s') :
    s'.tbl.code i = k ∧ s'.owner lk = some c ∧ (s'.tbl.proc i).chan = none ∧ Woken ch (s'.tbl.woken i) := by
  have hplaced := hp i
  rw [hk] at hplaced
  simp only [step, hth, hk, fetch, St.exec] at hs
  obtain ⟨s₁, hs₁, rfl⟩ := Option.map_eq_some_iff.mp hs
  obtain ⟨hheld, hrel, hc⟩ := acquire_spec h.held hs₁
  refine ⟨goto_self, (hheld.owner c lk).mpr (by rw [hc]; exact mem_cons_self ..), ?_, ?_⟩
  · change (s₁.tbl.proc i).chan = none
    rw [hrel.tbl]
    exact hplaced.2.1
  · change Woken ch (s₁.tbl.woken i)
    rw [hrel.tbl]
    exact hplaced.2.2

/-- NO WAKEUP IS LOST. Once a process has released `lk` inside `sleep(ch, lk)`, let anybody begin `wakeup(ch)`
    (in particular somebody who has taken `lk` after that). When it is done, and ever after, the process does
    not sleep on `ch` because of that call. And a process that returns from `sleep(ch, lk)` holds `lk`,
    has `chan = 0` and was made `RUNNABLE` by a `wakeup` on `ch` or a `kill`. -/
theorem no_lost_wakeup (htable : ∀ j, j ∈ table) (hrun : Run.run (step init table) (boot init) as = some s) :
    (∀ p ch lk k, s.tbl.code p = .sleepSet ch lk k →
      ∀ bs s₁ q k', Run.run (step init table) s bs = some s₁ → s₁.tbl.code q = .wake (some ch) table k' →
      ∀ cs s₂, Run.run (step init table) s₁ cs = some s₂ → s₂.tbl.code q = k' →
      ∀ ds s₃, Run.run (step init table) s₂ ds = some s₃ →
        ¬ (s₃.tbl.sleeps p = s.tbl.sleeps p ∧ (s₃.tbl.proc p).state = .SLEEPING ∧ (s₃.tbl.proc p).chan = some ch)) ∧
    ∀ c p js ch lk k, s.thread c = .away p js → s.tbl.code p = .sleepLk ch lk k →
      ∀ x s', step init table s (.cpu c x) = some s' →
        s'.tbl.code p = k ∧ s'.owner lk = some c ∧ (s'.tbl.proc p).chan = none ∧ Woken ch (s'.tbl.woken p) := by
  obtain ⟨h, hp⟩ := placed_run hrun
  refine ⟨fun p ch lk k _ bs s₁ q k' h₁ hq cs s₂ h₂ hk' ds s₃ h₃ => ?_,
    fun c p js ch lk k hth hk x s' hs => sleep_returns h hp hth hk hs⟩
  have hbefore : During (s.tbl.sleeps p) p ch s.tbl True := ⟨le_refl _, fun _ _ => trivial⟩
  have hle := (during_run h hbefore h₁).2.1
  -- when the wakeup begins, everybody is before it
  have hbegin : During (s.tbl.sleeps p) p ch s₁.tbl (Scans ch p (s₁.tbl.code q).strip) :=
    ⟨hle, fun _ _ => by rw [hq]; exact ⟨rfl, htable p⟩⟩
  have h₁ := placed_run (Run.run_append hrun h₁)
  have hwakes : Wakes init q (some ch) k' := by
    have hq' : ¬ Parked init table q (s₁.tbl.code q) := by rw [hq]; exact id
    obtain ⟨c, js, hth⟩ := h₁.1.away hq'
    have hok := (h₁.1.runs hth).2.ok
    rw [hq] at hok
    exact hok
  -- when it is done, nobody is
  obtain ⟨⟨h₂, _⟩, hend⟩ := scans_run h₁ hbegin h₂
  rw [hk'] at hend
  have hend : During (s.tbl.sleeps p) p ch s₂.tbl False := ⟨hend.1, fun hn hr => hwakes.not_scans (hend.2 hn hr)⟩
  rintro ⟨hn, hs, hc⟩
  exact (during_run h₂ hend h₃).2.2 hn (.inr ⟨hs, hc⟩)

end Run

attribute [local instance] neZero_two in
/-- `init` forks a process, which CPU 1 runs, takes a lock and gives it away again inside `sleep`. -/
def initSleeps : List (Act (Fin 2) Unit Unit) :=
  startInit ++ .cpu 0 .fork :: replicate 9 (.cpu 0 (.ok true)) ++ replicate 8 (.cpu 1 (.ok true)) ++
    [.cpu 0 (.acquire ()), .cpu 0 (.sleep () ()), .cpu 0 (.ok true), .cpu 0 (.ok true)]

attribute [local instance] neZero_two in
/-- It goes to sleep; its child takes the lock and calls `wakeup`. -/
def childCalls : List (Act (Fin 2) Unit Unit) :=
  replicate 4 (.cpu 0 (.ok true)) ++ [.cpu 1 (.acquire ()), .cpu 1 (.wakeup ())]

attribute [local instance] neZero_two in
def childWakes : List (Act (Fin 2) Unit Unit) := replicate 6 (.cpu 1 (.ok true))

theorem no_lost_wakeup_initSleeps : ∃ s s₁ s₂ : St (Fin 2) (Fin 3) Unit Unit,
    Run.run (step 0 [0, 1, 2]) (boot 0) initSleeps = some s ∧ Run.run (step 0 [0, 1, 2]) s childCalls = some s₁ ∧
    (s₁.tbl.proc 0).state = .SLEEPING ∧ Run.run (step 0 [0, 1, 2]) s₁ childWakes = some s₂ ∧
    ¬ (s₂.tbl.sleeps 0 = s.tbl.sleeps 0 ∧ (s₂.tbl.proc 0).state = .SLEEPING ∧ (s₂.tbl.proc 0).chan = some (.other ())) := by
  have hrun : ((Run.run (step 0 [0, 1, 2]) (boot 0 : St (Fin 2) (Fin 3) Unit Unit) initSleeps).bind fun s =>
      (Run.run (step 0 [0, 1, 2]) s childCalls).bind fun s₁ => (Run.run (step 0 [0, 1, 2]) s₁ childWakes).map fun s₂ =>
        (s.tbl.code 0, s₁.tbl.code 1, (s₁.tbl.proc 0).state, s₂.tbl.code 1)) =
      some (.sleepSet (.other ()) (.other ()) .user, .wake (some (.other ())) [0, 1, 2] .user, .SLEEPING, .user) := rfl
  obtain ⟨s, hs, hrun⟩ := Option.bind_eq_some_iff.mp hrun
  obtain ⟨s₁, hs₁, hrun⟩ := Option.bind_eq_some_iff.mp hrun
  obtain ⟨s₂, hs₂, hcodes⟩ := Option.map_eq_some_iff.mp hrun
  simp only [Prod.mk.injEq] at hcodes
  obtain ⟨hsleep, hcall, hstate, hdone⟩ := hcodes
  exact ⟨s, s₁, s₂, hs, hs₁, hstate, hs₂,
    (no_lost_wakeup (by decide) hs).1 0 _ _ _ hsleep _ s₁ 1 _ hs₁ hcall _ s₂ hs₂ hdone [] s₂ rfl⟩

end Xv6.Process.Kernel
