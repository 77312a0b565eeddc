import Xv6.Process.Cpus

/-! The steps of a run, read off once.

    `Next` lists what a thread can do at each place of its code: the table it leaves and the place it goes
    to. `Effect` is a step of the whole machine as the table sees it: a thread goes on, a timer interrupt
    makes it yield, the scheduler picks a process, or nothing changes. -/

namespace Xv6.Process.Kernel
open Function Option

variable {C P L Ch : Type}

section Holder
variable {init : P} {table : List P} {s : St C P L Ch} {c : C} {l : Lock P L} {q q' : P}

/-- A process that does not wait for the scheduler is on a CPU. -/
theorem Inv.away (h : Inv init table s) (hq : ¬ Parked init table q (s.tbl.code q)) : ∃ c js, s.thread c = .away q js := by
  obtain ⟨c, hc⟩ : ∃ c, s.cpu c = some q := by
    by_contra hno
    exact hq (h.off q fun c hc => hno ⟨c, hc⟩).2
  have hfits := h.fits c
  cases hth : s.thread c with
  | scan | test | leave =>
    rw [hth] at hfits
    rw [hfits.1] at hc
    cases hc
  | enter i js | back i js =>
    rw [hth] at hfits
    obtain rfl : i = q := some.inj (hfits.1.symm.trans hc)
    exact absurd hfits.2.2.2 hq
  | away i js =>
    rw [hth] at hfits
    obtain rfl : i = q := some.inj (hfits.1.symm.trans hc)
    exact ⟨c, js, hth⟩

/-- What a CPU knows about the process it runs. -/
theorem Inv.runs {js : List P} (h : Inv init table s) (hth : s.thread c = .away q js) : s.cpu c = some q ∧ Runs init table s c q := by
  have hfits := h.fits c
  rw [hth] at hfits
  exact hfits

theorem Inv.ok (h : Inv init table s) : Ok init table q (s.tbl.code q) := by
  by_cases hq : Parked init table q (s.tbl.code q)
  · exact hq.ok
  · obtain ⟨c, js, hth⟩ := h.away hq
    exact (h.runs hth).2.ok

theorem Inv.holder_unique (h : Inv init table s) (hl : l ∈ locks q (s.tbl.code q)) (hl' : l ∈ locks q' (s.tbl.code q'))
    (hq : ¬ Parked init table q (s.tbl.code q)) (hq' : ¬ Parked init table q' (s.tbl.code q')) : q = q' := by
  obtain ⟨c, js, hth⟩ := h.away hq
  obtain ⟨c', js', hth'⟩ := h.away hq'
  have hc := ((h.runs hth).2.locks l (core_of_mem hl)).mpr hl
  have hc' := ((h.runs hth').2.locks l (core_of_mem hl')).mpr hl'
  obtain rfl : c = c' := some.inj (((h.held.owner c l).mpr hc).symm.trans ((h.held.owner c' l).mpr hc'))
  rw [hth] at hth'
  cases hth'
  rfl

theorem not_parked_of_wait {k : Code P L Ch} (hq : .wait ∈ locks q k) : ¬ Parked init table q k := fun hp => by
  rw [hp.locks.1, List.mem_singleton] at hq
  cases hq

/-- Only one process holds `wait_lock`. -/
theorem Inv.wait_unique (h : Inv init table s) (hq : .wait ∈ locks q (s.tbl.code q)) (hq' : .wait ∈ locks q' (s.tbl.code q')) :
    q = q' := h.holder_unique hq hq' (not_parked_of_wait hq) (not_parked_of_wait hq')

theorem Inv.wait_free (h : Inv init table s) (hfree : s.owner .wait = none) (q : P) : .wait ∉ locks q (s.tbl.code q) := fun hq => by
  obtain ⟨c, js, hth⟩ := h.away (not_parked_of_wait hq)
  have hc := ((h.runs hth).2.locks .wait trivial).mpr hq
  rw [(h.held.owner c _).mpr hc] at hfree
  cases hfree

end Holder

/-! ### What a step writes into a slot -/

section Slots
variable [DecidableEq P] {i j p : P} {k k' : Code P L Ch} {t t' : Tbl P L Ch}

@[simp] theorem goto_self : (t.goto p k).code p = k := update_self ..

theorem goto_of_ne (h : i ≠ p) : (t.goto p k).code i = t.code i := update_of_ne h ..

@[simp] theorem set_self {q : Proc P (Chan P Ch)} : (t.set j q).proc j = q := update_self ..

theorem set_of_ne {q : Proc P (Chan P Ch)} (h : i ≠ j) : (t.set j q).proc i = t.proc i := update_of_ne h ..

variable [DecidableEq Ch] {ch : Option (Chan P Ch)}

theorem wakeup_eq_set : (t.wakeup j ch).proc = (t.set j ((t.proc j).wake ch)).proc :=
  funext fun i => by rw [wakeup_proc, ← update_apply]; rfl

end Slots

variable [DecidableEq P] [DecidableEq Ch]

/-- Process `p` goes from a place to the next one and makes a table of `t`. -/
inductive Next (init : P) (table : List P) (p : P) (t : Tbl P L Ch) : Code P L Ch → Tbl P L Ch → Code P L Ch → Prop
  | user : Next init table p t .user t .user
  | callSleep (ch l) : Next init table p t .user t (.sleepAcq (.other ch) (.other l) .user)
  | callWakeup (ch) : Next init table p t .user t (.wake (some (.other ch)) table .user)
  | callFork : Next init table p t .user t (.fork table)
  | callExit (status) : Next init table p t .user t (.exit status)
  | callWait : Next init table p t .user t .wait
  | callKill (pid) : Next init table p t .user t (.kill pid table)
  | sleepAcq (ch lk k) : Next init table p t (.sleepAcq ch lk k) t (.sleepRel ch lk k)
  | sleepRel (ch lk k) : Next init table p t (.sleepRel ch lk k) (t.drop p) (.sleepSet ch lk k)
  | sleepSet (ch lk k) : Next init table p t (.sleepSet ch lk k) (t.sleep p ch) (.sched (.sleepOut ch lk k))
  | sleepOut (ch lk k) :
      Next init table p t (.sleepOut ch lk k) (t.set p { t.proc p with chan := none }) (.sleepLk ch lk k)
  | sleepLk (ch lk k) : Next init table p t (.sleepLk ch lk k) t k
  | sched (k) : Next init table p t (.sched k) t k
  | yieldAcq (k) : Next init table p t (.yieldAcq k) t (.yieldSet k)
  | yieldSet (k) :
      Next init table p t (.yieldSet k) (t.set p { t.proc p with state := .RUNNABLE }) (.sched (.yieldOut k))
  | yieldOut (k) : Next init table p t (.yieldOut k) t k
  | wakeEnd (ch k) : Next init table p t (.wake ch [] k) t k
  | wakeSelf (ch js k) : Next init table p t (.wake ch (p :: js) k) t (.wake ch js k)
  | wakeLk (ch j js k) (hj : j ≠ p) : Next init table p t (.wake ch (j :: js) k) t (.wakeIn ch j js k)
  | wakeIn (ch j js k) : Next init table p t (.wakeIn ch j js k) (t.wakeup j ch) (.wake ch js k)
  | killEnd (pid) : Next init table p t (.kill pid []) t .user
  | killLk (pid j js) : Next init table p t (.kill pid (j :: js)) t (.killIn pid j js)
  | killIn (pid j js) (hj : (t.proc j).pid = pid) : Next init table p t (.killIn pid j js) (t.kill j) .user
  | killSkip (pid j js) : Next init table p t (.killIn pid j js) t (.kill pid js)
  | forkEnd : Next init table p t (.fork []) t .user
  | forkLk (j js) : Next init table p t (.fork (j :: js)) t (.forkIn j js)
  | alloc (j js) (hj : (t.proc j).state = .UNUSED) : Next init table p t (.forkIn j js) (t.alloc j) (.forkMem j)
  | forkSkip (j js) : Next init table p t (.forkIn j js) t (.fork js)
  | forkMem (j) : Next init table p t (.forkMem j) t (.forkParent j (t.proc j).pid)
  | unalloc (j) : Next init table p t (.forkMem j) (t.set j .free) .user
  | forkParent (j pid) : Next init table p t (.forkParent j pid) t (.forkParentIn j pid)
  | setParent (j pid) :
      Next init table p t (.forkParentIn j pid) (t.set j { t.proc j with parent := some p }) (.forkReady j pid)
  | forkReady (j pid) : Next init table p t (.forkReady j pid) t (.forkReadyIn j pid)
  | ready (j pid) : Next init table p t (.forkReadyIn j pid) (t.ready p j pid) .user
  | forkret : Next init table p t .forkret t .user
  | exit (status) (hp : p ≠ init) : Next init table p t (.exit status) t (.reparent status table)
  | reparentEnd (status) :
      Next init table p t (.reparent status []) t (.wake ((t.proc p).parent.map .proc) table (.exitLk status))
  | adopt (status j js) (hj : (t.proc j).parent = some p) :
      Next init table p t (.reparent status (j :: js)) (t.set j { t.proc j with parent := some init })
        (.wake (some (.proc init)) table (.reparent status js))
  | reparentSkip (status j js) (hj : (t.proc j).parent ≠ some p) :
      Next init table p t (.reparent status (j :: js)) t (.reparent status js)
  | exitLk (status) : Next init table p t (.exitLk status) t (.exitSet status)
  | exitSet (status) : Next init table p t (.exitSet status) (t.exit p status) .exitRel
  | exitRel : Next init table p t .exitRel t (.sched .zombie)
  | wait : Next init table p t .wait t (.waitScan table false)
  | waitNone : Next init table p t (.waitScan [] false) t .waitRet
  | waitEnd : Next init table p t (.waitScan [] true) t .waitKilled
  | waitHit (j js havekids) (hj : (t.proc j).parent = some p) :
      Next init table p t (.waitScan (j :: js) havekids) t (.waitLk j js)
  | waitSkip (j js havekids) (hj : (t.proc j).parent ≠ some p) :
      Next init table p t (.waitScan (j :: js) havekids) t (.waitScan js havekids)
  | waitLk (j js) : Next init table p t (.waitLk j js) t (.waitIn j js)
  | reap (j js) (hj : (t.proc j).state = .ZOMBIE) : Next init table p t (.waitIn j js) (t.reap p j) .waitRet
  | copyoutFails (j js) : Next init table p t (.waitIn j js) t .waitRet
  | waitOn (j js) (hj : (t.proc j).state ≠ .ZOMBIE) : Next init table p t (.waitIn j js) t (.waitScan js true)
  | waitRet : Next init table p t .waitRet t .user
  | waitKilled : Next init table p t .waitKilled t .waitKilledIn
  | killed : Next init table p t .waitKilledIn t .waitRet
  | waitSleep : Next init table p t .waitKilledIn t (.sleepAcq (.proc p) .wait (.waitScan table false))

/-- The table and the place after an instruction. -/
def Instr.result (t : Tbl P L Ch) : Instr P L Ch → Option (Tbl P L Ch × Code P L Ch)
  | .lock _ k => some (t, k)
  | .unlock _ t k => some (t, k)
  | .act t k => some (t, k)
  | .sched k => some (t, k)
  | .halt => none

variable {init : P} {table : List P} {p : P} {k k' : Code P L Ch} {t t' : Tbl P L Ch} {x : Input L Ch}

theorem next_of_fetch (h : (fetch init table p x t k).result t = some (t', k')) : Next init table p t k t' k' := by
  -- the constructor says what the result is
  have hres : ∀ {t₁ : Tbl P L Ch} {k₁ : Code P L Ch}, Next init table p t k t₁ k₁ → some (t₁, k₁) = some (t', k') →
      Next init table p t k t' k' := fun hnext heq => by
    obtain ⟨rfl, rfl⟩ := Prod.mk.inj (some.inj heq)
    exact hnext
  cases k with
  | user =>
    cases x with
    | acquire | release | ok => exact hres .user h
    | sleep => exact hres (.callSleep ..) h
    | wakeup => exact hres (.callWakeup ..) h
    | fork => exact hres .callFork h
    | exit => exact hres (.callExit ..) h
    | wait => exact hres .callWait h
    | kill => exact hres (.callKill ..) h
  | sleepAcq => exact hres (.sleepAcq ..) h
  | sleepRel => exact hres (.sleepRel ..) h
  | sleepSet => exact hres (.sleepSet ..) h
  | sleepOut => exact hres (.sleepOut ..) h
  | sleepLk => exact hres (.sleepLk ..) h
  | sched => exact hres (.sched ..) h
  | yieldAcq => exact hres (.yieldAcq ..) h
  | yieldSet => exact hres (.yieldSet ..) h
  | yieldOut => exact hres (.yieldOut ..) h
  | wake ch js k =>
    cases js with
    | nil => exact hres (.wakeEnd ..) h
    | cons j js =>
      simp only [fetch] at h
      split at h
      · rename_i hjp
        subst hjp
        exact hres (.wakeSelf ..) h
      · exact hres (.wakeLk _ _ _ _ ‹_›) h
  | wakeIn => exact hres (.wakeIn ..) h
  | kill pid js =>
    cases js with
    | nil => exact hres (.killEnd ..) h
    | cons => exact hres (.killLk ..) h
  | killIn pid j js =>
    simp only [fetch] at h
    split at h
    · exact hres (.killIn _ _ _ ‹_›) h
    · exact hres (.killSkip ..) h
  | fork js =>
    cases js with
    | nil => exact hres .forkEnd h
    | cons => exact hres (.forkLk ..) h
  | forkIn j js =>
    simp only [fetch] at h
    split at h
    · exact hres (.alloc _ _ ‹_›) h
    · exact hres (.forkSkip ..) h
  | forkMem j =>
    cases x with
    | ok b =>
      cases b with
      | true => exact hres (.forkMem ..) h
      | false => exact hres (.unalloc ..) h
    | _ => exact hres (.unalloc ..) h
  | forkParent => exact hres (.forkParent ..) h
  | forkParentIn => exact hres (.setParent ..) h
  | forkReady => exact hres (.forkReady ..) h
  | forkReadyIn => exact hres (.ready ..) h
  | forkret => exact hres .forkret h
  | exit status =>
    simp only [fetch] at h
    split at h
    · cases h
    · exact hres (.exit _ ‹_›) h
  | reparent status js =>
    cases js with
    | nil => exact hres (.reparentEnd ..) h
    | cons j js =>
      simp only [fetch] at h
      split at h
      · exact hres (.adopt _ _ _ ‹_›) h
      · exact hres (.reparentSkip _ _ _ ‹_›) h
  | exitLk => exact hres (.exitLk ..) h
  | exitSet => exact hres (.exitSet ..) h
  | exitRel => exact hres .exitRel h
  | zombie => cases h
  | wait => exact hres .wait h
  | waitScan js havekids =>
    cases js with
    | nil =>
      cases havekids with
      | true => exact hres .waitEnd h
      | false => exact hres .waitNone h
    | cons j js =>
      simp only [fetch] at h
      split at h
      · exact hres (.waitHit _ _ _ ‹_›) h
      · exact hres (.waitSkip _ _ _ ‹_›) h
  | waitLk => exact hres (.waitLk ..) h
  | waitIn j js =>
    simp only [fetch] at h
    split at h
    · cases x with
      | ok b =>
        cases b with
        | true => exact hres (.reap _ _ ‹_›) h
        | false => exact hres (.copyoutFails ..) h
      | _ => exact hres (.copyoutFails ..) h
    · exact hres (.waitOn _ _ ‹_›) h
  | waitRet => exact hres .waitRet h
  | waitKilled => exact hres .waitKilled h
  | waitKilledIn =>
    simp only [fetch] at h
    split at h
    · exact hres .killed h
    · exact hres .waitSleep h

/-- What a step of process `p` from `k` to `k'` makes of slot `i`. -/
inductive Write (init p : P) (t : Tbl P L Ch) (k k' : Code P L Ch) (i : P) : Proc P (Chan P Ch) → Prop
  | same : Write init p t k k' i (t.proc i)
  | sleep (ch lk k₀) (hi : i = p) (hk : k = .sleepSet ch lk k₀) :
      Write init p t k k' i { t.proc i with chan := some ch, state := .SLEEPING }
  | tidy (ch lk k₀) (hi : i = p) (hk : k = .sleepOut ch lk k₀) : Write init p t k k' i { t.proc i with chan := none }
  | yield (k₀) (hi : i = p) (hk : k = .yieldSet k₀) : Write init p t k k' i { t.proc i with state := .RUNNABLE }
  | wake (ch js k₀) (hk : k = .wakeIn ch i js k₀) : Write init p t k k' i ((t.proc i).wake ch)
  | kill (pid js) (hk : k = .killIn pid i js) : Write init p t k k' i (t.proc i).kill
  | alloc (js) (hk : k = .forkIn i js) (hk' : k' = .forkMem i) (hi : (t.proc i).state = .UNUSED) :
      Write init p t k k' i { t.proc i with pid := t.nextpid, state := .USED }
  | unalloc (hk : k = .forkMem i) : Write init p t k k' i .free
  | parent (pid) (hk : k = .forkParentIn i pid) : Write init p t k k' i { t.proc i with parent := some p }
  | ready (pid) (hk : k = .forkReadyIn i pid) : Write init p t k k' i { t.proc i with state := .RUNNABLE }
  | adopt (status js) (hk : k = .reparent status (i :: js)) (hi : (t.proc i).parent = some p) :
      Write init p t k k' i { t.proc i with parent := some init }
  | exit (status) (hi : i = p) (hk : k = .exitSet status) :
      Write init p t k k' i { t.proc i with xstate := status, state := .ZOMBIE }
  | reap (js) (hk : k = .waitIn i js) (hi : (t.proc i).state = .ZOMBIE) : Write init p t k k' i .free

theorem Next.write (h : Next init table p t k t' k') (i : P) : Write init p t k k' i (t'.proc i) := by
  have hset : ∀ {j : P} {q : Proc P (Chan P Ch)}, (i = j → Write init p t k k' i q) → Write init p t k k' i ((t.set j q).proc i) :=
    fun {j q} hq => by
      rcases eq_or_ne i j with rfl | hij
      · rw [set_self]
        exact hq rfl
      · rw [set_of_ne hij]
        exact .same
  cases h with
  | sleepSet ch lk k => exact hset fun hi => hi ▸ .sleep ch lk k rfl rfl
  | sleepOut ch lk k => exact hset fun hi => hi ▸ .tidy ch lk k rfl rfl
  | yieldSet k => exact hset fun hi => hi ▸ .yield k rfl rfl
  | wakeIn ch j js k =>
    rw [wakeup_eq_set]
    exact hset fun hi => hi ▸ .wake ch js k (by rw [hi])
  | killIn pid j js hj => exact hset fun hi => hi ▸ .kill pid js (by rw [hi])
  | alloc j js hj => exact hset fun hi => hi ▸ .alloc js (by rw [hi]) (by rw [hi]) (hi ▸ hj)
  | unalloc j => exact hset fun hi => .unalloc (by rw [hi])
  | setParent j pid => exact hset fun hi => hi ▸ .parent pid (by rw [hi])
  | ready j pid => exact hset fun hi => hi ▸ .ready pid (by rw [hi])
  | adopt status j js hj => exact hset fun hi => hi ▸ .adopt status js (by rw [hi]) (hi ▸ hj)
  | exitSet status => exact hset fun hi => hi ▸ .exit status rfl rfl
  | reap j js hj => exact hset fun hi => .reap js (by rw [hi]) (hi ▸ hj)
  | _ => exact .same

section Effect
variable [DecidableEq C] [DecidableEq L] {s s' : St C P L Ch} {c : C}

/-- A step, as the table sees it. -/
inductive Effect (init : P) (table : List P) (s s' : St C P L Ch) : Prop
  | idle (htbl : s'.tbl = s.tbl)
  | pick (c : C) (j : P) (hlock : .proc j ∈ s.held c) (hj : (s.tbl.proc j).state = .RUNNABLE)
      (htbl : s'.tbl = s.tbl.set j { s.tbl.proc j with state := .RUNNING })
  | move (c : C) (p : P) (js : List P) (t' : Tbl P L Ch) (k' : Code P L Ch) (hth : s.thread c = .away p js)
      (hnext : Next init table p s.tbl (s.tbl.code p) t' k') (htbl : s'.tbl = t'.goto p k')
  | timer (c : C) (p : P) (js : List P) (hth : s.thread c = .away p js) (hlocks : locks p (s.tbl.code p) = [])
      (htbl : s'.tbl = s.tbl.goto p (.yieldAcq (s.tbl.code p)))

omit [DecidableEq Ch] in
theorem tbl_of_acquire {l : Lock P L} (hs : s.acquire c l = some s') : s'.tbl = s.tbl := by
  unfold St.acquire at hs
  split at hs
  · obtain rfl := some.inj hs
    rfl
  · cases hs

omit [DecidableEq Ch] in
theorem tbl_of_release {l : Lock P L} (hs : s.release c l = some s') : s'.tbl = s.tbl := by
  unfold St.release at hs
  split at hs
  · obtain rfl := some.inj hs
    rfl
  · cases hs

omit [DecidableEq Ch] in
/-- Executing an instruction has its result. -/
theorem result_of_exec {js : List P} {i : Instr P L Ch} (hs : s.exec c p js i = some s') :
    ∃ t' k', i.result s.tbl = some (t', k') ∧ s'.tbl = t'.goto p k' := by
  cases i with
  | lock l k =>
    obtain ⟨s₁, hs₁, rfl⟩ := map_eq_some_iff.mp hs
    exact ⟨s.tbl, k, rfl, by rw [← tbl_of_acquire hs₁]⟩
  | unlock l t k =>
    obtain ⟨s₁, _, rfl⟩ := map_eq_some_iff.mp hs
    exact ⟨t, k, rfl, rfl⟩
  | act t k =>
    obtain rfl := some.inj hs
    exact ⟨t, k, rfl, rfl⟩
  | sched k =>
    simp only [St.exec] at hs
    split at hs
    · obtain rfl := some.inj hs
      exact ⟨s.tbl, k, rfl, rfl⟩
    · cases hs
  | halt => cases hs

theorem Inv.effect {a : Act C L Ch} (h : Inv init table s) (hs : Kernel.step init table s a = some s') :
    Effect init table s s' := by
  cases a with
  | timer c =>
    simp only [Kernel.step] at hs
    cases hth : s.thread c with
    | away p js =>
      rw [hth] at hs
      simp only at hs
      split at hs
      · rename_i hnone
        obtain rfl := some.inj hs
        have hfits := h.fits c
        rw [hth] at hfits
        refine .timer c p js hth (List.eq_nil_iff_forall_not_mem.mpr fun l hl => ?_) rfl
        have hmem := (hfits.2.locks l (core_of_mem hl)).mpr hl
        rw [hnone] at hmem
        cases hmem
      · cases hs
    | _ =>
      rw [hth] at hs
      cases hs
  | cpu c x =>
    simp only [Kernel.step] at hs
    cases hth : s.thread c with
    | away p js =>
      rw [hth] at hs
      obtain ⟨t', k', hres, htbl⟩ := result_of_exec hs
      exact .move c p js t' k' hth (next_of_fetch hres) htbl
    | scan js =>
      rw [hth] at hs
      cases js with
      | nil =>
        obtain rfl := some.inj hs
        exact .idle rfl
      | cons j js =>
        obtain ⟨s₁, hs₁, rfl⟩ := map_eq_some_iff.mp hs
        have htbl := tbl_of_acquire hs₁
        exact .idle htbl
    | test j js =>
      have hfits := h.fits c
      rw [hth] at hs hfits
      simp only at hs
      split at hs
      · obtain rfl := some.inj hs
        exact .pick c j (by rw [hfits.2]; exact List.mem_cons_self ..) ‹_› rfl
      · obtain rfl := some.inj hs
        exact .idle rfl
    | enter | back =>
      rw [hth] at hs
      obtain rfl := some.inj hs
      exact .idle rfl
    | leave j js =>
      rw [hth] at hs
      obtain ⟨s₁, hs₁, rfl⟩ := map_eq_some_iff.mp hs
      have htbl := tbl_of_release hs₁
      exact .idle htbl

end Effect

end Xv6.Process.Kernel
