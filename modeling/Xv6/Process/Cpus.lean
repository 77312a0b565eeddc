import Xv6.Process.Locks

/-! Who holds which lock, and which CPU runs whom.

    A process is `RUNNING` exactly while a CPU runs it, but for the stretches in which that CPU holds its
    lock: between the change of the state and the moment the scheduler gives the lock back. `Inv` says so
    for every state; a step of one CPU leaves what the others need alone. -/

namespace Xv6.Process.Kernel
set_option linter.unusedSectionVars false
open Function Option List

variable {C P L Ch : Type} [DecidableEq P] {init : P} {table : List P} {p : P} {k k' : Code P L Ch} {l : Lock P L}
  {t t' : Tbl P L Ch} {x : Input L Ch}

/-- `owner` and `held` say the same. -/
structure Held (s : St C P L Ch) : Prop where
  owner : ∀ c l, s.owner l = some c ↔ l ∈ s.held c
  nodup : ∀ c, (s.held c).Nodup

/-- CPU `c` runs process `j`. -/
structure Runs (init : P) (table : List P) (s : St C P L Ch) (c : C) (j : P) : Prop where
  locks : ∀ l : Lock P L, l.Core → (l ∈ s.held c ↔ l ∈ locks j (s.tbl.code j))
  running : mid (s.tbl.code j) = false → (s.tbl.proc j).state = .RUNNING
  leaving : mid (s.tbl.code j) = true → (s.tbl.proc j).state ≠ .RUNNING
  ok : Ok init table j (s.tbl.code j)

def Fits (init : P) (table : List P) (s : St C P L Ch) (c : C) : Thread P → Prop
  | .scan _ => s.cpu c = none ∧ s.held c = []
  | .test j _ | .leave j _ => s.cpu c = none ∧ s.held c = [.proc j]
  | .enter j _ => s.cpu c = some j ∧ s.held c = [.proc j] ∧ (s.tbl.proc j).state = .RUNNING ∧ Parked init table j (s.tbl.code j)
  | .back j _ => s.cpu c = some j ∧ s.held c = [.proc j] ∧ (s.tbl.proc j).state ≠ .RUNNING ∧ Parked init table j (s.tbl.code j)
  | .away j _ => s.cpu c = some j ∧ Runs init table s c j

structure Inv (init : P) (table : List P) (s : St C P L Ch) : Prop where
  held : Held s
  fits : ∀ c, Fits init table s c (s.thread c)
  one : ∀ c c' j, s.cpu c = some j → s.cpu c' = some j → c = c'
  off : ∀ j, (∀ c, s.cpu c ≠ some j) → (s.tbl.proc j).state ≠ .RUNNING ∧ Parked init table j (s.tbl.code j)
  used : ∀ q j, forks (s.tbl.code q) = some j → (s.tbl.proc j).state = .USED
  maker : ∀ q q' j, forks (s.tbl.code q) = some j → forks (s.tbl.code q') = some j → q = q'

section Held
variable [DecidableEq C] [DecidableEq L] {s s' : St C P L Ch} {c : C}

/-- All but `owner` and `held c` is the same. -/
structure Relocks (s s' : St C P L Ch) (c : C) : Prop where
  held : ∀ c' ≠ c, s'.held c' = s.held c'
  tbl : s'.tbl = s.tbl
  cpu : s'.cpu = s.cpu
  thread : s'.thread = s.thread

theorem acquire_spec (h : Held s) (hs : s.acquire c l = some s') :
    Held s' ∧ Relocks s s' c ∧ s'.held c = l :: s.held c := by
  unfold St.acquire at hs
  split at hs
  · rename_i hfree
    obtain rfl := some.inj hs
    have hnew : ∀ c, l ∉ s.held c := fun c hl => by
      rw [(h.owner c l).mpr hl] at hfree
      cases hfree
    refine ⟨⟨fun c' l' => ?_, fun c' => ?_⟩, ⟨fun c' hc' => update_of_ne hc' .., rfl, rfl, rfl⟩, update_self ..⟩
    · change update s.owner l (some c) l' = some c' ↔ l' ∈ update s.held c (l :: s.held c) c'
      rcases eq_or_ne l' l with rfl | hl' <;> rcases eq_or_ne c' c with rfl | hc'
      · simp
      · simp [hc', hc'.symm, hnew c']
      · simp [hl', h.owner c' l']
      · simp [hl', hc', h.owner c' l']
    · rcases eq_or_ne c' c with rfl | hc'
      · simp [hnew c', h.nodup c']
      · simp [hc', h.nodup c']
  · cases hs

theorem release_spec (h : Held s) (hs : s.release c l = some s') :
    Held s' ∧ Relocks s s' c ∧ l ∈ s.held c ∧ s'.held c = (s.held c).erase l := by
  unfold St.release at hs
  split at hs
  · rename_i hmine
    obtain rfl := some.inj hs
    have hmem := (h.owner c l).mp hmine
    refine ⟨⟨fun c' l' => ?_, fun c' => ?_⟩, ⟨fun c' hc' => update_of_ne hc' .., rfl, rfl, rfl⟩, hmem, update_self ..⟩
    · change update s.owner l none l' = some c' ↔ l' ∈ update s.held c ((s.held c).erase l) c'
      rcases eq_or_ne l' l with rfl | hl' <;> rcases eq_or_ne c' c with rfl | hc'
      · simp [(h.nodup c').mem_erase_iff]
      · rw [update_self, update_of_ne hc', ← h.owner c' l', hmine]
        simp [hc'.symm]
      · simp [hl', h.owner c' l', (h.nodup c').mem_erase_iff]
      · simp [hl', hc', h.owner c' l']
    · rcases eq_or_ne c' c with rfl | hc'
      · simp [(h.nodup c').erase l]
      · simp [hc', h.nodup c']
  · cases hs

end Held

/-! ### One step -/

variable {th : Thread P} {c' : C} {js : List P}

section Step
variable {s s' : St C P L Ch} {c : C} {j : P}

/-- What another CPU, or nobody, knows about process `j` is kept. -/
structure Same (s s' : St C P L Ch) (j : P) : Prop where
  running : (s'.tbl.proc j).state = .RUNNING ↔ (s.tbl.proc j).state = .RUNNING
  code : s'.tbl.code j = s.tbl.code j

theorem Fits.same (h : Fits init table s c th) (hcpu : s'.cpu c = s.cpu c) (hheld : s'.held c = s.held c)
    (hsame : ∀ j, s.cpu c = some j → Same s s' j) : Fits init table s' c th := by
  cases th with
  | scan js => exact ⟨hcpu.trans h.1, hheld.trans h.2⟩
  | test j js => exact ⟨hcpu.trans h.1, hheld.trans h.2⟩
  | leave j js => exact ⟨hcpu.trans h.1, hheld.trans h.2⟩
  | enter j js =>
    have hj := hsame j h.1
    exact ⟨hcpu.trans h.1, hheld.trans h.2.1, hj.running.mpr h.2.2.1, hj.code ▸ h.2.2.2⟩
  | back j js =>
    have hj := hsame j h.1
    exact ⟨hcpu.trans h.1, hheld.trans h.2.1, mt hj.running.mp h.2.2.1, hj.code ▸ h.2.2.2⟩
  | away j js =>
    have hj := hsame j h.1
    obtain ⟨hcpu', hruns⟩ := h
    refine ⟨hcpu.trans hcpu', fun l hl => ?_, fun hm => ?_, fun hm => ?_, ?_⟩
    · rw [hheld, hj.code]; exact hruns.locks l hl
    · rw [hj.code] at hm; exact hj.running.mpr (hruns.running hm)
    · rw [hj.code] at hm; exact mt hj.running.mp (hruns.leaving hm)
    · rw [hj.code]; exact hruns.ok

/-- Nobody who runs `i` lets go of it while another CPU holds its lock. -/
theorem Inv.idle_of_lock {i : P} (h : Inv init table s) (hl : .proc i ∈ s.held c) (hi : (s.tbl.proc i).state ≠ .RUNNING)
    (hc' : c' ≠ c) : s.cpu c' ≠ some i := by
  intro hcpu
  have howner : ∀ {l : Lock P L}, l ∈ s.held c → l ∉ s.held c' := fun hl hl' =>
    hc' (some.inj (((h.held.owner c' _).mpr hl').symm.trans ((h.held.owner c _).mpr hl)))
  have hfits := h.fits c'
  cases hth : s.thread c' with
  | scan | test | leave => rw [hth] at hfits; rw [hfits.1] at hcpu; cases hcpu
  | enter j js =>
    rw [hth] at hfits
    obtain rfl : j = i := some.inj (hfits.1.symm.trans hcpu)
    exact hi hfits.2.2.1
  | back j js =>
    rw [hth] at hfits
    obtain rfl : j = i := some.inj (hfits.1.symm.trans hcpu)
    exact howner hl (by rw [hfits.2.1]; exact mem_cons_self ..)
  | away j js =>
    rw [hth] at hfits
    obtain rfl : j = i := some.inj (hfits.1.symm.trans hcpu)
    cases hm : mid (s.tbl.code j) with
    | false => exact hi (hfits.2.running hm)
    | true =>
      exact howner hl ((hfits.2.locks (.proc j) trivial).mpr (own_of_mid hm))

/-- A step of CPU `c`: what it has to show about itself, about the processes that other CPUs run and about
    those that nobody runs. -/
theorem Inv.of_step (h : Inv init table s) (c : C) (hheld : Held s') (hfits : Fits init table s' c (s'.thread c))
    (hothers : ∀ c' ≠ c, s'.thread c' = s.thread c' ∧ s'.cpu c' = s.cpu c' ∧ s'.held c' = s.held c')
    (hsame : ∀ c' ≠ c, ∀ j, s.cpu c' = some j → Same s s' j) (hone : ∀ j, s'.cpu c = some j → ∀ c' ≠ c, s.cpu c' ≠ some j)
    (hoff : ∀ j, (∀ c', s'.cpu c' ≠ some j) → (s'.tbl.proc j).state ≠ .RUNNING ∧ Parked init table j (s'.tbl.code j))
    (hused : ∀ q j, forks (s'.tbl.code q) = some j → (s'.tbl.proc j).state = .USED)
    (hmaker : ∀ q q' j, forks (s'.tbl.code q) = some j → forks (s'.tbl.code q') = some j → q = q') : Inv init table s' := by
  refine ⟨hheld, fun c' => ?_, fun c₁ c₂ j h₁ h₂ => ?_, hoff, hused, hmaker⟩
  · rcases eq_or_ne c' c with rfl | hc'
    · exact hfits
    · obtain ⟨hth, hcpu, hheld'⟩ := hothers c' hc'
      rw [hth]
      exact (h.fits c').same hcpu hheld' (hsame c' hc')
  · rcases eq_or_ne c₁ c with he₁ | hc₁ <;> rcases eq_or_ne c₂ c with he₂ | hc₂
    · exact he₁.trans he₂.symm
    · rw [(hothers c₂ hc₂).2.1] at h₂
      exact absurd h₂ (hone j (he₁ ▸ h₁) c₂ hc₂)
    · rw [(hothers c₁ hc₁).2.1] at h₁
      exact absurd h₁ (hone j (he₂ ▸ h₂) c₁ hc₁)
    · rw [(hothers c₁ hc₁).2.1] at h₁
      rw [(hothers c₂ hc₂).2.1] at h₂
      exact h.one c₁ c₂ j h₁ h₂

/-- A step that leaves the table and `c->proc` alone. -/
theorem Inv.of_idle (h : Inv init table s) (c : C) (hheld : Held s') (hfits : Fits init table s' c (s'.thread c))
    (hothers : ∀ c' ≠ c, s'.thread c' = s.thread c' ∧ s'.held c' = s.held c') (htbl : s'.tbl = s.tbl) (hcpu : s'.cpu = s.cpu) :
    Inv init table s' := by
  refine h.of_step c hheld hfits (fun c' hc' => ⟨(hothers c' hc').1, by rw [hcpu], (hothers c' hc').2⟩)
    (fun _ _ j _ => ⟨by rw [htbl], by rw [htbl]⟩) (fun j hj c' hc' hj' => ?_) ?_ ?_ ?_
  · rw [hcpu] at hj
    exact hc' (h.one c' c j hj' hj)
  · rw [htbl, hcpu]; exact h.off
  · rw [htbl]; exact h.used
  · rw [htbl]; exact h.maker

/-- A step of the thread of process `p`, which stays on its CPU. -/
theorem Inv.of_move (h : Inv init table s) (t' : Tbl P L Ch) (k' : Code P L Ch)
    (hth : s.thread c = .away p js) (hheld : Held s')
    (hrest : ∀ c' ≠ c, s'.held c' = s.held c') (hthread : s'.thread = s.thread) (hcpu : s'.cpu = s.cpu)
    (htbl : s'.tbl = t'.goto p k') (hok : Ok init table p k') (hmoves : Moves p (s.tbl.code p) s.tbl t' k')
    (hlocks : ∀ l : Lock P L, l.Core → (l ∈ s'.held c ↔ l ∈ locks p k')) : Inv init table s' := by
  have hfits := h.fits c
  rw [hth] at hfits
  obtain ⟨hcpuc, hruns⟩ := hfits
  have hproc : ∀ i, s'.tbl.proc i = t'.proc i := fun i => by rw [htbl]; rfl
  have hself : s'.tbl.code p = k' := by rw [htbl]; exact update_self ..
  have hcode : ∀ i ≠ p, s'.tbl.code i = t'.code i := fun i hi => by rw [htbl]; exact update_of_ne hi ..
  have hforks : ∀ q i, forks (s'.tbl.code q) = some i → (q = p ∧ forks k' = some i) ∨ q ≠ p ∧ forks (s.tbl.code q) = some i :=
    fun q i hi => by
      rcases eq_or_ne q p with rfl | hq
      · exact .inl ⟨rfl, hself ▸ hi⟩
      · rw [hcode q hq] at hi
        rcases hmoves.code q hq with hsame | ⟨_, _, hborn⟩
        · exact .inr ⟨hq, hsame ▸ hi⟩
        · rw [hborn] at hi
          cases hi
  -- a slot that is filled is on no CPU
  have hidle : ∀ i ≠ p, (s.tbl.proc i).state = .UNUSED → .proc i ∈ locks p (s.tbl.code p) → ∀ c', s.cpu c' ≠ some i :=
    fun i hi hunused hlock c' => by
      rcases eq_or_ne c' c with rfl | hc'
      · rw [hcpuc]
        exact fun heq => hi (some.inj heq).symm
      · exact h.idle_of_lock ((hruns.locks _ (core_of_mem hlock)).mpr hlock) (by rw [hunused]; nofun) hc'
  refine h.of_step c hheld ?_ (fun c' hc' => ⟨by rw [hthread], by rw [hcpu], hrest c' hc'⟩) (fun c' hc' i hi => ?_)
    (fun i hi c' hc' hi' => ?_) (fun i hi => ?_) (fun q i hi => ?_) (fun q q' i hi hi' => ?_)
  · rw [hthread, hth]
    refine ⟨by rw [hcpu, hcpuc], fun l hl => ?_, fun hm => ?_, fun hm => ?_, ?_⟩
    · rw [hself]; exact hlocks l hl
    · rw [hself] at hm
      obtain ⟨hm', hstate⟩ := hmoves.stays hm
      rw [hproc, hstate]
      exact hruns.running hm'
    · rw [hself] at hm
      rw [hproc]
      rcases hmoves.leaves hm with hstate | ⟨hm', hstate⟩
      · exact hstate
      · rw [hstate]
        exact hruns.leaving hm'
    · rw [hself]; exact hok
  · have hip : i ≠ p := by
      rintro rfl
      exact hc' (h.one c' c i hi hcpuc)
    refine ⟨by rw [hproc]; exact hmoves.running i hip, ?_⟩
    rw [hcode i hip]
    rcases hmoves.code i hip with hsame | ⟨hunused, hlock, _⟩
    · exact hsame
    · exact absurd hi (hidle i hip hunused hlock c')
  · rw [hcpu] at hi
    exact hc' (h.one c' c i hi' hi)
  · rw [hcpu] at hi
    have hip : i ≠ p := by
      rintro rfl
      exact hi c hcpuc
    obtain ⟨hrunning, hparked⟩ := h.off i hi
    refine ⟨by rw [hproc]; exact mt (hmoves.running i hip).mp hrunning, ?_⟩
    rw [hcode i hip]
    rcases hmoves.code i hip with hsame | ⟨_, _, hborn⟩
    · rw [hsame]; exact hparked
    · rw [hborn]; trivial
  · rw [hproc]
    rcases hforks q i hi with ⟨_, hk'⟩ | ⟨hq, hq'⟩
    · exact (hmoves.fork i hk').1
    · exact (hmoves.used i (h.used q i hq')).resolve_right fun hp => hq (h.maker q p i hq' hp)
  · -- a slot that was free is nobody else's
    have hmine : ∀ q ≠ p, forks k' = some i → forks (s.tbl.code q) ≠ some i := fun q hq hk' hq' => by
      rcases (hmoves.fork i hk').2 with hp | hunused
      · exact hq (h.maker q p i hq' hp)
      · rw [h.used q i hq'] at hunused
        cases hunused
    rcases hforks q i hi with ⟨rfl, hk'⟩ | ⟨hq, hqi⟩ <;> rcases hforks q' i hi' with ⟨hqp', hk''⟩ | ⟨hq', hqi'⟩
    · exact hqp'.symm
    · exact absurd hqi' (hmine q' hq' hk')
    · exact absurd hqi (hmine q hq hk'')
    · exact h.maker q q' i hqi hqi'

end Step

section Run
variable [DecidableEq C] [DecidableEq L] [DecidableEq Ch] {s s' : St C P L Ch} {c : C}

theorem Inv.exec (h : Inv init table s) (hth : s.thread c = .away p js)
    (hs : s.exec c p js (fetch init table p x s.tbl (s.tbl.code p)) = some s') : Inv init table s' := by
  have hfits := h.fits c
  rw [hth] at hfits
  obtain ⟨hcpuc, hruns⟩ := hfits
  have hspec := fetch_spec (x := x) hruns.ok hruns.running (h.used p)
  cases hfetch : fetch init table p x s.tbl (s.tbl.code p) with
  | lock l k' =>
    rw [hfetch] at hs hspec
    obtain ⟨hlocks, hok, hmoves⟩ := hspec
    obtain ⟨s₁, hs₁, rfl⟩ := map_eq_some_iff.mp hs
    obtain ⟨hheld, hrel, hc⟩ := acquire_spec h.held hs₁
    refine h.of_move s.tbl k' hth ⟨hheld.owner, hheld.nodup⟩ hrel.held hrel.thread hrel.cpu (by rw [← hrel.tbl]) hok hmoves fun l' hl' => ?_
    change l' ∈ s₁.held c ↔ _
    rw [hc, mem_cons, hlocks l' hl', hruns.locks l' hl']
  | unlock l t' k' =>
    rw [hfetch] at hs hspec
    obtain ⟨hlocks, hok, hmoves⟩ := hspec
    obtain ⟨s₁, hs₁, rfl⟩ := map_eq_some_iff.mp hs
    obtain ⟨hheld, hrel, _, hc⟩ := release_spec h.held hs₁
    refine h.of_move t' k' hth ⟨hheld.owner, hheld.nodup⟩ hrel.held hrel.thread hrel.cpu rfl hok hmoves fun l' hl' => ?_
    change l' ∈ s₁.held c ↔ _
    rw [hc, (h.held.nodup c).mem_erase_iff, hlocks l' hl', hruns.locks l' hl']
  | act t' k' =>
    rw [hfetch] at hs hspec
    obtain ⟨hlocks, hok, hmoves⟩ := hspec
    obtain rfl := some.inj hs
    refine h.of_move t' k' hth ⟨h.held.owner, h.held.nodup⟩ (fun _ _ => rfl) rfl rfl rfl hok hmoves fun l' hl' => ?_
    rw [hlocks l' hl', ← hruns.locks l' hl']
  | sched k' =>
    rw [hfetch] at hs hspec
    simp only [St.exec] at hs
    split at hs
    · rename_i hchecks
      obtain rfl := some.inj hs
      have hk : s.tbl.code p = .sched k' := hspec
      have hcode : ∀ i ≠ p, (s.tbl.goto p k').code i = s.tbl.code i := fun i hi => update_of_ne hi ..
      have hself : (s.tbl.goto p k').code p = k' := update_self ..
      have hforks : ∀ q, forks ((s.tbl.goto p k').code q) = forks (s.tbl.code q) := fun q => by
        rcases eq_or_ne q p with rfl | hq
        · rw [hself, hk]; rfl
        · rw [hcode q hq]
      refine h.of_step c ⟨h.held.owner, h.held.nodup⟩ ?_ (fun c' hc' => ⟨update_of_ne hc' .., rfl, rfl⟩)
        (fun c' hc' i hi => ⟨Iff.rfl, hcode i ?_⟩) (fun i hi c' hc' hi' => hc' (h.one c' c i hi' hi)) (fun i hi => ?_)
        (fun q i hi => h.used q i (hforks q ▸ hi)) (fun q q' i hi hi' => h.maker q q' i (hforks q ▸ hi) (hforks q' ▸ hi'))
      · have hth' : ({ s with tbl := s.tbl.goto p k' }.become c (.back p js)).thread c = .back p js := update_self ..
        rw [hth']
        refine ⟨hcpuc, hchecks.1, hchecks.2, ?_⟩
        change Parked init table p ((s.tbl.goto p k').code p)
        rw [hself]
        exact parked_of_sched (hk ▸ hruns.ok)
      · rintro rfl
        exact hc' (h.one c' c i hi hcpuc)
      · have hip : i ≠ p := by
          rintro rfl
          exact hi c hcpuc
        change _ ∧ Parked init table i ((s.tbl.goto p k').code i)
        rw [hcode i hip]
        exact h.off i hi
    · cases hs
  | halt =>
    rw [hfetch] at hs
    cases hs

theorem Inv.timer (h : Inv init table s) (hs : step init table s (.timer c) = some s') : Inv init table s' := by
  simp only [step] at hs
  cases hth : s.thread c with
  | away p js =>
    rw [hth] at hs
    simp only at hs
    split at hs
    · rename_i hnone
      obtain rfl := some.inj hs
      have hfits := h.fits c
      rw [hth] at hfits
      have hruns := hfits.2
      have hlocks : locks p (s.tbl.code p) = [] := eq_nil_iff_forall_not_mem.mpr fun l hl => by
        have := (hruns.locks l (core_of_mem hl)).mpr hl
        rw [hnone] at this
        cases this
      refine h.of_move s.tbl (.yieldAcq (s.tbl.code p)) hth ⟨h.held.owner, h.held.nodup⟩ (fun _ _ => rfl) rfl rfl rfl
        ⟨hlocks, hruns.ok⟩ (.of_eq (mid_of_locks hlocks).symm (fun _ => id) (h.used p) rfl fun _ => rfl) fun l hl => ?_
      change l ∈ s.held c ↔ _
      rw [hnone]
      rfl
    · cases hs
  | _ =>
    rw [hth] at hs
    cases hs

@[simp] theorem thread_become : (s.become c th).thread c = th := update_self ..

theorem thread_become_of_ne (h : c' ≠ c) : (s.become c th).thread c' = s.thread c' :=
  update_of_ne h ..

theorem Inv.become (h : Inv init table s) (hth : Fits init table s c th) : Inv init table (s.become c th) := by
  refine h.of_idle c ⟨h.held.owner, h.held.nodup⟩ ?_ (fun c' hc' => ⟨thread_become_of_ne hc', rfl⟩) rfl rfl
  rw [thread_become]
  exact hth.same rfl rfl fun _ _ => ⟨Iff.rfl, rfl⟩

/-- The scheduler has chosen process `j`. -/
theorem Inv.dispatch {j : P} (h : Inv init table s)
    (hfits : s.cpu c = none ∧ s.held c = [.proc j]) (hj : (s.tbl.proc j).state = .RUNNABLE) :
    Inv init table ({ s with tbl := s.tbl.set j { s.tbl.proc j with state := .RUNNING },
                             cpu := update s.cpu c (some j) }.become c (.enter j js)) := by
  have hstate := fun i => state_set (t := s.tbl) i j { s.tbl.proc j with state := .RUNNING }
  have hcpu : update s.cpu c (some j) c = some j := update_self ..
  -- no CPU runs it
  have hidle : ∀ c', s.cpu c' ≠ some j := fun c' => by
    rcases eq_or_ne c' c with rfl | hc'
    · rw [hfits.1]; nofun
    · exact h.idle_of_lock (by rw [hfits.2]; exact mem_cons_self ..) (by rw [hj]; nofun) hc'
  have hparked := (h.off j hidle).2
  refine h.of_step c ⟨h.held.owner, h.held.nodup⟩ ?_ (fun c' hc' => ⟨thread_become_of_ne hc', update_of_ne hc' .., rfl⟩)
    (fun c' hc' i hi => ⟨?_, rfl⟩) (fun i hi c' hc' => ?_) (fun i hi => ?_) (fun q i hi => ?_) h.maker
  · rw [thread_become]
    exact ⟨update_self .., hfits.2, (hstate j).trans (if_pos rfl), hparked⟩
  · refine (hstate i).symm ▸ ?_
    rw [if_neg]
    rintro rfl
    exact hidle c' hi
  · obtain rfl : j = i := some.inj (hcpu.symm.trans hi)
    exact hidle c'
  · have hij : i ≠ j := by
      rintro rfl
      exact hi c hcpu
    have hoff : ∀ c', s.cpu c' ≠ some i := fun c' => by
      rcases eq_or_ne c' c with rfl | hc'
      · rw [hfits.1]; nofun
      · exact fun hi' => hi c' ((update_of_ne hc' ..).trans hi')
    change ((s.tbl.set j _).proc i).state ≠ _ ∧ _
    rw [hstate, if_neg hij]
    exact h.off i hoff
  · have hi' := h.used q i hi
    refine (hstate i).trans ((if_neg ?_).trans hi')
    rintro rfl
    rw [hj] at hi'
    cases hi'

/-- The scheduler has got the CPU back from process `j`. -/
theorem Inv.vacate {j : P} (h : Inv init table s)
    (hfits : s.cpu c = some j ∧ s.held c = [.proc j] ∧ (s.tbl.proc j).state ≠ .RUNNING ∧ Parked init table j (s.tbl.code j)) :
    Inv init table ({ s with cpu := update s.cpu c none }.become c (.leave j js)) := by
  have hcpu : update s.cpu c none c = none := update_self ..
  obtain ⟨hcpuc, hheld, hstate, hparked⟩ := hfits
  refine h.of_step c ⟨h.held.owner, h.held.nodup⟩ ?_ (fun c' hc' => ⟨thread_become_of_ne hc', update_of_ne hc' .., rfl⟩)
    (fun _ _ _ _ => ⟨Iff.rfl, rfl⟩) (fun i hi => ?_) (fun i hi => ?_) h.used h.maker
  · rw [thread_become]
    exact ⟨hcpu, hheld⟩
  · exact absurd (hcpu.symm.trans hi) nofun
  · rcases eq_or_ne i j with rfl | hij
    · exact ⟨hstate, hparked⟩
    · refine h.off i fun c' hi' => ?_
      rcases eq_or_ne c' c with rfl | hc'
      · exact hij (some.inj (hi'.symm.trans hcpuc))
      · exact hi c' ((update_of_ne hc' ..).trans hi')

theorem Inv.step {a : Act C L Ch} (h : Inv init table s) (hs : step init table s a = some s') : Inv init table s' := by
  cases a with
  | timer c => exact h.timer hs
  | cpu c x =>
    have hfits := h.fits c
    simp only [Kernel.step] at hs
    cases hth : s.thread c with
    | away p js =>
      rw [hth] at hs
      exact h.exec hth hs
    | scan js =>
      rw [hth] at hs hfits
      cases js with
      | nil =>
        obtain rfl := some.inj hs
        exact h.become hfits
      | cons j js =>
        obtain ⟨s₁, hs₁, rfl⟩ := map_eq_some_iff.mp hs
        obtain ⟨hheld, hrel, hc⟩ := acquire_spec h.held hs₁
        refine h.of_idle c ⟨hheld.owner, hheld.nodup⟩ ?_ (fun c' hc' => ⟨?_, hrel.held c' hc'⟩) hrel.tbl hrel.cpu
        · rw [thread_become]
          exact ⟨by rw [← hfits.1, ← hrel.cpu]; rfl, by rw [← hfits.2]; exact hc⟩
        · rw [thread_become_of_ne hc', hrel.thread]
    | test j js =>
      rw [hth] at hs hfits
      simp only at hs
      split at hs
      · rename_i hrunnable
        obtain rfl := some.inj hs
        exact h.dispatch hfits hrunnable
      · obtain rfl := some.inj hs
        exact h.become hfits
    | enter j js =>
      rw [hth] at hs hfits
      obtain rfl := some.inj hs
      obtain ⟨hcpu, hheld, hrunning, hparked⟩ := hfits
      obtain ⟨hlocks, hmid⟩ := hparked.locks
      refine h.become ⟨hcpu, fun l _ => ?_, fun _ => hrunning, fun hm => absurd (hmid.symm.trans hm) nofun, hparked.ok⟩
      rw [hheld, hlocks]
    | back j js =>
      rw [hth] at hs hfits
      obtain rfl := some.inj hs
      exact h.vacate hfits
    | leave j js =>
      rw [hth] at hs hfits
      obtain ⟨s₁, hs₁, rfl⟩ := map_eq_some_iff.mp hs
      obtain ⟨hheld, hrel, _, hc⟩ := release_spec h.held hs₁
      refine h.of_idle c ⟨hheld.owner, hheld.nodup⟩ ?_ (fun c' hc' => ⟨?_, hrel.held c' hc'⟩) hrel.tbl hrel.cpu
      · rw [thread_become]
        refine ⟨by rw [← hfits.1, ← hrel.cpu]; rfl, ?_⟩
        change s₁.held c = []
        rw [hc, hfits.2, erase_cons_head]
      · rw [thread_become_of_ne hc', hrel.thread]

omit [DecidableEq C] [DecidableEq L] [DecidableEq Ch] in
theorem inv_boot : Inv init table (boot init : St C P L Ch) where
  held := ⟨fun _ _ => iff_of_false nofun nofun, fun _ => nodup_nil⟩
  fits := fun _ => ⟨rfl, rfl⟩
  one := nofun
  off := fun j _ => by
    refine ⟨?_, trivial⟩
    rcases eq_or_ne j init with rfl | hne
    · simp [boot]
    · simp [boot, hne, Proc.free]
  used := nofun
  maker := nofun

variable {as : List (Act C L Ch)}

theorem inv_run (hrun : Run.run (step init table) (boot init) as = some s) : Inv init table s :=
  Run.run_invariant (fun _ _ _ h hs => h.step hs) inv_boot hrun

/-- A CPU whose `c->proc` is `j` runs it, or holds its lock. -/
theorem Inv.running_of_cpu {j : P} (h : Inv init table s) (hfree : s.owner (.proc j) = none) (hj : s.cpu c = some j) :
    (s.tbl.proc j).state = .RUNNING := by
  have hno : .proc j ∉ s.held c := fun hl => by
    rw [(h.held.owner c _).mpr hl] at hfree
    cases hfree
  have hfits := h.fits c
  cases hth : s.thread c with
  | scan | test | leave => rw [hth] at hfits; rw [hfits.1] at hj; cases hj
  | enter i js =>
    rw [hth] at hfits
    obtain rfl : i = j := some.inj (hfits.1.symm.trans hj)
    exact hfits.2.2.1
  | back i js =>
    rw [hth] at hfits
    obtain rfl : i = j := some.inj (hfits.1.symm.trans hj)
    exact absurd (by rw [hfits.2.1]; exact mem_cons_self ..) hno
  | away i js =>
    rw [hth] at hfits
    obtain rfl : i = j := some.inj (hfits.1.symm.trans hj)
    cases hm : mid (s.tbl.code i) with
    | false => exact hfits.2.running hm
    | true => exact absurd ((hfits.2.locks (.proc i) trivial).mpr (own_of_mid hm)) hno

/-- A PROCESS RUNS ON AT MOST ONE CPU AND IS NOT FREED WHILE IT RUNS: in every state of every run, a process
    is the `c->proc` of at most one CPU, a process whose lock is free is `RUNNING` exactly if it is some
    CPU's `c->proc`, and when `wait` has found a zombie to free, no CPU has it as its process or
    executes its thread. -/
theorem one_cpu (hrun : Run.run (step init table) (boot init) as = some s) :
    (∀ c c' j, s.cpu c = some j → s.cpu c' = some j → c = c') ∧
    (∀ j, s.owner (.proc j) = none → ((s.tbl.proc j).state = .RUNNING ↔ ∃ c, s.cpu c = some j)) ∧
    ∀ c p js pp ps, s.thread c = .away p js → s.tbl.code p = .waitIn pp ps → (s.tbl.proc pp).state = .ZOMBIE →
      ∀ c', s.cpu c' ≠ some pp ∧ ∀ ps', s.thread c' ≠ .away pp ps' := by
  have h := inv_run hrun
  refine ⟨h.one, fun j hfree => ⟨fun hj => ?_, fun ⟨c, hc⟩ => h.running_of_cpu hfree hc⟩, fun c p js pp ps hth hcode hz c' => ?_⟩
  · by_contra hno
    exact (h.off j fun c hc => hno ⟨c, hc⟩).1 hj
  · have hfits := h.fits c
    rw [hth] at hfits
    obtain ⟨hcpu, hruns⟩ := hfits
    have hlock : .proc pp ∈ s.held c := by
      rw [hruns.locks (.proc pp) trivial, hcode]
      exact mem_cons_self ..
    have hne : s.cpu c' ≠ some pp := by
      rcases eq_or_ne c' c with rfl | hc'
      · rw [hcpu]
        intro heq
        have hrunning := hruns.running (by rw [hcode]; rfl)
        rw [some.inj heq, hz] at hrunning
        cases hrunning
      · exact h.idle_of_lock hlock (by rw [hz]; nofun) hc'
    refine ⟨hne, fun ps' hth' => ?_⟩
    have hfits' := h.fits c'
    rw [hth'] at hfits'
    exact hne hfits'.1

end Run

attribute [local instance] neZero_two in
/-- CPU 0 starts to run `init`. -/
def startInit : List (Act (Fin 2) Unit Unit) := replicate 5 (.cpu 0 (.ok true))

theorem one_cpu_startInit : ∃ s : St (Fin 2) (Fin 3) Unit Unit,
    Run.run (step 0 [0, 1, 2]) (boot 0) startInit = some s ∧ s.cpu 0 = some 0 ∧ s.cpu 1 ≠ some 0 := by
  have hrun : (Run.run (step 0 [0, 1, 2]) (boot 0 : St (Fin 2) (Fin 3) Unit Unit) startInit).any
      fun s => decide (s.cpu 0 = some 0) := by decide
  obtain ⟨s, hs, hcpu⟩ := (any_eq_true _ _).mp hrun
  have hcpu := of_decide_eq_true hcpu
  refine ⟨s, hs, hcpu, fun hcpu' => ?_⟩
  cases (one_cpu hs).1 0 1 0 hcpu hcpu'

end Xv6.Process.Kernel
