import Xv6.Lib.Monitor

/-! One process of a monitor by itself.

    What a process does between two of its labels depends on the others only through the data it finds.
    `Path` is the sequence of its own moves with that data left open, and every run of the monitor is
    such a path for each of its processes (`Program.path`). So what a process can deliver in the course of a
    call is bounded by looking at its instructions one at a time (`Path.budget`). -/

namespace Monitor
open Function Option
variable {P D Ch X E K : Type}

/-- Where an instruction can lead, and what it delivers, if an access with input `x` to the data `d`
    delivers `w x d`. -/
def Instr.Leads (w : X → D → Nat) : Instr D Ch X K → Nat → K → Prop
  | .acquire k, m, k' | .release k, m, k' | .wakeup _ k, m, k' | .sleep _ k, m, k' => m = 0 ∧ k' = k
  | .access f, m, k' => ∃ x d, m = w x d ∧ k' = (f x d).2
  | .killed f, m, k' => m = 0 ∧ ∃ b, k' = f b

/-- The process moves from one label to another, delivers that much, and leaves only labels in `within`. -/
inductive Path (instr : K → Instr D Ch X K) (w : K → X → D → Nat) (within : K → Prop) : K → Nat → K → Prop where
  | refl (k : K) : Path instr w within k 0 k
  | move {k k₁ k' : K} {m m' : Nat} (hk : within k) (h : (instr k).Leads (w k) m k₁)
      (hrest : Path instr w within k₁ m' k') : Path instr w within k (m + m') k'

section Path
variable {instr : K → Instr D Ch X K} {w : K → X → D → Nat} {within : K → Prop} {k k' : K} {m : Nat}

end Path

section Run
variable [DecidableEq P] [DecidableEq Ch] (M : Program P D Ch X E K) (w : K → X → D → Nat) (p : P)

/-- What process `p` delivers in one step. -/
def Program.yield (s : State P D Ch K) : Act P X E → Nat
  | .step q x =>
    if q = p then
      match s.ctl p with
      | .at k => match M.instr p k with
        | .access _ => w k x s.data
        | _ => 0
      | _ => 0
    else 0
  | _ => 0

/-- What process `p` delivers in a run. -/
def Program.delivered : State P D Ch K → List (Act P X E) → Nat
  | _, [] => 0
  | s, a :: as => M.yield w p s a + (M.step s a).elim 0 fun s' => Program.delivered s' as

variable {M w p} {s s' : State P D Ch K} {a : Act P X E} {as : List (Act P X E)}

omit [DecidableEq Ch] in
/-- Away from an access nothing is delivered. -/
theorem Program.yield_eq_zero {x : X} (h : ∀ k f, s.ctl p = .at k → M.instr p k ≠ .access f) :
    M.yield w p s (.step p x) = 0 := by
  simp only [Program.yield, if_pos]
  cases hk : s.ctl p with
  | «at» k =>
    cases hi : M.instr p k with
    | access f => exact absurd hi (h k f hk)
    | _ => simp only [hi]
  | _ => rfl

/-- Only the control of the process that moves changes. -/
theorem Program.step_ctl {q : P} {x : X} (h : M.step s (.step q x) = some s') :
    s'.ctl = update s.ctl q (s'.ctl q) := by
  have hgoto : ∀ {t : State P D Ch K} {c}, t.goto q c = s' → t.ctl = s.ctl →
      s'.ctl = update s.ctl q (s'.ctl q) := by
    rintro t c rfl ht
    simp [State.goto, ht]
  have hgrip : ∀ {j c}, s.grip q j c = some s' → s'.ctl = update s.ctl q (s'.ctl q) := fun {j c} h => by
    unfold State.grip at h
    split at h
    · exact hgoto (some.inj h) rfl
    · cases h
  have henter : ∀ {c}, s.enter q c = some s' → s'.ctl = update s.ctl q (s'.ctl q) := fun {c} h => by
    unfold State.enter at h
    split at h
    · exact hgoto (some.inj h) rfl
    · cases h
  simp only [Program.step] at h
  cases hk : s.ctl q with
  | «at» k =>
    simp only [hk] at h
    cases hi : M.instr q k with
    | acquire k' => rw [hi] at h; exact henter h
    | _ => rw [hi] at h; exact hgoto (some.inj h) rfl
  | scan ch js k =>
    cases js with
    | nil => simp only [hk] at h; exact hgoto (some.inj h) rfl
    | cons j js => simp only [hk] at h; exact hgrip h
  | look k => simp only [hk] at h; exact hgrip h
  | lookIn k =>
    simp only [hk] at h
    split at h
    · exact hgoto (some.inj h) rfl
    · cases h
  | fall ch k => simp only [hk] at h; exact hgrip h
  | down ch k =>
    simp only [hk] at h
    split at h
    · exact hgrip h
    · cases h
  | back k => simp only [hk] at h; exact henter h
  | _ => simp only [hk] at h; exact hgoto (some.inj h) rfl

/-- A process that moves stays at its label and delivers nothing, or does what the instruction there says. -/
theorem Program.step_self {x : X} (h : M.step s (.step p x) = some s') :
    (s'.ctl p).label = (s.ctl p).label ∧ M.yield w p s (.step p x) = 0 ∨
      (M.instr p (s.ctl p).label).Leads (w (s.ctl p).label) (M.yield w p s (.step p x)) (s'.ctl p).label := by
  have hgoto : ∀ {t : State P D Ch K} {c}, t.goto p c = s' → s'.ctl p = c := by
    rintro t c rfl
    exact update_self ..
  have hgrip : ∀ {j c}, s.grip p j c = some s' → s'.ctl p = c := fun {j c} h => by
    unfold State.grip at h
    split at h
    · exact hgoto (some.inj h)
    · cases h
  have henter : ∀ {c}, s.enter p c = some s' → s'.ctl p = c := fun {c} h => by
    unfold State.enter at h
    split at h
    · exact hgoto (some.inj h)
    · cases h
  have hzero : (∀ k f, s.ctl p = .at k → M.instr p k ≠ .access f) → M.yield w p s (.step p x) = 0 :=
    Program.yield_eq_zero
  simp only [Program.step] at h
  cases hk : s.ctl p with
  | «at» k =>
    simp only [hk] at h hzero
    cases hi : M.instr p k with
    | access f =>
      rw [hi] at h
      rw [hgoto (some.inj h)]
      simp only [Program.yield, if_pos, hk, hi, Ctl.label]
      exact .inr ⟨x, s.data, rfl, rfl⟩
    | acquire k' =>
      rw [hi] at h
      rw [henter h, hzero (by rintro _ f ⟨⟩; rw [hi]; rintro ⟨⟩), Ctl.label, Ctl.label, hi]
      exact .inr ⟨rfl, rfl⟩
    | killed f =>
      rw [hi] at h
      rw [hgoto (some.inj h), hzero (by rintro _ f ⟨⟩; rw [hi]; rintro ⟨⟩)]
      exact .inl ⟨rfl, rfl⟩
    | _ =>
      rw [hi] at h
      rw [hgoto (some.inj h), hzero (by rintro _ f ⟨⟩; rw [hi]; rintro ⟨⟩), Ctl.label, Ctl.label, hi]
      exact .inr ⟨rfl, rfl⟩
  | scan ch js k =>
    rw [hzero (by rw [hk]; rintro _ _ ⟨⟩)]
    cases js with
    | nil => simp only [hk] at h; rw [hgoto (some.inj h)]; exact .inl ⟨rfl, rfl⟩
    | cons j js => simp only [hk] at h; rw [hgrip h]; exact .inl ⟨rfl, rfl⟩
  | look k =>
    simp only [hk] at h
    rw [hgrip h, hzero (by rw [hk]; rintro _ _ ⟨⟩)]
    exact .inl ⟨rfl, rfl⟩
  | lookIn k =>
    simp only [hk] at h
    rw [hzero (by rw [hk]; rintro _ _ ⟨⟩)]
    split at h
    next f hi =>
      rw [hgoto (some.inj h), Ctl.label, Ctl.label, hi]
      exact .inr ⟨rfl, _, rfl⟩
    next => cases h
  | fall ch k =>
    simp only [hk] at h
    rw [hgrip h, hzero (by rw [hk]; rintro _ _ ⟨⟩)]
    exact .inl ⟨rfl, rfl⟩
  | down ch k =>
    simp only [hk] at h
    rw [hzero (by rw [hk]; rintro _ _ ⟨⟩)]
    split at h
    · rw [hgrip h]; exact .inl ⟨rfl, rfl⟩
    · cases h
  | back k =>
    simp only [hk] at h
    rw [henter h, hzero (by rw [hk]; rintro _ _ ⟨⟩)]
    exact .inl ⟨rfl, rfl⟩
  | _ =>
    simp only [hk] at h
    rw [hgoto (some.inj h), hzero (by rw [hk]; rintro _ _ ⟨⟩)]
    exact .inl ⟨rfl, rfl⟩

/-- In one step of the monitor a process stays at its label and delivers nothing, or makes one move. -/
theorem Program.step_label (h : M.step s a = some s') :
    (s'.ctl p).label = (s.ctl p).label ∧ M.yield w p s a = 0 ∨
      (M.instr p (s.ctl p).label).Leads (w (s.ctl p).label) (M.yield w p s a) (s'.ctl p).label := by
  cases a with
  | env e =>
    obtain ⟨d', -, rfl⟩ := map_eq_some_iff.mp h
    exact .inl ⟨rfl, rfl⟩
  | kill q =>
    simp only [Program.step] at h
    split at h
    · obtain rfl := some.inj h; exact .inl ⟨rfl, rfl⟩
    · cases h
  | step q x =>
    by_cases hq : q = p
    · subst hq; exact Program.step_self h
    · rw [Program.step_ctl h, update_of_ne (Ne.symm hq)]
      exact .inl ⟨rfl, if_neg hq⟩

/-- EVERY RUN IS A PATH OF EACH PROCESS, as long as the process leaves only labels in `within`. -/
theorem Program.path {within : K → Prop} (hrun : Run.run M.step s as = some s')
    (hin : Run.Along M.step (fun s _ => within (s.ctl p).label) s as) :
    Path (M.instr p) w within (s.ctl p).label (M.delivered w p s as) (s'.ctl p).label := by
  induction as generalizing s with
  | nil =>
    obtain rfl := some.inj hrun
    exact .refl _
  | cons a as ih =>
    obtain ⟨s₁, h₁, hrest⟩ := Run.run_cons hrun
    obtain ⟨hk, hnext⟩ := hin
    rw [h₁] at hnext
    have hpath := ih hrest hnext
    rw [Program.delivered, h₁]
    rcases Program.step_label (p := p) (w := w) h₁ with ⟨hlabel, hnone⟩ | hmove
    · rw [hnone, Nat.zero_add, ← hlabel]; exact hpath
    · exact .move hk hmove hpath

end Run

end Monitor
