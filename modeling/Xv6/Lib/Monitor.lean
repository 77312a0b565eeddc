import Xv6.Lib.Run

/-! Monitors: programs of many processes that share data under one spin lock and wait for each other
    with `sleep` and `wakeup`.

    Every process has a spin lock of its own. `sleep` takes it before it gives the monitor's lock away,
    and `wakeup` looks at one process after another, each under that process's lock; `kill` may mark
    any process at any moment and wakes it too. Taking and giving back a lock are steps of their own,
    and so is each access to the data.

        at k ──sleep──▶ fall ──own lock──▶ fallIn ──monitor's lock──▶ drop ──▶ down
          ▲                                                                     │ woken
          └───────────── back ◀──own lock── up ◀────────────────────────────────┘

    An `Outline` annotates a program: what holds at each label, and at which labels which channels may
    have sleepers. If every instruction respects it (`Outline.Valid`), then in every state in which the
    monitor's lock is free its data satisfy the invariant, and whoever sleeps on a channel has reason
    to: this is `Outline.Good`, kept by every run. -/

namespace Monitor
open Function Option

/-- What a program does at a label. An access may depend on an input. -/
inductive Instr (D Ch X K : Type) where
  | acquire (k : K)
  | release (k : K)
  | access (f : X → D → D × K)
  | wakeup (ch : Ch) (k : K)
  | killed (f : Bool → K)
  | sleep (ch : Ch) (k : K)

/-- The processes in the order of the process table, their program, and what the outside world can do
    to the data. -/
structure Program (P D Ch X E K : Type) where
  procs : List P
  instr : P → K → Instr D Ch X K
  env : E → D → Option D

/-- Where a process is: at a label, or inside `wakeup`, `killed` or `sleep` on the way to a label. -/
inductive Ctl (P Ch K : Type) where
  | at (k : K)
  | scan (ch : Ch) (js : List P) (k : K)             -- wakeup: still to look at `js`
  | scanIn (ch : Ch) (j : P) (js : List P) (k : K)   -- wakeup: looking at `j`
  | look (k : K)                                     -- killed
  | lookIn (k : K)
  | fall (ch : Ch) (k : K)                           -- sleep
  | fallIn (ch : Ch) (k : K)
  | drop (ch : Ch) (k : K)
  | down (ch : Ch) (k : K)
  | up (k : K)
  | back (k : K)

structure State (P D Ch K : Type) where
  data : D
  lock : Option P
  plock : P → Option P
  asleep : P → Option Ch    -- SLEEPING, and the channel
  killed : P → Bool
  ctl : P → Ctl P Ch K

inductive Act (P X E : Type) where
  | step (p : P) (x : X)
  | kill (p : P)
  | env (e : E)

section Semantics
variable {P D Ch X E K : Type} [DecidableEq P] [DecidableEq Ch]

def State.goto (s : State P D Ch K) (p : P) (c : Ctl P Ch K) : State P D Ch K :=
  { s with ctl := update s.ctl p c }

/-- Process `p` takes the lock of process `j` and goes on at `c`. -/
def State.grip (s : State P D Ch K) (p j : P) (c : Ctl P Ch K) : Option (State P D Ch K) :=
  if s.plock j = none then some ({ s with plock := update s.plock j (some p) }.goto p c) else none

/-- The lock of process `j` is given back. -/
def State.ungrip (s : State P D Ch K) (j : P) : State P D Ch K :=
  { s with plock := update s.plock j none }

/-- Process `p` takes the monitor's lock and goes on at `c`. -/
def State.enter (s : State P D Ch K) (p : P) (c : Ctl P Ch K) : Option (State P D Ch K) :=
  if s.lock = none then some ({ s with lock := some p }.goto p c) else none

def Program.step (M : Program P D Ch X E K) (s : State P D Ch K) : Act P X E → Option (State P D Ch K)
  | .env e => (M.env e s.data).map fun d => { s with data := d }
  | .kill p =>
    if s.plock p = none then
      some { s with killed := update s.killed p true, asleep := update s.asleep p none }
    else none
  | .step p x =>
    match s.ctl p with
    | .at k =>
      match M.instr p k with
      | .acquire k' => s.enter p (.at k')
      | .release k' => some ({ s with lock := none }.goto p (.at k'))
      | .access f => some ({ s with data := (f x s.data).1 }.goto p (.at (f x s.data).2))
      | .wakeup ch k' => some (s.goto p (.scan ch (M.procs.filter (· ≠ p)) k'))
      | .killed _ => some (s.goto p (.look k))
      | .sleep ch k' => some (s.goto p (.fall ch k'))
    | .scan _ [] k => some (s.goto p (.at k))
    | .scan ch (j :: js) k => s.grip p j (.scanIn ch j js k)
    | .scanIn ch j js k =>
      let asleep := if s.asleep j = some ch then update s.asleep j none else s.asleep
      some (({ s with asleep := asleep }.ungrip j).goto p (.scan ch js k))
    | .look k => s.grip p p (.lookIn k)
    | .lookIn k =>
      match M.instr p k with
      | .killed f => some ((s.ungrip p).goto p (.at (f (s.killed p))))
      | _ => none
    | .fall ch k => s.grip p p (.fallIn ch k)
    | .fallIn ch k => some ({ s with lock := none }.goto p (.drop ch k))
    -- the scheduler gives the process's lock back once it has switched away from the process
    | .drop ch k => some (({ s with asleep := update s.asleep p (some ch) }.ungrip p).goto p (.down ch k))
    -- and takes it before it switches to the process
    | .down _ k => if s.asleep p = none then s.grip p p (.up k) else none
    | .up k => some ((s.ungrip p).goto p (.back k))
    | .back k => s.enter p (.at k)

end Semantics

/-! ### Outlines -/

variable {P D Ch X E K : Type}

namespace Ctl

/-- The label at which the process is or will be next. -/
def label : Ctl P Ch K → K
  | .at k | .scan _ _ k | .scanIn _ _ _ k | .look k | .lookIn k
  | .fall _ k | .fallIn _ k | .drop _ k | .down _ k | .up k | .back k => k

/-- Process `p` holds the lock of process `j`. -/
def Grips (p j : P) : Ctl P Ch K → Prop
  | .scanIn _ i _ _ => j = i
  | .lookIn _ | .fallIn _ _ | .drop _ _ | .up _ => j = p
  | _ => False

/-- The process has given the monitor's lock away in `sleep` and is not up again. -/
def Rests : Ctl P Ch K → Prop
  | .drop _ _ | .down _ _ => True
  | _ => False

/-- The process is in `sleep`. -/
def Sleeping : Ctl P Ch K → Prop
  | .fall _ _ | .fallIn _ _ | .drop _ _ | .down _ _ | .up _ | .back _ => True
  | _ => False

end Ctl

/-- What holds where.
    `own p k` holds of the data while `p` is at `k` or on its way there, whatever the others do.
    `pre p k` holds besides while `p` is at `k` with the lock, and then channel `ch` has sleepers only if
    `may p k d ch`. While the lock is free, `inv` holds, and `ch` has sleepers only if `wait ch d`.
    `sees p k b` restricts the answers of `killed`. -/
structure Outline (P D Ch K : Type) where
  locked : K → Prop
  inv : D → Prop
  own : P → K → D → Prop
  pre : P → K → D → Prop
  wait : Ch → D → Prop
  may : P → K → D → Ch → Prop
  sees : P → K → Bool → Prop

namespace Outline
variable (O : Outline P D Ch K) {M : Program P D Ch X E K} {s s' : State P D Ch K} {p q j : P} {ch : Ch}
  {c : Ctl P Ch K} {k k' : K} {d d' : D}

/-- A process at `k'` that gets the free lock finds what it expects. -/
def Enters (p : P) (k' : K) : Prop :=
  O.locked k' ∧ ∀ d, O.own p k' d → O.inv d → O.pre p k' d ∧ ∀ ch, O.wait ch d → O.may p k' d ch

/-- A change of the data that process `p` can make whoever has the lock. -/
structure Calm (p : P → Prop) (d d' : D) : Prop where
  inv : O.inv d → O.inv d'
  wait : ∀ ch, O.wait ch d → O.wait ch d'
  pre : ∀ q, ¬p q → ∀ k, O.pre q k d → O.pre q k d'
  may : ∀ q, ¬p q → ∀ k ch, O.may q k d ch → O.may q k d' ch

/-- What process `p` may do with the data at `k`, and where it may go. -/
structure Goes (p : P) (k : K) (d d' : D) (k' : K) : Prop where
  own : O.own p k' d'
  locked : O.locked k ↔ O.locked k'
  pre : O.locked k → O.pre p k' d'
  may : O.locked k → ∀ ch, O.may p k d ch → O.may p k' d' ch
  others : ∀ q, q ≠ p → ∀ k, O.own q k d → O.own q k d'
  calm : ¬O.locked k → O.Calm (· = p) d d'

/-- The instruction of process `p` at `k` respects the outline. -/
def Respects (p : P) (k : K) : Instr D Ch X K → Prop
  | .acquire k' => ¬O.locked k ∧ (∀ d, O.own p k d → O.own p k' d) ∧ O.Enters p k'
  | .release k' => O.locked k ∧ ¬O.locked k' ∧ ∀ d, O.own p k d → O.pre p k d →
      O.own p k' d ∧ O.inv d ∧ ∀ ch, O.may p k d ch → O.wait ch d
  | .access f => ∀ x d, O.own p k d → (O.locked k → O.pre p k d) → O.Goes p k d (f x d).1 (f x d).2
  | .wakeup ch k' => (O.locked k ↔ O.locked k') ∧ ∀ d, O.own p k d → O.own p k' d ∧
      (O.locked k → O.pre p k d → O.pre p k' d ∧ ∀ ch', ch' ≠ ch → O.may p k d ch' → O.may p k' d ch')
  | .killed f => ∀ b, O.sees p k b → (O.locked k ↔ O.locked (f b)) ∧ ∀ d, O.own p k d → O.own p (f b) d ∧
      (O.locked k → O.pre p k d → O.pre p (f b) d ∧ ∀ ch, O.may p k d ch → O.may p (f b) d ch)
  | .sleep ch k' => O.locked k ∧ (∀ d, O.own p k d → O.pre p k d → O.own p k' d ∧ O.inv d ∧ O.wait ch d ∧
      ∀ ch', O.may p k d ch' → O.wait ch' d) ∧ O.Enters p k'

structure Valid (M : Program P D Ch X E K) : Prop where
  all : ∀ p, p ∈ M.procs
  instr : ∀ p k, O.Respects p k (M.instr p k)
  env : ∀ e d d', M.env e d = some d' → (∀ q k, O.own q k d → O.own q k d') ∧ O.Calm (fun _ => False) d d'

/-- The process holds the monitor's lock. -/
def Holds : Ctl P Ch K → Prop
  | .at k | .scan _ _ k | .scanIn _ _ _ k | .look k | .lookIn k => O.locked k
  | .fall _ _ | .fallIn _ _ => True
  | _ => False

/-- What process `p` knows while it holds the lock. -/
def Knows (p : P) (d : D) : Ctl P Ch K → Prop
  | .at k | .scan _ _ k | .scanIn _ _ _ k | .look k | .lookIn k => O.pre p k d
  | .fall ch _ | .fallIn ch _ => O.inv d ∧ O.wait ch d
  | _ => False

/-- Process `q` may sleep on `ch` while process `p` holds the lock. -/
def Owes (p : P) (d : D) (q : P) (ch : Ch) : Ctl P Ch K → Prop
  | .at k | .look k | .lookIn k => O.may p k d ch
  | .scan ch' js k => ch' = ch ∧ q ∈ js ∨ O.may p k d ch
  | .scanIn ch' j js k => ch' = ch ∧ q ∈ j :: js ∨ O.may p k d ch
  | .fall _ _ | .fallIn _ _ => O.wait ch d
  | _ => False

end Outline

/-- Process `q` has given the lock away in `sleep(ch)` and has not been woken. -/
def State.Sleeps (s : State P D Ch K) (q : P) (ch : Ch) : Prop :=
  (∃ k, s.ctl q = .drop ch k) ∨ (∃ k, s.ctl q = .down ch k) ∧ s.asleep q = some ch

/-- A state in which every process is where its annotation says. -/
structure Outline.Good (O : Outline P D Ch K) (s : State P D Ch K) : Prop where
  lock : ∀ p, s.lock = some p ↔ O.Holds (s.ctl p)
  plock : ∀ p j, s.plock j = some p ↔ (s.ctl p).Grips p j
  own : ∀ p, O.own p (s.ctl p).label s.data
  knows : ∀ p, O.Holds (s.ctl p) → O.Knows p s.data (s.ctl p)
  free : s.lock = none → O.inv s.data
  enters : ∀ p, (s.ctl p).Sleeping → O.Enters p (s.ctl p).label
  asleep : ∀ p ch, s.asleep p = some ch → ∃ k, s.ctl p = .down ch k
  idle : s.lock = none → ∀ q ch, s.Sleeps q ch → O.wait ch s.data
  busy : ∀ p, O.Holds (s.ctl p) → ∀ q ch, s.Sleeps q ch → O.Owes p s.data q ch (s.ctl p)

namespace Outline
variable {O : Outline P D Ch K} {M : Program P D Ch X E K} {s s' : State P D Ch K} {p q j : P} {ch : Ch}
  {c : Ctl P Ch K} {k k' : K} {d d' : D}

/-! ### What a step has to show -/

/-- A step without the lock that leaves the data alone. -/
theorem Goes.wander (hk : ¬O.locked k) (hk' : ¬O.locked k') (hown : O.own p k' d) : O.Goes p k d d k' :=
  ⟨hown, iff_of_false hk hk', fun h => absurd h hk, fun h => absurd h hk, fun _ _ _ => id, fun _ =>
    ⟨id, fun _ => id, fun _ _ _ => id, fun _ _ _ _ => id⟩⟩

theorem Calm.knows {r : P → Prop} (h : O.Calm r d d') (hq : ¬r q) (hk : O.Knows q d c) : O.Knows q d' c := by
  cases c with
  | «at» k => exact h.pre q hq k hk
  | scan ch js k => exact h.pre q hq k hk
  | scanIn ch j js k => exact h.pre q hq k hk
  | look k => exact h.pre q hq k hk
  | lookIn k => exact h.pre q hq k hk
  | fall ch k => exact ⟨h.inv hk.1, h.wait ch hk.2⟩
  | fallIn ch k => exact ⟨h.inv hk.1, h.wait ch hk.2⟩
  | drop ch k => exact hk
  | down ch k => exact hk
  | up k => exact hk
  | back k => exact hk

theorem Calm.owes {r : P → Prop} {x : P} (h : O.Calm r d d') (hq : ¬r q) (ho : O.Owes q d x ch c) :
    O.Owes q d' x ch c := by
  cases c with
  | «at» k => exact h.may q hq k ch ho
  | scan ch' js k => exact ho.imp id (h.may q hq k ch)
  | scanIn ch' j js k => exact ho.imp id (h.may q hq k ch)
  | look k => exact h.may q hq k ch ho
  | lookIn k => exact h.may q hq k ch ho
  | fall ch' k => exact h.wait ch ho
  | fallIn ch' k => exact h.wait ch ho
  | drop ch' k => exact ho
  | down ch' k => exact ho
  | up k => exact ho
  | back k => exact ho

/-- Two processes do not hold the lock at once. -/
theorem Good.unique (h : O.Good s) (hp : O.Holds (s.ctl p)) (hq : O.Holds (s.ctl q)) : q = p :=
  some.inj (((h.lock q).mpr hq).symm.trans ((h.lock p).mpr hp))

theorem Good.not_free (h : O.Good s) (hp : O.Holds (s.ctl p)) : s.lock ≠ none := by
  rw [(h.lock p).mpr hp]; exact some_ne_none p

theorem Good.awake (h : O.Good s) (hp : ¬(s.ctl p).Rests) : s.asleep p = none := by
  cases hs : s.asleep p with
  | none => rfl
  | some ch =>
    obtain ⟨k, hk⟩ := h.asleep p ch hs
    rw [hk] at hp
    exact absurd trivial hp

/-! ### The kinds of steps -/

/-- The outside world changes the data. -/
theorem Good.env (h : O.Good s) (hown : ∀ q k, O.own q k s.data → O.own q k d')
    (hcalm : O.Calm (fun _ => False) s.data d') : O.Good { s with data := d' } where
  lock := h.lock
  plock := h.plock
  own := fun q => hown q _ (h.own q)
  knows := fun q hq => hcalm.knows id (h.knows q hq)
  free := fun hl => hcalm.inv (h.free hl)
  enters := h.enters
  asleep := h.asleep
  idle := fun hl q ch hs => hcalm.wait ch (h.idle hl q ch hs)
  busy := fun p hp q ch hs => hcalm.owes id (h.busy p hp q ch hs)

section Steps
variable [DecidableEq P]

theorem sleeps_goto (h : s'.Sleeps q ch) (hqp : q ≠ p) (hctl : s'.ctl = update s.ctl p c)
    (hasleep : s'.asleep = s.asleep) : s.Sleeps q ch := by
  unfold State.Sleeps at h
  rwa [hctl, hasleep, update_of_ne hqp] at h

/-- Process `p` moves; the lock and the data stay. -/
theorem Good.stays (h : O.Good s) (hctl : s'.ctl = update s.ctl p c) (hd : s'.data = s.data)
    (hl : s'.lock = s.lock) (hp : ∀ j, s'.plock j = some p ↔ c.Grips p j)
    (hq : ∀ q, q ≠ p → ∀ j, s'.plock j = some q ↔ s.plock j = some q)
    (hholds : O.Holds c ↔ O.Holds (s.ctl p)) (hown : O.own p c.label s.data)
    (hknows : O.Holds c → O.Knows p s.data c) (henters : c.Sleeping → O.Enters p c.label)
    (hasleep : ∀ q ch, s'.asleep q = some ch → ∃ k, s'.ctl q = .down ch k)
    (hsleeps : ∀ q ch, s'.Sleeps q ch → s.Sleeps q ch)
    (howes : O.Holds c → ∀ q ch, s'.Sleeps q ch → O.Owes p s.data q ch c) : O.Good s' := by
  have hself : s'.ctl p = c := by rw [hctl, update_self]
  have hne : ∀ q, q ≠ p → s'.ctl q = s.ctl q := fun q hqp => by rw [hctl, update_of_ne hqp]
  refine ⟨fun q => ?_, fun q j => ?_, fun q => ?_, fun q hhold => ?_, fun hfree => ?_, fun q hsl => ?_, hasleep,
    fun hfree q ch hs => ?_, fun q hhold r ch hs => ?_⟩
  · rw [hl]
    rcases eq_or_ne q p with rfl | hqp
    · rw [hself, hholds]; exact h.lock q
    · rw [hne q hqp]; exact h.lock q
  · rcases eq_or_ne q p with rfl | hqp
    · rw [hself]; exact hp j
    · rw [hne q hqp, hq q hqp j]; exact h.plock q j
  · rw [hd]
    rcases eq_or_ne q p with rfl | hqp
    · rw [hself]; exact hown
    · rw [hne q hqp]; exact h.own q
  · rw [hd]
    rcases eq_or_ne q p with rfl | hqp
    · rw [hself] at hhold ⊢; exact hknows hhold
    · rw [hne q hqp] at hhold ⊢; exact h.knows q hhold
  · rw [hd]; exact h.free (hl ▸ hfree)
  · rcases eq_or_ne q p with rfl | hqp
    · rw [hself] at hsl ⊢; exact henters hsl
    · rw [hne q hqp] at hsl ⊢; exact h.enters q hsl
  · rw [hd]; exact h.idle (hl ▸ hfree) q ch (hsleeps q ch hs)
  · rw [hd]
    rcases eq_or_ne q p with rfl | hqp
    · rw [hself] at hhold ⊢; exact howes hhold r ch hs
    · rw [hne q hqp] at hhold ⊢; exact h.busy q hhold r ch (hsleeps r ch hs)

/-- Process `p` takes the free lock. -/
theorem Good.enter (h : O.Good s) (hfree : s.lock = none) (hgrips : ∀ j, ¬(s.ctl p).Grips p j)
    (hdown : ∀ ch k, s.ctl p ≠ .down ch k) (hown : O.own p k s.data) (henters : O.Enters p k) :
    O.Good ({ s with lock := some p }.goto p (.at k)) := by
  have hnone : ∀ q, ¬O.Holds (s.ctl q) := fun q hq => h.not_free hq hfree
  have hne : ∀ q, q ≠ p → ({ s with lock := some p }.goto p (.at k)).ctl q = s.ctl q := fun q hqp =>
    update_of_ne hqp ..
  have hself : ({ s with lock := some p }.goto p (.at k)).ctl p = .at k := update_self ..
  obtain ⟨hpre, hmay⟩ := henters.2 s.data hown (h.free hfree)
  have hsl : ∀ q ch, ({ s with lock := some p }.goto p (.at k)).Sleeps q ch → s.Sleeps q ch := fun q ch hs => by
    rcases eq_or_ne q p with rfl | hqp
    · rw [State.Sleeps, hself] at hs
      simp at hs
    · exact sleeps_goto hs hqp rfl rfl
  refine ⟨fun q => ?_, fun q j => ?_, fun q => ?_, fun q hhold => ?_, fun hl => ?_, fun q hq => ?_, fun q ch hq => ?_,
    fun hl => ?_, fun q hhold r ch hs => ?_⟩
  · rcases eq_or_ne q p with rfl | hqp
    · rw [hself]; exact iff_of_true rfl henters.1
    · rw [hne q hqp]
      exact iff_of_false (fun heq => hqp (some.inj heq).symm) (hnone q)
  · change s.plock j = some q ↔ _
    rw [h.plock q j]
    rcases eq_or_ne q p with rfl | hqp
    · rw [hself]; exact iff_of_false (hgrips j) id
    · rw [hne q hqp]
  · rcases eq_or_ne q p with rfl | hqp
    · rw [hself]; exact hown
    · rw [hne q hqp]; exact h.own q
  · rcases eq_or_ne q p with rfl | hqp
    · rw [hself]; exact hpre
    · rw [hne q hqp] at hhold; exact absurd hhold (hnone q)
  · exact absurd hl (some_ne_none p)
  · rcases eq_or_ne q p with rfl | hqp
    · rw [hself] at hq; exact hq.elim
    · rw [hne q hqp] at hq ⊢; exact h.enters q hq
  · obtain ⟨k', hk'⟩ := h.asleep q ch hq
    rcases eq_or_ne q p with rfl | hqp
    · exact absurd hk' (hdown ch k')
    · exact ⟨k', (hne q hqp).trans hk'⟩
  · exact absurd hl (some_ne_none p)
  · rcases eq_or_ne q p with rfl | hqp
    · rw [hself]; exact hmay ch (h.idle hfree r ch (hsl r ch hs))
    · rw [hne q hqp] at hhold; exact absurd hhold (hnone q)

/-- Process `p` gives the lock back. -/
theorem Good.leave (h : O.Good s) (hp : O.Holds (s.ctl p)) (hno : ¬O.Holds c)
    (hgrips : ∀ j, c.Grips p j ↔ (s.ctl p).Grips p j) (hdown : ∀ ch k, s.ctl p ≠ .down ch k)
    (hown : O.own p c.label s.data) (henters : c.Sleeping → O.Enters p c.label) (hinv : O.inv s.data)
    (hwait : ∀ ch, (∃ k, c = .drop ch k ∨ c = .down ch k) → O.wait ch s.data)
    (howes : ∀ q ch, O.Owes p s.data q ch (s.ctl p) → O.wait ch s.data) :
    O.Good ({ s with lock := none }.goto p c) := by
  have hother : ∀ q, q ≠ p → ¬O.Holds (s.ctl q) := fun q hqp hq => hqp (h.unique hp hq)
  have hne : ∀ q, q ≠ p → ({ s with lock := none }.goto p c).ctl q = s.ctl q := fun q hqp => update_of_ne hqp ..
  have hself : ({ s with lock := none }.goto p c).ctl p = c := update_self ..
  have hnone : ∀ q, ¬O.Holds (({ s with lock := none }.goto p c).ctl q) := fun q => by
    rcases eq_or_ne q p with rfl | hqp
    · rw [hself]; exact hno
    · rw [hne q hqp]; exact hother q hqp
  refine ⟨fun q => iff_of_false (some_ne_none q).symm (hnone q), fun q j => ?_, fun q => ?_,
    fun q hhold => absurd hhold (hnone q), fun _ => hinv, fun q hq => ?_, fun q ch hq => ?_, fun _ q ch hs => ?_,
    fun q hhold => absurd hhold (hnone q)⟩
  · change s.plock j = some q ↔ _
    rw [h.plock q j]
    rcases eq_or_ne q p with rfl | hqp
    · rw [hself]; exact (hgrips j).symm
    · rw [hne q hqp]
  · rcases eq_or_ne q p with rfl | hqp
    · rw [hself]; exact hown
    · rw [hne q hqp]; exact h.own q
  · rcases eq_or_ne q p with rfl | hqp
    · rw [hself] at hq ⊢; exact henters hq
    · rw [hne q hqp] at hq ⊢; exact h.enters q hq
  · obtain ⟨k', hk'⟩ := h.asleep q ch hq
    rcases eq_or_ne q p with rfl | hqp
    · exact absurd hk' (hdown ch k')
    · exact ⟨k', (hne q hqp).trans hk'⟩
  · rcases eq_or_ne q p with rfl | hqp
    · rw [State.Sleeps, hself] at hs
      refine hwait ch ?_
      rcases hs with ⟨k, hk⟩ | ⟨⟨k, hk⟩, _⟩
      · exact ⟨k, .inl hk⟩
      · exact ⟨k, .inr hk⟩
    · exact howes q ch (h.busy p hp q ch (sleeps_goto hs hqp rfl rfl))

/-- Process `p` changes the data. -/
theorem Good.access (h : O.Good s) (hk : s.ctl p = .at k) (hgoes : O.Goes p k s.data d' k') :
    O.Good ({ s with data := d' }.goto p (.at k')) := by
  have hne : ∀ q, q ≠ p → ({ s with data := d' }.goto p (.at k')).ctl q = s.ctl q := fun q hqp =>
    update_of_ne hqp ..
  have hself : ({ s with data := d' }.goto p (.at k')).ctl p = .at k' := update_self ..
  have hholds : O.Holds (s.ctl p) ↔ O.locked k := by rw [hk]; rfl
  have hsl : ∀ q ch, ({ s with data := d' }.goto p (.at k')).Sleeps q ch → s.Sleeps q ch := fun q ch hs => by
    rcases eq_or_ne q p with rfl | hqp
    · rw [State.Sleeps, hself] at hs
      simp at hs
    · exact sleeps_goto hs hqp rfl rfl
  -- if another process holds the lock, or nobody, then `p` does not
  have hcalm : ∀ q, q ≠ p → O.Holds (s.ctl q) → O.Calm (· = p) s.data d' := fun q hqp hq =>
    hgoes.calm fun hl => hqp (h.unique (hholds.mpr hl) hq)
  have hfree : s.lock = none → O.Calm (· = p) s.data d' := fun hl =>
    hgoes.calm fun hlk => h.not_free (hholds.mpr hlk) hl
  refine ⟨fun q => ?_, fun q j => ?_, fun q => ?_, fun q hhold => ?_, fun hl => (hfree hl).inv (h.free hl), fun q hq => ?_,
    fun q ch hq => ?_, fun hl q ch hs => (hfree hl).wait ch (h.idle hl q ch (hsl q ch hs)), fun q hhold r ch hs => ?_⟩
  · change s.lock = some q ↔ _
    rcases eq_or_ne q p with rfl | hqp
    · rw [hself, h.lock q, hholds]; exact hgoes.locked
    · rw [hne q hqp]; exact h.lock q
  · change s.plock j = some q ↔ _
    rw [h.plock q j]
    rcases eq_or_ne q p with rfl | hqp
    · rw [hself, hk]; rfl
    · rw [hne q hqp]
  · rcases eq_or_ne q p with rfl | hqp
    · rw [hself]; exact hgoes.own
    · rw [hne q hqp]; exact hgoes.others q hqp _ (h.own q)
  · rcases eq_or_ne q p with rfl | hqp
    · rw [hself] at hhold ⊢; exact hgoes.pre (hgoes.locked.mpr hhold)
    · rw [hne q hqp] at hhold ⊢; exact (hcalm q hqp hhold).knows hqp (h.knows q hhold)
  · rcases eq_or_ne q p with rfl | hqp
    · rw [hself] at hq; exact hq.elim
    · rw [hne q hqp] at hq ⊢; exact h.enters q hq
  · obtain ⟨k', hk'⟩ := h.asleep q ch hq
    rcases eq_or_ne q p with rfl | hqp
    · rw [hk] at hk'; cases hk'
    · exact ⟨k', (hne q hqp).trans hk'⟩
  · rcases eq_or_ne q p with rfl | hqp
    · rw [hself] at hhold ⊢
      have hl := hgoes.locked.mpr hhold
      have := h.busy q (hholds.mpr hl) r ch (hsl r ch hs)
      rw [hk] at this
      exact hgoes.may hl ch this
    · rw [hne q hqp] at hhold ⊢
      exact (hcalm q hqp hhold).owes hqp (h.busy q hhold r ch (hsl r ch hs))

theorem Good.kill (h : O.Good s) : O.Good
    { s with killed := update s.killed p true, asleep := update s.asleep p none } := by
  have hasleep : ∀ q ch, update s.asleep p none q = some ch → s.asleep q = some ch := fun q ch hq => by
    rcases eq_or_ne q p with rfl | hqp
    · rw [update_self] at hq; cases hq
    · rwa [update_of_ne hqp] at hq
  have hsleeps : ∀ q ch, State.Sleeps { s with
      killed := update s.killed p true, asleep := update s.asleep p none } q ch → s.Sleeps q ch :=
    fun q ch => Or.imp id fun ⟨hk, hq⟩ => ⟨hk, hasleep q ch hq⟩
  exact ⟨h.lock, h.plock, h.own, h.knows, h.free, h.enters, fun q ch hq => h.asleep q ch (hasleep q ch hq),
    fun hl q ch hs => h.idle hl q ch (hsleeps q ch hs), fun p hp q ch hs => h.busy p hp q ch (hsleeps q ch hs)⟩

/-! ### Moves of one process -/

/-- A process that is awake moves to where it does not rest: the sleepers stay the same. -/
theorem Good.sleepers (h : O.Good s) (s' : State P D Ch K) (hctl : s'.ctl = update s.ctl p c) (hasleep : s'.asleep = s.asleep)
    (hp : s.asleep p = none) (hc : ¬c.Rests) :
    (∀ q ch, s'.asleep q = some ch → ∃ k, s'.ctl q = .down ch k) ∧ ∀ q ch, s'.Sleeps q ch → s.Sleeps q ch := by
  refine ⟨fun q ch hq => ?_, fun q ch hs => ?_⟩
  · rw [hasleep] at hq
    have hqp : q ≠ p := by
      rintro rfl
      rw [hp] at hq
      cases hq
    obtain ⟨k, hk⟩ := h.asleep q ch hq
    exact ⟨k, by rw [hctl, update_of_ne hqp, hk]⟩
  · rcases eq_or_ne q p with rfl | hqp
    · rw [State.Sleeps, hctl, update_self] at hs
      rcases hs with ⟨k, rfl⟩ | ⟨⟨k, rfl⟩, _⟩
      · exact absurd trivial hc
      · exact absurd trivial hc
    · exact sleeps_goto hs hqp hctl hasleep

/-- Locks after process `p` has taken that of `j`. -/
theorem Good.grip (h : O.Good s) (hfree : s.plock j = none) (hp : ∀ i, ¬(s.ctl p).Grips p i) :
    (∀ i, update s.plock j (some p) i = some p ↔ i = j) ∧
      ∀ q, q ≠ p → ∀ i, update s.plock j (some p) i = some q ↔ s.plock i = some q := by
  refine ⟨fun i => ?_, fun q hqp i => ?_⟩
  · rcases eq_or_ne i j with rfl | hij
    · rw [update_self]; exact iff_of_true rfl rfl
    · rw [update_of_ne hij, h.plock p i]
      exact iff_of_false (hp i) hij
  · rcases eq_or_ne i j with rfl | hij
    · rw [update_self, hfree]
      exact iff_of_false (fun heq => hqp (some.inj heq).symm) (some_ne_none q).symm
    · rw [update_of_ne hij]

/-- Locks after process `p` has given back the one it had. -/
theorem Good.ungrip (h : O.Good s) (hp : ∀ i, (s.ctl p).Grips p i ↔ i = j) :
    (∀ i, update s.plock j none i ≠ some p) ∧
      ∀ q, q ≠ p → ∀ i, update s.plock j none i = some q ↔ s.plock i = some q := by
  have hj : s.plock j = some p := (h.plock p j).mpr ((hp j).mpr rfl)
  refine ⟨fun i => ?_, fun q hqp i => ?_⟩
  · rcases eq_or_ne i j with rfl | hij
    · rw [update_self]; exact (some_ne_none p).symm
    · rw [update_of_ne hij, ne_eq, h.plock p i, hp i]; exact hij
  · rcases eq_or_ne i j with rfl | hij
    · rw [update_self, hj]
      exact iff_of_false (some_ne_none q).symm fun heq => hqp (some.inj heq).symm
    · rw [update_of_ne hij]

/-- What process `p` has to show to go on at `c` while the lock and the data stay. -/
structure Onward (O : Outline P D Ch K) (s : State P D Ch K) (p : P) (c : Ctl P Ch K) : Prop where
  holds : O.Holds c ↔ O.Holds (s.ctl p)
  own : O.own p c.label s.data
  knows : O.Holds c → O.Knows p s.data c
  enters : c.Sleeping → O.Enters p c.label
  owes : O.Holds c → ∀ q ch, s.Sleeps q ch → O.Owes p s.data q ch c

theorem Good.goto (h : O.Good s) (hon : O.Onward s p c) (hgrips : ∀ j, (s.ctl p).Grips p j ↔ c.Grips p j)
    (hp : ¬(s.ctl p).Rests) (hc : ¬c.Rests) : O.Good (s.goto p c) := by
  obtain ⟨hasleep, hsleeps⟩ := h.sleepers (s.goto p c) rfl rfl (h.awake hp) hc
  exact h.stays rfl rfl rfl (fun j => (h.plock p j).trans (hgrips j)) (fun _ _ _ => Iff.rfl) hon.holds hon.own hon.knows
    hon.enters hasleep hsleeps fun hhold q ch hs => hon.owes hhold q ch (hsleeps q ch hs)

theorem Good.gripTo (h : O.Good s) (hs' : s.grip p j c = some s') (hon : O.Onward s p c)
    (hp : ∀ i, ¬(s.ctl p).Grips p i) (hgrips : ∀ i, i = j ↔ c.Grips p i) (hawake : s.asleep p = none)
    (hc : ¬c.Rests) : O.Good s' := by
  unfold State.grip at hs'
  split at hs'
  · rename_i hfree
    obtain rfl := some.inj hs'
    obtain ⟨hself, hothers⟩ := h.grip hfree hp
    obtain ⟨hasleep, hsleeps⟩ :=
      h.sleepers ({ s with plock := update s.plock j (some p) }.goto p c) rfl rfl hawake hc
    exact h.stays rfl rfl rfl (fun i => (hself i).trans (hgrips i)) hothers hon.holds hon.own hon.knows hon.enters
      hasleep hsleeps fun hhold q ch hs => hon.owes hhold q ch (hsleeps q ch hs)
  · cases hs'

theorem Good.ungripTo (h : O.Good s) (hon : O.Onward s p c) (hp : ∀ i, (s.ctl p).Grips p i ↔ i = j)
    (hgrips : ∀ i, ¬c.Grips p i) (hawake : s.asleep p = none) (hc : ¬c.Rests) : O.Good ((s.ungrip j).goto p c) := by
  obtain ⟨hself, hothers⟩ := h.ungrip hp
  obtain ⟨hasleep, hsleeps⟩ := h.sleepers ((s.ungrip j).goto p c) rfl rfl hawake hc
  exact h.stays rfl rfl rfl (fun i => iff_of_false (hself i) (hgrips i)) hothers hon.holds hon.own hon.knows hon.enters
    hasleep hsleeps fun hhold q ch hs => hon.owes hhold q ch (hsleeps q ch hs)

/-! ### Every step -/

/-- Process `p` executes the instruction at its label. -/
theorem Good.instr [DecidableEq Ch] (V : O.Valid M) (h : O.Good s) (hk : s.ctl p = .at k) {x : X}
    (hstep : M.step s (.step p x) = some s') : O.Good s' := by
  have hown := h.own p
  have hknows := h.knows p
  have hbusy := h.busy p
  have hnorest : ¬(s.ctl p).Rests := by rw [hk]; exact id
  have hgrips : ∀ j, ¬(s.ctl p).Grips p j := fun j => by rw [hk]; exact id
  have hdown : ∀ ch k, s.ctl p ≠ .down ch k := fun ch k heq => by rw [hk] at heq; cases heq
  rw [hk] at hown hknows hbusy
  have hresp := V.instr p k
  unfold Program.step at hstep
  simp only [hk] at hstep
  cases hi : M.instr p k with
  | acquire k' =>
    rw [hi] at hstep hresp
    dsimp only at hstep
    unfold State.enter at hstep
    split at hstep
    · rename_i hfree
      obtain rfl := some.inj hstep
      exact h.enter hfree hgrips hdown (hresp.2.1 _ hown) hresp.2.2
    · cases hstep
  | release k' =>
    rw [hi] at hstep hresp
    obtain rfl := some.inj hstep
    obtain ⟨hl, hno, hvc⟩ := hresp
    obtain ⟨hown', hinv, hwait⟩ := hvc s.data hown (hknows hl)
    refine h.leave (by rw [hk]; exact hl) hno (fun j => iff_of_false id (hgrips j)) hdown hown' False.elim hinv ?_ ?_
    · rintro ch ⟨k, hk' | hk'⟩
      · cases hk'
      · cases hk'
    · intro q ch ho
      rw [hk] at ho
      exact hwait ch ho
  | access f =>
    rw [hi] at hstep hresp
    obtain rfl := some.inj hstep
    exact h.access hk (hresp x s.data hown hknows)
  | wakeup ch k' =>
    rw [hi] at hstep hresp
    obtain rfl := some.inj hstep
    obtain ⟨hlocked, hvc⟩ := hresp
    obtain ⟨hown', hvc⟩ := hvc s.data hown
    refine h.goto ⟨by rw [hk]; exact hlocked.symm, hown', fun hl => ?_, False.elim, fun hl q ch' hs => ?_⟩
      (fun j => by rw [hk]; exact Iff.rfl) hnorest id
    · exact (hvc (hlocked.mpr hl) (hknows (hlocked.mpr hl))).1
    · have hl := hlocked.mpr hl
      rcases eq_or_ne ch ch' with rfl | hne
      · -- a sleeper is not the caller, so it will be looked at
        refine .inl ⟨rfl, List.mem_filter.mpr ⟨V.all q, decide_eq_true ?_⟩⟩
        rintro rfl
        rw [State.Sleeps, hk] at hs
        simp at hs
      · exact .inr ((hvc hl (hknows hl)).2 ch' hne.symm (hbusy hl q ch' hs))
  | killed f =>
    rw [hi] at hstep
    obtain rfl := some.inj hstep
    exact h.goto ⟨by rw [hk]; exact Iff.rfl, hown, hknows, False.elim, hbusy⟩ (fun j => by rw [hk]; exact Iff.rfl) hnorest id
  | sleep ch k' =>
    rw [hi] at hstep hresp
    obtain rfl := some.inj hstep
    obtain ⟨hl, hvc, henters⟩ := hresp
    obtain ⟨hown', hinv, hwait, hmay⟩ := hvc s.data hown (hknows hl)
    exact h.goto ⟨by rw [hk]; exact iff_of_true trivial hl, hown', fun _ => ⟨hinv, hwait⟩, fun _ => henters,
      fun _ q ch' hs => hmay ch' (hbusy hl q ch' hs)⟩ (fun j => by rw [hk]; exact Iff.rfl) hnorest id

/-- Process `p` goes on in `wakeup`. -/
theorem Good.scanned [DecidableEq Ch] {js : List P} (h : O.Good s) (hk : s.ctl p = .scanIn ch j js k) {t : P → Option Ch}
    (ht : t = if s.asleep j = some ch then update s.asleep j none else s.asleep) :
    O.Good (({ s with asleep := t }.ungrip j).goto p (.scan ch js k)) := by
  have hown := h.own p
  have hknows := h.knows p
  have hbusy := h.busy p
  have hgrips : ∀ i, (s.ctl p).Grips p i ↔ i = j := fun i => by rw [hk]; exact Iff.rfl
  have hawake : s.asleep p = none := h.awake (by rw [hk]; exact id)
  rw [hk] at hown hknows hbusy
  have hsub : ∀ q ch', t q = some ch' → s.asleep q = some ch' ∧ (q = j → ch' ≠ ch) := fun q ch' hq => by
    rw [ht] at hq
    split at hq
    · rcases eq_or_ne q j with rfl | hqj
      · rw [update_self] at hq; cases hq
      · rw [update_of_ne hqj] at hq
        exact ⟨hq, fun heq => absurd heq hqj⟩
    · rename_i hno
      refine ⟨hq, ?_⟩
      rintro rfl rfl
      exact hno hq
  have hctl : ∀ q, q ≠ p → (({ s with asleep := t }.ungrip j).goto p (.scan ch js k)).ctl q = s.ctl q := fun q hqp =>
    update_of_ne hqp ..
  -- whoever held its own lock while it went to sleep cannot be `j`, whose lock `p` has
  have hj : ∀ ch' k', s.ctl j ≠ .drop ch' k' := fun ch' k' heq => by
    have h1 := (h.plock p j).mpr ((hgrips j).mpr rfl)
    have h2 := (h.plock j j).mpr (by rw [heq]; rfl)
    obtain rfl : p = j := some.inj (h1.symm.trans h2)
    rw [hk] at heq
    cases heq
  have hsleeps : ∀ q ch', (({ s with asleep := t }.ungrip j).goto p (.scan ch js k)).Sleeps q ch' →
      s.Sleeps q ch' ∧ (q = j → ch' ≠ ch) := fun q ch' hs => by
    rcases eq_or_ne q p with rfl | hqp
    · have hq : (({ s with asleep := t }.ungrip j).goto q (.scan ch js k)).ctl q = .scan ch js k := update_self ..
      rw [State.Sleeps, hq] at hs
      simp at hs
    · rw [State.Sleeps, hctl q hqp] at hs
      rcases hs with ⟨k', hk'⟩ | ⟨hk', hq⟩
      · refine ⟨.inl ⟨k', hk'⟩, ?_⟩
        rintro rfl
        exact absurd hk' (hj ch' k')
      · exact ⟨.inr ⟨hk', (hsub q ch' hq).1⟩, (hsub q ch' hq).2⟩
  obtain ⟨hself, hothers⟩ := h.ungrip hgrips
  refine h.stays rfl rfl rfl (fun i => iff_of_false (hself i) id) hothers (by rw [hk]; exact Iff.rfl) hown hknows
    False.elim (fun q ch' hq => ?_) (fun q ch' hs => (hsleeps q ch' hs).1) fun hl q ch' hs => ?_
  · have hq' := (hsub q ch' hq).1
    obtain ⟨k', hk'⟩ := h.asleep q ch' hq'
    have hqp : q ≠ p := by
      rintro rfl
      rw [hawake] at hq'
      cases hq'
    exact ⟨k', (hctl q hqp).trans hk'⟩
  · obtain ⟨hs, hqj⟩ := hsleeps q ch' hs
    rcases hbusy hl q ch' hs with ⟨rfl, hmem⟩ | hmay
    · exact .inl ⟨rfl, (List.mem_cons.mp hmem).resolve_left fun heq => hqj heq rfl⟩
    · exact .inr hmay

/-- Process `p` falls asleep. -/
theorem Good.dropped (h : O.Good s) (hk : s.ctl p = .drop ch k) :
    O.Good (({ s with asleep := update s.asleep p (some ch) }.ungrip p).goto p (.down ch k)) := by
  have hown := h.own p
  have henters := h.enters p
  have hgrips : ∀ i, (s.ctl p).Grips p i ↔ i = p := fun i => by rw [hk]; exact Iff.rfl
  rw [hk] at hown henters
  obtain ⟨hself, hothers⟩ := h.ungrip hgrips
  have hctl : ∀ q, q ≠ p →
      (({ s with asleep := update s.asleep p (some ch) }.ungrip p).goto p (.down ch k)).ctl q = s.ctl q :=
    fun q hqp => update_of_ne hqp ..
  have hp : (({ s with asleep := update s.asleep p (some ch) }.ungrip p).goto p (.down ch k)).ctl p = .down ch k :=
    update_self ..
  have hasleep : ∀ q, q ≠ p → update s.asleep p (some ch) q = s.asleep q := fun q hqp => update_of_ne hqp ..
  refine h.stays rfl rfl rfl (fun i => iff_of_false (hself i) id) hothers (by rw [hk]; exact Iff.rfl) hown False.elim
    henters (fun q ch' hq => ?_) (fun q ch' hs => ?_) False.elim
  · rcases eq_or_ne q p with rfl | hqp
    · have hself : update s.asleep q (some ch) q = some ch := update_self ..
      obtain rfl : ch = ch' := some.inj (hself.symm.trans hq)
      exact ⟨k, hp⟩
    · obtain ⟨k', hk'⟩ := h.asleep q ch' ((hasleep q hqp).symm.trans hq)
      exact ⟨k', (hctl q hqp).trans hk'⟩
  · rcases eq_or_ne q p with rfl | hqp
    · rw [State.Sleeps, hp] at hs
      rcases hs with ⟨k', hk'⟩ | ⟨⟨k', hk'⟩, _⟩
      · cases hk'
      · cases hk'
        exact .inl ⟨k, hk⟩
    · rw [State.Sleeps, hctl q hqp] at hs
      exact hs.imp id fun ⟨hk', hq⟩ => ⟨hk', (hasleep q hqp).symm.trans hq⟩

/-- The answers of `killed` that the outline allows for. -/
def Sees (O : Outline P D Ch K) (s : State P D Ch K) : Act P X E → Prop
  | .step p _ => match s.ctl p with
    | .lookIn k => O.sees p k (s.killed p)
    | _ => True
  | _ => True

omit [DecidableEq P] in
theorem sees_of (h : ∀ p k b, O.sees p k b) (s : State P D Ch K) (a : Act P X E) : O.Sees s a := by
  cases a with
  | step p x =>
    unfold Sees
    dsimp only
    split
    · exact h p _ _
    · trivial
  | kill p => trivial
  | env e => trivial

variable [DecidableEq Ch]

/-- Every step keeps processes where their annotations say. -/
theorem Good.step (V : O.Valid M) (h : O.Good s) {a : Act P X E} (hsees : O.Sees s a) (hstep : M.step s a = some s') :
    O.Good s' := by
  cases a with
  | env e =>
    obtain ⟨d', hd', rfl⟩ := map_eq_some_iff.mp hstep
    exact h.env (V.env e _ _ hd').1 (V.env e _ _ hd').2
  | kill p =>
    simp only [Program.step] at hstep
    split at hstep
    · obtain rfl := some.inj hstep
      exact h.kill
    · cases hstep
  | step p x =>
    have hown := h.own p
    have hknows := h.knows p
    have hbusy := h.busy p
    have henters := h.enters p
    have hawake := h.awake (p := p)
    cases hk : s.ctl p with
    | «at» k => exact h.instr V hk hstep
    | scan ch js k =>
      unfold Program.step at hstep
      rw [hk] at hown hknows hbusy hawake
      cases js with
      | nil =>
        simp only [hk] at hstep
        obtain rfl := some.inj hstep
        refine h.goto ⟨by rw [hk]; exact Iff.rfl, hown, hknows, False.elim, fun hl q ch' hs => ?_⟩
          (fun j => by rw [hk]; exact Iff.rfl) (by rw [hk]; exact id) id
        exact (hbusy hl q ch' hs).resolve_left fun hmem => List.not_mem_nil hmem.2
      | cons j js =>
        simp only [hk] at hstep
        exact h.gripTo hstep ⟨by rw [hk]; exact Iff.rfl, hown, hknows, False.elim, hbusy⟩ (fun i => by rw [hk]; exact id)
          (fun i => Iff.rfl) (hawake id) id
    | scanIn ch j js k =>
      unfold Program.step at hstep
      simp only [hk] at hstep
      obtain rfl := some.inj hstep
      exact h.scanned hk rfl
    | look k =>
      unfold Program.step at hstep
      simp only [hk] at hstep
      rw [hk] at hown hknows hbusy hawake
      exact h.gripTo hstep ⟨by rw [hk]; exact Iff.rfl, hown, hknows, False.elim, hbusy⟩ (fun i => by rw [hk]; exact id)
        (fun i => Iff.rfl) (hawake id) id
    | lookIn k =>
      unfold Program.step at hstep
      simp only [hk] at hstep
      have hresp := V.instr p k
      have hsees' : O.sees p k (s.killed p) := by
        unfold Sees at hsees
        simpa only [hk] using hsees
      rw [hk] at hown hknows hbusy hawake
      cases hi : M.instr p k with
      | killed f =>
        rw [hi] at hstep hresp
        obtain rfl := some.inj hstep
        obtain ⟨hlocked, hvc⟩ := hresp (s.killed p) hsees'
        obtain ⟨hown', hvc⟩ := hvc s.data hown
        refine h.ungripTo ⟨by rw [hk]; exact hlocked.symm, hown', fun hl => ?_, False.elim, fun hl q ch' hs => ?_⟩
          (fun i => by rw [hk]; exact Iff.rfl) (fun i => id) (hawake id) id
        · exact (hvc (hlocked.mpr hl) (hknows (hlocked.mpr hl))).1
        · exact (hvc (hlocked.mpr hl) (hknows (hlocked.mpr hl))).2 ch' (hbusy (hlocked.mpr hl) q ch' hs)
      | acquire k' => rw [hi] at hstep; cases hstep
      | release k' => rw [hi] at hstep; cases hstep
      | access f => rw [hi] at hstep; cases hstep
      | wakeup ch k' => rw [hi] at hstep; cases hstep
      | sleep ch k' => rw [hi] at hstep; cases hstep
    | fall ch k =>
      unfold Program.step at hstep
      simp only [hk] at hstep
      rw [hk] at hown hknows hbusy henters hawake
      exact h.gripTo hstep ⟨by rw [hk]; exact Iff.rfl, hown, hknows, henters, hbusy⟩ (fun i => by rw [hk]; exact id)
        (fun i => Iff.rfl) (hawake id) id
    | fallIn ch k =>
      unfold Program.step at hstep
      simp only [hk] at hstep
      obtain rfl := some.inj hstep
      rw [hk] at hown hknows henters
      obtain ⟨hinv, hwait⟩ := hknows trivial
      refine h.leave (by rw [hk]; trivial) id (fun j => by rw [hk]; exact Iff.rfl) (fun ch k heq => by rw [hk] at heq; cases heq)
        hown henters hinv (fun ch' hc => ?_) fun q ch' ho => by rw [hk] at ho; exact ho
      obtain ⟨k', hk' | hk'⟩ := hc
      · cases hk'; exact hwait
      · cases hk'
    | drop ch k =>
      unfold Program.step at hstep
      simp only [hk] at hstep
      obtain rfl := some.inj hstep
      exact h.dropped hk
    | down ch k =>
      unfold Program.step at hstep
      simp only [hk] at hstep
      split at hstep
      · rename_i hnone
        rw [hk] at hown henters
        exact h.gripTo hstep ⟨by rw [hk]; exact Iff.rfl, hown, False.elim, henters, False.elim⟩ (fun i => by rw [hk]; exact id)
          (fun i => Iff.rfl) hnone id
      · cases hstep
    | up k =>
      unfold Program.step at hstep
      simp only [hk] at hstep
      obtain rfl := some.inj hstep
      rw [hk] at hown henters hawake
      exact h.ungripTo ⟨by rw [hk]; exact Iff.rfl, hown, False.elim, henters, False.elim⟩ (fun i => by rw [hk]; exact Iff.rfl)
        (fun i => id) (hawake id) id
    | back k =>
      unfold Program.step at hstep
      simp only [hk] at hstep
      rw [hk] at hown henters
      unfold State.enter at hstep
      split at hstep
      · rename_i hfree
        obtain rfl := some.inj hstep
        exact h.enter hfree (fun j => by rw [hk]; exact id) (fun ch k heq => by rw [hk] at heq; cases heq) hown (henters trivial)
      · cases hstep

/-- So does every run. -/
theorem Good.run (V : O.Valid M) (h : O.Good s) {as : List (Act P X E)} (hsees : Run.Along M.step O.Sees s as)
    (hrun : Run.run M.step s as = some s') : O.Good s' :=
  Run.run_along (fun _ _ _ h hsees hstep => h.step V hsees hstep) h hsees hrun

end Steps

/-! ### What follows -/

/-- Whoever sleeps while the lock is free has reason to. -/
theorem Good.reason (h : O.Good s) (hfree : s.lock = none) (hq : s.asleep q = some ch) : O.wait ch s.data :=
  h.idle hfree q ch (.inr ⟨h.asleep q ch hq, hq⟩)

end Outline

/-- All processes are at the same label, and nobody has a lock. -/
def State.init (d : D) (k : K) : State P D Ch K where
  data := d
  lock := none
  plock := fun _ => none
  asleep := fun _ => none
  killed := fun _ => false
  ctl := fun _ => .at k

theorem Outline.Good.init {O : Outline P D Ch K} {d : D} {k : K} (hk : ¬O.locked k) (hown : ∀ p, O.own p k d)
    (hinv : O.inv d) : O.Good (State.init d k) := by
  have hsleeps : ∀ q ch, ¬(State.init d k : State P D Ch K).Sleeps q ch := fun q ch hs => by
    rcases hs with ⟨k', hk'⟩ | ⟨⟨k', hk'⟩, _⟩
    · cases hk'
    · cases hk'
  exact ⟨fun p => iff_of_false (some_ne_none p).symm hk, fun p j => iff_of_false (some_ne_none p).symm id, hown,
    fun p hp => absurd hp hk, fun _ => hinv, fun p => False.elim, fun p ch hp => absurd hp (some_ne_none ch).symm,
    fun _ q ch hs => absurd hs (hsleeps q ch), fun p hp => absurd hp hk⟩

end Monitor
