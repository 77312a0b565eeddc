import Xv6.Bio.Core

/-! The invariant of the cache with `commit` on top.

    `Core` needs to be told three things about the process in `commit`: that what it unpins is on
    disk, that what it releases has been written, and which slots of the log hold which contents.
    `Safe` runs the rest of its script on the marks the process knows its buffers to have, and the
    invariant says that it knows right. -/

namespace Xv6.Bio
set_option linter.unusedSectionVars false
open Function List Option
open Log (Block Area)

variable {P : Type} [DecidableEq P]

/-! ### What a step does -/

/-- Process `p` holds buffer `i`, of block `n`, with mark `m`. -/
def Sys.Holds (s : Sys P) (p : P) (i : Fin NBUF) (n : Nat) (m : Mark) : Prop :=
  s.held p i = some m ∧ s.Caches i n

theorem holds_of_holding {s : Sys P} {p : P} {n : Nat} {x : Fin NBUF × Mark} (h : s.holding p n = some x) :
    s.Holds p x.1 n x.2 := by
  obtain ⟨i, -, hi⟩ := exists_of_findSome?_eq_some h
  obtain ⟨m, hm, hi⟩ := bind_eq_some_iff.mp hi
  split at hi
  · obtain rfl := some.inj hi
    exact ⟨hm, ‹_›⟩
  · cases hi

/-- What an operation of process `p` amounts to. -/
def Effect (size : Nat) (s : Sys P) (p : P) (s' : Sys P) : Op → Prop
  | .bread n => s' = s.bget p n
  | .change n v => ∃ i m, s.Holds p i n m ∧ s' = s.store p i v none
  | .copy dst src => ∃ i m j m', s.Holds p i dst m ∧ s.Holds p j src m' ∧
      s' = s.store p i (s.data j) (some src)
  | .head n => ∃ i m, s.Holds p i n m ∧ s' = s.store p i (Log.setHead (s.data i) s.log.block) none
  | .logWrite n => ∃ i m, s.Holds p i n m ∧ s.log.pc p = .inOp ∧
      s' = if (Log.logWrite size s.log p n).panic.isSome then { s with log := Log.logWrite size s.log p n }
        else s.logged p i m n (Log.logWrite size s.log p n)
  | .bwrite n => ∃ i m, s.Holds p i n m ∧ s' = s.flush p i m n
  | .bunpin n => ∃ i m, s.Holds p i n m ∧ s' = { s.decRef i with pins := s.pins.erase n }
  | .brelse n => ∃ i m, s.Holds p i n m ∧ s' = s.unlock p i n

theorem exec_effect {size : Nat} {s s' : Sys P} {p : P} {o : Op} (h : s.exec size p o = some s') :
    Effect size s p s' o := by
  cases o with
  | bread n => exact (some.inj h).symm
  | copy dst src =>
    obtain ⟨x, hx, h⟩ := bind_eq_some_iff.mp h
    obtain ⟨y, hy, rfl⟩ := map_eq_some_iff.mp h
    exact ⟨_, _, _, _, holds_of_holding hx, holds_of_holding hy, rfl⟩
  | logWrite n =>
    obtain ⟨x, hx, h⟩ := bind_eq_some_iff.mp h
    obtain ⟨log, hlog, rfl⟩ := map_eq_some_iff.mp h
    obtain ⟨-, hp, rfl⟩ := Log.step_effect hlog
    exact ⟨_, _, holds_of_holding hx, hp, rfl⟩
  | _ =>
    obtain ⟨x, hx, rfl⟩ := map_eq_some_iff.mp h
    exact ⟨_, _, holds_of_holding hx, rfl⟩

/-- What `p` has done outside `commit`. -/
def clientDone (s s' : Sys P) : Op → Sys P
  | .bwrite n => { s' with bwritten := n :: s.bwritten }
  | _ => s'

/-- The state in which `p` has taken a step of the log protocol. -/
def logDone (L : Area) (s : Sys P) (p : P) (log : Log.St P) : Sys P :=
  { s with
    log := log
    script := update s.script p (body L log.block (log.pc p))
    bwritten := if log.pc p = .commit then [] else s.bwritten }

/-- What a step of process `p` amounts to. -/
def StepEffect (L : Area) (s : Sys P) (p : P) (s' : Sys P) : Act → Prop
  | .resume => s.resume p = some s'
  | .client o => s.io p = .idle ∧ (s.log.pc p = .user ∨ s.log.pc p = .inOp) ∧ s.Allowed L p o ∧
      ∃ s₁, Effect L.size s p s₁ o ∧ s' = clientDone s s₁ o
  | .script => s.io p = .idle ∧ ∃ o rest, s.script p = o :: rest ∧
      Effect L.size { s with script := update s.script p rest } p s' o
  | .log a => s.io p = .idle ∧ s.script p = [] ∧ a.protocol = true ∧
      ∃ log, Log.step L.size s.log (p, a) = some log ∧ s' = logDone L s p log

variable {L : Area}

theorem step_effect {s s' : Sys P} {p : P} {a : Act} (h : step L s (p, a) = some s') :
    StepEffect L s p s' a := by
  simp only [step] at h
  split at h
  · cases h
  cases a with
  | resume => exact h
  | client o =>
    simp only at h
    split at h
    · rename_i hg
      obtain ⟨s₁, hs₁, rfl⟩ := map_eq_some_iff.mp h
      refine ⟨hg.1, hg.2.1, hg.2.2, s₁, exec_effect hs₁, ?_⟩
      cases o <;> rfl
    · cases h
  | script =>
    simp only at h
    split at h
    · split at h
      · cases h
      · exact ⟨‹_›, _, _, ‹_›, exec_effect h⟩
    · cases h
  | log a =>
    simp only at h
    split at h
    · rename_i hg
      obtain ⟨log, hlog, rfl⟩ := map_eq_some_iff.mp h
      exact ⟨hg.1, hg.2.1, hg.2.2, log, hlog, rfl⟩
    · cases h

/-! ### What the process in `commit` relies on -/

/-- Log block number `j`. -/
def slot (L : Area) (j : Nat) : Nat := L.start + j + 1

theorem slot_not_home {j : Nat} (hj : j + 1 < L.size) : ¬ L.Home (slot L j) := by
  intro h; have := h.2; unfold slot at this; omega

/-- What `commit` at `pc` is to leave in a block it releases: the contents of which other block. -/
def want (L : Area) (block : List Nat) : Log.Pc → Nat → Option Nat
  | .writeLog tail, n => if n = slot L tail then block[tail]? else none
  | .install tail, n => if block[tail]? = some n then some (slot L tail) else none
  | _, _ => none

/-- The script runs through on buffers with the marks `know`: it copies from buffers as read, writes
    what it has changed before it unpins or releases it, and leaves nothing held. -/
def Safe (L : Area) (want : Nat → Option Nat) : (Nat → Option Mark) → List Op → Prop
  | know, [] => ∀ n, know n = none
  | know, .bread n :: r => know n = none ∧ Safe L want (update know n (some .fresh)) r
  | know, .copy dst src :: r => (∃ m, know dst = some m) ∧ (∃ m, know src = some m ∧ m.touched = false) ∧
      Safe L want (update know dst (some ⟨true, true, false, some src⟩)) r
  | know, .head n :: r => (∃ m, know n = some m) ∧
      Safe L want (update know n (some ⟨true, true, false, none⟩)) r
  | know, .bwrite n :: r => ∃ m, know n = some m ∧
      Safe L want (update know n (some { m with changed := false, synced := true })) r
  | know, .bunpin n :: r => (∃ m, know n = some m ∧ m.synced = true) ∧ Safe L want know r
  | know, .brelse n :: r => (∃ m, know n = some m ∧ m.changed = false ∧
      (m.touched = false ∧ want n = none ∨ n = L.start ∨ ∃ c, want n = some c ∧ m.copyOf = some c)) ∧
      Safe L want (update know n none) r
  | _, .change .. :: _ => False
  | _, .logWrite _ :: _ => False

variable {block : List Nat}

attribute [local simp] body writeLogBody

theorem safe_body (hhome : ∀ b ∈ block, L.Home b) (hlen : block.length < L.size)
    (pc : Log.Pc) : Safe L (want L block pc) (fun _ => none) (body L block pc) := by
  have key : ∀ tail b, block[tail]? = some b → slot L tail ≠ b ∧ L.start ≠ slot L tail := by
    intro tail b hb
    have hlt := (List.getElem?_eq_some_iff.mp hb).1
    refine ⟨fun he => ?_, by unfold slot; omega⟩
    exact slot_not_home (L := L) (j := tail) (by omega) (he ▸ hhome b (mem_of_getElem? hb))
  cases pc with
  | writeLog tail =>
    cases hb : block[tail]? with
    | none => simp [hb, Safe]
    | some b =>
      obtain ⟨hne, -⟩ := key tail b hb
      have hne' := hne.symm
      simp [hb, Safe, want, slot, Mark.fresh] at *
      simp [update_apply, hne, hne']
      grind
  | install tail =>
    cases hb : block[tail]? with
    | none => simp [hb, Safe]
    | some b =>
      obtain ⟨hne, -⟩ := key tail b hb
      have hne' := hne.symm
      simp [hb, installBody, Safe, want, slot, Mark.fresh] at *
      simp [update_apply, hne, hne']
      grind
  | writeHead => simp [writeHeadBody, Safe, update_apply]
  | clearHead => simp [writeHeadBody, Safe, update_apply]
  | _ => simp [Safe]

def Op.isCopy : Op → Bool
  | .copy .. => true
  | _ => false

def Op.isBunpin : Op → Bool
  | .bunpin _ => true
  | _ => false

/-! Where in `commit` an operation stands. -/

attribute [local simp] suffix_cons_iff

variable {pc : Log.Pc} {rest : List Op}

theorem copy_cases {dst src : Nat}
    (h : .copy dst src :: rest <:+ body L block pc) :
    (∃ tail, pc = .writeLog tail ∧ dst = slot L tail ∧ block[tail]? = some src ∧ ∀ o ∈ rest, o.isCopy = false) ∨
    (∃ tail, pc = .install tail ∧ block[tail]? = some dst ∧ src = slot L tail) := by
  cases pc with
  | writeLog tail =>
    cases hb : block[tail]? with
    | none => simp [hb] at h
    | some b =>
      simp [hb] at h
      obtain ⟨⟨rfl, rfl⟩, rfl⟩ := h
      exact Or.inl ⟨tail, rfl, rfl, hb, by simp [Op.isCopy]⟩
  | install tail =>
    cases hb : block[tail]? with
    | none => simp [hb] at h
    | some b =>
      simp [hb, installBody] at h
      obtain ⟨⟨rfl, rfl⟩, rfl⟩ := h
      exact Or.inr ⟨tail, rfl, hb, rfl⟩
  | _ => simp [writeHeadBody] at h

theorem bunpin_cases {n : Nat}
    (h : .bunpin n :: rest <:+ body L block pc) :
    ∃ tail, pc = .install tail ∧ block[tail]? = some n ∧ ∀ o ∈ rest, o.isBunpin = false := by
  cases pc with
  | writeLog tail => cases hb : block[tail]? <;> simp [hb] at h
  | install tail =>
    cases hb : block[tail]? with
    | none => simp [hb] at h
    | some b =>
      simp [hb, installBody] at h
      obtain ⟨rfl, rfl⟩ := h
      exact ⟨tail, rfl, hb, by simp [Op.isBunpin]⟩
  | _ => simp [writeHeadBody] at h

/-- The block that `commit` is to leave a copy in is the last it releases. -/
theorem brelse_last {n c : Nat}
    (hhome : ∀ b ∈ block, L.Home b) (hlen : block.length < L.size)
    (h : .brelse n :: rest <:+ body L block pc) (hn : want L block pc n = some c) : rest = [] := by
  cases pc with
  | writeLog tail =>
    cases hb : block[tail]? with
    | none => simp [hb] at h
    | some b =>
      have hlt := (List.getElem?_eq_some_iff.mp hb).1
      have hne : b ≠ slot L tail := fun he =>
        slot_not_home (L := L) (j := tail) (by omega) (he ▸ hhome b (mem_of_getElem? hb))
      simp [hb] at h
      rcases h with ⟨rfl, -⟩ | ⟨-, rfl⟩
      · simp [want, hne] at hn
      · rfl
  | install tail =>
    cases hb : block[tail]? with
    | none => simp [hb] at h
    | some b =>
      have hlt := (List.getElem?_eq_some_iff.mp hb).1
      have hne : b ≠ slot L tail := fun he =>
        slot_not_home (L := L) (j := tail) (by omega) (he ▸ hhome b (mem_of_getElem? hb))
      simp [hb, installBody] at h
      rcases h with ⟨rfl, -⟩ | ⟨-, rfl⟩
      · simp [want, hb] at hn
        exact absurd hn.1 hne
      · rfl
  | _ => simp [want] at hn

variable {script : List Op}

/-- Once slot `tail` is released, the body of the loop is over. -/
theorem released_last {tail b : Nat}
    (hb : block[tail]? = some b) (h : script <:+ body L block (.writeLog tail))
    (hn : .brelse (slot L tail) ∉ script) : script = [] := by
  simp [hb] at h
  unfold slot at hn
  rcases h with rfl | rfl | rfl | rfl | rfl | rfl | rfl <;> simp at hn ⊢

/-- Slot `j` has been copied to. -/
def Copied (pc : Log.Pc) (script : List Op) (j : Nat) : Prop :=
  match pc with
  | .writeLog tail => j < tail ∨ j = tail ∧ ∀ o ∈ script, o.isCopy = false
  | .writeHead | .install _ => True
  | _ => False

/-- Slot `j` has been released with the copy in it. -/
def Saved (L : Area) (pc : Log.Pc) (script : List Op) (j : Nat) : Prop :=
  match pc with
  | .writeLog tail => j < tail ∨ j = tail ∧ .brelse (slot L j) ∉ script
  | .writeHead | .install _ => True
  | _ => False

/-- How many of the logged blocks have been unpinned. -/
def unpinned (pc : Log.Pc) (script : List Op) : Nat :=
  match pc with
  | .install tail => if script.any Op.isBunpin then tail else tail + 1
  | _ => 0

/-- Process `p` is right about the marks `know` of the buffers it holds or is about to be given, and
    knows all those it has copied to and all it has stored to in the log area. -/
structure Knows (L : Area) (s : Sys P) (p : P) (know : Nat → Option Mark) : Prop where
  held : ∀ n m, know n = some m →
    (∃ i, (s.io p).wants = some (i, n) ∧ m = .fresh) ∨ ∃ i, s.Holds p i n m
  all : ∀ i n m, s.Holds p i n m → (m.copyOf ≠ none ∨ m.touched = true ∧ ¬ L.Home n) → know n = some m

/-- A block of the log, or a home block that process `p` has copied to the log. -/
def Watched (L : Area) (s : Sys P) (p : P) (n : Nat) : Prop :=
  (∃ j, j + 1 < L.size ∧ n = slot L j) ∨
    ∃ j, s.log.block[j]? = some n ∧ Copied (s.log.pc p) (s.script p) j

/-- What holds between any two steps about the log in the cache. -/
structure Commit (L : Area) (s : Sys P) : Prop where
  home : ∀ b ∈ s.log.block, L.Home b
  fits : s.log.block.length < L.size
  bhome : ∀ b ∈ s.bwritten, L.Home b
  know : ∀ p, ∃ know, Knows L s p know ∧ Safe L (want L s.log.block (s.log.pc p)) know (s.script p)
  suffix : ∀ p, s.script p <:+ body L s.log.block (s.log.pc p)
  pinsQuiet : (∀ p, (s.log.pc p).committer = false) → s.pins = s.log.block
  pinsCommit : ∀ p, (s.log.pc p).committer = true →
    s.pins = s.log.block.drop (unpinned (s.log.pc p) (s.script p))
  /-- a copied block that somebody else has changed since was written through -/
  late : ∀ p j b, s.log.block[j]? = some b → Copied (s.log.pc p) (s.script p) j →
    ∀ q i m, q ≠ p → s.Holds q i b m → m.touched = true → m.changed = true ∨ b ∈ s.bwritten
  slots : ∀ p j b, s.log.block[j]? = some b → Saved L (s.log.pc p) (s.script p) j →
    s.flat (slot L j) = s.flat b ∨ b ∈ s.bwritten
  copies : ∀ p i n m c, s.Holds p i n m → m.copyOf = some c →
    Watched L s p c ∧ (s.data i = s.flat c ∨ c ∈ s.bwritten)

/-- The machine has not stopped. -/
def Sys.Running (s : Sys P) : Prop := s.noBuffers = false ∧ s.log.panic = none

/-- What holds between any two steps. -/
structure Inv [Fintype P] (L : Area) (s : Sys P) : Prop where
  log : Log.Inv s.log
  core : Core s
  commit : s.Running → Commit L s

attribute [local simp] Sys.init

theorem inv_init [Fintype P] (L : Area) (d : Nat → Block) : Inv L (Sys.init d : Sys P) where
  log := Log.inv_init
  core := core_init d
  commit := fun _ =>
    { home := by simp [Log.St.init]
      fits := L.size_pos
      bhome := by simp
      know := fun p => ⟨fun _ => none, ⟨by simp, by simp [Sys.Holds]⟩, fun _ => rfl⟩
      suffix := fun p => nil_suffix
      pinsQuiet := fun _ => rfl
      pinsCommit := by simp [Log.St.init, Log.Pc.committer]
      late := by simp [Log.St.init]
      slots := by simp [Log.St.init]
      copies := by simp [Sys.Holds] }

section
variable {L : Area} {s s' : Sys P} {p : P} {i : Fin NBUF} {n : Nat} {m : Mark}

/-- Who holds what after the mark of `p` on buffer `i` is set to `x`. -/
theorem holds_mark (s s' : Sys P) {x : Option Mark}
    (hheld : s'.held = update s.held p (update (s.held p) i x)) (hdev : s'.dev = s.dev)
    (hblk : s'.blockno = s.blockno) (q : P) (j : Fin NBUF) (n : Nat) (m : Mark) :
    s'.Holds q j n m ↔ q = p ∧ j = i ∧ x = some m ∧ s.Caches i n ∨ (q = p → j ≠ i) ∧ s.Holds q j n m := by
  simp only [Sys.Holds, Sys.Caches, hheld, hdev, hblk]
  by_cases hq : q = p
  · subst hq
    by_cases hj : j = i
    · subst hj; simp
    · simp [hj]
  · simp [hq]

/-- Outside `commit` a process has copied nothing, and stored to home blocks only. -/
theorem Commit.plain (h : Commit L s) (hp : s.script p = []) (hi : s.Holds p i n m) :
    m.copyOf = none ∧ (m.touched = true → L.Home n) := by
  obtain ⟨know, hk, hsafe⟩ := h.know p
  rw [hp] at hsafe
  refine ⟨?_, fun ht => ?_⟩
  · by_contra hc
    have := hk.all i n m hi (Or.inl hc)
    rw [hsafe n] at this; cases this
  · by_contra hn
    have := hk.all i n m hi (Or.inr ⟨ht, hn⟩)
    rw [hsafe n] at this; cases this

theorem knows_of_plain (h : ∀ i n m, s.Holds p i n m → m.copyOf = none ∧ (m.touched = true → L.Home n)) :
    Knows L s p fun _ => none :=
  ⟨by simp, fun i n m hi hm => by
    obtain ⟨hc, hh⟩ := h i n m hi
    rcases hm with hm | ⟨ht, hn⟩
    · exact absurd hc hm
    · exact absurd (hh ht) hn⟩

theorem Copied.committer {j : Nat} (h : Copied pc script j) :
    pc.committer = true := by
  cases pc <;> simp_all [Copied, Log.Pc.committer]

theorem Saved.committer {j : Nat} (h : Saved L pc script j) :
    pc.committer = true := by
  cases pc <;> simp_all [Saved, Log.Pc.committer]

/-- A step of `p` that releases nothing and moves no program counter. -/
theorem Commit.local (h : Commit L s) (script : List Op)
    (hone : ∀ q r, (s.log.pc q).committer = true → (s.log.pc r).committer = true → q = r)
    (hlog : s'.log = s.log) (hflat : s'.flat = s.flat)
    (hscript : s'.script = update s.script p script) (hsuf : script <:+ s.script p)
    (hbw : ∀ b ∈ s.bwritten, b ∈ s'.bwritten) (hbhome : ∀ b ∈ s'.bwritten, L.Home b)
    (hio : ∀ q, q ≠ p → s'.io q = s.io q)
    (hholds : ∀ q i n m, q ≠ p → (s'.Holds q i n m ↔ s.Holds q i n m))
    (hdata : ∀ q i n m, q ≠ p → s.Holds q i n m → s'.data i = s.data i)
    (hknow : ∃ know, Knows L s' p know ∧ Safe L (want L s.log.block (s.log.pc p)) know script)
    (hquiet : (∀ q, (s.log.pc q).committer = false) → s'.pins = s.pins)
    (hpins : ∀ q, (s.log.pc q).committer = true →
      s'.pins = s.log.block.drop (unpinned (s.log.pc q) (s'.script q)))
    (hlate : (s.log.pc p).committer = false → ∀ i n m, s'.Holds p i n m → m.touched = true →
      m.changed = true ∨ n ∈ s'.bwritten ∨ ∃ m₀, s.Holds p i n m₀ ∧ m₀.touched = true ∧ m₀.changed = m.changed)
    (hcopied : ∀ j b, s.log.block[j]? = some b → Copied (s.log.pc p) script j →
      Copied (s.log.pc p) (s.script p) j ∨ ∀ q i m, q ≠ p → ¬ s.Holds q i b m)
    (hmono : ∀ j, Copied (s.log.pc p) (s.script p) j → Copied (s.log.pc p) script j)
    (hsaved : ∀ j, Saved L (s.log.pc p) script j → Saved L (s.log.pc p) (s.script p) j)
    (hcopies : ∀ i n m c, s'.Holds p i n m → m.copyOf = some c →
      Watched L s' p c ∧ (s'.data i = s.flat c ∨ c ∈ s'.bwritten)) : Commit L s' := by
  have hself : s'.script p = script := by rw [hscript, update_self]
  have hother : ∀ q, q ≠ p → s'.script q = s.script q := fun q hq => by rw [hscript, update_of_ne hq]
  refine
  { home := hlog ▸ h.home
    fits := hlog ▸ h.fits
    bhome := hbhome
    know := fun q => ?_
    suffix := fun q => ?_
    pinsQuiet := fun hc => ?_
    pinsCommit := fun q hq => ?_
    late := fun q j b hb hcop r i m hrq hr ht => ?_
    slots := fun q j b hb hsav => ?_
    copies := fun q i n m c hi hc => ?_ }
  · by_cases hq : q = p
    · subst hq; rw [hself, hlog]; exact hknow
    · obtain ⟨know, hk, hsafe⟩ := h.know q
      refine ⟨know, ⟨fun n m hm => ?_, fun i n m hi => hk.all i n m ((hholds q i n m hq).mp hi)⟩, ?_⟩
      · rw [hio q hq]
        exact (hk.held n m hm).imp_right fun ⟨i, hi⟩ => ⟨i, (hholds q i n m hq).mpr hi⟩
      · rw [hother q hq, hlog]; exact hsafe
  · rw [hlog]
    by_cases hq : q = p
    · subst hq; rw [hself]; exact hsuf.trans (h.suffix q)
    · rw [hother q hq]; exact h.suffix q
  · rw [hlog] at hc ⊢; exact (hquiet hc).trans (h.pinsQuiet hc)
  · rw [hlog] at hq ⊢; exact hpins q hq
  · rw [hlog] at hb hcop
    -- what `r` holds of `b` in the old state, whoever has copied it
    have hold : ∀ m₀, s.Holds r i b m₀ → m₀.touched = true → m₀.changed = true ∨ b ∈ s'.bwritten := by
      intro m₀ hr₀ ht₀
      by_cases hq : q = p
      · subst hq
        rw [hself] at hcop
        rcases hcopied j b hb hcop with hcop | hnone
        · exact (h.late q j b hb hcop r i m₀ hrq hr₀ ht₀).imp_right (hbw b)
        · exact absurd hr₀ (hnone r i m₀ hrq)
      · rw [hother q hq] at hcop
        exact (h.late q j b hb hcop r i m₀ hrq hr₀ ht₀).imp_right (hbw b)
    by_cases hr' : r = p
    · subst hr'
      have hrc : (s.log.pc r).committer = false := by
        by_contra hc
        exact hrq (hone r q (by simpa using hc) hcop.committer)
      rcases hlate hrc i b m hr ht with hc | hb' | ⟨m₀, hr₀, ht₀, hc₀⟩
      · exact Or.inl hc
      · exact Or.inr hb'
      · exact hc₀ ▸ hold m₀ hr₀ ht₀
    · exact hold m ((hholds r i b m hr').mp hr) ht
  · rw [hlog] at hb hsav
    rw [hflat]
    refine (h.slots q j b hb ?_).imp_right (hbw b)
    by_cases hq : q = p
    · subst hq; rw [hself] at hsav; exact hsaved j hsav
    · rwa [hother q hq] at hsav
  · by_cases hq : q = p
    · subst hq; rw [hflat]; exact hcopies i n m c hi hc
    · have hi₀ := (hholds q i n m hq).mp hi
      obtain ⟨hw, hd⟩ := h.copies q i n m c hi₀ hc
      refine ⟨?_, ?_⟩
      · simpa only [Watched, hlog, hother q hq] using hw
      · rw [hdata q i n m hq hi₀, hflat]; exact hd.imp_right (hbw c)

section Single
variable (h : Commit L s) (hone : ∀ q r, (s.log.pc q).committer = true → (s.log.pc r).committer = true → q = r)
include h hone

/-- A step of a process outside `commit` that releases nothing. -/
theorem Commit.client (hp : s.script p = []) (hlog : s'.log = s.log) (hflat : s'.flat = s.flat) (hscript : s'.script = s.script)
    (hpins : s'.pins = s.pins)
    (hbw : ∀ b ∈ s.bwritten, b ∈ s'.bwritten) (hbhome : ∀ b ∈ s'.bwritten, L.Home b)
    (hio : ∀ q, q ≠ p → s'.io q = s.io q)
    (hholds : ∀ q i n m, q ≠ p → (s'.Holds q i n m ↔ s.Holds q i n m))
    (hdata : ∀ q i n m, q ≠ p → s.Holds q i n m → s'.data i = s.data i)
    (hplain : ∀ i n m, s'.Holds p i n m → m.copyOf = none ∧ (m.touched = true → L.Home n))
    (hlate : ∀ i n m, s'.Holds p i n m → m.touched = true → m.changed = true ∨ n ∈ s'.bwritten ∨
      ∃ m₀, s.Holds p i n m₀ ∧ m₀.touched = true ∧ m₀.changed = m.changed) : Commit L s' := by
  refine h.local [] hone hlog hflat (hscript.trans ?_) (hp ▸ suffix_refl _) hbw hbhome hio
    hholds hdata ⟨_, knows_of_plain hplain, fun _ => rfl⟩ (fun _ => hpins) ?_ (fun _ => hlate) ?_ ?_ ?_ ?_
  · rw [← hp, update_eq_self]
  · intro q hq; rw [hpins, hscript]; exact h.pinsCommit q hq
  · intro j b _ hc; rw [hp]; exact Or.inl hc
  · intro j hc; rwa [hp] at hc
  · intro j hc; rwa [hp]
  · intro i n m c hi hc
    rw [(hplain i n m hi).1] at hc; cases hc

/-- A step of `p` inside `bread` or `brelse`, by which it may be given a buffer as read. -/
theorem Commit.wait (hlog : s'.log = s.log) (hflat : s'.flat = s.flat) (hscript : s'.script = s.script)
    (hpins : s'.pins = s.pins) (hbw : s'.bwritten = s.bwritten) (hio : ∀ q, q ≠ p → s'.io q = s.io q)
    (hholds : ∀ q i n m, q ≠ p → (s'.Holds q i n m ↔ s.Holds q i n m))
    (hdata : ∀ q i n m, s.Holds q i n m → s'.data i = s.data i)
    (hnew : ∀ i n m, s'.Holds p i n m → s.Holds p i n m ∨ m = .fresh)
    (hknow : ∀ know, Knows L s p know → Knows L s' p know) : Commit L s' := by
  obtain ⟨know, hk, hsafe⟩ := h.know p
  refine h.local (s.script p) hone hlog hflat (hscript.trans ?_) (suffix_refl _)
    (fun b hb => hbw ▸ hb) (hbw ▸ h.bhome) hio hholds (fun q i n m _ => hdata q i n m)
    ⟨know, hknow know hk, hsafe⟩ (fun _ => hpins) ?_ ?_ (fun _ _ _ hc => Or.inl hc) (fun _ hc => hc)
    (fun _ hc => hc) ?_
  · rw [update_eq_self]
  · intro q hq; rw [hpins, hscript]; exact h.pinsCommit q hq
  · intro _ i n m hi ht
    rcases hnew i n m hi with hi | rfl
    · exact Or.inr (Or.inr ⟨m, hi, ht, rfl⟩)
    · cases ht
  · intro i n m c hi hc
    rcases hnew i n m hi with hi | rfl
    · obtain ⟨hw, hd⟩ := h.copies p i n m c hi hc
      refine ⟨?_, ?_⟩
      · simpa only [Watched, hlog, hscript] using hw
      · rw [hdata p i n m hi, hbw]; exact hd
    · cases hc

/-- `bread` returns to `p` a buffer that nobody held. -/
theorem Commit.given (hwants : (s.io p).wants = some (i, n)) (hi : s.Caches i n) (hfree : ∀ q, s.held q i = none)
    (hlog : s'.log = s.log) (hflat : s'.flat = s.flat) (hscript : s'.script = s.script)
    (hpins : s'.pins = s.pins) (hbw : s'.bwritten = s.bwritten) (hio : s'.io = update s.io p .idle)
    (hheld : s'.held = update s.held p (update (s.held p) i (some .fresh)))
    (hdev : s'.dev = s.dev) (hblk : s'.blockno = s.blockno) (hdata : ∀ j, j ≠ i → s'.data j = s.data j) :
    Commit L s' := by
  have hne : ∀ {q j k m}, s.Holds q j k m → j ≠ i := by
    rintro q j k m hj rfl
    have := hj.1
    rw [hfree q] at this; cases this
  refine h.wait (p := p) hone hlog hflat hscript hpins hbw ?_ ?_ ?_ ?_ ?_
  · intro q hq; rw [hio, update_of_ne hq]
  · intro q j k m hq; rw [holds_mark s s' hheld hdev hblk]; simp [hq]
  · intro q j k m hj; exact hdata j (hne hj)
  · intro j k m hj
    rcases (holds_mark s s' hheld hdev hblk _ _ _ _).mp hj with ⟨-, -, hm, -⟩ | ⟨-, hj⟩
    · exact Or.inr (some.inj hm).symm
    · exact Or.inl hj
  · intro know hk
    refine ⟨fun k m hm => Or.inr ?_, fun j k m hj hm => ?_⟩
    · rcases hk.held k m hm with ⟨j, hj, rfl⟩ | ⟨j, hj⟩
      · obtain ⟨rfl, rfl⟩ := Prod.mk.inj (some.inj (hwants.symm.trans hj))
        exact ⟨i, (holds_mark s s' hheld hdev hblk _ _ _ _).mpr (Or.inl ⟨rfl, rfl, rfl, hi⟩)⟩
      · exact ⟨j, (holds_mark s s' hheld hdev hblk _ _ _ _).mpr (Or.inr ⟨fun _ => hne hj, hj⟩)⟩
    · rcases (holds_mark s s' hheld hdev hblk _ _ _ _).mp hj with ⟨-, -, hf, -⟩ | ⟨-, hj⟩
      · obtain rfl := some.inj hf
        rcases hm with hm | ⟨hm, -⟩
        · exact absurd rfl hm
        · cases hm
      · exact hk.all j k m hj hm

end Single

variable {know : Nat → Option Mark}

/-- The marks `p` knows after one of its buffers gets the mark `x`. -/
theorem Knows.update (hk : Knows L s p know)
    (huniq : ∀ i j n, s.Caches i n → s.Caches j n → i = j) (hidle : s.io p = .idle) (hi : s.Holds p i n m)
    {x : Option Mark} (hheld : s'.held = update s.held p (update (s.held p) i x))
    (hdev : s'.dev = s.dev) (hblk : s'.blockno = s.blockno) : Knows L s' p (update know n x) := by
  constructor
  · intro k m' hk'
    right
    by_cases hkn : k = n
    · subst hkn
      rw [update_self] at hk'
      exact ⟨i, (holds_mark s s' hheld hdev hblk _ _ _ _).mpr (Or.inl ⟨rfl, rfl, hk', hi.2⟩)⟩
    · rw [update_of_ne hkn] at hk'
      rcases hk.held k m' hk' with ⟨j, hj, -⟩ | ⟨j, hj⟩
      · rw [hidle] at hj; cases hj
      · refine ⟨j, (holds_mark s s' hheld hdev hblk _ _ _ _).mpr (Or.inr ⟨fun _ hji => hkn ?_, hj⟩)⟩
        rw [← hj.2.2, hji, hi.2.2]
  · intro j k m' hj hm'
    rcases (holds_mark s s' hheld hdev hblk _ _ _ _).mp hj with ⟨-, rfl, hx, hc⟩ | ⟨hji, hj⟩
    · rw [← hc.2, hi.2.2, update_self, hx]
    · have hkn : k ≠ n := by
        rintro rfl; exact hji rfl (huniq j i k hj.2 hi.2)
      rw [update_of_ne hkn]
      exact hk.all j k m' hj hm'

/-- What an idle process knows of a block is the mark it has on it. -/
theorem Knows.mark (hk : Knows L s p know)
    (huniq : ∀ i j n, s.Caches i n → s.Caches j n → i = j) (hidle : s.io p = .idle) {m' : Mark}
    (hn : know n = some m') (hi : s.Holds p i n m) : m' = m := by
  rcases hk.held n m' hn with ⟨j, hj, -⟩ | ⟨j, hj⟩
  · rw [hidle] at hj; cases hj
  · have := huniq i j n hi.2 hj.2
    subst this
    exact some.inj (hj.1.symm.trans hi.1)

end

end Xv6.Bio
