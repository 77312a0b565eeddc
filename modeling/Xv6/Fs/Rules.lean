import Xv6.Fs.State

/-! Rules for reasoning about the programs of the file system run by one process at a time.

    A `Ctx` fixes what a piece of code may assume of its surroundings and what it owes them: the process
    it runs for, the panics that are tolerated, a condition on the disk whenever `end_op` is called, one
    on the blocks in which a `copyin` faults, one on the blocks it logs, and blocks that it does not
    zero or that are not to become part of a directory. `Γ.wp p s Q` says that
    `p`, started in `s`, can only end in `Q` or in a tolerated panic. Buffers and the log do not appear:
    the rules are sound whatever state those are in (`Ctx.sound`), and code that blocks on a lock it
    holds itself ends nowhere. -/

namespace Xv6.Fs
open Prog Function

structure Ctx where
  me : Pid
  allows : Panic → Prop
  atEnd : (Nat → Block) → Prop
  atFault : Nat → Prop
  atLog : Nat → Prop
  skip : Nat → Prop
  avoid : Nat → Prop

/-- What has to hold before an operation. -/
def Ctx.owes (Γ : Ctx) (s : St) : Op → Prop
  | .endOp => Γ.atEnd s.cache
  | .bfault n _ => Γ.atFault n
  | .logWrite n => Γ.atLog n
  | _ => True

/-- Code that may call `log_write`. -/
class Ctx.Writes (Γ : Ctx) : Prop where
  atLog : ∀ n, Γ.atLog n

/-- Code that may add blocks to directories. -/
class Ctx.Links (Γ : Ctx) : Prop extends Γ.Writes where
  avoids : ∀ b, Γ.avoid b → Γ.skip b

/-- Whether the operation is one of those considered. -/
def Ctx.counts (Γ : Ctx) : Op → Prop
  | .bclr n => ¬Γ.skip n
  | _ => True

/-- To reach `Q` after an operation. -/
def Ctx.spec (Γ : Ctx) : Transformer Op Ret St := fun op s Q =>
  match s.step Γ.me op with
  | .done (r, s') => Γ.owes s op ∧ (Γ.counts op → Q r s')
  | .blocked => True
  | .panic e => Γ.allows e

/-- Weakest precondition of a program of the file system. -/
def Ctx.wp {α : Type} (Γ : Ctx) (p : FsM α) (s : St) (Q : α → St → Prop) : Prop := Prog.wp Γ.spec p s Q

/-- Panics that depend on buffers, or on the log for code that calls `log_write`. -/
def Ctx.hides (Γ : Ctx) : Panic → Prop
  | .brelse => True
  | .tooBig | .outsideTrans => ∃ n, Γ.atLog n
  | _ => False

namespace Ctx
variable {Γ : Ctx} {α β : Type} {s : St}

theorem spec_mono (Γ : Ctx) : Γ.spec.Mono := by
  intro op s Q Q' h
  unfold spec
  cases s.step Γ.me op with
  | done rs => exact fun hq => ⟨hq.1, fun hc => h _ _ (hq.2 hc)⟩
  | blocked => exact id
  | panic e => exact id

theorem step_panic {sb : Super} {me : Pid} {op : Op} {r : Ret op} {h : Hid} {e : Panic} (howes : Γ.owes s op)
    (hstep : h.step sb me s op r = .panic e) : Γ.hides e := by
  unfold Hid.step at hstep
  split at hstep <;> (try split at hstep) <;> (try split at hstep) <;> cases hstep
  exacts [trivial, ⟨_, howes⟩, ⟨_, howes⟩]

theorem counts_of_skip (hskip : ∀ n, ¬Γ.skip n) (op : Op) : Γ.counts op := by
  unfold counts
  split
  · exact hskip _
  · trivial

theorem spec_sound (Γ : Ctx) (sb : Super) (hskip : ∀ n, ¬Γ.skip n) :
    Sound Γ.spec (handle sb Γ.me) Sys.fs fun e => Γ.allows e ∨ Γ.hides e := by
  intro op σ Q hspec
  unfold spec at hspec
  unfold handle
  cases hstep : σ.fs.step Γ.me op with
  | blocked => exact ⟨by rintro _ _ ⟨⟩, by rintro _ ⟨⟩⟩
  | panic e =>
    rw [hstep] at hspec
    exact ⟨by rintro _ _ ⟨⟩, by rintro _ ⟨⟩; exact .inl hspec⟩
  | done rs =>
    rw [hstep] at hspec
    dsimp only
    cases hhid : σ.hid.step sb Γ.me σ.fs op rs.1 with
    | done h => exact ⟨by rintro _ _ ⟨⟩; exact hspec.2 (counts_of_skip hskip op), by rintro _ ⟨⟩⟩
    | blocked => exact ⟨by rintro _ _ ⟨⟩, by rintro _ ⟨⟩⟩
    | panic e => exact ⟨by rintro _ _ ⟨⟩, by rintro _ ⟨⟩; exact .inr (step_panic hspec.1 hhid)⟩

/-- The rules tell the truth about a program that is run to its end. -/
theorem sound (sb : Super) {p : FsM α} {σ : Sys} {Q : α → St → Prop} (hskip : ∀ n, ¬Γ.skip n)
    (h : Γ.wp p σ.fs Q) :
    (∀ a σ', run (handle sb Γ.me) p σ = .done (a, σ') → Q a σ'.fs) ∧
      ∀ e, run (handle sb Γ.me) p σ = .panic e → Γ.allows e ∨ Γ.hides e :=
  wp_run (Γ.spec_sound sb hskip) h

/-! ### Structure -/

section Structure
variable {Q Q' : α → St → Prop} {R : β → St → Prop} {U : Unit → St → Prop}

@[simp] theorem wp_pure {a : α} : Γ.wp (pure a) s Q ↔ Q a s := Iff.rfl

@[simp] theorem wp_bind {p : FsM α} {f : α → FsM β} :
    Γ.wp (p >>= f) s R ↔ Γ.wp p s fun a s' => Γ.wp (f a) s' R :=
  (Prog.wp_bind p f s R).to_iff

theorem wp_mono {p : FsM α} (hp : Γ.wp p s Q) (h : ∀ a s', Q a s' → Q' a s') : Γ.wp p s Q' :=
  Prog.wp_mono Γ.spec_mono h hp

@[simp] theorem wp_when {c : Prop} [Decidable c] {p : FsM Unit} :
    Γ.wp (when c p) s U ↔ (c → Γ.wp p s U) ∧ (¬c → U () s) := by
  unfold when
  split <;> simp [*]

theorem wp_ite {c : Prop} [Decidable c] {p q : FsM α} :
    Γ.wp (if c then p else q) s Q ↔ (c → Γ.wp p s Q) ∧ (¬c → Γ.wp q s Q) := by
  split <;> simp [*]

@[simp] theorem wp_panic {e : Panic} : Γ.wp (panic e) s Q ↔ Γ.allows e := Iff.rfl

end Structure

/-! ### Operations -/

section Operations
variable {n dev inum : Nat} {k : Slot} {f : FileId} {fd : Fin NOFILE} {U : Unit → St → Prop}

/-- An operation that ends. -/
theorem wp_done {o : Op} {r : Ret o} {s' : St} {Q : Ret o → St → Prop} (h : s.step Γ.me o = .done (r, s')) :
    Γ.wp (perform o) s Q ↔ Γ.owes s o ∧ (Γ.counts o → Q r s') := by
  change Γ.spec o s Q ↔ _
  unfold spec
  rw [h]

/-- An operation that ends and asks for nothing. -/
theorem wp_free {o : Op} {r : Ret o} {s' : St} {Q : Ret o → St → Prop} (h : s.step Γ.me o = .done (r, s'))
    (howes : Γ.owes s o) (hcounts : Γ.counts o) : Γ.wp (perform o) s Q ↔ Q r s' :=
  (wp_done h).trans ⟨fun hq => hq.2 hcounts, fun hq => ⟨howes, fun _ => hq⟩⟩

@[simp] theorem wp_bread {Q : Block → St → Prop} : Γ.wp (bread n) s Q ↔ Q (s.cache n) s := wp_free rfl trivial trivial

@[simp] theorem wp_bmod {g : Block → Block} :
    Γ.wp (bmod n g) s U ↔ U () { s with cache := update s.cache n (g (s.cache n)) } := wp_free rfl trivial trivial

@[simp] theorem wp_bclr : Γ.wp (bclr n) s U ↔
    (¬Γ.skip n → U () { s with cache := update s.cache n zeroBlock }) :=
  (wp_done rfl).trans ⟨fun h => h.2, fun h => ⟨trivial, h⟩⟩

@[simp] theorem wp_bfault {g : Block → Block} : Γ.wp (bfault n g) s U ↔
    Γ.atFault n ∧ U () { s with cache := update s.cache n (g (s.cache n)) } :=
  (wp_done rfl).trans (and_congr_right fun _ => ⟨fun h => h trivial, fun h _ => h⟩)

@[simp] theorem wp_logWrite [Γ.Writes] : Γ.wp (logWrite n) s U ↔ U () s :=
  wp_free rfl (Writes.atLog n) trivial

@[simp] theorem wp_brelse : Γ.wp (brelse n) s U ↔ U () s := wp_free rfl trivial trivial

@[simp] theorem wp_beginOp : Γ.wp beginOp s U ↔ U () s := wp_free rfl trivial trivial

@[simp] theorem wp_endOp : Γ.wp endOp s U ↔ Γ.atEnd s.cache ∧ U () s :=
  (wp_done rfl).trans (and_congr_right fun _ => ⟨fun h => h trivial, fun h _ => h⟩)

theorem wp_iget {Q : Slot → St → Prop}
    (hhit : ∀ k, s.lookup dev inum = some k → Q k (s.setRef k (s.ref k + 1)))
    (hmiss : ∀ k, s.lookup dev inum = none → s.empty = some k → Q k (s.recycle k dev inum))
    (hfull : Γ.allows .igetNoInodes) : Γ.wp (iget dev inum) s Q := by
  change Γ.spec (.iget dev inum) s Q
  unfold spec St.step
  dsimp only
  cases hl : s.lookup dev inum with
  | some k => exact ⟨trivial, fun _ => hhit k hl⟩
  | none =>
    cases he : s.empty with
    | some k => exact ⟨trivial, fun _ => hmiss k hl he⟩
    | none => exact hfull

@[simp] theorem wp_idup : Γ.wp (idup k) s U ↔ U () (s.setRef k (s.ref k + 1)) := wp_free rfl trivial trivial

theorem wp_acquire (hk : 0 < s.ref k) (hU : s.ilk k = none → U () (s.setLock k (some Γ.me))) :
    Γ.wp (acquire k) s U := by
  change Γ.spec (.ilock k) s U
  unfold spec St.step
  dsimp only
  rw [if_neg (by omega)]
  by_cases hl : s.ilk k = none
  · rw [if_pos hl]; exact ⟨trivial, fun _ => hU hl⟩
  · rw [if_neg hl]; trivial

theorem wp_iunlock (hk : 0 < s.ref k) (hl : s.ilk k = some Γ.me) :
    Γ.wp (iunlock k) s U ↔ U () (s.setLock k none) := by
  refine wp_free (o := .iunlock k) ?_ trivial trivial
  simp [St.step, hk.ne', hl]

theorem wp_iputTest {Q : Bool → St → Prop}
    (hlast : s.Last k → s.ilk k = none ∧ Q true (s.setLock k (some Γ.me)))
    (hmore : ¬s.Last k → Q false (s.setRef k (s.ref k - 1))) : Γ.wp (iputTest k) s Q := by
  change Γ.spec (.iputTest k) s Q
  unfold spec St.step
  dsimp only
  by_cases hl : s.Last k
  · rw [if_pos hl, if_pos (hlast hl).1]; exact ⟨trivial, fun _ => (hlast hl).2⟩
  · rw [if_neg hl]; exact ⟨trivial, fun _ => hmore hl⟩

@[simp] theorem wp_releasesleep : Γ.wp (releasesleep k) s U ↔ U () (s.setLock k none) := wp_free rfl trivial trivial

@[simp] theorem wp_iputDrop : Γ.wp (iputDrop k) s U ↔ U () (s.setRef k (s.ref k - 1)) := wp_free rfl trivial trivial

@[simp] theorem wp_getIno {Q : Nat × Nat → St → Prop} : Γ.wp (getIno k) s Q ↔ Q (s.dev k, s.inum k) s := wp_free rfl trivial trivial

@[simp] theorem wp_getValid {Q : Bool → St → Prop} : Γ.wp (getValid k) s Q ↔ Q (s.valid k) s := wp_free rfl trivial trivial

@[simp] theorem wp_setValid {v : Bool} :
    Γ.wp (setValid k v) s U ↔ U () { s with valid := update s.valid k v } := wp_free rfl trivial trivial

@[simp] theorem wp_getNode {Q : Dinode → St → Prop} : Γ.wp (getNode k) s Q ↔ Q (s.node k) s := wp_free rfl trivial trivial

@[simp] theorem wp_setNode {d : Dinode} :
    Γ.wp (setNode k d) s U ↔ U () { s with node := update s.node k d } := wp_free rfl trivial trivial

theorem wp_filealloc {Q : Option FileId → St → Prop} (hnone : s.freeFile = none → Q none s)
    (hsome : ∀ f, s.freeFile = some f → Q (some f) (s.setFile f { s.file f with ref := 1 })) :
    Γ.wp filealloc s Q := by
  change Γ.spec .filealloc s Q
  unfold spec St.step
  dsimp only
  cases hf : s.freeFile with
  | some f => exact ⟨trivial, fun _ => hsome f hf⟩
  | none => exact ⟨trivial, fun _ => hnone hf⟩

theorem wp_filedup (hf : 0 < (s.file f).ref) : Γ.wp (filedup f) s U ↔
    U () (s.setFile f { s.file f with ref := (s.file f).ref + 1 }) := by
  refine wp_free (o := .filedup f) ?_ trivial trivial
  simp [St.step, hf.ne']

theorem wp_filecloseTest {Q : Option File → St → Prop} (hpanic : (s.file f).ref < 1 → Γ.allows .fileclose)
    (hmore : 1 < (s.file f).ref → Q none (s.setFile f { s.file f with ref := (s.file f).ref - 1 }))
    (hlast : (s.file f).ref = 1 → Q (some (s.file f)) (s.setFile f { s.file f with ref := 0, type := .none })) :
    Γ.wp (filecloseTest f) s Q := by
  change Γ.spec (.filecloseTest f) s Q
  unfold spec St.step
  dsimp only
  by_cases h1 : (s.file f).ref < 1
  · rw [if_pos h1]; exact hpanic h1
  · rw [if_neg h1]
    by_cases h2 : 1 < (s.file f).ref
    · rw [if_pos h2]; exact ⟨trivial, fun _ => hmore h2⟩
    · rw [if_neg h2]; exact ⟨trivial, fun _ => hlast (by omega)⟩

@[simp] theorem wp_getFile {Q : File → St → Prop} : Γ.wp (getFile f) s Q ↔ Q (s.file f) s := wp_free rfl trivial trivial

@[simp] theorem wp_setFile {x : File} :
    Γ.wp (setFile f x) s U ↔ U () (s.setFile f { x with ref := (s.file f).ref }) := wp_free rfl trivial trivial

@[simp] theorem wp_setOff : Γ.wp (setOff f n) s U ↔ U () (s.setFile f { s.file f with off := n }) := wp_free rfl trivial trivial

theorem wp_getCwd {Q : Slot → St → Prop} (h : ∀ k, s.cwd Γ.me = some k → Q k s) : Γ.wp getCwd s Q := by
  change Γ.spec .cwd s Q
  unfold spec St.step
  dsimp only
  cases hc : s.cwd Γ.me with
  | some k => exact ⟨trivial, fun _ => h k hc⟩
  | none => trivial

@[simp] theorem wp_setCwd {k : Option Slot} :
    Γ.wp (setCwd k) s U ↔ U () { s with cwd := update s.cwd Γ.me k } := wp_free rfl trivial trivial

@[simp] theorem wp_getOfile {Q : Option FileId → St → Prop} :
    Γ.wp (getOfile fd) s Q ↔ Q (s.ofile Γ.me fd) s := wp_free rfl trivial trivial

@[simp] theorem wp_setOfile {x : Option FileId} : Γ.wp (setOfile fd x) s U ↔
    U () { s with ofile := update s.ofile Γ.me (update (s.ofile Γ.me) fd x) } := wp_free rfl trivial trivial

@[simp] theorem wp_childCwd {np : Pid} :
    Γ.wp (childCwd np k) s U ↔ U () { s with cwd := update s.cwd np (some k) } := wp_free rfl trivial trivial

@[simp] theorem wp_childOfile {np : Pid} {x : Option FileId} : Γ.wp (childOfile np fd x) s U ↔
    U () { s with ofile := update s.ofile np (update (s.ofile np) fd x) } := wp_free rfl trivial trivial

end Operations

end Ctx

end Xv6.Fs
