import Xv6.Lib.Monitor
import Xv6.Lib.Ring

/-! `kernel/pipe.c`: `pipewrite`, `piperead` and `pipeclose` by any number of processes.

    A pipe is a ring of bytes under one lock. Each label below is a place in the C text; between two
    labels of one process any other process can move, unless it waits for the lock. `accepted` and
    `removed` are history: the bytes that went into the ring and the bytes that came out of it. What
    becomes of the page of a pipe whose two ends are closed is not modelled. -/

namespace Xv6.Pipe
open Monitor

def PIPESIZE : Nat := 512

/-- `struct pipe`. -/
structure St where
  data : Nat → UInt8     -- char data[PIPESIZE]
  nread : UInt32         -- number of bytes read
  nwrite : UInt32        -- number of bytes written
  readopen : Bool        -- read fd is still open
  writeopen : Bool       -- write fd is still open
  -- history
  accepted : List UInt8
  removed : List UInt8

/-- A pipe as `pipealloc` makes it; the page may hold anything. -/
def pipealloc (page : Nat → UInt8) : St := ⟨page, 0, 0, true, true, [], []⟩

/-- `&pi->nread` and `&pi->nwrite`. -/
inductive Chan where
  | nread | nwrite
  deriving DecidableEq

inductive Call where
  | close (writable : Bool)
  | write (n : Int)
  | read (n : Int)

/-- What comes from outside: the next call of a process, the byte that `copyin` brings, whether
    `copyout` succeeds. -/
inductive Input where
  | call (c : Call)
  | copyin (ch : Option UInt8)
  | copyout (ok : Bool)

/-- Places in `pipe.c`. In `pipewrite`, `j` counts the bytes stored since the lock was last taken. -/
inductive Label where
  | idle
  -- pipeclose
  | close (writable : Bool) | closeIn (writable : Bool) | closeWake (writable : Bool)
  -- pipewrite
  | write (n : Int) | wloop (n : Int) (i j : Nat) | wkilled (n : Int) (i j : Nat) | wfull (n : Int) (i j : Nat)
  | wwake (n : Int) (i : Nat) | wsleep (n : Int) (i : Nat) | wstore (n : Int) (i j : Nat) | wend (i : Nat)
  -- piperead
  | read (n : Int) | rloop (n : Int) | rkilled (n : Int) | rsleep (n : Int)
  | rcopy (n : Int) (i : Nat) | rtake (n : Int) (i : Nat) | rend (i : Nat)
  -- release(&pi->lock) and return
  | ret (r : Int)

namespace St

def Empty (d : St) : Prop := d.nread = d.nwrite

def Full (d : St) : Prop := d.nwrite = d.nread + UInt32.ofNat PIPESIZE

instance (d : St) : Decidable d.Empty := inferInstanceAs (Decidable (_ = _))

instance (d : St) : Decidable d.Full := inferInstanceAs (Decidable (_ = _))

/-- `pi->data[pi->nwrite++ % PIPESIZE] = ch`. -/
def store (d : St) (ch : UInt8) : St :=
  { d with data := Function.update d.data (d.nwrite.toNat % PIPESIZE) ch, nwrite := d.nwrite + 1,
           accepted := d.accepted ++ [ch] }

/-- `ch = pi->data[pi->nread++ % PIPESIZE]`. -/
def take (d : St) : St :=
  { d with nread := d.nread + 1, removed := d.removed ++ [d.data (d.nread.toNat % PIPESIZE)] }

def close (d : St) (writable : Bool) : St :=
  if writable then { d with writeopen := false } else { d with readopen := false }

end St

/-- Whom `pipeclose` wakes. -/
def peers (writable : Bool) : Chan := if writable then .nread else .nwrite

def instr : Label → Instr St Chan Input Label
  | .idle => .access fun x d => (d, match x with
    | .call (.close writable) => .close writable
    | .call (.write n) => .write n
    | .call (.read n) => .read n
    | _ => .idle)
  | .close writable => .acquire (.closeIn writable)
  | .closeIn writable => .access fun _ d => (d.close writable, .closeWake writable)
  | .closeWake writable => .wakeup (peers writable) (.ret 0)
  | .write n => .acquire (.wloop n 0 0)
  | .wloop n i j => .access fun _ d =>
    (d, if (i : Int) < n then if d.readopen then .wkilled n i j else .ret (-1) else .wend i)
  | .wkilled n i j => .killed fun b => if b then .ret (-1) else .wfull n i j
  | .wfull n i j => .access fun _ d => (d, if d.Full then .wwake n i else .wstore n i j)
  | .wwake n i => .wakeup .nread (.wsleep n i)
  | .wsleep n i => .sleep .nwrite (.wloop n i 0)
  | .wstore n i j => .access fun x d => match x with
    | .copyin (some ch) => (d.store ch, .wloop n (i + 1) (j + 1))
    | _ => (d, .wend i)
  | .wend i => .wakeup .nread (.ret i)
  | .read n => .acquire (.rloop n)
  | .rloop n => .access fun _ d => (d, if d.Empty ∧ d.writeopen then .rkilled n else .rcopy n 0)
  | .rkilled n => .killed fun b => if b then .ret (-1) else .rsleep n
  | .rsleep n => .sleep .nread (.rloop n)
  | .rcopy n i => .access fun _ d => (d, if (i : Int) < n ∧ ¬d.Empty then .rtake n i else .rend i)
  | .rtake n i => .access fun x d => (d.take, match x with
    | .copyout true => .rcopy n (i + 1)
    | _ => .rend i)
  | .rend i => .wakeup .nwrite (.ret i)
  | .ret _ => .release .idle

variable {P : Type}

/-- The processes `procs` sharing one pipe. -/
def program (procs : List P) : Program P St Chan Input Empty Label where
  procs := procs
  instr := fun _ => instr
  env := fun e => e.elim

/-- All processes before their first call. -/
def init (page : Nat → UInt8) : State P St Chan Label := State.init (pipealloc page) .idle

/-! ### The ring -/

namespace St
variable {d : St} {ch : UInt8} {writable : Bool}

/-- The number of bytes in the pipe. -/
def len (d : St) : Nat := (d.nwrite - d.nread).toNat

/-- The bytes in the pipe, from the oldest on. -/
def contents (d : St) : List UInt8 := Ring.contents PIPESIZE d.data d.nread.toNat d.len

/-- First in, first out: what was accepted is what was removed and then what is in the ring. -/
structure Fifo (d : St) : Prop where
  len_le : d.len ≤ PIPESIZE
  accepted : d.accepted = d.removed ++ d.contents

theorem dvd_counter : PIPESIZE ∣ 2 ^ 32 := by decide

theorem empty_iff : d.Empty ↔ d.len = 0 := Ring.toNat_dist_eq_zero.symm

theorem full_iff : d.Full ↔ d.len = PIPESIZE := by
  have h1 := d.nread.toNat_lt
  have h2 := d.nwrite.toNat_lt
  unfold Full len
  rw [← UInt32.toNat_inj, UInt32.toNat_sub, UInt32.toNat_add]
  change _ = (_ + 512) % 2 ^ 32 ↔ _ = 512
  omega

theorem len_store (h : Fifo d) : (d.store ch).len = d.len + 1 :=
  Ring.toNat_dist_succ (lt_of_le_of_lt h.len_le (by decide))

theorem len_take (h : ¬d.Empty) : d.take.len + 1 = d.len := Ring.toNat_dist_pred h

theorem fifo_pipealloc (page : Nat → UInt8) : Fifo (pipealloc page) := by
  have hlen : (pipealloc page).len = 0 := empty_iff.mp rfl
  refine ⟨by rw [hlen]; exact Nat.zero_le _, ?_⟩
  rw [contents, hlen]
  rfl

theorem Fifo.store (h : Fifo d) (hfull : ¬d.Full) : Fifo (d.store ch) := by
  have hlt : d.len < PIPESIZE := lt_of_le_of_ne h.len_le (mt full_iff.mpr hfull)
  refine ⟨by rw [len_store h]; exact hlt, ?_⟩
  have hplace : d.nwrite.toNat % PIPESIZE = (d.nread.toNat + d.len) % PIPESIZE := Ring.place_eq dvd_counter
  have hcontents : (d.store ch).contents = d.contents ++ [ch] := by
    unfold contents
    rw [len_store h]
    change Ring.contents PIPESIZE (Function.update d.data (d.nwrite.toNat % PIPESIZE) ch) d.nread.toNat (d.len + 1) = _
    rw [hplace, Ring.contents_push hlt]
  rw [hcontents, ← List.append_assoc]
  exact congrArg (· ++ [ch]) h.accepted

theorem Fifo.take (h : Fifo d) (hempty : ¬d.Empty) : Fifo d.take := by
  have hlen := len_take hempty
  refine ⟨Nat.le_of_succ_le (hlen.le.trans h.len_le), ?_⟩
  have hcontents : d.contents = d.data (d.nread.toNat % PIPESIZE) :: d.take.contents := by
    unfold contents
    rw [← hlen, Ring.contents_cons]
    exact congrArg _ (Ring.contents_succ_counter dvd_counter).symm
  change d.accepted = d.removed ++ [_] ++ d.take.contents
  rw [h.accepted, hcontents, List.append_assoc]
  rfl

theorem Fifo.close (h : Fifo d) : Fifo (d.close writable) := by
  cases writable with
  | true => exact ⟨h.len_le, h.accepted⟩
  | false => exact ⟨h.len_le, h.accepted⟩

end St

/-! ### The outline -/

/-- The reason to sleep on a channel. -/
def Reason (ch : Chan) (d : St) : Prop :=
  match ch with
  | .nread => d.Empty ∧ d.writeopen = true
  | .nwrite => d.Full ∧ d.readopen = true

/-- Where the lock is held. -/
def Locked : Label → Prop
  | .idle | .close _ | .write _ | .read _ => False
  | _ => True

/-- What the code has found out. -/
def Here (d : St) : Label → Prop
  | .wloop _ _ j => 0 < j → d.readopen = true
  | .wkilled .. | .wfull .. => d.readopen = true
  | .wwake .. | .wsleep .. => Reason .nwrite d
  | .wstore .. => d.readopen = true ∧ ¬d.Full
  | .rkilled _ | .rsleep _ => Reason .nread d
  | .rtake .. => ¬d.Empty
  | _ => True

/-- Channels that the code still has to wake up. -/
def Pending : Label → Chan → Prop
  | .closeWake writable, ch => ch = peers writable
  | .wloop _ _ j, ch | .wkilled _ _ j, ch | .wfull _ _ j, ch | .wstore _ _ j, ch => ch = .nread ∧ 0 < j
  | .wwake .., ch | .wend _, ch => ch = .nread
  | .rcopy .., ch | .rtake .., ch | .rend _, ch => ch = .nwrite
  | _, _ => False

/-- A writer finds itself killed after it has put bytes into the pipe under the lock it holds. -/
def Interrupted : Label → Bool → Prop
  | .wkilled _ _ j, b => b = true ∧ 0 < j
  | _, _ => False

/-- With `strict`, sleepers have their reasons and writers are not interrupted. -/
def outline (strict : Prop) : Outline P St Chan Label where
  locked := Locked
  inv := St.Fifo
  own := fun _ _ _ => True
  pre := fun _ k d => d.Fifo ∧ Here d k
  wait := fun ch d => strict → Reason ch d
  may := fun _ k d ch => strict → Reason ch d ∨ Pending k ch
  sees := fun _ k b => strict → ¬Interrupted k b

variable {strict : Prop} {p : P} {k k' : Label} {d d' : St}

/-- A step under the lock. -/
theorem goes (hk : Locked k) (hk' : Locked k') (hpre : d'.Fifo ∧ Here d' k')
    (hmay : ∀ ch, Reason ch d ∨ Pending k ch → Reason ch d' ∨ Pending k' ch) :
    (outline strict : Outline P St Chan Label).Goes p k d d' k' where
  own := trivial
  locked := iff_of_true hk hk'
  pre := fun _ => hpre
  may := fun _ ch h hs => hmay ch (h hs)
  others := fun _ _ _ _ => trivial
  calm := fun hno => absurd hk hno

/-- A place where the lock has just been taken. -/
theorem enters (hk : Locked k) (hhere : ∀ d, Here d k) : (outline strict : Outline P St Chan Label).Enters p k :=
  ⟨hk, fun d _ hinv => ⟨⟨hinv, hhere d⟩, fun _ h hs => .inl (h hs)⟩⟩

theorem respects_idle : (outline strict : Outline P St Chan Label).Respects p .idle (instr .idle) := by
  intro x d _ _
  have hk : ∀ k', ¬Locked k' → (outline strict : Outline P St Chan Label).Goes p .idle d d k' := fun k' hno => .wander id hno trivial
  cases x with
  | call c =>
    cases c with
    | close writable => exact hk (.close writable) id
    | write n => exact hk (.write n) id
    | read n => exact hk (.read n) id
  | copyin ch => exact hk .idle id
  | copyout ok => exact hk .idle id

/-- The last steps of `pipeclose`, `pipewrite` and `piperead`: wake the others and go. -/
theorem respects_wakeup {ch : Chan} (hk : Locked k) (hk' : Locked k') (hhere : ∀ d, Here d k → Here d k')
    (hpending : ∀ ch', ch' ≠ ch → ¬Pending k ch') :
    (outline strict : Outline P St Chan Label).Respects (X := Input) p k (.wakeup ch k') :=
  ⟨iff_of_true hk hk', fun d _ => ⟨trivial, fun _ hpre => ⟨⟨hpre.1, hhere d hpre.2⟩, fun ch' hne hmay hs =>
    (hmay hs).imp id fun hp => absurd hp (hpending ch' hne)⟩⟩⟩

theorem reason_close {writable : Bool} {ch : Chan} (h : Reason ch d) : Reason ch (d.close writable) ∨ ch = peers writable := by
  cases writable with
  | true =>
    cases ch with
    | nread => exact .inr rfl
    | nwrite => exact .inl h
  | false =>
    cases ch with
    | nread => exact .inl h
    | nwrite => exact .inr rfl

/-- A pipe that is not full has no reason to let writers sleep. -/
theorem reason_store {ch : Chan} (hfull : ¬d.Full) (h : Reason ch d) : ch = .nread := by
  cases ch with
  | nread => rfl
  | nwrite => exact absurd h.1 hfull

theorem reason_take {ch : Chan} (hempty : ¬d.Empty) (h : Reason ch d) : ch = .nwrite := by
  cases ch with
  | nread => exact absurd h.1 hempty
  | nwrite => rfl

theorem respects : ∀ k, (outline strict : Outline P St Chan Label).Respects p k (instr k)
  | .idle => respects_idle
  | .close _ | .read _ => ⟨id, fun _ _ => trivial, enters trivial fun _ => trivial⟩
  | .closeIn _ => fun _ _ _ hpre =>
    goes trivial trivial ⟨(hpre trivial).1.close, trivial⟩ fun _ h => (h.resolve_right id |> reason_close)
  | .closeWake _ => respects_wakeup trivial trivial (fun _ _ => trivial) fun _ hne hp => hne hp
  | .write _ => ⟨id, fun _ _ => trivial, enters trivial fun _ h => absurd h (lt_irrefl 0)⟩
  | .wloop n i j => fun _ d _ hpre => by
    obtain ⟨hfifo, hopen⟩ := hpre trivial
    dsimp only
    split
    · split
      · exact goes trivial trivial ⟨hfifo, ‹_›⟩ fun _ => id
      · -- nothing was stored: the pipe was open for reading before that
        refine goes trivial trivial ⟨hfifo, trivial⟩ fun _ => Or.imp id fun h => ?_
        exact absurd (hopen h.2) ‹_›
    · exact goes trivial trivial ⟨hfifo, trivial⟩ fun _ => Or.imp id And.left
  | .wkilled n i j => fun b hsees => by
    cases b with
    | true =>
      refine ⟨iff_of_true trivial trivial, fun d _ => ⟨trivial, fun _ hpre => ⟨⟨hpre.1, trivial⟩, fun ch hmay hs => ?_⟩⟩⟩
      exact (hmay hs).imp id fun hp => hsees hs ⟨rfl, hp.2⟩
    | false => exact ⟨iff_of_true trivial trivial, fun d _ => ⟨trivial, fun _ hpre => ⟨hpre, fun _ => id⟩⟩⟩
  | .wfull n i j => fun _ d _ hpre => by
    obtain ⟨hfifo, hopen⟩ := hpre trivial
    dsimp only
    split
    · exact goes trivial trivial ⟨hfifo, ‹_›, hopen⟩ fun _ => Or.imp id And.left
    · exact goes trivial trivial ⟨hfifo, hopen, ‹_›⟩ fun _ => id
  | .wwake _ _ => respects_wakeup trivial trivial (fun _ => id) fun _ hne hp => hne hp
  | .wsleep _ _ => ⟨trivial, fun _ _ hpre => ⟨trivial, hpre.1, fun _ => hpre.2, fun _ hmay hs => (hmay hs).resolve_right id⟩,
      enters trivial fun _ h => absurd h (lt_irrefl 0)⟩
  | .wstore n i j => fun x d _ hpre => by
    obtain ⟨hfifo, hopen, hfull⟩ := hpre trivial
    have hend : (outline strict : Outline P St Chan Label).Goes p (.wstore n i j) d d (.wend i) :=
      goes trivial trivial ⟨hfifo, trivial⟩ fun _ => Or.imp id And.left
    cases x with
    | copyin c =>
      cases c with
      | none => exact hend
      | some c =>
        exact goes trivial trivial ⟨hfifo.store hfull, fun _ => hopen⟩ fun ch h =>
          .inr ⟨h.elim (reason_store hfull) And.left, Nat.succ_pos j⟩
    | call c => exact hend
    | copyout ok => exact hend
  | .wend _ => respects_wakeup trivial trivial (fun _ _ => trivial) fun _ hne hp => hne hp
  | .rloop n => fun _ d _ hpre => by
    obtain ⟨hfifo, _⟩ := hpre trivial
    dsimp only
    split
    · exact goes trivial trivial ⟨hfifo, ‹_›⟩ fun _ => id
    · exact goes trivial trivial ⟨hfifo, trivial⟩ fun _ => Or.imp id False.elim
  | .rkilled n => fun b _ => by
    cases b with
    | true => exact ⟨iff_of_true trivial trivial, fun d _ => ⟨trivial, fun _ hpre => ⟨⟨hpre.1, trivial⟩, fun _ => id⟩⟩⟩
    | false => exact ⟨iff_of_true trivial trivial, fun d _ => ⟨trivial, fun _ hpre => ⟨hpre, fun _ => id⟩⟩⟩
  | .rsleep _ => ⟨trivial, fun _ _ hpre => ⟨trivial, hpre.1, fun _ => hpre.2, fun _ hmay hs => (hmay hs).resolve_right id⟩,
      enters trivial fun _ => trivial⟩
  | .rcopy n i => fun _ d _ hpre => by
    obtain ⟨hfifo, _⟩ := hpre trivial
    dsimp only
    split
    · exact goes trivial trivial ⟨hfifo, (‹_ ∧ _› : _ ∧ _).2⟩ fun _ => id
    · exact goes trivial trivial ⟨hfifo, trivial⟩ fun _ => id
  | .rtake n i => fun x d _ hpre => by
    obtain ⟨hfifo, hempty⟩ := hpre trivial
    have hgo : ∀ k', Locked k' → Here d.take k' → (∀ ch, ch = .nwrite → Pending k' ch) →
        (outline strict : Outline P St Chan Label).Goes p (.rtake n i) d d.take k' := fun k' hk' hhere hp =>
      goes trivial hk' ⟨hfifo.take hempty, hhere⟩ fun ch h => .inr (hp ch (h.elim (reason_take hempty) id))
    cases x with
    | copyout ok =>
      cases ok with
      | true => exact hgo (.rcopy n (i + 1)) trivial trivial fun _ => id
      | false => exact hgo (.rend i) trivial trivial fun _ => id
    | call c => exact hgo (.rend i) trivial trivial fun _ => id
    | copyin c => exact hgo (.rend i) trivial trivial fun _ => id
  | .rend _ => respects_wakeup trivial trivial (fun _ _ => trivial) fun _ hne hp => hne hp
  | .ret _ => ⟨trivial, id, fun _ _ hpre => ⟨trivial, hpre.1, fun _ hmay hs => (hmay hs).resolve_right id⟩⟩

variable {procs : List P}

theorem valid (hall : ∀ p, p ∈ procs) : (outline strict : Outline P St Chan Label).Valid (program procs) where
  all := hall
  instr := fun _ k => respects k
  env := fun e => e.elim

theorem good_init (page : Nat → UInt8) : (outline strict : Outline P St Chan Label).Good (init page) :=
  .init id (fun _ => trivial) (St.fifo_pipealloc page)

variable [DecidableEq P] {page : Nat → UInt8} {as : List (Act P Input Empty)} {s : State P St Chan Label}

/-- No writer learns that it is killed when it has stored bytes since it took the lock. -/
def Undisturbed (s : State P St Chan Label) : Act P Input Empty → Prop
  | .step p _ => match s.ctl p with
    | .lookIn (.wkilled _ _ j) => s.killed p = true → j = 0
    | _ => True
  | _ => True

instance (s : State P St Chan Label) : ∀ a : Act P Input Empty, Decidable (Undisturbed s a)
  | .step p _ => by
    unfold Undisturbed
    dsimp only
    split
    · infer_instance
    · exact isTrue trivial
  | .kill _ | .env _ => isTrue trivial

omit [DecidableEq P] in
theorem sees_of_undisturbed {a : Act P Input Empty} (h : Undisturbed s a) : (outline True).Sees s a := by
  cases a with
  | kill p => trivial
  | env e => trivial
  | step p x =>
    unfold Undisturbed at h
    unfold Outline.Sees
    dsimp only at h ⊢
    cases hk : s.ctl p with
    | lookIn k =>
      intro _ hint
      cases k with
      | wkilled n i j =>
        rw [hk] at h
        exact hint.2.ne' (h hint.1)
      | _ => exact hint
    | _ => trivial

/-- NO PROCESS IS STRANDED: while the lock is free, whoever sleeps in `piperead` finds the pipe empty and
    open for writing, and whoever sleeps in `pipewrite` finds it full and open for reading, unless a
    writer has been killed halfway through a transfer. -/
theorem no_stranding (hall : ∀ p, p ∈ procs) (hrun : Run.run (program procs).step (init page) as = some s)
    (hcalm : Run.Along (program procs).step Undisturbed (init page) as) (hfree : s.lock = none) :
    (∀ p, s.asleep p = some .nread → s.data.Empty ∧ s.data.writeopen = true) ∧
      ∀ p, s.asleep p = some .nwrite → s.data.Full ∧ s.data.readopen = true := by
  have hgood := (good_init page).run (valid hall) (Run.along_mono (fun _ _ => sees_of_undisturbed) hcalm) hrun
  exact ⟨fun _ hp => hgood.reason hfree hp trivial, fun _ hp => hgood.reason hfree hp trivial⟩

/-- A reader of an empty pipe goes to sleep. -/
def readerSleeps : List (Act (Fin 2) Input Empty) := List.replicate 10 (.step 0 (.call (.read 1)))

theorem no_stranding_reader : ∃ s, Run.run (program [0, 1]).step (init fun _ => 0) readerSleeps = some s ∧
    s.asleep 0 = some .nread ∧ s.data.Empty := by
  have hrun : (Run.run (program [0, 1]).step (init fun _ => 0) readerSleeps).any fun s =>
      decide (s.asleep 0 = some .nread ∧ s.lock = none) := by decide
  obtain ⟨s, hs, hasleep⟩ := (Option.any_eq_true _ _).mp hrun
  obtain ⟨hasleep, hfree⟩ := of_decide_eq_true hasleep
  exact ⟨s, hs, hasleep, ((no_stranding (by decide) hs (by decide) hfree).1 0 hasleep).1⟩

/-- A writer puts one byte into the pipe, is killed, and leaves without a word. -/
def writerKilled : List (Act (Fin 2) Input Empty) :=
  readerSleeps ++ .step 1 (.call (.write 2)) :: List.replicate 9 (.step 1 (.copyin (some 65))) ++
    .kill 1 :: List.replicate 3 (.step 1 (.copyin none))

/-- The reader sleeps on although there is a byte to read. -/
theorem no_stranding_killed : ∃ s, Run.run (program [0, 1]).step (init fun _ => 0) writerKilled = some s ∧
    s.lock = none ∧ s.asleep 0 = some .nread ∧ ¬s.data.Empty := by
  have hrun : (Run.run (program [0, 1]).step (init fun _ => 0) writerKilled).any fun s =>
      decide (s.lock = none ∧ s.asleep 0 = some .nread ∧ ¬s.data.Empty) := by decide
  obtain ⟨s, hs, hfinal⟩ := (Option.any_eq_true _ _).mp hrun
  exact ⟨s, hs, of_decide_eq_true hfinal⟩

end Xv6.Pipe
