import Xv6.Log.Crash
import Xv6.Log.Group

/-! `kernel/bio.c` under `kernel/log.c`: the buffer cache shared by any number of processes.

    A step is one critical section of `bcache.lock`, one acquire or release of a buffer's sleep-lock,
    one disk transfer, one store to `b->data`, or one step of the log protocol of `Log.Group`.

        bread:   bget (refcnt++ or recycle) ──▶ acquiresleep ──▶ read if !valid ──▶ held
        brelse:  releasesleep ──▶ refcnt--, to the front of the list at 0

    A process names a buffer it holds by the block the buffer caches. Outside `commit` a process does
    what it likes within the rule of the cache: a buffer it has changed it passes to `log_write` or
    `bwrite` before `brelse`. Inside `commit` it follows `write_log`, `write_head` and
    `install_trans`, one buffer operation after the other.

    `flat`, the contents last released for each block, is history, and so are `pins`, the blocks
    `log_write` has pinned and `install_trans` has not yet unpinned, `bwritten`, the blocks a client
    has written through since the running commit began, and the marks on held buffers. -/

namespace Xv6
open Function

/-- The steps of the log protocol in which no block is passed. -/
def Log.Act.protocol : Log.Act → Bool
  | .logWrite _ => false
  | _ => true

namespace Bio
open Log (Block Area)

/-- What the holder has done to a buffer since `bread` gave it out. -/
structure Mark where
  touched : Bool           -- b->data has been stored to
  changed : Bool           -- and not passed to log_write or bwrite since
  synced : Bool            -- the disk holds b->data
  copyOf : Option Nat      -- b->data was last copied from the buffer of this block
  deriving DecidableEq

def Mark.fresh : Mark := ⟨false, false, false, none⟩

/-- Where a process is inside `bread` or `brelse`. -/
inductive Io where
  | idle
  | locking (i : Fin NBUF) (n : Nat)
  | reading (i : Fin NBUF) (n : Nat)
  | dropping (i : Fin NBUF)
  deriving DecidableEq

/-- Operations on the cache. -/
inductive Op where
  | bread (n : Nat)
  | change (n : Nat) (v : Block)   -- store to b->data
  | copy (dst src : Nat)           -- memmove(dst->data, src->data, BSIZE)
  | head (n : Nat)                 -- the stores of write_head
  | logWrite (n : Nat)
  | bwrite (n : Nat)
  | bunpin (n : Nat)
  | brelse (n : Nat)

/-- Cache, disk, log and processes, one function for each field of `struct buf` and of a process. -/
structure Sys (P : Type) where
  -- struct buf
  dev : Fin NBUF → Nat
  blockno : Fin NBUF → Nat
  valid : Fin NBUF → Bool
  refcnt : Fin NBUF → Nat
  owner : Fin NBUF → Option P         -- who has the sleep-lock
  data : Fin NBUF → Block
  lru : List (Fin NBUF)               -- from bcache.head.next on
  disk : Nat → Block
  log : Log.St P
  noBuffers : Bool                    -- panic("bget: no buffers")
  -- processes
  io : P → Io
  held : P → Fin NBUF → Option Mark
  script : P → List Op                -- what is left of the body of commit it is in
  -- history
  flat : Nat → Block
  pins : List Nat
  bwritten : List Nat

/-- Once around the body of the loop of `write_log`. -/
def writeLogBody (L : Area) (tail b : Nat) : List Op :=
  let slot := L.start + tail + 1
  [.bread slot, .bread b, .copy slot b, .bwrite slot, .brelse b, .brelse slot]

/-- `write_head`. -/
def writeHeadBody (L : Area) : List Op := [.bread L.start, .head L.start, .bwrite L.start, .brelse L.start]

/-- Once around the body of the loop of `install_trans(0)`. -/
def installBody (L : Area) (tail b : Nat) : List Op :=
  let slot := L.start + tail + 1
  [.bread slot, .bread b, .copy b slot, .bwrite b, .bunpin b, .brelse slot, .brelse b]

/-- What `commit` does with buffers at the place `pc`. -/
def body (L : Area) (block : List Nat) : Log.Pc → List Op
  | .writeLog tail => (block[tail]?).elim [] (writeLogBody L tail)
  | .writeHead => writeHeadBody L
  | .install tail => (block[tail]?).elim [] (installBody L tail)
  | .clearHead => writeHeadBody L
  | _ => []

variable {P : Type} [DecidableEq P]

/-- After `binit`: buffers cache nothing, and the last one is at the front of the list. -/
def Sys.init (d : Nat → Block) : Sys P where
  dev := fun _ => 0
  blockno := fun _ => 0
  valid := fun _ => false
  refcnt := fun _ => 0
  owner := fun _ => none
  data := fun _ _ => 0
  lru := (List.finRange NBUF).reverse
  disk := d
  log := .init
  noBuffers := false
  io := fun _ => .idle
  held := fun _ _ => none
  script := fun _ => []
  flat := d
  pins := []
  bwritten := []

namespace Sys

/-- Buffer `i` caches block `n`. -/
abbrev Caches (s : Sys P) (i : Fin NBUF) (n : Nat) : Prop := s.dev i = ROOTDEV ∧ s.blockno i = n

/-- The buffer of block `n` that `p` holds, with its mark. -/
def holding (s : Sys P) (p : P) (n : Nat) : Option (Fin NBUF × Mark) :=
  (List.finRange NBUF).findSome? fun i =>
    (s.held p i).bind fun m => if s.Caches i n then some (i, m) else none

def setIo (s : Sys P) (p : P) (io : Io) : Sys P := { s with io := update s.io p io }

def setMark (s : Sys P) (p : P) (i : Fin NBUF) (m : Option Mark) : Sys P :=
  { s with held := update s.held p (update (s.held p) i m) }

/-- `b->refcnt++`. -/
def incRef (s : Sys P) (i : Fin NBUF) : Sys P := { s with refcnt := update s.refcnt i (s.refcnt i + 1) }

/-- `b->refcnt--`. -/
def decRef (s : Sys P) (i : Fin NBUF) : Sys P := { s with refcnt := update s.refcnt i (s.refcnt i - 1) }

/-- Buffer `i` is to cache block `n`. -/
def recycle (s : Sys P) (i : Fin NBUF) (n : Nat) : Sys P :=
  { s with
    dev := update s.dev i ROOTDEV
    blockno := update s.blockno i n
    valid := update s.valid i false
    refcnt := update s.refcnt i 1 }

/-- The critical section of `bget`. -/
def bget (s : Sys P) (p : P) (n : Nat) : Sys P :=
  match s.lru.find? (fun i => s.Caches i n) with
  | some i => (s.incRef i).setIo p (.locking i n)
  | none =>
    -- least recently used first
    match s.lru.reverse.find? (fun i => s.refcnt i = 0) with
    | some i => (s.recycle i n).setIo p (.locking i n)
    | none => { s with noBuffers := true }

/-- `acquiresleep(&b->lock)`, the lock being free. -/
def lock (s : Sys P) (p : P) (i : Fin NBUF) : Sys P := { s with owner := update s.owner i (some p) }

/-- `virtio_disk_rw(b, 0)` and `b->valid = 1`. -/
def fill (s : Sys P) (i : Fin NBUF) : Sys P :=
  { s with
    data := update s.data i (s.disk (s.blockno i))
    valid := update s.valid i true }

/-- `bread` returns buffer `i`. -/
def give (s : Sys P) (p : P) (i : Fin NBUF) : Sys P := (s.setMark p i (some .fresh)).setIo p .idle

/-- The second half of `brelse`. -/
def drop (s : Sys P) (p : P) (i : Fin NBUF) : Sys P :=
  { (s.decRef i).setIo p .idle with
    lru := if s.refcnt i - 1 = 0 then i :: s.lru.erase i else s.lru }

/-- The rest of `bread` and of `brelse`. -/
def resume (s : Sys P) (p : P) : Option (Sys P) :=
  match s.io p with
  | .idle => none
  | .locking i n =>
    if (s.owner i).isSome then none
    else some (if s.valid i then (s.lock p i).give p i else (s.lock p i).setIo p (.reading i n))
  | .reading i _ => some ((s.fill i).give p i)
  | .dropping i => some (s.drop p i)

/-- Store `v` to the data of buffer `i`. -/
def store (s : Sys P) (p : P) (i : Fin NBUF) (v : Block) (copyOf : Option Nat) : Sys P :=
  { s.setMark p i (some ⟨true, true, false, copyOf⟩) with data := update s.data i v }

/-- `log_write` after its two checks; a block new to the log is pinned. -/
def logged (s : Sys P) (p : P) (i : Fin NBUF) (m : Mark) (n : Nat) (log : Log.St P) : Sys P :=
  let s' := { s.setMark p i (some { m with changed := false }) with log := log }
  if n ∈ s.log.block then s' else { s'.incRef i with pins := s.pins ++ [n] }

/-- `virtio_disk_rw(b, 1)`. -/
def flush (s : Sys P) (p : P) (i : Fin NBUF) (m : Mark) (n : Nat) : Sys P :=
  { s.setMark p i (some { m with changed := false, synced := true }) with
    disk := update s.disk n (s.data i) }

/-- `releasesleep(&b->lock)`. -/
def unlock (s : Sys P) (p : P) (i : Fin NBUF) (n : Nat) : Sys P :=
  { (s.setMark p i none).setIo p (.dropping i) with
    owner := update s.owner i none
    flat := update s.flat n (s.data i) }

/-- One operation of process `p`, as far as its first step goes. -/
def exec (size : Nat) (s : Sys P) (p : P) : Op → Option (Sys P)
  | .bread n => some (s.bget p n)
  | .change n v => (s.holding p n).map fun (i, _) => s.store p i v none
  | .copy dst src =>
    (s.holding p dst).bind fun (i, _) => (s.holding p src).map fun (j, _) => s.store p i (s.data j) (some src)
  | .head n => (s.holding p n).map fun (i, _) => s.store p i (Log.setHead (s.data i) s.log.block) none
  | .logWrite n =>
    (s.holding p n).bind fun (i, m) => (Log.step size s.log (p, .logWrite n)).map fun log =>
      if log.panic.isSome then { s with log := log } else s.logged p i m n log
  | .bwrite n => (s.holding p n).map fun (i, m) => s.flush p i m n
  | .bunpin n => (s.holding p n).map fun (i, _) => { s.decRef i with pins := s.pins.erase n }
  | .brelse n => (s.holding p n).map fun (i, _) => s.unlock p i n

/-- What a client may do with block `n` by the rule of the cache. -/
def Allowed (L : Area) (s : Sys P) (p : P) : Op → Prop
  | .bread _ => True
  | .change n _ => L.Home n
  | .logWrite n => L.Home n ∧ s.log.pc p = .inOp
  | .bwrite n => L.Home n
  | .brelse n => ∀ h ∈ s.holding p n, h.2.changed = false
  | .copy .. | .head _ | .bunpin _ => False

instance (L : Area) (n : Nat) : Decidable (L.Home n) := inferInstanceAs (Decidable (_ ∧ _))

instance (L : Area) (s : Sys P) (p : P) (o : Op) : Decidable (s.Allowed L p o) := by
  cases o <;> unfold Allowed <;> infer_instance

end Sys

/-- What a process can do next. -/
inductive Act where
  | resume            -- the bread or brelse it is in
  | client (o : Op)   -- outside commit
  | script            -- the next operation of commit
  | log (a : Log.Act) -- the log protocol, log_write apart

/-- A step of process `p`. -/
def step (L : Area) (s : Sys P) (l : P × Act) : Option (Sys P) :=
  let p := l.1
  if s.noBuffers ∨ s.log.panic.isSome then none
  else match l.2 with
    | .resume => s.resume p
    | .client o =>
      if s.io p = .idle ∧ (s.log.pc p = .user ∨ s.log.pc p = .inOp) ∧ s.Allowed L p o then
        (s.exec L.size p o).map fun s' => match o with
          | .bwrite n => { s' with bwritten := n :: s.bwritten }
          | _ => s'
      else none
    | .script =>
      if s.io p = .idle then
        match s.script p with
        | [] => none
        | o :: rest => { s with script := update s.script p rest }.exec L.size p o
      else none
    | .log a =>
      if s.io p = .idle ∧ s.script p = [] ∧ a.protocol then
        (Log.step L.size s.log (p, a)).map fun log =>
          { s with
            log := log
            script := update s.script p (body L log.block (log.pc p))
            bwritten := if log.pc p = .commit then [] else s.bwritten }
      else none

end Bio

end Xv6
