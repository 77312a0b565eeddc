import Xv6.Param
import Xv6.Lib.Monitor

/-! `kernel/virtio_disk.c`: requests to the disk by any number of processes.

    `virtio_disk_rw` takes three descriptors, formats them as a chain, puts the head of the chain into the
    avail ring and sleeps until the request is done. The device takes the heads out of the avail ring,
    serves them in any order, writes a zero into the status byte and puts the head into the used ring,
    from where `virtio_disk_intr` takes it. Driver and device share memory and no lock.

        descriptors free ──alloc3_desc──▶ held ──avail ring──▶ in flight ──free_chain──▶ free

    A process calls `virtio_disk_rw` for a buffer whose sleep-lock it holds, as `bread` and `bwrite` do;
    the interrupt handler is one more process. Descriptor numbers are natural numbers here: that they are
    all below `NUM`, and so fit into their fields, is part of what is proved. -/

namespace Xv6.Virtio
open Monitor Function

def NUM : Nat := 8
def VRING_DESC_F_NEXT : UInt16 := 1    -- chained with another descriptor
def VRING_DESC_F_WRITE : UInt16 := 2   -- device writes (vs read)
def VIRTIO_BLK_T_IN : UInt32 := 0      -- read the disk
def VIRTIO_BLK_T_OUT : UInt32 := 1     -- write the disk

variable {P B : Type}

/-- What a descriptor points to: nothing, `disk.ops[i]`, `b->data` or `disk.info[i].status`. -/
inductive Addr (B : Type) where
  | null | ops (i : Nat) | data (b : B) | status (i : Nat)
  deriving DecidableEq

/-- `struct virtq_desc`. -/
structure Desc (B : Type) where
  addr : Addr B
  len : UInt32
  flags : UInt16
  next : Nat

/-- `struct virtq_avail`: the driver will write `ring[idx]` next. -/
structure Avail where
  idx : UInt16
  ring : Nat → Nat

/-- `struct virtq_used`: the device increments `idx` when it adds an entry. -/
structure Used where
  idx : UInt16
  ring : Nat → Nat

/-- `struct virtio_blk_req`. -/
structure BlkReq where
  type : UInt32
  reserved : UInt32
  sector : UInt64

/-- `disk.info[i]`. -/
structure Info (B : Type) where
  b : Option B
  status : UInt8

/-- The three descriptors of a request. -/
structure Chain where
  i0 : Nat
  i1 : Nat
  i2 : Nat
  deriving DecidableEq

def Chain.all (c : Chain) : List Nat := [c.i0, c.i1, c.i2]

/-- A request the device has been told about: who waits for it, the buffer, the descriptors. -/
structure Flight (P B : Type) where
  p : P
  b : B
  chain : Chain
  deriving DecidableEq

/-- `struct disk`, the `disk` fields and the sleep-locks of the buffers, and the device. -/
structure St (P B : Type) where
  desc : Nat → Desc B
  avail : Avail
  used : Used
  free : Nat → Bool
  usedIdx : UInt16         -- we've looked this far in used
  info : Nat → Info B
  ops : Nat → BlkReq
  disk : B → Bool          -- b->disk
  owner : B → Option P     -- who holds b->lock
  -- the device: how far it has looked in avail, and the heads it works on or is done with
  look : UInt16
  work : List Nat
  served : List Nat
  -- history
  found : Nat → Bool       -- the descriptors that were free when alloc3_desc began
  flight : List (Flight P B)
  submitted : List Nat     -- heads the driver has told the device of
  taken : List Nat         -- heads the device has taken
  completed : List (Addr B)  -- where the data of the completed requests are
  cleared : List B         -- the buffers whose b->disk the interrupt handler has cleared

/-- `&disk.free[0]` and the buffers. -/
inductive Chan (B : Type) where
  | free | buf (b : B)
  deriving DecidableEq

/-- The arguments of `virtio_disk_rw`. -/
structure Args (B : Type) where
  b : B
  blockno : UInt32
  write : Bool

inductive Input (B : Type) where
  | lock (b : B) | unlock (b : B)
  | rw (r : Args B)
  | intr

/-- Where the kernel would stop, or use what is not there. -/
inductive Panic where
  | freeDesc1 | freeDesc2 | status | bounds | null

/-- Places in `virtio_disk.c`. -/
inductive Label (B : Type) where
  | idle
  -- virtio_disk_rw
  | rw (r : Args B) | loop (r : Args B)
  -- alloc3_desc, with the descriptors it has so far
  | alloc (r : Args B) (idx : List Nat) | undo (r : Args B) (idx : List Nat) | undoWake (r : Args B) (idx : List Nat)
  | full (r : Args B)
  | format (r : Args B) (c : Chain) | record (r : Args B) (c : Chain) | ring (r : Args B) (c : Chain) | avail (r : Args B) (c : Chain)
  | wait (b : B) (c : Chain) | waitSleep (b : B) (c : Chain) | done (b : B) (c : Chain)
  -- free_chain
  | chain (i : Nat) | chainWake (nxt : Option Nat)
  | ret
  -- virtio_disk_intr
  | intr | iloop | ientry | iwake (b : B) | inext
  | panic (e : Panic)

/-! ### The driver -/

section Driver
variable [DecidableEq P] [DecidableEq B]

/-- Find a free descriptor, mark it non-free, return its index. -/
def allocDesc (d : St P B) : Option (Nat × St P B) :=
  ((List.range NUM).find? d.free).map fun i => (i, { d with free := update d.free i false })

/-- Mark a descriptor as free; the `wakeup` is a step of its own. -/
def freeDesc (d : St P B) (i : Nat) : Except Panic (St P B) :=
  if i ≥ NUM then .error .freeDesc1
  else if d.free i then .error .freeDesc2
  else .ok { d with desc := update d.desc i ⟨.null, 0, 0, 0⟩, free := update d.free i true }

/-- Format the three descriptors. -/
def format (d : St P B) (r : Args B) (c : Chain) : St P B :=
  let buf0 : BlkReq := ⟨if r.write then VIRTIO_BLK_T_OUT else VIRTIO_BLK_T_IN, 0, (r.blockno * UInt32.ofNat (BSIZE / 512)).toUInt64⟩
  let d0 : Desc B := ⟨.ops c.i0, 16, VRING_DESC_F_NEXT, c.i1⟩
  let d1 : Desc B := ⟨.data r.b, UInt32.ofNat BSIZE, (if r.write then 0 else VRING_DESC_F_WRITE) ||| VRING_DESC_F_NEXT, c.i2⟩
  let d2 : Desc B := ⟨.status c.i0, 1, VRING_DESC_F_WRITE, 0⟩
  { d with
    ops := update d.ops c.i0 buf0
    info := update d.info c.i0 { d.info c.i0 with status := 0xff }
    desc := update (update (update d.desc c.i0 d0) c.i1 d1) c.i2 d2 }

/-- Write the head of a chain into the avail ring. -/
def St.setRing (d : St P B) (i : Nat) : St P B :=
  { d with avail := { d.avail with ring := update d.avail.ring (d.avail.idx.toNat % NUM) i } }

/-- Tell the device that another avail ring entry is available. -/
def St.publish (d : St P B) (f : Flight P B) : St P B :=
  { d with avail := { d.avail with idx := d.avail.idx + 1 }, flight := f :: d.flight, submitted := d.submitted ++ [f.chain.i0] }

/-- The request of process `p` is over. -/
def St.forget (d : St P B) (p : P) (c : Chain) : St P B :=
  { d with info := update d.info c.i0 { d.info c.i0 with b := none }, flight := d.flight.filter (·.p ≠ p) }

/-- The disk is done with buffer `b`. -/
def St.clear (d : St P B) (b : B) : St P B :=
  { d with disk := update d.disk b false, cleared := d.cleared ++ [b] }

def instr (p : P) : Label B → Instr (St P B) (Chan B) (Input B) (Label B)
  | .idle => .access fun x d => match x with
    | .lock b => (if d.owner b = none then { d with owner := update d.owner b (some p) } else d, .idle)
    | .unlock b => (if d.owner b = some p then { d with owner := update d.owner b none } else d, .idle)
    | .rw r => (d, if d.owner r.b = some p then .rw r else .idle)
    | .intr => (d, .intr)
  | .rw r => .acquire (.loop r)
  | .loop r => .access fun _ d => ({ d with found := d.free }, .alloc r [])
  | .alloc r idx => .access fun _ d =>
    match allocDesc d with
    | none => (d, .undo r idx)
    | some (i, d') => (d', match idx with
      | [i0, i1] => .format r ⟨i0, i1, i⟩
      | _ => .alloc r (idx ++ [i]))
  | .undo r idx => .access fun _ d =>
    match idx with
    | [] => (d, .full r)
    | i :: is =>
      match freeDesc d i with
      | .ok d' => (d', .undoWake r is)
      | .error e => (d, .panic e)
  | .undoWake r idx => .wakeup .free (.undo r idx)
  | .full r => .sleep .free (.loop r)
  | .format r c => .access fun _ d => (format d r c, .record r c)
  | .record r c => .access fun _ d =>
    ({ d with disk := update d.disk r.b true,
              info := update d.info c.i0 { d.info c.i0 with b := some r.b } }, .ring r c)
  | .ring r c => .access fun _ d => (d.setRing c.i0, .avail r c)
  | .avail r c => .access fun _ d => (d.publish ⟨p, r.b, c⟩, .wait r.b c)
  | .wait b c => .access fun _ d => (d, if d.disk b then .waitSleep b c else .done b c)
  | .waitSleep b c => .sleep (.buf b) (.wait b c)
  | .done _ c => .access fun _ d => (d.forget p c, .chain c.i0)
  | .chain i => .access fun _ d =>
    let flag := (d.desc i).flags
    let nxt := (d.desc i).next
    match freeDesc d i with
    | .ok d' => (d', .chainWake (if flag &&& VRING_DESC_F_NEXT ≠ 0 then some nxt else none))
    | .error e => (d, .panic e)
  | .chainWake nxt => .wakeup .free (match nxt with
    | some i => .chain i
    | none => .ret)
  | .ret => .release .idle
  | .intr => .acquire .iloop
  | .iloop => .access fun _ d => (d, if d.usedIdx ≠ d.used.idx then .ientry else .ret)
  | .ientry => .access fun _ d =>
    let id := d.used.ring (d.usedIdx.toNat % NUM)
    if id ≥ NUM then (d, .panic .bounds)
    else if (d.info id).status ≠ 0 then (d, .panic .status)
    else match (d.info id).b with
      | none => (d, .panic .null)
      | some b => (d.clear b, .iwake b)
  | .iwake b => .wakeup (.buf b) .inext
  | .inext => .access fun _ d => ({ d with usedIdx := d.usedIdx + 1 }, .iloop)
  | .panic e => .access fun _ d => (d, .panic e)

end Driver

/-! ### The device -/

inductive Device where
  | take | serve (h : Nat) | append (h : Nat)

def St.dataDesc (d : St P B) (h : Nat) : Desc B := d.desc (d.desc h).next

def St.statusDesc (d : St P B) (h : Nat) : Desc B := d.desc (d.dataDesc h).next

/-- The device takes each head once, and completes the requests in any order: it writes status 0 where
    the third descriptor of the chain says, and adds the head to the used ring once. -/
def device : Device → St P B → Option (St P B)
  | .take, d =>
    if d.look = d.avail.idx then none
    else
      let h := d.avail.ring (d.look.toNat % NUM)
      some { d with look := d.look + 1, work := h :: d.work, taken := d.taken ++ [h] }
  | .serve h, d =>
    if h ∈ d.work then
      let d := { d with work := d.work.erase h, served := h :: d.served }
      match (d.statusDesc h).addr with
      | .status i => some { d with info := update d.info i { d.info i with status := 0 } }
      | _ => some d
    else none
  | .append h, d =>
    if h ∈ d.served then
      some { d with served := d.served.erase h, completed := d.completed ++ [(d.dataDesc h).addr],
                    used := ⟨d.used.idx + 1, update d.used.ring (d.used.idx.toNat % NUM) h⟩ }
    else none

def program [DecidableEq P] [DecidableEq B] (procs : List P) :
    Program P (St P B) (Chan B) (Input B) Device (Label B) where
  procs := procs
  instr := instr
  env := device

def virtioDiskInit : St P B where
  desc := fun _ => ⟨.null, 0, 0, 0⟩
  avail := ⟨0, fun _ => 0⟩
  used := ⟨0, fun _ => 0⟩
  free := fun i => decide (i < NUM)
  usedIdx := 0
  info := fun _ => ⟨none, 0⟩
  ops := fun _ => ⟨0, 0, 0⟩
  disk := fun _ => false
  owner := fun _ => none
  look := 0
  work := []
  served := []
  found := fun i => decide (i < NUM)
  flight := []
  submitted := []
  taken := []
  completed := []
  cleared := []

def init : State P (St P B) (Chan B) (Label B) := State.init virtioDiskInit .idle

end Xv6.Virtio
