import Xv6.Param
import Xv6.Lib.Bytes
import Xv6.Lib.Replay

/-! `kernel/log.c`: the write-ahead log against crashes.

    The machine is the contents of the buffer cache, the disk, and the list of `bwrite`s issued so
    far; a crash keeps the disk that the first `k` of them made and loses everything else. `commit`
    and `recoverFromLog` are the source's loops over `log.lh`. The header block is a real block: `n`
    is its first 32-bit word and `block[i]` the words after it.

        commit:   log blocks ──▶ header (n) ──▶ home blocks ──▶ header (0)
                  │ crash: old   │ crash here or later, then recovery: new

    A disk is `Clean` for a home state when its header says `n = 0`, and `Committed` when its header
    and log blocks hold a whole transaction, whatever has happened to that transaction's home
    blocks. Every crash leaves one of the two, and recovery turns the second into the first. -/

namespace Xv6.Log
open Bytes Replay List

/-- Contents of a disk block. -/
abbrev Block := Buf

/-- Where the log lies on disk: `log.start` and `log.size`, as `initlog` copies them from a super
    block of a disk of `sbSize` blocks. `mkfs` writes `nlog = LOGSIZE`. -/
structure Area where
  start : Nat
  size : Nat
  sbSize : Nat
  size_pos : 0 < size
  size_le : size ≤ LOGSIZE
  inside : start + size ≤ sbSize
  sbSize_lt : sbSize < 2 ^ 32

/-- A home block: on the disk and outside the log area. -/
def Area.Home (L : Area) (b : Nat) : Prop := b < L.sbSize ∧ (b < L.start ∨ L.start + L.size ≤ b)

/-- Cache contents, disk contents, and the `bwrite`s so far in program order. -/
structure Machine where
  cache : Nat → Option Block
  disk : Nat → Block
  bwrites : List (Nat × Block)

namespace Machine

/-- Contents of block `b`: the cached copy, else the one on disk. -/
def bread (m : Machine) (b : Nat) : Block := (m.cache b).getD (m.disk b)

/-- Write `data` through to block `b` on disk. -/
def bwrite (m : Machine) (b : Nat) (data : Block) : Machine where
  cache := Function.update m.cache b (some data)
  disk := Function.update m.disk b data
  bwrites := m.bwrites ++ [(b, data)]

end Machine

/-- A machine that has just started from disk `d`: nothing cached. -/
def boot (d : Nat → Block) : Machine := ⟨fun _ => none, d, []⟩

/-- `lh->n`. It is an `int`: with the top bit set it is negative and every loop over it is empty. -/
def headN (hb : Block) : Nat :=
  if (getU32 hb 0).toNat < 2 ^ 31 then (getU32 hb 0).toNat else 0

/-- `lh->block[i]`. -/
def headBlock (hb : Block) (i : Nat) : Nat := (getU32 hb (4 + 4 * i)).toNat

/-- The stores `hb->block[i] = log.lh.block[i]` from index `i` on. -/
def setHeadBlocks (hb : Block) : Nat → List Nat → Block
  | _, [] => hb
  | i, b :: bs => setHeadBlocks (setU32 hb (4 + 4 * i) (UInt32.ofNat b)) (i + 1) bs

/-- The header block after `hb->n = log.lh.n` and the copies of `log.lh.block`. -/
def setHead (hb : Block) (lh : List Nat) : Block :=
  setHeadBlocks (setU32 hb 0 (UInt32.ofNat lh.length)) 0 lh

variable (L : Area)

/-- Copy modified blocks from cache to log, from log slot `tail` on. -/
def writeLogFrom : Nat → List Nat → Machine → Machine
  | _, [], m => m
  | tail, b :: lh, m => writeLogFrom (tail + 1) lh (m.bwrite (L.start + tail + 1) (m.bread b))

def writeLog (lh : List Nat) (m : Machine) : Machine := writeLogFrom L 0 lh m

/-- Copy committed blocks from log to their home location, from log slot `tail` on. -/
def installTransFrom : Nat → List Nat → Machine → Machine
  | _, [], m => m
  | tail, b :: lh, m => installTransFrom (tail + 1) lh (m.bwrite b (m.bread (L.start + tail + 1)))

def installTrans (lh : List Nat) (m : Machine) : Machine := installTransFrom L 0 lh m

/-- Read the log header from disk into the in-memory log header. -/
def readHead (m : Machine) : List Nat :=
  (range (headN (m.bread L.start))).map (headBlock (m.bread L.start))

/-- Write in-memory log header to disk: the true point at which a transaction commits. -/
def writeHead (lh : List Nat) (m : Machine) : Machine :=
  m.bwrite L.start (setHead (m.bread L.start) lh)

def commit (lh : List Nat) (m : Machine) : Machine :=
  if 0 < lh.length then
    writeHead L [] (installTrans L lh (writeHead L lh (writeLog L lh m)))
  else m

def recoverFromLog (m : Machine) : Machine :=
  writeHead L [] (installTrans L (readHead L m) m)

/-! ### Transactions and crashes -/

/-- A transaction: distinct home blocks, at most `log.size - 1` of them, and their new contents. -/
structure Trans where
  blocks : List Nat
  data : Nat → Block
  nodup : blocks.Nodup
  home : ∀ b ∈ blocks, L.Home b
  length_le : blocks.length ≤ L.size - 1

variable {L}

/-- The home state after the transaction. -/
def Trans.apply (t : Trans L) (d : Nat → Block) : Nat → Block :=
  fun b => if b ∈ t.blocks then t.data b else d b

/-- The home state after a sequence of transactions. -/
def applyAll (ts : List (Trans L)) (d : Nat → Block) : Nat → Block :=
  ts.foldl (fun d t => t.apply d) d

/-- The file system has put the new contents into the cache. -/
def Trans.stage (t : Trans L) (m : Machine) : Machine :=
  { m with cache := fun b => if b ∈ t.blocks then some (t.data b) else m.cache b }

/-- One transaction, from its writes to the cache to the end of `commit`. -/
def runTrans (m : Machine) (t : Trans L) : Machine := commit L t.blocks (t.stage m)

/-- The `bwrite`s that `f` issues from `m`. -/
def bwritesOf (f : Machine → Machine) (m : Machine) : List (Nat × Block) :=
  (f { m with bwrites := [] }).bwrites

/-- The disk left by a crash after the first `k` `bwrite`s of `f`. -/
def crashAfter (f : Machine → Machine) (m : Machine) (k : Nat) : Nat → Block :=
  replay m.disk ((bwritesOf f m).take k)

/-- Whether the header write of `commit` is among the first `k` writes of the commit of `t`. -/
abbrev HeaderWritten (t : Trans L) (m : Machine) (k : Nat) : Prop :=
  L.start ∈ ((bwritesOf (commit L t.blocks) (t.stage m)).take k).map Prod.fst

variable (L)

/-- A sequence of transactions, each committed before the next. -/
def runAll (ts : List (Trans L)) (m : Machine) : Machine := ts.foldl runTrans m

/-- Disks left by any number of boots whose recovery is cut short by a further crash. -/
inductive CrashedBoots (d : Nat → Block) : (Nat → Block) → Prop where
  | none : CrashedBoots d d
  | crash {d' : Nat → Block} (k : Nat) :
      CrashedBoots d d' → CrashedBoots d (crashAfter (recoverFromLog L) (boot d') k)

variable {L}

/-! ### The header block -/

theorem setHeadBlocks_other : ∀ {hb : Block} {i : Nat} {bs : List Nat} {k : Nat},
    k < 4 + 4 * i → setHeadBlocks hb i bs k = hb k
  | _, _, [], _, _ => rfl
  | hb, i, b :: bs, k, h => by
    rw [setHeadBlocks, setHeadBlocks_other (by omega), setU32_other (by omega)]

theorem headBlock_setHeadBlocks : ∀ (hb : Block) (i : Nat) {j : Nat} {bs : List Nat} (hj : j < bs.length),
    (∀ b ∈ bs, b < 2 ^ 32) → headBlock (setHeadBlocks hb i bs) (i + j) = bs[j]
  | _, _, _, [], hj, _ => by simp at hj
  | hb, i, 0, b :: bs, _, hbs => by
    have hb32 : b < 2 ^ 32 := hbs b (mem_cons_self ..)
    rw [headBlock, setHeadBlocks, getU32_congr fun k _ hk => setHeadBlocks_other (by omega)]
    simp only [add_zero, getU32_setU32, getElem_cons_zero]
    exact toNat_ofNat_u32 hb32
  | hb, i, j + 1, b :: bs, hj, hbs => by
    have hrest : j < bs.length := by simpa using hj
    have := headBlock_setHeadBlocks (setU32 hb (4 + 4 * i) (UInt32.ofNat b)) (i + 1) hrest
      fun c hc => hbs c (mem_cons_of_mem _ hc)
    rw [setHeadBlocks, show i + (j + 1) = i + 1 + j by omega, this, getElem_cons_succ]

variable {lh : List Nat}

theorem headN_setHead (hb : Block) (h : lh.length ≤ LOGSIZE) :
    headN (setHead hb lh) = lh.length := by
  have h30 : lh.length ≤ 30 := h
  have hn : getU32 (setHead hb lh) 0 = UInt32.ofNat lh.length := by
    rw [setHead, getU32_congr fun k _ hk => setHeadBlocks_other (by omega), getU32_setU32]
  have hlen : (UInt32.ofNat lh.length).toNat = lh.length := toNat_ofNat_u32 (by omega)
  rw [headN, hn, hlen, if_pos (by omega)]

theorem headN_setHead_nil (hb : Block) : headN (setHead hb []) = 0 :=
  headN_setHead hb (Nat.zero_le _)

/-- The list `read_head` gets out of a header block. -/
def headList (hb : Block) : List Nat := (range (headN hb)).map (headBlock hb)

theorem headList_setHead {hb : Block} (h : lh.length ≤ LOGSIZE)
    (hlh : ∀ b ∈ lh, b < 2 ^ 32) : headList (setHead hb lh) = lh := by
  apply ext_getElem
  · simp [headList, headN_setHead _ h]
  · intro i _ hi
    have hblk := headBlock_setHeadBlocks (setU32 hb 0 (UInt32.ofNat lh.length)) 0 hi hlh
    simpa [headList, setHead] using hblk

/-! ### What a piece of `log.c` writes -/

/-- Going from `m` to `m'`, exactly the writes `ws` reached cache and disk, in this order. -/
structure Issues (m m' : Machine) (ws : List (Nat × Block)) : Prop where
  bread : m'.bread = replay m.bread ws
  disk : m'.disk = replay m.disk ws
  bwrites : m'.bwrites = m.bwrites ++ ws

theorem Issues.refl (m : Machine) : Issues m m [] := ⟨rfl, rfl, by simp⟩

variable {ws : List (Nat × Block)}

theorem Issues.trans {m₁ m₂ m₃ : Machine} {vs : List (Nat × Block)} (h : Issues m₁ m₂ ws)
    (h' : Issues m₂ m₃ vs) : Issues m₁ m₃ (ws ++ vs) :=
  ⟨by rw [h'.bread, h.bread, replay_append], by rw [h'.disk, h.disk, replay_append],
    by rw [h'.bwrites, h.bwrites, append_assoc]⟩

theorem issues_bwrite (m : Machine) (b : Nat) (data : Block) :
    Issues m (m.bwrite b data) [(b, data)] := by
  refine ⟨?_, rfl, rfl⟩
  funext c
  by_cases hc : c = b
  · subst hc; simp [Machine.bread, Machine.bwrite, replay]
  · simp [Machine.bread, Machine.bwrite, replay, Function.update_of_ne hc]

/-- The writes of `write_log` when block `b` holds `c b`. -/
def logCopies (L : Area) (c : Nat → Block) : Nat → List Nat → List (Nat × Block)
  | _, [] => []
  | tail, b :: lh => (L.start + tail + 1, c b) :: logCopies L c (tail + 1) lh

/-- The writes of `install_trans` when block `b` holds `c b`. -/
def homeCopies (L : Area) (c : Nat → Block) : Nat → List Nat → List (Nat × Block)
  | _, [] => []
  | tail, b :: lh => (b, c (L.start + tail + 1)) :: homeCopies L c (tail + 1) lh

variable {c : Nat → Block}

theorem logCopies_congr (e : Nat → Block) : ∀ {tail : Nat} {lh : List Nat},
    (∀ b ∈ lh, c b = e b) → logCopies L c tail lh = logCopies L e tail lh
  | _, [], _ => rfl
  | tail, b :: lh, h => by
    rw [logCopies, logCopies, h b (mem_cons_self ..),
      logCopies_congr e fun b hb => h b (mem_cons_of_mem _ hb)]

theorem homeCopies_congr (e : Nat → Block) : ∀ {tail : Nat} {lh : List Nat},
    (∀ i, tail ≤ i → i < tail + lh.length → c (L.start + i + 1) = e (L.start + i + 1)) →
    homeCopies L c tail lh = homeCopies L e tail lh
  | _, [], _ => rfl
  | tail, b :: lh, h => by
    rw [homeCopies, homeCopies, h tail (by omega) (by simp),
      homeCopies_congr e fun i h1 h2 => h i (by omega) (by simp only [length_cons]; omega)]

theorem mem_logCopies : ∀ {tail : Nat} {lh : List Nat} {w : Nat × Block},
    w ∈ logCopies L c tail lh → L.start + tail < w.1 ∧ w.1 ≤ L.start + tail + lh.length
  | _, [], _, h => by simp [logCopies] at h
  | tail, b :: lh, w, h => by
    rw [logCopies, mem_cons] at h
    rcases h with rfl | h
    · exact ⟨by simp, by simp only [length_cons]; omega⟩
    · have := mem_logCopies h
      simp only [length_cons]; omega

theorem length_logCopies : ∀ (tail : Nat) (lh : List Nat),
    (logCopies L c tail lh).length = lh.length
  | _, [] => rfl
  | tail, _ :: lh => by rw [logCopies, length_cons, length_logCopies (tail + 1) lh]; rfl

/-- If log slot `i` holds `f` of the `i`-th block, installing writes `f b` to every `b`. -/
theorem homeCopies_eq_map {f : Nat → Block} : ∀ {tail : Nat} {lh : List Nat},
    (∀ i (hi : i < lh.length), c (L.start + (tail + i) + 1) = f lh[i]) →
    homeCopies L c tail lh = lh.map fun b => (b, f b)
  | _, [], _ => rfl
  | tail, b :: lh, h => by
    have hrest : homeCopies L c (tail + 1) lh = lh.map fun b => (b, f b) :=
      homeCopies_eq_map fun i hi => by
        have := h (i + 1) (by simpa using hi)
        rwa [show tail + (i + 1) = tail + 1 + i by omega] at this
    have hb : c (L.start + tail + 1) = f b := h 0 (by simp)
    rw [homeCopies, hrest, hb, map_cons]

/-- After `write_log`, log slot `i` holds the `i`-th block. -/
theorem replay_logCopies {d : Nat → Block} : ∀ (tail : Nat) {lh : List Nat} {i : Nat}
    (hi : i < lh.length), replay d (logCopies L c tail lh) (L.start + (tail + i) + 1) = c lh[i]
  | _, [], _, hi => by simp at hi
  | tail, b :: lh, 0, _ => by
    rw [logCopies, replay, replay_other fun w hw => by have := mem_logCopies hw; omega]
    simp
  | tail, b :: lh, i + 1, hi => by
    rw [logCopies, replay, show tail + (i + 1) = tail + 1 + i by omega,
      replay_logCopies (tail + 1) (by simpa using hi), getElem_cons_succ]

theorem Area.Home.ne_log {b i : Nat} (hb : L.Home b) (hi : i < L.size) : b ≠ L.start + i := by
  have := hb.2; omega

theorem Area.Home.ne_start {b : Nat} (hb : L.Home b) : b ≠ L.start := hb.ne_log L.size_pos

theorem writeLogFrom_issues : ∀ (tail : Nat) (lh : List Nat) (m : Machine),
    (∀ b ∈ lh, L.Home b) → tail + lh.length < L.size →
    Issues m (writeLogFrom L tail lh m) (logCopies L m.bread tail lh)
  | _, [], m, _, _ => Issues.refl m
  | tail, b :: lh, m, hlh, hlen => by
    simp only [length_cons] at hlen
    have hw := issues_bwrite m (L.start + tail + 1) (m.bread b)
    have hrest := writeLogFrom_issues (tail + 1) lh (m.bwrite (L.start + tail + 1) (m.bread b))
      (fun b hb => hlh b (mem_cons_of_mem _ hb)) (by omega)
    rw [logCopies_congr m.bread] at hrest
    · exact hw.trans hrest
    · intro b' hb'
      have hne := (hlh b' (mem_cons_of_mem _ hb')).ne_log (i := tail + 1) (by omega)
      rw [hw.bread]
      exact replay_other (by simpa [add_assoc] using hne.symm)

theorem installTransFrom_issues : ∀ (tail : Nat) (lh : List Nat) (m : Machine),
    (∀ b ∈ lh, L.Home b) → tail + lh.length < L.size →
    Issues m (installTransFrom L tail lh m) (homeCopies L m.bread tail lh)
  | _, [], m, _, _ => Issues.refl m
  | tail, b :: lh, m, hlh, hlen => by
    simp only [length_cons] at hlen
    have hw := issues_bwrite m b (m.bread (L.start + tail + 1))
    have hrest := installTransFrom_issues (tail + 1) lh
      (m.bwrite b (m.bread (L.start + tail + 1)))
      (fun b hb => hlh b (mem_cons_of_mem _ hb)) (by omega)
    rw [homeCopies_congr m.bread] at hrest
    · exact hw.trans hrest
    · intro i _ hi
      have hne := (hlh b (mem_cons_self ..)).ne_log (i := i + 1) (by omega)
      rw [hw.bread]
      exact replay_other (by simpa [add_assoc] using hne)

theorem writeHead_issues (lh : List Nat) (m : Machine) :
    Issues m (writeHead L lh m) [(L.start, setHead (m.bread L.start) lh)] :=
  issues_bwrite ..

variable {m : Machine}

/-- The writes of `commit`: log blocks, the committing header, home blocks, the cleared header. -/
theorem commit_issues (hpos : 0 < lh.length)
    (hlh : ∀ b ∈ lh, L.Home b) (hlen : lh.length < L.size) :
    ∃ h₁ h₀, headList h₁ = lh ∧ headN h₀ = 0 ∧
      Issues m (commit L lh m) (logCopies L m.bread 0 lh ++ (L.start, h₁) ::
        (lh.map (fun b => (b, m.bread b)) ++ [(L.start, h₀)])) := by
  have hlen' : lh.length ≤ LOGSIZE := by have := L.size_le; omega
  have hlog := writeLogFrom_issues 0 lh m hlh (by omega)
  have hhead := writeHead_issues (L := L) lh (writeLog L lh m)
  have hinst := installTransFrom_issues 0 lh (writeHead L lh (writeLog L lh m)) hlh (by omega)
  have hclear := writeHead_issues (L := L) []
    (installTrans L lh (writeHead L lh (writeLog L lh m)))
  -- the committing header write leaves the log slots as `write_log` made them
  have hslots : ∀ i (hi : i < lh.length),
      (writeHead L lh (writeLog L lh m)).bread (L.start + (0 + i) + 1) = m.bread lh[i] := by
    intro i hi
    rw [hhead.bread, replay_other (by simp; omega), writeLog, hlog.bread]
    exact replay_logCopies 0 hi
  rw [homeCopies_eq_map hslots] at hinst
  have hall := hlog.trans (hhead.trans (hinst.trans hclear))
  rw [singleton_append] at hall
  rw [commit, if_pos hpos]
  exact ⟨_, _, headList_setHead hlen' fun b hb => lt_trans (hlh b hb).1 L.sbSize_lt,
    headN_setHead_nil _, hall⟩

/-- The writes of `recover_from_log` on a disk whose log slots hold `f` of the blocks named. -/
theorem recover_issues {d f : Nat → Block} (hd : headList (d L.start) = lh)
    (hlh : ∀ b ∈ lh, L.Home b) (hlen : lh.length < L.size)
    (hf : ∀ i (hi : i < lh.length), d (L.start + i + 1) = f lh[i]) :
    ∃ h₀, headN h₀ = 0 ∧ Issues (boot d) (recoverFromLog L (boot d))
      (lh.map (fun b => (b, f b)) ++ [(L.start, h₀)]) := by
  have hread : readHead L (boot d) = lh := hd
  have hinst := installTransFrom_issues 0 lh (boot d) hlh (by omega)
  have hclear := writeHead_issues (L := L) [] (installTrans L lh (boot d))
  rw [homeCopies_eq_map (f := f) fun i hi => by rw [zero_add]; exact hf i hi] at hinst
  rw [recoverFromLog, hread]
  exact ⟨_, headN_setHead_nil _, hinst.trans hclear⟩

/-! ### Disks a crash can leave -/

/-- No transaction in the log, and the home blocks are `base`. -/
structure Clean (L : Area) (base d : Nat → Block) : Prop where
  head : headN (d L.start) = 0
  home : ∀ b, L.Home b → d b = base b

/-- Transaction `t` is whole in the log; its own home blocks may hold anything. -/
structure Committed (t : Trans L) (base d : Nat → Block) : Prop where
  head : headList (d L.start) = t.blocks
  slots : ∀ i (hi : i < t.blocks.length), d (L.start + i + 1) = t.data t.blocks[i]
  home : ∀ b, L.Home b → b ∉ t.blocks → d b = base b

/-- A disk that recovery turns into the home state `base`. -/
def Pending (L : Area) (base d : Nat → Block) : Prop :=
  ∃ (t : Trans L) (base₀ : Nat → Block), Committed t base₀ d ∧ base = t.apply base₀

variable {base : Nat → Block}

/-- A clean disk has the empty transaction in its log. -/
theorem Clean.pending {d : Nat → Block} (h : Clean L base d) : Pending L base d := by
  refine ⟨⟨[], fun _ _ => 0, nodup_nil, by simp, by simp⟩, base, ⟨?_, by simp, ?_⟩, ?_⟩
  · simp [headList, h.head]
  · exact fun b hb _ => h.home b hb
  · funext b; simp [Trans.apply]

theorem Trans.length_lt (t : Trans L) : t.blocks.length < L.size := by
  have := t.length_le; have := L.size_pos; omega

variable {t : Trans L}

/-- Writing some of the home blocks of a committed transaction keeps it committed. -/
theorem Committed.install {d : Nat → Block} (h : Committed t base d) (hws : ∀ w ∈ ws, w.1 ∈ t.blocks) : Committed t base (replay d ws) := by
  refine ⟨?_, fun i hi => ?_, fun b hb hbt => ?_⟩
  · rw [replay_other fun w hw => (t.home _ (hws w hw)).ne_start]
    exact h.head
  · have hlt := t.length_lt
    have hne : ∀ w ∈ ws, w.1 ≠ L.start + i + 1 := fun w hw =>
      (t.home _ (hws w hw)).ne_log (i := i + 1) (by omega)
    rw [replay_other hne]
    exact h.slots i hi
  · have hne : ∀ w ∈ ws, w.1 ≠ b := fun w hw hwb => hbt (hwb ▸ hws w hw)
    rw [replay_other hne]
    exact h.home b hb hbt

/-- Writing all of them and clearing the header finishes it. -/
theorem Committed.finish {d : Nat → Block} (h : Committed t base d) {h₀ : Block}
    (hh₀ : headN h₀ = 0) :
    Clean L (t.apply base) (replay d (t.blocks.map (fun b => (b, t.data b)) ++ [(L.start, h₀)])) := by
  rw [replay_append]
  refine ⟨by simpa [replay] using hh₀, fun b hb => ?_⟩
  rw [replay_other (by simpa using hb.ne_start.symm)]
  by_cases hbt : b ∈ t.blocks
  · rw [replay_of_mem (f := t.data) (by simp) (by simpa using hbt), Trans.apply, if_pos hbt]
  · rw [replay_other fun w hw hwb => hbt ?_, Trans.apply, if_neg hbt, h.home b hb hbt]
    obtain ⟨b', hb', rfl⟩ := mem_map.mp hw
    exact hwb ▸ hb'

theorem bwritesOf_of_issues {f : Machine → Machine}
    (h : Issues { m with bwrites := [] } (f { m with bwrites := [] }) ws) : bwritesOf f m = ws :=
  h.bwrites

/-- Writing to the log area only, header excepted, keeps a disk clean. -/
theorem Clean.logCopies {d : Nat → Block} (h : Clean L base d)
    (hlen : lh.length < L.size) (hws : ∀ w ∈ ws, w ∈ logCopies L c 0 lh) :
    Clean L base (replay d ws) := by
  refine ⟨?_, fun b hb => ?_⟩
  · rw [replay_other fun w hw => by have := mem_logCopies (hws w hw); omega]
    exact h.head
  · rw [replay_other fun w hw => by have := mem_logCopies (hws w hw); have := hb.2; omega]
    exact h.home b hb

/-- `write_log` and the header write make the staged transaction committed. -/
theorem Clean.committed {d : Nat → Block} (h : Clean L base d) {h₁ : Block}
    (hh₁ : headList h₁ = t.blocks) (hc : ∀ b ∈ t.blocks, c b = t.data b) :
    Committed t base (replay d (Log.logCopies L c 0 t.blocks ++ [(L.start, h₁)])) := by
  have hlen := t.length_lt
  rw [replay_append]
  refine ⟨by simpa [replay] using hh₁, fun i hi => ?_, fun b hb _ => ?_⟩
  · have hslot := replay_logCopies (L := L) (c := c) (d := d) 0 hi
    rw [zero_add] at hslot
    rw [replay_other (by simp; omega), hslot, hc _ (getElem_mem hi)]
  · rw [replay_other (by simpa using hb.ne_start.symm)]
    exact (h.logCopies hlen fun w hw => hw).home b hb

theorem Trans.bread_stage (t : Trans L) (m : Machine) {b : Nat} (hb : b ∈ t.blocks) :
    (t.stage m).bread b = t.data b := by
  simp [Trans.stage, Machine.bread, hb]

/-- The writes of the commit of `t`, with the new contents in place. -/
theorem runTrans_issues (t : Trans L) (m : Machine) (hpos : 0 < t.blocks.length) :
    ∃ h₁ h₀, headList h₁ = t.blocks ∧ headN h₀ = 0 ∧
      Issues (t.stage m) (runTrans m t) (Log.logCopies L t.data 0 t.blocks ++ (L.start, h₁) ::
        (t.blocks.map (fun b => (b, t.data b)) ++ [(L.start, h₀)])) := by
  obtain ⟨h₁, h₀, hh₁, hh₀, hiss⟩ := commit_issues (m := t.stage m) hpos t.home t.length_lt
  have hdata : ∀ b ∈ t.blocks, (t.stage m).bread b = t.data b := fun b hb => t.bread_stage m hb
  have hmap : t.blocks.map (fun b => (b, (t.stage m).bread b)) =
      t.blocks.map fun b => (b, t.data b) :=
    map_congr_left fun b hb => by rw [hdata b hb]
  rw [logCopies_congr _ hdata, hmap] at hiss
  exact ⟨h₁, h₀, hh₁, hh₀, hiss⟩

/-- A crash anywhere in `commit` leaves the old state pending before the header write, and the new
    one from it on. -/
theorem crash_commit (h : Clean L base m.disk)
    (k : Nat) :
    Pending L (if HeaderWritten t m k then t.apply base else base)
      (crashAfter (commit L t.blocks) (t.stage m) k) := by
  have hdisk : (t.stage m).disk = m.disk := rfl
  unfold HeaderWritten crashAfter
  rw [hdisk]
  rcases eq_zero_or_pos t.blocks.length with hzero | hpos
  · have hnone : bwritesOf (commit L t.blocks) (t.stage m) = [] := by
      simp [bwritesOf, commit, hzero]
    rw [hnone, take_nil, if_neg (by simp)]
    exact h.pending
  obtain ⟨h₁, h₀, hh₁, hh₀, hiss⟩ := runTrans_issues t { m with bwrites := [] } hpos
  rw [bwritesOf_of_issues hiss]
  have hlog := length_logCopies (L := L) (c := t.data) 0 t.blocks
  rcases lt_or_ge t.blocks.length k with hk | hk
  · -- the committing header write is among the first `k`
    obtain ⟨j, rfl⟩ : ∃ j, k = t.blocks.length + (j + 1) := ⟨k - t.blocks.length - 1, by omega⟩
    rw [take_append, hlog, Nat.add_sub_cancel_left, take_succ_cons,
      take_of_length_le (by omega), if_pos (by simp), append_cons, replay_append]
    have hcomm := h.committed hh₁ (c := t.data) fun b _ => rfl
    rcases lt_or_ge t.blocks.length j with hj | hj
    · rw [take_of_length_le (by simp; omega)]
      exact (hcomm.finish hh₀).pending
    · rw [take_append_of_le_length (by simpa using hj)]
      refine ⟨t, base, hcomm.install fun w hw => ?_, rfl⟩
      obtain ⟨b, hb, rfl⟩ := mem_map.mp (mem_of_mem_take hw)
      exact hb
  · rw [take_append_of_le_length (by omega), if_neg]
    · exact (h.logCopies t.length_lt fun w hw => mem_of_mem_take hw).pending
    · intro hmem
      obtain ⟨w, hw, hstart⟩ := mem_map.mp hmem
      have := mem_logCopies (mem_of_mem_take hw)
      omega

/-- A completed commit installs its transaction. -/
theorem clean_commit (h : Clean L base m.disk) :
    Clean L (t.apply base) (runTrans m t).disk := by
  rcases eq_zero_or_pos t.blocks.length with hzero | hpos
  · have happly : t.apply base = base := by
      funext b; rw [Trans.apply, length_eq_zero_iff.mp hzero, if_neg (not_mem_nil)]
    rw [happly, runTrans, commit, if_neg (by omega)]
    exact h
  · obtain ⟨h₁, h₀, hh₁, hh₀, hiss⟩ := runTrans_issues t m hpos
    rw [hiss.disk, append_cons, replay_append]
    exact (h.committed hh₁ (c := t.data) fun b _ => rfl).finish hh₀

/-- A crash anywhere in recovery leaves the same home state pending. -/
theorem crash_recover {d : Nat → Block} (h : Pending L base d) (k : Nat) :
    Pending L base (crashAfter (recoverFromLog L) (boot d) k) := by
  obtain ⟨t, base₀, hcomm, rfl⟩ := h
  obtain ⟨h₀, hh₀, hiss⟩ := recover_issues hcomm.head t.home t.length_lt hcomm.slots
  have hdisk : (boot d).disk = d := rfl
  rw [crashAfter, hdisk, bwritesOf_of_issues (m := boot d) hiss]
  rcases lt_or_ge t.blocks.length k with hk | hk
  · rw [take_of_length_le (by simp; omega)]
    exact (hcomm.finish hh₀).pending
  · rw [take_append_of_le_length (by simpa using hk)]
    refine ⟨t, base₀, hcomm.install fun w hw => ?_, rfl⟩
    obtain ⟨b, hb, rfl⟩ := mem_map.mp (mem_of_mem_take hw)
    exact hb

/-- A completed recovery brings out the pending home state. -/
theorem clean_recover {d : Nat → Block} (h : Pending L base d) :
    Clean L base (recoverFromLog L (boot d)).disk := by
  obtain ⟨t, base₀, hcomm, rfl⟩ := h
  obtain ⟨h₀, hh₀, hiss⟩ := recover_issues hcomm.head t.home t.length_lt hcomm.slots
  rw [hiss.disk]
  exact hcomm.finish hh₀

theorem pending_crashedBoots {d d' : Nat → Block} (h : CrashedBoots L d d')
    (hd : Pending L base d) : Pending L base d' := by
  induction h with
  | none => exact hd
  | crash k _ ih => exact crash_recover ih k

theorem clean_runAll : ∀ {ts : List (Trans L)} {base : Nat → Block} {m : Machine},
    Clean L base m.disk → Clean L (applyAll ts base) (runAll L ts m).disk
  | [], _, _, h => h
  | t :: ts, base, m, h => by
    rw [applyAll, runAll, foldl_cons, foldl_cons]
    exact clean_runAll (clean_commit h)

/-- CRASH ATOMICITY: cut the commit of the `i`-th transaction after any `k` of its writes, then any
    number of recoveries after any number of theirs, and let one recovery finish. The home blocks are
    those of the transactions before the `i`-th, with the `i`-th in full exactly if its header write
    happened, and the log is empty. -/
theorem crash_atomic (L : Area) (ts : List (Trans L)) (d : Nat → Block)
    (hd : headN (d L.start) = 0) (i : Nat) (hi : i < ts.length) (k : Nat) {d' : Nat → Block}
    (hcrash : CrashedBoots L
      (crashAfter (commit L ts[i].blocks) (ts[i].stage (runAll L (ts.take i) (boot d))) k) d') :
    (∀ b, L.Home b → (recoverFromLog L (boot d')).disk b =
      applyAll (if HeaderWritten ts[i] (runAll L (ts.take i) (boot d)) k then ts.take (i + 1)
        else ts.take i) d b) ∧
    headN ((recoverFromLog L (boot d')).disk L.start) = 0 := by
  have hbefore : Clean L (applyAll (ts.take i) d) (runAll L (ts.take i) (boot d)).disk :=
    clean_runAll ⟨hd, fun _ _ => rfl⟩
  have hfinal := clean_recover (pending_crashedBoots hcrash (crash_commit hbefore k))
  refine ⟨fun b hb => ?_, hfinal.head⟩
  rw [hfinal.home b hb]
  by_cases hw : HeaderWritten ts[i] (runAll L (ts.take i) (boot d)) k
  · rw [if_pos hw, if_pos hw, take_succ_eq_append_getElem hi, applyAll, applyAll,
      foldl_append]
    rfl
  · rw [if_neg hw, if_neg hw]

/-- The log area `mkfs` lays out. -/
def mkfsArea : Area where
  start := 2
  size := LOGSIZE
  sbSize := FSSIZE
  size_pos := by decide
  size_le := by decide
  inside := by decide
  sbSize_lt := by decide

/-- One block of a freshly made disk gets new contents. -/
def oneBlock : Trans mkfsArea where
  blocks := [100]
  data := fun _ _ => 7
  nodup := by decide
  home := by simp [Area.Home, mkfsArea, FSSIZE, LOGSIZE, MAXOPBLOCKS]
  length_le := by decide

/-- The commit is cut right after its header write, the first recovery after its home write. -/
theorem crash_atomic_oneBlock :
    HeaderWritten oneBlock (boot fun _ _ => 0) 2 ∧
    (recoverFromLog mkfsArea (boot (crashAfter (recoverFromLog mkfsArea) (boot
      (crashAfter (commit mkfsArea [100]) (oneBlock.stage (boot fun _ _ => 0)) 2)) 1))).disk 100
        = fun _ => 7 := by
  have hw : HeaderWritten oneBlock (boot fun _ _ => 0) 2 := by decide
  refine ⟨hw, ?_⟩
  have hhome : mkfsArea.Home 100 := oneBlock.home 100 (by decide)
  have h := crash_atomic mkfsArea [oneBlock] (fun _ _ => 0) (by decide) 0 (by decide) 2
    (CrashedBoots.crash 1 CrashedBoots.none)
  exact (h.1 100 hhome).trans (by rw [if_pos (by exact hw)]; rfl)

end Xv6.Log
