import Xv6.Lib.Monitor
import Xv6.Lib.Ring

/-! `kernel/console.c`: the line discipline of console input.

    `consoleintr` takes in one character, `consoleread` hands characters out. Three counters run over one
    ring: characters from `r` to `w` are committed and wait to be read, those from `w` to `e` are the line
    being edited. The log is history: the characters typed and the characters read, in the order in
    which this happened. What the text ought to be is defined from the log alone (`Text`). -/

namespace Xv6.Console
open Monitor List

def INPUT_BUF_SIZE : Nat := 128

/-- `C('P')`, `C('U')`, `C('H')` and `C('D')`. -/
def ctrlP : UInt8 := 16
def ctrlU : UInt8 := 21
def ctrlH : UInt8 := 8
def ctrlD : UInt8 := 4
def delete : UInt8 := 127
def newline : UInt8 := 10
def cr : UInt8 := 13

/-- `c = (c == '\r') ? '\n' : c`. -/
def translate (c : UInt8) : UInt8 := if c = cr then newline else c

/-! ### What the text ought to be -/

inductive Event where
  | typed (c : UInt8)    -- consoleintr(c)
  | got (c : UInt8)      -- consoleread has copied out `c`
  | eof                  -- consoleread has consumed a control-D as end of file
  | lost (c : UInt8)     -- consoleread has taken `c` and the copyout failed
  deriving DecidableEq

/-- The committed text, the line being edited, and how much of the text has been consumed. -/
structure Text where
  text : List UInt8
  line : List UInt8
  taken : Nat

namespace Text

def unread (t : Text) : Nat := t.text.length - t.taken

/-- A character that is stored. A newline, a control-D or the last place of the buffer commits the line. -/
def accept (t : Text) (c : UInt8) : Text :=
  if c = newline ∨ c = ctrlD ∨ t.unread + t.line.length + 1 = INPUT_BUF_SIZE then
    { t with text := t.text ++ (t.line ++ [c]), line := [] }
  else { t with line := t.line ++ [c] }

def type (t : Text) (c : UInt8) : Text :=
  if c = ctrlP then t
  else if c = ctrlU then { t with line := [] }
  else if c = ctrlH ∨ c = delete then { t with line := t.line.dropLast }
  else if c ≠ 0 ∧ t.unread + t.line.length < INPUT_BUF_SIZE then t.accept (translate c)
  else t

def step (t : Text) : Event → Text
  | .typed c => t.type c
  | .got _ | .eof | .lost _ => { t with taken := t.taken + 1 }

/-- The text that a log amounts to. -/
def of (log : List Event) : Text := log.foldl step ⟨[], [], 0⟩

end Text

/-- The characters that the reads have consumed. -/
def consumed (log : List Event) : List UInt8 :=
  log.filterMap fun
    | .typed _ => none
    | .got c | .lost c => some c
    | .eof => some ctrlD

/-- `cons`. -/
structure St where
  buf : Nat → UInt8
  r : UInt32  -- Read index
  w : UInt32  -- Write index
  e : UInt32  -- Edit index
  log : List Event

inductive Call where
  | intr (c : UInt8)
  | read (n : Int)

inductive Input where
  | call (c : Call)
  | copyout (ok : Bool)

/-- Places in `console.c`. -/
inductive Label where
  | idle
  -- consoleintr
  | intr (c : UInt8) | switch (c : UInt8) | kill | store (c : UInt8) | commit (c : UInt8) | wake
  -- consoleread
  | read (n : Int) | loop (n target : Int) | wait (n target : Int) | killed (n target : Int) | sleep (n target : Int)
  | take (n target : Int) | test (n target : Int) (c : UInt8) | copy (n target : Int) (c : UInt8)
  -- release(&cons.lock) and return
  | ret (r : Int)

namespace St

def note (d : St) (e : Event) : St := { d with log := d.log ++ [e] }

/-- `cons.buf[cons.e++ % INPUT_BUF_SIZE] = c`. -/
def store (d : St) (c : UInt8) : St :=
  { d with buf := Function.update d.buf (d.e.toNat % INPUT_BUF_SIZE) c, e := d.e + 1 }

end St

def instr : Label → Instr St Unit Input Label
  | .idle => .access fun x d => (d, match x with
    | .call (.intr c) => .intr c
    | .call (.read n) => .read n
    | _ => .idle)
  | .intr c => .acquire (.switch c)
  | .switch c => .access fun _ d =>
    if c = ctrlP then (d.note (.typed c), .ret 0)
    else if c = ctrlU then (d.note (.typed c), .kill)
    else if c = ctrlH ∨ c = delete then
      if d.e ≠ d.w then ({ d with e := d.e - 1 }.note (.typed c), .ret 0) else (d.note (.typed c), .ret 0)
    else if c ≠ 0 ∧ d.e - d.r < UInt32.ofNat INPUT_BUF_SIZE then (d, .store c)
    else (d.note (.typed c), .ret 0)
  | .kill => .access fun _ d =>
    if d.e ≠ d.w ∧ d.buf ((d.e - 1).toNat % INPUT_BUF_SIZE) ≠ newline then ({ d with e := d.e - 1 }, .kill)
    else (d, .ret 0)
  | .store c => .access fun _ d => (d.store (translate c), .commit c)
  | .commit c => .access fun _ d =>
    if translate c = newline ∨ translate c = ctrlD ∨ d.e - d.r = UInt32.ofNat INPUT_BUF_SIZE then
      ({ d with w := d.e }.note (.typed c), .wake)
    else (d.note (.typed c), .ret 0)
  | .wake => .wakeup () (.ret 0)
  | .read n => .acquire (.loop n n)
  | .loop n target => .access fun _ d => (d, if 0 < n then .wait n target else .ret (target - n))
  | .wait n target => .access fun _ d => (d, if d.r = d.w then .killed n target else .take n target)
  | .killed n target => .killed fun b => if b then .ret (-1) else .sleep n target
  | .sleep n target => .sleep () (.wait n target)
  | .take n target => .access fun _ d =>
    ({ d with r := d.r + 1 }, .test n target (d.buf (d.r.toNat % INPUT_BUF_SIZE)))
  | .test n target c => .access fun _ d =>
    if c = ctrlD then
      if n < target then ({ d with r := d.r - 1 }, .ret (target - n)) else (d.note .eof, .ret (target - n))
    else (d, .copy n target c)
  | .copy n target c => .access fun x d => match x with
    | .copyout true => (d.note (.got c), if c = newline then .ret (target - (n - 1)) else .loop (n - 1) target)
    | _ => (d.note (.lost c), .ret (target - n))
  | .ret _ => .release .idle

variable {P : Type}

def program (procs : List P) : Program P St Unit Input Empty Label where
  procs := procs
  instr := fun _ => instr
  env := fun e => e.elim

def init : State P St Unit Label := State.init ⟨fun _ => 0, 0, 0, 0, []⟩ .idle

/-! ### The counters -/

namespace St
variable {d : St} {c : UInt8}

/-- The number of committed characters, and of those in the line. -/
def nread (d : St) : Nat := (d.w - d.r).toNat
def nline (d : St) : Nat := (d.e - d.w).toNat

def unread (d : St) : List UInt8 := Ring.contents INPUT_BUF_SIZE d.buf d.r.toNat d.nread
def line (d : St) : List UInt8 := Ring.contents INPUT_BUF_SIZE d.buf d.w.toNat d.nline

theorem dvd_counter : INPUT_BUF_SIZE ∣ 2 ^ 32 := by decide

theorem toNat_edit (h : d.nread + d.nline ≤ INPUT_BUF_SIZE) : (d.e - d.r).toNat = d.nread + d.nline :=
  Ring.toNat_dist_add (Nat.lt_of_le_of_lt h (by decide))

theorem edit_lt_iff (h : d.nread + d.nline ≤ INPUT_BUF_SIZE) :
    d.e - d.r < UInt32.ofNat INPUT_BUF_SIZE ↔ d.nread + d.nline < INPUT_BUF_SIZE := by
  rw [UInt32.lt_iff_toNat_lt, toNat_edit h]; rfl

theorem edit_eq_iff (h : d.nread + d.nline ≤ INPUT_BUF_SIZE) :
    d.e - d.r = UInt32.ofNat INPUT_BUF_SIZE ↔ d.nread + d.nline = INPUT_BUF_SIZE := by
  rw [← UInt32.toNat_inj, toNat_edit h]; rfl

/-! Deleting the last character of the line. -/

theorem nline_pred (h : d.e ≠ d.w) : { d with e := d.e - 1 }.nline + 1 = d.nline := by
  have h1 := d.w.toNat_lt
  have h2 := d.e.toNat_lt
  rw [ne_eq, ← UInt32.toNat_inj] at h
  simp only [nline, UInt32.toNat_sub, UInt32.toNat_one]
  omega

theorem line_pred (h : d.e ≠ d.w) :
    d.line = { d with e := d.e - 1 }.line ++ [d.buf ((d.e - 1).toNat % INPUT_BUF_SIZE)] := by
  have hplace : (d.e - 1).toNat % INPUT_BUF_SIZE = (d.w.toNat + { d with e := d.e - 1 }.nline) % INPUT_BUF_SIZE :=
    Ring.place_eq dvd_counter
  unfold line
  rw [← nline_pred h, Ring.contents_succ, hplace]

theorem line_nil (h : d.e = d.w) : d.line = [] := by
  have hlen : d.nline = 0 := Ring.toNat_dist_eq_zero.mpr h.symm
  rw [line, hlen]; rfl

/-! Storing a character behind the line. -/

theorem nline_store (h : d.nread + d.nline ≤ INPUT_BUF_SIZE) : (d.store c).nline = d.nline + 1 :=
  Ring.toNat_dist_succ (Nat.lt_of_le_of_lt ((Nat.le_add_left ..).trans h) (by decide))

theorem line_store (h : d.nread + d.nline < INPUT_BUF_SIZE) : (d.store c).line = d.line ++ [c] := by
  have hplace : d.e.toNat % INPUT_BUF_SIZE = (d.w.toNat + d.nline) % INPUT_BUF_SIZE := Ring.place_eq dvd_counter
  unfold line
  rw [nline_store h.le]
  change Ring.contents INPUT_BUF_SIZE (Function.update d.buf (d.e.toNat % INPUT_BUF_SIZE) c) d.w.toNat _ = _
  rw [hplace, Ring.contents_push ((Nat.le_add_left ..).trans_lt h)]

theorem unread_store (h : d.nread + d.nline < INPUT_BUF_SIZE) : (d.store c).unread = d.unread := by
  have hplace : d.e.toNat % INPUT_BUF_SIZE = (d.r.toNat + (d.nread + d.nline)) % INPUT_BUF_SIZE := by
    rw [← toNat_edit h.le]; exact Ring.place_eq dvd_counter
  change Ring.contents INPUT_BUF_SIZE (Function.update d.buf (d.e.toNat % INPUT_BUF_SIZE) c) d.r.toNat d.nread = _
  rw [hplace, Ring.contents_update (Nat.le_add_right ..) h]; rfl

/-! Committing the line. -/

theorem nread_commit (h : d.nread + d.nline ≤ INPUT_BUF_SIZE) : { d with w := d.e }.nread = d.nread + d.nline :=
  toNat_edit h

theorem unread_commit (h : d.nread + d.nline ≤ INPUT_BUF_SIZE) : { d with w := d.e }.unread = d.unread ++ d.line := by
  unfold unread line
  rw [nread_commit h, Ring.contents_add, Ring.contents_counter (a := d.r) (b := d.w) dvd_counter]
  rfl

/-! Taking a character. -/

theorem nread_take (h : d.r ≠ d.w) : { d with r := d.r + 1 }.nread + 1 = d.nread := Ring.toNat_dist_pred h

theorem unread_take (h : d.r ≠ d.w) :
    d.unread = d.buf (d.r.toNat % INPUT_BUF_SIZE) :: { d with r := d.r + 1 }.unread := by
  unfold unread
  rw [← nread_take h, Ring.contents_cons, Ring.contents_succ_counter dvd_counter]

end St

/-! ### The text -/

section Log
variable {log : List Event} {c : UInt8} {e : Event}

theorem Text.of_snoc : Text.of (log ++ [e]) = (Text.of log).step e := by simp [Text.of]

@[simp] theorem consumed_typed : consumed (log ++ [.typed c]) = consumed log := by simp [consumed]

@[simp] theorem consumed_got : consumed (log ++ [.got c]) = consumed log ++ [c] := by simp [consumed]

@[simp] theorem consumed_lost : consumed (log ++ [.lost c]) = consumed log ++ [c] := by simp [consumed]

@[simp] theorem consumed_eof : consumed (log ++ [.eof]) = consumed log ++ [ctrlD] := by simp [consumed]

end Log

/-- The ring and the text agree, while `held` has been taken from the ring and not been accounted for, and
    the characters behind `w` are `line`. -/
structure Agrees (d : St) (held line : List UInt8) : Prop where
  room : held.length + (d.nread + d.nline) ≤ INPUT_BUF_SIZE
  text : consumed d.log ++ (held ++ d.unread) = (Text.of d.log).text
  taken : (Text.of d.log).taken = (consumed d.log).length
  line : d.line = line
  plain : newline ∉ (Text.of d.log).line

def Discipline (d : St) : Prop := Agrees d [] (Text.of d.log).line

/-- A character that ends up in the buffer if there is room. -/
structure Stored (c : UInt8) : Prop where
  notP : c ≠ ctrlP
  notU : c ≠ ctrlU
  notDelete : ¬(c = ctrlH ∨ c = delete)
  notNul : c ≠ 0

section Agrees
variable {d : St} {c : UInt8} {held line : List UInt8} {e : Event}

theorem Agrees.room' (h : Agrees d held line) : d.nread + d.nline ≤ INPUT_BUF_SIZE :=
  (Nat.le_add_left ..).trans h.room

theorem Agrees.unread (h : Agrees d [] line) : (Text.of d.log).unread = d.nread := by
  unfold Text.unread
  rw [← h.text, h.taken, length_append, nil_append, Nat.add_sub_cancel_left]
  exact Ring.length_contents

theorem Agrees.length_line (h : Agrees d [] (Text.of d.log).line) : (Text.of d.log).line.length = d.nline := by
  rw [← h.line]; exact Ring.length_contents

/-- A typed character that leaves the text and the count alone. -/
theorem Agrees.note (h : Agrees d held line) (htext : ((Text.of d.log).type c).text = (Text.of d.log).text)
    (htaken : ((Text.of d.log).type c).taken = (Text.of d.log).taken)
    (hplain : newline ∉ ((Text.of d.log).type c).line) : Agrees (d.note (.typed c)) held line where
  room := h.room
  text := by
    change consumed (d.log ++ [.typed c]) ++ _ = (Text.of (d.log ++ [.typed c])).text
    rw [consumed_typed, Text.of_snoc]
    exact h.text.trans htext.symm
  taken := by
    change (Text.of (d.log ++ [.typed c])).taken = (consumed (d.log ++ [.typed c])).length
    rw [consumed_typed, Text.of_snoc]
    exact htaken.trans h.taken
  line := h.line
  plain := by
    change newline ∉ (Text.of (d.log ++ [.typed c])).line
    rw [Text.of_snoc]
    exact hplain

/-- A character that changes nothing. -/
theorem Discipline.ignore (h : Discipline d) (hc : (Text.of d.log).type c = Text.of d.log) :
    Discipline (d.note (.typed c)) := by
  have hlog : Text.of (d.note (.typed c)).log = Text.of d.log := Text.of_snoc.trans hc
  have := h.note (c := c) (by rw [hc]) (by rw [hc]) (by rw [hc]; exact h.plain)
  rw [Discipline, hlog]
  exact this

theorem type_ctrlP (t : Text) : t.type ctrlP = t := if_pos rfl

theorem type_ctrlU (t : Text) : t.type ctrlU = { t with line := [] } := by
  unfold Text.type
  rw [if_neg (by decide), if_pos rfl]

theorem type_delete {t : Text} (hc : c = ctrlH ∨ c = delete) : t.type c = { t with line := t.line.dropLast } := by
  unfold Text.type
  rw [if_neg (by rcases hc with rfl | rfl <;> decide), if_neg (by rcases hc with rfl | rfl <;> decide), if_pos hc]

theorem type_full {t : Text} (hP : c ≠ ctrlP) (hU : c ≠ ctrlU) (hdel : ¬(c = ctrlH ∨ c = delete))
    (h : ¬(c ≠ 0 ∧ t.unread + t.line.length < INPUT_BUF_SIZE)) : t.type c = t := by
  unfold Text.type
  rw [if_neg hP, if_neg hU, if_neg hdel, if_neg h]

theorem type_stored {t : Text} (hc : Stored c) (h : t.unread + t.line.length < INPUT_BUF_SIZE) :
    t.type c = t.accept (translate c) := by
  unfold Text.type
  rw [if_neg hc.notP, if_neg hc.notU, if_neg hc.notDelete, if_pos ⟨hc.notNul, h⟩]

/-- Control-U: the line is gone, although it is still in the buffer. -/
theorem Discipline.killLine (h : Discipline d) : Agrees (d.note (.typed ctrlU)) [] d.line ∧
    (Text.of (d.note (.typed ctrlU)).log).line = [] ∧ newline ∉ d.line := by
  have hline : (Text.of (d.note (.typed ctrlU)).log).line = [] := by
    change (Text.of (d.log ++ [.typed ctrlU])).line = []
    rw [Text.of_snoc]
    change ((Text.of d.log).type ctrlU).line = []
    rw [type_ctrlU]
  refine ⟨?_, hline, by rw [h.line]; exact h.plain⟩
  have := h.note (c := ctrlU) (by rw [type_ctrlU]) (by rw [type_ctrlU]) (by rw [type_ctrlU]; exact not_mem_nil)
  exact ⟨this.room, this.text, this.taken, rfl, this.plain⟩

/-- One turn of the loop of control-U, or a backspace. -/
theorem Agrees.erase (h : Agrees d held line) (he : d.e ≠ d.w) : Agrees { d with e := d.e - 1 } held line.dropLast := by
  have hlen := St.nline_pred he
  refine ⟨?_, h.text, h.taken, ?_, h.plain⟩
  · have := h.room
    change held.length + (d.nread + { d with e := d.e - 1 }.nline) ≤ _
    omega
  · rw [← h.line, St.line_pred he, dropLast_concat]

theorem Discipline.backspace (h : Discipline d) (hc : c = ctrlH ∨ c = delete) (he : d.e ≠ d.w) :
    Discipline ({ d with e := d.e - 1 }.note (.typed c)) := by
  have := (h.erase he).note (c := c) (by rw [type_delete hc]) (by rw [type_delete hc]) (by
    rw [type_delete hc]; exact fun hmem => h.plain (mem_of_mem_dropLast hmem))
  have hline : (Text.of ({ d with e := d.e - 1 }.note (.typed c)).log).line = (Text.of d.log).line.dropLast := by
    change (Text.of (d.log ++ [.typed c])).line = _
    rw [Text.of_snoc]
    change ((Text.of d.log).type c).line = _
    rw [type_delete hc]
  rw [Discipline, hline]
  exact this

theorem Discipline.backspace_empty (h : Discipline d) (hc : c = ctrlH ∨ c = delete) (he : d.e = d.w) :
    Discipline (d.note (.typed c)) := by
  refine h.ignore ?_
  have hnil : (Text.of d.log).line = [] := h.line.symm.trans (St.line_nil he)
  rw [type_delete hc, hnil]
  cases ht : Text.of d.log
  rw [ht] at hnil
  cases hnil
  rfl

/-- A character that does not fit, or a NUL. -/
theorem Discipline.refuse (h : Discipline d) (hP : c ≠ ctrlP) (hU : c ≠ ctrlU) (hdel : ¬(c = ctrlH ∨ c = delete))
    (hfull : ¬(c ≠ 0 ∧ d.e - d.r < UInt32.ofNat INPUT_BUF_SIZE)) : Discipline (d.note (.typed c)) := by
  refine h.ignore (type_full hP hU hdel ?_)
  rwa [Agrees.unread h, h.length_line, ← St.edit_lt_iff h.room']

/-- The character is in the buffer and not yet in the text. -/
theorem Discipline.store (h : Discipline d) (hroom : d.nread + d.nline < INPUT_BUF_SIZE) :
    Agrees (d.store c) [] ((Text.of d.log).line ++ [c]) := by
  refine ⟨?_, ?_, h.taken, ?_, h.plain⟩
  · change 0 + (d.nread + (d.store c).nline) ≤ _
    rw [St.nline_store h.room']
    omega
  · rw [St.unread_store hroom]; exact h.text
  · rw [St.line_store hroom, h.line]

/-- What the character just stored does to the text. -/
theorem Agrees.type_stored (h : Agrees d [] ((Text.of d.log).line ++ [translate c])) (hc : Stored c) :
    (Text.of d.log).type c = (Text.of d.log).accept (translate c) ∧
      ((Text.of d.log).unread + (Text.of d.log).line.length + 1 = INPUT_BUF_SIZE ↔
        d.e - d.r = UInt32.ofNat INPUT_BUF_SIZE) := by
  have hlen : (Text.of d.log).line.length + 1 = d.nline := by
    have hline : d.line.length = d.nline := Ring.length_contents
    rw [← hline, h.line]
    simp
  have hroom := h.room'
  rw [h.unread]
  refine ⟨Console.type_stored hc ?_, ?_⟩
  · rw [h.unread]; omega
  · rw [St.edit_eq_iff hroom, ← hlen, Nat.add_assoc]

theorem note_typed_text : Text.of (d.note (.typed c)).log = (Text.of d.log).type c := Text.of_snoc

/-- The line is committed. -/
theorem Agrees.commit (h : Agrees d [] ((Text.of d.log).line ++ [translate c])) (hc : Stored c)
    (hend : translate c = newline ∨ translate c = ctrlD ∨ d.e - d.r = UInt32.ofNat INPUT_BUF_SIZE) :
    Discipline ({ d with w := d.e }.note (.typed c)) := by
  obtain ⟨htype, hfull⟩ := h.type_stored hc
  have hof : Text.of ({ d with w := d.e }.note (.typed c)).log =
      { Text.of d.log with text := (Text.of d.log).text ++ ((Text.of d.log).line ++ [translate c]), line := [] } := by
    rw [note_typed_text, htype, Text.accept, if_pos (hend.imp id (Or.imp id hfull.mpr))]
  have hconsumed : consumed ({ d with w := d.e }.note (.typed c)).log = consumed d.log := consumed_typed
  refine ⟨?_, ?_, ?_, ?_, ?_⟩
  · change 0 + ({ d with w := d.e }.nread + (d.e - d.e).toNat) ≤ _
    rw [St.nread_commit h.room', UInt32.sub_self]
    have := h.room'
    simpa using this
  · rw [hof, hconsumed]
    change consumed d.log ++ { d with w := d.e }.unread = (Text.of d.log).text ++ _
    rw [St.unread_commit h.room', ← h.line, ← h.text, nil_append, append_assoc]
  · rw [hof, hconsumed]; exact h.taken
  · rw [hof]; exact St.line_nil rfl
  · rw [hof]; exact not_mem_nil

/-- The line goes on. -/
theorem Agrees.goOn (h : Agrees d [] ((Text.of d.log).line ++ [translate c])) (hc : Stored c)
    (hend : ¬(translate c = newline ∨ translate c = ctrlD ∨ d.e - d.r = UInt32.ofNat INPUT_BUF_SIZE)) :
    Discipline (d.note (.typed c)) := by
  obtain ⟨htype, hfull⟩ := h.type_stored hc
  have hof : Text.of (d.note (.typed c)).log = { Text.of d.log with line := (Text.of d.log).line ++ [translate c] } := by
    rw [note_typed_text, htype, Text.accept, if_neg (mt (Or.imp id (Or.imp id hfull.mp)) hend)]
  have hconsumed : consumed (d.note (.typed c)).log = consumed d.log := consumed_typed
  refine ⟨h.room, ?_, ?_, ?_, ?_⟩
  · rw [hof, hconsumed]; exact h.text
  · rw [hof, hconsumed]; exact h.taken
  · rw [hof]; exact h.line
  · rw [hof]
    intro hmem
    rcases mem_append.mp hmem with hmem | hmem
    · exact h.plain hmem
    · exact hend (.inl (mem_singleton.mp hmem).symm)

/-- A character is taken out of the buffer. -/
theorem Discipline.take (h : Discipline d) (hr : d.r ≠ d.w) :
    Agrees { d with r := d.r + 1 } [d.buf (d.r.toNat % INPUT_BUF_SIZE)] (Text.of d.log).line := by
  have hlen := St.nread_take hr
  refine ⟨?_, ?_, h.taken, h.line, h.plain⟩
  · have := h.room'
    change 1 + ({ d with r := d.r + 1 }.nread + d.nline) ≤ _
    omega
  · have := h.text
    rw [St.unread_take hr] at this
    exact this

/-- It is put back. -/
theorem Agrees.untake (h : Agrees d [c] (Text.of d.log).line) (hc : d.buf ((d.r - 1).toNat % INPUT_BUF_SIZE) = c) :
    Discipline { d with r := d.r - 1 } := by
  have hback : d.r - 1 + 1 = d.r := UInt32.sub_add_cancel ..
  have hr : d.r - 1 ≠ d.w := by
    intro heq
    have hlt : d.nread ≤ INPUT_BUF_SIZE := (Nat.le_add_right ..).trans h.room'
    have h1 := d.r.toNat_lt
    change _ ≤ 128 at hlt
    simp only [St.nread, ← heq, UInt32.toNat_sub, UInt32.toNat_one] at hlt
    omega
  have hd : { { d with r := d.r - 1 } with r := d.r - 1 + 1 } = d := by rw [hback]
  have hlen := St.nread_take (d := { d with r := d.r - 1 }) hr
  have hunread := St.unread_take (d := { d with r := d.r - 1 }) hr
  rw [hd] at hlen hunread
  refine ⟨?_, ?_, h.taken, h.line, h.plain⟩
  · have := h.room
    change 1 + (d.nread + d.nline) ≤ _ at this
    change 0 + ({ d with r := d.r - 1 }.nread + d.nline) ≤ _
    omega
  · rw [hunread]
    have := h.text
    rw [← hc] at this
    exact this

/-- It is consumed. -/
theorem Agrees.consume (h : Agrees d [c] (Text.of d.log).line) {e : Event} (he : consumed (d.log ++ [e]) = consumed d.log ++ [c])
    (hstep : (Text.of d.log).step e = { Text.of d.log with taken := (Text.of d.log).taken + 1 }) :
    Discipline (d.note e) := by
  have hof : Text.of (d.note e).log = { Text.of d.log with taken := (Text.of d.log).taken + 1 } :=
    Text.of_snoc.trans hstep
  refine ⟨?_, ?_, ?_, ?_, ?_⟩
  · have := h.room
    change 0 + (d.nread + d.nline) ≤ _
    change 1 + (d.nread + d.nline) ≤ _ at this
    omega
  · rw [hof]
    change consumed (d.log ++ [e]) ++ d.unread = (Text.of d.log).text
    rw [he, append_assoc]
    exact h.text
  · rw [hof]
    change _ = (consumed (d.log ++ [e])).length
    rw [he, length_append, ← h.taken]
    rfl
  · rw [hof]; exact h.line
  · rw [hof]; exact h.plain

end Agrees

/-! ### The outline -/

/-- Where the lock is held. -/
def Locked : Label → Prop
  | .idle | .intr _ | .read _ => False
  | _ => True

/-- How the ring stands at each place. -/
def Here (d : St) : Label → Prop
  | .kill => Agrees d [] d.line ∧ (Text.of d.log).line = [] ∧ newline ∉ d.line
  | .store c => Discipline d ∧ Stored c ∧ d.nread + d.nline < INPUT_BUF_SIZE
  | .commit c => Agrees d [] ((Text.of d.log).line ++ [translate c]) ∧ Stored c
  | .take .. => Discipline d ∧ d.r ≠ d.w
  | .test _ _ c => Agrees d [c] (Text.of d.log).line ∧ d.buf ((d.r - 1).toNat % INPUT_BUF_SIZE) = c
  | .copy _ _ c => Agrees d [c] (Text.of d.log).line
  | _ => Discipline d

def outline : Outline P St Unit Label where
  locked := Locked
  inv := Discipline
  own := fun _ _ _ => True
  pre := fun _ k d => Here d k
  wait := fun _ _ => True
  may := fun _ _ _ _ => True
  sees := fun _ _ _ => True

variable {p : P} {k k' : Label} {d d' : St}

theorem goes (hk : Locked k) (hk' : Locked k') (hpre : Here d' k') : outline.Goes p k d d' k' where
  own := trivial
  locked := iff_of_true hk hk'
  pre := fun _ => hpre
  may := fun _ _ _ => trivial
  others := fun _ _ _ _ => trivial
  calm := fun hno => absurd hk hno

theorem respects_idle : outline.Respects p .idle (instr .idle) := by
  intro x d _ _
  have hk : ∀ k', ¬Locked k' → outline.Goes p .idle d d k' := fun k' hno => .wander id hno trivial
  cases x with
  | call c =>
    cases c with
    | intr c => exact hk (.intr c) id
    | read n => exact hk (.read n) id
  | copyout ok => exact hk .idle id

theorem respects_switch (c : UInt8) : outline.Respects p (.switch c) (instr (.switch c)) := by
  intro x d _ hpre
  have hd : Discipline d := hpre trivial
  dsimp only
  by_cases hP : c = ctrlP
  · rw [if_pos hP]
    refine goes trivial trivial (hd.ignore ?_)
    rw [hP]; exact type_ctrlP _
  rw [if_neg hP]
  by_cases hU : c = ctrlU
  · rw [if_pos hU, hU]
    exact goes trivial trivial hd.killLine
  rw [if_neg hU]
  by_cases hdel : c = ctrlH ∨ c = delete
  · rw [if_pos hdel]
    split
    · exact goes trivial trivial (hd.backspace hdel ‹_›)
    · exact goes trivial trivial (hd.backspace_empty hdel (not_not.mp ‹_›))
  rw [if_neg hdel]
  split
  · rename_i hfit
    exact goes trivial trivial ⟨hd, ⟨hP, hU, hdel, hfit.1⟩, (St.edit_lt_iff hd.room').mp hfit.2⟩
  · exact goes trivial trivial (hd.refuse hP hU hdel ‹_›)

theorem respects : ∀ k, outline.Respects p k (instr k)
  | .idle => respects_idle
  | .intr _ | .read _ => ⟨id, fun _ _ => trivial, trivial, fun _ _ hinv => ⟨hinv, fun _ _ => trivial⟩⟩
  | .switch c => respects_switch c
  | .kill => fun _ d _ hpre => by
    obtain ⟨hd, hnil, hplain⟩ := hpre trivial
    dsimp only
    split
    · rename_i hmore
      have hsub : newline ∉ { d with e := d.e - 1 }.line := fun hmem => by
        rw [St.line_pred hmore.1] at hplain
        exact hplain (mem_append_left _ hmem)
      have herase := hd.erase hmore.1
      exact goes trivial trivial ⟨⟨herase.room, herase.text, herase.taken, rfl, herase.plain⟩, hnil, hsub⟩
    · -- the loop does not stop at a newline, for there is none in the line
      rename_i hdone
      have he : d.e = d.w := by
        by_contra he
        have hlast : d.buf ((d.e - 1).toNat % INPUT_BUF_SIZE) = newline := not_not.mp fun hne => hdone ⟨he, hne⟩
        rw [St.line_pred he, hlast] at hplain
        exact hplain (mem_append_right _ (mem_singleton_self _))
      have hline : d.line = (Text.of d.log).line := (St.line_nil he).trans hnil.symm
      exact goes trivial trivial ⟨hd.room, hd.text, hd.taken, hline, hd.plain⟩
  | .store c => fun _ d _ hpre => by
    obtain ⟨hd, hc, hroom⟩ := hpre trivial
    exact goes trivial trivial ⟨hd.store hroom, hc⟩
  | .commit c => fun _ d _ hpre => by
    obtain ⟨hd, hc⟩ := hpre trivial
    dsimp only
    split
    · exact goes trivial trivial (hd.commit hc ‹_›)
    · exact goes trivial trivial (hd.goOn hc ‹_›)
  | .wake => ⟨Iff.rfl, fun _ _ => ⟨trivial, fun _ hpre => ⟨hpre, fun _ _ _ => trivial⟩⟩⟩
  | .loop n target => fun _ d _ hpre => by
    dsimp only
    split
    · exact goes trivial trivial (hpre trivial)
    · exact goes trivial trivial (hpre trivial)
  | .wait n target => fun _ d _ hpre => by
    dsimp only
    split
    · exact goes trivial trivial (hpre trivial)
    · exact goes trivial trivial ⟨hpre trivial, ‹_›⟩
  | .killed n target => fun b _ => by
    cases b with
    | true => exact ⟨Iff.rfl, fun _ _ => ⟨trivial, fun _ hpre => ⟨hpre, fun _ _ => trivial⟩⟩⟩
    | false => exact ⟨Iff.rfl, fun _ _ => ⟨trivial, fun _ hpre => ⟨hpre, fun _ _ => trivial⟩⟩⟩
  | .sleep n target => ⟨trivial, fun _ _ hpre => ⟨trivial, hpre, trivial, fun _ _ => trivial⟩, trivial,
      fun _ _ hinv => ⟨hinv, fun _ _ => trivial⟩⟩
  | .take n target => fun _ d _ hpre => by
    obtain ⟨hd, hr⟩ := hpre trivial
    refine goes trivial trivial ⟨hd.take hr, ?_⟩
    change d.buf ((d.r + 1 - 1).toNat % INPUT_BUF_SIZE) = _
    rw [UInt32.add_sub_cancel]
  | .test n target c => fun _ d _ hpre => by
    obtain ⟨hd, hc⟩ := hpre trivial
    dsimp only
    split
    · rename_i heq
      split
      · exact goes trivial trivial (hd.untake hc)
      · exact goes trivial trivial (hd.consume (by rw [heq]; exact consumed_eof) rfl)
    · exact goes trivial trivial hd
  | .copy n target c => fun x d _ hpre => by
    have hd : Agrees d [c] (Text.of d.log).line := hpre trivial
    have hgot : Discipline (d.note (.got c)) := hd.consume consumed_got rfl
    have hlost : Discipline (d.note (.lost c)) := hd.consume consumed_lost rfl
    cases x with
    | copyout ok =>
      cases ok with
      | true =>
        dsimp only
        split
        · exact goes trivial trivial hgot
        · exact goes trivial trivial hgot
      | false => exact goes trivial trivial hlost
    | call c => exact goes trivial trivial hlost
  | .ret _ => ⟨trivial, id, fun _ _ hpre => ⟨trivial, hpre, fun _ _ => trivial⟩⟩

/-! ### Runs -/

variable {procs : List P}

theorem valid (hall : ∀ p, p ∈ procs) : outline.Valid (program procs) where
  all := hall
  instr := fun _ k => respects k
  env := fun e => e.elim

theorem good_init : (outline : Outline P St Unit Label).Good init :=
  .init id (fun _ => trivial) ⟨by decide, by decide, rfl, by decide, by decide⟩

variable [DecidableEq P] {as : List (Act P Input Empty)} {s s' : State P St Unit Label}

end Xv6.Console
